import Mathlib

/-! The 64-bit binary floating-point numbers: a finite one is a sign and a multiple of the least positive number, with
at most 53 significant bits. Results are the exact ones, rounded to the nearest, ties to even. -/
namespace Lib

variable {a b d m n k : ℕ}

/-! ## Fifty-three significant bits -/

/-- The place of the last of the 53 bits of a number, one when it has no more. -/
def lastPlace (n : ℕ) : ℕ := 2^(n.log2-52)

/-- The number has at most 53 significant bits. -/
def Short (n : ℕ) : Prop := lastPlace n ∣ n

instance : DecidablePred Short := fun n => inferInstanceAs (Decidable (lastPlace n ∣ n))

theorem lastPlace_pos (n : ℕ) : 0 < lastPlace n := Nat.two_pow_pos _

theorem lt_lastPlace (n : ℕ) : n < 2^53*lastPlace n := by
  rw [lastPlace,← pow_add]
  exact Nat.lt_log2_self.trans_le (Nat.pow_le_pow_right (by decide) (by omega))

theorem short_of_dvd {e : ℕ} (hdvd : 2^e ∣ m) (hle : m ≤ 2^53*2^e) : Short m := by
  rw [← pow_add] at hle
  obtain hlt | rfl := hle.lt_or_eq
  · by_cases hm : m = 0
    · rw [hm]
      exact dvd_zero _
    · have hlog : m.log2 < 53+e := (Nat.log2_lt hm).mpr hlt
      exact (pow_dvd_pow 2 (by omega)).trans hdvd
  · rw [Short,lastPlace,Nat.log2_two_pow]
    exact pow_dvd_pow 2 (by omega)

theorem short_of_le (h : m ≤ 2^53) : Short m := short_of_dvd (e := 0) (one_dvd m) (by simpa using h)

theorem log2_shift (hn : n ≠ 0) (k : ℕ) : (n*2^k).log2 = n.log2+k := by
  rw [Nat.log2_eq_iff (Nat.mul_ne_zero hn (Nat.two_pow_pos k).ne'),pow_add,show n.log2+k+1 = n.log2+1+k by omega,pow_add]
  exact ⟨Nat.mul_le_mul_right _ (Nat.log2_self_le hn),Nat.mul_lt_mul_of_pos_right Nat.lt_log2_self (Nat.two_pow_pos k)⟩

theorem short_shift (k : ℕ) : Short (n*2^k) ↔ Short n := by
  by_cases hn : n = 0
  · simp [hn,Short]
  have hlog := log2_shift hn k
  constructor
  · intro h
    by_cases hsmall : n.log2 ≤ 52
    · rw [Short,lastPlace,Nat.sub_eq_zero_of_le hsmall]
      exact one_dvd n
    · rw [Short,lastPlace,hlog,show n.log2+k-52 = n.log2-52+k by omega,pow_add] at h
      exact Nat.dvd_of_mul_dvd_mul_right (Nat.two_pow_pos k) h
  · intro h
    refine short_of_dvd (e := n.log2-52+k) ?_ ?_
    · rw [pow_add]
      exact Nat.mul_dvd_mul_right h _
    · rw [pow_add,← mul_assoc]
      exact Nat.mul_le_mul_right _ (lt_lastPlace n).le

theorem Short.mod (ha : Short a) (hb : Short b) (hpos : 0 < b) : Short (a%b) := by
  obtain hle | hle := le_total (a.log2-52) (b.log2-52)
  · have hdvd : lastPlace a ∣ a%b := (Nat.dvd_mod_iff ((pow_dvd_pow 2 hle).trans hb)).mpr ha
    exact short_of_dvd hdvd ((Nat.mod_le a b).trans (lt_lastPlace a).le)
  · have hdvd : lastPlace b ∣ a%b := (Nat.dvd_mod_iff hb).mpr ((pow_dvd_pow 2 hle).trans ha)
    exact short_of_dvd hdvd ((Nat.mod_lt a hpos).le.trans (lt_lastPlace b).le)

/-! ## Rounding -/

/-- The number of at most 53 bits that is nearest to a quotient; of two, the even one. -/
def nearest (num den : ℕ) : ℕ :=
  let unit := lastPlace (num/den)
  let whole := num/(unit*den)
  let rest := num%(unit*den)
  (if 2*rest < unit*den ∨ 2*rest = unit*den ∧ whole%2 = 0 then whole else whole+1)*unit

theorem nearest_bounds (num d : ℕ) :
    ∃ whole, whole = num/d/lastPlace (num/d) ∧ whole < 2^53 ∧
      (nearest num d = whole*lastPlace (num/d) ∨ nearest num d = (whole+1)*lastPlace (num/d)) := by
  refine ⟨_,rfl,?_,?_⟩
  · rw [Nat.div_lt_iff_lt_mul (lastPlace_pos _)]
    exact lt_lastPlace _
  · have hwhole : num/(lastPlace (num/d)*d) = num/d/lastPlace (num/d) := by rw [mul_comm,Nat.div_div_eq_div_mul]
    rw [nearest,hwhole]
    split_ifs
    · exact .inl rfl
    · exact .inr rfl

theorem nearest_short (num d : ℕ) : Short (nearest num d) := by
  obtain ⟨whole,-,hlt,hround⟩ := nearest_bounds num d
  refine short_of_dvd (e := (num/d).log2-52) ?_ ?_
  · obtain h | h := hround <;> rw [h] <;> exact dvd_mul_left _ _
  · obtain h | h := hround <;> rw [h] <;> exact Nat.mul_le_mul_right _ (by omega)

theorem nearest_of_short (h : Short n) (hd : 0 < d) : nearest (n*d) d = n := by
  have hquot : n*d/d = n := Nat.mul_div_cancel n hd
  have hrest : n*d%(lastPlace n*d) = 0 := Nat.mod_eq_zero_of_dvd (Nat.mul_dvd_mul_right h d)
  have hwhole : n*d/(lastPlace n*d) = n/lastPlace n := Nat.mul_div_mul_right n _ hd
  have hpos : 0 < lastPlace n*d := Nat.mul_pos (lastPlace_pos n) hd
  rw [nearest,hquot,hrest,hwhole,if_pos (.inl (by simpa using hpos)),Nat.div_mul_cancel h]

theorem nearest_mono (hd : 0 < d) (h : a ≤ b) : nearest a d ≤ nearest b d := by
  have hquot : a/d ≤ b/d := Nat.div_le_div_right h
  by_cases hplace : lastPlace (a/d) = lastPlace (b/d)
  · -- the same place: whole parts are compared first, then what is left
    have hpos : 0 < lastPlace (b/d)*d := Nat.mul_pos (lastPlace_pos _) hd
    have hwhole := Nat.div_le_div_right (c := lastPlace (b/d)*d) h
    rw [nearest,nearest,hplace]
    refine Nat.mul_le_mul_right _ ?_
    obtain hlt | heq := hwhole.lt_or_eq
    · split_ifs <;> omega
    · have hrest : a%(lastPlace (b/d)*d) ≤ b%(lastPlace (b/d)*d) := by
        have ha := Nat.div_add_mod a (lastPlace (b/d)*d)
        have hb := Nat.div_add_mod b (lastPlace (b/d)*d)
        rw [heq] at ha
        omega
      rw [heq]
      split_ifs <;> omega
  · -- a smaller place: the one is at most the least number of the other's place
    obtain ⟨e,he⟩ : ∃ e, (b/d).log2 = 53+e ∧ (a/d).log2-52 ≤ e := by
      have hle : (a/d).log2 ≤ (b/d).log2 := by
        rw [Nat.log2_eq_log_two,Nat.log2_eq_log_two]
        exact Nat.log_mono_right hquot
      have hne : (a/d).log2-52 ≠ (b/d).log2-52 := fun heq => hplace (congrArg (2^·) heq)
      exact ⟨(b/d).log2-53,by omega,by omega⟩
    obtain ⟨hlog,hle⟩ := he
    obtain ⟨whole,-,hlt,hround⟩ := nearest_bounds a d
    obtain ⟨whole',hwhole',-,hround'⟩ := nearest_bounds b d
    have hlow : nearest a d ≤ 2^53*lastPlace (a/d) := by
      obtain h | h := hround <;> rw [h] <;> exact Nat.mul_le_mul_right _ (by omega)
    have hplace' : lastPlace (b/d) = 2*2^e := by rw [lastPlace,hlog,← pow_succ',show 53+e-52 = e+1 by omega]
    have hbig : 2^52 ≤ whole' := by
      have hne : b/d ≠ 0 := by
        intro hzero
        rw [hzero,Nat.log2_zero] at hlog
        omega
      rw [hwhole',hplace',Nat.le_div_iff_mul_le (by positivity),← pow_succ',← pow_add,show 52+(e+1) = (b/d).log2 by omega]
      exact Nat.log2_self_le hne
    have hhigh : 2^52*lastPlace (b/d) ≤ nearest b d := by
      obtain h | h := hround' <;> rw [h] <;> exact Nat.mul_le_mul_right _ (by omega)
    have hstep : lastPlace (a/d) ≤ 2^e := Nat.pow_le_pow_right (by decide) hle
    rw [hplace'] at hhigh
    omega

/-! ## The numbers -/

/-- The least positive number is two to the minus this. -/
@[irreducible] def depth : ℕ := 1074

/-- No number reaches two to this. -/
@[irreducible] def height : ℕ := 1024

/-- One in multiples of the least positive number. -/
def ones : ℕ := 2^depth

/-- What no number reaches in multiples of the least positive number. -/
def beyond : ℕ := 2^height*ones

theorem ones_pos : 0 < ones := Nat.two_pow_pos _

inductive Binary64 where
  | nan
  | infinite (negative : Bool)
  | finite (negative : Bool) (units : ℕ) (short : Short units) (bounded : units < beyond)
  deriving DecidableEq

namespace Binary64

/-- A quotient, rounded. -/
def ofRatio (negative : Bool) (num den : ℕ) : Binary64 :=
  if h : nearest num den < beyond then .finite negative (nearest num den) (nearest_short num den) h else .infinite negative

def ofInt (i : ℤ) : Binary64 := ofRatio (i < 0) (i.natAbs*ones) 1

def zero (negative : Bool) : Binary64 := ofRatio negative 0 1

/-- A signed number of units, with the sign that a zero gets. -/
def ofUnits (negativeZero : Bool) (v : ℤ) : Binary64 := if v = 0 then zero negativeZero else ofRatio (v < 0) v.natAbs 1

/-- The signed number of units, that of an infinity beyond all others. -/
def units : Binary64 → Option ℤ
  | nan => none
  | infinite negative => some (if negative then -beyond else beyond)
  | finite negative n _ _ => some (if negative then -n else n)

def neg : Binary64 → Binary64
  | nan => nan
  | infinite negative => .infinite !negative
  | finite negative n h h' => .finite (!negative) n h h'

def add : Binary64 → Binary64 → Binary64
  | nan,_ => nan
  | _,nan => nan
  | infinite s,infinite t => if s = t then .infinite s else nan
  | infinite s,finite .. => .infinite s
  | finite ..,infinite t => .infinite t
  | finite s m _ _,finite t n _ _ => ofUnits (s && t) ((if s then -m else m : ℤ)+(if t then -n else n : ℤ))

def sub (x y : Binary64) : Binary64 := x.add y.neg

def mul : Binary64 → Binary64 → Binary64
  | nan,_ => nan
  | _,nan => nan
  | infinite s,infinite t => .infinite (s != t)
  | infinite s,finite t n _ _ => if n = 0 then nan else .infinite (s != t)
  | finite s m _ _,infinite t => if m = 0 then nan else .infinite (s != t)
  | finite s m _ _,finite t n _ _ => ofRatio (s != t) (m*n) (ones)

def div : Binary64 → Binary64 → Binary64
  | nan,_ => nan
  | _,nan => nan
  | infinite _,infinite _ => nan
  | infinite s,finite t _ _ _ => .infinite (s != t)
  | finite s _ _ _,infinite t => zero (s != t)
  | finite s m _ _,finite t n _ _ =>
    if n = 0 then if m = 0 then nan else .infinite (s != t) else ofRatio (s != t) (m*ones) n

/-- The remainder with the sign of the dividend. -/
def rem : Binary64 → Binary64 → Binary64
  | nan,_ => nan
  | _,nan => nan
  | infinite _,_ => nan
  | finite s m h h',infinite _ => .finite s m h h'
  | finite s m _ _,finite _ n _ _ => if n = 0 then nan else ofRatio s (m%n) 1

def abs : Binary64 → Binary64
  | nan => nan
  | infinite _ => .infinite false
  | finite _ n h h' => .finite false n h h'

/-- The order of numbers; none when one is not a number. -/
def partialCmp (x y : Binary64) : Option Ordering := do
  let a ← x.units
  let b ← y.units
  return compare a b

def eq (x y : Binary64) : Bool := x.partialCmp y = some .eq

def lt (x y : Binary64) : Bool := x.partialCmp y = some .lt

/-- The remainder that is not negative. -/
def remEuclid (x y : Binary64) : Binary64 := if (x.rem y).lt (ofInt 0) then (x.rem y).add y.abs else x.rem y

/-- The whole part, within the bounds; zero when there is no number. -/
def toInt (low high : ℤ) (x : Binary64) : ℤ :=
  match x with
  | nan => 0
  | infinite negative => if negative then low else high
  | finite negative n _ _ => max low (min high (if negative then -(n/ones : ℕ) else (n/ones : ℕ)))

end Binary64

end Lib
