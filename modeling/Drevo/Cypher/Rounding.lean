import Drevo.Cypher.Range

/-! Rounding of a decimal to a number of places by its digits. -/
namespace Drevo.Cypher
open Lib

inductive RoundingMode where
  | up | down | ceiling | floor | halfUp | halfDown | halfEven
  deriving DecidableEq

/-- Whether the digits that are kept are to be incremented, by the first digit that is dropped, whether another is not
zero, the sign, and the parity of the last digit that is kept. -/
def RoundingMode.shouldIncrement (mode : RoundingMode) (neg : Bool) (roundDigit : ℕ) (anyAfter lastKeptOdd : Bool) : Bool :=
  let anyDropped := roundDigit != 0 || anyAfter
  match mode with
  | .up => anyDropped
  | .down => false
  | .ceiling => !neg && anyDropped
  | .floor => neg && anyDropped
  | .halfUp => 5 ≤ roundDigit
  | .halfDown => 5 < roundDigit || (roundDigit == 5 && anyAfter)
  | .halfEven => 5 < roundDigit || (roundDigit == 5 && (anyAfter || lastKeptOdd))

/-- The digits of a number, the highest first, plus one. -/
def incrementReversed : List ℕ → List ℕ
  | [] => [1]
  | d :: rest => if d = 9 then 0 :: incrementReversed rest else (d+1) :: rest

def incrementDigits (digits : List ℕ) : List ℕ := (incrementReversed digits.reverse).reverse

/-- A decimal without sign: its digits before and after the point. -/
structure Decimal where
  int : List ℕ
  frac : List ℕ
  digit : ∀ d ∈ int ++ frac, d < 10
  nonempty : int ≠ []
  bounded : ((int ++ frac).length : ℤ) ≤ i64Max

def Decimal.digits (value : Decimal) : List ℕ := value.int ++ value.frac

/-- What rounding by digits leads to: how many digits were stored, and the digits that are kept at the places asked for,
none when the decimal stays as it is. -/
structure Rounded where
  stored : ℕ
  kept : Option (List ℕ)
  deriving DecidableEq

/-- The digits before the cut, incremented or not; none when no digit is after it. -/
def roundAt (neg : Bool) (digits : List ℕ) (cut : ℕ) (precision : I64) (mode : RoundingMode) : ExecResult Rounded :=
  match digits.drop cut with
  | [] => .ok ⟨digits.length,none⟩
  | roundDigit :: after =>
    let kept := digits.take cut
    match kept.getLast? with
    | none => .error .panic
    | some last => do
      let kept := if mode.shouldIncrement neg roundDigit (after.any (· != 0)) (last%2 == 1) then incrementDigits kept else kept
      let _exponent ← checkedI64 (-precision.1)
      return ⟨digits.length,some kept⟩

theorem zero_fits : i64Min ≤ 0 ∧ 0 ≤ i64Max := by decide

def roundDecimal (neg : Bool) (value : Decimal) (precision : I64) (mode : RoundingMode) : ExecResult Rounded := do
  let keep ← checkedI64 (value.int.length+precision.1)
  let pad ← if keep.1 < 1 then checkedI64 (1-keep.1) else .ok ⟨0,zero_fits⟩
  let cut ← checkedI64 (keep.1+pad.1)
  roundAt neg (List.replicate pad.1.toNat 0 ++ value.digits) cut.1.toNat precision mode

/-! ## What the digits stand for -/

/-- The number with the digits, the highest first. -/
def number (digits : List ℕ) : ℕ := Nat.ofDigits 10 digits.reverse

/-- The decimal in multiples of a place. -/
def Decimal.scaled (value : Decimal) (neg : Bool) (precision : ℤ) : ℚ :=
  (if neg then -1 else 1)*number value.digits*10^(precision-value.frac.length)

/-- The integer that a mode rounds a number to. -/
def RoundingMode.prescribed (mode : RoundingMode) (x : ℚ) : ℤ :=
  match mode with
  | .up => if x < 0 then ⌊x⌋ else ⌈x⌉
  | .down => if x < 0 then ⌈x⌉ else ⌊x⌋
  | .ceiling => ⌈x⌉
  | .floor => ⌊x⌋
  | .halfUp => if x < 0 then ⌈x-1/2⌉ else ⌊x+1/2⌋
  | .halfDown => if x < 0 then ⌊x+1/2⌋ else ⌈x-1/2⌉
  | .halfEven =>
    if Int.fract x < 1/2 then ⌊x⌋
    else if 1/2 < Int.fract x then ⌊x⌋+1
    else if ⌊x⌋%2 = 0 then ⌊x⌋ else ⌊x⌋+1

def Rounded.value (r : Rounded) (neg : Bool) (x : ℚ) : ℚ :=
  match r.kept with
  | none => x
  | some kept => (if neg then -1 else 1)*number kept

/-- The digits are what the mode prescribes, so that the result is near and a decimal without finer digits stays; and
hardly more of them are stored than the decimal has. -/
def RoundsRight (neg : Bool) (value : Decimal) (precision : I64) (mode : RoundingMode) (r : ExecResult Rounded) : Prop :=
  let x := value.scaled neg precision.1
  ∃ out, r = .ok out ∧ out.stored ≤ value.digits.length+1 ∧ (∀ kept, out.kept = some kept → ∀ d ∈ kept, d < 10) ∧
    out.value neg x = mode.prescribed x ∧ |out.value neg x-x| < 1 ∧ ∀ n : ℤ, x = n → out.value neg x = x

variable {mode : RoundingMode} {neg : Bool} {t x : ℚ} {K : ℕ} {value : Decimal} {precision : I64}

/-! ## Rounding a whole part and a rest -/

theorem prescribed_int (n : ℤ) : mode.prescribed n = n := by
  have hup : ⌊(n : ℚ)+1/2⌋ = n := Int.floor_eq_iff.mpr ⟨by linarith,by linarith⟩
  have hdown : ⌈(n : ℚ)-1/2⌉ = n := Int.ceil_eq_iff.mpr ⟨by linarith,by linarith⟩
  cases mode with
  | halfEven =>
    rw [RoundingMode.prescribed,if_pos (by rw [Int.fract_intCast]; norm_num)]
    exact Int.floor_intCast n
  | _ => simp only [RoundingMode.prescribed,Int.floor_intCast,Int.ceil_intCast,hup,hdown,ite_self]

theorem prescribed_near (mode : RoundingMode) (x : ℚ) : |(mode.prescribed x : ℚ)-x| < 1 := by
  have hfloor := Int.floor_le x
  have hfloor' := Int.lt_floor_add_one x
  have hceil := Int.le_ceil x
  have hceil' := Int.ceil_lt_add_one x
  have hup := Int.floor_le (x+1/2)
  have hup' := Int.lt_floor_add_one (x+1/2)
  have hdown := Int.le_ceil (x-1/2)
  have hdown' := Int.ceil_lt_add_one (x-1/2)
  rw [abs_lt]
  cases mode with
  | halfEven =>
    rw [RoundingMode.prescribed]
    have hfract : Int.fract x = x-⌊x⌋ := rfl
    split_ifs with hless hmore heven
    · constructor <;> linarith
    · push_cast
      constructor <;> linarith
    · constructor <;> linarith
    · push_cast
      constructor <;> linarith
  | _ =>
    simp only [RoundingMode.prescribed]
    try split_ifs
    all_goals constructor <;> linarith

/-- When the whole part is to be incremented, by the rest. -/
def RoundingMode.Increments (mode : RoundingMode) (neg : Bool) (K : ℕ) (t : ℚ) : Prop :=
  match mode with
  | .up => t ≠ 0
  | .down => False
  | .ceiling => neg = false ∧ t ≠ 0
  | .floor => neg = true ∧ t ≠ 0
  | .halfUp => 1/2 ≤ t
  | .halfDown => 1/2 < t
  | .halfEven => 1/2 < t ∨ (t = 1/2 ∧ K%2 = 1)

theorem floor_split (h0 : 0 ≤ t) (h1 : t < 1) : ⌊(K : ℚ)+t⌋ = K := Int.floor_eq_iff.mpr ⟨by push_cast; linarith,by push_cast; linarith⟩

theorem ceil_split (h0 : 0 ≤ t) (h1 : t < 1) : ⌈(K : ℚ)+t⌉ = if t = 0 then (K : ℤ) else K+1 := by
  split_ifs with ht
  · rw [ht,add_zero]
    exact Int.ceil_natCast K
  · have hpos := lt_of_le_of_ne h0 (Ne.symm ht)
    exact Int.ceil_eq_iff.mpr ⟨by push_cast; linarith,by push_cast; linarith⟩

theorem floor_half (h0 : 0 ≤ t) (h1 : t < 1) : ⌊(K : ℚ)+t+1/2⌋ = if 1/2 ≤ t then (K : ℤ)+1 else K := by
  split_ifs with ht
  · exact Int.floor_eq_iff.mpr ⟨by push_cast; linarith,by push_cast; linarith⟩
  · exact Int.floor_eq_iff.mpr ⟨by push_cast; linarith,by push_cast; linarith⟩

theorem ceil_half (h0 : 0 ≤ t) (h1 : t < 1) : ⌈(K : ℚ)+t-1/2⌉ = if 1/2 < t then (K : ℤ)+1 else K := by
  split_ifs with ht
  · exact Int.ceil_eq_iff.mpr ⟨by push_cast; linarith,by push_cast; linarith⟩
  · exact Int.ceil_eq_iff.mpr ⟨by push_cast; linarith,by push_cast; linarith⟩

/-- A number is rounded to its whole part or the next. -/
theorem prescribed_pos {inc : Bool} (h0 : 0 ≤ t) (h1 : t < 1) (hinc : inc = true ↔ mode.Increments false K t) :
    mode.prescribed ((K : ℚ)+t) = if inc then (K : ℤ)+1 else K := by
  have hnonneg : ¬ (K : ℚ)+t < 0 := not_lt.mpr (by positivity)
  have hfract : Int.fract ((K : ℚ)+t) = t := by
    rw [Int.fract,floor_split h0 h1]
    push_cast
    ring
  cases mode with
  | up =>
    have hinc : inc = true ↔ ¬ t = 0 := hinc
    rw [RoundingMode.prescribed,if_neg hnonneg,ceil_split h0 h1,if_congr hinc rfl rfl,ite_not]
  | down =>
    have hinc : inc = true ↔ False := hinc
    rw [RoundingMode.prescribed,if_neg hnonneg,floor_split h0 h1,if_congr hinc rfl rfl,if_false]
  | ceiling =>
    have hinc : inc = true ↔ ¬ t = 0 := hinc.trans (and_iff_right rfl)
    rw [RoundingMode.prescribed,ceil_split h0 h1,if_congr hinc rfl rfl,ite_not]
  | floor =>
    have hinc : inc = true ↔ False := hinc.trans (iff_of_false (fun h => Bool.false_ne_true h.1) id)
    rw [RoundingMode.prescribed,floor_split h0 h1,if_congr hinc rfl rfl,if_false]
  | halfUp =>
    have hinc : inc = true ↔ 1/2 ≤ t := hinc
    rw [RoundingMode.prescribed,if_neg hnonneg,floor_half h0 h1,if_congr hinc rfl rfl]
  | halfDown =>
    have hinc : inc = true ↔ 1/2 < t := hinc
    rw [RoundingMode.prescribed,if_neg hnonneg,ceil_half h0 h1,if_congr hinc rfl rfl]
  | halfEven =>
    have hinc : inc = true ↔ 1/2 < t ∨ (t = 1/2 ∧ K%2 = 1) := hinc
    rw [RoundingMode.prescribed,hfract,floor_split h0 h1,if_congr hinc rfl rfl]
    obtain hlt | heq | hgt := lt_trichotomy t (1/2)
    · rw [if_pos hlt,if_neg (fun h => h.elim (fun h => absurd h hlt.not_gt) (fun h => absurd h.1 hlt.ne))]
    · rw [if_neg heq.not_lt,if_neg heq.not_gt]
      have hodd : (1/2 < t ∨ t = 1/2 ∧ K%2 = 1) ↔ ¬ (K : ℤ)%2 = 0 := by
        rw [or_iff_right heq.not_gt,and_iff_right heq]
        omega
      rw [if_congr hodd rfl rfl,ite_not]
    · rw [if_neg hgt.not_gt,if_pos hgt,if_pos (.inl hgt)]

/-- So is one below zero, away from zero where the next is. -/
theorem prescribed_neg {inc : Bool} (h0 : 0 ≤ t) (h1 : t < 1) (hinc : inc = true ↔ mode.Increments true K t) :
    mode.prescribed (-((K : ℚ)+t)) = -(if inc then (K : ℤ)+1 else K) := by
  have hzero : -((K : ℚ)+t) < 0 ∨ -((K : ℚ)+t) = ((0 : ℤ) : ℚ) := by
    have hnonneg : 0 ≤ (K : ℚ)+t := by positivity
    obtain hpos | heq := hnonneg.lt_or_eq
    · exact .inl (by linarith)
    · exact .inr (by rw [← heq]; simp)
  obtain hneg | hzero := hzero
  · have hhalf : -((K : ℚ)+t)-1/2 = -((K : ℚ)+t+1/2) := by ring
    have hhalf' : -((K : ℚ)+t)+1/2 = -((K : ℚ)+t-1/2) := by ring
    cases mode with
    | up =>
      have hinc : inc = true ↔ ¬ t = 0 := hinc
      rw [RoundingMode.prescribed,if_pos hneg,Int.floor_neg,ceil_split h0 h1,if_congr hinc rfl rfl,ite_not]
    | down =>
      have hinc : inc = true ↔ False := hinc
      rw [RoundingMode.prescribed,if_pos hneg,Int.ceil_neg,floor_split h0 h1,if_congr hinc rfl rfl,if_false]
    | ceiling =>
      have hinc : inc = true ↔ False := hinc.trans (iff_of_false (fun h => Bool.false_ne_true h.1.symm) id)
      rw [RoundingMode.prescribed,Int.ceil_neg,floor_split h0 h1,if_congr hinc rfl rfl,if_false]
    | floor =>
      have hinc : inc = true ↔ ¬ t = 0 := hinc.trans (and_iff_right rfl)
      rw [RoundingMode.prescribed,Int.floor_neg,ceil_split h0 h1,if_congr hinc rfl rfl,ite_not]
    | halfUp =>
      have hinc : inc = true ↔ 1/2 ≤ t := hinc
      rw [RoundingMode.prescribed,if_pos hneg,hhalf,Int.ceil_neg,floor_half h0 h1,if_congr hinc rfl rfl]
    | halfDown =>
      have hinc : inc = true ↔ 1/2 < t := hinc
      rw [RoundingMode.prescribed,if_pos hneg,hhalf',Int.floor_neg,ceil_half h0 h1,if_congr hinc rfl rfl]
    | halfEven =>
      have hinc : inc = true ↔ 1/2 < t ∨ (t = 1/2 ∧ K%2 = 1) := hinc
      have hfloor : ⌊-((K : ℚ)+t)⌋ = -(if t = 0 then (K : ℤ) else K+1) := by rw [Int.floor_neg,ceil_split h0 h1]
      rw [RoundingMode.prescribed,Int.fract,hfloor,if_congr hinc rfl rfl]
      by_cases ht : t = 0
      · rw [if_pos ht,ht,if_pos (by push_cast; linarith),if_neg (by norm_num)]
      · rw [if_neg ht]
        have hpos := lt_of_le_of_ne h0 (Ne.symm ht)
        have hrest : -((K : ℚ)+t)-((-((K : ℤ)+1) : ℤ) : ℚ) = 1-t := by
          push_cast
          ring
        rw [hrest]
        obtain hlt | heq | hgt := lt_trichotomy t (1/2)
        · rw [if_neg (by linarith),if_pos (by linarith),if_neg (fun h => h.elim (fun h => absurd h hlt.not_gt) (fun h => absurd h.1 hlt.ne))]
          ring
        · rw [if_neg (by linarith),if_neg (by linarith)]
          have hodd : (1/2 < t ∨ t = 1/2 ∧ K%2 = 1) ↔ -((K : ℤ)+1)%2 = 0 := by
            rw [or_iff_right heq.not_gt,and_iff_right heq]
            omega
          rw [if_congr hodd rfl rfl]
          split_ifs <;> ring
        · rw [if_pos (by linarith),if_pos (.inl hgt)]
  · -- zero has nothing to round
    have hK : K = 0 := by
      have : (0:ℚ) ≤ K := by positivity
      have : (K : ℚ) = 0 := by push_cast at hzero; linarith
      exact_mod_cast this
    have ht : t = 0 := by
      have : (0:ℚ) ≤ K := by positivity
      push_cast at hzero
      linarith
    have hnot : ¬ mode.Increments true K t := by
      rw [hK,ht]
      cases mode <;> simp [RoundingMode.Increments]
    rw [hzero,prescribed_int,if_neg (fun h => hnot (hinc.mp h)),hK]
    rfl

theorem prescribed_split {inc : Bool} (h0 : 0 ≤ t) (h1 : t < 1) (hinc : inc = true ↔ mode.Increments neg K t) :
    (mode.prescribed ((if neg then -1 else 1)*((K : ℚ)+t)) : ℚ) = (if neg then -1 else 1)*((if inc then K+1 else K : ℕ) : ℚ) := by
  cases neg with
  | true =>
    rw [if_pos rfl,neg_one_mul,neg_one_mul,prescribed_neg h0 h1 hinc]
    split_ifs <;> push_cast <;> ring
  | false =>
    rw [if_neg Bool.false_ne_true,one_mul,one_mul,prescribed_pos h0 h1 hinc]
    split_ifs <;> push_cast <;> ring

/-! ## Digits -/

theorem number_append (l m : List ℕ) : number (l ++ m) = number l*10^m.length+number m := by
  rw [number,List.reverse_append,Nat.ofDigits_append,List.length_reverse,add_comm,mul_comm]
  rfl

theorem number_cons (d : ℕ) (l : List ℕ) : number (d :: l) = d*10^l.length+number l := by
  rw [← List.singleton_append,number_append]
  simp [number]

theorem number_lt {l : List ℕ} (h : ∀ d ∈ l, d < 10) : number l < 10^l.length := by
  rw [number,← List.length_reverse]
  exact Nat.ofDigits_lt_base_pow_length (by decide) (fun d hd => h d (List.mem_reverse.mp hd))

theorem number_replicate (n : ℕ) (l : List ℕ) : number (List.replicate n 0 ++ l) = number l := by
  induction n with
  | zero => rfl
  | succ n ih => rw [List.replicate_succ,List.cons_append,number_cons,ih,zero_mul,zero_add]

theorem number_pos_iff (l : List ℕ) : l.any (· != 0) = true ↔ number l ≠ 0 := by
  induction l with
  | nil => simp [number]
  | cons d l ih =>
    rw [List.any_cons,Bool.or_eq_true,ih,number_cons,bne_iff_ne]
    have hpos : 0 < 10^l.length := by positivity
    constructor
    · rintro (hd | hl)
      · have := Nat.mul_pos (Nat.pos_of_ne_zero hd) hpos
        omega
      · omega
    · intro h
      by_cases hd : d = 0
      · right
        rwa [hd,zero_mul,zero_add] at h
      · exact .inl hd

theorem number_getLast {l : List ℕ} {d : ℕ} (h : l.getLast? = some d) : number l%2 = d%2 := by
  obtain ⟨l,rfl⟩ := List.getLast?_eq_some_iff.mp h
  rw [number_append,number_cons]
  simp only [number,List.reverse_nil,Nat.ofDigits_nil,List.length_nil,List.length_singleton,pow_zero]
  omega

theorem incrementDigits_spec {l : List ℕ} (h : ∀ d ∈ l, d < 10) :
    number (incrementDigits l) = number l+1 ∧ ∀ d ∈ incrementDigits l, d < 10 := by
  have hrev : ∀ l : List ℕ, (∀ d ∈ l, d < 10) → Nat.ofDigits 10 (incrementReversed l) = Nat.ofDigits 10 l+1 ∧ ∀ d ∈ incrementReversed l, d < 10 := by
    intro l
    induction l with
    | nil => simp [incrementReversed]
    | cons d l ih =>
      intro hl
      rw [List.forall_mem_cons] at hl
      obtain ⟨hnumber,hdigits⟩ := ih hl.2
      rw [incrementReversed]
      split_ifs with hd
      · rw [Nat.ofDigits_cons,Nat.ofDigits_cons,hnumber,List.forall_mem_cons]
        exact ⟨by omega,by omega,hdigits⟩
      · rw [Nat.ofDigits_cons,Nat.ofDigits_cons,List.forall_mem_cons]
        exact ⟨by omega,by omega,hl.2⟩
  obtain ⟨hnumber,hdigits⟩ := hrev l.reverse (fun d hd => h d (List.mem_reverse.mp hd))
  refine ⟨?_,fun d hd => hdigits d (List.mem_reverse.mp hd)⟩
  rw [number,incrementDigits,List.reverse_reverse,hnumber]
  rfl

theorem shouldIncrement_of {q : ℕ} {after odd : Bool} (hzero : t ≠ 0 ↔ q ≠ 0 ∨ after = true) (hle : 1/2 ≤ t ↔ 5 ≤ q)
    (hlt : 1/2 < t ↔ 5 < q ∨ (q = 5 ∧ after = true)) (heq : t = 1/2 ↔ q = 5 ∧ after = false) (hodd : odd = true ↔ K%2 = 1) :
    mode.shouldIncrement neg q after odd = true ↔ mode.Increments neg K t := by
  cases mode with
  | up => simp [RoundingMode.shouldIncrement,RoundingMode.Increments,hzero]
  | down => simp [RoundingMode.shouldIncrement,RoundingMode.Increments]
  | ceiling => simp [RoundingMode.shouldIncrement,RoundingMode.Increments,hzero]
  | floor => simp [RoundingMode.shouldIncrement,RoundingMode.Increments,hzero]
  | halfUp =>
    have hgoal : (decide (5 ≤ q) = true) ↔ 1/2 ≤ t := decide_eq_true_iff.trans hle.symm
    exact hgoal
  | halfDown =>
    have hgoal : (decide (5 < q) || (q == 5 && after)) = true ↔ 1/2 < t := by
      rw [hlt]
      simp
    exact hgoal
  | halfEven =>
    have hgoal : (decide (5 < q) || (q == 5 && (after || odd))) = true ↔ 1/2 < t ∨ (t = 1/2 ∧ K%2 = 1) := by
      rw [hlt,heq,← hodd]
      cases after <;> simp
    exact hgoal

theorem shouldIncrement_iff {q A C : ℕ} (hA : A < C) {after odd : Bool} (hafter : after = true ↔ A ≠ 0) (hodd : odd = true ↔ K%2 = 1) :
    mode.shouldIncrement neg q after odd = true ↔ mode.Increments neg K (((q*C+A : ℕ) : ℚ)/((10*C : ℕ) : ℚ)) := by
  have hC : (0:ℚ) < ((10*C : ℕ) : ℚ) := by
    have : 0 < 10*C := by omega
    exact_mod_cast this
  have hnone : after = false ↔ A = 0 := by
    rw [← Bool.not_eq_true,hafter,not_not]
  have hhalf : (1:ℚ)/2*((10*C : ℕ) : ℚ) = ((5*C : ℕ) : ℚ) := by
    push_cast
    ring
  have heq : (((q*C+A : ℕ) : ℚ)/((10*C : ℕ) : ℚ)) = 1/2 ↔ q = 5 ∧ A = 0 := by
    rw [div_eq_iff hC.ne',hhalf,Nat.cast_inj]
    constructor
    · intro h
      have hq : q = 5 := by
        have hlow : q*C < 6*C := by omega
        have hhigh : 4*C < q*C := by omega
        have := Nat.lt_of_mul_lt_mul_right hlow
        have := Nat.lt_of_mul_lt_mul_right hhigh
        omega
      subst hq
      exact ⟨rfl,by omega⟩
    · rintro ⟨rfl,rfl⟩
      rfl
  have hle : 1/2 ≤ (((q*C+A : ℕ) : ℚ)/((10*C : ℕ) : ℚ)) ↔ 5 ≤ q := by
    rw [le_div_iff₀ hC,hhalf,Nat.cast_le]
    constructor
    · intro h
      by_contra hq
      have : q*C ≤ 4*C := Nat.mul_le_mul_right C (by omega)
      omega
    · intro h
      have : 5*C ≤ q*C := Nat.mul_le_mul_right C h
      omega
  refine shouldIncrement_of ?_ hle ?_ (by rw [heq,hnone]) hodd
  · rw [Ne,div_eq_zero_iff,or_iff_left hC.ne',Nat.cast_eq_zero,Nat.add_eq_zero_iff,Nat.mul_eq_zero,hafter]
    have : C ≠ 0 := by omega
    tauto
  · rw [lt_iff_le_and_ne,hle,ne_comm,Ne,heq,hafter]
    omega

/-! ## The procedure -/

theorem roundAt_stored {digits : List ℕ} {cut : ℕ} {out : Rounded} (h : roundAt neg digits cut precision mode = .ok out) :
    out.stored = digits.length := by
  unfold roundAt at h
  split at h
  · cases h
    rfl
  · simp only at h
    split at h
    · cases h
    · cases hexp : checkedI64 (-precision.1) with
      | error e =>
        rw [hexp] at h
        cases h
      | ok i =>
        rw [hexp] at h
        cases h
        rfl

/-- With a digit to keep, the digits before the cut are rounded by those after it. -/
theorem roundAt_right {digits : List ℕ} {cut : ℕ} (hcut : 1 ≤ cut) (hdigits : ∀ d ∈ digits, d < 10) (hprecision : precision.1 ≠ i64Min) :
    ∃ out, roundAt neg digits cut precision mode = .ok out ∧ out.stored = digits.length ∧ (∀ kept, out.kept = some kept → ∀ d ∈ kept, d < 10) ∧
      ((digits.length ≤ cut ∧ out.kept = none) ∨
        ∃ kept x, x = (if neg then -1 else 1)*((number digits : ℚ)/10^(digits.length-cut)) ∧ cut < digits.length ∧ out.kept = some kept ∧
          (if neg then -1 else 1)*(number kept : ℚ) = mode.prescribed x) := by
  unfold roundAt
  cases hdrop : digits.drop cut with
  | nil => exact ⟨_,rfl,rfl,nofun,.inl ⟨List.drop_eq_nil_iff.mp hdrop,rfl⟩⟩
  | cons q after =>
    have hlt : cut < digits.length := by
      by_contra hge
      rw [List.drop_eq_nil_iff.mpr (not_lt.mp hge)] at hdrop
      cases hdrop
    have htake : (digits.take cut).length = cut := List.length_take_of_le hlt.le
    obtain ⟨last,hlast⟩ : ∃ last, (digits.take cut).getLast? = some last := by
      cases hlast : (digits.take cut).getLast? with
      | none =>
        rw [List.getLast?_eq_none_iff.mp hlast,List.length_nil] at htake
        omega
      | some last => exact ⟨last,rfl⟩
    have hneg : i64Min ≤ -precision.1 ∧ -precision.1 ≤ i64Max := by
      have hrange := precision.2
      unfold i64Min i64Max at *
      omega
    have hafter : ∀ d ∈ after, d < 10 := fun d hd => hdigits d (List.mem_of_mem_drop (hdrop ▸ List.mem_cons_of_mem q hd))
    have hkept : ∀ d ∈ digits.take cut, d < 10 := fun d hd => hdigits d (List.mem_of_mem_take hd)
    have hsplit : number digits = number (digits.take cut)*(10*10^after.length)+(q*10^after.length+number after) := by
      conv_lhs => rw [← List.take_append_drop cut digits,hdrop,number_append,number_cons,List.length_cons,pow_succ']
    have hlength : digits.length-cut = after.length+1 := by
      rw [← List.length_drop,hdrop,List.length_cons]
    have hq : q < 10 := hdigits q (List.mem_of_mem_drop (hdrop ▸ List.mem_cons_self))
    have hodd : (last%2 == 1) = true ↔ number (digits.take cut)%2 = 1 := by rw [number_getLast hlast,beq_iff_eq]
    have hinc := @shouldIncrement_iff mode neg _ q _ _ (number_lt hafter) _ _ (number_pos_iff after) hodd
    obtain ⟨hplus,hplusDigits⟩ := incrementDigits_spec hkept
    simp only [hlast,checkedI64,dif_pos hneg]
    refine ⟨_,rfl,rfl,?_,.inr ⟨_,_,rfl,hlt,rfl,?_⟩⟩
    · rintro kept hsome
      cases hsome
      split_ifs
      · exact hplusDigits
      · exact hkept
    · have hC : (0:ℚ) < ((10*10^after.length : ℕ) : ℚ) := by positivity
      have hx : (number digits : ℚ)/10^(digits.length-cut) =
          (number (digits.take cut) : ℚ)+((q*10^after.length+number after : ℕ) : ℚ)/((10*10^after.length : ℕ) : ℚ) := by
        have hpow : (10:ℚ)^(digits.length-cut) = ((10*10^after.length : ℕ) : ℚ) := by
          rw [hlength,pow_succ']
          push_cast
          rfl
        rw [hpow,hsplit,Nat.cast_add,Nat.cast_mul,add_div,mul_div_assoc,div_self hC.ne',mul_one]
      rw [hx,prescribed_split (by positivity) ?_ hinc]
      · split_ifs <;> simp [hplus]
      · rw [div_lt_one hC,Nat.cast_lt]
        have hrest := number_lt hafter
        have hfirst : q*10^after.length ≤ 9*10^after.length := Nat.mul_le_mul_right _ (by omega)
        omega

/-- The place is no further left than the number, and adding it to the length does not overflow. -/
def PrecisionFits (value : Decimal) (precision : ℤ) : Prop := -value.int.length ≤ precision ∧ value.int.length+precision ≤ i64Max

theorem roundDecimal_fits (neg : Bool) (h : PrecisionFits value precision.1) :
    RoundsRight neg value precision mode (roundDecimal neg value precision mode) := by
  have hlength : (value.digits.length : ℤ) = value.int.length+value.frac.length := by rw [Decimal.digits,List.length_append]; push_cast; rfl
  have hbounded : (value.digits.length : ℤ) ≤ i64Max := value.bounded
  have hint : 1 ≤ value.int.length := List.length_pos_of_ne_nil value.nonempty
  obtain ⟨hlow,hhigh⟩ := h
  have hkeep : i64Min ≤ value.int.length+precision.1 ∧ value.int.length+precision.1 ≤ i64Max := by
    unfold i64Min
    omega
  obtain ⟨pad,cut,hpad,hcut,hcutEq,hrun⟩ : ∃ pad cut : ℕ, pad ≤ 1 ∧ 1 ≤ cut ∧ (cut : ℤ) = value.int.length+precision.1+pad ∧
      roundDecimal neg value precision mode = roundAt neg (List.replicate pad 0 ++ value.digits) cut precision mode := by
    by_cases hzero : value.int.length+precision.1 < 1
    · have hkeep0 : (value.int.length : ℤ)+precision.1 = 0 := by omega
      refine ⟨1,1,le_rfl,le_rfl,by omega,?_⟩
      simp only [roundDecimal,hkeep0]
      rfl
    · refine ⟨0,(value.int.length+precision.1).toNat,by omega,by omega,by omega,?_⟩
      have hcut : i64Min ≤ (value.int.length : ℤ)+precision.1+0 ∧ (value.int.length : ℤ)+precision.1+0 ≤ i64Max := by rwa [add_zero]
      rw [roundDecimal,checkedI64_bind hkeep]
      simp only [if_neg hzero]
      change (checkedI64 ((value.int.length : ℤ)+precision.1+0) >>= _) = _
      rw [checkedI64_bind hcut]
      simp
  have hprecision : precision.1 ≠ i64Min := by
    have hrange := value.int.length
    unfold i64Max at hbounded
    unfold i64Min
    omega
  have hdigits : ∀ d ∈ List.replicate pad 0 ++ value.digits, d < 10 := by
    intro d hd
    obtain hd | hd := List.mem_append.mp hd
    · rw [List.eq_of_mem_replicate hd]
      decide
    · exact value.digit d hd
  have hstored : (List.replicate pad 0 ++ value.digits).length = pad+value.digits.length := by rw [List.length_append,List.length_replicate]
  obtain ⟨out,hout,hstores,hkept,hvalue⟩ := @roundAt_right mode neg _ _ _ hcut hdigits hprecision
  have hscaled : value.scaled neg precision.1 = (if neg then -1 else 1)*((number value.digits : ℚ)*10^(precision.1-value.frac.length)) := by
    rw [Decimal.scaled,mul_assoc]
  rw [hrun]
  refine ⟨out,hout,by omega,hkept,?_⟩
  obtain ⟨hle,hnone⟩ | ⟨kept,x,hx,hlt,hsome,hround⟩ := hvalue
  · -- no finer digit: the decimal is a multiple of the place
    have hfine : precision.1-value.frac.length = ((precision.1-value.frac.length).toNat : ℤ) := by omega
    have hint : value.scaled neg precision.1 =
        (((if neg then -1 else 1)*(number value.digits : ℤ)*10^(precision.1-value.frac.length).toNat : ℤ) : ℚ) := by
      rw [Decimal.scaled,hfine,zpow_natCast,Int.toNat_natCast]
      push_cast
      rfl
    have hvalue : out.value neg (value.scaled neg precision.1) = value.scaled neg precision.1 := by rw [Rounded.value,hnone]
    rw [hvalue]
    refine ⟨?_,by rw [sub_self,abs_zero]; exact one_pos,fun _ _ => rfl⟩
    rw [hint,prescribed_int]
  · have hsame : value.scaled neg precision.1 = x := by
      have hdrop : precision.1-value.frac.length = -(((List.replicate pad 0 ++ value.digits).length-cut : ℕ) : ℤ) := by omega
      rw [hscaled,hx,hdrop,zpow_neg,zpow_natCast,number_replicate,div_eq_mul_inv]
    have hvalue : out.value neg (value.scaled neg precision.1) = mode.prescribed (value.scaled neg precision.1) := by
      rw [Rounded.value,hsome,hsame]
      exact hround
    rw [hvalue]
    refine ⟨rfl,prescribed_near mode _,fun n hn => ?_⟩
    rw [hn,prescribed_int]

theorem roundDecimal_misfits (neg : Bool) (h : ¬ PrecisionFits value precision.1) :
    ¬ RoundsRight neg value precision mode (roundDecimal neg value precision mode) := by
  rintro ⟨out,hout,hstored,-⟩
  have hlength : (value.digits.length : ℤ) = value.int.length+value.frac.length := by rw [Decimal.digits,List.length_append]; push_cast; rfl
  have hrange := precision.2
  rw [roundDecimal] at hout
  by_cases hkeep : i64Min ≤ (value.int.length : ℤ)+precision.1 ∧ (value.int.length : ℤ)+precision.1 ≤ i64Max
  · have hneg : (value.int.length : ℤ)+precision.1 < 0 := by
      by_contra hge
      exact h ⟨by omega,hkeep.2⟩
    rw [checkedI64_bind hkeep] at hout
    simp only [if_pos (show (value.int.length : ℤ)+precision.1 < 1 by omega)] at hout
    by_cases hpad : i64Min ≤ 1-((value.int.length : ℤ)+precision.1) ∧ 1-((value.int.length : ℤ)+precision.1) ≤ i64Max
    · rw [checkedI64_bind hpad] at hout
      cases hcut : checkedI64 ((value.int.length : ℤ)+precision.1+(1-((value.int.length : ℤ)+precision.1))) with
      | error e =>
        rw [hcut] at hout
        cases hout
      | ok cut =>
        rw [hcut] at hout
        have hall := roundAt_stored hout
        rw [List.length_append,List.length_replicate] at hall
        simp only at hall
        omega
    · rw [checkedI64_panic hpad] at hout
      cases hout
  · rw [checkedI64_panic hkeep] at hout
    cases hout

/-- The digits are rounded as prescribed, in hardly more space than they have, exactly when the place is no further left
than the number and no sum overflows. -/
theorem round_right_iff (neg : Bool) (value : Decimal) (precision : I64) (mode : RoundingMode) :
    RoundsRight neg value precision mode (roundDecimal neg value precision mode) ↔ PrecisionFits value precision.1 :=
  ⟨fun h => by_contra fun hnot => roundDecimal_misfits neg hnot h,fun h => roundDecimal_fits neg h⟩

def onePointTwo : Decimal := ⟨[1],[2,5,5],by decide,by decide,by decide⟩

example : roundDecimal true onePointTwo ⟨2,by decide⟩ .halfEven = .ok ⟨4,some [1,2,6]⟩ := by decide +kernel

/-- A place far to the left needs as many zeros, and one far to the right overflows. -/
theorem far_place_wrong :
    roundDecimal false onePointTwo ⟨i64Max,by decide⟩ .halfUp = .error .panic ∧
      roundDecimal false onePointTwo ⟨-9,by decide⟩ .halfUp = .ok ⟨13,some [0]⟩ ∧
      ¬ RoundsRight false onePointTwo ⟨-9,by decide⟩ .halfUp (roundDecimal false onePointTwo ⟨-9,by decide⟩ .halfUp) :=
  ⟨by decide +kernel,by decide +kernel,roundDecimal_misfits false (by unfold PrecisionFits; decide)⟩

end Drevo.Cypher
