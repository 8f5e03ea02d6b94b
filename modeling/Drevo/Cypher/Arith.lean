import Drevo.Cypher.Value
import Drevo.Lib.Binary64Ints

/-! Arithmetic on values. Integers are computed with as floats, and the result is cast back. -/
namespace Drevo.Cypher
open Lib

inductive BinaryOp where
  | add | sub | mul | div | mod | pow
  | eq | ne | lt | le | gt | ge
  | regexMatch
  | and | or | xor
  | startsWith | endsWith | contains
  deriving DecidableEq

inductive UnaryOp where
  | neg | plus | not
  deriving DecidableEq

def asI64 (x : Binary64) : I64 := .saturate (x.toInt i64Min i64Max)

/-- The result of an operation on integers, which panics when it overflows. -/
def checkedI64 (v : ℤ) : ExecResult I64 :=
  if h : i64Min ≤ v ∧ v ≤ i64Max then .ok ⟨v,h⟩ else .error .panic

/-- Division of integers toward zero. -/
def divI64 (a b : I64) : ExecResult I64 := if b.1 = 0 then .error .panic else checkedI64 (a.1.tdiv b.1)

def evalUnary (op : UnaryOp) (value : Value) (span : Span) : ExecResult Value :=
  match op with
  | .neg =>
    match value with
    | .integer i => do return .integer (← checkedI64 (-i.1))
    | .float f => .ok (.float f.neg)
    | .null => .ok .null
    | other => typeMismatch "Integer or Float" other.typeName span
  | .plus =>
    match value with
    | .integer i => .ok (.integer i)
    | .float f => .ok (.float f)
    | .null => .ok .null
    | other => typeMismatch "Integer or Float" other.typeName span
  | .not =>
    match value with
    | .bool b => .ok (.bool !b)
    | .null => .ok .null
    | other => typeMismatch "Boolean" other.typeName span

section Arith
variable (powf : Binary64 → Binary64 → Binary64)

/-- The operation on numbers; the result of one on two integers is cast back, but for powers. -/
def arithNumbers (op : BinaryOp) (bothInt : Bool) (a b : Binary64) (span : Span) : ExecResult Value :=
  let back := fun result : Binary64 => if bothInt then Value.integer (asI64 result) else .float result
  match op with
  | .add => .ok (back (a.add b))
  | .sub => .ok (back (a.sub b))
  | .mul => .ok (back (a.mul b))
  | .div =>
    if bothInt then
      if b.eq (.ofInt 0) then typeMismatch "non-zero divisor" "zero" span
      else do return .integer (← divI64 (asI64 a) (asI64 b))
    else .ok (.float (a.div b))
  | .mod => .ok (back (a.remEuclid b))
  | .pow => .ok (.float (powf a b))
  | _ => .error .panic

def arith (op : BinaryOp) (lhs rhs : Value) (span : Span) : ExecResult Value :=
  match lhs,rhs with
  | .null,_ => .ok .null
  | _,.null => .ok .null
  | lhs,rhs =>
    match op,lhs,rhs with
    | .add,.string a,.string b => .ok (.string (a ++ b))
    | .add,.list a,.list b => .ok (.list (a ++ b))
    | op,lhs,rhs =>
      match lhs.asNumber,rhs.asNumber with
      | some a,some b =>
        let bothInt := match lhs,rhs with
          | .integer _,.integer _ => true
          | _,_ => false
        arithNumbers powf op bothInt a b span
      | _,_ => typeMismatch "numeric operands" (lhs.typeName ++ " " ++ rhs.typeName) span

end Arith

/-- The addition of a value to a sum, with whether all were integers. -/
def addToSum (span : Span) (s : Bool × Binary64) (v : Value) : ExecResult (Bool × Binary64) :=
  match v with
  | .integer i => .ok (s.1,s.2.add (.ofInt i.1))
  | .float f => .ok (false,s.2.add f)
  | other => typeMismatch "Integer or Float" other.typeName span

/-- The sum of the values of a group that are not null. -/
def sum (values : List Value) (span : Span) : ExecResult Value :=
  match values with
  | [] => .ok (.integer ⟨0,by decide⟩)
  | values => do
    let s ← values.foldlM (addToSum span) (true,.ofInt 0)
    return if s.1 then .integer (asI64 s.2) else .float s.2

theorem checkedI64_bind {α : Type} {v : ℤ} (h : i64Min ≤ v ∧ v ≤ i64Max) (f : I64 → ExecResult α) : (checkedI64 v >>= f) = f ⟨v,h⟩ := by
  rw [checkedI64,dif_pos h]
  rfl

theorem checkedI64_panic {α : Type} {v : ℤ} (h : ¬ (i64Min ≤ v ∧ v ≤ i64Max)) (f : I64 → ExecResult α) : (checkedI64 v >>= f) = .error .panic := by
  rw [checkedI64,dif_neg h]
  rfl

/-! ## Operations on integers -/

/-- The exact result, none for one that there is not. -/
def exactResult (op : BinaryOp) (a b : ℤ) : Option ℤ :=
  match op with
  | .add => some (a+b)
  | .sub => some (a-b)
  | .mul => some (a*b)
  | .div => if b = 0 then none else some (a.tdiv b)
  | .mod => if b = 0 then none else some (a%b)
  | _ => none

/-- The exact integer when there is one in range, an error otherwise. -/
def ExactOrError (exact : Option ℤ) (r : ExecResult Value) : Prop :=
  match exact.bind I64.check with
  | some v => ∃ i : I64, i.1 = v ∧ r = .ok (.integer i)
  | none => ∃ e, r = .error (.error e)

def BinaryOp.arithmetic : BinaryOp → Bool
  | .add | .sub | .mul | .div | .mod => true
  | _ => false

/-- When an operation on integers of at most 53 significant bits has its exact result: the result is there and in range,
and needs no rounding, or is the greatest of all; a quotient needs none. -/
def Fits (op : BinaryOp) (a b : ℤ) : Prop :=
  match exactResult op a b with
  | some v => (i64Min ≤ v ∧ v ≤ i64Max) ∧ (op = .div ∨ Short v.natAbs ∨ v = i64Max)
  | none => op = .div

variable {powf : Binary64 → Binary64 → Binary64} {span : Span} {op : BinaryOp} {v w : ℤ} {x : Binary64}

theorem roundInt_i64Max : roundInt i64Max = 2^63 := by decide +kernel

theorem short_i64Min : Short i64Min.natAbs := by decide +kernel

theorem asI64_holds (h : x.Holds v) : (asI64 x).1 = max i64Min (min i64Max v) := by
  rw [asI64,h.toInt,I64.saturate]
  have hbounds : i64Min ≤ i64Max := by decide
  simp only
  omega

theorem i64_moderate (a : I64) : Moderate a.1 := by
  have h := a.2
  unfold i64Min i64Max at h
  unfold Moderate
  omega

theorem holds_short (a : I64) (h : Short a.1.natAbs) : (Binary64.ofInt a.1).Holds a.1 := by
  have hround := Binary64.holds_ofInt (i64_moderate a)
  rwa [(roundInt_eq_iff _).mpr h] at hround

theorem cast_exact_iff (h : x.Holds (roundInt v)) :
    ExactOrError (some v) (.ok (.integer (asI64 x))) ↔ (i64Min ≤ v ∧ v ≤ i64Max) ∧ (Short v.natAbs ∨ v = i64Max) := by
  have hvalue := asI64_holds h
  by_cases hrange : i64Min ≤ v ∧ v ≤ i64Max
  · have hlow : i64Min ≤ roundInt v := by
      have := roundInt_mono hrange.1
      rwa [(roundInt_eq_iff _).mpr short_i64Min] at this
    have hhigh : roundInt v ≤ i64Max+1 := (roundInt_mono hrange.2).trans (by rw [roundInt_i64Max]; decide)
    have hback : (asI64 x).1 = v ↔ Short v.natAbs ∨ v = i64Max := by
      rw [hvalue,← roundInt_eq_iff]
      constructor
      · intro heq
        obtain hle | hgt := le_or_gt (roundInt v) i64Max
        · exact .inl (by omega)
        · exact .inr (by omega)
      · rintro (heq | rfl)
        · rw [heq]
          omega
        · rw [roundInt_i64Max]
          decide
    rw [ExactOrError,Option.bind_some,I64.check_of_mem hrange,← hback]
    simp only [Except.ok.injEq,Value.integer.injEq]
    constructor
    · rintro ⟨i,hi,rfl⟩
      exact ⟨hrange,hi⟩
    · rintro ⟨-,heq⟩
      exact ⟨_,heq,rfl⟩
  · rw [ExactOrError,Option.bind_some,I64.check_of_not hrange]
    exact iff_of_false (by simp) (fun h => hrange h.1)

theorem div_exact_iff (a b : I64) (hb : b.1 ≠ 0) :
    ExactOrError (some (a.1.tdiv b.1)) (do return .integer (← divI64 a b)) ↔ i64Min ≤ a.1.tdiv b.1 ∧ a.1.tdiv b.1 ≤ i64Max := by
  rw [divI64,if_neg hb,checkedI64]
  by_cases hrange : i64Min ≤ a.1.tdiv b.1 ∧ a.1.tdiv b.1 ≤ i64Max
  · rw [ExactOrError,Option.bind_some,I64.check_of_mem hrange,dif_pos hrange]
    exact iff_of_true ⟨_,rfl,rfl⟩ hrange
  · rw [ExactOrError,Option.bind_some,I64.check_of_not hrange,dif_neg hrange]
    refine iff_of_false ?_ hrange
    rintro ⟨e,he⟩
    cases he

theorem asI64_short {a : I64} (h : Short a.1.natAbs) : asI64 (.ofInt a.1) = a := by
  have hrange := a.2
  rw [Subtype.ext_iff,asI64_holds (holds_short a h)]
  omega

theorem arith_integers (op : BinaryOp) (a b : I64) :
    arith powf op (.integer a) (.integer b) span = arithNumbers powf op true (.ofInt a.1) (.ofInt b.1) span := by
  cases op <;> rfl

/-- An operation on integers of at most 53 significant bits. -/
theorem arith_exact_iff (hop : op.arithmetic = true) (a b : I64) (ha : Short a.1.natAbs) (hb : Short b.1.natAbs) :
    ExactOrError (exactResult op a.1 b.1) (arith powf op (.integer a) (.integer b) span) ↔ Fits op a.1 b.1 := by
  have hxa := holds_short a ha
  have hxb := holds_short b hb
  rw [arith_integers]
  have hma := i64_moderate a
  have hmb := i64_moderate b
  have hra := a.2
  have hrb := b.2
  unfold i64Min i64Max at hra hrb
  cases op with
  | add =>
    have hcast := cast_exact_iff (hxa.add hxb (by unfold Moderate; omega))
    simpa [exactResult,Fits,arithNumbers] using hcast
  | sub =>
    have hcast := cast_exact_iff (hxa.sub hxb (by unfold Moderate; omega))
    simpa [exactResult,Fits,arithNumbers] using hcast
  | mul =>
    have hsmall : Moderate (a.1*b.1) := by
      rw [Moderate,Int.natAbs_mul]
      calc a.1.natAbs*b.1.natAbs ≤ 2^64*2^64 := Nat.mul_le_mul (by omega) (by omega)
        _ ≤ 2^200 := by decide
    have hcast := cast_exact_iff (hxa.mul hxb hsmall)
    simpa [exactResult,Fits,arithNumbers] using hcast
  | div =>
    by_cases hzero : b.1 = 0
    · have heq : (Binary64.ofInt b.1).eq (.ofInt 0) = true := (hxb.eq_iff Binary64.holds_zero).mpr hzero
      rw [hzero] at heq
      simp only [arithNumbers,if_true,heq,exactResult,hzero,Fits,typeMismatch]
      exact iff_of_true ⟨_,rfl⟩ trivial
    · have hne : ¬ (Binary64.ofInt b.1).eq (.ofInt 0) = true := fun h => hzero ((hxb.eq_iff Binary64.holds_zero).mp h)
      simp only [arithNumbers,if_true,if_neg hne,exactResult,if_neg hzero,Fits,asI64_short ha,asI64_short hb,true_or,and_true]
      exact div_exact_iff a b hzero
  | mod =>
    by_cases hzero : b.1 = 0
    · simp only [arithNumbers,if_true,exactResult,hzero,Fits]
      exact iff_of_false (by simp [ExactOrError]) (by decide)
    · have hcast := cast_exact_iff (hxa.remEuclid hxb hzero hma hmb)
      simpa [exactResult,Fits,arithNumbers,hzero] using hcast
  | _ => cases hop

theorem neg_exact_iff (a : I64) : ExactOrError (some (-a.1)) (evalUnary .neg (.integer a) span) ↔ a.1 ≠ i64Min := by
  have hrange := a.2
  rw [evalUnary,checkedI64]
  by_cases hmin : a.1 = i64Min
  · have hout : ¬ (i64Min ≤ -a.1 ∧ -a.1 ≤ i64Max) := by
      unfold i64Min i64Max at *
      omega
    rw [ExactOrError,Option.bind_some,I64.check_of_not hout,dif_neg hout]
    refine iff_of_false ?_ (not_not_intro hmin)
    rintro ⟨e,he⟩
    cases he
  · have hin : i64Min ≤ -a.1 ∧ -a.1 ≤ i64Max := by
      unfold i64Min i64Max at *
      omega
    rw [ExactOrError,Option.bind_some,I64.check_of_mem hin,dif_pos hin]
    exact iff_of_true ⟨_,rfl,rfl⟩ hmin

/-! ## Sums of integers -/

/-- The sum of the first of some integers. -/
def partialSum (l : List I64) (n : ℕ) : ℤ := ((l.take n).map Subtype.val).sum

def totalSum (l : List I64) : ℤ := (l.map Subtype.val).sum

theorem partialSum_bound (l : List I64) (n : ℕ) : (partialSum l n).natAbs ≤ l.length*2^63 := by
  induction l generalizing n with
  | nil => simp [partialSum]
  | cons a l ih =>
    cases n with
    | zero => simp [partialSum]
    | succ n =>
      have hrange := a.2
      unfold i64Min i64Max at hrange
      have hrest := ih n
      have hcons : partialSum (a::l) (n+1) = a.1+partialSum l n := by simp [partialSum]
      rw [hcons,List.length_cons]
      omega

theorem foldlM_holds {l : List I64} {s : Binary64} {v : ℤ} (hs : s.Holds v) (hshort : ∀ a ∈ l, Short a.1.natAbs)
    (hsums : ∀ n, Short (v+partialSum l n).natAbs) (hsmall : ∀ n, Moderate (v+partialSum l n)) :
    ∃ t, (l.map Value.integer).foldlM (addToSum span) (true,s) = .ok (true,t) ∧ t.Holds (v+totalSum l) := by
  induction l generalizing s v with
  | nil => exact ⟨s,rfl,by simpa [totalSum] using hs⟩
  | cons a l ih =>
    rw [List.forall_mem_cons] at hshort
    have hcons : ∀ n, partialSum (a::l) (n+1) = a.1+partialSum l n := fun n => by simp [partialSum]
    have hnext : ∀ n, v+partialSum (a::l) (n+1) = v+a.1+partialSum l n := fun n => by rw [hcons,add_assoc]
    have hzero : partialSum l 0 = 0 := rfl
    have hadd := hs.add (holds_short a hshort.1) (by simpa [hnext,hzero] using hsmall 1)
    rw [(roundInt_eq_iff _).mpr (by simpa [hnext,hzero] using hsums 1)] at hadd
    obtain ⟨t,hrun,ht⟩ := ih hadd hshort.2 (fun n => hnext n ▸ hsums (n+1)) (fun n => hnext n ▸ hsmall (n+1))
    refine ⟨t,?_,?_⟩
    · rw [List.map_cons,List.foldlM_cons]
      exact hrun
    · have htotal : v+totalSum (a::l) = v+a.1+totalSum l := by
        rw [totalSum,List.map_cons,List.sum_cons,add_assoc]
        rfl
      rw [htotal]
      exact ht

/-- Neither the integers nor their sums in the order of the list need more than 53 significant bits. -/
structure SumsShort (l : List I64) : Prop where
  each : ∀ a ∈ l, Short a.1.natAbs
  partials : ∀ n, Short (partialSum l n).natAbs

theorem sum_exact {l : List I64} (h : SumsShort l) (hlength : l.length < 2^64) (hrange : i64Min ≤ totalSum l ∧ totalSum l ≤ i64Max) :
    ExactOrError (some (totalSum l)) (sum (l.map .integer) span) := by
  rw [ExactOrError,Option.bind_some,I64.check_of_mem hrange]
  cases l with
  | nil => exact ⟨_,rfl,rfl⟩
  | cons a l =>
    have hsmall : ∀ n, Moderate (0+partialSum (a::l) n) := by
      intro n
      rw [zero_add,Moderate]
      calc _ ≤ (a::l).length*2^63 := partialSum_bound _ n
        _ ≤ 2^64*2^63 := Nat.mul_le_mul_right _ hlength.le
        _ ≤ 2^200 := by decide
    obtain ⟨t,hrun,ht⟩ := @foldlM_holds span _ _ _ Binary64.holds_zero h.each (fun n => (zero_add (partialSum (a::l) n)).symm ▸ h.partials n) hsmall
    rw [zero_add] at ht
    refine ⟨asI64 t,?_,?_⟩
    · rw [asI64_holds ht]
      omega
    · rw [List.map_cons] at hrun ⊢
      rw [sum,hrun]
      · rfl
      · exact nofun

/-- Operations on integers of at most 53 significant bits have their exact result, or an error where there is none in
range, exactly when the result fits; negation does but for the least integer; and sums do in every order, while no sum
needs rounding. -/
theorem arithmetic_exact (powf : Binary64 → Binary64 → Binary64) (span : Span) :
    (∀ op : BinaryOp, op.arithmetic = true → ∀ a b : I64, Short a.1.natAbs → Short b.1.natAbs →
      (ExactOrError (exactResult op a.1 b.1) (arith powf op (.integer a) (.integer b) span) ↔ Fits op a.1 b.1)) ∧
    (∀ a : I64, ExactOrError (some (-a.1)) (evalUnary .neg (.integer a) span) ↔ a.1 ≠ i64Min) ∧
    ∀ l : List I64, l.length < 2^64 → (∀ l', l'.Perm l → SumsShort l') → (i64Min ≤ totalSum l ∧ totalSum l ≤ i64Max) →
      ∀ l' : List I64, l'.Perm l → ExactOrError (some (totalSum l)) (sum (l'.map .integer) span) := by
  refine ⟨fun op hop a b ha hb => arith_exact_iff hop a b ha hb,fun a => neg_exact_iff a,fun l hlength hshort hrange l' hperm => ?_⟩
  have htotal : totalSum l' = totalSum l := (hperm.map Subtype.val).sum_eq
  rw [← htotal] at hrange ⊢
  exact sum_exact (hshort l' hperm) (hperm.length_eq ▸ hlength) hrange

theorem small_exact :
    ExactOrError (exactResult .mod (-5) 3) (arith (fun x _ => x) .mod (.integer ⟨-5,by decide⟩) (.integer ⟨3,by decide⟩) ⟨0,1,1,1⟩) ∧
      ExactOrError (some (-7)) (evalUnary .neg (.integer ⟨7,by decide⟩) ⟨0,1,1,1⟩) ∧
      ExactOrError (some 7) (sum [.integer ⟨7,by decide⟩] ⟨0,1,1,1⟩) := by
  obtain ⟨hop,hneg,hsum⟩ := arithmetic_exact (fun x _ => x) ⟨0,1,1,1⟩
  have hseven : ∀ l' : List I64, l'.Perm [⟨7,by decide⟩] → SumsShort l' := by
    intro l' hperm
    rw [List.perm_singleton.mp hperm]
    refine ⟨fun a ha => ?_,fun n => short_of_le ?_⟩
    · rw [List.mem_singleton.mp ha]
      exact short_of_le (by decide)
    · cases n <;> simp [partialSum]
  have hfits : Fits .mod (-5) 3 := ⟨by decide,.inr (.inl (short_of_le (by decide)))⟩
  refine ⟨?_,(hneg ⟨7,by decide⟩).mpr (by decide),hsum [⟨7,by decide⟩] (by decide) hseven (by decide) [⟨7,by decide⟩] (.refl _)⟩
  exact (hop .mod rfl ⟨-5,by decide⟩ ⟨3,by decide⟩ (short_of_le (by decide)) (short_of_le (by decide))).mpr hfits

/-- The first integer that no float is. -/
def pastFloats : I64 := ⟨2^53+1,by decide⟩

theorem pastFloats_round : roundInt pastFloats.1 = 2^53 := by decide +kernel

/-- Adding zero changes an integer, negation of the least integer panics, and a remainder by zero is zero. -/
theorem arithmetic_inexact :
    ¬ ExactOrError (exactResult .add pastFloats.1 0) (arith (fun x _ => x) .add (.integer pastFloats) (.integer ⟨0,by decide⟩) ⟨0,1,1,1⟩) ∧
      ¬ ExactOrError (some (-i64Min)) (evalUnary .neg (.integer ⟨i64Min,by decide⟩) ⟨0,1,1,1⟩) ∧
      ¬ ExactOrError (exactResult .mod 1 0) (arith (fun x _ => x) .mod (.integer ⟨1,by decide⟩) (.integer ⟨0,by decide⟩) ⟨0,1,1,1⟩) ∧
      ¬ ExactOrError (some pastFloats.1) (sum [.integer pastFloats] ⟨0,1,1,1⟩) := by
  have hx := Binary64.holds_ofInt (i64_moderate pastFloats)
  rw [pastFloats_round] at hx
  have hmoderate : Moderate (2^53) := by
    unfold Moderate
    decide
  have hround : roundInt (2^53) = 2^53 := by decide +kernel
  have hback : ∀ x : Binary64, x.Holds (2^53) → ¬ ExactOrError (some pastFloats.1) (.ok (.integer (asI64 x))) := by
    rintro x h ⟨i,hi,heq⟩
    cases heq
    rw [asI64_holds h] at hi
    exact absurd hi (by decide)
  refine ⟨?_,?_,?_,?_⟩
  · have hadd := hx.add Binary64.holds_zero (by rwa [add_zero])
    rw [add_zero,hround] at hadd
    exact hback _ hadd
  · exact fun h => (neg_exact_iff ⟨i64Min,by decide⟩).mp h rfl
  · rintro ⟨e,he⟩
    cases he
  · have hadd := Binary64.holds_zero.add hx (by rwa [zero_add])
    rw [zero_add,hround] at hadd
    exact hback _ hadd

end Drevo.Cypher
