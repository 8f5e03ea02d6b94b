import Drevo.Cypher.Arith

/-! The function `range`: an arithmetic sequence of integers up to and including an end. -/
namespace Drevo.Cypher
open Lib

def fnErr {α : Type} (name message : String) (span : Span) : ExecResult α := .error (.error (.invalidFunctionCall name message span))

def intArg (func : String) (value : Value) (which : String) (span : Span) : ExecResult I64 :=
  match value with
  | .integer i => .ok i
  | other => fnErr func (which ++ " argument must be an Integer, got " ++ other.typeName) span

def rangeMaxElements : ℤ := 10000000

/-- The 64-bit integer with the last 64 bits. -/
def wrapI64 (v : ℤ) : ℤ := v.bmod (2^64)

def rangeLen (start stop step : I64) : ExecResult ℤ :=
  if (0 < step.1 ∧ stop.1 < start.1) ∨ (step.1 < 0 ∧ start.1 < stop.1) then .ok 0
  else do
    let span ← checkedI64 (stop.1-start.1)
    let count ← checkedI64 (wrapI64 (span.1.tdiv step.1)+1)
    return count.1

/-- The elements of a list of some length from one on. -/
def rangeItems (step : I64) : ℕ → I64 → List I64
  | 0,_ => []
  | n+1,current => current :: rangeItems step n (current.saturatingAdd step)

def limitMessage (count : ℤ) : String :=
  "range of " ++ toString count ++ " elements exceeds the " ++ toString rangeMaxElements ++ " limit"

/-- The sequence of checked arguments; a negative count is no capacity for a list. -/
def rangeOf (start stop step : I64) (span : Span) : ExecResult Value :=
  if step.1 = 0 then fnErr "range" "step must not be zero" span
  else do
    let count ← rangeLen start stop step
    if rangeMaxElements < count then fnErr "range" (limitMessage count) span
    else if count < 0 then .error .panic
    else return .list ((rangeItems step count.toNat start).map .integer)

def scalarRange (args : List Value) (span : Span) : ExecResult Value :=
  match args with
  | [a,b] => do rangeOf (← intArg "range" a "start" span) (← intArg "range" b "end" span) ⟨1,by decide⟩ span
  | [a,b,c] => do
    rangeOf (← intArg "range" a "start" span) (← intArg "range" b "end" span) (← intArg "range" c "step" span) span
  | args => fnErr "range" ("expected 2 or 3 arguments, got " ++ toString args.length) span

/-! ## The sequence -/

/-- A term that does not pass the end. -/
def NotPast (stop step v : ℤ) : Prop := (0 < step ∧ v ≤ stop) ∨ (step < 0 ∧ stop ≤ v)

/-- The terms that do not pass the end, or the limit error when there are too many. -/
def RangeExact (start stop step : I64) (span : Span) (r : ExecResult Value) : Prop :=
  ∃ n : ℕ, (∀ k : ℕ, k < n ↔ NotPast stop.1 step.1 (start.1+k*step.1)) ∧
    if n ≤ rangeMaxElements then ∃ items : List I64, items.map Subtype.val = (List.range n).map (fun k : ℕ => start.1+k*step.1) ∧ r = .ok (.list (items.map .integer))
    else r = fnErr "range" (limitMessage n) span

/-- The distance and the count of the steps are in range, when the step does not lead away from the end. -/
def RangeFits (start stop step : ℤ) : Prop :=
  ¬ NotPast stop step start ∨ ((i64Min ≤ stop-start ∧ stop-start ≤ i64Max) ∧ ((step = 1 ∨ step = -1) → |stop-start| < i64Max))

variable {start stop step : I64} {span : Span} {n : ℕ}

theorem notPast_iff {start stop step : ℤ} (hstart : NotPast stop step start) (k : ℕ) :
    (k : ℤ) < (stop-start).tdiv step+1 ↔ NotPast stop step (start+k*step) := by
  obtain ⟨hpos,hle⟩ | ⟨hneg,hle⟩ := hstart
  · rw [Int.tdiv_eq_ediv_of_nonneg (by omega),Int.lt_add_one_iff,Int.le_ediv_iff_mul_le hpos,NotPast]
    omega
  · rw [← Int.neg_tdiv_neg,Int.tdiv_eq_ediv_of_nonneg (by omega),Int.lt_add_one_iff,Int.le_ediv_iff_mul_le (by omega),NotPast,mul_neg]
    omega

theorem rangeItems_spec (hall : ∀ k : ℕ, k < n → i64Min ≤ start.1+k*step.1 ∧ start.1+k*step.1 ≤ i64Max) :
    (rangeItems step n start).map Subtype.val = (List.range n).map (fun k : ℕ => start.1+k*step.1) := by
  induction n generalizing start with
  | zero => rfl
  | succ n ih =>
    rw [rangeItems,List.map_cons,List.range_succ_eq_map,List.map_cons,List.map_map,Nat.cast_zero,zero_mul,add_zero]
    congr 1
    cases n with
    | zero => rfl
    | succ n =>
      have hone := hall 1 (by omega)
      rw [Nat.cast_one,one_mul] at hone
      have hnext : (start.saturatingAdd step).1 = start.1+step.1 := I64.saturate_of_mem hone
      have hshift : ∀ k : ℕ, start.1+((k+1 : ℕ) : ℤ)*step.1 = (start.saturatingAdd step).1+k*step.1 := by
        intro k
        rw [hnext]
        push_cast
        ring
      rw [ih (fun k hk => hshift k ▸ hall (k+1) (by omega))]
      exact List.map_congr_left (fun k _ => (hshift k).symm)

theorem notPast_range {start stop step v : ℤ} (h : NotPast stop step v) (hstart : NotPast stop step start)
    (hv : (0 < step ∧ start ≤ v) ∨ (step < 0 ∧ v ≤ start)) (hs : i64Min ≤ start ∧ start ≤ i64Max) (ht : i64Min ≤ stop ∧ stop ≤ i64Max) :
    i64Min ≤ v ∧ v ≤ i64Max := by
  unfold NotPast at *
  omega

theorem panic_inexact : ¬ RangeExact start stop step span (.error .panic) := by
  rintro ⟨n,-,hn⟩
  split_ifs at hn
  · obtain ⟨_,_,heq⟩ := hn
    cases heq
  · cases hn

theorem rangeLen_away (haway : ¬ NotPast stop.1 step.1 start.1) (hstep : step.1 ≠ 0) : rangeLen start stop step = .ok 0 := by
  rw [rangeLen,if_pos]
  unfold NotPast at haway
  omega

theorem tdiv_cases {d s : ℤ} (hs : s ≠ 0) (hsame : (0 < s ∧ 0 ≤ d) ∨ (s < 0 ∧ d ≤ 0)) :
    0 ≤ d.tdiv s ∧ (((s = 1 ∨ s = -1) ∧ d.tdiv s = |d|) ∨ (s ≠ 1 ∧ s ≠ -1 ∧ 2*d.tdiv s ≤ |d|)) := by
  have habs : d.tdiv s = |d|/|s| := by
    obtain ⟨hpos,hd⟩ | ⟨hneg,hd⟩ := hsame
    · rw [Int.tdiv_eq_ediv_of_nonneg hd,abs_of_nonneg hd,abs_of_pos hpos]
    · rw [← Int.neg_tdiv_neg,Int.tdiv_eq_ediv_of_nonneg (by omega),abs_of_nonpos hd,abs_of_neg hneg]
  rw [habs]
  refine ⟨Int.ediv_nonneg (abs_nonneg d) (abs_nonneg s),?_⟩
  by_cases hone : s = 1 ∨ s = -1
  · refine .inl ⟨hone,?_⟩
    obtain rfl | rfl := hone <;> simp
  · refine .inr ⟨fun h => hone (.inl h),fun h => hone (.inr h),?_⟩
    have htwo : 2 ≤ |s| := by
      rw [Int.abs_eq_natAbs]
      omega
    have hmul := Int.ediv_mul_le |d| (by omega : |s| ≠ 0)
    have hge : (|d|/|s|)*2 ≤ (|d|/|s|) * |s| := mul_le_mul_of_nonneg_left htwo (Int.ediv_nonneg (abs_nonneg d) (abs_nonneg s))
    omega

/-- A step toward the end: the count is there exactly when distance and count are in range, and is negative or missing
otherwise. -/
theorem rangeLen_toward (hstart : NotPast stop.1 step.1 start.1) (hstep : step.1 ≠ 0) :
    (RangeFits start.1 stop.1 step.1 ∧ rangeLen start stop step = .ok ((stop.1-start.1).tdiv step.1+1)) ∨
      (¬ RangeFits start.1 stop.1 step.1 ∧ (rangeLen start stop step = .error .panic ∨ ∃ c < 0, rangeLen start stop step = .ok c)) := by
  have hnot : ¬ ((0 < step.1 ∧ stop.1 < start.1) ∨ (step.1 < 0 ∧ start.1 < stop.1)) := by
    unfold NotPast at hstart
    omega
  have hsame : (0 < step.1 ∧ 0 ≤ stop.1-start.1) ∨ (step.1 < 0 ∧ stop.1-start.1 ≤ 0) := by
    unfold NotPast at hstart
    omega
  obtain ⟨hnonneg,hcases⟩ := tdiv_cases hstep hsame
  rw [rangeLen,if_neg hnot]
  by_cases hdist : i64Min ≤ stop.1-start.1 ∧ stop.1-start.1 ≤ i64Max
  · have hspan : checkedI64 (stop.1-start.1) = .ok ⟨stop.1-start.1,hdist⟩ := dif_pos hdist
    rw [hspan]
    change (RangeFits _ _ _ ∧ (do let count ← checkedI64 (wrapI64 ((stop.1-start.1).tdiv step.1)+1); return count.1) = _) ∨
      (_ ∧ ((do let count ← checkedI64 (wrapI64 ((stop.1-start.1).tdiv step.1)+1); return count.1) = _ ∨
        ∃ c : ℤ, c < 0 ∧ (do let count ← checkedI64 (wrapI64 ((stop.1-start.1).tdiv step.1)+1); return count.1) = _))
    generalize (stop.1-start.1).tdiv step.1 = q at hnonneg hcases
    rw [Int.abs_eq_natAbs] at hcases
    have hfits : RangeFits start.1 stop.1 step.1 ↔ q < i64Max := by
      rw [RangeFits,Int.abs_eq_natAbs,or_iff_right (not_not_intro hstart)]
      unfold i64Min i64Max at *
      omega
    by_cases hq : q < i64Max
    · left
      have hwrap : wrapI64 q = q := by
        unfold i64Max at hq
        rw [wrapI64,Int.bmod_eq_of_le] <;> omega
      have hin : i64Min ≤ q+1 ∧ q+1 ≤ i64Max := by
        unfold i64Min i64Max at *
        omega
      refine ⟨hfits.mpr hq,?_⟩
      rw [hwrap,checkedI64,dif_pos hin]
      rfl
    · right
      refine ⟨fun h => hq (hfits.mp h),?_⟩
      obtain heq | heq : q = i64Max ∨ q = i64Max+1 := by
        unfold i64Min i64Max at *
        omega
      · left
        subst heq
        rfl
      · right
        subst heq
        exact ⟨-9223372036854775807,by decide,rfl⟩
  · right
    refine ⟨fun h => ?_,.inl ?_⟩
    · obtain h | h := h
      · exact h hstart
      · exact hdist h.1
    · have hspan : checkedI64 (stop.1-start.1) = .error .panic := dif_neg hdist
      rw [hspan]
      rfl

/-- A sequence has exactly its terms, or the limit error, when the step leads away from the end or distance and count
are in range. -/
theorem range_exact_iff (start stop step : I64) (span : Span) (hstep : step.1 ≠ 0) :
    RangeExact start stop step span (scalarRange [.integer start,.integer stop,.integer step] span) ↔ RangeFits start.1 stop.1 step.1 := by
  have hargs : scalarRange [.integer start,.integer stop,.integer step] span = rangeOf start stop step span := rfl
  rw [hargs,rangeOf,if_neg hstep]
  by_cases hstart : NotPast stop.1 step.1 start.1
  · obtain ⟨hfits,hlen⟩ | ⟨hnot,hlen | ⟨c,hc,hlen⟩⟩ := rangeLen_toward hstart hstep
    · refine iff_of_true ?_ hfits
      obtain ⟨n,hn⟩ : ∃ n : ℕ, (stop.1-start.1).tdiv step.1+1 = n := by
        refine Int.eq_ofNat_of_zero_le ?_
        have hsame : (0 < step.1 ∧ 0 ≤ stop.1-start.1) ∨ (step.1 < 0 ∧ stop.1-start.1 ≤ 0) := by
          unfold NotPast at hstart
          omega
        have hnonneg := (tdiv_cases hstep hsame).1
        omega
      have hterms : ∀ k : ℕ, k < n ↔ NotPast stop.1 step.1 (start.1+k*step.1) := by
        intro k
        rw [← notPast_iff hstart k,hn]
        exact Int.ofNat_lt.symm
      refine ⟨n,hterms,?_⟩
      rw [hlen,hn]
      by_cases hmax : (n : ℤ) ≤ rangeMaxElements
      · rw [if_pos hmax]
        change ∃ items : List I64, _ ∧ (if rangeMaxElements < (n : ℤ) then _ else if (n : ℤ) < 0 then _ else _) = _
        rw [if_neg (by omega),if_neg (by omega),Int.toNat_natCast]
        refine ⟨rangeItems step n start,rangeItems_spec (fun k hk => ?_),rfl⟩
        refine notPast_range ((hterms k).mp hk) hstart ?_ start.2 stop.2
        obtain ⟨hpos,-⟩ | ⟨hneg,-⟩ := hstart
        · have := mul_nonneg (Int.natCast_nonneg k) hpos.le
          exact .inl ⟨hpos,by omega⟩
        · have := mul_nonpos_of_nonneg_of_nonpos (Int.natCast_nonneg k) hneg.le
          exact .inr ⟨hneg,by omega⟩
      · rw [if_neg hmax]
        change (if rangeMaxElements < (n : ℤ) then _ else _) = _
        rw [if_pos (by omega)]
    · rw [hlen]
      exact iff_of_false panic_inexact hnot
    · have hpanic : (do let count ← (.ok c : ExecResult ℤ)
                        if rangeMaxElements < count then fnErr "range" (limitMessage count) span
                        else if count < 0 then .error .panic
                        else return .list ((rangeItems step count.toNat start).map .integer)) = (.error .panic : ExecResult Value) := by
        change (if rangeMaxElements < c then _ else if c < 0 then _ else _) = _
        have hsmall : ¬ rangeMaxElements < c := by
          unfold rangeMaxElements
          omega
        rw [if_neg hsmall,if_pos hc]
      rw [hlen,hpanic]
      exact iff_of_false panic_inexact hnot
  · rw [rangeLen_away hstart hstep]
    refine iff_of_true ⟨0,fun k => ?_,?_⟩ (.inl hstart)
    · refine iff_of_false (Nat.not_lt_zero k) (fun h => hstart ?_)
      unfold NotPast at *
      obtain ⟨hpos,hle⟩ | ⟨hneg,hle⟩ := h
      · have := mul_nonneg (Int.natCast_nonneg k) hpos.le
        exact .inl ⟨hpos,by omega⟩
      · have := mul_nonpos_of_nonneg_of_nonpos (Int.natCast_nonneg k) hneg.le
        exact .inr ⟨hneg,by omega⟩
    · rw [if_pos (by decide)]
      exact ⟨[],rfl,rfl⟩

example : rangeOf ⟨5,by decide⟩ ⟨-2,by decide⟩ ⟨-3,by decide⟩ ⟨0,1,1,1⟩ =
    .ok (.list [.integer ⟨5,by decide⟩,.integer ⟨2,by decide⟩,.integer ⟨-1,by decide⟩]) := rfl

theorem downward_range :
    RangeExact ⟨5,by decide⟩ ⟨-2,by decide⟩ ⟨-3,by decide⟩ ⟨0,1,1,1⟩
      (scalarRange [.integer ⟨5,by decide⟩,.integer ⟨-2,by decide⟩,.integer ⟨-3,by decide⟩] ⟨0,1,1,1⟩) :=
  (range_exact_iff ⟨5,by decide⟩ ⟨-2,by decide⟩ ⟨-3,by decide⟩ ⟨0,1,1,1⟩ (by decide)).mpr (.inr ⟨by decide,by decide⟩)

/-- From the least to the greatest integer in one step of half the range. -/
theorem wide_range_panics :
    scalarRange [.integer ⟨i64Min,by decide⟩,.integer ⟨i64Max,by decide⟩,.integer ⟨i64Max,by decide⟩] ⟨0,1,1,1⟩ = .error .panic ∧
      ¬ RangeExact ⟨i64Min,by decide⟩ ⟨i64Max,by decide⟩ ⟨i64Max,by decide⟩ ⟨0,1,1,1⟩
        (scalarRange [.integer ⟨i64Min,by decide⟩,.integer ⟨i64Max,by decide⟩,.integer ⟨i64Max,by decide⟩] ⟨0,1,1,1⟩) :=
  ⟨rfl,panic_inexact⟩

end Drevo.Cypher
