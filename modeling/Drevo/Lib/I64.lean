import Mathlib

/-! Signed 64-bit integers: values in range, with a check on the result and saturating arithmetic. -/
namespace Lib

def i64Min : ℤ := -9223372036854775808

def i64Max : ℤ := 9223372036854775807

abbrev I64 := {x : ℤ // i64Min ≤ x ∧ x ≤ i64Max}

namespace I64

/-- The value in range that is nearest to `x`. -/
def saturate (x : ℤ) : I64 := ⟨max i64Min (min i64Max x),le_max_left _ _,max_le (by decide) (min_le_left _ _)⟩

theorem saturate_val (x : ℤ) : (saturate x).1 = max i64Min (min i64Max x) := rfl

def saturatingAdd (a b : I64) : I64 := saturate (a.1+b.1)

theorem saturate_of_mem {x : ℤ} (h : i64Min ≤ x ∧ x ≤ i64Max) : (saturate x).1 = x := by
  rw [saturate_val,min_eq_right h.2,max_eq_right h.1]

/-- The result of an operation, if it is in range. -/
def check (x : ℤ) : Option ℤ := if i64Min ≤ x ∧ x ≤ i64Max then some x else none

theorem check_of_mem {x : ℤ} (h : i64Min ≤ x ∧ x ≤ i64Max) : check x = some x := if_pos h

theorem check_of_not {x : ℤ} (h : ¬ (i64Min ≤ x ∧ x ≤ i64Max)) : check x = none := if_neg h

end I64
end Lib
