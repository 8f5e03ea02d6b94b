import Mathlib

/-! Backtracking on a budget: attempts that succeed or fail and may run out, what it means that an attempt decides a
property, and repetitions of a relation. -/
namespace Lib

/-- What is left of a budget, and whether it was overdrawn. -/
structure Budget where
  left : ℕ
  overflowed : Bool := false

/-- An attempt succeeds or fails, and uses some of the budget. -/
abbrev Attempt := Budget → Bool × Budget

namespace Attempt

def answer (b : Bool) : Attempt := fun s => (b,s)

def overflow : Attempt := fun s => (false,{ s with overflowed := true })

/-- Charge one for the attempt. -/
def charged (a : Attempt) : Attempt := fun s => if s.left = 0 then overflow s else a { s with left := s.left-1 }

/-- The attempt, if the condition holds. -/
def guarded (b : Bool) (a : Attempt) : Attempt := if b then a else answer false

/-- The first attempt, and when it fails the second. -/
def orElse (a b : Attempt) : Attempt := fun s =>
  match a s with
  | (true,s) => (true,s)
  | (false,s) => b s

variable {a b : Attempt} {c : Bool} {s : Budget}

theorem charged_apply : charged a s = if s.left = 0 then overflow s else a { s with left := s.left-1 } := rfl

theorem guarded_eq : guarded c a = if c then a else answer false := rfl

theorem orElse_apply : orElse a b s =
    match a s with
    | (true,s) => (true,s)
    | (false,s) => b s := rfl

end Attempt

/-- An attempt succeeds only when the property holds, and fails only when it does not or the budget is overdrawn. -/
structure Decides (a : Attempt) (P : Prop) : Prop where
  latched : ∀ s, s.overflowed = true → (a s).2.overflowed = true
  sound : ∀ s, (a s).1 = true → P
  complete : ∀ s, (a s).1 = false → (a s).2.overflowed = false → ¬ P

namespace Decides
open Attempt

variable {a b : Attempt} {P Q : Prop} {c : Bool}

theorem congr (h : Decides a P) (hiff : P ↔ Q) : Decides a Q where
  latched := h.latched
  sound s hs := hiff.mp (h.sound s hs)
  complete s hs ho hq := h.complete s hs ho (hiff.mpr hq)

theorem answer (c : Bool) : Decides (answer c) (c = true) where
  latched _ hs := hs
  sound _ hs := hs
  complete _ hs _ := by
    rw [show c = false from hs]
    exact Bool.false_ne_true

theorem overflow (P : Prop) : Decides overflow P where
  latched _ _ := rfl
  sound _ hs := by cases hs
  complete _ _ ho := by cases ho

theorem charged (h : Decides a P) : Decides (charged a) P where
  latched s hs := by
    rw [charged_apply]
    split_ifs
    · rfl
    · exact h.latched _ hs
  sound s hs := by
    rw [charged_apply] at hs
    split_ifs at hs
    · cases hs
    · exact h.sound _ hs
  complete s hs ho := by
    rw [charged_apply] at hs ho
    split_ifs at hs ho
    · cases ho
    · exact h.complete _ hs ho

theorem guarded (h : c = true → Decides a P) : Decides (guarded c a) (c = true ∧ P) := by
  rw [guarded_eq]
  split_ifs with hc
  · exact (h hc).congr ⟨fun hp => ⟨hc,hp⟩,fun hp => hp.2⟩
  · exact (Decides.answer false).congr ⟨nofun,fun hp => absurd hp.1 hc⟩

theorem orElse (ha : Decides a P) (hb : Decides b Q) : Decides (orElse a b) (P ∨ Q) where
  latched s hs := by
    rw [orElse_apply]
    have ho := ha.latched s hs
    split
    · next s' heq =>
      rw [heq] at ho
      exact ho
    · next s' heq =>
      rw [heq] at ho
      exact hb.latched s' ho
  sound s hs := by
    rw [orElse_apply] at hs
    split at hs
    · next s' heq => exact .inl (ha.sound s (by rw [heq]))
    · next s' heq => exact .inr (hb.sound s' hs)
  complete s hs ho := by
    rw [orElse_apply] at hs ho
    split at hs
    · cases hs
    · next s' heq =>
      rw [heq] at ho
      rintro (hp | hq)
      · -- the second attempt did not overdraw the budget, so neither did the first
        have ho' : (b s').2.overflowed = false := ho
        have hs' : s'.overflowed = false := by
          rw [← Bool.not_eq_true]
          intro hs'
          rw [hb.latched s' hs'] at ho'
          cases ho'
        exact ha.complete s (by rw [heq]) (by rw [heq]; exact hs') hp
      · exact hb.complete s' hs ho hq

end Decides

/-! ## Repetitions -/

variable {α : Type*} {R S : α → α → Prop} {x y z : α} {n : ℕ}

/-- The relation as many times in a row. -/
inductive Times (R : α → α → Prop) : ℕ → α → α → Prop
  | zero (x : α) : Times R 0 x x
  | succ {n : ℕ} {x y z : α} (h : R x y) (hrest : Times R n y z) : Times R (n+1) x z

/-- The relation as many times in a row, and it stays where it is the last time at most. -/
inductive Brief (R : α → α → Prop) : ℕ → α → α → Prop
  | zero (x : α) : Brief R 0 x x
  | last {x y : α} (h : R x y) : Brief R 1 x y
  | succ {n : ℕ} {x y z : α} (h : R x y) (hne : y ≠ x) (hrest : Brief R n y z) : Brief R (n+1) x z

theorem Times.mono (hsub : ∀ x y, R x y → S x y) (h : Times R n x y) : Times S n x y := by
  induction h with
  | zero => exact .zero _
  | succ h _ ih => exact .succ (hsub _ _ h) ih

theorem Brief.times (h : Brief R n x y) : Times R n x y := by
  induction h with
  | zero => exact .zero _
  | last h => exact .succ h (.zero _)
  | succ h _ _ ih => exact .succ h ih

end Lib
