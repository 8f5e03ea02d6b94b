import Mathlib

/-! A feed of changes of which only a window is kept. Changes are numbered from one; a reader
holds the number of the last change it has seen, its cursor, and one whose cursor lies before the
window has to start over from a snapshot. -/
namespace Lib

variable {α : Type*}

/-- The changes kept, and the number of the last one that is not. -/
structure Feed (α : Type*) where
  startSeq : ℕ := 0
  ops : List α := []
  deriving DecidableEq

/-- What a reader gets: the changes, the cursor to go on from, and whether changes are missing
before them. -/
structure ChangeBatch (α : Type*) where
  cursor : ℕ
  ops : List α
  lagged : Bool
  deriving DecidableEq

namespace Feed

/-- The number of the newest change. -/
def changeHead (f : Feed α) : ℕ := f.startSeq+f.ops.length

def publish (f : Feed α) (ops : List α) : Feed α := { f with ops := f.ops ++ ops }

def changesSince (f : Feed α) (cursor : ℕ) : ChangeBatch α :=
  if cursor < f.startSeq then ⟨f.changeHead,f.ops,true⟩
  else ⟨f.changeHead,f.ops.drop (min (cursor-f.startSeq) f.ops.length),false⟩

/-- Drop the changes up to `cursor`, but none that is still to come. -/
def trimBefore (f : Feed α) (cursor : ℕ) : Feed α :=
  let target := min cursor f.changeHead
  if target ≤ f.startSeq then f else ⟨target,f.ops.drop (target-f.startSeq)⟩

/-- The changes a reader at `cursor` has not seen. -/
def tail (f : Feed α) (cursor : ℕ) : List α := f.ops.drop (cursor-f.startSeq)

@[simp] theorem publish_startSeq (f : Feed α) (ops : List α) : (f.publish ops).startSeq = f.startSeq := rfl

@[simp] theorem publish_nil (f : Feed α) : f.publish [] = f := by simp [publish]

theorem startSeq_le_changeHead (f : Feed α) : f.startSeq ≤ f.changeHead := Nat.le_add_right _ _

theorem changeHead_publish (f : Feed α) (ops : List α) : (f.publish ops).changeHead = f.changeHead+ops.length := by
  simp [changeHead,publish,Nat.add_assoc]

@[simp] theorem tail_changeHead (f : Feed α) : f.tail f.changeHead = [] := by simp [tail,changeHead]

theorem tail_publish {f : Feed α} {cursor : ℕ} (h : cursor ≤ f.changeHead) (ops : List α) :
    (f.publish ops).tail cursor = f.tail cursor ++ ops := by
  unfold changeHead at h
  simp only [tail,publish]
  exact List.drop_append_of_le_length (by omega)

theorem changeHead_trimBefore (f : Feed α) (cursor : ℕ) : (f.trimBefore cursor).changeHead = f.changeHead := by
  have hle : min cursor f.changeHead ≤ f.changeHead := min_le_right _ _
  simp only [trimBefore]
  split_ifs with h
  · rfl
  · unfold changeHead at hle h ⊢
    simp only [List.length_drop]
    omega

theorem startSeq_trimBefore (f : Feed α) (cursor : ℕ) : f.startSeq ≤ (f.trimBefore cursor).startSeq := by
  simp only [trimBefore]
  split_ifs with h
  · exact le_rfl
  · exact (Nat.lt_of_not_le h).le

theorem tail_trimBefore {f : Feed α} {cursor floor : ℕ} (h : (f.trimBefore floor).startSeq ≤ cursor) :
    (f.trimBefore floor).tail cursor = f.tail cursor := by
  simp only [trimBefore] at h ⊢
  split_ifs at h ⊢ with hle
  · rfl
  · simp only at h
    simp only [tail,List.drop_drop]
    congr 1
    omega

theorem changesSince_lagged (f : Feed α) (cursor : ℕ) :
    (f.changesSince cursor).lagged = true ↔ cursor < f.startSeq := by
  unfold changesSince
  split_ifs with h <;> simp [h]

theorem changesSince_cursor (f : Feed α) (cursor : ℕ) : (f.changesSince cursor).cursor = f.changeHead := by
  unfold changesSince
  split_ifs <;> rfl

theorem changesSince_ops {f : Feed α} {cursor : ℕ} (h : f.startSeq ≤ cursor) (hc : cursor ≤ f.changeHead) :
    (f.changesSince cursor).ops = f.tail cursor := by
  unfold changeHead at hc
  rw [changesSince,if_neg (Nat.not_lt.mpr h)]
  simp only [tail]
  congr 1
  omega

theorem mem_changesSince {f : Feed α} {cursor : ℕ} {a : α} (h : a ∈ (f.changesSince cursor).ops) : a ∈ f.ops := by
  unfold changesSince at h
  split_ifs at h
  · exact h
  · exact List.mem_of_mem_drop h

theorem mem_trimBefore {f : Feed α} {cursor : ℕ} {a : α} (h : a ∈ (f.trimBefore cursor).ops) : a ∈ f.ops := by
  simp only [trimBefore] at h
  split_ifs at h
  · exact h
  · exact List.mem_of_mem_drop h

/-! ## Numbering -/

/-- The feed numbers `all` from `base` on, and keeps the end of it. -/
structure Numbers (f : Feed α) (base : ℕ) (all : List α) : Prop where
  floor : base ≤ f.startSeq
  window : f.startSeq ≤ base+all.length
  ops : f.ops = all.drop (f.startSeq-base)

theorem numbers_self (f : Feed α) : f.Numbers f.startSeq f.ops := by
  refine ⟨le_rfl,Nat.le_add_right _ _,?_⟩
  rw [Nat.sub_self,List.drop_zero]

theorem Numbers.changeHead {f : Feed α} {base : ℕ} {all : List α} (h : f.Numbers base all) :
    f.changeHead = base+all.length := by
  have hb := h.floor
  have hw := h.window
  rw [Feed.changeHead,h.ops,List.length_drop]
  omega

theorem Numbers.publish {f : Feed α} {base : ℕ} {all : List α} (h : f.Numbers base all) (ops : List α) :
    (f.publish ops).Numbers base (all ++ ops) := by
  have hb := h.floor
  have hw := h.window
  refine ⟨hb,?_,?_⟩
  · rw [publish_startSeq,List.length_append]
    omega
  · rw [publish_startSeq,List.drop_append_of_le_length (by omega),← h.ops]
    rfl

theorem Numbers.trimBefore {f : Feed α} {base : ℕ} {all : List α} (h : f.Numbers base all) (cursor : ℕ) :
    (f.trimBefore cursor).Numbers base all := by
  have hb := h.floor
  have hhead := h.changeHead
  simp only [Feed.trimBefore]
  split_ifs with hle
  · exact h
  · refine ⟨hb.trans (Nat.le_of_not_le hle),?_,?_⟩
    · rw [← hhead]
      exact min_le_right _ _
    · simp only
      rw [h.ops,List.drop_drop]
      congr 1
      omega

theorem Numbers.changesSince {f : Feed α} {base : ℕ} {all : List α} (h : f.Numbers base all) (cursor : ℕ)
    (hs : f.startSeq ≤ cursor) (hc : cursor ≤ base+all.length) :
    (f.changesSince cursor).lagged = false ∧ (f.changesSince cursor).ops = all.drop (cursor-base) := by
  have hb := h.floor
  have hlag := mt (changesSince_lagged f cursor).mp (Nat.not_lt.mpr hs)
  refine ⟨by simpa using hlag,?_⟩
  rw [changesSince_ops hs (h.changeHead ▸ hc),tail,h.ops,List.drop_drop]
  congr 1
  omega

end Feed
end Lib
