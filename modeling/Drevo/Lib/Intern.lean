import Mathlib

/-! Numbering by first appearance: the elements of a list whose key did not come up before, and the place of a key among
those that did. -/
namespace Lib.Intern

variable {α κ : Type} [DecidableEq κ]

/-- The elements whose key was not seen, each key once, in the order of the list. -/
def fresh (key : α → κ) : List κ → List α → List α
  | _,[] => []
  | seen,x :: xs => if key x ∈ seen then fresh key seen xs else x :: fresh key (seen ++ [key x]) xs

theorem fresh_nil (key : α → κ) (seen : List κ) : fresh key seen [] = [] := rfl

theorem fresh_cons (key : α → κ) (seen : List κ) (x : α) (xs : List α) : fresh key seen (x :: xs) =
    if key x ∈ seen then fresh key seen xs else x :: fresh key (seen ++ [key x]) xs := rfl

/-- The place of a key among those seen, where it is added if it is new. -/
def place (k : κ) (seen : List κ) : ℕ × List κ :=
  match seen.idxOf? k with
  | some i => (i,seen)
  | none => (seen.length,seen ++ [k])

theorem fresh_map (key : α → κ) (seen : List κ) (xs : List α) : (fresh key seen xs).map key = fresh id seen (xs.map key) := by
  induction xs generalizing seen with
  | nil => rfl
  | cons x xs ih =>
    simp only [fresh_cons,List.map_cons,id]
    split_ifs
    · exact ih seen
    · rw [List.map_cons,ih]

theorem fresh_length_le (key : α → κ) (seen : List κ) (xs : List α) : (fresh key seen xs).length ≤ xs.length := by
  induction xs generalizing seen with
  | nil => exact le_rfl
  | cons x xs ih =>
    rw [fresh_cons]
    split_ifs
    · exact (ih seen).trans (Nat.le_succ _)
    · exact Nat.succ_le_succ (ih _)

theorem fresh_nodup {seen : List κ} (h : seen.Nodup) (ks : List κ) : (seen ++ fresh id seen ks).Nodup := by
  induction ks generalizing seen with
  | nil => rwa [fresh_nil,List.append_nil]
  | cons k ks ih =>
    simp only [fresh_cons,id]
    split_ifs with hk
    · exact ih h
    · have hmore : (seen ++ [k]).Nodup := by
        rw [List.nodup_append_comm,List.singleton_append]
        exact List.nodup_cons.mpr ⟨hk,h⟩
      have hrest := ih hmore
      rwa [List.append_assoc] at hrest

theorem mem_seen (seen : List κ) {ks : List κ} {k : κ} (h : k ∈ ks) : k ∈ seen ++ fresh id seen ks := by
  induction ks generalizing seen with
  | nil => cases h
  | cons l ks ih =>
    simp only [fresh_cons,id]
    split_ifs with hl
    · obtain rfl | h := List.mem_cons.mp h
      · exact List.mem_append_left _ hl
      · exact ih seen h
    · obtain rfl | h := List.mem_cons.mp h
      · simp
      · have hrest := ih (seen ++ [l]) h
        rwa [List.append_assoc] at hrest

theorem place_get (k : κ) (seen : List κ) : (place k seen).2[(place k seen).1]? = some k := by
  unfold place
  cases h : seen.idxOf? k with
  | none => simp
  | some i =>
    obtain ⟨hi,hk,-⟩ := List.findIdx?_eq_some_iff_getElem.mp h
    rw [List.getElem?_eq_getElem hi,eq_of_beq hk]

theorem place_fresh (k : κ) (seen ks : List κ) :
    seen ++ fresh id seen (k :: ks) = (place k seen).2 ++ fresh id (place k seen).2 ks := by
  simp only [fresh_cons,id]
  unfold place
  cases h : seen.idxOf? k with
  | none =>
    have hk : k ∉ seen := List.idxOf?_eq_none_iff.mp h
    rw [if_neg hk,List.append_assoc]
    rfl
  | some i =>
    have hk : k ∈ seen := by
      by_contra hk
      rw [List.idxOf?_eq_none_iff.mpr hk] at h
      cases h
    rw [if_pos hk]

end Lib.Intern
