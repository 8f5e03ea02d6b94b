import Mathlib

/-! Cells on a heap that several owners share and that are copied on write. A heap is counted when
each cell knows how many pointers to it there are; then a write through one pointer is seen
through no other. -/
namespace Lib

/-- A value with the number of its owners. -/
structure Cell (α : Type*) where
  strong : ℕ
  value : α

structure Heap (α : Type*) where
  cells : ℕ → Cell α
  next : ℕ

namespace Heap
variable {α : Type*}

/-- A heap with nothing on it. -/
def empty (v : α) : Heap α := ⟨fun _ => ⟨0,v⟩,0⟩

def value (h : Heap α) (p : ℕ) : α := (h.cells p).value

def alloc (h : Heap α) (v : α) : Heap α × ℕ := (⟨Function.update h.cells h.next ⟨1,v⟩,h.next+1⟩,h.next)

/-- One more owner. -/
def retain (h : Heap α) (p : ℕ) : Heap α :=
  { h with cells := Function.update h.cells p ⟨(h.cells p).strong+1,h.value p⟩ }

/-- One owner less. -/
def release (h : Heap α) (p : ℕ) : Heap α :=
  { h with cells := Function.update h.cells p ⟨(h.cells p).strong-1,h.value p⟩ }

/-- Write through a pointer: in place if it is the only one, else into a copy of its own. -/
def update (h : Heap α) (p : ℕ) (f : α → α) : Heap α × ℕ :=
  if (h.cells p).strong = 1 then ({ h with cells := Function.update h.cells p ⟨1,f (h.value p)⟩ },p)
  else (h.release p).alloc (f (h.value p))

/-- The pointers to the cells, each as often as it is held. -/
def Counted (h : Heap α) (ps : List ℕ) : Prop :=
  ∀ p, (h.cells p).strong = ps.count p ∧ (h.next ≤ p → (h.cells p).strong = 0)

variable {h : Heap α} {ps : List ℕ}

theorem Counted.perm {qs : List ℕ} (hc : h.Counted ps) (hp : ps.Perm qs) : h.Counted qs := by
  intro p
  rw [← hp.count_eq]
  exact hc p

theorem Counted.lt (hc : h.Counted ps) {p : ℕ} (hp : p ∈ ps) : p < h.next := by
  by_contra hle
  have hzero := (hc p).2 (Nat.le_of_not_lt hle)
  rw [(hc p).1] at hzero
  exact absurd hp (List.count_eq_zero.mp hzero)

theorem empty_counted (v : α) : (empty v).Counted [] := fun _ => ⟨rfl,fun _ => rfl⟩

theorem alloc_counted (hc : h.Counted ps) (v : α) : (h.alloc v).1.Counted (h.next :: ps) := by
  intro p
  show (Function.update h.cells h.next ⟨1,v⟩ p).strong = _ ∧ (h.next+1 ≤ p → (Function.update h.cells h.next ⟨1,v⟩ p).strong = 0)
  obtain ⟨hcount,hfree⟩ := hc p
  rw [Function.update_apply,List.count_cons]
  split_ifs with heq hbeq hbeq
  · subst heq
    rw [← hcount,hfree le_rfl]
    exact ⟨rfl,fun hle => absurd hle (by omega)⟩
  · exact absurd (beq_iff_eq.mpr heq.symm) hbeq
  · exact absurd (beq_iff_eq.mp hbeq).symm heq
  · exact ⟨hcount,fun hle => hfree (by omega)⟩

theorem alloc_self (h : Heap α) (v : α) : (h.alloc v).1.value h.next = v := by
  show (Function.update h.cells h.next _ h.next).value = _
  rw [Function.update_self]

theorem alloc_value (hc : h.Counted ps) (v : α) {p : ℕ} (hp : p ∈ ps) : (h.alloc v).1.value p = h.value p := by
  show (Function.update h.cells h.next _ p).value = _
  rw [Function.update_of_ne (Nat.ne_of_lt (hc.lt hp))]
  rfl

theorem retain_value (h : Heap α) (p q : ℕ) : (h.retain p).value q = h.value q := by
  show (Function.update h.cells p _ q).value = _
  rw [Function.update_apply]
  split_ifs with heq
  · rw [heq]
  · rfl

theorem release_value (h : Heap α) (p q : ℕ) : (h.release p).value q = h.value q := by
  show (Function.update h.cells p _ q).value = _
  rw [Function.update_apply]
  split_ifs with heq
  · rw [heq]
  · rfl

theorem retain_counted (hc : h.Counted ps) {p : ℕ} (hp : p ∈ ps) : (h.retain p).Counted (p :: ps) := by
  intro q
  show (Function.update h.cells p _ q).strong = _ ∧ (h.next ≤ q → (Function.update h.cells p _ q).strong = 0)
  rw [Function.update_apply,List.count_cons]
  split_ifs with heq hbeq hbeq
  · subst heq
    exact ⟨by rw [(hc q).1],fun hle => absurd (hc.lt hp) (by omega)⟩
  · exact absurd (beq_iff_eq.mpr heq.symm) hbeq
  · exact absurd (beq_iff_eq.mp hbeq).symm heq
  · exact hc q

theorem release_counted {p : ℕ} (hc : h.Counted (p :: ps)) : (h.release p).Counted ps := by
  intro q
  show (Function.update h.cells p _ q).strong = _ ∧ (h.next ≤ q → (Function.update h.cells p _ q).strong = 0)
  obtain ⟨hcount,hfree⟩ := hc q
  rw [List.count_cons] at hcount
  rw [Function.update_apply]
  by_cases heq : q = p
  · subst heq
    rw [if_pos BEq.rfl] at hcount
    rw [if_pos rfl]
    refine ⟨?_,fun hle => ?_⟩
    · show (h.cells q).strong-1 = _
      omega
    · show (h.cells q).strong-1 = 0
      rw [hfree hle]
  · rw [if_neg (fun hbeq => heq (beq_iff_eq.mp hbeq).symm)] at hcount
    rw [if_neg heq]
    exact ⟨hcount,hfree⟩

theorem update_spec {p : ℕ} (hc : h.Counted (p :: ps)) (f : α → α) :
    (h.update p f).1.Counted ((h.update p f).2 :: ps) ∧ (h.update p f).1.value (h.update p f).2 = f (h.value p) ∧
      ∀ q ∈ ps, (h.update p f).1.value q = h.value q := by
  unfold update
  split_ifs with hone
  · refine ⟨?_,?_,?_⟩
    · intro q
      show (Function.update h.cells p _ q).strong = _ ∧ (h.next ≤ q → (Function.update h.cells p _ q).strong = 0)
      rw [Function.update_apply]
      split_ifs with heq
      · subst heq
        exact ⟨hone.symm.trans (hc q).1,fun hle => absurd (hc.lt List.mem_cons_self) (by omega)⟩
      · exact hc q
    · show (Function.update h.cells p _ p).value = _
      rw [Function.update_self]
    · intro q hq
      show (Function.update h.cells p _ q).value = _
      rw [Function.update_of_ne]
      · rfl
      rintro rfl
      -- the one owner is the pointer written through
      have hcount := (hc q).1
      rw [hone,List.count_cons_self] at hcount
      exact absurd (List.count_pos_iff.mpr hq) (by omega)
  · have hreleased := release_counted hc
    refine ⟨alloc_counted hreleased _,alloc_self ..,?_⟩
    intro q hq
    exact (alloc_value hreleased _ hq).trans (release_value h p q)

/-- A copy of an owner's pointers. -/
def retainAll (h : Heap α) (ps : List ℕ) : Heap α := ps.foldl retain h

def releaseAll (h : Heap α) (ps : List ℕ) : Heap α := ps.foldl release h

theorem retainAll_value (ps : List ℕ) (q : ℕ) : ∀ h : Heap α, (h.retainAll ps).value q = h.value q := by
  induction ps with
  | nil => exact fun _ => rfl
  | cons p ps ih => exact fun h => (ih (h.retain p)).trans (retain_value h p q)

theorem releaseAll_value (ps : List ℕ) (q : ℕ) : ∀ h : Heap α, (h.releaseAll ps).value q = h.value q := by
  induction ps with
  | nil => exact fun _ => rfl
  | cons p ps ih => exact fun h => (ih (h.release p)).trans (release_value h p q)

theorem retainAll_counted {qs : List ℕ} : ∀ {h : Heap α} {ps : List ℕ}, h.Counted ps → qs ⊆ ps → (h.retainAll qs).Counted (qs ++ ps) := by
  induction qs with
  | nil => exact fun hc _ => hc
  | cons q qs ih =>
    intro h ps hc hsub
    have hnext := retain_counted hc (hsub List.mem_cons_self)
    refine (ih hnext ?_).perm List.perm_middle
    exact fun p hp => List.mem_cons_of_mem _ (hsub (List.mem_cons_of_mem _ hp))

theorem releaseAll_counted {qs : List ℕ} : ∀ {h : Heap α} {ps : List ℕ}, h.Counted (qs ++ ps) → (h.releaseAll qs).Counted ps := by
  induction qs with
  | nil => exact fun hc => hc
  | cons q qs ih => exact fun hc => ih (release_counted hc)

end Heap

end Lib
