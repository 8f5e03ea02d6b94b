import Mathlib

/-! Lists kept in strictly increasing order of a key. -/
namespace Lib

variable {α κ : Type*} [LinearOrder κ] (key : α → κ)

/-- Strictly increasing keys. -/
def KeySorted (l : List α) : Prop := l.Pairwise (fun a b => key a < key b)

/-- Insert before the first element whose key is not smaller. -/
def insertSorted (l : List α) (a : α) : List α :=
  l.takeWhile (fun b => key b < key a) ++ a :: l.dropWhile (fun b => key b < key a)

theorem insertSorted_perm (l : List α) (a : α) : (insertSorted key l a).Perm (a :: l) := by
  unfold insertSorted
  refine List.perm_middle.trans (List.Perm.cons a ?_)
  rw [List.takeWhile_append_dropWhile]

@[simp] theorem mem_insertSorted {l : List α} {a b : α} :
    b ∈ insertSorted key l a ↔ b = a ∨ b ∈ l := by
  rw [(insertSorted_perm key l a).mem_iff,List.mem_cons]

variable {key}

theorem KeySorted.nodup {l : List α} (h : KeySorted key l) : l.Nodup :=
  List.Pairwise.imp (fun hlt he => absurd (congrArg key he) hlt.ne) h

theorem KeySorted.filter {l : List α} (h : KeySorted key l) (p : α → Bool) :
    KeySorted key (l.filter p) := List.Pairwise.filter p h

theorem KeySorted.ext {l m : List α} (hl : KeySorted key l) (hm : KeySorted key m)
    (h : ∀ a, a ∈ l ↔ a ∈ m) : l = m := by
  have hp : l.Perm m := (List.perm_ext_iff_of_nodup hl.nodup hm.nodup).mpr h
  exact hp.eq_of_pairwise (fun a b _ _ hab hba => absurd (hab.trans hba) (lt_irrefl _)) hl hm

private theorem insertSorted_cons (b : α) (l : List α) (a : α) :
    insertSorted key (b :: l) a = if key b < key a then b :: insertSorted key l a else a :: b :: l := by
  by_cases h : key b < key a <;> simp [insertSorted,h]

theorem KeySorted.insertSorted {l : List α} (h : KeySorted key l) {a : α}
    (ha : ∀ b ∈ l, key b ≠ key a) : KeySorted key (insertSorted key l a) := by
  induction l with
  | nil => simp [Lib.insertSorted,KeySorted]
  | cons b l ih =>
    obtain ⟨hb,hl⟩ := List.pairwise_cons.mp h
    rw [insertSorted_cons]
    split_ifs with hlt
    · refine List.pairwise_cons.mpr ⟨?_,ih hl (fun c hc => ha c (List.mem_cons_of_mem _ hc))⟩
      intro c hc
      rcases (mem_insertSorted key).mp hc with rfl | hc
      · exact hlt
      · exact hb c hc
    · have hle : key a < key b := lt_of_le_of_ne (not_lt.mp hlt) (ha b (by simp)).symm
      refine List.pairwise_cons.mpr ⟨?_,h⟩
      intro c hc
      rcases List.mem_cons.mp hc with rfl | hc
      · exact hle
      · exact hle.trans (hb c hc)

theorem keySorted_insertionSort {l : List α} (h : l.Pairwise (fun a b => key a ≠ key b)) :
    KeySorted key (l.insertionSort (fun a b => key a ≤ key b)) := by
  have hs := List.pairwise_insertionSort (fun a b : α => key a ≤ key b) l
  have hn : (l.insertionSort (fun a b => key a ≤ key b)).Pairwise (fun a b => key a ≠ key b) :=
    ((List.perm_insertionSort _ l).pairwise_iff (fun hab => hab.symm)).mpr h
  exact (hs.and hn).imp (fun hab => lt_of_le_of_ne hab.1 hab.2)

/-- In a list sorted by a number, the elements with one number stand together: between the
first that reaches it and the first that exceeds it. -/
theorem run_eq_filter {f : α → ℕ} {l : List α} (h : l.Pairwise (fun a b => f a ≤ f b)) (k : ℕ) :
    (l.take (l.takeWhile (fun a => f a ≤ k)).length).drop (l.takeWhile (fun a => f a < k)).length =
      l.filter (fun a => f a = k) := by
  induction l with
  | nil => rfl
  | cons a l ih =>
    obtain ⟨ha,hl⟩ := List.pairwise_cons.mp h
    rcases lt_trichotomy (f a) k with hlt | heq | hgt
    · have hle : f a ≤ k := by omega
      have hne : f a ≠ k := by omega
      simp [hlt,hle,hne,ih hl]
    · have hstart : l.takeWhile (fun b => f b < k) = [] := by
        cases l with
        | nil => rfl
        | cons b l =>
          have hb := ha b (List.mem_cons_self ..)
          have hnb : ¬f b < k := by omega
          simp [hnb]
      have hih := ih hl
      rw [hstart,List.length_nil,List.drop_zero] at hih
      simp [heq,hih]
    · have hnle : ¬f a ≤ k := by omega
      have hnone : (a :: l).filter (fun b => f b = k) = [] := by
        rw [List.filter_eq_nil_iff]
        intro b hb
        rcases List.mem_cons.mp hb with rfl | hb
        · simp only [decide_eq_true_eq]
          omega
        · have hab := ha b hb
          simp only [decide_eq_true_eq]
          omega
      rw [hnone]
      simp [hnle]

end Lib
