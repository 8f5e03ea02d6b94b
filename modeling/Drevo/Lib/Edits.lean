import Mathlib

/-! Edits of a list: insertions, deletions and replacements of single elements. The least number that
turns one list into another is the cost of the best alignment, which a recursion over both computes. -/
namespace Lib

variable {α : Type*}

/-- One element inserted, deleted or replaced. -/
inductive Edit : List α → List α → Prop
  | insert (l m : List α) (c : α) : Edit (l ++ m) (l ++ c :: m)
  | delete (l m : List α) (c : α) : Edit (l ++ c :: m) (l ++ m)
  | substitute (l m : List α) (c d : α) : Edit (l ++ c :: m) (l ++ d :: m)

/-- So many edits, one after another. -/
inductive Edits : ℕ → List α → List α → Prop
  | none (l : List α) : Edits 0 l l
  | more {n : ℕ} {l m k : List α} : Edits n l m → Edit m k → Edits (n+1) l k

/-- The lists side by side, with the number of places where they differ. -/
inductive Aligned : ℕ → List α → List α → Prop
  | nil : Aligned 0 [] []
  | keep {n : ℕ} {l m : List α} (c : α) : Aligned n l m → Aligned n (c :: l) (c :: m)
  | substitute {n : ℕ} {l m : List α} (c d : α) : Aligned n l m → Aligned (n+1) (c :: l) (d :: m)
  | insert {n : ℕ} {l m : List α} (d : α) : Aligned n l m → Aligned (n+1) l (d :: m)
  | delete {n : ℕ} {l m : List α} (c : α) : Aligned n l m → Aligned (n+1) (c :: l) m

/-! ## From edits to alignments and back -/

theorem Edit.cons {l m : List α} (h : Edit l m) (c : α) : Edit (c :: l) (c :: m) := by
  cases h with
  | insert l m d => exact .insert (c :: l) m d
  | delete l m d => exact .delete (c :: l) m d
  | substitute l m d e => exact .substitute (c :: l) m d e

theorem Edits.cons {n : ℕ} {l m : List α} (h : Edits n l m) (c : α) : Edits n (c :: l) (c :: m) := by
  induction h with
  | none l => exact .none (c :: l)
  | more _ he ih => exact ih.more (he.cons c)

theorem Aligned.edits {n : ℕ} {l m : List α} (h : Aligned n l m) : Edits n l m := by
  induction h with
  | nil => exact .none []
  | keep c _ ih => exact ih.cons c
  | @substitute n l m c d _ ih => exact (ih.cons c).more (.substitute [] m c d)
  | @insert n l m d _ ih => exact ih.more (.insert [] m d)
  | @delete n l m c _ ih => exact (ih.cons c).more (.delete [] m c)

theorem Aligned.refl (l : List α) : Aligned 0 l l := by
  induction l with
  | nil => exact .nil
  | cons c l ih => exact ih.keep c

theorem Aligned.append {n k : ℕ} {a b l m : List α} (h : Aligned n a b) (h' : Aligned k l m) :
    Aligned (n+k) (a ++ l) (b ++ m) := by
  induction h with
  | nil => rwa [Nat.zero_add]
  | keep c _ ih => exact ih.keep c
  | substitute c d _ ih =>
    rw [Nat.add_right_comm]
    exact ih.substitute c d
  | insert d _ ih =>
    rw [Nat.add_right_comm]
    exact ih.insert d
  | delete c _ ih =>
    rw [Nat.add_right_comm]
    exact ih.delete c

/-- Where the second list is cut, the first can be cut too. -/
theorem Aligned.split {n : ℕ} {l t : List α} (h : Aligned n l t) : ∀ p s : List α, t = p ++ s →
    ∃ l₁ l₂ n₁ n₂, l = l₁ ++ l₂ ∧ n = n₁+n₂ ∧ Aligned n₁ l₁ p ∧ Aligned n₂ l₂ s := by
  induction h with
  | nil =>
    intro p s ht
    obtain ⟨rfl,rfl⟩ := List.append_eq_nil_iff.mp ht.symm
    exact ⟨[],[],0,0,rfl,rfl,.nil,.nil⟩
  | @keep n l m c h ih =>
    intro p s ht
    cases p with
    | nil =>
      obtain rfl : c :: m = s := ht
      exact ⟨[],c :: l,0,n,rfl,(Nat.zero_add n).symm,.nil,h.keep c⟩
    | cons d p =>
      obtain ⟨rfl,htail⟩ := List.cons.inj (show c :: m = d :: (p ++ s) from ht)
      obtain ⟨l₁,l₂,n₁,n₂,rfl,rfl,h₁,h₂⟩ := ih p s htail
      exact ⟨c :: l₁,l₂,n₁,n₂,rfl,rfl,h₁.keep c,h₂⟩
  | @substitute n l m c e h ih =>
    intro p s ht
    cases p with
    | nil =>
      obtain rfl : e :: m = s := ht
      exact ⟨[],c :: l,0,n+1,rfl,(Nat.zero_add _).symm,.nil,h.substitute c e⟩
    | cons d p =>
      obtain ⟨rfl,htail⟩ := List.cons.inj (show e :: m = d :: (p ++ s) from ht)
      obtain ⟨l₁,l₂,n₁,n₂,rfl,rfl,h₁,h₂⟩ := ih p s htail
      exact ⟨c :: l₁,l₂,n₁+1,n₂,rfl,by omega,h₁.substitute c e,h₂⟩
  | @insert n l m e h ih =>
    intro p s ht
    cases p with
    | nil =>
      obtain rfl : e :: m = s := ht
      exact ⟨[],l,0,n+1,rfl,(Nat.zero_add _).symm,.nil,h.insert e⟩
    | cons d p =>
      obtain ⟨rfl,htail⟩ := List.cons.inj (show e :: m = d :: (p ++ s) from ht)
      obtain ⟨l₁,l₂,n₁,n₂,rfl,rfl,h₁,h₂⟩ := ih p s htail
      exact ⟨l₁,l₂,n₁+1,n₂,rfl,by omega,h₁.insert e,h₂⟩
  | @delete n l m c h ih =>
    intro p s ht
    obtain ⟨l₁,l₂,n₁,n₂,rfl,rfl,h₁,h₂⟩ := ih p s ht
    exact ⟨c :: l₁,l₂,n₁+1,n₂,rfl,by omega,h₁.delete c,h₂⟩

theorem Aligned.length {n : ℕ} {l m : List α} (h : Aligned n l m) : l.length ≤ m.length+n ∧ m.length ≤ l.length+n := by
  induction h with
  | nil => exact ⟨le_rfl,le_rfl⟩
  | keep c _ ih => simp only [List.length_cons]; omega
  | substitute c d _ ih => simp only [List.length_cons]; omega
  | insert d _ ih => simp only [List.length_cons]; omega
  | delete c _ ih => simp only [List.length_cons]; omega

theorem Aligned.symm {n : ℕ} {l m : List α} (h : Aligned n l m) : Aligned n m l := by
  induction h with
  | nil => exact .nil
  | keep c _ ih => exact ih.keep c
  | substitute c d _ ih => exact ih.substitute d c
  | insert d _ ih => exact ih.delete d
  | delete c _ ih => exact ih.insert c

theorem Aligned.drop (l : List α) : Aligned l.length l [] := by
  induction l with
  | nil => exact .nil
  | cons c l ih => exact ih.delete c

theorem Aligned.fill (l : List α) : Aligned l.length [] l := by
  induction l with
  | nil => exact .nil
  | cons c l ih => exact ih.insert c

theorem Aligned.change {n : ℕ} {l : List α} {c : α} (h : Aligned n l [c]) (d : α) : ∃ k ≤ n+1, Aligned k l [d] := by
  have hlen := h.length.1
  rw [List.length_singleton] at hlen
  cases l with
  | nil => exact ⟨1,by omega,(Aligned.nil).insert d⟩
  | cons e l =>
    rw [List.length_cons] at hlen
    exact ⟨l.length+1,by omega,(Aligned.drop l).substitute e d⟩

theorem Aligned.edit {n : ℕ} {l m k : List α} (h : Aligned n l m) (he : Edit m k) : ∃ n' ≤ n+1, Aligned n' l k := by
  cases he with
  | insert p s c =>
    obtain ⟨l₁,l₂,n₁,n₂,rfl,rfl,h₁,h₂⟩ := h.split p s rfl
    exact ⟨n₁+(n₂+1),by omega,h₁.append (h₂.insert c)⟩
  | delete p s c =>
    obtain ⟨l₁,l₂,n₁,n₂,rfl,rfl,h₁,h₂⟩ := h.split p (c :: s) rfl
    obtain ⟨l₃,l₄,n₃,n₄,rfl,rfl,h₃,h₄⟩ := h₂.split [c] s rfl
    have hlen := h₃.length.1
    rw [List.length_singleton] at hlen
    exact ⟨n₁+(l₃.length+n₄),by omega,h₁.append ((Aligned.drop l₃).append h₄)⟩
  | substitute p s c d =>
    obtain ⟨l₁,l₂,n₁,n₂,rfl,rfl,h₁,h₂⟩ := h.split p (c :: s) rfl
    obtain ⟨l₃,l₄,n₃,n₄,rfl,rfl,h₃,h₄⟩ := h₂.split [c] s rfl
    obtain ⟨k,hk,h₃'⟩ := h₃.change d
    exact ⟨n₁+(k+n₄),by omega,h₁.append (h₃'.append h₄)⟩

theorem Edits.aligned {n : ℕ} {l m : List α} (h : Edits n l m) : ∃ k ≤ n, Aligned k l m := by
  induction h with
  | none l => exact ⟨0,le_rfl,.refl l⟩
  | more _ he ih =>
    obtain ⟨k,hk,ha⟩ := ih
    obtain ⟨k',hk',ha'⟩ := ha.edit he
    exact ⟨k',by omega,ha'⟩

theorem Aligned.reverse {n : ℕ} {l m : List α} (h : Aligned n l m) : Aligned n l.reverse m.reverse := by
  induction h with
  | nil => exact .nil
  | keep c _ ih =>
    rw [List.reverse_cons,List.reverse_cons]
    exact ih.append (.refl [c])
  | substitute c d _ ih =>
    rw [List.reverse_cons,List.reverse_cons]
    exact ih.append ((Aligned.nil).substitute c d)
  | @insert n l m d _ ih =>
    rw [List.reverse_cons,← List.append_nil l.reverse]
    exact ih.append ((Aligned.nil).insert d)
  | @delete n l m c _ ih =>
    rw [List.reverse_cons,← List.append_nil m.reverse]
    exact ih.append ((Aligned.nil).delete c)

/-! ## The best alignment -/

section Lev
variable [DecidableEq α]

def lev : List α → List α → ℕ
  | [],m => m.length
  | c :: l,[] => (c :: l).length
  | c :: l,d :: m => min (min (lev l m+if c = d then 0 else 1) (lev l (d :: m)+1)) (lev (c :: l) m+1)
termination_by l m => l.length+m.length

theorem lev_nil (m : List α) : lev [] m = m.length := by rw [lev]

theorem lev_nil_right (l : List α) : lev l [] = l.length := by
  cases l with
  | nil => rw [lev]
  | cons c l => rw [lev]

theorem lev_cons_cons (c d : α) (l m : List α) : lev (c :: l) (d :: m) =
    min (min (lev l m+if c = d then 0 else 1) (lev l (d :: m)+1)) (lev (c :: l) m+1) := by rw [lev]

theorem lev_aligned (l m : List α) : Aligned (lev l m) l m := by
  fun_induction lev l m with
  | case1 m => exact .fill m
  | case2 c l => exact .drop (c :: l)
  | case3 c l d m ih₁ ih₂ ih₃ =>
    obtain hmin | hmin := min_choice (min (lev l m+if c = d then 0 else 1) (lev l (d :: m)+1)) (lev (c :: l) m+1)
    · rw [hmin]
      obtain hmin | hmin := min_choice (lev l m+if c = d then 0 else 1) (lev l (d :: m)+1)
      · rw [hmin]
        split_ifs with heq
        · subst heq
          exact ih₁.keep c
        · exact ih₁.substitute c d
      · rw [hmin]
        exact ih₂.delete c
    · rw [hmin]
      exact ih₃.insert d

theorem lev_le {n : ℕ} {l m : List α} (h : Aligned n l m) : lev l m ≤ n := by
  induction h with
  | nil => rw [lev_nil]; rfl
  | @keep n l m c _ ih =>
    rw [lev_cons_cons,if_pos rfl]
    omega
  | @substitute n l m c d _ ih =>
    rw [lev_cons_cons]
    have hcost : (if c = d then 0 else 1) ≤ 1 := by split_ifs <;> omega
    omega
  | @insert n l m d _ ih =>
    cases l with
    | nil =>
      rw [lev_nil] at ih ⊢
      simp only [List.length_cons]
      omega
    | cons c l =>
      rw [lev_cons_cons]
      omega
  | @delete n l m c _ ih =>
    cases m with
    | nil =>
      rw [lev_nil_right] at ih ⊢
      simp only [List.length_cons]
      omega
    | cons d m =>
      rw [lev_cons_cons]
      omega

theorem lev_isLeast (l m : List α) : IsLeast {n | Edits n l m} (lev l m) := by
  refine ⟨(lev_aligned l m).edits,?_⟩
  intro n hn
  obtain ⟨k,hk,ha⟩ := Edits.aligned hn
  exact (lev_le ha).trans hk

theorem lev_reverse (l m : List α) : lev l.reverse m.reverse = lev l m := by
  refine le_antisymm (lev_le (lev_aligned l m).reverse) ?_
  have hback := (lev_aligned l.reverse m.reverse).reverse
  rw [List.reverse_reverse,List.reverse_reverse] at hback
  exact lev_le hback

theorem lev_suffix (p l m : List α) : ∃ s, s <:+ m ∧ lev l s ≤ lev (p ++ l) m := by
  obtain ⟨m₁,m₂,n₁,n₂,rfl,hn,-,h₂⟩ := (lev_aligned (p ++ l) m).symm.split p l rfl
  exact ⟨m₂,List.suffix_append m₁ m₂,(lev_le h₂.symm).trans (by omega)⟩

theorem lev_length (l m : List α) : l.length ≤ m.length+lev l m ∧ m.length ≤ l.length+lev l m := (lev_aligned l m).length

end Lev

end Lib
