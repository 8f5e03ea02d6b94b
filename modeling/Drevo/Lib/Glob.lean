import Mathlib

/-! Globs over any alphabet: what a pattern with a wildcard for one letter and one for a run of letters covers. -/
namespace Lib

variable {α : Type*} {star any : α} {g w n t : List α} {c x : α}

/-- The pattern covers the word, letter by letter. -/
def GlobFits (star any : α) : List α → List α → Prop
  | [],n => n = []
  | c :: g,n => (c = star ∧ ∃ t, t <:+ n ∧ GlobFits star any g t) ∨ (c ≠ star ∧ ∃ x t, n = x :: t ∧ (c = any ∨ c = x) ∧ GlobFits star any g t)

theorem globFits_empty : GlobFits star any [] n ↔ n = [] := Iff.rfl

theorem globFits_cons : GlobFits star any (c :: g) n ↔
    (c = star ∧ ∃ t, t <:+ n ∧ GlobFits star any g t) ∨ (c ≠ star ∧ ∃ x t, n = x :: t ∧ (c = any ∨ c = x) ∧ GlobFits star any g t) :=
  Iff.rfl

/-- What one letter of a pattern covers. -/
def GlobCovers (star any c : α) (part : List α) : Prop :=
  (c = star) ∨ (c ≠ star ∧ c = any ∧ part.length = 1) ∨ (c ≠ star ∧ c ≠ any ∧ part = [c])

theorem globFits_star : GlobFits star any (star :: g) n ↔ ∃ t, t <:+ n ∧ GlobFits star any g t := by
  rw [globFits_cons]
  constructor
  · rintro (⟨-,h⟩ | ⟨h,-⟩)
    · exact h
    · exact absurd rfl h
  · exact fun h => .inl ⟨rfl,h⟩

theorem globFits_letter (hc : c ≠ star) : GlobFits star any (c :: g) (x :: n) ↔ (c = any ∨ c = x) ∧ GlobFits star any g n := by
  rw [globFits_cons]
  constructor
  · rintro (⟨h,-⟩ | ⟨-,y,t,heq,h⟩)
    · exact absurd h hc
    · obtain ⟨rfl,rfl⟩ := List.cons.inj heq
      exact h
  · exact fun h => .inr ⟨hc,x,n,rfl,h⟩

theorem not_globFits_letter (hc : c ≠ star) : ¬ GlobFits star any (c :: g) [] := by
  rw [globFits_cons]
  rintro (⟨h,-⟩ | ⟨-,y,t,heq,-⟩)
  · exact hc h
  · cases heq

theorem GlobFits.grow (h : GlobFits star any (star :: g) t) (ht : t <:+ n) : GlobFits star any (star :: g) n := by
  obtain ⟨u,hu,hfits⟩ := globFits_star.mp h
  exact globFits_star.mpr ⟨u,hu.trans ht,hfits⟩

theorem globFits_nil : GlobFits star any g [] ↔ ∀ c ∈ g, c = star := by
  induction g with
  | nil => simp [globFits_empty]
  | cons c g ih =>
    by_cases hc : c = star
    · subst hc
      rw [globFits_star,List.forall_mem_cons,← ih]
      constructor
      · rintro ⟨t,ht,h⟩
        rw [List.suffix_nil.mp ht] at h
        exact ⟨rfl,h⟩
      · exact fun h => ⟨[],List.suffix_rfl,h.2⟩
    · refine iff_of_false (not_globFits_letter hc) (fun h => hc (h c List.mem_cons_self))

theorem GlobFits.split (hw : star ∉ w) (h : GlobFits star any (w ++ g) n) : ∃ v t, n = v ++ t ∧ v.length = w.length ∧ GlobFits star any g t := by
  induction w generalizing n with
  | nil => exact ⟨[],n,rfl,rfl,h⟩
  | cons c w ih =>
    rw [List.mem_cons,not_or] at hw
    cases n with
    | nil => exact absurd h (not_globFits_letter (Ne.symm hw.1))
    | cons x n =>
      obtain ⟨v,t,rfl,hv,ht⟩ := ih hw.2 ((globFits_letter (Ne.symm hw.1)).mp h).2
      exact ⟨x :: v,t,rfl,by rw [List.length_cons,List.length_cons,hv],ht⟩

theorem GlobFits.length (hg : star ∉ g) (h : GlobFits star any g n) : n.length = g.length := by
  rw [← List.append_nil g] at h
  obtain ⟨v,t,rfl,hv,ht⟩ := h.split hg
  rw [globFits_empty] at ht
  rw [ht,List.append_nil,hv]

theorem globFits_anys (hany : any ≠ star) {k : ℕ} : GlobFits star any (List.replicate k any) n ↔ n.length = k := by
  induction k generalizing n with
  | zero => exact List.length_eq_zero_iff.symm
  | succ k ih =>
    rw [List.replicate_succ]
    cases n with
    | nil => exact iff_of_false (not_globFits_letter hany) (by simp)
    | cons x n =>
      rw [globFits_letter hany,ih,and_iff_right (.inl rfl),List.length_cons]
      omega

theorem GlobFits.anys (hany : any ≠ star) (v : List α) (h : GlobFits star any g n) : GlobFits star any (List.replicate v.length any ++ g) (v ++ n) := by
  induction v with
  | nil => exact h
  | cons x v ih => exact (globFits_letter hany).mpr ⟨.inl rfl,ih⟩

/-- The pattern covers the word exactly when the word is split into what its letters cover. -/
theorem globFits_iff : GlobFits star any g n ↔ ∃ parts : List (List α), parts.flatten = n ∧ List.Forall₂ (GlobCovers star any) g parts := by
  induction g generalizing n with
  | nil =>
    constructor
    · rintro rfl
      exact ⟨[],rfl,.nil⟩
    · rintro ⟨parts,rfl,h⟩
      cases h
      rfl
  | cons c g ih =>
    constructor
    · intro h
      by_cases hc : c = star
      · subst hc
        obtain ⟨t,⟨u,rfl⟩,ht⟩ := globFits_star.mp h
        obtain ⟨parts,rfl,hparts⟩ := ih.mp ht
        exact ⟨u :: parts,rfl,.cons (.inl rfl) hparts⟩
      cases n with
      | nil => exact absurd h (not_globFits_letter hc)
      | cons x n =>
        obtain ⟨hx,hn⟩ := (globFits_letter hc).mp h
        obtain ⟨parts,rfl,hparts⟩ := ih.mp hn
        refine ⟨[x] :: parts,rfl,.cons ?_ hparts⟩
        by_cases hany : c = any
        · exact .inr (.inl ⟨hc,hany,rfl⟩)
        · obtain rfl := hx.resolve_left hany
          exact .inr (.inr ⟨hc,hany,rfl⟩)
    · rintro ⟨parts,rfl,h⟩
      cases h with
      | cons hpart hparts =>
        rename_i part parts
        have hrest := ih.mpr ⟨parts,rfl,hparts⟩
        rw [List.flatten_cons]
        obtain rfl | ⟨hc,rfl,hlength⟩ | ⟨hc,-,rfl⟩ := hpart
        · exact globFits_star.mpr ⟨parts.flatten,List.suffix_append _ _,hrest⟩
        · obtain ⟨x,rfl⟩ := List.length_eq_one_iff.mp hlength
          exact (globFits_letter hc).mpr ⟨.inl rfl,hrest⟩
        · exact (globFits_letter hc).mpr ⟨.inr rfl,hrest⟩

end Lib
