import Mathlib

/-! Grouping by the first equal representative, for an equality that need not be one: it is symmetric, and what is equal
to anything is equal to itself. Where it is also transitive, groups do not depend on the order. -/
namespace Lib

variable {α β : Type*} (eq : α → α → Bool) (key : β → α)

/-- A row is put in the first group whose key equals its own, or in a new one. -/
def file (b : β) : List (α × List β) → List (α × List β)
  | [] => [(key b,[b])]
  | g :: gs => if eq g.1 (key b) then (g.1,g.2 ++ [b]) :: gs else g :: file b gs

def group (rows : List β) : List (α × List β) := rows.foldl (fun gs b => file eq key b gs) []

/-- What is not equal to anything before it. -/
def distinct (l : List α) : List α := l.foldl (fun seen a => if seen.any (fun s => eq s a) then seen else seen ++ [a]) []

/-- Equal, or one and the same. -/
def Same (a b : α) : Prop := a = b ∨ eq a b = true

structure Equality : Prop where
  symm : ∀ {a b}, eq a b = true → eq b a = true
  refl : ∀ {a b}, eq a b = true → eq a a = true

/-- Equality is transitive among some. -/
def TransitiveOn (s : List α) : Prop := ∀ a ∈ s, ∀ b ∈ s, ∀ c ∈ s, eq a b = true → eq b c = true → eq a c = true

/-- Rows are in one group exactly when their keys are equal, and each group has the key of one of its rows. -/
structure Grouped (gs : List (α × List β)) : Prop where
  named : ∀ g ∈ gs, ∃ b ∈ g.2, key b = g.1
  alike : ∀ g ∈ gs, g.2.Pairwise (fun a b => eq (key a) (key b) = true)
  apart : gs.Pairwise (fun g h => ∀ a ∈ g.2, ∀ b ∈ h.2, eq (key a) (key b) = false)

variable {eq key} {s : List α} {b c : β} {rows rows' : List β} {gs gs' : List (α × List β)} {g h : α × List β}

theorem Grouped.equal (he : Equality eq) (h : Grouped eq key gs) (hg : g ∈ gs) (hb : b ∈ g.2) (hc : c ∈ g.2) :
    b = c ∨ eq (key b) (key c) = true := by
  have hsymm : Std.Symm (fun a b => eq (key a) (key b) = true) := ⟨fun _ _ => he.symm⟩
  by_cases hbc : b = c
  · exact .inl hbc
  · exact .inr ((h.alike g hg).forall hb hc hbc)

theorem Grouped.unequal (he : Equality eq) (h : Grouped eq key (g::gs)) {k : α × List β} (hk : k ∈ gs) (hb : b ∈ g.2) (hc : c ∈ k.2) :
    eq (key b) (key c) = false ∧ eq (key c) (key b) = false := by
  have hone := (List.pairwise_cons.mp h.apart).1 k hk b hb c hc
  refine ⟨hone,?_⟩
  by_contra hother
  rw [he.symm (by simpa using hother)] at hone
  cases hone

theorem Grouped.tail (h : Grouped eq key (g::gs)) : Grouped eq key gs where
  named k hk := h.named k (List.mem_cons_of_mem _ hk)
  alike k hk := h.alike k (List.mem_cons_of_mem _ hk)
  apart := h.apart.tail

/-! ## What grouping gives -/

theorem file_perm (eq : α → α → Bool) (key : β → α) (b : β) (gs : List (α × List β)) :
    ((file eq key b gs).flatMap Prod.snd).Perm (b :: gs.flatMap Prod.snd) := by
  induction gs with
  | nil => exact .refl _
  | cons g gs ih =>
    rw [file]
    split_ifs
    · rw [List.flatMap_cons,List.flatMap_cons,List.append_assoc]
      exact List.perm_middle
    · rw [List.flatMap_cons,List.flatMap_cons]
      exact (ih.append_left g.2).trans List.perm_middle

theorem group_snoc (rows : List β) (b : β) : group eq key (rows ++ [b]) = file eq key b (group eq key rows) := by
  rw [group,List.foldl_append]
  rfl

theorem group_perm (rows : List β) : ((group eq key rows).flatMap Prod.snd).Perm rows := by
  induction rows using List.reverseRecOn with
  | nil => exact .refl _
  | append_singleton rows b ih =>
    rw [group_snoc]
    exact (file_perm eq key b _).trans ((ih.cons b).trans (List.perm_append_singleton b rows).symm)

theorem Grouped.meets (he : Equality eq) (ht : TransitiveOn eq s) (h : Grouped eq key gs) (hg : g ∈ gs)
    (hs : ∀ a ∈ gs.flatMap Prod.snd, key a ∈ s) (hbs : key b ∈ s) (hc : c ∈ g.2) : eq (key c) (key b) = eq g.1 (key b) := by
  obtain ⟨d,hd,hname⟩ := h.named g hg
  have hin : ∀ a ∈ g.2, key a ∈ s := fun a ha => hs a (List.mem_flatMap.mpr ⟨g,hg,ha⟩)
  obtain heq | heq := h.equal he hg hc hd
  · rw [heq,hname]
  · rw [← hname,Bool.eq_iff_iff]
    exact ⟨ht _ (hin d hd) _ (hin c hc) _ hbs (he.symm heq),ht _ (hin c hc) _ (hin d hd) _ hbs heq⟩

theorem Grouped.file (he : Equality eq) (ht : TransitiveOn eq s) (h : Grouped eq key gs)
    (hs : ∀ a ∈ gs.flatMap Prod.snd, key a ∈ s) (hbs : key b ∈ s) : Grouped eq key (file eq key b gs) := by
  induction gs with
  | nil =>
    refine ⟨fun g hg => ?_,fun g hg => ?_,List.pairwise_singleton ..⟩
    · rw [List.mem_singleton.mp hg]
      exact ⟨b,List.mem_singleton.mpr rfl,rfl⟩
    · rw [List.mem_singleton.mp hg]
      exact List.pairwise_singleton ..
  | cons g gs ih =>
    have hrest : ∀ a ∈ gs.flatMap Prod.snd, key a ∈ s := fun a ha => hs a (List.mem_append_right _ ha)
    have hfirst : ∀ a ∈ g.2, key a ∈ s := fun a ha => hs a (List.mem_append_left _ ha)
    rw [Lib.file]
    split_ifs with hmeets
    · -- the row joins the group, so that it is apart from the groups that the group is apart from
      have hequal : ∀ c ∈ g.2, eq (key c) (key b) = true := fun c hc => (h.meets he ht List.mem_cons_self hs hbs hc).trans hmeets
      refine ⟨fun k hk => ?_,fun k hk => ?_,List.pairwise_cons.mpr ⟨fun k hk c hc d hd => ?_,h.tail.apart⟩⟩
      · obtain rfl | hk := List.mem_cons.mp hk
        · obtain ⟨d,hd,hname⟩ := h.named g List.mem_cons_self
          exact ⟨d,List.mem_append_left _ hd,hname⟩
        · exact h.tail.named k hk
      · obtain rfl | hk := List.mem_cons.mp hk
        · refine List.pairwise_append.mpr ⟨h.alike g List.mem_cons_self,List.pairwise_singleton ..,fun c hc d hd => ?_⟩
          rw [List.mem_singleton.mp hd]
          exact hequal c hc
        · exact h.tail.alike k hk
      · obtain hc | hc := List.mem_append.mp hc
        · exact (h.unequal he hk hc hd).1
        · rw [List.mem_singleton.mp hc]
          by_contra hother
          obtain ⟨e,hemem,-⟩ := h.named g List.mem_cons_self
          have hed := ht _ (hfirst e hemem) _ hbs _ (hrest d (List.mem_flatMap.mpr ⟨k,hk,hd⟩)) (hequal e hemem) (by simpa using hother)
          rw [(h.unequal he hk hemem hd).1] at hed
          cases hed
    · have hgroup := ih h.tail hrest
      refine ⟨List.forall_mem_cons.mpr ⟨h.named g List.mem_cons_self,hgroup.named⟩,
        List.forall_mem_cons.mpr ⟨h.alike g List.mem_cons_self,hgroup.alike⟩,List.pairwise_cons.mpr ⟨fun k hk c hc d hd => ?_,hgroup.apart⟩⟩
      have hd := (file_perm eq key b gs).mem_iff.mp (List.mem_flatMap.mpr ⟨k,hk,hd⟩)
      obtain rfl | hd := List.mem_cons.mp hd
      · rw [h.meets he ht List.mem_cons_self hs hbs hc]
        simpa using hmeets
      · obtain ⟨k',hk',hd⟩ := List.mem_flatMap.mp hd
        exact (h.unequal he hk' hc hd).1

theorem group_grouped (he : Equality eq) (ht : TransitiveOn eq s) (hs : ∀ a ∈ rows, key a ∈ s) : Grouped eq key (group eq key rows) := by
  induction rows using List.reverseRecOn with
  | nil => exact ⟨nofun,nofun,.nil⟩
  | append_singleton rows b ih =>
    rw [List.forall_mem_append] at hs
    rw [group_snoc]
    refine (ih hs.1).file he ht (fun a ha => hs.1 a ((group_perm rows).mem_iff.mp ha)) (hs.2 b (List.mem_singleton.mpr rfl))

/-! ## Groups are determined by the rows -/

/-- The same rows in two groups, in any order, and keys that are equal. -/
def Match (eq : α → α → Bool) (g h : α × List β) : Prop := g.2.Perm h.2 ∧ Same eq g.1 h.1

theorem Grouped.alone (he : Equality eq) (h : Grouped eq key gs) (hg : g ∈ gs) (hb : b ∈ g.2) (hself : eq (key b) (key b) = false) : g.2 = [b] := by
  have hpairs := h.alike g hg
  have hno : ∀ {c}, eq (key b) (key c) = true → False := by
    intro c hc
    rw [he.refl hc] at hself
    cases hself
  cases hrows : g.2 with
  | nil =>
    rw [hrows] at hb
    cases hb
  | cons c rest =>
    rw [hrows] at hb hpairs
    obtain ⟨hfirst,hrest⟩ := List.pairwise_cons.mp hpairs
    obtain rfl | hb := List.mem_cons.mp hb
    · cases rest with
      | nil => rfl
      | cons d rest => exact (hno (hfirst d List.mem_cons_self)).elim
    · exact (hno (he.symm (hfirst b hb))).elim

theorem Grouped.perm_of_mem (he : Equality eq) (hgs : Grouped eq key (g::gs)) (hgs' : Grouped eq key (h::gs'))
    (hrows : ((g::gs).flatMap Prod.snd).Perm ((h::gs').flatMap Prod.snd)) (hb : b ∈ g.2) (hb' : b ∈ h.2) : g.2.Perm h.2 := by
  cases hself : eq (key b) (key b) with
  | false => rw [hgs.alone he List.mem_cons_self hb hself,hgs'.alone he List.mem_cons_self hb' hself]
  | true =>
    have hfilter : ∀ {g : α × List β} {gs : List (α × List β)}, Grouped eq key (g::gs) → b ∈ g.2 →
        ((g::gs).flatMap Prod.snd).filter (fun c => eq (key b) (key c)) = g.2 := by
      intro g gs hgs hb
      rw [List.flatMap_cons,List.filter_append]
      have hall : g.2.filter (fun c => eq (key b) (key c)) = g.2 := by
        refine List.filter_eq_self.mpr (fun c hc => ?_)
        obtain rfl | heq := hgs.equal he List.mem_cons_self hb hc
        · exact hself
        · exact heq
      have hnone : (gs.flatMap Prod.snd).filter (fun c => eq (key b) (key c)) = [] := by
        refine List.filter_eq_nil_iff.mpr (fun c hc => ?_)
        obtain ⟨k,hk,hc⟩ := List.mem_flatMap.mp hc
        rw [(hgs.unequal he hk hb hc).1]
        exact Bool.false_ne_true
      rw [hall,hnone,List.append_nil]
    have hperm := hrows.filter (fun c => eq (key b) (key c))
    rwa [hfilter hgs hb,hfilter hgs' hb'] at hperm

theorem Grouped.perm (hgs : Grouped eq key gs) (he : Equality eq) (hperm : gs'.Perm gs) : Grouped eq key gs' where
  named g hg := hgs.named g (hperm.mem_iff.mp hg)
  alike g hg := hgs.alike g (hperm.mem_iff.mp hg)
  apart := by
    refine (hperm.symm.pairwise_iff ?_).mp hgs.apart
    intro g h hgh b hb c hc
    by_contra hother
    have hone := hgh c hc b hb
    rw [he.symm (by simpa using hother)] at hone
    cases hone

theorem Grouped.unique (he : Equality eq) (hgs : Grouped eq key gs) (hgs' : Grouped eq key gs')
    (hrows : (gs.flatMap Prod.snd).Perm (gs'.flatMap Prod.snd)) : ∃ gs'', gs''.Perm gs' ∧ List.Forall₂ (Match eq) gs gs'' := by
  induction gs generalizing gs' with
  | nil =>
    cases gs' with
    | nil => exact ⟨[],.refl _,.nil⟩
    | cons h gs' =>
      obtain ⟨b,hb,-⟩ := hgs'.named h List.mem_cons_self
      have hmem := hrows.mem_iff.mpr (List.mem_flatMap.mpr ⟨h,List.mem_cons_self,hb⟩)
      cases hmem
  | cons g gs ih =>
    obtain ⟨b,hb,hname⟩ := hgs.named g List.mem_cons_self
    obtain ⟨h,hh,hb'⟩ := List.mem_flatMap.mp (hrows.mem_iff.mp (List.mem_flatMap.mpr ⟨g,List.mem_cons_self,hb⟩))
    obtain ⟨before,after,rfl⟩ := List.append_of_mem hh
    have hfront : (h :: (before ++ after)).Perm (before ++ h :: after) := List.perm_middle.symm
    have hgs'' := hgs'.perm he hfront
    have hrows' : ((g::gs).flatMap Prod.snd).Perm ((h :: (before ++ after)).flatMap Prod.snd) := hrows.trans (hfront.symm.flatMap_right _)
    have hsame := hgs.perm_of_mem he hgs'' hrows' hb hb'
    have hrest : (gs.flatMap Prod.snd).Perm ((before ++ after).flatMap Prod.snd) := by
      rw [List.flatMap_cons,List.flatMap_cons] at hrows'
      exact (List.perm_append_left_iff g.2).mp (hrows'.trans (hsame.symm.append_right _))
    obtain ⟨gs'',hperm,hall⟩ := ih hgs.tail hgs''.tail hrest
    refine ⟨h::gs'',(hperm.cons h).trans hfront,.cons ⟨hsame,?_⟩ hall⟩
    obtain ⟨c,hc,hname'⟩ := hgs''.named h List.mem_cons_self
    rw [← hname,← hname']
    exact (hgs''.equal he List.mem_cons_self hb' hc).imp (congrArg key) id

/-! ## What is distinct -/

theorem distinct_snoc (l : List α) (a : α) :
    distinct eq (l ++ [a]) = if (distinct eq l).any (fun s => eq s a) then distinct eq l else distinct eq l ++ [a] := by
  rw [distinct,List.foldl_append]
  rfl

theorem file_keys (b : β) (gs : List (α × List β)) :
    (file eq key b gs).map Prod.fst = if (gs.map Prod.fst).any (fun s => eq s (key b)) then gs.map Prod.fst else gs.map Prod.fst ++ [key b] := by
  induction gs with
  | nil => rfl
  | cons g gs ih =>
    rw [file,List.map_cons,List.any_cons]
    cases hmeets : eq g.1 (key b) with
    | true => rw [if_pos rfl,Bool.true_or,if_pos rfl,List.map_cons]
    | false =>
      rw [if_neg Bool.false_ne_true,Bool.false_or,List.map_cons,ih]
      split_ifs <;> rfl

theorem group_keys (rows : List β) : (group eq key rows).map Prod.fst = distinct eq (rows.map key) := by
  induction rows using List.reverseRecOn with
  | nil => rfl
  | append_singleton rows b ih =>
    rw [group_snoc,file_keys,ih,List.map_append,List.map_singleton,distinct_snoc]

theorem distinct_unequal (l : List α) : (distinct eq l).Pairwise (fun a b => eq a b = false) := by
  induction l using List.reverseRecOn with
  | nil => exact .nil
  | append_singleton l a ih =>
    rw [distinct_snoc]
    split_ifs with hany
    · exact ih
    · refine List.pairwise_append.mpr ⟨ih,List.pairwise_singleton ..,fun b hb c hc => ?_⟩
      rw [List.mem_singleton.mp hc]
      by_contra hother
      exact hany (List.any_eq_true.mpr ⟨b,hb,by simpa using hother⟩)

/-! ## Order -/

/-- The groups are right, and do not depend on the order of the rows. -/
structure OrderFree (eq : α → α → Bool) (key : β → α) (rows : List β) : Prop where
  grouped : ∀ rows' : List β, rows'.Perm rows → Grouped eq key (group eq key rows')
  same : ∀ rows' : List β, rows'.Perm rows → ∃ gs, gs.Perm (group eq key rows') ∧ List.Forall₂ (Match eq) (group eq key rows) gs
  kept : ∀ rows' : List β, rows'.Perm rows → ∃ l : List α, l.Perm (distinct eq (rows'.map key)) ∧ List.Forall₂ (Same eq) (distinct eq (rows.map key)) l

/-- Grouping does not depend on the order exactly when equality is transitive among the keys. -/
theorem orderFree_iff (he : Equality eq) (rows : List β) : OrderFree eq key rows ↔ TransitiveOn eq (rows.map key) := by
  constructor
  · intro h a ha b hb c hc hab hbc
    -- with `b` first, both others go to its group
    by_contra hac
    obtain ⟨x,hx,rfl⟩ := List.mem_map.mp ha
    obtain ⟨y,hy,rfl⟩ := List.mem_map.mp hb
    obtain ⟨z,hz,rfl⟩ := List.mem_map.mp hc
    have hxy : y ≠ x := by
      rintro rfl
      exact hac hbc
    have hyz : z ≠ y := by
      rintro rfl
      exact hac hab
    have hxz : z ≠ x := by
      rintro rfl
      exact hac (he.refl hab)
    classical
    obtain ⟨rest,hrest⟩ : ∃ rest, (y::x::z::rest).Perm rows := by
      have h₁ := List.perm_cons_erase hy
      have hx' : x ∈ rows.erase y := (List.mem_erase_of_ne hxy.symm).mpr hx
      have h₂ := List.perm_cons_erase hx'
      have hz' : z ∈ (rows.erase y).erase x := (List.mem_erase_of_ne hxz).mpr ((List.mem_erase_of_ne hyz).mpr hz)
      have h₃ := List.perm_cons_erase hz'
      exact ⟨_,((h₁.trans (h₂.cons y)).trans ((h₃.cons x).cons y)).symm⟩
    have hgrouped := h.grouped _ hrest
    have hkeep : ∀ (rest : List β) (g : α × List β) (gs : List (α × List β)), ∃ more gs',
        rest.foldl (fun gs b => file eq key b gs) (g::gs) = (g.1,g.2 ++ more) :: gs' := by
      intro rest
      induction rest with
      | nil => exact fun g gs => ⟨[],gs,by simp⟩
      | cons b rest ih =>
        intro g gs
        rw [List.foldl_cons,file]
        split_ifs
        · obtain ⟨more,gs',heq⟩ := ih (g.1,g.2 ++ [b]) gs
          exact ⟨b::more,gs',by rw [heq,List.append_assoc]; rfl⟩
        · exact ih g _
    obtain ⟨more,gs',hgroup⟩ := hkeep rest (key y,[y,x,z]) []
    have hstart : group eq key (y::x::z::rest) = (key y,[y,x,z] ++ more) :: gs' := by
      rw [← hgroup,group,List.foldl_cons,List.foldl_cons,List.foldl_cons]
      simp only [file,he.symm hab,hbc,if_true]
      rfl
    rw [hstart] at hgrouped
    have hpairs := hgrouped.alike _ List.mem_cons_self
    exact hac ((List.pairwise_cons.mp (List.pairwise_cons.mp hpairs).2).1 z List.mem_cons_self)
  · intro ht
    have hall : ∀ rows', rows'.Perm rows → Grouped eq key (group eq key rows') := fun rows' hperm =>
      group_grouped he ht (fun a ha => List.mem_map.mpr ⟨a,hperm.mem_iff.mp ha,rfl⟩)
    have hsame : ∀ rows', rows'.Perm rows → ∃ gs, gs.Perm (group eq key rows') ∧ List.Forall₂ (Match eq) (group eq key rows) gs := fun rows' hperm =>
      (hall rows (.refl _)).unique he (hall rows' hperm) ((group_perm rows).trans (hperm.symm.trans (group_perm rows').symm))
    refine ⟨hall,hsame,fun rows' hperm => ?_⟩
    obtain ⟨gs,hgs,hmatch⟩ := hsame rows' hperm
    rw [← group_keys,← group_keys]
    refine ⟨gs.map Prod.fst,hgs.map _,?_⟩
    rw [List.forall₂_map_left_iff,List.forall₂_map_right_iff]
    exact hmatch.imp (fun _ _ h => h.2)

end Lib
