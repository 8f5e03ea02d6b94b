import Drevo.Vector.Search

/-! The graph over every run of inserts: its links stay on their layer, its lists stay short and its entry stays highest. -/
namespace Drevo.Vector
namespace HnswIndex

variable {V D : Type*} {ix ix' ix'' : HnswIndex V D} {id layer l i j newId : ℕ} {links : List ℕ}

/-- The links of an element on a layer; there are none where it has no list. -/
def linksOf (ix : HnswIndex V D) (i layer : ℕ) : List ℕ := (ix.nodes[i]?.bind (fun n => n.neighbors[layer]?)).getD []

/-- The element has a list on the layer. -/
def On (ix : HnswIndex V D) (layer i : ℕ) : Prop := ∃ n, ix.nodes[i]? = some n ∧ layer < n.neighbors.length

theorem On.neighborsOf (h : ix.On layer i) : ix.neighborsOf i layer = .ok (ix.linksOf i layer) := by
  obtain ⟨n,hn,hlt⟩ := h
  rw [HnswIndex.neighborsOf,linksOf,hn,Option.bind_some,List.getElem?_eq_getElem hlt]
  rfl

theorem On.lower (h : ix.On layer i) (hle : l ≤ layer) : ix.On l i := by
  obtain ⟨n,hn,hlt⟩ := h
  exact ⟨n,hn,hle.trans_lt hlt⟩

theorem On.lt (h : ix.On layer i) : i < ix.nodes.length := by
  obtain ⟨n,hn,-⟩ := h
  exact (List.getElem?_eq_some_iff.mp hn).1

/-- Links lead to other elements of their layer, each once; and the index is entered at one of its elements. -/
structure Linked (ix : HnswIndex V D) : Prop where
  ground : ∀ i < ix.nodes.length, ix.On 0 i
  target : ∀ i layer, ∀ j ∈ ix.linksOf i layer, j ≠ i ∧ ix.On layer j
  nodup : ∀ i layer, (ix.linksOf i layer).Nodup
  entry : ∀ e, ix.entry = some e → e < ix.nodes.length

/-- Nothing but links differs. -/
structure Frame (ix ix' : HnswIndex V D) : Prop where
  on : ∀ l i, ix'.On l i ↔ ix.On l i
  length : ix'.nodes.length = ix.nodes.length
  entry : ix'.entry = ix.entry
  config : ix'.config = ix.config

theorem Frame.refl (ix : HnswIndex V D) : Frame ix ix := ⟨fun _ _ => Iff.rfl,rfl,rfl,rfl⟩

theorem Frame.trans (h : Frame ix ix') (h' : Frame ix' ix'') : Frame ix ix'' :=
  ⟨fun l i => (h'.on l i).trans (h.on l i),h'.length.trans h.length,h'.entry.trans h.entry,h'.config.trans h.config⟩

/-! ## Writing links -/

theorem setLinks_get (ix : HnswIndex V D) (id layer : ℕ) (links : List ℕ) (i : ℕ) : (ix.setLinks id layer links).nodes[i]? =
    if id = i then ix.nodes[i]?.map (fun n => { n with neighbors := n.neighbors.set layer links }) else ix.nodes[i]? := by
  rw [setLinks,List.getElem?_modify]
  split_ifs <;> simp

theorem setLinks_frame (ix : HnswIndex V D) (id layer : ℕ) (links : List ℕ) : Frame ix (ix.setLinks id layer links) := by
  refine ⟨fun l i => ?_,List.length_modify ..,rfl,rfl⟩
  unfold On
  rw [setLinks_get]
  split_ifs with hid
  · simp
  · exact Iff.rfl

theorem linksOf_setLinks (hon : ix.On layer id) : (ix.setLinks id layer links).linksOf i l = if i = id ∧ l = layer then links else ix.linksOf i l := by
  obtain ⟨n,hn,hlt⟩ := hon
  rw [linksOf,linksOf,setLinks_get]
  by_cases hi : id = i
  · subst hi
    rw [if_pos rfl,hn,Option.map_some,Option.bind_some,Option.bind_some,List.getElem?_set]
    by_cases hl : layer = l
    · rw [if_pos hl,if_pos hlt,if_pos ⟨rfl,hl.symm⟩]
      rfl
    · rw [if_neg hl,if_neg (fun h => hl h.2.symm)]
  · rw [if_neg hi,if_neg (fun h => hi h.1.symm)]

theorem Linked.setLinks (h : ix.Linked) (hon : ix.On layer id) (hlinks : ∀ j ∈ links, j ≠ id ∧ ix.On layer j) (hnodup : links.Nodup) :
    (ix.setLinks id layer links).Linked := by
  have hframe := setLinks_frame ix id layer links
  refine ⟨fun i hi => (hframe.on 0 i).mpr (h.ground i (hframe.length ▸ hi)),fun i l j hj => ?_,fun i l => ?_,fun e he => hframe.length ▸ h.entry e he⟩
  · rw [hframe.on]
    rw [linksOf_setLinks hon] at hj
    split_ifs at hj with heq
    · rw [heq.1,heq.2]
      exact hlinks j hj
    · exact h.target i l j hj
  · rw [linksOf_setLinks hon]
    split_ifs
    · exact hnodup
    · exact h.nodup i l

theorem pushLink_eq (hon : ix.On layer id) (j : ℕ) : ix.pushLink id layer j = (ix.setLinks id layer (ix.linksOf id layer ++ [j]),.ok ()) := by
  rw [pushLink,hon.neighborsOf]

theorem Linked.push (h : ix.Linked) (hon : ix.On layer id) (hj : ix.On layer j) (hne : j ≠ id) (hnew : j ∉ ix.linksOf id layer) :
    (ix.setLinks id layer (ix.linksOf id layer ++ [j])).Linked := by
  refine h.setLinks hon (fun k hk => ?_) ?_
  · obtain hk | hk := List.mem_append.mp hk
    · exact h.target id layer k hk
    · rw [List.mem_singleton.mp hk]
      exact ⟨hne,hj⟩
  · exact List.nodup_append.mpr ⟨h.nodup id layer,List.nodup_singleton j,fun a ha b hb hab => hnew (List.mem_singleton.mp hb ▸ hab ▸ ha)⟩

variable [LinearOrder D]

omit [LinearOrder D] in
theorem scoreAll_ids (base : V) {ns : List ℕ} (hns : ∀ n ∈ ns, n < ix.nodes.length) :
    Safe (fun scored => scored.map (fun c => (ofLex c).2) = ns) (ix.scoreAll base ns) := by
  induction ns with
  | nil => rfl
  | cons n ns ih =>
    rw [List.forall_mem_cons] at hns
    have hd := distTo_safe base hns.1
    have hrest := ih hns.2
    rw [scoreAll]
    split
    · rename_i e he
      rwa [he] at hd
    · split
      · rename_i e he
        rwa [he] at hrest
      · rename_i scored he
        rw [he] at hrest
        exact congrArg (n :: ·) hrest

theorem prune_spec (h : ix.Linked) (hon : ix.On layer id) (mMax : ℕ) : (ix.prune id layer mMax).2 ≠ .error .panic ∧
    ∃ left, left.Nodup ∧ left ⊆ ix.linksOf id layer ∧ ((ix.prune id layer mMax).2 = .ok () → left.length ≤ mMax) ∧
      ((ix.prune id layer mMax).1 = ix ∧ left = ix.linksOf id layer ∨ (ix.prune id layer mMax).1 = ix.setLinks id layer left) := by
  have hlist := hon
  obtain ⟨n,hn,-⟩ := hlist
  have hscore := scoreAll_ids n.vector (fun j hj => (h.target id layer j hj).2.lt)
  rw [prune,hn,hon.neighborsOf]
  dsimp only
  split_ifs with hfew
  · exact ⟨nofun,_,h.nodup id layer,List.Subset.refl _,fun _ => hfew,.inl ⟨rfl,rfl⟩⟩
  · split
    · rename_i e he
      rw [he] at hscore
      exact ⟨fun hpanic => hscore (Except.error.inj hpanic),_,h.nodup id layer,List.Subset.refl _,nofun,.inl ⟨rfl,rfl⟩⟩
    · rename_i scored he
      rw [he] at hscore
      have hperm : ((scored.insertionSort (· ≤ ·)).map (fun c => (ofLex c).2)).Perm (ix.linksOf id layer) :=
        ((List.perm_insertionSort _ _).map _).trans (List.Perm.of_eq hscore)
      have hsub : List.Sublist (((scored.insertionSort (· ≤ ·)).take mMax).map (fun c => (ofLex c).2))
          ((scored.insertionSort (· ≤ ·)).map (fun c => (ofLex c).2)) := (List.take_sublist _ _).map _
      refine ⟨nofun,_,(hperm.nodup_iff.mpr (h.nodup id layer)).sublist hsub,fun j hj => hperm.subset (hsub.subset hj),fun _ => ?_,.inr rfl⟩
      rw [List.length_map]
      exact List.length_take_le _ _

/-! ## Inserting -/

/-- What linking a new element to others on a layer comes to, whether it fails or not. -/
structure Joined (ix : HnswIndex V D) (newId layer mMax : ℕ) (ns : List ℕ) (r : HnswIndex V D × HnswResult Unit) : Prop where
  linked : r.1.Linked
  frame : Frame ix r.1
  others : ∀ i l, l ≠ layer → r.1.linksOf i l = ix.linksOf i l
  safe : r.2 ≠ .error .panic
  own : r.2 = .ok () → r.1.linksOf newId layer = ix.linksOf newId layer ++ ns
  few : r.2 = .ok () → ∀ i, i ≠ newId → (r.1.linksOf i layer).length ≤ max mMax (ix.linksOf i layer).length

/-- One neighbor: linked both ways and pruned. -/
theorem link_spec (h : ix.Linked) (hnew : ix.On layer newId) {n : ℕ} (hn : ix.On layer n) (hne : n ≠ newId) (hback : newId ∉ ix.linksOf n layer)
    (hforth : n ∉ ix.linksOf newId layer) (mMax : ℕ) :
    Joined ix newId layer mMax [n] (andThen (ix.pushLink newId layer n) fun ix => andThen (ix.pushLink n layer newId) fun ix => ix.prune n layer mMax) ∧
      ∀ i, i ≠ n → i ≠ newId → (andThen (ix.pushLink newId layer n) fun ix => andThen (ix.pushLink n layer newId) fun ix =>
        ix.prune n layer mMax).1.linksOf i layer = ix.linksOf i layer := by
  have hframe₁ := setLinks_frame ix newId layer (ix.linksOf newId layer ++ [n])
  have h₁ := h.push hnew hn hne hforth
  rw [pushLink_eq hnew]
  generalize hix₁ : ix.setLinks newId layer (ix.linksOf newId layer ++ [n]) = ix₁ at hframe₁ h₁
  have hlinks₁ : ∀ i l, ix₁.linksOf i l = if i = newId ∧ l = layer then ix.linksOf newId layer ++ [n] else ix.linksOf i l := by
    intro i l
    rw [← hix₁,linksOf_setLinks hnew]
  have hn₁ : ix₁.linksOf n layer = ix.linksOf n layer := by rw [hlinks₁,if_neg (fun hall => hne hall.1)]
  have hon₁ := (hframe₁.on layer n).mpr hn
  have h₂ := h₁.push hon₁ ((hframe₁.on layer newId).mpr hnew) hne.symm (hn₁ ▸ hback)
  have hframe₂ := hframe₁.trans (setLinks_frame ix₁ n layer (ix₁.linksOf n layer ++ [newId]))
  change Joined ix newId layer mMax [n] (andThen (ix₁.pushLink n layer newId) fun ix => ix.prune n layer mMax) ∧
    ∀ i, i ≠ n → i ≠ newId → (andThen (ix₁.pushLink n layer newId) fun ix => ix.prune n layer mMax).1.linksOf i layer = ix.linksOf i layer
  rw [pushLink_eq hon₁]
  generalize hix₂ : ix₁.setLinks n layer (ix₁.linksOf n layer ++ [newId]) = ix₂ at hframe₂ h₂
  have hlinks₂ : ∀ i l, ix₂.linksOf i l = if i = n ∧ l = layer then ix.linksOf n layer ++ [newId] else ix₁.linksOf i l := by
    intro i l
    rw [← hix₂,linksOf_setLinks hon₁,hn₁]
  have hon₂ := (hframe₂.on layer n).mpr hn
  obtain ⟨hsafe,left,hnodup,hsub,hfew,hcases⟩ := prune_spec h₂ hon₂ mMax
  change Joined ix newId layer mMax [n] (ix₂.prune n layer mMax) ∧ ∀ i, i ≠ n → i ≠ newId → (ix₂.prune n layer mMax).1.linksOf i layer = ix.linksOf i layer
  have hafter : (ix₂.prune n layer mMax).1.Linked ∧ Frame ix₂ (ix₂.prune n layer mMax).1 ∧
      ∀ i l, (ix₂.prune n layer mMax).1.linksOf i l = if i = n ∧ l = layer then left else ix₂.linksOf i l := by
    obtain ⟨heq,hleft⟩ | heq := hcases
    · rw [heq]
      refine ⟨h₂,.refl _,fun i l => ?_⟩
      split_ifs with hsame
      · rw [hsame.1,hsame.2,hleft]
      · rfl
    · rw [heq]
      exact ⟨h₂.setLinks hon₂ (fun j hj => h₂.target n layer j (hsub hj)) hnodup,setLinks_frame .. ,fun i l => linksOf_setLinks hon₂⟩
  obtain ⟨hlinked,hframe,hlinks⟩ := hafter
  refine ⟨⟨hlinked,hframe₂.trans hframe,fun i l hl => ?_,hsafe,fun _ => ?_,fun hok i hi => ?_⟩,fun i hin hi => ?_⟩
  · rw [hlinks,if_neg (fun hall => hl hall.2),hlinks₂,if_neg (fun hall => hl hall.2),hlinks₁,if_neg (fun hall => hl hall.2)]
  · rw [hlinks,if_neg (fun hall => hne hall.1.symm),hlinks₂,if_neg (fun hall => hne hall.1.symm),hlinks₁,if_pos ⟨rfl,rfl⟩]
  · rw [hlinks]
    split_ifs with hsame
    · exact (hfew hok).trans (le_max_left _ _)
    · rw [hlinks₂,if_neg hsame,hlinks₁,if_neg (fun hall => hi hall.1)]
      exact le_max_right _ _
  · rw [hlinks,if_neg (fun hall => hin hall.1),hlinks₂,if_neg (fun hall => hin hall.1),hlinks₁,if_neg (fun hall => hi hall.1)]

omit [LinearOrder D] in
theorem andThen_assoc (r : HnswIndex V D × HnswResult Unit) (f g : HnswIndex V D → HnswIndex V D × HnswResult Unit) :
    andThen (andThen r f) g = andThen r (fun ix => andThen (f ix) g) := by
  obtain ⟨ix,e | u⟩ := r <;> rfl

theorem linkAll_spec (mMax : ℕ) {ns : List ℕ} (h : ix.Linked) (hnew : ix.On layer newId) (hns : ns.Nodup)
    (hall : ∀ n ∈ ns, n ≠ newId ∧ ix.On layer n ∧ newId ∉ ix.linksOf n layer ∧ n ∉ ix.linksOf newId layer) :
    Joined ix newId layer mMax ns (linkAll newId layer mMax ns ix) := by
  induction ns generalizing ix with
  | nil => exact ⟨h,.refl ix,fun _ _ _ => rfl,nofun,fun _ => (List.append_nil _).symm,fun _ _ _ => le_max_right _ _⟩
  | cons n ns ih =>
    obtain ⟨⟨hne,hon,hback,hforth⟩,hrest⟩ := List.forall_mem_cons.mp hall
    obtain ⟨hnotin,hns⟩ := List.nodup_cons.mp hns
    obtain ⟨hfirst,hkept⟩ := link_spec h hnew hon hne hback hforth mMax
    have hrun : linkAll newId layer mMax (n :: ns) ix = andThen (andThen (ix.pushLink newId layer n) fun ix =>
        andThen (ix.pushLink n layer newId) fun ix => ix.prune n layer mMax) (linkAll newId layer mMax ns) := by
      rw [andThen_assoc]
      simp only [andThen_assoc]
      rfl
    rw [hrun]
    generalize (andThen (ix.pushLink newId layer n) fun ix => andThen (ix.pushLink n layer newId) fun ix => ix.prune n layer mMax) = r at hfirst hkept
    obtain ⟨mid,e | u⟩ := r
    · exact ⟨hfirst.linked,hfirst.frame,hfirst.others,hfirst.safe,nofun,nofun⟩
    · have hown := hfirst.own rfl
      have hfew := hfirst.few rfl
      have hframe : Frame ix mid := hfirst.frame
      have hnext := ih hfirst.linked ((hframe.on layer newId).mpr hnew) hns (fun k hk => by
        obtain ⟨hkne,hkon,hkback,hkforth⟩ := hrest k hk
        have hkn : k ≠ n := fun heq => hnotin (heq ▸ hk)
        refine ⟨hkne,(hframe.on layer k).mpr hkon,?_,?_⟩
        · rw [hkept k hkn hkne]
          exact hkback
        · rw [hown]
          exact fun hin => (List.mem_append.mp hin).elim hkforth (fun hin => hkn (List.mem_singleton.mp hin)))
      refine ⟨hnext.linked,hframe.trans hnext.frame,fun i l hl => (hnext.others i l hl).trans (hfirst.others i l hl),hnext.safe,fun hok => ?_,fun hok i hi => ?_⟩
      · exact (hnext.own hok).trans (by rw [hown,List.append_assoc]; rfl)
      · exact (hnext.few hok i hi).trans (max_le (le_max_left _ _) (hfew i hi))

end HnswIndex
end Drevo.Vector
