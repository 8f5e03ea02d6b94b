import Drevo.Vector.Links

/-! What every run of inserts, failing ones among them, makes of the index, and what a search answers after it. -/
namespace Drevo.Vector
namespace HnswIndex

variable {V D : Type*} {ix ix' : HnswIndex V D} {layer newId entry : ℕ}

/-- How many links a list may hold. -/
def cap (ix : HnswIndex V D) (layer : ℕ) : ℕ := if layer = 0 then ix.config.m*2 else ix.config.m

/-- No list is longer than it may be. -/
def Short (ix : HnswIndex V D) : Prop := ∀ i layer, (ix.linksOf i layer).length ≤ ix.cap layer

/-- The element where the index is entered is on every layer. -/
def Topped (ix : HnswIndex V D) : Prop :=
  match ix.entry with
  | none => ix.nodes = []
  | some e => ∀ l i, ix.On l i → ix.On l e

/-- The elements that were there before the new one. -/
def Old (ix : HnswIndex V D) (newId layer : ℕ) (i : ℕ) : Prop := ix.On layer i ∧ i ≠ newId

theorem Linked.closedOn (h : ix.Linked) (hfresh : ∀ i, newId ∉ ix.linksOf i layer) : ix.ClosedOn layer (ix.Old newId layer) :=
  fun i hi => ⟨_,hi.1.neighborsOf,fun j hj => ⟨(h.target i layer j hj).2,fun heq => hfresh i (heq ▸ hj)⟩⟩

variable [LinearOrder D]

theorem descend_safe (query : V) (h : ix.Linked) (hfresh : ∀ i l, newId ∉ ix.linksOf i l) (lowest gap : ℕ) (hentry : ix.Old newId (lowest+gap) entry) :
    Safe (ix.Old newId lowest) (ix.descend query lowest gap entry) := by
  induction gap generalizing entry with
  | zero => exact hentry
  | succ gap ih =>
    have hclosest := greedyClosest_safe query (h.closedOn (fun i => hfresh i (lowest+gap+1))) hentry
    rw [descend]
    split
    · rename_i e he
      rwa [he] at hclosest
    · rename_i closest he
      rw [he] at hclosest
      exact ih ⟨hclosest.1.lower (Nat.le_succ _),hclosest.2⟩

/-- Linking a new element layer after layer. -/
theorem connect_spec (query : V) (layers : ℕ) (h : ix.Linked) (hentry : 0 < layers → ix.Old newId (layers-1) entry) (hnew : ∀ l < layers, ix.On l newId)
    (hfresh : ∀ i l, l < layers → newId ∉ ix.linksOf i l) (hown : ∀ l < layers, ix.linksOf newId l = []) :
    (connect query newId layers entry ix).1.Linked ∧ Frame ix (connect query newId layers entry ix).1 ∧
      (connect query newId layers entry ix).2 ≠ .error .panic ∧
      ((connect query newId layers entry ix).2 = .ok () → ix.Short → (connect query newId layers entry ix).1.Short) := by
  induction layers generalizing ix entry with
  | zero => exact ⟨h,.refl ix,nofun,fun _ hshort => hshort⟩
  | succ layer ih =>
    have hstart := hentry (Nat.succ_pos _)
    rw [Nat.add_sub_cancel] at hstart
    have hsearch := searchLayer_found query ix.config.efConstruction
      (h.closedOn (fun i => hfresh i layer (Nat.lt_succ_self _))) hstart
    rw [connect]
    split
    · rename_i e he
      rw [he] at hsearch
      exact ⟨h,.refl ix,fun hpanic => hsearch (Except.error.inj hpanic),nofun⟩
    · rename_i found he
      rw [he] at hsearch
      have hfound : Found ix query (ix.Old newId layer) ix.config.efConstruction found := hsearch
      have hselected : ∀ n ∈ selectNeighbors found ix.config.m, ix.Old newId layer n := by
        intro n hn
        obtain ⟨c,hc,rfl⟩ := List.mem_map.mp hn
        exact (hfound.known c (List.mem_of_mem_take hc)).1
      have hnodup : (selectNeighbors found ix.config.m).Nodup := hfound.distinct.sublist ((List.take_sublist _ _).map _)
      have hempty := hown layer (Nat.lt_succ_self _)
      have hjoined := linkAll_spec (ix.cap layer) h (hnew layer (Nat.lt_succ_self _)) hnodup (fun n hn =>
        ⟨(hselected n hn).2,(hselected n hn).1,hfresh n layer (Nat.lt_succ_self _),by rw [hempty]; exact List.not_mem_nil⟩)
      have hnext : ix.Old newId layer ((found.head?.map (fun c => (ofLex c).2)).getD entry) := by
        cases found with
        | nil => exact hstart
        | cons c found => exact (hfound.known c List.mem_cons_self).1
      change (andThen (linkAll newId layer (ix.cap layer) (selectNeighbors found ix.config.m) ix) _).1.Linked ∧
        Frame ix (andThen (linkAll newId layer (ix.cap layer) (selectNeighbors found ix.config.m) ix) _).1 ∧
        (andThen (linkAll newId layer (ix.cap layer) (selectNeighbors found ix.config.m) ix) _).2 ≠ .error .panic ∧
        ((andThen (linkAll newId layer (ix.cap layer) (selectNeighbors found ix.config.m) ix) _).2 = .ok () → ix.Short →
          (andThen (linkAll newId layer (ix.cap layer) (selectNeighbors found ix.config.m) ix) _).1.Short)
      generalize linkAll newId layer (ix.cap layer) (selectNeighbors found ix.config.m) ix = r at hjoined
      obtain ⟨mid,e | u⟩ := r
      · exact ⟨hjoined.linked,hjoined.frame,hjoined.safe,nofun⟩
      · have hframe : Frame ix mid := hjoined.frame
        have hothers : ∀ i l, l ≠ layer → mid.linksOf i l = ix.linksOf i l := hjoined.others
        obtain ⟨hlinked,hframe',hsafe,hshort⟩ := @ih mid ((found.head?.map (fun c => (ofLex c).2)).getD entry) hjoined.linked
          (fun _ => ⟨((hframe.on layer _).mpr hnext.1).lower (Nat.sub_le _ _),hnext.2⟩) (fun l hl => (hframe.on l newId).mpr (hnew l (Nat.lt_succ_of_lt hl)))
          (fun i l hl => by rw [hothers i l hl.ne]; exact hfresh i l (Nat.lt_succ_of_lt hl))
          (fun l hl => (hothers newId l hl.ne).trans (hown l (Nat.lt_succ_of_lt hl)))
        refine ⟨hlinked,hframe.trans hframe',hsafe,fun hok hbefore => hshort hok (fun i l => ?_)⟩
        have hcap : mid.cap l = ix.cap l := by rw [cap,cap,hframe.config]
        rw [hcap]
        by_cases hl : l = layer
        · subst hl
          by_cases hi : i = newId
          · have hlinks : mid.linksOf newId l = ix.linksOf newId l ++ selectNeighbors found ix.config.m := hjoined.own rfl
            rw [hi,hlinks,hempty,List.nil_append,selectNeighbors,List.length_map]
            refine (List.length_take_le _ _).trans ?_
            rw [cap]
            split_ifs <;> omega
          · exact (hjoined.few rfl i hi).trans (max_le le_rfl (hbefore i l))
        · rw [hothers i l hl]
          exact hbefore i l

/-! ## Inserts -/

section Push
variable (ix) (key : ℕ) (vector : V) (level : ℕ)

omit [LinearOrder D] in
theorem pushNode_get (i : ℕ) : (ix.pushNode key vector level).nodes[i]? =
    if i = ix.nodes.length then some ⟨key,vector,List.replicate (level+1) []⟩ else ix.nodes[i]? := by
  rw [pushNode]
  split_ifs with hi
  · rw [hi,List.getElem?_concat_length]
  · obtain hlt | hgt := lt_or_gt_of_ne hi
    · rw [List.getElem?_append_left hlt]
    · rw [List.getElem?_eq_none (by rw [List.length_append]; exact hgt),List.getElem?_eq_none hgt.le]

omit [LinearOrder D] in
theorem pushNode_on (l i : ℕ) : (ix.pushNode key vector level).On l i ↔ ix.On l i ∨ (i = ix.nodes.length ∧ l ≤ level) := by
  unfold On
  rw [pushNode_get]
  split_ifs with hi
  · rw [hi,List.getElem?_eq_none le_rfl]
    simp
  · simp [hi]

omit [LinearOrder D] in
theorem pushNode_linksOf (i l : ℕ) : (ix.pushNode key vector level).linksOf i l = ix.linksOf i l := by
  rw [linksOf,linksOf,pushNode_get]
  split_ifs with hi
  · rw [hi,List.getElem?_eq_none le_rfl,Option.bind_some,List.getElem?_replicate]
    split_ifs <;> rfl
  · rfl

omit [LinearOrder D] in
theorem linksOf_none (l : ℕ) : ix.linksOf ix.nodes.length l = [] := by
  rw [linksOf,List.getElem?_eq_none le_rfl]
  rfl

omit [LinearOrder D] in
theorem Linked.pushNode (h : ix.Linked) : (ix.pushNode key vector level).Linked := by
  have hlength : (ix.pushNode key vector level).nodes.length = ix.nodes.length+1 := List.length_append
  refine ⟨fun i hi => (pushNode_on ..).mpr ?_,fun i l j hj => ?_,fun i l => by rw [pushNode_linksOf]; exact h.nodup i l,fun e he => ?_⟩
  · obtain hlt | heq := Nat.lt_succ_iff_lt_or_eq.mp (hlength ▸ hi)
    · exact .inl (h.ground i hlt)
    · exact .inr ⟨heq,Nat.zero_le _⟩
  · rw [pushNode_linksOf] at hj
    exact ⟨(h.target i l j hj).1,(pushNode_on ..).mpr (.inl (h.target i l j hj).2)⟩
  · rw [hlength]
    exact Nat.lt_succ_of_lt (h.entry e he)

omit [LinearOrder D] in
theorem Linked.not_linked (h : ix.Linked) (i l : ℕ) : ix.nodes.length ∉ (ix.pushNode key vector level).linksOf i l := by
  intro hin
  rw [pushNode_linksOf] at hin
  exact absurd (h.target i l _ hin).2.lt (lt_irrefl _)

omit [LinearOrder D] in
theorem Short.pushNode (h : ix.Short) : (ix.pushNode key vector level).Short := by
  intro i l
  rw [pushNode_linksOf]
  exact h i l

end Push

/-- What an insert keeps: the links, unless it fails the lengths of the lists and the highest entry too, and it does not panic. -/
def Keeps (ix : HnswIndex V D) (r : HnswIndex V D × HnswResult Unit) : Prop :=
  r.1.Linked ∧ r.2 ≠ .error .panic ∧ (r.2 = .ok () → ix.Short → ix.Topped → r.1.Short ∧ r.1.Topped)

theorem place_first (h : ix.Linked) (hentry : ix.entry = none) (key : ℕ) (vector : V) (level : ℕ) : ix.Keeps (ix.place key vector level) := by
  have hself : (ix.pushNode key vector level).On level ix.nodes.length := (pushNode_on ..).mpr (.inr ⟨rfl,le_rfl⟩)
  have hpushed := h.pushNode ix key vector level
  rw [place,hentry]
  refine ⟨⟨hpushed.ground,hpushed.target,hpushed.nodup,fun e he => ?_⟩,nofun,fun _ hs ht => ⟨hs.pushNode ix key vector level,fun l i hi => ?_⟩⟩
  · rw [← Option.some.inj he]
    exact hself.lt
  · rw [Topped,hentry] at ht
    have ht : ix.nodes = [] := ht
    obtain ⟨n,hn,-⟩ | ⟨-,hle⟩ := (pushNode_on ..).mp hi
    · rw [ht] at hn
      cases hn
    · exact hself.lower hle

theorem place_keeps (h : ix.Linked) (key : ℕ) (vector : V) (level : ℕ) : ix.Keeps (ix.place key vector level) := by
  cases hentry : ix.entry with
  | none => exact place_first h hentry key vector level
  | some e =>
    have hlt := h.entry e hentry
    obtain ⟨top,htop,hground⟩ := h.ground e hlt
    have hself : (ix.pushNode key vector level).On level ix.nodes.length := (pushNode_on ..).mpr (.inr ⟨rfl,le_rfl⟩)
    have hlinked := h.pushNode ix key vector level
    have hfresh := h.not_linked ix key vector level
    have hshort := Short.pushNode ix key vector level
    have hon := pushNode_on ix key vector level
    have hempty : ∀ l, (ix.pushNode key vector level).linksOf ix.nodes.length l = [] := fun l => (pushNode_linksOf ..).trans (linksOf_none ix l)
    have hget : (ix.pushNode key vector level).nodes[e]? = some top := by rw [pushNode_get,if_neg hlt.ne,htop]
    have hkept : (ix.pushNode key vector level).entry = some e := hentry
    rw [place,hentry]
    dsimp only
    generalize ix.pushNode key vector level = pushed at *
    have honTop : ∀ l, pushed.On l e ↔ l ≤ top.level := by
      intro l
      rw [hon,On,HnswNode.level]
      simp only [htop,hlt.ne,false_and,or_false,Option.some.injEq]
      exact ⟨fun ⟨n,hn,hl⟩ => by rw [← hn] at hl; omega,fun hl => ⟨top,rfl,by omega⟩⟩
    have hdescend : level ≤ top.level → Safe (pushed.Old ix.nodes.length level) (pushed.descend vector level (top.level-level) e) :=
      fun hle => descend_safe vector hlinked hfresh level _ ⟨(honTop _).mpr (by omega),hlt.ne⟩
    have hstay : ¬ level ≤ top.level → pushed.descend vector level (top.level-level) e = .ok e :=
      fun hle => by rw [Nat.sub_eq_zero_of_le (not_le.mp hle).le]; rfl
    rw [hget]
    dsimp only
    split
    · rename_i stop hstop
      refine ⟨hlinked,fun hpanic => ?_,nofun⟩
      by_cases hle : level ≤ top.level
      · have hsafe := hdescend hle
        rw [hstop] at hsafe
        exact hsafe (Except.error.inj hpanic)
      · rw [hstay hle] at hstop
        cases hstop
    · rename_i near hnear
      have hnearOld : pushed.Old ix.nodes.length (min level top.level) near := by
        by_cases hle : level ≤ top.level
        · have hsafe := hdescend hle
          rw [hnear] at hsafe
          rw [min_eq_left hle]
          exact hsafe
        · rw [hstay hle] at hnear
          rw [← Except.ok.inj hnear,min_eq_right (not_le.mp hle).le]
          exact ⟨(honTop _).mpr le_rfl,hlt.ne⟩
      obtain ⟨hlinked',hframe,hsafe,hshort'⟩ := connect_spec vector (min level top.level+1) hlinked (fun _ => hnearOld)
        (fun l hl => hself.lower (by omega)) (fun i l _ => hfresh i l) (fun l _ => hempty l)
      generalize connect vector ix.nodes.length (min level top.level+1) near pushed = r at hlinked' hframe hsafe hshort'
      obtain ⟨after,stop | u⟩ := r
      · exact ⟨hlinked',hsafe,nofun⟩
      · have honAfter : ∀ l i, after.On l i ↔ pushed.On l i := hframe.on
        have hentryAfter : after.entry = some e := hframe.entry.trans hkept
        have hbelow : ix.Topped → ∀ l i, after.On l i → l ≤ top.level ∨ l ≤ level := by
          intro ht l i hi
          rw [Topped,hentry] at ht
          obtain hold | ⟨-,hle⟩ := (hon l i).mp ((honAfter l i).mp hi)
          · exact .inl ((honTop l).mp ((hon l e).mpr (.inl (ht l i hold))))
          · exact .inr hle
        rw [andThen]
        dsimp only
        split_ifs with hhigher
        · refine ⟨⟨hlinked'.ground,hlinked'.target,hlinked'.nodup,fun e' he' => ?_⟩,nofun,fun _ hs ht => ⟨hshort' rfl (hshort hs),fun l i hi => ?_⟩⟩
          · rw [← Option.some.inj he']
            exact ((honAfter _ _).mpr hself).lt
          · have := hbelow ht l i hi
            exact (honAfter l _).mpr (hself.lower (by omega))
        · refine ⟨hlinked',nofun,fun _ hs ht => ⟨hshort' rfl (hshort hs),?_⟩⟩
          rw [Topped,hentryAfter]
          intro l i hi
          have := hbelow ht l i hi
          exact (honAfter l e).mpr ((honTop l).mpr (by omega))

theorem insert_keeps (h : ix.Linked) (key : ℕ) (vector : V) (level : ℕ) : ix.Keeps (ix.insert key vector level) := by
  rw [insert]
  split_ifs
  · exact ⟨h,nofun,nofun⟩
  · split
    · have hlinked : HnswIndex.Linked { ix with dim := some (ix.config.metric.dim vector) } := ⟨h.ground,h.target,h.nodup,h.entry⟩
      exact place_keeps hlinked key vector level
    · split_ifs
      · exact ⟨h,nofun,nofun⟩
      · exact place_keeps h key vector level

/-- Inserts one after the other, whatever becomes of each. -/
def run (ix : HnswIndex V D) (steps : List (ℕ × V × ℕ)) : HnswIndex V D := steps.foldl (fun ix s => (ix.insert s.1 s.2.1 s.2.2).1) ix

theorem Linked.run (h : ix.Linked) (steps : List (ℕ × V × ℕ)) : (ix.run steps).Linked := by
  induction steps generalizing ix with
  | nil => exact h
  | cons s steps ih => exact ih (insert_keeps h s.1 s.2.1 s.2.2).1

omit [LinearOrder D] in
theorem new_linked (config : HnswConfig V D) : (new config).Linked := ⟨nofun,nofun,fun _ _ => .nil,nofun⟩

theorem graph_sound (config : HnswConfig V D) (steps : List (ℕ × V × ℕ)) : ((new config).run steps).Linked ∧
    ∀ key vector level, (((new config).run steps).insert key vector level).2 ≠ .error .panic :=
  ⟨(new_linked config).run steps,fun key vector level => (insert_keeps ((new_linked config).run steps) key vector level).2.1⟩

/-- Every insert of the run succeeds. -/
def Succeeds (ix : HnswIndex V D) : List (ℕ × V × ℕ) → Prop
  | [] => True
  | s :: steps => (ix.insert s.1 s.2.1 s.2.2).2 = .ok () ∧ (ix.insert s.1 s.2.1 s.2.2).1.Succeeds steps

theorem Succeeds.kept {steps : List (ℕ × V × ℕ)} (hok : ix.Succeeds steps) (h : ix.Linked) (hshort : ix.Short) (htop : ix.Topped) :
    (ix.run steps).Short ∧ (ix.run steps).Topped := by
  induction steps generalizing ix with
  | nil => exact ⟨hshort,htop⟩
  | cons s steps ih =>
    obtain ⟨hlinked,-,hkept⟩ := insert_keeps h s.1 s.2.1 s.2.2
    obtain ⟨hshort,htop⟩ := hkept hok.1 hshort htop
    exact ih hok.2 hlinked hshort htop

theorem graph_short {config : HnswConfig V D} {steps : List (ℕ × V × ℕ)} (h : (new config).Succeeds steps) :
    ((new config).run steps).Short ∧ ((new config).run steps).Topped := h.kept (new_linked config) (fun _ _ => Nat.zero_le _) rfl

/-- Numbers on a line, with one link for each list above the lowest layer. -/
def line : HnswConfig ℕ ℕ := ⟨1,4,⟨fun _ => 1,fun a b => .ok (max a b-min a b)⟩⟩

theorem line_short : ((new line).run [(1,5,1),(2,9,0),(3,6,2)]).Short ∧ ((new line).run [(1,5,1),(2,9,0),(3,6,2)]).Topped :=
  graph_short ⟨rfl,by decide +kernel,by decide +kernel,trivial⟩

/-! ## Searches -/

/-- At most `k` elements, each once, with their own distances in ascending order. -/
def Answers (ix : HnswIndex V D) (query : V) (k : ℕ) (hits : List (Neighbor D)) : Prop :=
  ∃ ids : List ℕ, ids.Nodup ∧ ids.length ≤ k ∧ hits.Pairwise (fun a b => a.distance ≤ b.distance) ∧
    List.Forall₂ (fun id hit => ∃ n, ix.nodes[id]? = some n ∧ hit.key = n.key ∧ ix.config.metric.distance query n.vector = .ok hit.distance) ids hits

theorem named_answers {query : V} {P : ℕ → Prop} {k : ℕ} {found : List (Candidate D)} (h : Found ix query P k found) :
    Safe (ix.Answers query k) (ix.named found) := by
  have hnamed : ∃ hits, ix.named found = .ok hits ∧ hits.map Neighbor.distance = found.map (fun c => (ofLex c).1) ∧
      List.Forall₂ (fun id hit => ∃ n, ix.nodes[id]? = some n ∧ hit.key = n.key ∧ ix.config.metric.distance query n.vector = .ok hit.distance)
        (found.map (fun c => (ofLex c).2)) hits := by
    have hknown := h.known
    clear h
    induction found with
    | nil => exact ⟨[],rfl,rfl,.nil⟩
    | cons c found ih =>
      obtain ⟨⟨-,hd⟩,hrest⟩ := List.forall_mem_cons.mp hknown
      obtain ⟨hits,hhits,hdistances,hall⟩ := ih hrest
      rw [distTo] at hd
      cases hn : ix.nodes[(ofLex c).2]? with
      | none =>
        rw [hn] at hd
        cases hd
      | some n =>
        rw [hn] at hd
        dsimp only at hd
        rw [named,hn]
        dsimp only
        rw [hhits]
        refine ⟨_,rfl,congrArg ((ofLex c).1 :: ·) hdistances,.cons ⟨n,hn,rfl,?_⟩ hall⟩
        split at hd
        · rename_i d heq
          rw [heq,Except.ok.inj hd]
        · cases hd
  obtain ⟨hits,hhits,hdistances,hall⟩ := hnamed
  rw [hhits]
  refine ⟨_,h.distinct,by rw [List.length_map]; exact h.few,?_,hall⟩
  rw [← List.pairwise_map (R := (· ≤ ·)),hdistances,List.pairwise_map]
  refine h.sorted.imp (fun {a b} hab => ?_)
  obtain hlt | ⟨heq,-⟩ := Prod.Lex.le_iff.mp hab
  · exact hlt.le
  · exact heq.le

theorem Linked.answers (h : ix.Linked) (query : V) (k ef : ℕ) : Safe (ix.Answers query k) (ix.searchWithEf query k ef) := by
  have hnone : ix.Answers query k [] := ⟨[],.nil,Nat.zero_le _,.nil,.nil⟩
  have hfresh : ∀ i l, ix.nodes.length ∉ ix.linksOf i l := fun i l hin => absurd (h.target i l _ hin).2.lt (lt_irrefl _)
  rw [searchWithEf]
  by_cases hdim : ix.config.metric.dim query = 0
  · rw [if_pos hdim]
    exact nofun
  · rw [if_neg hdim]
    split
    · exact nofun
    · split
      · exact hnone
      · rename_i entry hentry
        by_cases hk : k = 0
        · rw [if_pos hk]
          exact hnone
        · rw [if_neg hk]
          have hlt := h.entry entry hentry
          obtain ⟨top,htop,hground⟩ := h.ground entry hlt
          have hon : ix.On (0+top.level) entry := ⟨top,htop,by rw [HnswNode.level]; omega⟩
          have hdescend := descend_safe query h hfresh 0 top.level ⟨hon,hlt.ne⟩
          rw [htop]
          dsimp only
          split
          · rename_i e he
            rwa [he] at hdescend
          · rename_i near he
            rw [he] at hdescend
            have hsearch := searchLayer_found query (max ef k) (h.closedOn (fun i => hfresh i 0)) hdescend
            split
            · rename_i e he'
              rwa [he'] at hsearch
            · rename_i found he'
              rw [he'] at hsearch
              have hfound : Found ix query (ix.Old ix.nodes.length 0) (max ef k) found := hsearch
              exact named_answers ⟨fun c hc => hfound.known c (List.mem_of_mem_take hc),hfound.sorted.sublist (List.take_sublist _ _),
                hfound.distinct.sublist ((List.take_sublist _ _).map _),List.length_take_le _ _⟩

end HnswIndex
end Drevo.Vector
