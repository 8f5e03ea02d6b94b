import Drevo.Core.Invariant

/-! Referential integrity: every stored relationship has its ends among the stored nodes. A
write keeps it when the relationships it stores find their ends; a transaction that commits
after others does because none of them deleted a node it needs, and a prepared one because
the fence keeps such deletions out. -/
namespace Drevo
open Lib

namespace Graph

/-- Every relationship has its ends among the nodes. -/
def Intact (g : Graph) : Prop :=
  ∀ (id : ℕ) (edge : Edge), g.edges[id]? = some edge →
    g.nodes[edge.fromId]?.isSome ∧ g.nodes[edge.toId]?.isSome

/-- Each relationship the changes store finds its ends when its turn comes. -/
def Fits (g : Graph) : List GraphOp → Prop
  | [] => True
  | op :: ops => (∀ n ∈ op.needs, g.nodes[n]?.isSome) ∧ Fits (g.apply op) ops

theorem stored_apply {g : Graph} {op : GraphOp} {n : ℕ} (h : g.nodes[n]?.isSome) (hn : op ≠ .deleteNode n) :
    (g.apply op).nodes[n]?.isSome := by
  cases op with
  | upsertNode node =>
    simp only [apply,Map.get_insert]
    split_ifs
    · rfl
    · exact h
  | deleteNode id =>
    simp only [apply]
    split_ifs
    · rw [Map.get_erase,if_neg (fun hid => hn (by rw [hid]))]
      exact h
    · exact h
  | upsertEdge edge => exact h
  | deleteEdge id => exact h
  | setEmbedding id vector => exact h
  | deleteEmbedding id => exact h

theorem stored_applyAll {g : Graph} {ops : List GraphOp} {n : ℕ} (h : g.nodes[n]?.isSome)
    (hn : GraphOp.deleteNode n ∉ ops) : (g.applyAll ops).nodes[n]?.isSome := by
  induction ops generalizing g with
  | nil => exact h
  | cons op ops ih =>
    rw [List.mem_cons,not_or] at hn
    exact ih (stored_apply h (Ne.symm hn.1)) hn.2

theorem apply_intact {g : Graph} (h : g.Intact) {op : GraphOp} (hop : ∀ n ∈ op.needs, g.nodes[n]?.isSome) :
    (g.apply op).Intact := by
  cases op with
  | upsertNode node =>
    intro id edge he
    obtain ⟨hf,ht⟩ := h id edge he
    exact ⟨stored_apply hf (by simp),stored_apply ht (by simp)⟩
  | deleteNode i =>
    simp only [apply]
    split_ifs
    · intro id edge he
      -- what is left of the edges does not touch the node
      rw [get_filter_edges,Option.filter_eq_some_iff] at he
      obtain ⟨hstored,haway⟩ := he
      simp only [Edge.touches,Bool.not_eq_true',Bool.or_eq_false_iff,decide_eq_false_iff_not] at haway
      obtain ⟨hf,ht⟩ := h id edge hstored
      simp only [Map.get_erase]
      rw [if_neg (Ne.symm haway.1),if_neg (Ne.symm haway.2)]
      exact ⟨hf,ht⟩
    · exact h
  | upsertEdge e =>
    intro id edge he
    simp only [apply,Map.get_insert] at he
    split_ifs at he
    · obtain rfl := Option.some.inj he
      exact ⟨hop _ (by simp [GraphOp.needs]),hop _ (by simp [GraphOp.needs])⟩
    · exact h id edge he
  | deleteEdge i =>
    intro id edge he
    simp only [apply,Map.get_erase] at he
    split_ifs at he
    exact h id edge he
  | setEmbedding id vector => exact h
  | deleteEmbedding id => exact h

theorem Intact.applyAll {g : Graph} (h : g.Intact) {ops : List GraphOp} (hf : g.Fits ops) :
    (g.applyAll ops).Intact := by
  induction ops generalizing g with
  | nil => exact h
  | cons op ops ih => exact ih (apply_intact h hf.1) hf.2

theorem fits_append {g : Graph} {as bs : List GraphOp} :
    g.Fits (as ++ bs) ↔ g.Fits as ∧ (g.applyAll as).Fits bs := by
  induction as generalizing g with
  | nil => simp [Fits]
  | cons op as ih => simp only [List.cons_append,Fits,ih,applyAll_cons,and_assoc]

theorem fits_of_needs_nil {g : Graph} {ops : List GraphOp} (h : ∀ op ∈ ops, op.needs = []) : g.Fits ops := by
  induction ops generalizing g with
  | nil => trivial
  | cons op ops ih =>
    refine ⟨?_,ih (fun o ho => h o (List.mem_cons_of_mem _ ho))⟩
    simp [h op (List.mem_cons_self ..)]

/-- Changes fit another graph that holds the nodes they need. -/
theorem Fits.mono {g g' : Graph} {ops : List GraphOp} (h : g.Fits ops)
    (hn : ∀ op ∈ ops, ∀ n ∈ op.needs, g.nodes[n]?.isSome → g'.nodes[n]?.isSome) : g'.Fits ops := by
  induction ops generalizing g g' with
  | nil => trivial
  | cons op ops ih =>
    refine ⟨fun n hop => hn op (List.mem_cons_self ..) n hop (h.1 n hop),ih h.2 ?_⟩
    intro o ho n hneed hs
    -- the change stores or deletes the same node in both graphs
    have hold := hn o (List.mem_cons_of_mem _ ho) n hneed
    cases op with
    | upsertNode node =>
      simp only [apply,Map.get_insert] at hs ⊢
      split_ifs at hs ⊢
      · rfl
      · exact hold hs
    | deleteNode id =>
      by_cases hid : id = n
      · subst hid
        simp only [apply] at hs
        split_ifs at hs with hin
        · simp at hs
        · exact absurd hs hin
      · exact stored_apply (hold (by
          by_contra hno
          simp only [apply] at hs
          split_ifs at hs
          · rw [Map.get_erase,if_neg hid] at hs
            exact hno hs
          · exact hno hs)) (by simpa using hid)
    | upsertEdge edge => exact hold hs
    | deleteEdge id => exact hold hs
    | setEmbedding id vector => exact hold hs
    | deleteEmbedding id => exact hold hs

end Graph

/-! ## The writes on one state -/

section Writes
variable [JsonText] {s t : Inner}

/-- A mutation that succeeds found the ends it needs. -/
theorem Inner.mutate_needs (hi : s.graph.Intact) {m : Mutation} {require : Bool} {op : GraphOp}
    (hr : s.mutate m require = (.ok op,t)) : ∀ n ∈ op.needs, s.graph.nodes[n]?.isSome := by
  cases m with
  | createNode newNode mint =>
    rcases hc : s.createNodeChecked newNode mint require with ⟨r,u⟩
    cases r <;> simp only [Inner.mutate,hc,Prod.map_apply,Except.map,Prod.mk.injEq,reduceCtorEq,false_and,
      Except.ok.injEq] at hr
    simp [← hr.1,GraphOp.needs]
  | updateNode id patch mint =>
    rcases hc : s.updateNodeChecked id patch mint require with ⟨r,u⟩
    cases r <;> simp only [Inner.mutate,hc,Prod.map_apply,Except.map,Prod.mk.injEq,reduceCtorEq,false_and,
      Except.ok.injEq] at hr
    simp [← hr.1,GraphOp.needs]
  | deleteNode id =>
    rcases hc : s.deleteNode id with ⟨r,u⟩
    cases r <;> simp only [Inner.mutate,hc,Prod.map_apply,Except.map,Prod.mk.injEq,reduceCtorEq,false_and,
      Except.ok.injEq] at hr
    simp [← hr.1,GraphOp.needs]
  | createEdge newEdge mint =>
    simp only [Inner.mutate,Inner.createEdge] at hr
    split_ifs at hr with hw hf ht
    · simp [Except.map] at hr
    · simp [Except.map] at hr
    · simp [Except.map] at hr
    · simp only [Prod.map_apply,Except.map,Prod.mk.injEq,Except.ok.injEq] at hr
      simp only [Map.contains_eq,Bool.not_eq_true',Bool.not_eq_false] at hf ht
      simp only [← hr.1,GraphOp.needs,NewEdge.intoEdge,List.mem_cons,List.not_mem_nil,or_false]
      rintro n (rfl | rfl)
      · exact hf
      · exact ht
  | updateEdge id patch =>
    simp only [Inner.mutate,Inner.updateEdge] at hr
    split at hr
    · simp [Except.map] at hr
    · cases he : s.edges[id]? with
      | none => simp [he,Except.map] at hr
      | some old =>
        -- the ends of an edge do not change
        obtain ⟨hf,ht⟩ := hi id old he
        simp only [he,Prod.map_apply,Except.map,Prod.mk.injEq,Except.ok.injEq] at hr
        simp only [← hr.1,GraphOp.needs,Inner.patchEdge,List.mem_cons,List.not_mem_nil,or_false]
        rintro n (rfl | rfl)
        · exact hf
        · exact ht
  | deleteEdge id =>
    rcases hc : s.deleteEdge id with ⟨r,u⟩
    cases r <;> simp only [Inner.mutate,hc,Prod.map_apply,Except.map,Prod.mk.injEq,reduceCtorEq,false_and,
      Except.ok.injEq] at hr
    simp [← hr.1,GraphOp.needs]

theorem DirectWrite.run_fits (hi : s.graph.Intact) {w : DirectWrite} {ops : List GraphOp}
    (hr : w.run s = (.ok ops,t)) : s.graph.Fits ops := by
  cases w with
  | mutation m =>
    rcases hm : s.mutate m true with ⟨r,u⟩
    cases r with
    | error e => simp [DirectWrite.run,hm,Except.map] at hr
    | ok op =>
      simp only [DirectWrite.run,hm,Prod.map_apply,Except.map,id,Prod.mk.injEq,Except.ok.injEq] at hr
      obtain ⟨rfl,-⟩ := hr
      exact ⟨Inner.mutate_needs hi hm,trivial⟩
  | setEmbedding id vector =>
    simp only [DirectWrite.run] at hr
    split_ifs at hr
    · obtain rfl := Except.ok.inj (Prod.mk.inj hr).1
      exact Graph.fits_of_needs_nil (by simp [GraphOp.needs])
    · simp at hr
  | setEmbeddings embeddings =>
    simp only [DirectWrite.run] at hr
    split at hr
    · simp at hr
    · obtain rfl := Except.ok.inj (Prod.mk.inj hr).1
      refine Graph.fits_of_needs_nil ?_
      intro op hop
      obtain ⟨p,-,rfl⟩ := List.mem_map.mp hop
      rfl
  | deleteEmbedding id =>
    obtain rfl := Except.ok.inj (Prod.mk.inj hr).1
    exact Graph.fits_of_needs_nil (by simp [GraphOp.needs])

theorem BatchWrite.mutateAll_fits (h : s.Wf) (hi : s.graph.Intact) {ms : List Mutation} {ops : List GraphOp}
    (hr : BatchWrite.mutateAll s ms = (.ok ops,t)) : s.graph.Fits ops := by
  induction ms generalizing s ops with
  | nil =>
    obtain rfl := Except.ok.inj (Prod.mk.inj hr).1
    trivial
  | cons m ms ih =>
    simp only [BatchWrite.mutateAll] at hr
    rcases hm : s.mutate m true with ⟨r,u⟩
    cases r with
    | error e => simp [hm] at hr
    | ok op =>
      simp only [hm] at hr
      rcases hrest : BatchWrite.mutateAll u ms with ⟨r,v⟩
      cases r with
      | error e => simp [hrest,Except.map] at hr
      | ok more =>
        simp only [hrest,Prod.map_apply,Except.map,id,Prod.mk.injEq,Except.ok.injEq] at hr
        obtain ⟨rfl,rfl⟩ := hr
        obtain rfl := Inner.mutate_ok h hm
        have hneeds := Inner.mutate_needs hi hm
        have hg := Inner.applyOp_graph h op
        refine ⟨hneeds,?_⟩
        rw [← hg]
        exact ih (Inner.applyOp_wf h op) (hg ▸ Graph.apply_intact hi hneeds) hrest

theorem BatchWrite.deleteAll_needs (s : Inner) (ids : List ℕ) :
    ∀ op ∈ (BatchWrite.deleteAll s ids).1, op.needs = [] := by
  induction ids generalizing s with
  | nil => simp [BatchWrite.deleteAll]
  | cons i ids ih =>
    simp only [BatchWrite.deleteAll]
    split
    · exact ih s
    · rename_i u hu
      intro op hop
      rcases List.mem_cons.mp hop with rfl | hop
      · rfl
      · exact ih u op hop

theorem BatchWrite.run_fits (h : s.Wf) (hi : s.graph.Intact) {w : BatchWrite} {ops : List GraphOp}
    (hr : w.run s = (.ok ops,t)) : s.graph.Fits ops := by
  cases w with
  | createNodes newNodes => exact BatchWrite.mutateAll_fits h hi hr
  | createEdges newEdges => exact BatchWrite.mutateAll_fits h hi hr
  | deleteNodes ids =>
    simp only [BatchWrite.run,Prod.map,Prod.mk.injEq,Except.ok.injEq,id] at hr
    exact Graph.fits_of_needs_nil (hr.1 ▸ BatchWrite.deleteAll_needs s ids)

theorem Inner.import_fits (h : s.Wf) {ns es : List GraphOp} (hn : ∀ op ∈ ns, ∃ node, op = .upsertNode node)
    (he : ∀ op ∈ es, ∃ edge, op = .upsertEdge edge ∧ (s.applyOps ns).nodes[edge.fromId]?.isSome ∧
      (s.applyOps ns).nodes[edge.toId]?.isSome) : s.graph.Fits (ns ++ es) := by
  rw [Graph.fits_append,← Inner.applyOps_graph h ns]
  refine ⟨Graph.fits_of_needs_nil ?_,?_⟩
  · intro op hop
    obtain ⟨node,rfl⟩ := hn op hop
    rfl
  · -- storing relationships leaves the nodes as they are
    have hstored : ∀ (es : List GraphOp) (g : Graph), (∀ op ∈ es, ∃ edge, op = .upsertEdge edge ∧
        g.nodes[edge.fromId]?.isSome ∧ g.nodes[edge.toId]?.isSome) → g.Fits es := by
      intro es
      induction es with
      | nil => exact fun g _ => trivial
      | cons op es ih =>
        intro g hall
        obtain ⟨edge,rfl,hf,ht⟩ := hall op (List.mem_cons_self ..)
        refine ⟨?_,ih _ (fun o ho => hall o (List.mem_cons_of_mem _ ho))⟩
        simp only [GraphOp.needs,List.mem_cons,List.not_mem_nil,or_false]
        rintro n (rfl | rfl)
        · exact hf
        · exact ht
    exact hstored es _ he

end Writes
/-! ## The engine -/

namespace Engine
variable [JsonText]

/-- The writes of an open transaction fit its snapshot, and a node of the snapshot that is gone
was deleted by a commit the history remembers. -/
structure SlotSound (e : Engine) (slot : TxSlot) : Prop where
  intact : slot.base.graph.Intact
  fits : slot.base.graph.Fits slot.ops
  gone : ∀ n, slot.base.graph.nodes[n]?.isSome → ¬ e.live.graph.nodes[n]?.isSome →
    ∃ p, e.history.Remembers slot.base.commitSeq e.live.commitSeq p ∧ .node n ∈ p.2.deletes

/-- One transaction at most is prepared, and its writes fit the live state. -/
def PreparedSound (s : Inner) : Prop :=
  ∀ (gid : String) (entry : PreparedEntry), s.prepared[gid]? = some entry →
    s.graph.Fits entry.ops ∧ ∀ other, s.prepared[other]?.isSome → other = gid

structure Sound (e : Engine) : Prop extends Inv e where
  intact : e.live.graph.Intact
  slotSound : ∀ (id : ℕ) (slot : TxSlot), e.txs[id]? = some slot → SlotSound e slot
  prepared : PreparedSound e.live

omit [JsonText] in
theorem SlotSound.advance {e e' : Engine} {slot : TxSlot} {ops : List GraphOp} (h : SlotSound e slot)
    (hl : LiveStep e e' ops) (hh : e.history.Held e.live.commitSeq)
    (hseq : slot.base.commitSeq ≤ e.live.commitSeq) : SlotSound e' slot := by
  refine ⟨h.intact,h.fits,?_⟩
  intro n hbase hgone
  have hg := hl.graph
  -- a step that keeps the nodes and the history keeps the witness
  have hkeep : (e.live.graph.nodes[n]?.isSome → e'.live.graph.nodes[n]?.isSome) →
      e'.live.commitSeq = e.live.commitSeq → e'.history = e.history →
      ∃ p, e'.history.Remembers slot.base.commitSeq e'.live.commitSeq p ∧ .node n ∈ p.2.deletes := by
    intro hn hs hist
    rw [hs,hist]
    exact h.gone n hbase (fun hin => hgone (hn hin))
  cases hl with
  | quiet hl he hist => exact hkeep (by rw [hl]; exact id) (by rw [hl]) hist
  | touched hg hs he hist => exact hkeep (by rw [hg]; exact id) hs hist
  | noted set hn hset =>
    rw [hn.seq,hn.history]
    by_cases hin : e.live.graph.nodes[n]?.isSome
    · -- this commit deleted the node
      have hdel : GraphOp.deleteNode n ∈ ops := by
        by_contra hno
        exact hgone (hg ▸ Graph.stored_applyAll hin hno)
      refine ⟨_,CommitHistory.remembers_new hh hseq set,?_⟩
      rcases hset with rfl | ⟨-,rfl⟩
      · simp only [ConflictSet.mem_fromOps_deletes]
        exact ⟨_,hdel,rfl,rfl⟩
      · simp at hdel
    · obtain ⟨p,hp,hdel⟩ := h.gone n hbase hin
      exact ⟨p,hp.push hh set,hdel⟩
  | unnoted hg' hs he hist hu =>
    refine hkeep (fun hin => hg ▸ Graph.stored_applyAll hin ?_) hs hist
    intro hdel
    exact absurd (hu _ hdel) (by simp [GraphOp.isUpsert])

theorem Sound.of_section {e e' : Engine} {ops : List GraphOp} (h : Sound e) (hs : Section e e' ops)
    (hf : e.live.graph.Fits ops) (hp : PreparedSound e'.live) : Sound e' where
  toInv := h.toInv.of_section hs
  intact := hs.live.graph ▸ h.intact.applyAll hf
  slotSound id slot hslot := by
    rw [hs.txs] at hslot
    exact (h.slotSound id slot hslot).advance hs.live h.history (h.slots id slot hslot).1.seq
  prepared := hp

omit [JsonText] in
theorem PreparedSound.of_eq {s t : Inner} (h : PreparedSound s) (hg : t.graph = s.graph)
    (hp : t.prepared = s.prepared) : PreparedSound t := by
  intro gid entry hentry
  rw [hp] at hentry ⊢
  rw [hg]
  exact h gid entry hentry

omit [JsonText] in
theorem PreparedSound.of_empty {s : Inner} (h : s.prepared = ∅) : PreparedSound s := by
  intro gid entry hentry
  rw [h] at hentry
  simp at hentry

theorem Sound.of_write {e e' : Engine} {ops : List GraphOp} (h : Sound e) (hs : WriteSection e e' ops)
    (hf : e.live.graph.Fits ops) : Sound e' := by
  have hprep := Inner.prepared_of_schema hs.schema
  refine h.of_section hs.toSection hf ?_
  rcases hs.free with rfl | hfree
  · exact h.prepared.of_eq hs.live.graph hprep
  · exact .of_empty (hprep.trans hfree)

theorem Sound.of_core {e e' : Engine} (h : Sound e) (hc : SameCore e e') : Sound e' :=
  h.of_write (.quiet h.live hc) trivial

theorem Sound.drop {e : Engine} (h : Sound e) (id : ℕ) : Sound { e with txs := e.txs.erase id } where
  toInv := h.toInv.drop id
  intact := h.intact
  slotSound i slot hs := by
    obtain ⟨hi,hf,hgone⟩ := h.slotSound i slot (get_erase_txs hs)
    exact ⟨hi,hf,hgone⟩
  prepared := h.prepared

/-! ### Direct writes -/

theorem direct_fits {e : Engine} (h : Sound e) (call : ℕ) (w : DirectWrite) :
    e.live.graph.Fits ((e.direct call w).1.toOption.getD []) := by
  unfold direct
  split_ifs
  · trivial
  · split
    · trivial
    · rcases hr : w.run (e.load e.live) with ⟨r,t⟩
      cases r with
      | error err => simp [withLive,hr,Except.toOption,Graph.Fits]
      | ok ops =>
        simp only [withLive,hr,Except.toOption,Option.getD_some]
        exact DirectWrite.run_fits (s := e.load e.live) h.intact hr

theorem batch_fits {e : Engine} (h : Sound e) (w : BatchWrite) (io : Bool) :
    e.live.graph.Fits ((e.batch w io).1.toOption.getD []) := by
  unfold batch
  split_ifs
  · trivial
  · split
    · trivial
    · rcases hr : w.run (e.load e.live) with ⟨r,t⟩
      cases r with
      | error err => trivial
      | ok ops =>
        simp only
        split_ifs
        · trivial
        · split
          · trivial
          · exact BatchWrite.run_fits h.live h.intact hr

/-! ### Transactions -/

theorem txBegin_sound {e : Engine} (h : Sound e) (isolation : Isolation) (limited : Bool) :
    Sound (e.txBegin isolation limited).2 where
  toInv := txBegin_inv h.toInv isolation limited
  intact := h.intact
  slotSound id slot hs := by
    simp only [txBegin,Map.get_insert] at hs
    split_ifs at hs with hid
    · obtain rfl := Option.some.inj hs
      exact ⟨h.intact,trivial,fun n hin hgone => absurd hin hgone⟩
    · obtain ⟨hi,hf,hgone⟩ := h.slotSound id slot hs
      exact ⟨hi,hf,hgone⟩
  prepared := h.prepared

theorem txWrite_sound {e : Engine} (h : Sound e) (id : ℕ) (m : Mutation) : Sound (e.txWrite id m).2 := by
  have hinv := txWrite_inv h.toInv id m
  unfold txWrite at hinv ⊢
  cases hslot : e.txs[id]? with
  | none => exact h
  | some slot =>
    rw [hslot] at hinv
    simp only at hinv ⊢
    cases hroom : (if slot.limited = true then e.checkTxRoom slot.ops.length else .ok ()) with
    | error err => exact h
    | ok u =>
      rw [hroom] at hinv
      refine ⟨hinv,h.intact,?_,h.prepared⟩
      intro i slot' hs'
      simp only [Map.get_insert] at hs'
      split_ifs at hs' with hi
      · obtain rfl := Option.some.inj hs'
        obtain ⟨hbase,hf,hgone⟩ := h.slotSound id slot hslot
        refine ⟨hbase,?_,hgone⟩
        have hg : (e.load slot.working).graph = slot.base.graph.applyAll slot.ops :=
          (h.slots id slot hslot).1.graph
        have hw : (e.load slot.working).graph.Intact := hg ▸ hbase.applyAll hf
        rcases hr : (e.load slot.working).mutate m false with ⟨r,t⟩
        cases r with
        | error err => exact hf
        | ok op =>
          have hneeds := Inner.mutate_needs hw hr
          rw [hg] at hneeds
          exact Graph.fits_append.mpr ⟨hf,hneeds,trivial⟩
      · obtain ⟨hbase,hf,hgone⟩ := h.slotSound i slot' hs'
        exact ⟨hbase,hf,hgone⟩

theorem fits_of_wouldPass {e : Engine} (h : Inv e) {slot : TxSlot} (hs : SlotSound e slot)
    (hc : e.history.classify slot.base.commitSeq (.fromOps slot.ops) = .wouldPass) :
    e.live.graph.Fits slot.ops := by
  refine hs.fits.mono ?_
  intro op hop n hneed hbase
  by_contra hgone
  obtain ⟨p,hp,hdel⟩ := hs.gone n hbase hgone
  have hdis := CommitHistory.classify_wouldPass h.history hc hp
  have hdep : Key.node n ∈ (ConflictSet.fromOps slot.ops).deps :=
    ConflictSet.mem_fromOps_deps.mpr ⟨op,hop,n,hneed,rfl⟩
  have hall := ConflictSet.everything_eq_false (List.ne_nil_of_mem hop) hdis
  exact (ConflictSet.intersects_eq_false hall hdis (ConflictSet.fromOps_everything _)).2.2 _ hdel hdep

omit [JsonText] in
theorem PreparedSound.commit {e : Engine} (h : PreparedSound e.live) {slot : TxSlot} (hf : e.PassesFence slot)
    {s : Inner} (hg : s.graph = e.live.graph.applyAll slot.ops) (hp : s.prepared = e.live.prepared) :
    PreparedSound s := by
  intro gid entry hentry
  rw [hp] at hentry ⊢
  obtain ⟨hfits,honly⟩ := h gid entry hentry
  refine ⟨?_,honly⟩
  rw [hg]
  refine hfits.mono ?_
  intro op hop n hneed hin
  refine Graph.stored_applyAll hin ?_
  intro hdel
  have hne : e.live.prepared.isEmpty = false := by
    rw [Bool.eq_false_iff]
    intro hempty
    rw [Std.ExtTreeMap.isEmpty_iff.mp hempty] at hentry
    simp at hentry
  have hdis := ConflictSet.intersects_eq_false (ConflictSet.fromOps_everything _) (hf hne)
    (Inner.preparedSet_everything _)
  have hdep := Inner.mem_preparedSet_deps hentry
    (ConflictSet.mem_fromOps_deps.mpr ⟨op,hop,n,hneed,rfl⟩)
  exact hdis.2.2 (.node n) (ConflictSet.mem_fromOps_deletes.mpr ⟨_,hdel,rfl,rfl⟩) hdep

theorem commitParts_sound {e : Engine} (h : Sound e) {slot : TxSlot} (hi : SlotInv e slot)
    (hs : SlotSound e slot) (io : Bool) : Sound (e.commitParts slot io).2 := by
  have hsec := commitParts_section h.live hi io
  have hprep := Inner.prepared_of_schema (commitParts_schema hi io)
  have hr := commitParts_result e slot io
  generalize e.commitParts slot io = r at hr hsec hprep
  obtain ⟨r,e'⟩ := r
  have hg := hsec.live.graph
  cases hr with
  | refused err _ ids hids hc hconflict => exact h.of_section hsec trivial (h.prepared.of_eq hg hprep)
  | empty ho => exact h
  | swapped _ hf he hv hp hc =>
    refine h.of_section hsec ?_ (h.prepared.commit hf hg hprep)
    exact hi.same he.symm ▸ hs.fits
  | replayed _ hf he hcl hv hp hc =>
    exact h.of_section hsec (fits_of_wouldPass h.toInv hs hcl) (h.prepared.commit hf hg hprep)

/-! ### Two-phase commit -/

theorem prepareParts_sound {e : Engine} (h : Sound e) {slot : TxSlot} (hi : SlotInv e slot)
    (hs : SlotSound e slot) (gid : String) (now : ℤ) (io : Bool) :
    Sound (e.prepareParts slot gid now io).2 := by
  have hsec := prepareParts_section h.live slot gid now io
  have hr := prepareParts_result e slot gid now io
  generalize e.prepareParts slot gid now io = r at hr hsec
  obtain ⟨r,e'⟩ := r
  cases hr with
  | refused err _ hc => exact h.of_core hc
  | prepared _ hp he hv hc =>
    refine h.of_section hsec trivial ?_
    -- nothing else is prepared, and the snapshot is the live state
    intro g entry hentry
    rw [hc.live] at hentry ⊢
    simp only [noteCommit,install,fenced,hp,Map.get_insert,Std.ExtTreeMap.getElem?_empty] at hentry ⊢
    split_ifs at hentry with hgid
    obtain rfl := Option.some.inj hentry
    refine ⟨hi.same he.symm ▸ hs.fits,?_⟩
    intro other hother
    split_ifs at hother with ho
    · exact ho.symm.trans hgid
    · simp at hother

theorem commitPrepared_sound {e : Engine} (h : Sound e) (gid : String) (io : Bool) :
    Sound (e.commitPrepared gid io).2 := by
  cases hg : e.live.prepared[gid]? with
  | none => rwa [commitPrepared_none hg]
  | some entry =>
    have hsec := commitPrepared_section h.live hg io
    obtain ⟨hfits,honly⟩ := h.prepared gid entry hg
    rcases commitPrepared_result e gid io with ⟨err,hr,hc⟩ | ⟨entry',hg',hr,hc⟩
    · exact h.of_core hc
    · rw [hr] at hsec
      refine h.of_section hsec hfits (.of_empty (Map.ext ?_))
      intro other
      have hprep : (e.commitPrepared gid io).2.live.prepared = e.live.prepared.erase gid :=
        congrArg Schema.prepared (commitPrepared_schema hr)
      rw [hprep,Map.get_erase,Std.ExtTreeMap.getElem?_empty]
      split_ifs with ho
      · rfl
      · by_contra hne
        exact ho (honly other (Option.isSome_iff_ne_none.mpr hne)).symm

theorem rollbackPreparedAs_sound {e : Engine} (h : Sound e) (gid : String) (heuristic io : Bool) :
    Sound (e.rollbackPreparedAs gid heuristic io).2 := by
  have hsec := rollbackPreparedAs_section h.live gid heuristic io
  rcases rollbackPreparedAs_schema e gid heuristic io with hc | ⟨hg,-,hschema⟩
  · exact h.of_core hc
  · refine h.of_section hsec trivial ?_
    intro g entry hentry
    have hprep : (e.rollbackPreparedAs gid heuristic io).2.live.prepared = e.live.prepared.erase gid :=
      congrArg Schema.prepared hschema
    rw [hprep,Map.get_erase] at hentry
    split_ifs at hentry with hgid
    exact absurd ((h.prepared g entry hentry).2 gid hg) hgid

/-! ### Every action -/

/-- A step of a merge that stores a relationship finds both its ends stored. -/
def EndsStored (e : Engine) : Action → Prop
  | .deltaStep id call current => e.calls.contains call = false → ∀ a b, e.mergedEnds id current = some (a,b) →
      e.live.nodes[a]?.isSome ∧ e.live.nodes[b]?.isSome
  | _ => True

theorem constraint_sound {e e' : Engine} (h : Sound e) (hs : Section e e' [])
    (hp : e'.live.prepared = e.live.prepared) : Sound e' :=
  h.of_section hs trivial (h.prepared.of_eq hs.live.graph hp)

theorem step_sound {e : Engine} {a : Action} (h : Sound e) (ha : e.EndsStored a) : Sound (e.step a) := by
  cases a with
  | direct call w =>
    simp only [step]
    split_ifs
    · exact h
    · exact h.of_write (direct_section h.live call w) (direct_fits h call w)
  | enqueue call encoded => exact h.of_core (enqueue_core e call encoded)
  | lead => exact h.of_core (by constructor <;> rfl)
  | finish io => exact h.of_core (by constructor <;> rfl)
  | await call => exact h.of_core (await_core e call)
  | batch w io => exact h.of_write (batch_section h.live w io) (batch_fits h w io)
  | txBegin isolation limited => exact txBegin_sound h isolation limited
  | txWrite id m => exact txWrite_sound h id m
  | txCommit id io =>
    simp only [step,txCommit]
    split
    · exact h
    · rename_i slot hslot
      obtain ⟨hi,hf,hgone⟩ := h.slotSound id slot hslot
      have hinv := (h.slots id slot hslot).1
      exact commitParts_sound (h.drop id) ⟨hinv.wf,hinv.baseWf,hinv.replay,hinv.epoch,hinv.same,hinv.seq⟩
        ⟨hi,hf,hgone⟩ io
  | txRollback id => exact h.drop id
  | txPrepare id gid now io =>
    simp only [step,txPrepare]
    split
    · exact h
    · rename_i slot hslot
      obtain ⟨hi,hf,hgone⟩ := h.slotSound id slot hslot
      have hinv := (h.slots id slot hslot).1
      exact prepareParts_sound (h.drop id) ⟨hinv.wf,hinv.baseWf,hinv.replay,hinv.epoch,hinv.same,hinv.seq⟩
        ⟨hi,hf,hgone⟩ gid now io
  | commitPrepared gid io => exact commitPrepared_sound h gid io
  | rollbackPrepared gid heuristic io => exact rollbackPreparedAs_sound h gid heuristic io
  | addConstraint c =>
    refine constraint_sound h (addConstraint_section h.live c) ?_
    rcases addConstraint_result e c with he | ⟨-,-,he⟩ <;> simp only [step,he] <;> rfl
  | removeConstraint c =>
    refine constraint_sound h (removeConstraint_section h.live c) ?_
    rcases removeConstraint_result e c with he | ⟨he,-⟩ <;> simp only [step,he] <;> rfl
  | applyDump call dump =>
    simp only [step]
    split_ifs
    · exact h
    · obtain ⟨ns,es,hs,hn,he⟩ := applyDump_section h.live call dump
      exact h.of_write hs (Inner.import_fits h.live hn he)
  | deltaBegin id changes tomb => exact h.of_core (by constructor <;> rfl)
  | deltaStep id call current =>
    simp only [step]
    split_ifs with hcall
    · exact h
    · rcases deltaStep_section h.live id call current with ⟨-,ops,hs,hops⟩ | ⟨edge,hends,hs⟩
      · refine h.of_write hs (Graph.fits_of_needs_nil ?_)
        intro op hop
        cases op with
        | upsertEdge edge => exact absurd hop (hops edge)
        | _ => rfl
      · obtain ⟨hf,ht⟩ := ha (Bool.eq_false_iff.mpr hcall) _ _ hends
        refine h.of_write hs ⟨?_,trivial⟩
        simp only [GraphOp.needs,List.mem_cons,List.not_mem_nil,or_false]
        rintro n (rfl | rfl)
        · exact hf
        · exact ht

theorem new_sound (capacity : ℕ) (readOnly : Bool) (maxTxWrites : Option ℕ) (durable : Bool) :
    Sound (new capacity readOnly maxTxWrites durable) where
  toInv := new_inv capacity readOnly maxTxWrites durable
  intact id edge h := by simp [new,Inner.graph] at h
  slotSound id slot h := by simp [new] at h
  prepared := .of_empty rfl

theorem endsStored_of_intact {e : Engine} (h : Inv e) {a : Action} (hi : (e.step a).live.graph.Intact) :
    e.EndsStored a := by
  cases a with
  | deltaStep id call current =>
    intro hcall f t hends
    simp only [step,hcall,Bool.false_eq_true,if_false] at hi
    rcases deltaStep_section h.live id call current with ⟨hnone,-⟩ | ⟨edge,hsome,hs⟩
    · rw [hnone] at hends
      simp at hends
    · rw [hsome] at hends
      obtain ⟨rfl,rfl⟩ := Prod.mk.inj (Option.some.inj hends)
      rw [hs.live.graph] at hi
      exact hi edge.id edge (by simp [Graph.apply])
  | _ => trivial

/-- In every state of a run, under any interleaving, every relationship has its ends among the
stored nodes, exactly if each step of a merge that stores a relationship finds them stored. -/
theorem edges_have_ends_iff (capacity : ℕ) (readOnly : Bool) (maxTxWrites : Option ℕ) (durable : Bool)
    (as : List Action) :
    (∀ bs, bs <+: as → ((new capacity readOnly maxTxWrites durable).run bs).live.graph.Intact) ↔
      ∀ t ∈ (new capacity readOnly maxTxWrites durable).trace as, t.1.EndsStored t.2 := by
  constructor
  · intro h t ht
    obtain ⟨bs,hp,ht⟩ := mem_trace.mp ht
    have hi := h _ hp
    rw [run_append] at hi
    rw [ht]
    exact endsStored_of_intact (run_inv (new_inv _ _ _ _) bs) hi
  · intro h bs hp
    have hs : Sound ((new capacity readOnly maxTxWrites durable).run bs) := by
      refine run_invariant (p := Sound) (q := EndsStored) (fun _ _ => step_sound) (new_sound _ _ _ _) bs ?_
      intro t ht
      obtain ⟨cs,hcs,hrun⟩ := mem_trace.mp ht
      exact h t (mem_trace.mpr ⟨cs,hcs.trans hp,hrun⟩)
    exact hs.intact

end Engine

namespace Engine
section Sample
attribute [local instance] Json.compactText

/-- Two nodes are stored; a merge that brings a relationship between them reads its identity
map; the second node is deleted before the merge takes the lock. -/
def mergeAfterDeletion : List Action :=
  [.direct 1 (.mutation (.createNode (.titled "Note" "a") ⟨5,1⟩)),
   .direct 2 (.mutation (.createNode (.titled "Note" "b") ⟨5,2⟩)),
   .deltaBegin 1 [.edge ((NewEdge.plain 0 0 "LINKS").intoEdge 1 ⟨6,3⟩) 1 2 (toLex (6,toLex (0,1)))] ∅,
   .direct 3 (.mutation (.deleteNode 2)),
   .deltaStep 1 4 (fun _ => none)]

theorem merge_after_deletion_dangles : ¬ ((new 10000 false none true).run mergeAfterDeletion).live.graph.Intact := by
  intro h
  have hedge := h 1 ((NewEdge.plain 1 2 "LINKS").intoEdge 1 ⟨6,3⟩) (by decide +kernel)
  exact absurd hedge.2 (by decide +kernel)

end Sample
end Engine
end Drevo
