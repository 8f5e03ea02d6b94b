import Drevo.Core.Wf

/-! The live mutations and the log: a mutation that succeeds leaves exactly the state that
applying its logged operation would, and one that fails changes the id counters only. -/
namespace Drevo
open Lib

theorem Mirrors.unique {adj adj' : Adjacency} {edges : Map ℕ Edge} {kindIds : Map String ℕ}
    {near far : Edge → ℕ} (h : Mirrors adj edges kindIds near far)
    (h' : Mirrors adj' edges kindIds near far) (hk : ∀ n : ℕ, adj[n]?.isSome = adj'[n]?.isSome) :
    adj = adj' := by
  apply Map.ext
  intro n
  have hl := h.list_unique h' n
  have hn := hk n
  simp only [Adjacency.list] at hl
  cases ha : adj[n]? with
  | none =>
    rw [ha] at hn
    exact (Option.not_isSome_iff_eq_none.mp (by simp [← hn])).symm
  | some v =>
    rw [ha] at hn hl
    obtain ⟨w,hw⟩ := Option.isSome_iff_exists.mp hn.symm
    simp only [hw,Option.getD_some] at hl ⊢
    rw [hl]

namespace Adjacency

theorem isSome_modify (m : Adjacency) (id n : ℕ) (f : List AdjEntry → List AdjEntry) :
    (m.modify id f)[n]?.isSome = m[n]?.isSome := by
  unfold modify
  cases h : m[id]? with
  | none => rfl
  | some v =>
    rw [Map.get_insert]
    split_ifs with hn
    · rw [← hn,h]
      rfl
    · rfl

theorem isSome_insertAdjSorted {m : Adjacency} {id : ℕ} (h : m[id]?.isSome) (n : ℕ) (e : AdjEntry) :
    (m.insertAdjSorted id e)[n]?.isSome = m[n]?.isSome := by
  rw [insertAdjSorted,Map.get_insert]
  split_ifs with hn
  · rw [← hn,h]
    rfl
  · rfl

end Adjacency

theorem Mirrors.isSome {adj : Adjacency} {edges : Map ℕ Edge} {kindIds : Map String ℕ}
    {near far : Edge → ℕ} (h : Mirrors adj edges kindIds near far) {id : ℕ} {e : Edge}
    (he : edges[id]? = some e) (hk : ∃ i, kindIds[e.kind]? = some i) : adj[near e]?.isSome := by
  obtain ⟨i,hi⟩ := hk
  have hm := (h.mem (near e) ⟨id,far e,i⟩).mpr ⟨e,he,rfl,rfl,hi⟩
  by_contra hc
  rw [Option.not_isSome_iff_eq_none] at hc
  simp [Adjacency.list,hc] at hm

namespace Inner

/-- The states hold the same data; the id counters may differ. -/
def Agree (s t : Inner) : Prop := { s with ids := t.ids } = t

theorem Agree.refl (s : Inner) : Agree s s := rfl

theorem Agree.trans {s t u : Inner} (h : Agree s t) (h' : Agree t u) : Agree s u := by
  unfold Agree at *
  rw [← h',← h]

theorem Agree.symm {s t : Inner} (h : Agree s t) : Agree t s := by
  unfold Agree at *
  rw [← h]

theorem Agree.commitSeq {s t : Inner} (h : Agree s t) : t.commitSeq = s.commitSeq := by
  unfold Agree at h
  rw [← h]

theorem Agree.graph {s t : Inner} (h : Agree s t) : s.graph = t.graph := by
  unfold Agree at h
  rw [← h]
  rfl

section Mutations
variable [JsonText]

/-! ## Nodes -/

theorem createNodeChecked_ok {s t : Inner} (h : Wf s) {newNode : NewNode} {mint : Mint} {require : Bool}
    {node : Node} (hr : s.createNodeChecked newNode mint require = (.ok node,t)) :
    t = s.upsertNode node := by
  have hid : (newNode.intoNode (s.ids.node+1) mint).id = s.ids.node+1 := rfl
  have hfree : s.nodes[s.ids.node+1]? = none := by
    cases hn : s.nodes[s.ids.node+1]? with
    | none => rfl
    | some n => exact absurd (h.nodes.bound _ n hn) (by omega)
  unfold createNodeChecked at hr
  simp only at hr
  split at hr
  · simp at hr
  · obtain ⟨hnode,ht⟩ := Prod.mk.inj hr
    obtain rfl := Except.ok.inj hnode
    have hu : s.unindexNode (s.ids.node+1) = s := by simp only [unindexNode,hfree]
    rw [← ht,upsertNode_eq,hid,hu]
    have hmax : s.ids.observeNode (s.ids.node+1) = { s.ids with node := s.ids.node+1 } := by
      simp [IdCounters.observeNode]
    rw [hmax]
    rfl

theorem createNodeChecked_err {s t : Inner} {newNode : NewNode} {mint : Mint} {require : Bool}
    {e : CoreError} (hr : s.createNodeChecked newNode mint require = (.error e,t)) :
    Agree s t ∧ s.ids.node ≤ t.ids.node ∧ s.ids.edge ≤ t.ids.edge := by
  unfold createNodeChecked at hr
  simp only at hr
  split at hr
  · obtain ⟨-,rfl⟩ := Prod.mk.inj hr
    exact ⟨rfl,Nat.le_succ _,le_rfl⟩
  · simp at hr

theorem retitle_eq {s : Inner} (h : NodeIndexes s) {id : ℕ} {old : Node} (hold : s.nodes[id]? = some old)
    (title : String) :
    (if old.title = title then s else (s.unindexTitle id old.title).indexTitle id title) =
      { s with titles := (s.titles.remove old.title id).add title id } := by
  split_ifs with ht
  · subst ht
    rw [Index.add_remove h.titles.tight ((h.titles.mem _ _).mpr ⟨old,hold,rfl⟩)]
  · rfl

theorem rekindNode_eq {s : Inner} (h : NodeIndexes s) {id : ℕ} {old : Node}
    (hold : s.nodes[id]? = some old) (kind : String) (titles : Index String ℕ) :
    (if old.kind = kind then { s with titles := titles }
      else ({ s with titles := titles }.unindexNodeKind id old.kind).indexNodeKind id kind) =
      { s with titles := titles, kindIndex := (s.kindIndex.remove old.kind id).add kind id } := by
  split_ifs with hk
  · subst hk
    rw [Index.add_remove h.kinds.tight ((h.kinds.mem _ _).mpr ⟨old,hold,rfl⟩)]
  · rfl

theorem coveredKey_updatedAt (node : Node) (ts : ℤ) (tuple : UniqueTuple) :
    coveredKey { node with updatedAt := ts } tuple = coveredKey node tuple := by
  unfold coveredKey
  rw [hasLabel_congr (a := { node with updatedAt := ts }) (b := node) rfl rfl,
    tupleKey_congr (a := { node with updatedAt := ts }) (b := node) rfl rfl rfl]

theorem indexUnique_updatedAt (s : Inner) (node : Node) (ts : ℤ) :
    (s.indexUnique { node with updatedAt := ts }).unique = (s.indexUnique node).unique := by
  simp only [indexUnique_unique,coveredKey_updatedAt]

theorem updateNodeChecked_ok {s t : Inner} (h : Wf s) {id : ℕ} {patch : NodePatch} {mint : Mint}
    {require : Bool} {node : Node} (hr : s.updateNodeChecked id patch mint require = (.ok node,t)) :
    t = s.upsertNode node := by
  unfold updateNodeChecked at hr
  cases hold : s.nodes[id]? with
  | none => simp [hold] at hr
  | some old =>
    obtain rfl : old.id = id := h.nodes.key id old hold
    simp only [hold,retitle_eq h.nodes hold,rekindNode_eq h.nodes hold] at hr
    split at hr
    · simp at hr
    · obtain ⟨hnode,ht⟩ := Prod.mk.inj hr
      obtain rfl := Except.ok.inj hnode
      have hu : s.unindexNode (patchNode old patch).id =
          ((s.unindexTitle old.id old.title).unindexNodeKind old.id old.kind).unindexUnique old := by
        simp only [patchNode,unindexNode,hold]
      have hmax : s.ids.observeNode (patchNode old patch).id = s.ids := by
        simp [patchNode,IdCounters.observeNode,h.nodes.bound _ old hold]
      have hts : max s.lastUpdatedAt (s.nextUpdatedAt mint.now) = s.nextUpdatedAt mint.now :=
        max_eq_right ((Int.le_add_one le_rfl).trans (le_max_right _ _))
      rw [← ht,upsertNode_eq]
      simp only [hu,hmax]
      congr 1
      · exact (indexUnique_updatedAt _ _ _).symm
      · exact hts.symm

theorem updateNodeChecked_err {s t : Inner} {id : ℕ} {patch : NodePatch} {mint : Mint} {require : Bool}
    {e : CoreError} (hr : s.updateNodeChecked id patch mint require = (.error e,t)) : t = s := by
  unfold updateNodeChecked at hr
  split at hr
  · exact (Prod.mk.inj hr).2.symm
  · simp only at hr
    split at hr
    · exact (Prod.mk.inj hr).2.symm
    · simp at hr

/-! ## Edges -/

omit [JsonText] in
theorem internKind_eq (s : Inner) (kind : String) :
    (s.internKind kind).2 = { s with kindIds := (s.internKind kind).2.kindIds } := by
  unfold internKind
  split <;> rfl

omit [JsonText] in
theorem internKind_congr {s t : Inner} (h : s.kindIds = t.kindIds) (kind : String) :
    (s.internKind kind).1 = (t.internKind kind).1 ∧
      (s.internKind kind).2.kindIds = (t.internKind kind).2.kindIds := by
  unfold internKind
  rw [h]
  split
  · exact ⟨rfl,h⟩
  · exact ⟨rfl,rfl⟩

omit [JsonText] in
theorem upsertEdge_fields (s : Inner) (edge : Edge) :
    s.upsertEdge edge = { s with
      kindIds := (s.internKind edge.kind).2.kindIds
      outAdj := (s.removeEdge edge.id).outAdj.insertAdjSorted edge.fromId
        ⟨edge.id,edge.toId,(s.internKind edge.kind).1⟩
      inAdj := (s.removeEdge edge.id).inAdj.insertAdjSorted edge.toId
        ⟨edge.id,edge.fromId,(s.internKind edge.kind).1⟩
      edges := s.edges.insert edge.id edge
      ids := s.ids.observeEdge edge.id } := by
  have he := upsertEdge_edges s edge
  have hf := removeEdge_frame s edge.id
  rw [upsertEdge_eq] at he ⊢
  obtain ⟨hi,hk⟩ := internKind_congr (t := s)
    (s := { s.removeEdge edge.id with ids := (s.removeEdge edge.id).ids.observeEdge edge.id })
    hf.kindIds edge.kind
  unfold placeEdge at he ⊢
  simp only at he ⊢
  rw [he,hi,internKind_eq,hk]
  simp only [hf.nodes,hf.titles,hf.kindIndex,hf.embeddings,hf.constraints,hf.unique,hf.ids,
    hf.lastUpdatedAt,hf.prepared,hf.heuristic,hf.commitSeq]

theorem createEdge_ok {s t : Inner} (h : Wf s) {newEdge : NewEdge} {mint : Mint} {edge : Edge}
    (hr : s.createEdge newEdge mint = (.ok edge,t)) :
    t = s.upsertEdge edge ∧ s.nodes.contains edge.fromId ∧ s.nodes.contains edge.toId := by
  unfold createEdge at hr
  split_ifs at hr with hw hf ht
  · simp at hr
  · simp at hr
  · simp at hr
  · obtain ⟨hedge,hs⟩ := Prod.mk.inj hr
    obtain rfl := Except.ok.inj hedge
    refine ⟨?_,by simpa [NewEdge.intoEdge] using hf,by simpa [NewEdge.intoEdge] using ht⟩
    have hid : (newEdge.intoEdge (s.ids.edge+1) mint).id = s.ids.edge+1 := rfl
    have hfree : s.edges[s.ids.edge+1]? = none := by
      cases hn : s.edges[s.ids.edge+1]? with
      | none => rfl
      | some e => exact absurd (h.edges.bound _ e hn) (by omega)
    have hmax : s.ids.observeEdge (s.ids.edge+1) = { s.ids with edge := s.ids.edge+1 } := by
      simp [IdCounters.observeEdge]
    rw [← hs,upsertEdge_eq,hid,removeEdge_none hfree,hmax]

omit [JsonText] in
theorem createEdge_err {s t : Inner} {newEdge : NewEdge} {mint : Mint} {e : CoreError}
    (hr : s.createEdge newEdge mint = (.error e,t)) : t = s := by
  unfold createEdge at hr
  split_ifs at hr with hw hf ht
  · exact (Prod.mk.inj hr).2.symm
  · exact (Prod.mk.inj hr).2.symm
  · exact (Prod.mk.inj hr).2.symm
  · simp at hr

omit [JsonText] in
theorem updateEdge_err {s t : Inner} {id : ℕ} {patch : EdgePatch} {e : CoreError}
    (hr : s.updateEdge id patch = (.error e,t)) : t = s := by
  unfold updateEdge at hr
  split at hr
  · exact (Prod.mk.inj hr).2.symm
  · split at hr
    · exact (Prod.mk.inj hr).2.symm
    · simp at hr

/-- The edges decide what stands in the adjacency lists, so replacing an edge in place leaves
the same lists as taking it out and filing it again. -/
theorem replaceEdge_eq {s t : Inner} (h : Wf s) {old : Edge} (edge : Edge) (hold : s.edges[edge.id]? = some old)
    (hf : edge.fromId = old.fromId) (ht : edge.toId = old.toId)
    (ho : Mirrors t.outAdj (s.edges.insert edge.id edge) (s.internKind edge.kind).2.kindIds
      Edge.fromId Edge.toId)
    (hi : Mirrors t.inAdj (s.edges.insert edge.id edge) (s.internKind edge.kind).2.kindIds
      Edge.toId Edge.fromId)
    (hos : ∀ n : ℕ, t.outAdj[n]?.isSome = s.outAdj[n]?.isSome)
    (his : ∀ n : ℕ, t.inAdj[n]?.isSome = s.inAdj[n]?.isSome)
    (hrest : t = { s with
      kindIds := (s.internKind edge.kind).2.kindIds
      outAdj := t.outAdj
      inAdj := t.inAdj
      edges := s.edges.insert edge.id edge }) :
    t = s.upsertEdge edge := by
  have hwf := (upsertEdge_wf h edge).edges
  have hk := h.edges.interned _ _ hold
  have hmax : s.ids.observeEdge edge.id = s.ids := by
    simp [IdCounters.observeEdge,h.edges.bound _ _ hold]
  have hrem : (s.removeEdge edge.id).outAdj =
        s.outAdj.modify old.fromId (fun v => v.filter (fun e => e.edgeId ≠ edge.id)) ∧
      (s.removeEdge edge.id).inAdj =
        s.inAdj.modify old.toId (fun v => v.filter (fun e => e.edgeId ≠ edge.id)) := by
    simp only [removeEdge,hold,and_self]
  have hout := hwf.outAdj
  have hin := hwf.inAdj
  rw [upsertEdge_fields] at hout hin ⊢
  rw [hrest,hmax,ho.unique hout ?_,hi.unique hin ?_]
  · intro n
    simp only [hrem.2]
    rw [his,Adjacency.isSome_insertAdjSorted,Adjacency.isSome_modify]
    rw [Adjacency.isSome_modify,ht]
    exact h.edges.inAdj.isSome hold hk
  · intro n
    simp only [hrem.1]
    rw [hos,Adjacency.isSome_insertAdjSorted,Adjacency.isSome_modify]
    rw [Adjacency.isSome_modify,hf]
    exact h.edges.outAdj.isSome hold hk

theorem updateEdge_ok {s t : Inner} (h : Wf s) {id : ℕ} {patch : EdgePatch} {edge : Edge}
    (hr : s.updateEdge id patch = (.ok edge,t)) : t = s.upsertEdge edge := by
  unfold updateEdge at hr
  split at hr
  · simp at hr
  · cases hold : s.edges[id]? with
    | none => simp [hold] at hr
    | some old =>
      obtain rfl : old.id = id := h.edges.key id old hold
      have hi := h.edges.interned _ _ hold
      simp only [hold] at hr
      obtain ⟨hedge,hs⟩ := Prod.mk.inj hr
      obtain rfl := Except.ok.inj hedge
      obtain ⟨h',hk⟩ := internKind_indexes h.edges (patchEdge old patch).kind
      rw [← hs]
      split_ifs with hkind
      · have hold' : (s.internKind (patchEdge old patch).kind).2.edges[old.id]? = some old := by
          rwa [internKind_edges]
        have hi' := h'.interned _ _ hold'
        have ho := h'.outAdj.insert_rekind (e := patchEdge old patch) hold' rfl rfl hk hi'
        have hin := h'.inAdj.insert_rekind (e := patchEdge old patch) hold' rfl rfl hk hi'
        rw [internKind_eq] at ho hin ⊢
        exact replaceEdge_eq h (patchEdge old patch) hold rfl rfl ho hin
          (fun n => Adjacency.isSome_modify _ _ _ _) (fun n => Adjacency.isSome_modify _ _ _ _) rfl
      · have hpk : (patchEdge old patch).kind = old.kind := by
          have hn : patch.kind = none := by simpa using hkind
          simp [patchEdge,hn]
        have hsame : (s.internKind (patchEdge old patch).kind).2 = s := by
          obtain ⟨i,hi⟩ := hi
          simp only [internKind,hpk,hi]
        have hkd := congrArg Inner.kindIds hsame
        refine replaceEdge_eq h (patchEdge old patch) hold rfl rfl ?_ ?_ (fun n => rfl)
          (fun n => rfl) ?_
        · rw [hkd]
          exact h.edges.outAdj.insert_same hold rfl rfl hpk
        · rw [hkd]
          exact h.edges.inAdj.insert_same hold rfl rfl hpk
        · rw [hkd]
          rfl

/-! ## One mutation -/

theorem mutate_ok {s t : Inner} (h : Wf s) {m : Mutation} {require : Bool} {op : GraphOp}
    (hr : s.mutate m require = (.ok op,t)) : t = s.applyOp op := by
  cases m with
  | createNode newNode mint =>
    rcases hc : s.createNodeChecked newNode mint require with ⟨r,u⟩
    cases r with
    | error e => simp [mutate,hc,Except.map] at hr
    | ok node =>
      simp only [mutate,hc,Prod.map_apply,Except.map,id,Prod.mk.injEq,Except.ok.injEq] at hr
      obtain ⟨rfl,rfl⟩ := hr
      exact createNodeChecked_ok h hc
  | updateNode i patch mint =>
    rcases hc : s.updateNodeChecked i patch mint require with ⟨r,u⟩
    cases r with
    | error e => simp [mutate,hc,Except.map] at hr
    | ok node =>
      simp only [mutate,hc,Prod.map_apply,Except.map,id,Prod.mk.injEq,Except.ok.injEq] at hr
      obtain ⟨rfl,rfl⟩ := hr
      exact updateNodeChecked_ok h hc
  | deleteNode i =>
    cases hn : s.nodes[i]? with
    | none => simp [mutate,deleteNode,hn,Except.map] at hr
    | some node =>
      simp only [mutate,deleteNode,hn,Prod.map_apply,Except.map,id,Prod.mk.injEq,Except.ok.injEq] at hr
      obtain ⟨rfl,rfl⟩ := hr
      simp only [applyOp,hn]
  | createEdge newEdge mint =>
    rcases hc : s.createEdge newEdge mint with ⟨r,u⟩
    cases r with
    | error e => simp [mutate,hc,Except.map] at hr
    | ok edge =>
      simp only [mutate,hc,Prod.map_apply,Except.map,id,Prod.mk.injEq,Except.ok.injEq] at hr
      obtain ⟨rfl,rfl⟩ := hr
      exact (createEdge_ok h hc).1
  | updateEdge i patch =>
    rcases hc : s.updateEdge i patch with ⟨r,u⟩
    cases r with
    | error e => simp [mutate,hc,Except.map] at hr
    | ok edge =>
      simp only [mutate,hc,Prod.map_apply,Except.map,id,Prod.mk.injEq,Except.ok.injEq] at hr
      obtain ⟨rfl,rfl⟩ := hr
      exact updateEdge_ok h hc
  | deleteEdge i =>
    simp only [mutate,deleteEdge] at hr
    split_ifs at hr with hc
    · simp only [Prod.map_apply,Except.map,id,Prod.mk.injEq,Except.ok.injEq] at hr
      obtain ⟨rfl,rfl⟩ := hr
      rfl
    · simp [Except.map] at hr

/-- A failed mutation can have used up an id and has changed nothing else. -/
theorem mutate_err {s t : Inner} {m : Mutation} {require : Bool} {e : CoreError}
    (hr : s.mutate m require = (.error e,t)) :
    Agree s t ∧ s.ids.node ≤ t.ids.node ∧ s.ids.edge ≤ t.ids.edge := by
  have hsame : t = s → Agree s t ∧ s.ids.node ≤ t.ids.node ∧ s.ids.edge ≤ t.ids.edge := by
    rintro rfl
    exact ⟨rfl,le_rfl,le_rfl⟩
  cases m with
  | createNode newNode mint =>
    rcases hc : s.createNodeChecked newNode mint require with ⟨r,u⟩
    cases r with
    | ok node => simp [mutate,hc,Except.map] at hr
    | error e =>
      simp only [mutate,hc,Prod.map_apply,id,Prod.mk.injEq] at hr
      obtain ⟨-,rfl⟩ := hr
      exact createNodeChecked_err hc
  | updateNode i patch mint =>
    rcases hc : s.updateNodeChecked i patch mint require with ⟨r,u⟩
    cases r with
    | ok node => simp [mutate,hc,Except.map] at hr
    | error e =>
      simp only [mutate,hc,Prod.map_apply,id,Prod.mk.injEq] at hr
      obtain ⟨-,rfl⟩ := hr
      exact hsame (updateNodeChecked_err hc)
  | deleteNode i =>
    cases hn : s.nodes[i]? with
    | none =>
      simp only [mutate,deleteNode,hn,Prod.map_apply,id,Prod.mk.injEq] at hr
      exact hsame hr.2.symm
    | some node => simp [mutate,deleteNode,hn,Except.map] at hr
  | createEdge newEdge mint =>
    rcases hc : s.createEdge newEdge mint with ⟨r,u⟩
    cases r with
    | ok edge => simp [mutate,hc,Except.map] at hr
    | error e =>
      simp only [mutate,hc,Prod.map_apply,id,Prod.mk.injEq] at hr
      obtain ⟨-,rfl⟩ := hr
      exact hsame (createEdge_err hc)
  | updateEdge i patch =>
    rcases hc : s.updateEdge i patch with ⟨r,u⟩
    cases r with
    | ok edge => simp [mutate,hc,Except.map] at hr
    | error e =>
      simp only [mutate,hc,Prod.map_apply,id,Prod.mk.injEq] at hr
      obtain ⟨-,rfl⟩ := hr
      exact hsame (updateEdge_err hc)
  | deleteEdge i =>
    simp only [mutate,deleteEdge] at hr
    split_ifs at hr with hc
    · simp [Except.map] at hr
    · simp only [Prod.map_apply,id,Prod.mk.injEq] at hr
      exact hsame hr.2.symm

theorem Wf.of_agree {s t : Inner} (h : Wf s) (ha : Agree s t) (hn : s.ids.node ≤ t.ids.node)
    (he : s.ids.edge ≤ t.ids.edge) : Wf t := by
  unfold Agree at ha
  rw [← ha]
  exact ⟨h.nodes.congr rfl rfl rfl rfl hn,h.edges.congr rfl rfl rfl rfl he⟩

theorem mutate_wf {s : Inner} (h : Wf s) (m : Mutation) (require : Bool) : Wf (s.mutate m require).2 := by
  rcases hr : s.mutate m require with ⟨r,t⟩
  cases r with
  | ok op => exact mutate_ok h hr ▸ applyOp_wf h op
  | error e =>
    obtain ⟨ha,hn,he⟩ := mutate_err hr
    exact h.of_agree ha hn he

/-! ## Applying to states that agree -/

omit [JsonText] in
theorem removeEdge_ids (s : Inner) (ids : IdCounters) (id : ℕ) :
    Inner.removeEdge { s with ids := ids } id = { s.removeEdge id with ids := ids } := by
  cases h : s.edges[id]? with
  | none => simp only [removeEdge,h]
  | some edge => simp only [removeEdge,h]

omit [JsonText] in
theorem removeEdges_ids (l : List ℕ) (s : Inner) (ids : IdCounters) :
    l.foldl removeEdge { s with ids := ids } = { l.foldl removeEdge s with ids := ids } := by
  induction l generalizing s with
  | nil => rfl
  | cons id l ih =>
    rw [List.foldl_cons,removeEdge_ids,ih]
    rfl

theorem unindexNode_ids (s : Inner) (ids : IdCounters) (id : ℕ) :
    Inner.unindexNode { s with ids := ids } id = { s.unindexNode id with ids := ids } := by
  cases h : s.nodes[id]? with
  | none => simp only [unindexNode,h]
  | some old => simp only [unindexNode,h]; rfl

theorem dropNode_ids (s : Inner) (ids : IdCounters) (id : ℕ) (node : Node) :
    Inner.dropNode { s with ids := ids } id node = { s.dropNode id node with ids := ids } := by
  have hi : Inner.incidentEntries { s with ids := ids } id .both = s.incidentEntries id .both := rfl
  simp only [dropNode,hi,removeEdges_ids]
  rfl

theorem Agree.applyOp {s t : Inner} (h : Agree s t) (op : GraphOp) : Agree (s.applyOp op) (t.applyOp op) := by
  unfold Agree at h
  rw [← h]
  generalize t.ids = ids
  cases op with
  | upsertNode node =>
    simp only [Inner.applyOp,upsertNode_eq,unindexNode_ids]
    rfl
  | deleteNode id =>
    cases hn : s.nodes[id]? with
    | none =>
      simp only [Inner.applyOp,hn]
      rfl
    | some node =>
      simp only [Inner.applyOp,hn,Agree,dropNode_ids s ids]
  | upsertEdge edge =>
    have hi := internKind_congr (s := { s with ids := ids }) (t := s) rfl edge.kind
    simp only [Inner.applyOp,upsertEdge_fields,removeEdge_ids,hi.1,hi.2]
    rfl
  | deleteEdge id =>
    simp only [Inner.applyOp,removeEdge_ids]
    rfl
  | setEmbedding id vector => rfl
  | deleteEmbedding id => rfl

theorem Agree.applyOps {s t : Inner} (h : Agree s t) (ops : List GraphOp) :
    Agree (s.applyOps ops) (t.applyOps ops) := by
  induction ops generalizing s t with
  | nil => exact h
  | cons op ops ih => exact ih (h.applyOp op)

/-! ## A sequence of mutations -/

/-- Run mutations one after another, collecting what the successful ones log. -/
def runMutations (s : Inner) : List (Mutation × Bool) → List GraphOp × Inner
  | [] => ([],s)
  | (m,require) :: rest =>
    match s.mutate m require with
    | (.ok op,t) => ((t.runMutations rest).1.cons op,(t.runMutations rest).2)
    | (.error _,t) => t.runMutations rest

theorem runMutations_applyOps {s : Inner} (h : Wf s) (ms : List (Mutation × Bool)) {t : Inner}
    (ha : Agree t s) : Agree (t.applyOps (s.runMutations ms).1) (s.runMutations ms).2 := by
  induction ms generalizing s t with
  | nil => exact ha
  | cons m ms ih =>
    have hw := mutate_wf h m.1 m.2
    unfold runMutations
    rcases hr : s.mutate m.1 m.2 with ⟨r,u⟩
    rw [hr] at hw
    cases r with
    | ok op =>
      obtain rfl := mutate_ok h hr
      exact ih hw (ha.applyOp op)
    | error e => exact ih hw (ha.trans (mutate_err hr).1)

end Mutations

section Sample
attribute [local instance] Json.compactText

/-- Two nodes and an edge whose kind is changed, then a title change and a deletion that takes
the edge with it; one update fails in between. -/
def sampleMutations : List (Mutation × Bool) :=
  [(.createNode (.titled "Note" "a") ⟨5,1⟩,true),
   (.createNode (.titled "Note" "b") ⟨5,2⟩,true),
   (.createEdge (.plain 1 2 "LINKS") ⟨6,3⟩,true),
   (.updateEdge 1 { kind := some "CITES" },true),
   (.updateNode 7 { title := some "x" } ⟨7,4⟩,true),
   (.updateNode 2 { title := some "c" } ⟨7,4⟩,true),
   (.deleteNode 1,true)]

end Sample
end Inner
end Drevo
