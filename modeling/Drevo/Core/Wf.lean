import Drevo.Core.Adjacency
import Drevo.Core.Graph
import Drevo.Core.Replay

/-! The index invariants of a state, and that applying a logged change keeps them and has the
meaning the abstract graph gives it. -/
namespace Drevo
open Lib

namespace Inner

section Invariants
variable [JsonText]

/-- The title, kind and uniqueness indexes file exactly the stored nodes. -/
structure NodeIndexes (s : Inner) : Prop where
  key : ∀ (id : ℕ) (n : Node), s.nodes[id]? = some n → n.id = id
  titles : s.titles.Files s.nodes (fun n => some n.title)
  kinds : s.kindIndex.Files s.nodes (fun n => some n.kind)
  unique : ∀ entry ∈ s.unique, entry.2.Files s.nodes (fun n => coveredKey n entry.1)
  bound : ∀ (id : ℕ) (n : Node), s.nodes[id]? = some n → id ≤ s.ids.node

/-- The adjacency lists mirror exactly the stored edges, whose kinds are interned. -/
structure EdgeIndexes (s : Inner) : Prop where
  key : ∀ (id : ℕ) (e : Edge), s.edges[id]? = some e → e.id = id
  interned : ∀ (id : ℕ) (e : Edge), s.edges[id]? = some e → ∃ i, s.kindIds[e.kind]? = some i
  kindBound : ∀ (k : String) (i : ℕ), s.kindIds[k]? = some i → i < s.kindIds.size
  kindInj : ∀ (k l : String) (i : ℕ), s.kindIds[k]? = some i → s.kindIds[l]? = some i → k = l
  outAdj : Mirrors s.outAdj s.edges s.kindIds Edge.fromId Edge.toId
  inAdj : Mirrors s.inAdj s.edges s.kindIds Edge.toId Edge.fromId
  bound : ∀ (id : ℕ) (e : Edge), s.edges[id]? = some e → id ≤ s.ids.edge

structure Wf (s : Inner) : Prop where
  nodes : NodeIndexes s
  edges : EdgeIndexes s

theorem empty_wf : Wf {} where
  nodes :=
    { key := by simp
      titles := Index.Files.empty
      kinds := Index.Files.empty
      unique := by simp
      bound := by simp }
  edges :=
    { key := by simp
      interned := by simp
      kindBound := by simp
      kindInj := by simp
      outAdj := Mirrors.empty
      inAdj := Mirrors.empty
      bound := by simp }

theorem NodeIndexes.congr {s t : Inner} (h : NodeIndexes s) (hn : t.nodes = s.nodes)
    (ht : t.titles = s.titles) (hk : t.kindIndex = s.kindIndex) (hu : t.unique = s.unique)
    (hi : s.ids.node ≤ t.ids.node) : NodeIndexes t where
  key := by rw [hn]; exact h.key
  titles := by rw [hn,ht]; exact h.titles
  kinds := by rw [hn,hk]; exact h.kinds
  unique := by rw [hn,hu]; exact h.unique
  bound := by rw [hn]; exact fun id n hid => (h.bound id n hid).trans hi

end Invariants

theorem EdgeIndexes.congr {s t : Inner} (h : EdgeIndexes s) (he : t.edges = s.edges)
    (hk : t.kindIds = s.kindIds) (ho : t.outAdj = s.outAdj) (hin : t.inAdj = s.inAdj)
    (hi : s.ids.edge ≤ t.ids.edge) : EdgeIndexes t where
  key := by rw [he]; exact h.key
  interned := by rw [he,hk]; exact h.interned
  kindBound := by rw [hk]; exact h.kindBound
  kindInj := by rw [hk]; exact h.kindInj
  outAdj := by rw [he,hk,ho]; exact h.outAdj
  inAdj := by rw [he,hk,hin]; exact h.inAdj
  bound := by rw [he]; exact fun id e hid => (h.bound id e hid).trans hi

/-- `t` differs from `s` in the edges and their adjacency only. -/
structure EdgeFrame (s t : Inner) : Prop where
  nodes : t.nodes = s.nodes
  titles : t.titles = s.titles
  kindIndex : t.kindIndex = s.kindIndex
  kindIds : t.kindIds = s.kindIds
  embeddings : t.embeddings = s.embeddings
  constraints : t.constraints = s.constraints
  unique : t.unique = s.unique
  ids : t.ids = s.ids
  lastUpdatedAt : t.lastUpdatedAt = s.lastUpdatedAt
  prepared : t.prepared = s.prepared
  heuristic : t.heuristic = s.heuristic
  commitSeq : t.commitSeq = s.commitSeq

theorem EdgeFrame.refl (s : Inner) : EdgeFrame s s := by constructor <;> rfl

theorem EdgeFrame.trans {s t u : Inner} (h : EdgeFrame s t) (h' : EdgeFrame t u) : EdgeFrame s u where
  nodes := h'.nodes.trans h.nodes
  titles := h'.titles.trans h.titles
  kindIndex := h'.kindIndex.trans h.kindIndex
  kindIds := h'.kindIds.trans h.kindIds
  embeddings := h'.embeddings.trans h.embeddings
  constraints := h'.constraints.trans h.constraints
  unique := h'.unique.trans h.unique
  ids := h'.ids.trans h.ids
  lastUpdatedAt := h'.lastUpdatedAt.trans h.lastUpdatedAt
  prepared := h'.prepared.trans h.prepared
  heuristic := h'.heuristic.trans h.heuristic
  commitSeq := h'.commitSeq.trans h.commitSeq

/-! ## Removing edges -/

theorem removeEdge_none {s : Inner} {id : ℕ} (h : s.edges[id]? = none) : s.removeEdge id = s := by
  simp only [removeEdge,h]

theorem removeEdge_frame (s : Inner) (id : ℕ) : EdgeFrame s (s.removeEdge id) := by
  cases h : s.edges[id]? with
  | none =>
    rw [removeEdge_none h]
    exact EdgeFrame.refl s
  | some e =>
    simp only [removeEdge,h]
    constructor <;> rfl

theorem removeEdge_edges (s : Inner) (id : ℕ) : (s.removeEdge id).edges = s.edges.erase id := by
  cases h : s.edges[id]? with
  | none =>
    rw [removeEdge_none h]
    apply Map.ext
    intro a
    rw [Map.get_erase]
    split_ifs with ha
    · rw [← ha,h]
    · rfl
  | some e => simp only [removeEdge,h]

theorem removeEdge_indexes {s : Inner} (h : EdgeIndexes s) (id : ℕ) : EdgeIndexes (s.removeEdge id) := by
  cases he : s.edges[id]? with
  | none => rwa [removeEdge_none he]
  | some e =>
    have hsub : ∀ (a : ℕ) (x : Edge), (s.edges.erase id)[a]? = some x → s.edges[a]? = some x := by
      intro a x hx
      rw [Map.get_erase] at hx
      split_ifs at hx
      exact hx
    simp only [removeEdge,he]
    exact
      { key := fun a x hx => h.key a x (hsub a x hx)
        interned := fun a x hx => h.interned a x (hsub a x hx)
        kindBound := h.kindBound
        kindInj := h.kindInj
        outAdj := h.outAdj.remove he
        inAdj := h.inAdj.remove he
        bound := fun a x hx => h.bound a x (hsub a x hx) }

theorem removeEdges_frame (ids : List ℕ) (s : Inner) : EdgeFrame s (ids.foldl removeEdge s) := by
  induction ids generalizing s with
  | nil => exact EdgeFrame.refl s
  | cons id ids ih => exact (removeEdge_frame s id).trans (ih _)

theorem removeEdges_indexes (ids : List ℕ) {s : Inner} (h : EdgeIndexes s) :
    EdgeIndexes (ids.foldl removeEdge s) := by
  induction ids generalizing s with
  | nil => exact h
  | cons id ids ih => exact ih (removeEdge_indexes h id)

theorem removeEdges_get (ids : List ℕ) (s : Inner) (a : ℕ) :
    (ids.foldl removeEdge s).edges[a]? = if a ∈ ids then none else s.edges[a]? := by
  induction ids generalizing s with
  | nil => simp
  | cons id ids ih =>
    rw [List.foldl_cons,ih,removeEdge_edges,Map.get_erase]
    by_cases ha : a ∈ ids
    · simp [ha]
    · by_cases hid : id = a
      · simp [hid]
      · simp [ha,hid,Ne.symm hid]

theorem mem_incident {s : Inner} (h : EdgeIndexes s) (id a : ℕ) :
    a ∈ (s.incidentEntries id .both).map AdjEntry.edgeId ↔
      ∃ e, s.edges[a]? = some e ∧ e.touches id := by
  simp only [incidentEntries,reduceCtorEq,if_false,List.map_append,List.mem_append,List.mem_map,
    List.mem_filter,decide_true,Bool.true_and,Bool.not_eq_true',decide_eq_false_iff_not,Edge.touches,
    Bool.or_eq_true,decide_eq_true_eq]
  constructor
  · rintro (⟨b,hb,rfl⟩ | ⟨b,⟨hb,-⟩,rfl⟩)
    · obtain ⟨e,he,hn,-⟩ := (h.outAdj.mem id b).mp hb
      exact ⟨e,he,Or.inl hn⟩
    · obtain ⟨e,he,hn,-⟩ := (h.inAdj.mem id b).mp hb
      exact ⟨e,he,Or.inr hn⟩
  · rintro ⟨e,he,ht⟩
    obtain ⟨i,hi⟩ := h.interned a e he
    by_cases hf : e.fromId = id
    · exact Or.inl ⟨⟨a,e.toId,i⟩,(h.outAdj.mem id _).mpr ⟨e,he,hf,rfl,hi⟩,rfl⟩
    · have ht' : e.toId = id := ht.resolve_left hf
      exact Or.inr ⟨⟨a,e.fromId,i⟩,⟨(h.inAdj.mem id _).mpr ⟨e,he,ht',rfl,hi⟩,hf⟩,rfl⟩

theorem removeIncident_edges {s : Inner} (h : EdgeIndexes s) (id : ℕ) :
    (((s.incidentEntries id .both).map AdjEntry.edgeId).foldl removeEdge s).edges =
      s.edges.filter (fun _ e => !e.touches id) := by
  apply Map.ext
  intro a
  rw [removeEdges_get]
  change _ = (s.graph.edges.filter (fun _ e => !e.touches id))[a]?
  rw [Graph.get_filter_edges]
  split_ifs with ha
  · obtain ⟨e,he,ht⟩ := (mem_incident h id a).mp ha
    simp [graph,he,ht,Option.filter]
  · cases he : s.edges[a]? with
    | none => simp [graph,he]
    | some e =>
      have ht : e.touches id = false := by
        by_contra hc
        exact ha ((mem_incident h id a).mpr ⟨e,he,by simpa using hc⟩)
      simp [graph,he,ht,Option.filter]


/-! ## Storing edges -/

/-- Interning a kind gives it a number and keeps the numbers of all others. -/
theorem internKind_indexes {s : Inner} (h : EdgeIndexes s) (kind : String) :
    EdgeIndexes (s.internKind kind).2 ∧ (s.internKind kind).2.kindIds[kind]? = some (s.internKind kind).1 := by
  cases hk : s.kindIds[kind]? with
  | some i =>
    simp only [internKind,hk]
    exact ⟨h,trivial⟩
  | none =>
    have hold : ∀ (id : ℕ) (e : Edge), s.edges[id]? = some e → e.kind ≠ kind := by
      rintro id e he rfl
      obtain ⟨i,hi⟩ := h.interned id e he
      rw [hk] at hi
      exact Option.some_ne_none _ hi.symm
    have hfresh : ∀ (k : String) (i : ℕ), s.kindIds[k]? = some i → i ≠ s.kindIds.size :=
      fun k i hi => (h.kindBound k i hi).ne
    have hsize : (s.kindIds.insert kind s.kindIds.size).size = s.kindIds.size+1 := by
      rw [Std.ExtTreeMap.size_insert,if_neg]
      rw [Map.contains_eq,hk]
      simp
    simp only [internKind,hk]
    refine ⟨⟨h.key,?_,?_,?_,h.outAdj.intern _ hold,h.inAdj.intern _ hold,h.bound⟩,by simp⟩
    · intro id e he
      obtain ⟨i,hi⟩ := h.interned id e he
      exact ⟨i,by simpa [(hold id e he).symm] using hi⟩
    · intro k i hi
      rw [Map.get_insert] at hi
      rw [hsize]
      split_ifs at hi
      · obtain rfl := Option.some.inj hi
        omega
      · exact (h.kindBound k i hi).trans (Nat.lt_succ_self _)
    · intro k l i hi hl
      simp only [Map.get_insert] at hi hl
      split_ifs at hi hl with h₁ h₂ h₂
      · exact h₁.symm.trans h₂
      · exact absurd (Option.some.inj hi).symm (hfresh l i hl)
      · exact absurd (Option.some.inj hl).symm (hfresh k i hi)
      · exact h.kindInj k l i hi hl

@[simp] theorem internKind_edges (s : Inner) (kind : String) : (s.internKind kind).2.edges = s.edges := by
  unfold internKind
  split <;> rfl

@[simp] theorem internKind_ids (s : Inner) (kind : String) : (s.internKind kind).2.ids = s.ids := by
  unfold internKind
  split <;> rfl

/-- `t` differs from `s` in the edges, their adjacency, the interned kinds and the counters only. -/
structure NodeFrame (s t : Inner) : Prop where
  nodes : t.nodes = s.nodes
  titles : t.titles = s.titles
  kindIndex : t.kindIndex = s.kindIndex
  embeddings : t.embeddings = s.embeddings
  unique : t.unique = s.unique
  ids : t.ids.node = s.ids.node

theorem EdgeFrame.nodeFrame {s t : Inner} (h : EdgeFrame s t) : NodeFrame s t :=
  ⟨h.nodes,h.titles,h.kindIndex,h.embeddings,h.unique,congrArg IdCounters.node h.ids⟩

theorem NodeFrame.trans {s t u : Inner} (h : NodeFrame s t) (h' : NodeFrame t u) : NodeFrame s u :=
  ⟨h'.nodes.trans h.nodes,h'.titles.trans h.titles,h'.kindIndex.trans h.kindIndex,
    h'.embeddings.trans h.embeddings,h'.unique.trans h.unique,h'.ids.trans h.ids⟩

theorem placeEdge_frame (s : Inner) (edge : Edge) : NodeFrame s (s.placeEdge edge) := by
  simp only [placeEdge,internKind]
  split <;> constructor <;> rfl

theorem placeEdge_edges (s : Inner) (edge : Edge) :
    (s.placeEdge edge).edges = s.edges.insert edge.id edge := by
  simp [placeEdge]

theorem placeEdge_indexes {s : Inner} (h : EdgeIndexes s) {edge : Edge} (he : s.edges[edge.id]? = none)
    (hid : edge.id ≤ s.ids.edge) : EdgeIndexes (s.placeEdge edge) := by
  obtain ⟨h',hk⟩ := internKind_indexes h edge.kind
  have hold : (s.internKind edge.kind).2.edges[edge.id]? = none := by rwa [internKind_edges]
  refine ⟨?_,?_,h'.kindBound,h'.kindInj,h'.outAdj.insert hold hk,h'.inAdj.insert hold hk,?_⟩
  · intro id e hx
    simp only [placeEdge,Map.get_insert] at hx
    split_ifs at hx with hi
    · obtain rfl := Option.some.inj hx
      exact hi
    · exact h'.key id e hx
  · intro id e hx
    simp only [placeEdge,Map.get_insert] at hx
    split_ifs at hx with hi
    · obtain rfl := Option.some.inj hx
      exact ⟨_,hk⟩
    · exact h'.interned id e hx
  · intro id e hx
    simp only [placeEdge,Map.get_insert,internKind_ids] at hx ⊢
    split_ifs at hx with hi
    · exact hi ▸ hid
    · exact h.bound id e (by rwa [internKind_edges] at hx)

/-! ## Storing and dropping nodes -/

section Nodes
variable [JsonText]

theorem indexUnique_unique (s : Inner) (node : Node) :
    (s.indexUnique node).unique =
      s.unique.map (fun entry => (entry.1,entry.2.fileKey (coveredKey node entry.1) node.id)) := by
  simp only [indexUnique]
  apply List.map_congr_left
  intro entry _
  cases coveredKey node entry.1 <;> rfl

theorem unindexUnique_unique (s : Inner) (node : Node) :
    (s.unindexUnique node).unique =
      s.unique.map (fun entry => (entry.1,entry.2.unfileKey (coveredKey node entry.1) node.id)) := by
  simp only [unindexUnique]
  apply List.map_congr_left
  intro entry _
  cases coveredKey node entry.1 <;> rfl

theorem NodeIndexes.insert_new {s t : Inner} (h : NodeIndexes s) {node : Node}
    (hfree : s.nodes[node.id]? = none) (hn : t.nodes = s.nodes.insert node.id node)
    (ht : t.titles = s.titles.add node.title node.id)
    (hk : t.kindIndex = s.kindIndex.add node.kind node.id)
    (hu : t.unique = (s.indexUnique node).unique)
    (hi : s.ids.node ≤ t.ids.node) (hid : node.id ≤ t.ids.node) : NodeIndexes t where
  key := by
    intro id n hx
    rw [hn,Map.get_insert] at hx
    split_ifs at hx with hid
    · obtain rfl := Option.some.inj hx
      exact hid
    · exact h.key id n hx
  titles := by rw [hn,ht]; exact h.titles.insert_new hfree node
  kinds := by rw [hn,hk]; exact h.kinds.insert_new hfree node
  unique := by
    rw [hn,hu,indexUnique_unique]
    intro entry he
    obtain ⟨e,hm,rfl⟩ := List.mem_map.mp he
    exact (h.unique e hm).insert_new hfree node
  bound := by
    intro id n hx
    rw [hn,Map.get_insert] at hx
    split_ifs at hx with hid'
    · exact hid' ▸ hid
    · exact (h.bound id n hx).trans hi

theorem NodeIndexes.insert_old {s t : Inner} (h : NodeIndexes s) {old node : Node}
    (hold : s.nodes[node.id]? = some old) (hn : t.nodes = s.nodes.insert node.id node)
    (ht : t.titles = (s.titles.remove old.title node.id).add node.title node.id)
    (hk : t.kindIndex = (s.kindIndex.remove old.kind node.id).add node.kind node.id)
    (hu : t.unique = ((s.unindexUnique old).indexUnique node).unique)
    (hi : s.ids.node ≤ t.ids.node) : NodeIndexes t where
  key := by
    intro id n hx
    rw [hn,Map.get_insert] at hx
    split_ifs at hx with hid
    · obtain rfl := Option.some.inj hx
      exact hid
    · exact h.key id n hx
  titles := by rw [hn,ht]; exact h.titles.insert_old hold node
  kinds := by rw [hn,hk]; exact h.kinds.insert_old hold node
  unique := by
    rw [hn,hu,indexUnique_unique,unindexUnique_unique,List.map_map]
    intro entry he
    obtain ⟨e,hm,rfl⟩ := List.mem_map.mp he
    simp only [Function.comp_apply,h.key _ _ hold]
    exact (h.unique e hm).insert_old hold node
  bound := by
    intro id n hx
    rw [hn,Map.get_insert] at hx
    split_ifs at hx with hid'
    · exact hid' ▸ (h.bound _ _ hold).trans hi
    · exact (h.bound id n hx).trans hi

theorem NodeIndexes.erase {s t : Inner} (h : NodeIndexes s) {id : ℕ} {node : Node}
    (hold : s.nodes[id]? = some node) (hn : t.nodes = s.nodes.erase id)
    (ht : t.titles = s.titles.remove node.title id) (hk : t.kindIndex = s.kindIndex.remove node.kind id)
    (hu : t.unique = (s.unindexUnique node).unique) (hi : s.ids.node ≤ t.ids.node) : NodeIndexes t where
  key := by
    intro a n hx
    rw [hn,Map.get_erase] at hx
    split_ifs at hx
    exact h.key a n hx
  titles := by rw [hn,ht]; exact h.titles.erase hold
  kinds := by rw [hn,hk]; exact h.kinds.erase hold
  unique := by
    rw [hn,hu,unindexUnique_unique]
    intro entry he
    obtain ⟨e,hm,rfl⟩ := List.mem_map.mp he
    simp only [h.key _ _ hold]
    exact (h.unique e hm).erase hold
  bound := by
    intro a n hx
    rw [hn,Map.get_erase] at hx
    split_ifs at hx
    exact (h.bound a n hx).trans hi

theorem dropNode_wf {s : Inner} (h : Wf s) {id : ℕ} {node : Node} (hold : s.nodes[id]? = some node) :
    Wf (s.dropNode id node) := by
  have hf := removeEdges_frame ((s.incidentEntries id .both).map AdjEntry.edgeId) s
  have he := removeEdges_indexes ((s.incidentEntries id .both).map AdjEntry.edgeId) h.edges
  refine ⟨?_,he.congr rfl rfl rfl rfl le_rfl⟩
  apply h.nodes.erase hold
  · exact congrArg (fun m => Std.ExtTreeMap.erase m id) hf.nodes
  · exact congrArg (fun m => Index.remove m node.title id) hf.titles
  · exact congrArg (fun m => Index.remove m node.kind id) hf.kindIndex
  · simp only [dropNode,unindexUnique,unindexTitle,unindexNodeKind,hf.unique]
  · exact (congrArg IdCounters.node hf.ids).ge

theorem dropNode_graph {s : Inner} (h : Wf s) (id : ℕ) (node : Node) :
    (s.dropNode id node).graph =
      ⟨s.nodes.erase id,s.edges.filter (fun _ e => !e.touches id),s.embeddings.erase id⟩ := by
  have hf := removeEdges_frame ((s.incidentEntries id .both).map AdjEntry.edgeId) s
  apply Graph.ext
  · exact congrArg (fun m => Std.ExtTreeMap.erase m id) hf.nodes
  · exact removeIncident_edges h.edges id
  · exact congrArg (fun m => Std.ExtTreeMap.erase m id) hf.embeddings

/-! ## Applying a logged change -/

theorem unindexNode_eq (s : Inner) (id : ℕ) :
    s.unindexNode id = { s with
      titles := (s.unindexNode id).titles
      kindIndex := (s.unindexNode id).kindIndex
      unique := (s.unindexNode id).unique } := by
  unfold unindexNode
  split <;> rfl

theorem upsertNode_eq (s : Inner) (node : Node) :
    s.upsertNode node = { s with
      nodes := s.nodes.insert node.id node
      titles := (s.unindexNode node.id).titles.add node.title node.id
      kindIndex := (s.unindexNode node.id).kindIndex.add node.kind node.id
      unique := ((s.unindexNode node.id).indexUnique node).unique
      ids := s.ids.observeNode node.id
      lastUpdatedAt := max s.lastUpdatedAt node.updatedAt } := by
  unfold upsertNode
  rw [unindexNode_eq]
  rfl

theorem upsertNode_indexes {s : Inner} (h : NodeIndexes s) (node : Node) :
    NodeIndexes (s.upsertNode node) := by
  rw [upsertNode_eq]
  cases hold : s.nodes[node.id]? with
  | none =>
    have hu : s.unindexNode node.id = s := by simp only [unindexNode,hold]
    rw [hu]
    exact h.insert_new hold rfl rfl rfl rfl (le_max_left _ _) (le_max_right _ _)
  | some old =>
    have hu : s.unindexNode node.id =
        ((s.unindexTitle node.id old.title).unindexNodeKind node.id old.kind).unindexUnique old := by
      simp only [unindexNode,hold]
    rw [hu]
    exact h.insert_old hold rfl rfl rfl rfl (le_max_left _ _)

theorem upsertNode_wf {s : Inner} (h : Wf s) (node : Node) : Wf (s.upsertNode node) := by
  refine ⟨upsertNode_indexes h.nodes node,?_⟩
  rw [upsertNode_eq]
  exact h.edges.congr rfl rfl rfl rfl le_rfl

omit [JsonText] in
theorem upsertEdge_eq (s : Inner) (edge : Edge) :
    s.upsertEdge edge = Inner.placeEdge
      { s.removeEdge edge.id with ids := (s.removeEdge edge.id).ids.observeEdge edge.id } edge := by
  have hr : (if s.edges.contains edge.id then s.removeEdge edge.id else s) = s.removeEdge edge.id := by
    split_ifs with hc
    · rfl
    · rw [removeEdge_none]
      rw [Map.contains_eq] at hc
      simpa using hc
  simp only [upsertEdge,hr]

omit [JsonText] in
theorem upsertEdge_frame (s : Inner) (edge : Edge) : NodeFrame s (s.upsertEdge edge) := by
  rw [upsertEdge_eq]
  have hf := (removeEdge_frame s edge.id).nodeFrame
  have ho : NodeFrame (s.removeEdge edge.id)
      { s.removeEdge edge.id with ids := (s.removeEdge edge.id).ids.observeEdge edge.id } := by
    constructor <;> rfl
  exact (hf.trans ho).trans (placeEdge_frame _ edge)

omit [JsonText] in
theorem upsertEdge_edges (s : Inner) (edge : Edge) :
    (s.upsertEdge edge).edges = s.edges.insert edge.id edge := by
  rw [upsertEdge_eq,placeEdge_edges,removeEdge_edges]
  apply Map.ext
  intro a
  simp only [Map.get_insert,Map.get_erase]
  split_ifs <;> rfl

theorem NodeIndexes.of_frame {s t : Inner} (h : NodeIndexes s) (hf : NodeFrame s t) : NodeIndexes t :=
  h.congr hf.nodes hf.titles hf.kindIndex hf.unique hf.ids.ge

theorem upsertEdge_wf {s : Inner} (h : Wf s) (edge : Edge) : Wf (s.upsertEdge edge) := by
  refine ⟨h.nodes.of_frame (upsertEdge_frame s edge),?_⟩
  rw [upsertEdge_eq]
  have hi := removeEdge_indexes h.edges edge.id
  apply placeEdge_indexes
  · exact hi.congr rfl rfl rfl rfl (le_max_left _ _)
  · simp [removeEdge_edges]
  · exact le_max_right _ _

theorem applyOp_wf {s : Inner} (h : Wf s) (op : GraphOp) : Wf (s.applyOp op) := by
  cases op with
  | upsertNode node => exact upsertNode_wf h node
  | deleteNode id =>
    cases hold : s.nodes[id]? with
    | none => simpa only [applyOp,hold] using h
    | some node =>
      simp only [applyOp,hold]
      exact dropNode_wf h hold
  | upsertEdge edge => exact upsertEdge_wf h edge
  | deleteEdge id =>
    exact ⟨h.nodes.of_frame (removeEdge_frame s id).nodeFrame,removeEdge_indexes h.edges id⟩
  | setEmbedding id vector =>
    exact ⟨h.nodes.congr rfl rfl rfl rfl le_rfl,h.edges.congr rfl rfl rfl rfl le_rfl⟩
  | deleteEmbedding id =>
    exact ⟨h.nodes.congr rfl rfl rfl rfl le_rfl,h.edges.congr rfl rfl rfl rfl le_rfl⟩

theorem applyOps_wf {s : Inner} (h : Wf s) (ops : List GraphOp) : Wf (s.applyOps ops) := by
  induction ops generalizing s with
  | nil => exact h
  | cons op ops ih => exact ih (applyOp_wf h op)

theorem applyOp_graph {s : Inner} (h : Wf s) (op : GraphOp) :
    (s.applyOp op).graph = s.graph.apply op := by
  cases op with
  | upsertNode node =>
    simp only [applyOp,upsertNode_eq]
    rfl
  | deleteNode id =>
    cases hold : s.nodes[id]? with
    | none => simp [applyOp,Graph.apply,graph,hold]
    | some node =>
      simp only [applyOp,hold,dropNode_graph h]
      simp [Graph.apply,graph,hold]
  | upsertEdge edge =>
    have hf := upsertEdge_frame s edge
    exact Graph.ext hf.nodes (upsertEdge_edges s edge) hf.embeddings
  | deleteEdge id =>
    have hf := removeEdge_frame s id
    exact Graph.ext hf.nodes (removeEdge_edges s id) hf.embeddings
  | setEmbedding id vector => rfl
  | deleteEmbedding id => rfl

theorem applyOps_graph {s : Inner} (h : Wf s) (ops : List GraphOp) :
    (s.applyOps ops).graph = s.graph.applyAll ops := by
  induction ops generalizing s with
  | nil => rfl
  | cons op ops ih =>
    simp only [applyOps,List.foldl_cons,Graph.applyAll_cons] at ih ⊢
    rw [ih (applyOp_wf h op),applyOp_graph h]

/-! ## The uniqueness lookups -/

theorem buildUnique_files {s : Inner} (h : NodeIndexes s) (tuple : UniqueTuple) :
    (s.buildUnique tuple).Files s.nodes (fun n => coveredKey n tuple) := by
  have hb := Index.Files.build s.nodes (fun n => coveredKey n tuple) Node.id h.key
  have he : s.buildUnique tuple = (s.nodes.toList.map Prod.snd).foldl
      (fun m n => Index.fileKey m (coveredKey n tuple) n.id) ∅ := by
    rw [List.foldl_map]
    unfold buildUnique
    congr 1
    funext m p
    cases coveredKey p.2 tuple <;> rfl
  rwa [he]

/-- After a change of the constraints there is a lookup for each tuple they keep unique, and
every lookup files the nodes. -/
theorem syncUnique_spec {s : Inner} (h : NodeIndexes s) :
    (∀ entry ∈ s.syncUnique.unique, entry.2.Files s.nodes (fun n => coveredKey n entry.1)) ∧
      ∀ c ∈ s.constraints, ∀ tuple, c.uniqueTuple = some tuple →
        ∃ entry ∈ s.syncUnique.unique, entry.1 = tuple := by
  have hfold : ∀ (needed : List UniqueTuple) (l : List (UniqueTuple × Index String ℕ)),
      (∀ entry ∈ l, entry.2.Files s.nodes (fun n => coveredKey n entry.1)) →
      (∀ entry ∈ needed.foldl (fun unique tuple =>
          if unique.any (fun entry => entry.1 = tuple) then unique
          else unique ++ [(tuple,s.buildUnique tuple)]) l,
        entry.2.Files s.nodes (fun n => coveredKey n entry.1)) ∧
      ∀ tuple, (tuple ∈ needed ∨ ∃ entry ∈ l, entry.1 = tuple) →
        ∃ entry ∈ needed.foldl (fun unique tuple =>
          if unique.any (fun entry => entry.1 = tuple) then unique
          else unique ++ [(tuple,s.buildUnique tuple)]) l, entry.1 = tuple := by
    intro needed
    induction needed with
    | nil =>
      intro l hl
      exact ⟨hl,fun tuple ht => ht.resolve_left (by simp)⟩
    | cons t needed ih =>
      intro l hl
      rw [List.foldl_cons]
      by_cases hc : l.any (fun entry => entry.1 = t) = true
      · rw [if_pos hc]
        refine ⟨(ih l hl).1,?_⟩
        rintro tuple (ht | ht)
        · rcases List.mem_cons.mp ht with rfl | ht
          · refine (ih l hl).2 tuple (Or.inr ?_)
            simpa using hc
          · exact (ih l hl).2 tuple (Or.inl ht)
        · exact (ih l hl).2 tuple (Or.inr ht)
      · rw [if_neg hc]
        have hl' : ∀ entry ∈ l ++ [(t,s.buildUnique t)],
            entry.2.Files s.nodes (fun n => coveredKey n entry.1) := by
          intro entry he
          rcases List.mem_append.mp he with he | he
          · exact hl entry he
          · obtain rfl : entry = (t,s.buildUnique t) := by simpa using he
            exact buildUnique_files h t
        refine ⟨(ih _ hl').1,?_⟩
        rintro tuple (ht | ⟨entry,he,rfl⟩)
        · rcases List.mem_cons.mp ht with rfl | ht
          · exact (ih _ hl').2 tuple (Or.inr ⟨(tuple,s.buildUnique tuple),by simp,rfl⟩)
          · exact (ih _ hl').2 tuple (Or.inl ht)
        · exact (ih _ hl').2 entry.1 (Or.inr ⟨entry,List.mem_append_left _ he,rfl⟩)
  have hkept : ∀ entry ∈ s.unique.filter
      (fun entry => (s.constraints.filterMap Constraint.uniqueTuple).contains entry.1),
      entry.2.Files s.nodes (fun n => coveredKey n entry.1) :=
    fun entry he => h.unique entry (List.mem_of_mem_filter he)
  obtain ⟨h₁,h₂⟩ := hfold (s.constraints.filterMap Constraint.uniqueTuple) _ hkept
  refine ⟨h₁,?_⟩
  intro c hc tuple ht
  exact h₂ tuple (Or.inl (List.mem_filterMap.mpr ⟨c,hc,ht⟩))

theorem syncUnique_wf {s : Inner} (h : Wf s) : Wf s.syncUnique where
  nodes :=
    { key := h.nodes.key
      titles := h.nodes.titles
      kinds := h.nodes.kinds
      unique := (syncUnique_spec h.nodes).1
      bound := h.nodes.bound }
  edges := h.edges.congr rfl rfl rfl rfl le_rfl

end Nodes
end Inner
end Drevo
