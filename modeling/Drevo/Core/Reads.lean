import Drevo.Core.Wf

/-! Reading the graph: neighbours, relationships, and lookup by kind and by title. What a read
answers is decided by the stored records; two states that hold the same graph answer alike,
whatever order their derived structures are kept in. -/
namespace Drevo
open Lib

def kindRun (v : List AdjEntry) (kind : ℕ) : List AdjEntry :=
  let start := (v.takeWhile (fun e => e.kindId < kind)).length
  let stop := (v.takeWhile (fun e => e.kindId ≤ kind)).length
  (v.take stop).drop start

theorem kindRun_eq {v : List AdjEntry} (h : KeySorted adjSortKey v) (kind : ℕ) :
    kindRun v kind = v.filter (fun e => e.kindId = kind) := by
  apply run_eq_filter
  refine List.Pairwise.imp ?_ h
  intro a b hab
  rcases Prod.Lex.lt_iff.mp hab with hlt | ⟨heq,-⟩
  · exact hlt.le
  · exact heq.le

namespace Inner

def getNode (s : Inner) (id : ℕ) : Option Node := s.nodes[id]?

def getEdge (s : Inner) (id : ℕ) : Option Edge := s.edges[id]?

def kindIdOf (s : Inner) (kind : String) : Option ℕ := s.kindIds[kind]?

/-- The adjacency entries of a node whose interned kind is `kindId`, with the self-loops
under `both` as in `incidentEntries`. -/
def incidentEntriesOfKind (s : Inner) (id : ℕ) (direction : Direction) (kindId : ℕ) : List AdjEntry :=
  let out := if direction = .incoming then [] else kindRun (s.outAdj.list id) kindId
  let inn := if direction = .outgoing then []
    else (kindRun (s.inAdj.list id) kindId).filter (fun e => !(direction = .both && e.neighborId = id))
  out ++ inn

/-- The neighbours at the other ends of the entries, each at its first occurrence. -/
def pushNeighbors : List AdjEntry → List ℕ → List ℕ
  | [],_ => []
  | e :: rest,seen =>
    if e.neighborId ∈ seen then pushNeighbors rest seen
    else e.neighborId :: pushNeighbors rest (e.neighborId :: seen)

def neighborIds (s : Inner) (id : ℕ) (direction : Direction) (kind : Option String) : List ℕ :=
  match kind with
  | none => pushNeighbors (s.incidentEntries id direction) [id]
  | some kind =>
    match s.kindIdOf kind with
    | none => []
    | some kindId => pushNeighbors (s.incidentEntriesOfKind id direction kindId) [id]

def neighbors (s : Inner) (id : ℕ) (direction : Direction) (kind : Option String) : List Node :=
  (s.neighborIds id direction kind).filterMap s.getNode

def edgesOf (s : Inner) (id : ℕ) (direction : Direction) : List Edge :=
  (s.incidentEntries id direction).filterMap (fun e => s.edges[e.edgeId]?)

def nodesByKind (s : Inner) (kind : String) (limit offset : ℕ) : List Node :=
  match s.kindIndex[kind]? with
  | none => []
  | some ids => (((ids.sort (· ≤ ·)).drop offset).take limit).filterMap s.getNode

def getNodeByTitle (s : Inner) (title : String) : Option Node :=
  ((s.titles[title]?.bind (fun ids => (ids.sort (· ≤ ·)).head?)).bind s.getNode)

def nodesByTitle (s : Inner) (title : String) : List Node :=
  ((s.titles[title]?.getD ∅).sort (· ≤ ·)).filterMap s.getNode

theorem mem_pushNeighbors (l : List AdjEntry) (seen : List ℕ) (x : ℕ) :
    x ∈ pushNeighbors l seen ↔ x ∉ seen ∧ ∃ e ∈ l, e.neighborId = x := by
  induction l generalizing seen with
  | nil => simp [pushNeighbors]
  | cons e l ih =>
    unfold pushNeighbors
    split_ifs with hs
    · rw [ih,List.exists_mem_cons_iff]
      constructor
      · rintro ⟨hx,he⟩
        exact ⟨hx,Or.inr he⟩
      · rintro ⟨hx,rfl | he⟩
        · exact absurd hs hx
        · exact ⟨hx,he⟩
    · rw [List.mem_cons,ih,List.exists_mem_cons_iff]
      by_cases hx : x = e.neighborId
      · simp [hx,hs]
      · simp [hx,Ne.symm hx]

end Inner

/-- The edge runs from the node in the direction, with the other end `far`. -/
def Edge.leads (e : Edge) (id far : ℕ) : Direction → Prop
  | .outgoing => e.fromId = id ∧ e.toId = far
  | .incoming => e.toId = id ∧ e.fromId = far
  | .both => (e.fromId = id ∧ e.toId = far) ∨ (e.toId = id ∧ e.fromId = far)

namespace Inner

theorem mem_incidentEntries {s : Inner} (h : EdgeIndexes s) (id : ℕ) (direction : Direction) (a : AdjEntry) :
    a ∈ s.incidentEntries id direction ↔ ∃ e, s.edges[a.edgeId]? = some e ∧
      e.leads id a.neighborId direction ∧ s.kindIds[e.kind]? = some a.kindId := by
  cases direction with
  | outgoing => simp [incidentEntries,h.outAdj.mem,Edge.leads,and_assoc]
  | incoming => simp [incidentEntries,h.inAdj.mem,Edge.leads,and_assoc]
  | both =>
    simp only [incidentEntries,reduceCtorEq,if_false,List.mem_append,List.mem_filter,h.outAdj.mem,h.inAdj.mem,
      Edge.leads,decide_true,Bool.true_and,Bool.not_eq_true',decide_eq_false_iff_not]
    constructor
    · rintro (⟨e,he,hn,hf,hk⟩ | ⟨⟨e,he,hn,hf,hk⟩,-⟩)
      · exact ⟨e,he,Or.inl ⟨hn,hf⟩,hk⟩
      · exact ⟨e,he,Or.inr ⟨hn,hf⟩,hk⟩
    · rintro ⟨e,he,⟨hn,hf⟩ | ⟨hn,hf⟩,hk⟩
      · exact Or.inl ⟨e,he,hn,hf,hk⟩
      · -- a self-loop was reported by the outgoing pass
        by_cases hloop : a.neighborId = id
        · exact Or.inl ⟨e,he,hf.trans hloop,hn.trans hloop.symm,hk⟩
        · exact Or.inr ⟨⟨e,he,hn,hf,hk⟩,hloop⟩

theorem mem_incidentEntriesOfKind {s : Inner} (h : EdgeIndexes s) (id : ℕ) (direction : Direction) (kindId : ℕ)
    (a : AdjEntry) :
    a ∈ s.incidentEntriesOfKind id direction kindId ↔ a ∈ s.incidentEntries id direction ∧ a.kindId = kindId := by
  simp only [incidentEntriesOfKind,incidentEntries,kindRun_eq (h.outAdj.sorted id),kindRun_eq (h.inAdj.sorted id)]
  cases direction with
  | outgoing => simp
  | incoming => simp
  | both =>
    simp only [reduceCtorEq,if_false,List.mem_append,List.mem_filter,decide_eq_true_eq]
    tauto

/-- A neighbour is the other end of an edge of the kind that leads from the node. -/
theorem mem_neighborIds {s : Inner} (h : EdgeIndexes s) (id : ℕ) (direction : Direction) (kind : Option String)
    (x : ℕ) :
    x ∈ s.neighborIds id direction kind ↔ x ≠ id ∧ ∃ (i : ℕ) (e : Edge), s.edges[i]? = some e ∧
      e.leads id x direction ∧ ∀ k ∈ kind, e.kind = k := by
  cases kind with
  | none =>
    simp only [neighborIds,mem_pushNeighbors,List.mem_singleton,mem_incidentEntries h,Option.not_mem_none,
      false_implies,implies_true,and_true]
    refine and_congr_right fun _ => ?_
    constructor
    · rintro ⟨a,⟨e,he,hl,-⟩,rfl⟩
      exact ⟨a.edgeId,e,he,hl⟩
    · rintro ⟨i,e,he,hl⟩
      obtain ⟨k,hk⟩ := h.interned i e he
      exact ⟨⟨i,x,k⟩,⟨e,he,hl,hk⟩,rfl⟩
  | some kind =>
    simp only [neighborIds,Option.mem_def,Option.some.injEq,forall_eq']
    cases hid : s.kindIdOf kind with
    | none =>
      simp only [List.not_mem_nil,false_iff,not_and,not_exists]
      rintro - i e he - rfl
      obtain ⟨k,hk⟩ := h.interned i e he
      rw [show s.kindIds[e.kind]? = none from hid] at hk
      exact Option.some_ne_none _ hk.symm
    | some kindId =>
      simp only [mem_pushNeighbors,List.mem_singleton,mem_incidentEntriesOfKind h,mem_incidentEntries h]
      refine and_congr_right fun _ => ?_
      constructor
      · rintro ⟨a,⟨⟨e,he,hl,hk⟩,rfl⟩,rfl⟩
        exact ⟨a.edgeId,e,he,hl,h.kindInj _ _ _ hk hid⟩
      · rintro ⟨i,e,he,hl,rfl⟩
        exact ⟨⟨i,x,kindId⟩,⟨⟨e,he,hl,hid⟩,rfl⟩,rfl⟩

theorem mem_edgesOf {s : Inner} (h : EdgeIndexes s) (id : ℕ) (direction : Direction) (e : Edge) :
    e ∈ s.edgesOf id direction ↔ ∃ i : ℕ, s.edges[i]? = some e ∧ ∃ far, e.leads id far direction := by
  simp only [edgesOf,List.mem_filterMap,mem_incidentEntries h]
  constructor
  · rintro ⟨a,⟨e',he',hl,-⟩,he⟩
    obtain rfl := Option.some.inj (he'.symm.trans he)
    exact ⟨a.edgeId,he,a.neighborId,hl⟩
  · rintro ⟨i,he,far,hl⟩
    obtain ⟨k,hk⟩ := h.interned i e he
    exact ⟨⟨i,far,k⟩,⟨e,he,hl,hk⟩,he⟩

/-! ## Each once -/

theorem pushNeighbors_nodup (l : List AdjEntry) (seen : List ℕ) : (pushNeighbors l seen).Nodup := by
  induction l generalizing seen with
  | nil => exact List.nodup_nil
  | cons e l ih =>
    unfold pushNeighbors
    split_ifs with hs
    · exact ih seen
    · refine List.nodup_cons.mpr ⟨?_,ih _⟩
      intro hmem
      exact ((mem_pushNeighbors l _ _).mp hmem).1 List.mem_cons_self

theorem neighborIds_nodup (s : Inner) (id : ℕ) (direction : Direction) (kind : Option String) :
    (s.neighborIds id direction kind).Nodup := by
  unfold neighborIds
  split
  · exact pushNeighbors_nodup _ _
  · split
    · exact List.nodup_nil
    · exact pushNeighbors_nodup _ _

theorem list_edgeIds {adj : Adjacency} {edges : Map ℕ Edge} {kindIds : Map String ℕ} {near far : Edge → ℕ}
    (h : Mirrors adj edges kindIds near far) (n : ℕ) : (adj.list n).Pairwise (fun a b => a.edgeId ≠ b.edgeId) := by
  refine List.Pairwise.imp_of_mem ?_ (h.sorted n).nodup
  intro a b ha hb hne hid
  exact hne (h.entry_unique ha hb hid)

theorem incidentEntries_edgeIds {s : Inner} (h : EdgeIndexes s) (id : ℕ) (direction : Direction) :
    (s.incidentEntries id direction).Pairwise (fun a b => a.edgeId ≠ b.edgeId) := by
  have hout : (if direction = .incoming then [] else s.outAdj.list id).Pairwise (fun a b => a.edgeId ≠ b.edgeId) := by
    split_ifs
    · exact List.Pairwise.nil
    · exact list_edgeIds h.outAdj id
  have hin : (if direction = .outgoing then []
      else (s.inAdj.list id).filter (fun e => !(direction = .both && e.neighborId = id))).Pairwise
        (fun a b => a.edgeId ≠ b.edgeId) := by
    split_ifs
    · exact List.Pairwise.nil
    · exact (list_edgeIds h.inAdj id).filter _
  unfold incidentEntries
  refine List.pairwise_append.mpr ⟨hout,hin,?_⟩
  intro a ha b hb hid
  cases direction with
  | outgoing => cases hb
  | incoming => cases ha
  | both =>
    obtain ⟨e,he,hn,-⟩ := (h.outAdj.mem id a).mp ha
    obtain ⟨hb,hloop⟩ := List.mem_filter.mp hb
    obtain ⟨e',he',-,hf',-⟩ := (h.inAdj.mem id b).mp hb
    rw [hid,he'] at he
    obtain rfl := Option.some.inj he
    simp [← hf',hn] at hloop

theorem edgesOf_nodup {s : Inner} (h : EdgeIndexes s) (id : ℕ) (direction : Direction) : (s.edgesOf id direction).Nodup := by
  refine List.Pairwise.filterMap _ ?_ (incidentEntries_edgeIds h id direction)
  rintro a a' hne e he _ he' rfl
  exact hne ((h.key _ _ he).symm.trans (h.key _ _ he'))

/-- The edges of a node are its incident edges, each once; its neighbours, found in the run of a
kind or by walking all entries, are the other ends of those of its edges that have the kind, the
node itself excepted, each once. -/
theorem reads_exact {s : Inner} (h : EdgeIndexes s) (id : ℕ) (direction : Direction) :
    (s.edgesOf id direction).Nodup ∧
      (∀ e, e ∈ s.edgesOf id direction ↔ ∃ i : ℕ, s.edges[i]? = some e ∧ ∃ far, e.leads id far direction) ∧
      ∀ kind, (s.neighborIds id direction kind).Nodup ∧ ∀ x, x ∈ s.neighborIds id direction kind ↔
        x ≠ id ∧ ∃ e ∈ s.edgesOf id direction, (∀ k ∈ kind, e.kind = k) ∧ e.leads id x direction := by
  refine ⟨edgesOf_nodup h id direction,mem_edgesOf h id direction,?_⟩
  intro kind
  refine ⟨neighborIds_nodup s id direction kind,?_⟩
  intro x
  rw [mem_neighborIds h]
  refine and_congr_right fun _ => ?_
  constructor
  · rintro ⟨i,e,he,hl,hk⟩
    exact ⟨e,(mem_edgesOf h id direction e).mpr ⟨i,he,x,hl⟩,hk,hl⟩
  · rintro ⟨e,he,hk,hl⟩
    obtain ⟨i,hi,-⟩ := (mem_edgesOf h id direction e).mp he
    exact ⟨i,e,hi,hl,hk⟩

section Sample
attribute [local instance] Json.compactText

/-- A self-loop, two parallel edges that change their kinds, and an edge of another kind. -/
def sampleEdges : List GraphOp :=
  [.upsertEdge ⟨1,1,7,7,"KNOWS",default,0,default⟩,.upsertEdge ⟨2,2,7,8,"LIKES",default,0,default⟩,
    .upsertEdge ⟨3,3,7,8,"KNOWS",default,0,default⟩,.upsertEdge ⟨2,2,7,8,"KNOWS",default,0,default⟩,
    .upsertEdge ⟨4,4,9,7,"LIKES",default,0,default⟩]

theorem sampleEdges_read : ((({} : Inner).applyOps sampleEdges).edgesOf 7 .both).Nodup ∧
    (({} : Inner).applyOps sampleEdges).neighborIds 7 .both (some "KNOWS") = [8] := by
  have hread := reads_exact (applyOps_wf empty_wf sampleEdges).edges 7 .both
  exact ⟨hread.1,by decide +kernel⟩

end Sample

/-! ## Equal graphs answer alike -/

/-- The two states give the same answers: lists in the same order from the lookups by kind and
title, the same members from the traversals. -/
structure SameReads (s t : Inner) : Prop where
  byTitle : ∀ title, t.getNodeByTitle title = s.getNodeByTitle title
  allByTitle : ∀ title, t.nodesByTitle title = s.nodesByTitle title
  byKind : ∀ kind limit offset, t.nodesByKind kind limit offset = s.nodesByKind kind limit offset
  neighborIds : ∀ id direction kind x, x ∈ t.neighborIds id direction kind ↔ x ∈ s.neighborIds id direction kind
  edgesOf : ∀ id direction e, e ∈ t.edgesOf id direction ↔ e ∈ s.edgesOf id direction

theorem sameReads_of_graph [JsonText] {s t : Inner} (hs : Wf s) (ht : Wf t) (h : t.graph = s.graph) :
    SameReads s t := by
  have hn : t.nodes = s.nodes := congrArg Graph.nodes h
  have he : t.edges = s.edges := congrArg Graph.edges h
  have htitles : t.titles = s.titles := (hn ▸ ht.nodes.titles).unique hs.nodes.titles
  have hkinds : t.kindIndex = s.kindIndex := (hn ▸ ht.nodes.kinds).unique hs.nodes.kinds
  have hget : t.getNode = s.getNode := by
    funext id
    simp only [getNode,hn]
  refine ⟨?_,?_,?_,?_,?_⟩
  · intro title
    simp only [getNodeByTitle,htitles,hget]
  · intro title
    simp only [nodesByTitle,htitles,hget]
  · intro kind limit offset
    simp only [nodesByKind,hkinds,hget]
  · intro id direction kind x
    rw [mem_neighborIds ht.edges,mem_neighborIds hs.edges,he]
  · intro id direction e
    rw [mem_edgesOf ht.edges,mem_edgesOf hs.edges,he]

end Inner
end Drevo
