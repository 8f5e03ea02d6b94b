import Drevo.Core.Agree

/-! What applying a change leaves alone: the id counters only grow, and the schema, the
prepared transactions and the commit sequence stay as they are. -/
namespace Drevo
open Lib

/-- Both counters are at least as far. -/
def IdCounters.Le (a b : IdCounters) : Prop := a.node ≤ b.node ∧ a.edge ≤ b.edge

theorem IdCounters.Le.refl (a : IdCounters) : IdCounters.Le a a := ⟨le_rfl,le_rfl⟩

theorem IdCounters.Le.trans {a b c : IdCounters} (h : IdCounters.Le a b) (h' : IdCounters.Le b c) :
    IdCounters.Le a c := ⟨h.1.trans h'.1,h.2.trans h'.2⟩

/-- What a change of the graph does not touch. -/
structure Schema where
  constraints : List Constraint
  prepared : Map String PreparedEntry
  heuristic : Map String Unit
  tuples : List UniqueTuple

namespace Inner

def schema (s : Inner) : Schema := ⟨s.constraints,s.prepared,s.heuristic,s.unique.map Prod.fst⟩

/-- Changes of the graph leave the schema, the prepared transactions and the sequence alone. -/
structure SameSchema (s t : Inner) : Prop where
  schema : t.schema = s.schema
  commitSeq : t.commitSeq = s.commitSeq

theorem SameSchema.refl (s : Inner) : SameSchema s s := ⟨rfl,rfl⟩

theorem SameSchema.trans {s t u : Inner} (h : SameSchema s t) (h' : SameSchema t u) : SameSchema s u :=
  ⟨h'.schema.trans h.schema,h'.commitSeq.trans h.commitSeq⟩

theorem schema_congr {s t : Inner} (hc : t.constraints = s.constraints) (hp : t.prepared = s.prepared)
    (hh : t.heuristic = s.heuristic) (ht : t.unique.map Prod.fst = s.unique.map Prod.fst) :
    t.schema = s.schema := by
  simp only [schema,hc,hp,hh,ht]

theorem Agree.schema {s t : Inner} (h : Agree s t) : t.schema = s.schema := by
  rw [← h]
  rfl

theorem constraints_of_schema {s t : Inner} (h : t.schema = s.schema) : t.constraints = s.constraints :=
  congrArg Schema.constraints h

theorem prepared_of_schema {s t : Inner} (h : t.schema = s.schema) : t.prepared = s.prepared :=
  congrArg Schema.prepared h

theorem heuristic_of_schema {s t : Inner} (h : t.schema = s.schema) : t.heuristic = s.heuristic :=
  congrArg Schema.heuristic h

theorem tuples_of_schema {s t : Inner} (h : t.schema = s.schema) :
    t.unique.map Prod.fst = s.unique.map Prod.fst := congrArg Schema.tuples h

variable [JsonText]

theorem applyOp_ids (s : Inner) (op : GraphOp) : IdCounters.Le s.ids (s.applyOp op).ids := by
  cases op with
  | upsertNode node =>
    simp only [applyOp,upsertNode_eq]
    exact ⟨le_max_left _ _,le_rfl⟩
  | deleteNode id =>
    cases hn : s.nodes[id]? with
    | none =>
      simp only [applyOp,hn]
      exact IdCounters.Le.refl _
    | some node =>
      have hf := removeEdges_frame ((s.incidentEntries id .both).map AdjEntry.edgeId) s
      simp only [applyOp,hn]
      have hi : (s.dropNode id node).ids = s.ids := hf.ids
      rw [hi]
      exact IdCounters.Le.refl _
  | upsertEdge edge =>
    simp only [applyOp,upsertEdge_fields]
    exact ⟨le_rfl,le_max_left _ _⟩
  | deleteEdge id =>
    simp only [applyOp,(removeEdge_frame s id).ids]
    exact IdCounters.Le.refl _
  | setEmbedding id vector => exact IdCounters.Le.refl _
  | deleteEmbedding id => exact IdCounters.Le.refl _

theorem applyOps_ids (s : Inner) (ops : List GraphOp) : IdCounters.Le s.ids (s.applyOps ops).ids := by
  induction ops generalizing s with
  | nil => exact IdCounters.Le.refl _
  | cons op ops ih => exact (applyOp_ids s op).trans (ih _)

theorem mutate_ids {s : Inner} (h : Wf s) (m : Mutation) (require : Bool) :
    IdCounters.Le s.ids (s.mutate m require).2.ids := by
  rcases hr : s.mutate m require with ⟨r,t⟩
  cases r with
  | ok op => exact mutate_ok h hr ▸ applyOp_ids s op
  | error e => exact (mutate_err hr).2

theorem tuples_indexUnique (s : Inner) (node : Node) :
    (s.indexUnique node).unique.map Prod.fst = s.unique.map Prod.fst := by
  rw [indexUnique_unique,List.map_map]
  rfl

theorem tuples_unindexUnique (s : Inner) (node : Node) :
    (s.unindexUnique node).unique.map Prod.fst = s.unique.map Prod.fst := by
  rw [unindexUnique_unique,List.map_map]
  rfl

theorem tuples_unindexNode (s : Inner) (id : ℕ) :
    (s.unindexNode id).unique.map Prod.fst = s.unique.map Prod.fst := by
  unfold unindexNode
  split
  · exact tuples_unindexUnique _ _
  · rfl

theorem applyOp_schema (s : Inner) (op : GraphOp) : SameSchema s (s.applyOp op) := by
  cases op with
  | upsertNode node =>
    simp only [applyOp,upsertNode_eq]
    exact ⟨schema_congr rfl rfl rfl ((tuples_indexUnique _ _).trans (tuples_unindexNode s node.id)),rfl⟩
  | deleteNode id =>
    cases hn : s.nodes[id]? with
    | none =>
      simp only [applyOp,hn]
      exact SameSchema.refl s
    | some node =>
      have hf := removeEdges_frame ((s.incidentEntries id .both).map AdjEntry.edgeId) s
      simp only [applyOp,hn]
      exact ⟨schema_congr hf.constraints hf.prepared hf.heuristic
        ((tuples_unindexUnique _ _).trans (congrArg (List.map Prod.fst) hf.unique)),hf.commitSeq⟩
  | upsertEdge edge =>
    simp only [applyOp,upsertEdge_fields]
    exact ⟨rfl,rfl⟩
  | deleteEdge id =>
    have hf := removeEdge_frame s id
    exact ⟨schema_congr hf.constraints hf.prepared hf.heuristic (congrArg (List.map Prod.fst) hf.unique),
      hf.commitSeq⟩
  | setEmbedding id vector => exact ⟨rfl,rfl⟩
  | deleteEmbedding id => exact ⟨rfl,rfl⟩

theorem applyOps_schema (s : Inner) (ops : List GraphOp) : SameSchema s (s.applyOps ops) := by
  induction ops generalizing s with
  | nil => exact SameSchema.refl s
  | cons op ops ih => exact (applyOp_schema s op).trans (ih _)

end Inner
end Drevo
