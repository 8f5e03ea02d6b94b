import Drevo.Core.Mutate

/-! Applying logged operations, and the snapshot form of a state as a list of operations. -/
namespace Drevo
open Lib

namespace Inner
variable [JsonText]

/-- Take the stored version of a node out of the indexes. -/
def unindexNode (s : Inner) (id : ℕ) : Inner :=
  match s.nodes[id]? with
  | some old => ((s.unindexTitle id old.title).unindexNodeKind id old.kind).unindexUnique old
  | none => s

def upsertNode (s : Inner) (node : Node) : Inner :=
  let s := s.unindexNode node.id
  let s := s.indexTitle node.id node.title
  let s := s.indexUnique node
  let s := s.indexNodeKind node.id node.kind
  let s := { s with ids := s.ids.observeNode node.id }
  let s := s.observeUpdatedAt node.updatedAt
  { s with nodes := s.nodes.insert node.id node }

omit [JsonText] in
def upsertEdge (s : Inner) (edge : Edge) : Inner :=
  let s := if s.edges.contains edge.id then s.removeEdge edge.id else s
  let s := { s with ids := s.ids.observeEdge edge.id }
  s.placeEdge edge

/-- Apply one change of the graph: records are stored verbatim, the derived structures are
rebuilt from them, and the id counters move past every id seen. -/
def applyOp (s : Inner) : GraphOp → Inner
  | .upsertNode node => s.upsertNode node
  | .deleteNode id =>
    match s.nodes[id]? with
    | some node => s.dropNode id node
    | none => s
  | .upsertEdge edge => s.upsertEdge edge
  | .deleteEdge id => s.removeEdge id
  | .setEmbedding id vector => { s with embeddings := s.embeddings.insert id vector }
  | .deleteEmbedding id => { s with embeddings := s.embeddings.erase id }

def applyOps (s : Inner) (ops : List GraphOp) : Inner := ops.foldl applyOp s

/-- Apply one log entry. A prepared write set is kept until it is resolved and applied then. -/
def applyWalOp (s : Inner) : WalOp → Inner
  | .graph op => s.applyOp op
  | .prepare gid preparedAtMs ops =>
    { s with
      heuristic := s.heuristic.erase gid
      prepared := s.prepared.insert gid ⟨preparedAtMs,ops⟩ }
  | .commitPrepared gid =>
    match s.prepared[gid]? with
    | some entry => { s with prepared := s.prepared.erase gid }.applyOps entry.ops
    | none => s
  | .rollbackPrepared gid heuristic =>
    let s := { s with prepared := s.prepared.erase gid }
    if heuristic then { s with heuristic := s.heuristic.insert gid () } else s

def applyWalOps (s : Inner) (ops : List WalOp) : Inner := ops.foldl applyWalOp s

omit [JsonText] in
/-- The state as log entries: nodes, edges and embeddings by id, then the prepared write
sets, then the heuristic outcomes. -/
def toWalOps (s : Inner) : List WalOp :=
  s.nodes.toList.map (fun p => .graph (.upsertNode p.2)) ++
  s.edges.toList.map (fun p => .graph (.upsertEdge p.2)) ++
  s.embeddings.toList.map (fun p => .graph (.setEmbedding p.1 p.2)) ++
  s.prepared.toList.map (fun p => .prepare p.1 p.2.preparedAtMs p.2.ops) ++
  s.heuristic.toList.map (fun p => .rollbackPrepared p.1 true)

end Inner
end Drevo
