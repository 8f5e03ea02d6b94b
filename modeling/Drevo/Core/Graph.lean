import Drevo.Core.Inner

/-! What the store is for, without its derived structures: a graph of nodes and edges with
embeddings on the nodes, and the meaning of a logged change on it. -/
namespace Drevo
open Lib

/-- Whether the node is an end of the edge. -/
def Edge.touches (e : Edge) (id : ℕ) : Bool := e.fromId = id || e.toId = id

@[ext] structure Graph where
  nodes : Map ℕ Node := ∅
  edges : Map ℕ Edge := ∅
  embeddings : Map ℕ (List F32) := ∅

namespace Graph

def apply (g : Graph) : GraphOp → Graph
  | .upsertNode node => { g with nodes := g.nodes.insert node.id node }
  | .deleteNode id =>
    if g.nodes[id]?.isSome then
      { nodes := g.nodes.erase id
        edges := g.edges.filter (fun _ e => !e.touches id)
        embeddings := g.embeddings.erase id }
    else g
  | .upsertEdge edge => { g with edges := g.edges.insert edge.id edge }
  | .deleteEdge id => { g with edges := g.edges.erase id }
  | .setEmbedding id vector => { g with embeddings := g.embeddings.insert id vector }
  | .deleteEmbedding id => { g with embeddings := g.embeddings.erase id }

theorem apply_deleteNode {g : Graph} {id : ℕ} (h : g.nodes[id]?.isSome = true) : g.apply (.deleteNode id) =
    ⟨g.nodes.erase id,g.edges.filter (fun _ e => !e.touches id),g.embeddings.erase id⟩ := if_pos h

theorem apply_deleteNode_absent {g : Graph} {id : ℕ} (h : ¬ g.nodes[id]?.isSome = true) : g.apply (.deleteNode id) = g :=
  if_neg h

def applyAll (g : Graph) (ops : List GraphOp) : Graph := ops.foldl apply g

@[simp] theorem applyAll_nil (g : Graph) : g.applyAll [] = g := rfl

@[simp] theorem applyAll_cons (g : Graph) (op : GraphOp) (ops : List GraphOp) :
    g.applyAll (op :: ops) = (g.apply op).applyAll ops := rfl

theorem applyAll_append (g : Graph) (as bs : List GraphOp) :
    g.applyAll (as ++ bs) = (g.applyAll as).applyAll bs := List.foldl_append

theorem get_filter_edges (g : Graph) (id e : ℕ) :
    (g.edges.filter (fun _ e => !e.touches id))[e]? =
      (g.edges[e]?).filter (fun e => !e.touches id) :=
  Std.ExtTreeMap.getElem?_filter'

end Graph

def Inner.graph (s : Inner) : Graph := ⟨s.nodes,s.edges,s.embeddings⟩

end Drevo
