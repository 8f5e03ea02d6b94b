import Drevo.Core.Inner

/-! The live mutations of the graph: validated first, then applied in place. Each returns its
result together with the state it leaves, which a failure can have changed in its id
counters only. -/
namespace Drevo
open Lib

namespace Inner

/-- The node a patch makes of a stored one, before its time stamp is renewed. -/
def patchNode (node : Node) (patch : NodePatch) : Node :=
  { node with
    title := patch.title.getD node.title
    kind := patch.kind.getD node.kind
    body := patch.body.getD node.body
    bodyHtml := patch.bodyHtml.getD node.bodyHtml
    properties := patch.properties.getD node.properties }

def patchEdge (edge : Edge) (patch : EdgePatch) : Edge :=
  { edge with
    kind := patch.kind.getD edge.kind
    weight := patch.weight.getD edge.weight
    properties := patch.properties.getD edge.properties }

section Nodes
variable [JsonText]

/-- The uniqueness rules and, when `require` is set, the existence rules too. -/
def checkNode (s : Inner) (node : Node) (require : Bool) : Except ConstraintViolation Unit :=
  match s.checkUnique node with
  | .error violation => .error violation
  | .ok () => if require then s.checkExists node else .ok ()

def createNodeChecked (s : Inner) (newNode : NewNode) (mint : Mint) (require : Bool) :
    Except CoreError Node × Inner :=
  let s := { s with ids := { s.ids with node := s.ids.node+1 } }
  let id := s.ids.node
  let node := newNode.intoNode id mint
  match s.checkNode node require with
  | .error violation => (.error (.constraintViolation violation),s)
  | .ok () =>
    let s := s.observeUpdatedAt node.updatedAt
    let s := s.indexTitle id node.title
    let s := s.indexNodeKind id node.kind
    let s := s.indexUnique node
    (.ok node,{ s with nodes := s.nodes.insert id node })

def updateNodeChecked (s : Inner) (id : ℕ) (patch : NodePatch) (mint : Mint) (require : Bool) :
    Except CoreError Node × Inner :=
  match s.nodes[id]? with
  | none => (.error (.nodeNotFound id),s)
  | some old =>
    let node := patchNode old patch
    match s.checkNode node require with
    | .error violation => (.error (.constraintViolation violation),s)
    | .ok () =>
      let s := if old.title = node.title then s
        else (s.unindexTitle id old.title).indexTitle id node.title
      let s := if old.kind = node.kind then s
        else (s.unindexNodeKind id old.kind).indexNodeKind id node.kind
      let s := s.unindexUnique old
      let s := s.indexUnique node
      let ts := s.nextUpdatedAt mint.now
      let node := { node with updatedAt := ts }
      (.ok node,{ s with lastUpdatedAt := ts, nodes := s.nodes.insert id node })

/-- Remove a stored node with its edges, its index entries and its embedding. -/
def dropNode (s : Inner) (id : ℕ) (node : Node) : Inner :=
  let edgeIds := (s.incidentEntries id .both).map AdjEntry.edgeId
  let s := edgeIds.foldl removeEdge s
  let s := s.unindexTitle id node.title
  let s := s.unindexNodeKind id node.kind
  let s := s.unindexUnique node
  { s with nodes := s.nodes.erase id, embeddings := s.embeddings.erase id }

def deleteNode (s : Inner) (id : ℕ) : Except CoreError Unit × Inner :=
  match s.nodes[id]? with
  | none => (.error (.nodeNotFound id),s)
  | some node => (.ok (),s.dropNode id node)

end Nodes

/-- File an edge in both adjacency maps under its interned kind and store it. -/
def placeEdge (s : Inner) (edge : Edge) : Inner :=
  let (kindId,s) := s.internKind edge.kind
  let s := { s with outAdj := s.outAdj.insertAdjSorted edge.fromId ⟨edge.id,edge.toId,kindId⟩ }
  let s := { s with inAdj := s.inAdj.insertAdjSorted edge.toId ⟨edge.id,edge.fromId,kindId⟩ }
  { s with edges := s.edges.insert edge.id edge }

def createEdge (s : Inner) (newEdge : NewEdge) (mint : Mint) : Except CoreError Edge × Inner :=
  if !newEdge.weight.isFinite then (.error (.invalidWeight newEdge.weight),s)
  else if !s.nodes.contains newEdge.fromId then (.error (.nodeNotFound newEdge.fromId),s)
  else if !s.nodes.contains newEdge.toId then (.error (.nodeNotFound newEdge.toId),s)
  else
    let s := { s with ids := { s.ids with edge := s.ids.edge+1 } }
    let edge := newEdge.intoEdge s.ids.edge mint
    (.ok edge,s.placeEdge edge)

def updateEdge (s : Inner) (id : ℕ) (patch : EdgePatch) : Except CoreError Edge × Inner :=
  match patch.weight.filter (fun w => !w.isFinite) with
  | some w => (.error (.invalidWeight w),s)
  | none =>
    match s.edges[id]? with
    | none => (.error (.edgeNotFound id),s)
    | some old =>
      let edge := patchEdge old patch
      let s :=
        if patch.kind.isSome then
          let (kindId,s) := s.internKind edge.kind
          { s with
            outAdj := s.outAdj.modify edge.fromId (Adjacency.rekind id kindId)
            inAdj := s.inAdj.modify edge.toId (Adjacency.rekind id kindId) }
        else s
      (.ok edge,{ s with edges := s.edges.insert id edge })

def deleteEdge (s : Inner) (id : ℕ) : Except CoreError Unit × Inner :=
  if s.edges.contains id then (.ok (),s.removeEdge id) else (.error (.edgeNotFound id),s)

end Inner

/-- A live mutation with its arguments and what it draws from its surroundings. -/
inductive Mutation where
  | createNode (newNode : NewNode) (mint : Mint)
  | updateNode (id : ℕ) (patch : NodePatch) (mint : Mint)
  | deleteNode (id : ℕ)
  | createEdge (newEdge : NewEdge) (mint : Mint)
  | updateEdge (id : ℕ) (patch : EdgePatch)
  | deleteEdge (id : ℕ)

namespace Inner
variable [JsonText]

/-- Run a mutation; a success is reported as the operation it logs. -/
def mutate (s : Inner) (m : Mutation) (require : Bool) : Except CoreError GraphOp × Inner :=
  match m with
  | .createNode newNode mint =>
    (s.createNodeChecked newNode mint require).map (Except.map .upsertNode) id
  | .updateNode i patch mint =>
    (s.updateNodeChecked i patch mint require).map (Except.map .upsertNode) id
  | .deleteNode i => (s.deleteNode i).map (Except.map (fun _ => .deleteNode i)) id
  | .createEdge newEdge mint => (s.createEdge newEdge mint).map (Except.map .upsertEdge) id
  | .updateEdge i patch => (s.updateEdge i patch).map (Except.map .upsertEdge) id
  | .deleteEdge i => (s.deleteEdge i).map (Except.map (fun _ => .deleteEdge i)) id

end Inner
end Drevo
