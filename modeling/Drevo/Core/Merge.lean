import Drevo.Core.Engine

/-! Bringing in records from outside: the import of a dump, which runs under the lock as a
whole, and the merge of a peer's changes, which takes the lock once for each change. -/
namespace Drevo
open Lib

/-! ## Import -/

structure Dump where
  nextNodeId : ℕ
  nextEdgeId : ℕ
  nodes : List Node
  edges : List Edge

structure ImportReport where
  nodesImported : ℕ := 0
  nodesSkipped : ℕ := 0
  edgesImported : ℕ := 0
  edgesSkipped : ℕ := 0
  deriving DecidableEq

namespace Inner
variable [JsonText]

/-- Store the nodes of a dump: an equal node is skipped, another one under the same id refused. -/
def importNodes (s : Inner) (report : ImportReport) :
    List Node → Except CoreError (List GraphOp × ImportReport) × Inner
  | [] => (.ok ([],report),s)
  | node :: rest =>
    match s.nodes[node.id]? with
    | some existing =>
      if existing = node then
        importNodes s { report with nodesSkipped := report.nodesSkipped+1 } rest
      else (.error (.idCollision s!"node id {node.id} already exists with different content"),s)
    | none =>
      let r := importNodes (s.applyOp (.upsertNode node))
        { report with nodesImported := report.nodesImported+1 } rest
      (r.1.map (fun p => (.upsertNode node :: p.1,p.2)),r.2)

/-- Store the edges of a dump. Their ends must be there: the nodes are stored already. -/
def importEdges (s : Inner) (report : ImportReport) :
    List Edge → Except CoreError (List GraphOp × ImportReport) × Inner
  | [] => (.ok ([],report),s)
  | edge :: rest =>
    match s.edges[edge.id]? with
    | some existing =>
      if existing.same edge then
        importEdges s { report with edgesSkipped := report.edgesSkipped+1 } rest
      else (.error (.idCollision s!"edge id {edge.id} already exists with different content"),s)
    | none =>
      if s.nodes[edge.fromId]?.isNone then (.error (.nodeNotFound edge.fromId),s)
      else if s.nodes[edge.toId]?.isNone then (.error (.nodeNotFound edge.toId),s)
      else
        let r := importEdges (s.applyOp (.upsertEdge edge))
          { report with edgesImported := report.edgesImported+1 } rest
        (r.1.map (fun p => (.upsertEdge edge :: p.1,p.2)),r.2)

def importDump (s : Inner) (dump : Dump) : Except CoreError (List GraphOp × ImportReport) × Inner :=
  match s.importNodes {} dump.nodes with
  | (.error err,s) => (.error err,s)
  | (.ok (ops,report),s) =>
    match s.importEdges report dump.edges with
    | (.error err,s) => (.error err,s)
    | (.ok (more,report),s) =>
      let ids := (s.ids.observeNode (dump.nextNodeId-1)).observeEdge (dump.nextEdgeId-1)
      (.ok (ops ++ more,report),{ s with ids := ids })

omit [JsonText] in
def nextNode (s : Inner) : ℕ × Inner :=
  (s.ids.node+1,{ s with ids := { s.ids with node := s.ids.node+1 } })

omit [JsonText] in
def nextEdge (s : Inner) : ℕ × Inner :=
  (s.ids.edge+1,{ s with ids := { s.ids with edge := s.ids.edge+1 } })

end Inner

/-! ## Merge -/

namespace StampedChange

def applyPhase : StampedChange → ℕ
  | .node _ _ => 0
  | .edge _ _ _ _ => 1
  | .deleteEdge _ _ => 2
  | .deleteNode _ _ => 3

/-- The changes by phase, in their order within a phase. -/
def ordered (changes : List StampedChange) : List StampedChange :=
  [0,1,2,3].flatMap (fun phase => changes.filter (fun c => c.applyPhase = phase))

end StampedChange

def StampTarget.isNode : StampTarget → Bool
  | .node _ => true
  | .edge _ => false

namespace Remap

/-- Identity by UUID: live records from the graph, deleted ones from the tombstones. -/
def ofInner (s : Inner) (tomb : Map Uuid StampTarget) : Remap where
  node := s.nodes.toList.foldl (fun m p => m.insert p.2.uuid p.2.id) ∅
  edge := s.edges.toList.foldl (fun m p => m.insert p.2.uuid p.2.id) ∅
  tomb := tomb

/-- The local target of a UUID: the live record, else its tombstone. -/
def nodeTarget (r : Remap) (uuid : Uuid) : Option StampTarget :=
  match r.node[uuid]? with
  | some id => some (.node id)
  | none => r.tomb[uuid]?.filter StampTarget.isNode

def edgeTarget (r : Remap) (uuid : Uuid) : Option StampTarget :=
  match r.edge[uuid]? with
  | some id => some (.edge id)
  | none => r.tomb[uuid]?.filter (fun t => !t.isNode)

def liveId (r : Remap) (uuid : Uuid) (isNode : Bool) : Option ℕ :=
  if isNode then r.node[uuid]? else r.edge[uuid]?

def target (r : Remap) (uuid : Uuid) (isNode : Bool) : Option StampTarget :=
  if isNode then r.nodeTarget uuid else r.edgeTarget uuid

/-- The record is deleted: only its tombstone is left. -/
def forget (r : Remap) (uuid : Uuid) (isNode : Bool) (t : StampTarget) : Remap :=
  if isNode then { r with node := r.node.erase uuid, tomb := r.tomb.insert uuid t }
  else { r with edge := r.edge.erase uuid, tomb := r.tomb.insert uuid t }

end Remap

namespace Inner

/-- The id of the local target, a fresh one for a record never seen. -/
def targetNode (s : Inner) : Option StampTarget → ℕ × Inner
  | some (.node id) => (id,s)
  | _ => s.nextNode

def targetEdge (s : Inner) : Option StampTarget → ℕ × Inner
  | some (.edge id) => (id,s)
  | _ => s.nextEdge

/-- An id for a tombstone of a record never seen. -/
def anchor (s : Inner) (isNode : Bool) : ℕ × Inner := if isNode then s.nextNode else s.nextEdge

variable [JsonText]

/-- Store a record of a peer under its local id. -/
def mergeNode (s : Inner) (target : Option StampTarget) (node : Node) : Node × Inner :=
  let p := s.targetNode target
  ({ node with id := p.1 },p.2.applyOp (.upsertNode { node with id := p.1 }))

def mergeEdge (s : Inner) (target : Option StampTarget) (edge : Edge) : Edge × Inner :=
  let p := s.targetEdge target
  ({ edge with id := p.1 },p.2.applyOp (.upsertEdge { edge with id := p.1 }))

end Inner

/-- The deletion of a record by its local id. -/
def deleteOp (isNode : Bool) (id : ℕ) : GraphOp := if isNode then .deleteNode id else .deleteEdge id

/-- Whether the local version of a target is at least as new as the incoming stamp. -/
def localWins (current : StampTarget → Option Stamp) (target : Option StampTarget) (incoming : Stamp) :
    Bool :=
  match target.bind current with
  | some stamp => incoming ≤ stamp
  | none => false

namespace Engine
variable [JsonText]

def applyDump (e : Engine) (call : ℕ) (dump : Dump) : Except CoreError ImportReport × Engine :=
  match e.writeForCommit with
  | .error err => (.error err,{ e with calls := e.calls.insert call .err })
  | .ok () =>
    match e.withLive (fun s => s.importDump dump) with
    | (.error err,e) => (.error err,{ e with calls := e.calls.insert call .err })
    | (.ok (applied,report),e) =>
      let e := if applied.isEmpty then e else e.noteCommit (.fromOps applied)
      (.ok report,e.leaveLock call applied)

/-- Begin a merge: the identity map is read before any lock is taken. -/
def deltaBegin (e : Engine) (id : ℕ) (changes : List StampedChange) (tomb : Map Uuid StampTarget) :
    Engine :=
  { e with deltas := e.deltas.insert id ⟨StampedChange.ordered changes,Remap.ofInner e.live tomb,none⟩ }

def applyNodeUpsert (e : Engine) (call : ℕ) (node : Node) (incoming : Stamp)
    (current : StampTarget → Option Stamp) (remap : Remap) : Except CoreError Bool × Engine × Remap :=
  let target := remap.nodeTarget node.uuid
  if localWins current target incoming then (.ok false,e,remap)
  else
    match e.writeForCommit with
    | .error err => (.error err,e,remap)
    | .ok () =>
      let r := e.withLive (fun s => s.mergeNode target node)
      (.ok true,(r.2.noteCommit (.node r.1.id)).leaveLock call [.upsertNode r.1],
        { remap with node := remap.node.insert node.uuid r.1.id, tomb := remap.tomb.erase node.uuid })

def applyEdgeUpsert (e : Engine) (call : ℕ) (edge : Edge) (fromUuid toUuid : Uuid) (incoming : Stamp)
    (current : StampTarget → Option Stamp) (remap : Remap) : Except CoreError Bool × Engine × Remap :=
  match remap.node[fromUuid]?,remap.node[toUuid]? with
  | some fromLocal,some toLocal =>
    let target := remap.edgeTarget edge.uuid
    if localWins current target incoming then (.ok false,e,remap)
    else
      match e.writeForCommit with
      | .error err => (.error err,e,remap)
      | .ok () =>
        let r := e.withLive (fun s => s.mergeEdge target { edge with fromId := fromLocal, toId := toLocal })
        (.ok true,(r.2.noteCommit (.edge r.1.id r.1.fromId r.1.toId)).leaveLock call [.upsertEdge r.1],
          { remap with edge := remap.edge.insert edge.uuid r.1.id, tomb := remap.tomb.erase edge.uuid })
  | _,_ => (.ok false,e,remap)

def applyDelete (e : Engine) (call : ℕ) (uuid : Uuid) (incoming : Stamp) (isNode : Bool)
    (current : StampTarget → Option Stamp) (remap : Remap) : Except CoreError Bool × Engine × Remap :=
  let live := remap.liveId uuid isNode
  let target := remap.target uuid isNode
  if localWins current target incoming then (.ok false,e,remap)
  else
    match target,live with
    | some t,some id =>
      match e.writeForCommit with
      | .error err => (.error err,e,remap)
      | .ok () =>
        let op := deleteOp isNode id
        let r := e.withLive (fun s => ((),s.applyOp op))
        (.ok true,(r.2.noteCommit (.fromOps [op])).leaveLock call [op],remap.forget uuid isNode t)
    | some t,none => (.ok true,e,remap.forget uuid isNode t)
    | none,_ =>
      match e.writeForCommit with
      | .error err => (.error err,e,remap)
      | .ok () =>
        let r := e.withLive (fun s => s.anchor isNode)
        (.ok true,r.2.noteCommit {},remap.forget uuid isNode (if isNode then .node r.1 else .edge r.1))

/-- Apply one change of a merge; `call` writes its record. -/
def applyChange (e : Engine) (call : ℕ) (change : StampedChange) (current : StampTarget → Option Stamp)
    (remap : Remap) : Except CoreError Bool × Engine × Remap :=
  match change with
  | .node node stamp => e.applyNodeUpsert call node stamp current remap
  | .edge edge fromUuid toUuid stamp => e.applyEdgeUpsert call edge fromUuid toUuid stamp current remap
  | .deleteNode uuid stamp => e.applyDelete call uuid stamp true current remap
  | .deleteEdge uuid stamp => e.applyDelete call uuid stamp false current remap

/-- A merge takes up its next change once the record of the last one is durable; an error
ends it. -/
def deltaStep (e : Engine) (id call : ℕ) (current : StampTarget → Option Stamp) : Engine :=
  match e.deltas[id]? with
  | none => e
  | some d =>
    match d.record.bind (fun c => e.calls[c]?),d.changes with
    | some .err,_ => { e with deltas := e.deltas.erase id }
    | some .applied,_ => e
    | some (.waiting _),_ => e
    | _,[] => { e with deltas := e.deltas.erase id }
    | _,change :: rest =>
      match e.applyChange call change current d.remap with
      | (.error _,e,_) => { e with deltas := e.deltas.erase id }
      | (.ok _,e,remap) => { e with deltas := e.deltas.insert id ⟨rest,remap,some call⟩ }

end Engine
end Drevo
