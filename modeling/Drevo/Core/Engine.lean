import Drevo.Core.Conflict
import Drevo.Lib.GroupCommit

/-! The engine around the live state: direct writes, registered transactions, two-phase
commit, constraints. Every function runs under the writer lock unless it says otherwise;
what it draws from its surroundings (the clock, fresh UUIDs, whether a flush succeeds) is an
argument. -/
namespace Drevo
open Lib

/-- When a transaction may commit after others did. -/
inductive Isolation where
  | snapshot | serializable
  deriving DecidableEq

/-- An open transaction: the snapshot it began from, its private copy and what it logs. -/
structure TxSlot where
  base : Inner
  baseEpoch : ℕ
  working : Inner
  ops : List GraphOp := []
  isolation : Isolation
  limited : Bool

/-- Why a commit failed. The text of an I/O error is the operating system's. -/
inductive CommitError where
  | conflict
  | constraint (violation : ConstraintViolation)
  | io
  | unknownTransaction
  | preparedPending (gids : List String)
  | readOnly
  deriving DecidableEq

inductive PrepareError where
  | unknownTransaction
  | conflict
  | constraint (violation : ConstraintViolation)
  | duplicateGid (gid : String)
  | preparedPending (gids : List String)
  | io
  | readOnly
  deriving DecidableEq

inductive ResolveError where
  | unknownGid (gid : String)
  | heuristicRollback (gid : String)
  | io
  | readOnly
  deriving DecidableEq

/-- Where a direct write is after it released the writer lock: about to queue its record,
waiting for it to be durable, or returned. -/
inductive CallState where
  | applied
  | waiting (seq : ℕ)
  | ok
  | err
  deriving DecidableEq

abbrev Stamp := ℤ ×ₗ ℕ ×ₗ ℕ

inductive StampTarget where
  | node (id : ℕ)
  | edge (id : ℕ)
  deriving DecidableEq

/-- A change received from a peer. An edge carries its ends by UUID. -/
inductive StampedChange where
  | node (node : Node) (stamp : Stamp)
  | edge (edge : Edge) (fromUuid toUuid : Uuid) (stamp : Stamp)
  | deleteNode (uuid : Uuid) (stamp : Stamp)
  | deleteEdge (uuid : Uuid) (stamp : Stamp)

/-- UUIDs to local ids, read once when a merge begins and kept current by the merge itself. -/
structure Remap where
  node : Map Uuid ℕ := ∅
  edge : Map Uuid ℕ := ∅
  tomb : Map Uuid StampTarget := ∅

/-- A merge under way: the changes still to apply, its identity map and the call that writes
the record of the last change. -/
structure DeltaCall where
  changes : List StampedChange
  remap : Remap
  record : Option ℕ := none

/-- The engine. `epoch` counts the times the shared pointer to the live state was replaced or
its target copied, so that two equal epochs mean one pointer; `ids` is the pair of counters
all copies of the state share. -/
structure Engine where
  live : Inner := {}
  epoch : ℕ := 0
  ids : IdCounters := {}
  txs : Map ℕ TxSlot := ∅
  nextRegTx : ℕ := 0
  history : CommitHistory := {}
  readOnly : Bool := false
  maxTxWrites : Option ℕ := none
  durable : Bool := true
  queue : GroupQueue (List WalOp) := {}
  inflight : List (ℕ × List GraphOp) := []
  calls : Map ℕ CallState := ∅
  deltas : Map ℕ DeltaCall := ∅

namespace Engine

/-- A copy of the state as its holder sees it, with the counters as they are now. -/
def load (e : Engine) (s : Inner) : Inner := { s with ids := e.ids }

/-- Make the live state writable and run a mutation on it. -/
def withLive {α : Type} (e : Engine) (f : Inner → α × Inner) : α × Engine :=
  let r := f (e.load e.live)
  (r.1,{ e with live := r.2, ids := r.2.ids, epoch := e.epoch+1 })

def install (e : Engine) (s : Inner) : Engine := { e with live := s, epoch := e.epoch+1 }

def noteCommit (e : Engine) (touched : ConflictSet) : Engine :=
  { e with
    live := { e.live with commitSeq := e.live.commitSeq+1 }
    history := e.history.push (e.live.commitSeq+1) touched }

def preparedGids (e : Engine) : List String := e.live.prepared.toList.map Prod.fst

def writeForCommit (e : Engine) : Except CoreError Unit :=
  if e.readOnly then .error .readOnly
  else if !e.live.prepared.isEmpty then .error (.preparedTransactionPending e.preparedGids)
  else .ok ()

def record (e : Engine) (ops : List WalOp) (io : Bool) : Bool × Engine :=
  if ops.isEmpty || !e.durable then (true,e)
  else
    let r := e.queue.commit ops io
    (r.1,{ e with queue := r.2 })

/-- Leave the lock with a record still to be written by the caller `call`. -/
def leaveLock (e : Engine) (call : ℕ) (ops : List GraphOp) : Engine :=
  if ops.isEmpty || !e.durable then { e with calls := e.calls.insert call .ok }
  else { e with inflight := e.inflight ++ [(call,ops)], calls := e.calls.insert call .applied }

end Engine

/-! ## Direct writes -/

/-- A write on the graph outside any transaction. -/
inductive DirectWrite where
  | mutation (m : Mutation)
  | setEmbedding (id : ℕ) (vector : List F32)
  | setEmbeddings (embeddings : List (ℕ × List F32))
  | deleteEmbedding (id : ℕ)

/-- What a single-record write reports as touched. -/
def touchedBy : GraphOp → ConflictSet
  | .upsertNode node => .node node.id
  | .deleteNode id => .deletedNode id
  | .upsertEdge edge => .edge edge.id edge.fromId edge.toId
  | .deleteEdge id => .deletedEdge id
  | .setEmbedding id _ => .node id
  | .deleteEmbedding id => .node id

namespace DirectWrite
variable [JsonText]

/-- The part of a direct write under the lock. -/
def run (s : Inner) : DirectWrite → Except CoreError (List GraphOp) × Inner
  | .mutation m => (s.mutate m true).map (Except.map (fun op => [op])) id
  | .setEmbedding id vector =>
    if s.nodes.contains id then
      (.ok [.setEmbedding id vector],s.applyOp (.setEmbedding id vector))
    else (.error (.nodeNotFound id),s)
  | .setEmbeddings embeddings =>
    match embeddings.find? (fun p => !s.nodes.contains p.1) with
    | some p => (.error (.nodeNotFound p.1),s)
    | none =>
      let ops := embeddings.map (fun p => .setEmbedding p.1 p.2)
      (.ok ops,s.applyOps ops)
  | .deleteEmbedding id => (.ok [.deleteEmbedding id],s.applyOp (.deleteEmbedding id))

omit [JsonText] in
/-- An empty batch returns before it takes the lock. -/
def isNoop : DirectWrite → Bool
  | .setEmbeddings [] => true
  | _ => false

omit [JsonText] in
/-- What the write reports as touched: a batch its operations, a single write its record. -/
def touched : DirectWrite → List GraphOp → ConflictSet
  | .setEmbeddings _,ops => .fromOps ops
  | _,[op] => touchedBy op
  | _,ops => .fromOps ops

end DirectWrite

/-- A batch of writes with one log record: built on a copy that is swapped in once the record
is durable. -/
inductive BatchWrite where
  | createNodes (newNodes : List (NewNode × Mint))
  | createEdges (newEdges : List (NewEdge × Mint))
  | deleteNodes (ids : List ℕ)

namespace BatchWrite
variable [JsonText]

/-- Run mutations until one fails. -/
def mutateAll (s : Inner) : List Mutation → Except CoreError (List GraphOp) × Inner
  | [] => (.ok [],s)
  | m :: rest =>
    match s.mutate m true with
    | (.error e,t) => (.error e,t)
    | (.ok op,t) => (mutateAll t rest).map (Except.map (fun ops => op :: ops)) id

/-- Delete the nodes that are there; absent ids are skipped. -/
def deleteAll (s : Inner) : List ℕ → List GraphOp × Inner
  | [] => ([],s)
  | i :: rest =>
    match s.deleteNode i with
    | (.error _,_) => deleteAll s rest
    | (.ok (),t) => (deleteAll t rest).map (fun ops => .deleteNode i :: ops) id

omit [JsonText] in
/-- An empty create returns before it takes the lock. -/
def isNoop : BatchWrite → Bool
  | .createNodes [] => true
  | .createEdges [] => true
  | _ => false

def run (s : Inner) : BatchWrite → Except CoreError (List GraphOp) × Inner
  | .createNodes newNodes => mutateAll s (newNodes.map (fun p => .createNode p.1 p.2))
  | .createEdges newEdges => mutateAll s (newEdges.map (fun p => .createEdge p.1 p.2))
  | .deleteNodes ids => (deleteAll s ids).map .ok id

end BatchWrite

namespace Engine
variable [JsonText]

/-- A direct write up to the release of the lock. The state is made writable before the write
is validated, so that a refused write changes the pointer too. -/
def direct (e : Engine) (call : ℕ) (w : DirectWrite) : Except CoreError (List GraphOp) × Engine :=
  if w.isNoop then (.ok [],{ e with calls := e.calls.insert call .ok })
  else
    match e.writeForCommit with
    | .error err => (.error err,{ e with calls := e.calls.insert call .err })
    | .ok () =>
      match e.withLive (fun s => w.run s) with
      | (.error err,e) => (.error err,{ e with calls := e.calls.insert call .err })
      | (.ok ops,e) => (.ok ops,(e.noteCommit (w.touched ops)).leaveLock call ops)

/-- The caller queues the record of its write; encoding it can fail. -/
def enqueue (e : Engine) (call : ℕ) (encoded : Bool) : Engine :=
  match e.inflight.find? (fun p => p.1 = call) with
  | none => e
  | some (_,ops) =>
    let e := { e with inflight := e.inflight.filter (fun p => p.1 ≠ call) }
    match if encoded then e.queue.enqueue (ops.map .graph) else none with
    | none => { e with calls := e.calls.insert call .err }
    | some (seq,q) => { e with queue := q, calls := e.calls.insert call (.waiting seq) }

/-- The caller looks at the queue: it returns once its record is durable or the log broken. -/
def await (e : Engine) (call : ℕ) : Engine :=
  match e.calls[call]? with
  | some (.waiting seq) =>
    if e.queue.durableSeq ≥ seq then { e with calls := e.calls.insert call .ok }
    else if e.queue.broken then { e with calls := e.calls.insert call .err }
    else e
  | _ => e

def batch (e : Engine) (w : BatchWrite) (io : Bool) : Except CoreError (List GraphOp) × Engine :=
  if w.isNoop then (.ok [],e)
  else
    match e.writeForCommit with
    | .error err => (.error err,e)
    | .ok () =>
      let r := w.run (e.load e.live)
      let e := { e with ids := r.2.ids }
      match r.1 with
      | .error err => (.error err,e)
      | .ok ops =>
        if ops.isEmpty then (.ok [],e)
        else
          match e.record (ops.map .graph) io with
          | (false,e) => (.error .io,e)
          | (true,e) => (.ok ops,(e.install r.2).noteCommit (.fromOps ops))

/-! ## Transactions -/

omit [JsonText] in
def txBegin (e : Engine) (isolation : Isolation) (limited : Bool) : ℕ × Engine :=
  let id := e.nextRegTx+1
  let slot : TxSlot :=
    { base := e.live, baseEpoch := e.epoch, working := e.live, isolation := isolation, limited := limited }
  (id,{ e with nextRegTx := id, txs := e.txs.insert id slot })

omit [JsonText] in
def checkTxRoom (e : Engine) (buffered : ℕ) : Except CoreError Unit :=
  match e.maxTxWrites with
  | some limit => if buffered ≥ limit then .error (.transactionTooLarge limit) else .ok ()
  | none => .ok ()

/-- A write of an open transaction: on its private copy, and buffered for the log. -/
def txWrite (e : Engine) (id : ℕ) (m : Mutation) : Except CoreError GraphOp × Engine :=
  match e.txs[id]? with
  | none => (.error (.backend "the transaction has already been closed"),e)
  | some slot =>
    match if slot.limited then e.checkTxRoom slot.ops.length else .ok () with
    | .error err => (.error err,e)
    | .ok () =>
      let r := (e.load slot.working).mutate m false
      let slot := { slot with
        working := r.2
        ops := match r.1 with
          | .ok op => slot.ops ++ [op]
          | .error _ => slot.ops }
      (r.1,{ e with ids := r.2.ids, txs := e.txs.insert id slot })

/-- The live state with the writes of a transaction replayed on it. -/
def merged (e : Engine) (slot : TxSlot) : Inner := (e.load e.live).applyOps slot.ops

/-- Commit a transaction that is no longer registered: check it against the prepared write
sets and against what committed since it began, validate the constraints, log its writes and
make them live. -/
def commitParts (e : Engine) (slot : TxSlot) (io : Bool) : Except CommitError Unit × Engine :=
  if slot.ops.isEmpty then (.ok (),e)
  else if e.readOnly then (.error .readOnly,e)
  else
    let mine := ConflictSet.fromOps slot.ops
    if !e.live.prepared.isEmpty && mine.intersects e.live.preparedSet then
      (.error (.preparedPending e.preparedGids),e)
    else if e.epoch = slot.baseEpoch then
      -- nothing happened to the live state since the transaction began: its copy goes live
      match slot.working.validateConstraints with
      | .error violation => (.error (.constraint violation),e)
      | .ok () =>
        if slot.working.breaksPrepared then (.error (.preparedPending e.preparedGids),e)
        else
          match e.record (slot.ops.map .graph) io with
          | (false,e) => (.error .io,e)
          | (true,e) => (.ok (),(e.install slot.working).noteCommit mine)
    else if e.history.classify slot.base.commitSeq mine ≠ .wouldPass ∨ slot.isolation = .serializable then
      (.error .conflict,e)
    else
      match slot.working.validateConstraints with
      | .error violation => (.error (.constraint violation),e)
      | .ok () =>
        let merged := e.merged slot
        let e := { e with ids := merged.ids }
        match merged.validateConstraints with
        | .error _ => (.error .conflict,e)
        | .ok () =>
          if merged.breaksPrepared then (.error (.preparedPending e.preparedGids),e)
          else
            match e.record (slot.ops.map .graph) io with
            | (false,e) => (.error .io,e)
            | (true,e) => (.ok (),(e.install merged).noteCommit mine)

def txCommit (e : Engine) (id : ℕ) (io : Bool) : Except CommitError Unit × Engine :=
  match e.txs[id]? with
  | none => (.error .unknownTransaction,e)
  | some slot => { e with txs := e.txs.erase id }.commitParts slot io

omit [JsonText] in
def txRollback (e : Engine) (id : ℕ) : Bool × Engine :=
  (e.txs.contains id,{ e with txs := e.txs.erase id })

/-! ## Two-phase commit -/

omit [JsonText] in
/-- The live state with a write set kept under `gid`. -/
def fenced (e : Engine) (gid : String) (now : ℤ) (ops : List GraphOp) : Inner :=
  { e.live with
    heuristic := e.live.heuristic.erase gid
    prepared := e.live.prepared.insert gid ⟨now,ops⟩ }

/-- Validate a transaction that is no longer registered as a commit would, log its write set
and keep it under `gid`. -/
def prepareParts (e : Engine) (slot : TxSlot) (gid : String) (now : ℤ) (io : Bool) :
    Except PrepareError Unit × Engine :=
  if e.readOnly then (.error .readOnly,e)
  else if e.live.prepared.contains gid then (.error (.duplicateGid gid),e)
  else if !e.live.prepared.isEmpty then (.error (.preparedPending e.preparedGids),e)
  else if e.epoch ≠ slot.baseEpoch then (.error .conflict,e)
  else
    match slot.working.validateConstraints with
    | .error violation => (.error (.constraint violation),e)
    | .ok () =>
      match e.record [.prepare gid now slot.ops] io with
      | (false,e) => (.error .io,e)
      | (true,e) => (.ok (),(e.install (e.fenced gid now slot.ops)).noteCommit {})

def txPrepare (e : Engine) (id : ℕ) (gid : String) (now : ℤ) (io : Bool) :
    Except PrepareError Unit × Engine :=
  match e.txs[id]? with
  | none => (.error .unknownTransaction,e)
  | some slot => { e with txs := e.txs.erase id }.prepareParts slot gid now io

def commitPrepared (e : Engine) (gid : String) (io : Bool) : Except ResolveError Unit × Engine :=
  if e.readOnly then (.error .readOnly,e)
  else
    match e.live.prepared[gid]? with
    | none =>
      (.error (if e.live.heuristic.contains gid then .heuristicRollback gid else .unknownGid gid),e)
    | some entry =>
      match e.record [.commitPrepared gid] io with
      | (false,e) => (.error .io,e)
      | (true,e) =>
        let r := e.withLive (fun s => ((),s.applyWalOp (.commitPrepared gid)))
        (.ok (),r.2.noteCommit (.fromOps entry.ops))

def rollbackPreparedAs (e : Engine) (gid : String) (heuristic io : Bool) :
    Except ResolveError Unit × Engine :=
  if e.readOnly then (.error .readOnly,e)
  else if !e.live.prepared.contains gid then
    if !heuristic && e.live.heuristic.contains gid then (.ok (),e)
    else (.error (.unknownGid gid),e)
  else
    match e.record [.rollbackPrepared gid heuristic] io with
    | (false,e) => (.error .io,e)
    | (true,e) =>
      let r := e.withLive (fun s => ((),s.applyWalOp (.rollbackPrepared gid heuristic)))
      (.ok (),r.2.noteCommit {})

/-! ## Constraints -/

def addConstraint (e : Engine) (c : Constraint) : Except ConstraintViolation Unit × Engine :=
  let e := e.install e.live
  if c ∈ e.live.constraints then (.ok (),e)
  else
    let live := { e.live with constraints := e.live.constraints ++ [c] }
    match live.validateConstraints with
    | .error violation => (.error violation,e)
    | .ok () => (.ok (),{ e with live := live.syncUnique }.noteCommit .all)

def removeConstraint (e : Engine) (c : Constraint) : Bool × Engine :=
  let e := e.install e.live
  let live := { e.live with constraints := e.live.constraints.filter (fun d => d ≠ c) }.syncUnique
  let removed := live.constraints.length != e.live.constraints.length
  let e := { e with live := live }
  (removed,if removed then e.noteCommit .all else e)

end Engine
end Drevo
