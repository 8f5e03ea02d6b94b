import Drevo.Lib.Index

/-! The multi-version store: transaction ids with their commit log, snapshots, version chains, the
checked writes, the isolation levels and the collector. A chain is kept newest first, so that the
end of the source's vector is the head of the list. -/
set_option linter.unusedSectionVars false

namespace Drevo.Mvcc
open Lib Std

/-- No transaction: the end of a version that was not retired. -/
def invalidXid : ℕ := 0

inductive XidStatus where
  | inProgress | committed | aborted
  deriving DecidableEq

inductive MvccError where
  | notInProgress (xid : ℕ)
  | writeConflict (conflicting : ℕ)
  | serializationFailure (conflicting : ℕ)
  deriving DecidableEq

/-- The transactions that had completed at some time: those under `xmax` that were not `active`. -/
structure Snapshot where
  xmin : ℕ
  xmax : ℕ
  active : List ℕ
  myXid : ℕ

/-- The ids given out, how they ended, and the registered readers by their `xmin`. -/
structure Registry where
  next : ℕ := 1
  status : Map ℕ XidStatus := ∅
  activeSnaps : Map ℕ ℕ := ∅

namespace Registry

def begin (r : Registry) : ℕ × Registry :=
  (r.next,{ r with next := r.next+1, status := r.status.insert r.next .inProgress })

def finish (r : Registry) (xid : ℕ) (outcome : XidStatus) : Except MvccError Registry :=
  match r.status[xid]? with
  | some .inProgress => .ok { r with status := r.status.insert xid outcome }
  | _ => .error (.notInProgress xid)

def commit (r : Registry) (xid : ℕ) : Except MvccError Registry := r.finish xid .committed

def abort (r : Registry) (xid : ℕ) : Except MvccError Registry := r.finish xid .aborted

def statusOf (r : Registry) (xid : ℕ) : XidStatus :=
  if xid = invalidXid then .aborted else r.status[xid]?.getD .aborted

/-- The ids in progress, in order. -/
def inProgress (r : Registry) : List ℕ :=
  (r.status.toList.filter (fun p => p.2 = .inProgress)).map Prod.fst

def snapshot (r : Registry) (myXid : ℕ) : Snapshot where
  xmin := r.inProgress.head?.getD r.next
  xmax := r.next
  active := r.inProgress
  myXid := myXid

def beginSnapshot (r : Registry) (myXid : ℕ) : Snapshot × Registry :=
  let snap := r.snapshot myXid
  (snap,{ r with activeSnaps := r.activeSnaps.insert snap.xmin (r.activeSnaps[snap.xmin]?.getD 0+1) })

def releaseSnapshot (r : Registry) (xmin : ℕ) : Registry :=
  match r.activeSnaps[xmin]? with
  | none => r
  | some count =>
    if count-1 = 0 then { r with activeSnaps := r.activeSnaps.erase xmin }
    else { r with activeSnaps := r.activeSnaps.insert xmin (count-1) }

/-- The oldest registered reader or transaction in progress, the next id if there is none. -/
def gcHorizon (r : Registry) : ℕ :=
  let oldestReader := (r.activeSnaps.toList.map Prod.fst).head?
  let oldestInProgress := r.inProgress.head?
  (oldestReader.toList ++ oldestInProgress.toList).min?.getD r.next

end Registry

def Snapshot.seesEffect (s : Snapshot) (r : Registry) (xid : ℕ) : Bool :=
  if xid = invalidXid then false
  else if xid = s.myXid then true
  else if xid ≥ s.xmax then false
  else if xid ∈ s.active then false
  else r.statusOf xid = .committed

/-! ## Versions -/

structure Version (V : Type) where
  xmin : ℕ
  xmax : ℕ := invalidXid
  value : V

namespace Version
variable {V : Type}

def isLive (v : Version V) : Bool := v.xmax = invalidXid

def isVisible (v : Version V) (s : Snapshot) (r : Registry) : Bool :=
  s.seesEffect r v.xmin && !s.seesEffect r v.xmax

def isReclaimable (v : Version V) (horizon : ℕ) (r : Registry) : Bool :=
  (v.xmax ≠ invalidXid && v.xmax < horizon && r.statusOf v.xmax = .committed) ||
    (v.xmin < horizon && r.statusOf v.xmin = .aborted)

/-- The transaction that last touched a chain with this version at its end. -/
def decider (v : Version V) : ℕ := if v.isLive then v.xmin else v.xmax

end Version

/-- Retire the newest live version. -/
def retire {V : Type} (xid : ℕ) : List (Version V) → Option (List (Version V))
  | [] => none
  | v :: rest => if v.isLive then some ({ v with xmax := xid } :: rest) else (retire xid rest).map (v :: ·)

/-! ## The store -/

structure VacuumReport where
  reclaimedVersions : ℕ := 0
  emptiedKeys : ℕ := 0
  deriving DecidableEq

variable {K V : Type} [Ord K] [TransOrd K] [LawfulEqOrd K] [DecidableEq K]

structure VersionedStore (K V : Type) [Ord K] where
  mgr : Registry := {}
  chains : Map K (List (Version V)) := ∅

namespace VersionedStore

/-- The versions of a key; a key that is not in the index has none. -/
def chain (s : VersionedStore K V) (key : K) : List (Version V) := s.chains[key]?.getD []

/-- The transaction that a write collides with: it touched the chain last, did not abort, and the
writer neither is it nor sees what it did. -/
def conflictingWriter (s : VersionedStore K V) (chain : List (Version V)) (writer : ℕ) (snapshot : Snapshot) :
    Option ℕ :=
  match chain.head? with
  | none => none
  | some head =>
    if head.decider = invalidXid || head.decider = writer then none
    else if snapshot.seesEffect s.mgr head.decider then none
    else if s.mgr.statusOf head.decider = .aborted then none
    else some head.decider

def putChecked (s : VersionedStore K V) (xid : ℕ) (snapshot : Snapshot) (key : K) (value : V) :
    Except MvccError Unit × VersionedStore K V :=
  match s.conflictingWriter (s.chain key) xid snapshot with
  | some winner => (.error (.writeConflict winner),s)
  | none =>
    let chain := (retire xid (s.chain key)).getD (s.chain key)
    (.ok (),{ s with chains := s.chains.insert key ({ xmin := xid, value := value } :: chain) })

def deleteChecked (s : VersionedStore K V) (xid : ℕ) (snapshot : Snapshot) (key : K) :
    Except MvccError Bool × VersionedStore K V :=
  match s.conflictingWriter (s.chain key) xid snapshot with
  | some winner => (.error (.writeConflict winner),s)
  | none =>
    match retire xid (s.chain key) with
    | some chain => (.ok true,{ s with chains := s.chains.insert key chain })
    | none => (.ok false,s)

def readConflict (s : VersionedStore K V) (chain : List (Version V)) (reader : ℕ) (snapshot : Snapshot) :
    Option ℕ :=
  match chain.head? with
  | none => none
  | some head =>
    if head.decider = invalidXid || head.decider = reader then none
    else if snapshot.seesEffect s.mgr head.decider then none
    else if s.mgr.statusOf head.decider = .committed then some head.decider
    else none

/-- Commit if no key of the read set was changed by a concurrent transaction; abort otherwise. -/
def commitSerializable (s : VersionedStore K V) (xid : ℕ) (snapshot : Snapshot) (reads : List K) :
    Except MvccError Unit × VersionedStore K V :=
  match reads.findSome? (fun key => s.readConflict (s.chain key) xid snapshot) with
  | some winner =>
    match s.mgr.abort xid with
    | .ok mgr => (.error (.serializationFailure winner),{ s with mgr := mgr })
    | .error _ => (.error (.serializationFailure winner),s)
  | none =>
    match s.mgr.commit xid with
    | .ok mgr => (.ok (),{ s with mgr := mgr })
    | .error err => (.error err,s)

def resolve (s : VersionedStore K V) (key : K) (snapshot : Snapshot) : Option (Version V) :=
  (s.chain key).find? (fun v => v.isVisible snapshot s.mgr)

def get (s : VersionedStore K V) (key : K) (snapshot : Snapshot) : Option V :=
  (s.resolve key snapshot).map Version.value

def scanVisible (s : VersionedStore K V) (snapshot : Snapshot) : List (K × V) :=
  s.chains.toList.filterMap (fun p =>
    (p.2.find? (fun v => v.isVisible snapshot s.mgr)).map (fun v => (p.1,v.value)))

/-- What a vacuum leaves of a chain. -/
def kept (s : VersionedStore K V) (horizon : ℕ) (chain : List (Version V)) : List (Version V) :=
  chain.filter (fun v => !v.isReclaimable horizon s.mgr)

def vacuum (s : VersionedStore K V) (horizon : ℕ) : VacuumReport × VersionedStore K V :=
  let chains := s.chains.filterMap (fun _ chain =>
    if (s.kept horizon chain).isEmpty then none else some (s.kept horizon chain))
  let reclaimed := s.chains.toList.map (fun p => p.2.length-(s.kept horizon p.2).length)
  let emptied := s.chains.toList.filter (fun p => (s.kept horizon p.2).isEmpty)
  (⟨reclaimed.sum,emptied.length⟩,{ s with chains := chains })

end VersionedStore

/-! ## Transactions -/

inductive IsolationLevel where
  | readCommitted | snapshotIsolation | serializable
  deriving DecidableEq

namespace IsolationLevel

def refreshesSnapshotPerStatement : IsolationLevel → Bool
  | .readCommitted => true
  | _ => false

def validatesReadSet : IsolationLevel → Bool
  | .serializable => true
  | _ => false

end IsolationLevel

/-- An open transaction. `wrote` and `view` are history: what it has written, an absent value being
a deletion, and what it reads, the committed values when its snapshot was captured and for a key
that it wrote since the value it read then. -/
structure Transaction (K V : Type) [Ord K] where
  xid : ℕ
  level : IsolationLevel
  snapshot : Snapshot
  reads : List K := []
  wrote : Map K (Option V) := ∅
  view : K → Option V

/-- The store with its open transactions and collectors. A transaction is `begun` until it has its
snapshot; a collector holds the horizon it read. `latest` is history: for each key the value of
the transaction that committed last of those that wrote it. -/
structure System (K V : Type) [Ord K] where
  store : VersionedStore K V := {}
  begun : Map ℕ IsolationLevel := ∅
  txs : Map ℕ (Transaction K V) := ∅
  collectors : Map ℕ ℕ := ∅
  latest : K → Option V := fun _ => none

/-- One section under a lock. -/
inductive Action (K V : Type) where
  | begin (level : IsolationLevel)
  | capture (xid : ℕ)
  | get (xid : ℕ) (key : K)
  | put (xid : ℕ) (key : K) (value : V)
  | delete (xid : ℕ) (key : K)
  | commit (xid : ℕ)
  | abort (xid : ℕ)
  | beginSnapshot (myXid : ℕ)
  | releaseSnapshot (xmin : ℕ)
  | readHorizon (collector : ℕ)
  | vacuum (collector : ℕ)

namespace Transaction

def beforeStatement (tx : Transaction K V) (s : System K V) : Transaction K V :=
  if tx.level.refreshesSnapshotPerStatement then
    { tx with snapshot := s.store.mgr.snapshot tx.xid, view := s.latest }
  else tx

/-- A read: the value, and the transaction with the key in its read set where that is kept. -/
def get (tx : Transaction K V) (s : System K V) (key : K) : Option V × Transaction K V :=
  let tx := tx.beforeStatement s
  let tx := if tx.level.validatesReadSet then { tx with reads := key :: tx.reads } else tx
  (s.store.get key tx.snapshot,tx)

/-- The transaction after a write that left the store as it is. -/
def wroteTo (tx : Transaction K V) (store : VersionedStore K V) (key : K) (w : Option V) : Transaction K V :=
  { tx with
    wrote := tx.wrote.insert key w
    view := Function.update tx.view key (store.get key tx.snapshot) }

end Transaction

namespace System

/-- What a read of the transaction returns now. -/
def get (s : System K V) (xid : ℕ) (key : K) : Option (Option V) :=
  s.txs[xid]?.map (fun tx => (tx.get s key).1)

def commitTx (s : System K V) (tx : Transaction K V) : Except MvccError Unit × VersionedStore K V :=
  if tx.level.validatesReadSet then s.store.commitSerializable tx.xid tx.snapshot tx.reads
  else
    match s.store.mgr.commit tx.xid with
    | .ok mgr => (.ok (),{ s.store with mgr := mgr })
    | .error err => (.error err,s.store)

def step (s : System K V) : Action K V → System K V
  | .begin level =>
    let r := s.store.mgr.begin
    { s with store := { s.store with mgr := r.2 }, begun := s.begun.insert r.1 level }
  | .capture xid =>
    match s.begun[xid]? with
    | none => s
    | some level =>
      let tx : Transaction K V :=
        { xid := xid, level := level, snapshot := s.store.mgr.snapshot xid, view := s.latest }
      { s with begun := s.begun.erase xid, txs := s.txs.insert xid tx }
  | .get xid key =>
    match s.txs[xid]? with
    | none => s
    | some tx => { s with txs := s.txs.insert xid (tx.get s key).2 }
  | .put xid key value =>
    match s.txs[xid]? with
    | none => s
    | some tx =>
      let tx := tx.beforeStatement s
      match s.store.putChecked tx.xid tx.snapshot key value with
      | (.ok (),store) =>
        { s with store := store, txs := s.txs.insert xid (tx.wroteTo store key (some value)) }
      | (.error _,store) => { s with store := store, txs := s.txs.insert xid tx }
  | .delete xid key =>
    match s.txs[xid]? with
    | none => s
    | some tx =>
      let tx := tx.beforeStatement s
      match s.store.deleteChecked tx.xid tx.snapshot key with
      | (.ok true,store) =>
        { s with store := store, txs := s.txs.insert xid (tx.wroteTo store key none) }
      | (_,store) => { s with store := store, txs := s.txs.insert xid tx }
  | .commit xid =>
    match s.txs[xid]? with
    | none => s
    | some tx =>
      match s.commitTx tx with
      | (.ok (),store) =>
        { s with store := store, txs := s.txs.erase xid, latest := fun key => (tx.wrote[key]?).getD (s.latest key) }
      | (.error _,store) => { s with store := store, txs := s.txs.erase xid }
  | .abort xid =>
    match s.txs[xid]? with
    | none => s
    | some tx =>
      match s.store.mgr.abort tx.xid with
      | .ok mgr => { s with store := { s.store with mgr := mgr }, txs := s.txs.erase xid }
      | .error _ => { s with txs := s.txs.erase xid }
  | .beginSnapshot myXid => { s with store := { s.store with mgr := (s.store.mgr.beginSnapshot myXid).2 } }
  | .releaseSnapshot xmin => { s with store := { s.store with mgr := s.store.mgr.releaseSnapshot xmin } }
  | .readHorizon collector => { s with collectors := s.collectors.insert collector s.store.mgr.gcHorizon }
  | .vacuum collector =>
    match s.collectors[collector]? with
    | none => s
    | some horizon => { s with store := (s.store.vacuum horizon).2, collectors := s.collectors.erase collector }

def run (s : System K V) (as : List (Action K V)) : System K V := as.foldl step s

/-- The steps of a run, each with the state it found. -/
def trace (s : System K V) : List (Action K V) → List (System K V × Action K V)
  | [] => []
  | a :: as => (s,a) :: (s.step a).trace as

end System
end Drevo.Mvcc
