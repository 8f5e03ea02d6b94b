import Drevo.Core.Ids
import Drevo.Core.Import

/-! A replica that exchanges changes with its peers: the engine, the causal stamp of each record
it has written, and a tombstone for each record it has deleted. One call runs at a time, from its
start to its return. -/
namespace Drevo
open Lib

/-! ## The clock -/

/-- A hybrid timestamp: the wall clock in milliseconds, then a counter. -/
abbrev Hlc := ℤ ×ₗ ℕ

namespace Hlc

def mk (wallMs : ℤ) (counter : ℕ) : Hlc := toLex (wallMs,counter)

def wallMs (h : Hlc) : ℤ := (ofLex h).1

def counter (h : Hlc) : ℕ := (ofLex h).2

def bumpSameWall (wallMs : ℤ) (baseCounter : ℕ) : Hlc :=
  if baseCounter+1 < 2^32 then mk wallMs (baseCounter+1) else mk (wallMs+1) 0

/-- The timestamp after `prev` for a local event. -/
def tick (prev : Hlc) (physicalMs : ℤ) : Hlc :=
  let wall := max prev.wallMs physicalMs
  if wall = prev.wallMs then bumpSameWall wall prev.counter else mk wall 0

def update (prev remote : Hlc) (physicalMs : ℤ) : Hlc :=
  let wall := max (max prev.wallMs remote.wallMs) physicalMs
  if wall = prev.wallMs ∧ wall = remote.wallMs then bumpSameWall wall (max prev.counter remote.counter)
  else if wall = prev.wallMs then bumpSameWall wall prev.counter
  else if wall = remote.wallMs then bumpSameWall wall remote.counter
  else mk wall 0

end Hlc

namespace Stamp

def mk (hlc : Hlc) (origin : ℕ) : Stamp := toLex (hlc.wallMs,toLex (hlc.counter,origin))

def hlc (s : Stamp) : Hlc := Hlc.mk (ofLex s).1 (ofLex (ofLex s).2).1

end Stamp

/-! ## The tables -/

namespace StampTarget

def id : StampTarget → ℕ
  | .node id => id
  | .edge id => id

/-- Targets in one order, nodes and edges alternating. -/
def key (t : StampTarget) : ℕ := 2*t.id+(if t.isNode then 0 else 1)

theorem key_inj {s t : StampTarget} (h : s.key = t.key) : s = t := by
  cases s <;> cases t <;> simp only [key,id,isNode] at h <;> simp <;> grind

instance : Ord StampTarget := ⟨fun s t => compare s.key t.key⟩

instance : Std.TransOrd StampTarget where
  eq_swap {a b} := @Std.OrientedCmp.eq_swap ℕ compare _ a.key b.key
  isLE_trans {a b c} := @Std.TransCmp.isLE_trans ℕ compare _ a.key b.key c.key

instance : Std.LawfulEqOrd StampTarget where
  compare_self := Nat.compare_eq_eq.mpr rfl
  eq_of_compare h := key_inj (Nat.compare_eq_eq.mp h)

end StampTarget

/-- The tombstone of a deleted record. -/
structure Tomb where
  stamp : Stamp
  uuid : Uuid

structure Peer where
  engine : Engine := {}
  origin : ℕ
  clock : Hlc := Hlc.mk 0 0
  stamps : Map StampTarget Stamp := ∅
  tombstones : Map StampTarget Tomb := ∅

/-- What a call draws from its surroundings for one of its records: the clock, and whether the
record can be encoded and the flush succeeds. -/
structure Turn where
  now : ℤ := 0
  encoded : Bool := true
  io : Bool := true

structure ApplyStats where
  applied : ℕ := 0
  skipped : ℕ := 0
  deriving DecidableEq

def StampedChange.stamp : StampedChange → Stamp
  | .node _ stamp => stamp
  | .edge _ _ _ stamp => stamp
  | .deleteNode _ stamp => stamp
  | .deleteEdge _ stamp => stamp

namespace Engine

/-- The rest of a call that has left the lock: its record, if it has one, is queued and flushed. -/
def settle (e : Engine) (call : ℕ) (encoded io : Bool) : Bool × Engine :=
  match e.inflight.find? (fun p => p.1 = call) with
  | none => (true,e)
  | some _ =>
    let e := e.enqueue call encoded
    match e.calls[call]? with
    | some (.waiting _) =>
      let e := { e with queue := ((e.queue.finish io).lead).finish io }.await call
      (e.calls[call]? ≠ some .err,e)
    | _ => (false,e)

end Engine

namespace Peer
attribute [local instance] Engine.uuid_trans

/-! ## Stamps -/

def markLive (p : Peer) (target : StampTarget) (stamp : Stamp) : Peer :=
  { p with stamps := p.stamps.insert target stamp, tombstones := p.tombstones.erase target }

def markTombstoned (p : Peer) (target : StampTarget) (stamp : Stamp) (uuid : Uuid) : Peer :=
  { p with stamps := p.stamps.erase target, tombstones := p.tombstones.insert target ⟨stamp,uuid⟩ }

def observe (p : Peer) (stamp : Stamp) (now : ℤ) : Peer := { p with clock := p.clock.update stamp.hlc now }

def currentStamp (p : Peer) (target : StampTarget) : Option Stamp :=
  match p.stamps[target]? with
  | some stamp => some stamp
  | none => p.tombstones[target]?.map Tomb.stamp

/-! ## Deltas -/

/-- The tombstones by UUID. -/
def tombs (p : Peer) : Map Uuid StampTarget := p.tombstones.toList.foldl (fun m e => m.insert e.2.uuid e.1) ∅

/-- Enter a change that has won in the tables, at the target the identity map has for it now. -/
def mark (p : Peer) (remap : Remap) (change : StampedChange) : Peer :=
  match change with
  | .node node stamp =>
    match remap.node[node.uuid]? with
    | some id => p.markLive (.node id) stamp
    | none => p
  | .edge edge _ _ stamp =>
    match remap.edge[edge.uuid]? with
    | some id => p.markLive (.edge id) stamp
    | none => p
  | .deleteNode uuid stamp | .deleteEdge uuid stamp =>
    match remap.tomb[uuid]? with
    | some t => p.markTombstoned t stamp uuid
    | none => p

variable [JsonText]

/-- Merge one change: the graph under the lock, then its record, then the tables. -/
def applyChange (p : Peer) (remap : Remap) (change : StampedChange) (turn : Turn) :
    Except CoreError Bool × Peer × Remap :=
  match p.engine.applyChange 0 change p.currentStamp remap with
  | (.error err,e,remap) => (.error err,{ p with engine := e },remap)
  | (.ok false,e,remap) => (.ok false,{ p with engine := e },remap)
  | (.ok true,e,remap) =>
    match e.settle 0 turn.encoded turn.io with
    | (false,e) => (.error .io,{ p with engine := e },remap)
    | (true,e) => (.ok true,({ p with engine := e }.mark remap change).observe change.stamp turn.now,remap)

/-- Merge changes until one fails. `turns n` belongs to the change with `n` more behind it. -/
def applyAll (p : Peer) (remap : Remap) (stats : ApplyStats) (turns : ℕ → Turn) :
    List StampedChange → Except CoreError ApplyStats × Peer
  | [] => (.ok stats,p)
  | change :: rest =>
    match p.applyChange remap change (turns rest.length) with
    | (.error err,p,_) => (.error err,p)
    | (.ok true,p,remap) => applyAll p remap { stats with applied := stats.applied+1 } turns rest
    | (.ok false,p,remap) => applyAll p remap { stats with skipped := stats.skipped+1 } turns rest

def applyDelta (p : Peer) (changes : List StampedChange) (turns : ℕ → Turn) : Except CoreError ApplyStats × Peer :=
  p.applyAll (.ofInner p.engine.live p.tombs) {} turns (StampedChange.ordered changes)

end Peer
end Drevo
