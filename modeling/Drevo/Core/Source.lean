import Drevo.Core.DirectWrites
import Drevo.Lib.Feed

/-! The engine with its change feed. Changes reach the feed where they are recorded: behind a
log, when the leader of a group has flushed it; without one, when the caller records its write.
A section that records under the writer lock publishes before it releases the lock, a direct
write, an import and a merge after it. Prepared transactions are not on the feed: their commit publishes the write set. -/
namespace Drevo
open Lib

def WalOp.change : WalOp → Option GraphOp
  | .graph op => some op
  | .prepare _ _ _ => none
  | .commitPrepared _ => none
  | .rollbackPrepared _ _ => none

@[simp] theorem filterMap_change (ops : List GraphOp) : (ops.map WalOp.graph).filterMap WalOp.change = ops := by
  rw [List.filterMap_map]
  exact List.filterMap_some

namespace Engine

/-- What a log entry is on the feed. -/
def feedOps (e : Engine) : WalOp → List GraphOp
  | .graph op => [op]
  | .prepare _ _ _ => []
  | .commitPrepared gid =>
    match e.live.prepared[gid]? with
    | some entry => entry.ops
    | none => []
  | .rollbackPrepared _ _ => []

variable [JsonText]

def committed (e : Engine) : Action → List GraphOp
  | .batch w io => (e.batch w io).1.toOption.getD []
  | .txCommit id io =>
    match e.txs[id]? with
    | none => []
    | some slot => okOps (e.txCommit id io).1 slot.ops
  | .commitPrepared gid io =>
    match e.live.prepared[gid]? with
    | none => []
    | some entry => okOps (e.commitPrepared gid io).1 entry.ops
  | _ => []

/-- What an import stored and has to record. -/
def importOps (e : Engine) (dump : Dump) : List GraphOp :=
  match e.writeForCommit with
  | .error _ => []
  | .ok () =>
    match ((e.load e.live).importDump dump).1 with
    | .error _ => []
    | .ok (applied,_) => applied

/-- What a deletion of a peer made live and has to record. -/
def deleteOps (e : Engine) (uuid : Uuid) (incoming : Stamp) (isNode : Bool) (current : StampTarget → Option Stamp)
    (remap : Remap) : List GraphOp :=
  if localWins current (remap.target uuid isNode) incoming then []
  else
    match remap.target uuid isNode,remap.liveId uuid isNode,e.writeForCommit with
    | some _,some id,.ok () => [deleteOp isNode id]
    | _,_,_ => []

section
attribute [local instance] uuid_trans

/-- What a change of a peer made live and has to record. -/
def changeOps (e : Engine) (change : StampedChange) (current : StampTarget → Option Stamp) (remap : Remap) :
    List GraphOp :=
  match change with
  | .node node incoming =>
    if localWins current (remap.nodeTarget node.uuid) incoming then []
    else
      match e.writeForCommit with
      | .error _ => []
      | .ok () => [.upsertNode ((e.load e.live).mergeNode (remap.nodeTarget node.uuid) node).1]
  | .edge edge fromUuid toUuid incoming =>
    match remap.node[fromUuid]?,remap.node[toUuid]? with
    | some fromLocal,some toLocal =>
      if localWins current (remap.edgeTarget edge.uuid) incoming then []
      else
        match e.writeForCommit with
        | .error _ => []
        | .ok () =>
          [.upsertEdge ((e.load e.live).mergeEdge (remap.edgeTarget edge.uuid)
            { edge with fromId := fromLocal, toId := toLocal }).1]
    | _,_ => []
  | .deleteNode uuid incoming => e.deleteOps uuid incoming true current remap
  | .deleteEdge uuid incoming => e.deleteOps uuid incoming false current remap
end

omit [JsonText] in
/-- A record left to a call. -/
def handed (call : ℕ) (ops : List GraphOp) : List (ℕ × List GraphOp) := if ops.isEmpty then [] else [(call,ops)]

/-- What a section leaves to its caller to record once the lock is released. -/
def handsOver (e : Engine) : Action → List (ℕ × List GraphOp)
  | .direct call w => if e.calls.contains call then [] else handed call ((e.direct call w).1.toOption.getD [])
  | .applyDump call dump => if e.calls.contains call then [] else handed call (e.importOps dump)
  | .deltaStep id call current =>
    if e.calls.contains call then []
    else
      match e.nextChange id with
      | none => []
      | some (change,remap) => handed call (e.changeOps change current remap)
  | _ => []

end Engine

/-- A section that records under the lock what it has to record, or records nothing. -/
def Action.isLocked : Action → Bool
  | .batch _ _ => true
  | .txBegin _ _ => true
  | .txWrite _ _ => true
  | .txCommit _ _ => true
  | .txRollback _ => true
  | .txPrepare _ _ _ _ => true
  | .commitPrepared _ _ => true
  | .rollbackPrepared _ _ _ => true
  | .addConstraint _ => true
  | .removeConstraint _ => true
  | .deltaBegin _ _ _ => true
  | _ => false

/-- A section that leaves its record to the caller. -/
def Action.isUnlocked : Action → Bool
  | .direct _ _ => true
  | .applyDump _ _ => true
  | .deltaStep _ _ _ => true
  | _ => false

/-- An engine and its feed. `unpublished` holds, for an engine without a log, the writes that took
effect under the lock and are not on the feed yet. -/
structure Source where
  engine : Engine
  feed : Feed WalOp := {}
  unpublished : List (ℕ × List GraphOp) := []

/-- A step of the engine, a write without a log that reaches the feed, or a trim. -/
inductive SourceStep where
  | act (a : Action)
  | publish (call : ℕ)
  | trimBefore (cursor : ℕ)

namespace SourceStep

def isTrim : SourceStep → Bool
  | .trimBefore _ => true
  | _ => false

end SourceStep

namespace Source
variable [JsonText]

def step (s : Source) : SourceStep → Source
  | .act a =>
    let e := s.engine.step a
    if s.engine.durable then
      let flushed := e.queue.log.drop s.engine.queue.log.length
      { s with
        engine := e
        feed := s.feed.publish ((flushed.flatten.flatMap s.engine.feedOps).map .graph) }
    else
      { engine := e
        feed := s.feed.publish ((s.engine.committed a).map .graph)
        unpublished := s.unpublished ++ s.engine.handsOver a }
  | .publish call =>
    match s.unpublished.find? (fun p => p.1 = call) with
    | none => s
    | some (_,ops) =>
      { s with
        feed := s.feed.publish (ops.map .graph)
        unpublished := s.unpublished.filter (fun p => p.1 ≠ call) }
  | .trimBefore cursor => { s with feed := s.feed.trimBefore cursor }

omit [JsonText] in
/-- The writes that took effect and are neither queued nor published. -/
def waiting (s : Source) : List (ℕ × List GraphOp) := s.engine.inflight ++ s.unpublished

omit [JsonText] in
/-- The changes in the commit queue. Those in a broken queue go nowhere. -/
def queued (s : Source) : List GraphOp :=
  if s.engine.queue.broken then [] else s.engine.queue.inFlight.flatMap (fun p => p.2.filterMap WalOp.change)

omit [JsonText] in
/-- The changes that took effect and are still to be published. -/
def underway (s : Source) : List GraphOp := s.queued ++ s.waiting.flatMap Prod.snd

omit [JsonText] in
def Quiet (s : Source) : Prop :=
  (s.engine.queue.broken = true ∨ s.engine.queue.inFlight.map Prod.fst = []) ∧ s.waiting = []

omit [JsonText] in
instance (s : Source) : Decidable s.Quiet := inferInstanceAs (Decidable ((_ ∨ _) ∧ _))

omit [JsonText] in
def passes (waiting : List (ℕ × List GraphOp)) (call : ℕ) : Bool :=
  match waiting.find? (fun p => p.1 = call) with
  | none => false
  | some (_,ops) =>
    (waiting.takeWhile (fun p => p.1 ≠ call)).any (fun p => p.2.any (fun earlier => ops.any earlier.related))

/-- The step brings a change on its way to the feed past a related one that took effect before it. -/
def overtakes (s : Source) : SourceStep → Bool
  | .act (.enqueue call _) => passes s.engine.inflight call
  | .act a => s.waiting.any (fun p => p.2.any (fun earlier => (s.engine.committed a).any earlier.related))
  | .publish call => passes s.unpublished call
  | .trimBefore _ => false

/-- The log refuses the record of a write that took effect, or an import ends part way: what it
stored until then is never recorded. -/
def loses (s : Source) : SourceStep → Bool
  | .act (.applyDump call dump) =>
    !s.engine.calls.contains call && s.engine.writeForCommit.toBool && !(s.engine.applyDump call dump).1.toBool
  | .act (.enqueue call encoded) =>
    s.engine.inflight.any (fun p => p.1 = call) && (!encoded || s.engine.queue.broken)
  | .act a => (s.engine.step a).queue.broken && !s.engine.queue.broken && !s.engine.queue.inFlight.isEmpty
  | .publish _ => false
  | .trimBefore _ => false

end Source

namespace Engine
variable [JsonText]

omit [JsonText] in
/-- The writes that took effect and wait for their callers, and the names of the calls, are as
they were. -/
structure SameCalls (e e' : Engine) : Prop where
  durable : e'.durable = e.durable
  inflight : e'.inflight = e.inflight
  calls : e'.calls = e.calls

omit [JsonText] in
/-- What a section that records `ops` under the lock does to the queue: nothing, if there is no
log or nothing to record; break it; or flush it with a record of its own behind. -/
inductive Logged (e e' : Engine) : List GraphOp → Prop
  | unused {ops : List GraphOp} (hq : e'.queue = e.queue) (hops : e.durable = true → ops = []) : Logged e e' ops
  | failed {ops : List GraphOp} (hd : e.durable = true) (hb : e'.queue.broken = true)
      (hl : e'.queue.log = e.queue.log) (hops : ops = []) : Logged e e' ops
  | flushed {ops : List GraphOp} (own : List WalOp) (hd : e.durable = true) (hb : e.queue.broken = false)
      (hb' : e'.queue.broken = false) (hi : e'.queue.inFlight = [])
      (hl : e'.queue.log = e.queue.log ++ e.queue.inFlight.map Prod.snd ++ [own])
      (hops : own.flatMap e.feedOps = ops) : Logged e e' ops

omit [JsonText] in
/-- A section that changed the queue by recording something only. -/
structure Locked (e e' : Engine) (ops : List GraphOp) : Prop extends SameCalls e e' where
  logged : Logged e e' ops
  numbered : e'.queue.Numbered

omit [JsonText] in
theorem Locked.same {e e' : Engine} (hn : e.queue.Numbered) (hd : e'.durable = e.durable)
    (hi : e'.inflight = e.inflight) (hc : e'.calls = e.calls) (hq : e'.queue = e.queue) : Locked e e' [] :=
  ⟨⟨hd,hi,hc⟩,.unused hq (fun _ => rfl),hq ▸ hn⟩

omit [JsonText] in
theorem record_locked {e : Engine} (e₀ : Engine) (own : List WalOp) (ops : List GraphOp) (hn : e.queue.Numbered)
    (hd : e₀.durable = e.durable) (hi : e₀.inflight = e.inflight) (hc : e₀.calls = e.calls)
    (hq : e₀.queue = e.queue) (hown : own ≠ []) (hops : own.flatMap e.feedOps = ops) (io : Bool) :
    ((e₀.record own io).1 = false → Locked e (e₀.record own io).2 []) ∧
      ((e₀.record own io).1 = true → Locked e (e₀.record own io).2 ops) := by
  unfold record
  by_cases hdur : e.durable = true
  · have hlog : ¬ (own.isEmpty || !e₀.durable) = true := by simp [hd,hdur,hown]
    rw [if_neg hlog,hq]
    refine ⟨fun hr => ⟨⟨hd,hi,hc⟩,?_,hn.commit own io⟩,fun hr => ⟨⟨hd,hi,hc⟩,?_,hn.commit own io⟩⟩
    · obtain ⟨hb,hl⟩ := GroupQueue.commit_false hr
      exact .failed hdur hb hl rfl
    · obtain ⟨hb,hb',hin,hl⟩ := GroupQueue.commit_true hn hr
      exact .flushed own hdur hb hb' hin hl hops
  · have hlog : (own.isEmpty || !e₀.durable) = true := by simp [hd,hdur]
    rw [if_pos hlog]
    refine ⟨?_,fun _ => ⟨⟨hd,hi,hc⟩,.unused hq (fun h => absurd h hdur),hq ▸ hn⟩⟩
    intro hr
    cases hr

omit [JsonText] in
@[simp] theorem flatMap_feedOps (e : Engine) (ops : List GraphOp) : (ops.map WalOp.graph).flatMap e.feedOps = ops := by
  induction ops with
  | nil => rfl
  | cons op ops ih => simp [feedOps,ih]

omit [JsonText] in
theorem Locked.frame {e a b : Engine} {ops : List GraphOp} (h : Locked e a ops) (hd : b.durable = a.durable)
    (hi : b.inflight = a.inflight) (hc : b.calls = a.calls) (hq : b.queue = a.queue) : Locked e b ops := by
  refine ⟨⟨hd.trans h.durable,hi.trans h.inflight,hc.trans h.calls⟩,?_,hq ▸ h.numbered⟩
  cases h.logged with
  | unused h₁ h₂ => exact .unused (hq.trans h₁) h₂
  | failed h₁ h₂ h₃ h₄ => exact .failed h₁ (hq ▸ h₂) (hq ▸ h₃) h₄
  | flushed own h₁ h₂ h₃ h₄ h₅ h₆ => exact .flushed own h₁ h₂ (hq ▸ h₃) (hq ▸ h₄) (hq ▸ h₅) h₆

omit [JsonText] in
theorem Locked.of_txs {e e' : Engine} {txs : Map ℕ TxSlot} {ops : List GraphOp}
    (h : Locked { e with txs := txs } e' ops) : Locked e e' ops := by
  refine ⟨⟨h.durable,h.inflight,h.calls⟩,?_,h.numbered⟩
  cases h.logged with
  | unused h₁ h₂ => exact .unused h₁ h₂
  | failed h₁ h₂ h₃ h₄ => exact .failed h₁ h₂ h₃ h₄
  | flushed own h₁ h₂ h₃ h₄ h₅ h₆ => exact .flushed own h₁ h₂ h₃ h₄ h₅ h₆

theorem batch_locked {e : Engine} (hn : e.queue.Numbered) (w : BatchWrite) (io : Bool) :
    Locked e (e.batch w io).2 ((e.batch w io).1.toOption.getD []) := by
  have hsame : Locked e e [] := .same hn rfl rfl rfl rfl
  unfold batch
  split
  · exact hsame
  split
  · exact hsame
  · rcases hr : w.run (e.load e.live) with ⟨r,t⟩
    cases r with
    | error err => exact hsame.frame rfl rfl rfl rfl
    | ok ops =>
      simp only
      split
      · exact hsame.frame rfl rfl rfl rfl
      · rename_i hne
        have hown : ops.map WalOp.graph ≠ [] := by simpa using hne
        obtain ⟨hfail,hok⟩ := record_locked { e with ids := t.ids } _ _ hn rfl rfl rfl rfl hown
          (flatMap_feedOps e ops) io
        split
        · rename_i e' hrec
          rw [hrec] at hfail
          exact hfail rfl
        · rename_i e' hrec
          rw [hrec] at hok
          exact (hok rfl).frame rfl rfl rfl rfl

theorem commitParts_locked {e : Engine} (hn : e.queue.Numbered) (slot : TxSlot) (io : Bool) :
    Locked e (e.commitParts slot io).2 (okOps (e.commitParts slot io).1 slot.ops) := by
  have hsame : ∀ err : CommitError, Locked e e (okOps (.error err) slot.ops) := fun _ => .same hn rfl rfl rfl rfl
  have hspent : ∀ (err : CommitError) (ids : IdCounters), Locked e { e with ids := ids } (okOps (.error err) slot.ops) :=
    fun _ _ => .same hn rfl rfl rfl rfl
  by_cases hempty : slot.ops.isEmpty = true
  · have hnil : slot.ops = [] := by simpa using hempty
    simp only [commitParts,okOps,hnil]
    exact .same hn rfl rfl rfl rfl
  have hown : slot.ops.map WalOp.graph ≠ [] := by simpa using hempty
  have hlost : ∀ (ids : IdCounters) (e' : Engine), Engine.record { e with ids := ids } (slot.ops.map .graph) io = (false,e') →
      Locked e e' (okOps (.error CommitError.io : Except CommitError Unit) slot.ops) := by
    intro ids e' hrec
    have hfail := (record_locked { e with ids := ids } _ _ hn rfl rfl rfl rfl hown (flatMap_feedOps e slot.ops) io).1
    rw [hrec] at hfail
    exact hfail rfl
  have hmade : ∀ (ids : IdCounters) (t : Inner) (set : ConflictSet) (e' : Engine),
      Engine.record { e with ids := ids } (slot.ops.map .graph) io = (true,e') →
        Locked e ((e'.install t).noteCommit set) (okOps (.ok () : Except CommitError Unit) slot.ops) := by
    intro ids t set e' hrec
    have hok := (record_locked { e with ids := ids } _ _ hn rfl rfl rfl rfl hown (flatMap_feedOps e slot.ops) io).2
    rw [hrec] at hok
    exact (hok rfl).frame rfl rfl rfl rfl
  simp only [commitParts,if_neg hempty]
  split
  · exact hsame _
  split
  · exact hsame _
  split
  · split
    · exact hsame _
    · split
      · exact hsame _
      · split
        · rename_i hrec
          exact hlost e.ids _ hrec
        · rename_i hrec
          exact hmade e.ids _ _ _ hrec
  split
  · exact hsame _
  split
  · exact hsame _
  split
  · exact hspent _ _
  split
  · exact hspent _ _
  · split
    · rename_i hrec
      exact hlost _ _ hrec
    · rename_i hrec
      exact hmade _ _ _ _ hrec

theorem prepareParts_locked {e : Engine} (hn : e.queue.Numbered) (slot : TxSlot) (gid : String) (now : ℤ) (io : Bool) :
    Locked e (e.prepareParts slot gid now io).2 [] := by
  have hsame : Locked e e [] := .same hn rfl rfl rfl rfl
  obtain ⟨hfail,hok⟩ := record_locked e [.prepare gid now slot.ops] [] hn rfl rfl rfl rfl
    (by simp) (by simp [feedOps]) io
  unfold prepareParts
  split
  · exact hsame
  split
  · exact hsame
  split
  · exact hsame
  split
  · exact hsame
  split
  · exact hsame
  split
  · rename_i e' hrec
    rw [hrec] at hfail
    exact hfail rfl
  · rename_i e' hrec
    rw [hrec] at hok
    exact (hok rfl).frame rfl rfl rfl rfl

theorem commitPrepared_locked {e : Engine} (hn : e.queue.Numbered) (gid : String) (io : Bool) :
    Locked e (e.commitPrepared gid io).2 (e.committed (.commitPrepared gid io)) := by
  simp only [committed]
  cases hg : e.live.prepared[gid]? with
  | none =>
    rw [commitPrepared_none hg]
    exact .same hn rfl rfl rfl rfl
  | some entry =>
    obtain ⟨hfail,hok⟩ := record_locked e [.commitPrepared gid] entry.ops hn rfl rfl rfl rfl
      (by simp) (by simp [feedOps,hg]) io
    simp only [commitPrepared,hg]
    split
    · exact .same hn rfl rfl rfl rfl
    · rcases hrec : e.record [.commitPrepared gid] io with ⟨ok,e'⟩
      rw [hrec] at hfail hok
      cases ok with
      | false => exact hfail rfl
      | true => exact (hok rfl).frame rfl rfl rfl rfl

theorem rollbackPreparedAs_locked {e : Engine} (hn : e.queue.Numbered) (gid : String) (heuristic io : Bool) :
    Locked e (e.rollbackPreparedAs gid heuristic io).2 [] := by
  have hsame : Locked e e [] := .same hn rfl rfl rfl rfl
  obtain ⟨hfail,hok⟩ := record_locked e [.rollbackPrepared gid heuristic] [] hn
    rfl rfl rfl rfl (by simp) (by simp [feedOps]) io
  unfold rollbackPreparedAs
  split
  · exact hsame
  split
  · split <;> exact hsame
  split
  · rename_i e' hrec
    rw [hrec] at hfail
    exact hfail rfl
  · rename_i e' hrec
    rw [hrec] at hok
    exact (hok rfl).frame rfl rfl rfl rfl

theorem step_locked {e : Engine} (hn : e.queue.Numbered) {a : Action} (hw : a.isLocked = true) : Locked e (e.step a) (e.committed a) := by
  cases a with
  | batch w io => exact batch_locked hn w io
  | txBegin isolation limited => exact .same hn rfl rfl rfl rfl
  | txWrite id m =>
    simp only [step,txWrite]
    split
    · exact .same hn rfl rfl rfl rfl
    · split <;> exact .same hn rfl rfl rfl rfl
  | txCommit id io =>
    simp only [step,committed]
    cases hs : e.txs[id]? with
    | none =>
      rw [txCommit_none hs]
      exact .same hn rfl rfl rfl rfl
    | some slot =>
      simp only [txCommit,hs]
      exact (commitParts_locked (e := { e with txs := e.txs.erase id }) hn slot io).of_txs
  | txRollback id => exact .same hn rfl rfl rfl rfl
  | txPrepare id gid now io =>
    simp only [step,committed,txPrepare]
    split
    · exact .same hn rfl rfl rfl rfl
    · exact (prepareParts_locked (e := { e with txs := e.txs.erase id }) hn _ gid now io).of_txs
  | commitPrepared gid io => exact commitPrepared_locked hn gid io
  | rollbackPrepared gid heuristic io => exact rollbackPreparedAs_locked hn gid heuristic io
  | addConstraint c =>
    simp only [step,addConstraint]
    split
    · exact .same hn rfl rfl rfl rfl
    · split <;> exact .same hn rfl rfl rfl rfl
  | removeConstraint c =>
    simp only [step,removeConstraint]
    split <;> exact .same hn rfl rfl rfl rfl
  | deltaBegin id changes tomb => exact .same hn rfl rfl rfl rfl
  | _ => cases hw

/-- Whatever a section under the lock makes live, it records. -/
theorem committed_graph {e : Engine} (h : Inv e) {a : Action} (hw : a.isLocked = true) : (e.step a).live.graph = e.live.graph.applyAll (e.committed a) := by
  cases a with
  | batch w io => exact (batch_section h.live w io).live.graph
  | txBegin isolation limited => rfl
  | txWrite id m =>
    simp only [step,txWrite]
    split
    · rfl
    · split <;> rfl
  | txCommit id io =>
    simp only [step,committed]
    cases hs : e.txs[id]? with
    | none =>
      rw [txCommit_none hs]
      rfl
    | some slot => exact (txCommit_section h hs io).live.graph
  | txRollback id => rfl
  | txPrepare id gid now io =>
    simp only [step,committed,txPrepare]
    split
    · rfl
    · exact (prepareParts_section (e := { e with txs := e.txs.erase id }) h.live _ gid now io).live.graph
  | commitPrepared gid io =>
    simp only [step,committed]
    cases hg : e.live.prepared[gid]? with
    | none =>
      rw [commitPrepared_none hg]
      rfl
    | some entry => exact (commitPrepared_section h.live hg io).live.graph
  | rollbackPrepared gid heuristic io => exact (rollbackPreparedAs_section h.live gid heuristic io).live.graph
  | addConstraint c => exact (addConstraint_section h.live c).live.graph
  | removeConstraint c => exact (removeConstraint_section h.live c).live.graph
  | deltaBegin id changes tomb => rfl
  | _ => cases hw

/-! ## What a section leaves to its caller -/

omit [JsonText] in
/-- A section that recorded nothing and left `ops` to be recorded by `call`. -/
structure Hands (e e' : Engine) (call : ℕ) (ops : List GraphOp) : Prop where
  queue : e'.queue = e.queue
  durable : e'.durable = e.durable
  inflight : e'.inflight = e.inflight ++ (if e.durable then handed call ops else [])
  calls : ∀ c : ℕ, (e.calls[c]?).isSome → (e'.calls[c]?).isSome
  named : ops ≠ [] → (e'.calls[call]?).isSome

omit [JsonText] in
theorem Hands.nothing {e e' : Engine} {call : ℕ} (hq : e'.queue = e.queue) (hd : e'.durable = e.durable)
    (hi : e'.inflight = e.inflight) (hc : ∀ c : ℕ, (e.calls[c]?).isSome → (e'.calls[c]?).isSome) : Hands e e' call [] :=
  ⟨hq,hd,by simp [hi,handed],hc,fun hne => absurd rfl hne⟩

omit [JsonText] in
theorem Hands.frame {e a b : Engine} {call : ℕ} {ops : List GraphOp} (h : Hands e a call ops) (hq : b.queue = a.queue)
    (hd : b.durable = a.durable) (hi : b.inflight = a.inflight) (hc : b.calls = a.calls) : Hands e b call ops :=
  ⟨hq.trans h.queue,hd.trans h.durable,hi.trans h.inflight,hc ▸ h.calls,hc ▸ h.named⟩

omit [JsonText] in
theorem calls_insert {calls calls' : Map ℕ CallState} {call : ℕ} {st : CallState} (h : calls' = calls.insert call st) :
    (∀ c : ℕ, (calls[c]?).isSome → (calls'[c]?).isSome) ∧ (calls'[call]?).isSome := by
  subst h
  refine ⟨?_,by simp⟩
  intro c hc
  rw [Map.get_insert]
  split_ifs
  · rfl
  · exact hc

omit [JsonText] in
theorem leaveLock_hands {e e₀ : Engine} (hq : e₀.queue = e.queue) (hd : e₀.durable = e.durable)
    (hi : e₀.inflight = e.inflight) (hc : e₀.calls = e.calls) (call : ℕ) (ops : List GraphOp) :
    Hands e (e₀.leaveLock call ops) call ops := by
  unfold leaveLock
  split
  · rename_i hskip
    obtain ⟨hother,hmine⟩ := calls_insert (Eq.refl (e.calls.insert call .ok))
    refine ⟨hq,hd,?_,hc ▸ hother,fun _ => hc ▸ hmine⟩
    cases hdur : e.durable with
    | false => simp [hi]
    | true =>
      have hnil : ops = [] := by simpa [hd,hdur] using hskip
      simp [hi,hnil,handed]
  · rename_i hgo
    obtain ⟨hother,hmine⟩ := calls_insert (Eq.refl (e.calls.insert call .applied))
    refine ⟨hq,hd,?_,hc ▸ hother,fun _ => hc ▸ hmine⟩
    obtain ⟨hne,hdur⟩ : ops.isEmpty = false ∧ e.durable = true := by simpa [hd] using hgo
    simp [hi,hdur,handed,hne]

theorem direct_hands (e : Engine) (call : ℕ) (w : DirectWrite) :
    Hands e (e.direct call w).2 call ((e.direct call w).1.toOption.getD []) := by
  have hquiet : ∀ st (e' : Engine), e'.queue = e.queue → e'.durable = e.durable → e'.inflight = e.inflight →
      e'.calls = e.calls.insert call st → Hands e e' call [] :=
    fun st e' hq hd hi hc => .nothing hq hd hi (calls_insert hc).1
  unfold direct
  split
  · exact hquiet .ok _ rfl rfl rfl rfl
  split
  · exact hquiet .err _ rfl rfl rfl rfl
  · simp only [withLive]
    rcases w.run (e.load e.live) with ⟨r,t⟩
    cases r with
    | error err => exact hquiet .err _ rfl rfl rfl rfl
    | ok ops => exact leaveLock_hands (by rfl) (by rfl) (by rfl) (by rfl) call ops

theorem applyDump_hands (e : Engine) (call : ℕ) (dump : Dump) :
    Hands e (e.applyDump call dump).2 call (e.importOps dump) := by
  have hquiet : ∀ st (e' : Engine), e'.queue = e.queue → e'.durable = e.durable → e'.inflight = e.inflight →
      e'.calls = e.calls.insert call st → Hands e e' call [] :=
    fun st e' hq hd hi hc => .nothing hq hd hi (calls_insert hc).1
  unfold applyDump importOps
  cases e.writeForCommit with
  | error err => exact hquiet .err _ rfl rfl rfl rfl
  | ok u =>
    simp only [withLive]
    rcases (e.load e.live).importDump dump with ⟨r,t⟩
    cases r with
    | error err => exact hquiet .err _ rfl rfl rfl rfl
    | ok p =>
      simp only
      split <;> exact leaveLock_hands (by rfl) (by rfl) (by rfl) (by rfl) call _

theorem importOps_graph {e : Engine} (h : (e.load e.live).Wf) (call : ℕ) (dump : Dump)
    (hok : (e.writeForCommit.toBool && !(e.applyDump call dump).1.toBool) = false) :
    (e.applyDump call dump).2.live.graph = e.live.graph.applyAll (e.importOps dump) := by
  obtain ⟨ns,es,ha,-,-,-,hall⟩ := (e.load e.live).importDump_spec dump
  have hg := ha.graph.symm.trans (Inner.applyOps_graph h (ns ++ es))
  unfold applyDump importOps at *
  cases hw : e.writeForCommit with
  | error err => rfl
  | ok u =>
    simp only [withLive,hw] at hok ⊢
    rcases hr : (e.load e.live).importDump dump with ⟨r,t⟩
    rw [hr] at hg hall
    simp only [hr] at hok
    cases r with
    | error err => simp [Except.toBool] at hok
    | ok p =>
      obtain ⟨done,report⟩ := p
      obtain rfl := hall done report rfl
      simp only
      rw [(leaveLock_core _ call (ns ++ es)).live]
      split <;> exact hg

theorem applyDelete_hands {e : Engine} (h : (e.load e.live).Wf) (call : ℕ) (uuid : Uuid) (stamp : Stamp)
    (isNode : Bool) (current : StampTarget → Option Stamp) (remap : Remap) :
    Hands e (e.applyDelete call uuid stamp isNode current remap).2.1 call (e.deleteOps uuid stamp isNode current remap) ∧
      (e.applyDelete call uuid stamp isNode current remap).2.1.live.graph =
        e.live.graph.applyAll (e.deleteOps uuid stamp isNode current remap) := by
  have hquiet : Hands e e call [] := .nothing rfl rfl rfl (fun _ hc => hc)
  unfold applyDelete deleteOps
  simp only
  split
  · exact ⟨hquiet,rfl⟩
  cases remap.target uuid isNode with
  | none =>
    cases hw : e.writeForCommit with
    | error err => exact ⟨hquiet,rfl⟩
    | ok u =>
      obtain ⟨ha,-⟩ := anchor_agree (e.load e.live) isNode
      exact ⟨.nothing rfl rfl rfl (fun _ hc => hc),((e.load_agree e.live).trans ha).graph.symm⟩
  | some t =>
    cases remap.liveId uuid isNode with
    | none => exact ⟨hquiet,rfl⟩
    | some id =>
      cases hw : e.writeForCommit with
      | error err => exact ⟨hquiet,rfl⟩
      | ok u =>
        have hs := (WriteSection.applied h hw [deleteOp isNode id]).of_core (leaveLock_core _ call [deleteOp isNode id])
        exact ⟨leaveLock_hands (by rfl) (by rfl) (by rfl) (by rfl) call _,hs.live.graph⟩

theorem applyChange_hands {e : Engine} (h : (e.load e.live).Wf) (call : ℕ) (change : StampedChange)
    (current : StampTarget → Option Stamp) (remap : Remap) :
    Hands e (e.applyChange call change current remap).2.1 call (e.changeOps change current remap) ∧
      (e.applyChange call change current remap).2.1.live.graph =
        e.live.graph.applyAll (e.changeOps change current remap) := by
  have hquiet : Hands e e call [] := .nothing rfl rfl rfl (fun _ hc => hc)
  cases change with
  | node node stamp =>
    simp only [applyChange,applyNodeUpsert,changeOps]
    split
    · exact ⟨hquiet,rfl⟩
    cases hw : e.writeForCommit with
    | error err => exact ⟨hquiet,rfl⟩
    | ok u =>
      obtain ⟨ha,hi⟩ := targetNode_agree (e.load e.live) (remap.nodeTarget node.uuid)
      have hs := WriteSection.minted h hw ha hi
        (.upsertNode ((e.load e.live).mergeNode (remap.nodeTarget node.uuid) node).1)
      exact ⟨leaveLock_hands (by rfl) (by rfl) (by rfl) (by rfl) call _,
        (congrArg Inner.graph (leaveLock_core _ call _).live).trans hs.live.graph⟩
  | edge edge fromUuid toUuid stamp =>
    simp only [applyChange,applyEdgeUpsert,changeOps]
    cases remap.node[fromUuid]? with
    | none => exact ⟨hquiet,rfl⟩
    | some fromLocal =>
      cases remap.node[toUuid]? with
      | none => exact ⟨hquiet,rfl⟩
      | some toLocal =>
        simp only
        split
        · exact ⟨hquiet,rfl⟩
        cases hw : e.writeForCommit with
        | error err => exact ⟨hquiet,rfl⟩
        | ok u =>
          obtain ⟨ha,hi⟩ := targetEdge_agree (e.load e.live) (remap.edgeTarget edge.uuid)
          have hs := WriteSection.minted h hw ha hi (.upsertEdge ((e.load e.live).mergeEdge
            (remap.edgeTarget edge.uuid) { edge with fromId := fromLocal, toId := toLocal }).1)
          exact ⟨leaveLock_hands (by rfl) (by rfl) (by rfl) (by rfl) call _,
            (congrArg Inner.graph (leaveLock_core _ call _).live).trans hs.live.graph⟩
  | deleteNode uuid stamp => exact applyDelete_hands h call uuid stamp true current remap
  | deleteEdge uuid stamp => exact applyDelete_hands h call uuid stamp false current remap

theorem deltaStep_hands {e : Engine} (h : (e.load e.live).Wf) (id call : ℕ) (current : StampTarget → Option Stamp) :
    ∃ ops, Hands e (e.deltaStep id call current) call ops ∧
      (e.deltaStep id call current).live.graph = e.live.graph.applyAll ops ∧
      handed call ops = match e.nextChange id with
        | none => []
        | some (change,remap) => handed call (e.changeOps change current remap) := by
  have hquiet : ∀ e' : Engine, e'.queue = e.queue → e'.durable = e.durable → e'.inflight = e.inflight →
      e'.calls = e.calls → Hands e e' call [] := fun e' hq hd hi hc => .nothing hq hd hi (fun _ hs => hc ▸ hs)
  unfold nextChange deltaStep
  cases hd : e.deltas[id]? with
  | none => exact ⟨[],hquiet e rfl rfl rfl rfl,rfl,rfl⟩
  | some d =>
    simp only
    generalize d.record.bind (fun c => e.calls[c]?) = record
    cases hch : d.changes with
    | nil =>
      rcases record with _ | ⟨_ | _ | _ | _⟩ <;> exact ⟨[],hquiet _ rfl rfl rfl rfl,rfl,rfl⟩
    | cons change rest =>
      obtain ⟨hh,hg⟩ := applyChange_hands h call change current d.remap
      rcases hr : e.applyChange call change current d.remap with ⟨r,e',remap⟩
      rw [hr] at hh hg
      rcases record with _ | ⟨_ | _ | _ | _⟩ <;> cases r <;> simp only [hr] <;>
      first
      | exact ⟨_,hh.frame rfl rfl rfl rfl,hg,rfl⟩
      | exact ⟨[],hquiet _ rfl rfl rfl rfl,rfl,rfl⟩

/-! ## Callers that wait -/

omit [JsonText] in
theorem await_frame (e : Engine) (call : ℕ) :
    (e.await call).durable = e.durable ∧ (e.await call).inflight = e.inflight ∧ (e.await call).queue = e.queue := by
  unfold await
  split
  · split_ifs <;> exact ⟨rfl,rfl,rfl⟩
  · exact ⟨rfl,rfl,rfl⟩

omit [JsonText] in
theorem await_calls (e : Engine) (call : ℕ) {c : ℕ} (hc : (e.calls[c]?).isSome) :
    ((e.await call).calls[c]?).isSome := by
  unfold await
  split
  · split_ifs
    · exact (calls_insert rfl).1 c hc
    · exact (calls_insert rfl).1 c hc
    · exact hc
  · exact hc

end Engine
end Drevo
