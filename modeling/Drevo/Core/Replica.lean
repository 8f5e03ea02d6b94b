import Drevo.Core.Dump
import Drevo.Core.Flow

/-! A read replica that tails the feed of a source in the same process. A sync reads the source
several times, and other threads may write between two of its reads. -/
namespace Drevo
open Lib

/-- What one round of a replica did, and how far it is behind. -/
structure SyncReport where
  applied : ℕ
  resynced : Bool
  lag : ℕ
  deriving DecidableEq

/-- The mirror of a source, and how much of its feed it has applied. -/
structure NativeReplica where
  graph : Engine
  cursor : ℕ := 0

/-- Where a sync is: between two of them, told to start over, rebuilt from the dump with the head
of the feed still to be read, or done with the lag still to be read. A round that failed reports
nothing. -/
inductive SyncPhase where
  | idle (report : Option SyncReport)
  | lagged
  | dumped (applied : ℕ)
  | applied (applied : ℕ) (resynced : Bool)
  deriving DecidableEq

/-- A source and a replica of it, between any two steps. -/
structure Mirror where
  source : Source
  replica : NativeReplica
  phase : SyncPhase := .idle none

/-- A step of the source, or the next read of a sync with what the replica does before another. -/
inductive MirrorStep where
  | source (a : SourceStep)
  | sync

namespace Engine
variable [JsonText]

def replay (capacity : ℕ) (ops : List WalOp) : Engine :=
  { openLog capacity false none [ops] with durable := false, queue := {} }

end Engine

namespace NativeReplica

def new (capacity : ℕ) : NativeReplica := { graph := .new capacity false none false }

def listPrepared (r : NativeReplica) : List String := r.graph.preparedGids

def intoPrimary (r : NativeReplica) : Engine := r.graph

end NativeReplica

namespace Mirror
variable [JsonText]

def step (m : Mirror) : MirrorStep → Mirror
  | .source a => { m with source := m.source.step a }
  | .sync =>
    match m.phase with
    | .idle _ =>
      let batch := m.source.feed.changesSince m.replica.cursor
      if batch.lagged then { m with phase := .lagged }
      else
        match m.replica.graph.applyWalOps batch.ops true with
        | (.error _,graph) => { m with replica := { m.replica with graph := graph }, phase := .idle none }
        | (.ok (),graph) => { m with replica := ⟨graph,batch.cursor⟩, phase := .applied batch.ops.length false }
    | .lagged =>
      let ops := m.source.engine.live.toWalOps
      { m with
        replica := { m.replica with graph := .replay m.replica.graph.history.capacity ops }
        phase := .dumped ops.length }
    | .dumped applied =>
      { m with
        replica := { m.replica with cursor := m.source.feed.changeHead }
        phase := .applied applied true }
    | .applied applied resynced =>
      { m with phase := .idle (some ⟨applied,resynced,m.source.feed.changeHead-m.replica.cursor⟩) }

def run (m : Mirror) (ms : List MirrorStep) : Mirror := ms.foldl step m

/-- The steps of a run, each with the state it found. -/
def trace (m : Mirror) : List MirrorStep → List (Mirror × MirrorStep)
  | [] => []
  | a :: as => (m,a) :: (m.step a).trace as

theorem run_invariant {p : Mirror → Prop} {q : Mirror → MirrorStep → Prop}
    (hstep : ∀ m a, p m → q m a → p (m.step a)) {m : Mirror} (h : p m) (as : List MirrorStep)
    (hq : ∀ t ∈ m.trace as, q t.1 t.2) : p (m.run as) := by
  induction as generalizing m with
  | nil => exact h
  | cons a as ih =>
    have ha := hq (m,a) (by simp [trace])
    exact ih (hstep m a h ha) (fun t ht => hq t (by simp [trace,ht]))

end Mirror

/-- What may go on while the source is quiet. -/
def MirrorStep.isQuiet : MirrorStep → Bool
  | .source a => a.isTrim
  | .sync => true

/-! ## The replica's engine -/

namespace Engine
variable [JsonText]

/-- An engine in memory that no one opened read-only. -/
structure InMemory (e : Engine) : Prop where
  inv : e.Inv
  durable : e.durable = false
  writable : e.readOnly = false

theorem new_inMemory (capacity : ℕ) : InMemory (.new capacity false none false) :=
  ⟨new_inv capacity false none false,rfl,rfl⟩

theorem replay_inMemory (capacity : ℕ) (ops : List WalOp) : InMemory (.replay capacity ops) :=
  ⟨(openLog_inv capacity false none [ops]).of_core (by constructor <;> rfl),rfl,rfl⟩

theorem replay_ledger (capacity : ℕ) (ops : List WalOp) :
    (replay capacity ops).live.ledger = ({} : Ledger).applyAll ops := by
  simp only [replay,openLog,List.flatten_cons,List.flatten_nil,List.append_nil]
  exact Inner.replay_ledger ops

theorem applyWalOps_inMemory {e : Engine} (h : InMemory e) (ops : List WalOp) (io : Bool) :
    (e.applyWalOps ops io).1 = .ok () ∧ InMemory (e.applyWalOps ops io).2 ∧
      (e.applyWalOps ops io).2.live.ledger = e.live.ledger.applyAll ops := by
  have hinv := applyWalOps_inv h.inv ops io
  by_cases hnil : ops.isEmpty = true
  · obtain rfl : ops = [] := by simpa using hnil
    exact ⟨rfl,h,rfl⟩
  · have hrun : e.applyWalOps ops io = (.ok (),(e.withLive (fun s => ((),s.applyWalOps ops))).2.noteCommit
        (.fromWalOps ops)) := by
      have hmem : ∀ e' : Engine, e'.durable = false → e'.record ops io = (true,e') := by
        intro e' he'
        simp [record,he']
      simp only [applyWalOps,if_neg hnil,h.writable,Bool.false_eq_true,if_false]
      rw [hmem ((e.withLive (fun s => ((),s.applyWalOps ops))).2.noteCommit (.fromWalOps ops)) h.durable]
    rw [hrun] at hinv ⊢
    exact ⟨rfl,⟨hinv,h.durable,h.writable⟩,Inner.applyWalOps_ledger h.inv.live ops⟩

end Engine

namespace Mirror
variable [JsonText]

/-! ## What a replica follows -/

/-- A read of the sync that does not fit what another thread does: the state is dumped while a
write is under way, or the feed grows between the dump and the read of its head. -/
def tears (m : Mirror) : MirrorStep → Bool
  | .source a =>
    match m.phase with
    | .dumped _ => (m.source.step a).feed.changeHead != m.source.feed.changeHead
    | _ => false
  | .sync =>
    match m.phase with
    | .lagged => !m.source.underway.isEmpty
    | _ => false

/-- A change of the source reaches the feed after a related one that took effect later, or is
not logged at all. -/
def misses (m : Mirror) : MirrorStep → Bool
  | .source a => m.source.overtakes a || m.source.loses a
  | .sync => false

structure Inv (m : Mirror) : Prop where
  source : m.source.Inv
  exclusive : m.source.engine.live.ledger.Exclusive
  replica : m.replica.graph.InMemory

def Following (m : Mirror) : Prop :=
  match m.phase with
  | .dumped _ => m.source.Follows m.source.feed.changeHead m.replica.graph.live.graph
  | _ => m.source.Follows m.replica.cursor m.replica.graph.live.graph

omit [JsonText] in
theorem map_change {ops : List WalOp} (h : ∀ op ∈ ops, ∃ g, op = WalOp.graph g) :
    (ops.filterMap WalOp.change).map WalOp.graph = ops := by
  induction ops with
  | nil => rfl
  | cons op ops ih =>
    obtain ⟨g,rfl⟩ := h op (by simp)
    have hrest := ih (fun o ho => h o (by simp [ho]))
    rw [List.filterMap_cons_some (show WalOp.change (.graph g) = some g from rfl),List.map_cons,hrest]

theorem batch_ledger {m : Mirror} (h : Inv m) :
    (m.replica.graph.applyWalOps (m.source.feed.changesSince m.replica.cursor).ops true).2.live.ledger =
      { m.replica.graph.live.ledger with
        graph := m.replica.graph.live.graph.applyAll
          ((m.source.feed.changesSince m.replica.cursor).ops.filterMap WalOp.change) } := by
  obtain ⟨-,-,hl⟩ := Engine.applyWalOps_inMemory h.replica (m.source.feed.changesSince m.replica.cursor).ops true
  have hops : ∀ op ∈ (m.source.feed.changesSince m.replica.cursor).ops, ∃ g, op = WalOp.graph g :=
    fun op hop => h.source.changes op (Feed.mem_changesSince hop)
  have hops := map_change hops
  rw [hl]
  conv_lhs => rw [← hops]
  exact Ledger.applyAll_graph _ _

theorem dump_ledger {m : Mirror} (h : Inv m) (capacity : ℕ) :
    (Engine.replay capacity m.source.engine.live.toWalOps).live.ledger = m.source.engine.live.ledger := by
  rw [Engine.replay_ledger]
  -- the records do not depend on the counters
  exact Inner.toWalOps_ledger (s := m.source.engine.load m.source.engine.live) h.source.engine.live h.exclusive

theorem sync_idle {m : Mirror} (h : Inv m) {report : Option SyncReport} (hp : m.phase = .idle report) :
    (m.replica.cursor < m.source.feed.startSeq ∧ m.step .sync = { m with phase := .lagged }) ∨
    (m.source.feed.startSeq ≤ m.replica.cursor ∧ ∃ graph n, m.step .sync =
      { m with replica := ⟨graph,m.source.feed.changeHead⟩, phase := .applied n false } ∧ graph.InMemory ∧
      graph.live.ledger = { m.replica.graph.live.ledger with
        graph := m.replica.graph.live.graph.applyAll
          ((m.source.feed.changesSince m.replica.cursor).ops.filterMap WalOp.change) }) := by
  by_cases hlag : m.replica.cursor < m.source.feed.startSeq
  · left
    refine ⟨hlag,?_⟩
    simp only [step,hp]
    rw [if_pos ((Feed.changesSince_lagged _ _).mpr hlag)]
  · right
    obtain ⟨hok,hmem,-⟩ := Engine.applyWalOps_inMemory h.replica (m.source.feed.changesSince m.replica.cursor).ops true
    have hledger := batch_ledger h
    refine ⟨Nat.le_of_not_lt hlag,_,(m.source.feed.changesSince m.replica.cursor).ops.length,?_,hmem,hledger⟩
    simp only [step,hp]
    rw [if_neg (fun hl => hlag ((Feed.changesSince_lagged _ _).mp hl)),← Feed.changesSince_cursor _ m.replica.cursor]
    rcases hr : m.replica.graph.applyWalOps (m.source.feed.changesSince m.replica.cursor).ops true with ⟨r,graph⟩
    rw [hr] at hok
    simp only at hok
    rw [hok]

theorem step_inv {m : Mirror} (h : Inv m) (a : MirrorStep) : Inv (m.step a) := by
  cases a with
  | source a =>
    refine ⟨Source.step_inv h.source a,?_,h.replica⟩
    cases a with
    | act a =>
      have hengine : (m.source.step (.act a)).engine = m.source.engine.step a := by
        simp only [Source.step]
        split <;> rfl
      simp only [step,hengine]
      exact Engine.move_exclusive h.source.engine h.exclusive (.act a)
    | publish call =>
      simp only [step,Source.step]
      split <;> exact h.exclusive
    | trimBefore cursor => exact h.exclusive
  | sync =>
    cases hp : m.phase with
    | idle report =>
      rcases sync_idle h hp with ⟨-,hs⟩ | ⟨-,graph,n,hs,hmem,-⟩
      · rw [hs]
        exact ⟨h.source,h.exclusive,h.replica⟩
      · rw [hs]
        exact ⟨h.source,h.exclusive,hmem⟩
    | lagged =>
      simp only [step,hp]
      exact ⟨h.source,h.exclusive,Engine.replay_inMemory _ _⟩
    | dumped n =>
      simp only [step,hp]
      exact ⟨h.source,h.exclusive,h.replica⟩
    | applied n resynced =>
      simp only [step,hp]
      exact ⟨h.source,h.exclusive,h.replica⟩

theorem step_following {m : Mirror} (h : Inv m) (hf : m.Following) {a : MirrorStep}
    (hm : m.misses a = false) (ht : m.tears a = false) : (m.step a).Following := by
  cases a with
  | source a =>
    simp only [misses,Bool.or_eq_false_iff] at hm
    have hstep : ∀ {cursor : ℕ} {g : Graph}, m.source.Follows cursor g → (m.source.step a).Follows cursor g :=
      fun hc => Source.step_follows h.source hm.1 hm.2 hc
    cases hp : m.phase with
    | dumped n =>
      simp only [Following,hp,step] at hf ⊢
      have hhead : (m.source.step a).feed.changeHead = m.source.feed.changeHead := by simpa [tears,hp] using ht
      rw [hhead]
      exact hstep hf
    | _ =>
      simp only [Following,hp,step] at hf ⊢
      exact hstep hf
  | sync =>
    cases hp : m.phase with
    | idle report =>
      simp only [Following,hp] at hf
      rcases sync_idle h hp with ⟨-,hs⟩ | ⟨hstart,graph,n,hs,-,hledger⟩
      · rw [hs]
        exact hf
      · rw [hs]
        have hgraph : graph.live.graph = _ := congrArg Ledger.graph hledger
        refine ⟨le_rfl,fun _ => ?_⟩
        simp only [Feed.tail_changeHead,List.filterMap_nil,Graph.applyAll_nil]
        rw [hgraph,Feed.changesSince_ops hstart hf.1]
        exact hf.2 hstart
    | lagged =>
      have hway : m.source.underway = [] := by simpa [tears,hp] using ht
      have hgraph := congrArg Ledger.graph (dump_ledger h m.replica.graph.history.capacity)
      simp only [Following,step,hp]
      have hg : (Engine.replay m.replica.graph.history.capacity m.source.engine.live.toWalOps).live.graph =
          m.source.engine.live.graph := hgraph
      rw [hg]
      exact Source.follows_snapshot hway
    | dumped n =>
      simp only [Following,hp] at hf
      simp only [Following,step,hp]
      exact hf
    | applied n resynced =>
      simp only [Following,hp] at hf
      simp only [Following,step,hp]
      exact hf

/-- A fresh replica of a source that was just opened. -/
def opened (capacity : ℕ) (readOnly : Bool) (maxTxWrites : Option ℕ) (log : Option (List (List WalOp)))
    (replicaCapacity : ℕ) : Mirror where
  source := .opened capacity readOnly maxTxWrites log
  replica := .new replicaCapacity

theorem opened_inv (capacity : ℕ) (readOnly : Bool) (maxTxWrites : Option ℕ) (log : Option (List (List WalOp)))
    (replicaCapacity : ℕ) : Inv (opened capacity readOnly maxTxWrites log replicaCapacity) := by
  refine ⟨Source.opened_inv capacity readOnly maxTxWrites log,?_,Engine.new_inMemory replicaCapacity⟩
  cases log with
  | none => exact Ledger.empty_exclusive
  | some log =>
    have hledger : (Engine.openLog capacity readOnly maxTxWrites log).live.ledger = ({} : Ledger).applyAll log.flatten :=
      Inner.replay_ledger log.flatten
    simp only [opened,Source.opened,hledger]
    exact Ledger.applyAll_exclusive _ Ledger.empty_exclusive

theorem run_following {m : Mirror} (h : Inv m) (hf : m.Following) (ms : List MirrorStep)
    (hm : ∀ t ∈ m.trace ms, t.1.misses t.2 = false)
    (ht : ∀ t ∈ m.trace ms, t.1.tears t.2 = false) : Inv (m.run ms) ∧ (m.run ms).Following := by
  induction ms generalizing m with
  | nil => exact ⟨h,hf⟩
  | cons a ms ih =>
    have hma := hm (m,a) (by simp [trace])
    have hta := ht (m,a) (by simp [trace])
    exact ih (step_inv h a) (step_following h hf hma hta)
      (fun t h' => hm t (by simp [trace,h'])) (fun t h' => ht t (by simp [trace,h']))

/-! ## A sync of a quiet source -/

/-- From the first read of a sync on, as long as the source is quiet: where the cursor is set it
is at the head, and where a lag is reported there is none. -/
structure Settled (m : Mirror) : Prop where
  inv : Inv m
  following : m.Following
  underway : m.source.underway = []
  head : ∀ n resynced, m.phase = .applied n resynced → m.replica.cursor = m.source.feed.changeHead
  report : ∀ report, m.phase = .idle report → m.replica.cursor = m.source.feed.changeHead ∧
    ∃ r, report = some r ∧ r.lag = 0

theorem quiet_misses (m : Mirror) {a : MirrorStep} (hq : a.isQuiet = true) : m.misses a = false := by
  cases a with
  | sync => rfl
  | source a =>
    cases a with
    | trimBefore cursor => rfl
    | _ => cases hq

theorem quiet_tears {m : Mirror} (hw : m.source.underway = []) {a : MirrorStep} (hq : a.isQuiet = true) :
    m.tears a = false := by
  cases a with
  | sync =>
    simp only [tears,hw]
    split <;> rfl
  | source a =>
    cases a with
    | trimBefore cursor =>
      simp only [tears,Source.step,Feed.changeHead_trimBefore]
      split <;> simp
    | _ => cases hq

/-- A step that may go on while the source is quiet settles what the first read began. -/
theorem step_settled {m : Mirror} (h : Inv m) (hf : m.Following) (hw : m.source.underway = []) {a : MirrorStep}
    (hq : a.isQuiet = true) (hs : Settled m ∨ a = .sync ∧ ∃ report, m.phase = .idle report) : Settled (m.step a) := by
  have hinv := step_inv h a
  have hfol := step_following h hf (quiet_misses m hq) (quiet_tears hw hq)
  cases a with
  | source a =>
    cases a with
    | trimBefore cursor =>
      have hs : Settled m := by
        rcases hs with hs | ⟨ha,-⟩
        · exact hs
        · cases ha
      refine ⟨hinv,hfol,hw,?_,?_⟩
      · intro n resynced hp
        simp only [step,Source.step,Feed.changeHead_trimBefore]
        exact hs.head n resynced hp
      · intro report hp
        simp only [step,Source.step,Feed.changeHead_trimBefore]
        exact hs.report report hp
    | _ => cases hq
  | sync =>
    cases hp : m.phase with
    | idle report =>
      rcases sync_idle h hp with ⟨-,hrun⟩ | ⟨-,graph,n,hrun,-,-⟩
      · rw [hrun] at hinv hfol ⊢
        exact ⟨hinv,hfol,hw,fun n r hp => (by cases hp),fun r hp => (by cases hp)⟩
      · rw [hrun] at hinv hfol ⊢
        exact ⟨hinv,hfol,hw,fun n r hp => rfl,fun r hp => (by cases hp)⟩
    | lagged =>
      simp only [step,hp] at hinv hfol ⊢
      exact ⟨hinv,hfol,hw,fun n r hp => (by cases hp),fun r hp => (by cases hp)⟩
    | dumped n =>
      simp only [step,hp] at hinv hfol ⊢
      exact ⟨hinv,hfol,hw,fun n r hp => rfl,fun r hp => (by cases hp)⟩
    | applied n resynced =>
      have hhead : m.replica.cursor = m.source.feed.changeHead := by
        rcases hs with hs | ⟨-,report,hidle⟩
        · exact hs.head n resynced hp
        · rw [hp] at hidle
          cases hidle
      simp only [step,hp] at hinv hfol ⊢
      refine ⟨hinv,hfol,hw,fun n r hp => (by cases hp),?_⟩
      intro report hp
      cases hp
      exact ⟨hhead,_,rfl,by simp [hhead]⟩

theorem run_settled {m : Mirror} (h : Settled m) (ms : List MirrorStep) (hq : ∀ a ∈ ms, a.isQuiet = true) :
    Settled (m.run ms) := by
  induction ms generalizing m with
  | nil => exact h
  | cons a ms ih =>
    exact ih (step_settled h.inv h.following h.underway (hq a (by simp)) (Or.inl h)) (fun b hb => hq b (by simp [hb]))

/-- The step resolves a prepared transaction that the replica has taken over with a dump. -/
def resolvesHeld (m : Mirror) : MirrorStep → Bool
  | .source (.act (.commitPrepared gid io)) =>
    (m.source.engine.commitPrepared gid io).1.toBool && m.replica.listPrepared.contains gid
  | .source (.act (.rollbackPrepared gid heuristic io)) =>
    (m.source.engine.rollbackPreparedAs gid heuristic io).1.toBool && m.replica.listPrepared.contains gid
  | _ => false

def Fresh (m : Mirror) : Prop :=
  ∀ gid : String, m.replica.graph.live.prepared[gid]?.isSome → m.source.engine.live.prepared[gid]?.isSome

end Mirror

namespace Engine
variable [JsonText]

omit [JsonText] in
theorem mem_preparedGids {e : Engine} {gid : String} : gid ∈ e.preparedGids ↔ e.live.prepared[gid]?.isSome := by
  simp only [preparedGids,List.mem_map,Prod.exists,Std.ExtTreeMap.mem_toList_iff_getElem?_eq_some]
  constructor
  · rintro ⟨g,entry,h,rfl⟩
    simp [h]
  · intro h
    obtain ⟨entry,hentry⟩ := Option.isSome_iff_exists.mp h
    exact ⟨gid,entry,hentry,rfl⟩

omit [JsonText] in
theorem writeForCommit_fence {e : Engine} {gids : List String}
    (h : e.writeForCommit = .error (.preparedTransactionPending gids)) : gids = e.preparedGids := by
  unfold writeForCommit at h
  split_ifs at h
  · cases h
  · cases h
    rfl

/-- A prepared transaction stays until it is resolved under its own name. -/
theorem step_prepared {e : Engine} (h : Inv e) (a : Action) {gid : String}
    (hg : e.live.prepared[gid]?.isSome) : (e.step a).live.prepared[gid]?.isSome ∨
      (∃ io, a = .commitPrepared gid io ∧ (e.commitPrepared gid io).1 = .ok ()) ∨
      ∃ heuristic io, a = .rollbackPrepared gid heuristic io ∧ (e.rollbackPreparedAs gid heuristic io).1 = .ok () := by
  have hkeep : (e.step a).live.prepared = e.live.prepared → (e.step a).live.prepared[gid]?.isSome := by
    intro hsame
    rw [hsame]
    exact hg
  cases a with
  | direct call w =>
    refine Or.inl (hkeep ?_)
    simp only [step]
    split_ifs
    · rfl
    · exact Inner.prepared_of_schema (direct_section h.live call w).schema
  | enqueue call encoded => exact Or.inl (hkeep (congrArg Inner.prepared (enqueue_core e call encoded).live))
  | lead => exact Or.inl hg
  | finish io => exact Or.inl hg
  | await call => exact Or.inl (hkeep (congrArg Inner.prepared (await_core e call).live))
  | batch w io => exact Or.inl (hkeep (Inner.prepared_of_schema (batch_section h.live w io).schema))
  | txBegin isolation limited => exact Or.inl hg
  | txWrite id m =>
    refine Or.inl (hkeep ?_)
    simp only [step,txWrite]
    split
    · rfl
    · split <;> rfl
  | txCommit id io =>
    refine Or.inl (hkeep ?_)
    simp only [step]
    cases hs : e.txs[id]? with
    | none => rw [txCommit_none hs]
    | some slot =>
      obtain ⟨hslot,-⟩ := h.slots id slot hs
      have hslot' : SlotInv { e with txs := e.txs.erase id } slot :=
        ⟨hslot.wf,hslot.baseWf,hslot.replay,hslot.epoch,hslot.same,hslot.seq⟩
      simp only [txCommit,hs]
      exact Inner.prepared_of_schema (commitParts_schema hslot' io)
  | txRollback id => exact Or.inl hg
  | txPrepare id gid' now io =>
    left
    simp only [step,txPrepare]
    split
    · exact hg
    · rename_i slot hs
      have hr := prepareParts_result { e with txs := e.txs.erase id } slot gid' now io
      generalize prepareParts { e with txs := e.txs.erase id } slot gid' now io = r at hr
      obtain ⟨r,e'⟩ := r
      cases hr with
      | refused err e' hc =>
        rw [hc.live]
        exact hg
      | prepared e' hp he hv hc =>
        rw [hc.live]
        simp only [noteCommit,install,fenced,Map.get_insert]
        split_ifs
        · rfl
        · exact hg
  | commitPrepared gid' io =>
    rcases commitPrepared_result e gid' io with ⟨-,-,hc⟩ | ⟨entry,-,hr,-⟩
    · exact Or.inl (hkeep (congrArg Inner.prepared hc.live))
    · by_cases hname : gid' = gid
      · exact Or.inr (Or.inl ⟨io,by rw [hname],hname ▸ hr⟩)
      · left
        have hp := congrArg Schema.prepared (commitPrepared_schema hr)
        simp only [step]
        rw [show (e.commitPrepared gid' io).2.live.prepared = e.live.prepared.erase gid' from hp,Map.get_erase,
          if_neg hname]
        exact hg
  | rollbackPrepared gid' heuristic io =>
    rcases rollbackPreparedAs_schema e gid' heuristic io with hc | ⟨-,hr,hp⟩
    · exact Or.inl (hkeep (congrArg Inner.prepared hc.live))
    · by_cases hname : gid' = gid
      · exact Or.inr (Or.inr ⟨heuristic,io,by rw [hname],hname ▸ hr⟩)
      · left
        have hp := congrArg Schema.prepared hp
        simp only [step]
        rw [show (e.rollbackPreparedAs gid' heuristic io).2.live.prepared = e.live.prepared.erase gid' from hp,
          Map.get_erase,if_neg hname]
        exact hg
  | addConstraint c =>
    refine Or.inl (hkeep ?_)
    rcases addConstraint_result e c with he | ⟨-,-,he⟩
    · simp only [step,he]
      rfl
    · simp only [step,he]
      rfl
  | removeConstraint c =>
    refine Or.inl (hkeep ?_)
    rcases removeConstraint_result e c with he | ⟨he,-⟩
    · simp only [step,he]
      rfl
    · simp only [step,he]
      rfl
  | applyDump call dump =>
    refine Or.inl (hkeep ?_)
    simp only [step]
    split_ifs
    · rfl
    · obtain ⟨ns,es,hs,-⟩ := applyDump_section h.live call dump
      exact Inner.prepared_of_schema hs.schema
  | deltaBegin id changes tomb => exact Or.inl hg
  | deltaStep id call current =>
    refine Or.inl (hkeep ?_)
    simp only [step]
    split_ifs
    · rfl
    · rcases deltaStep_section h.live id call current with ⟨-,ops,hs,-⟩ | ⟨edge,-,hs⟩
      · exact Inner.prepared_of_schema hs.schema
      · exact Inner.prepared_of_schema hs.schema

end Engine

namespace Mirror
variable [JsonText]

theorem step_fresh {m : Mirror} (h : Inv m) (hf : m.Fresh) {a : MirrorStep}
    (hr : m.resolvesHeld a = false) : (m.step a).Fresh := by
  cases a with
  | source a =>
    cases a with
    | act a =>
      have hengine : (m.source.step (.act a)).engine = m.source.engine.step a := by
        simp only [Source.step]
        split <;> rfl
      intro gid hgid
      have hheld : m.replica.listPrepared.contains gid = true := by
        rw [List.contains_iff_mem]
        exact Engine.mem_preparedGids.mpr hgid
      simp only [step,hengine]
      rcases Engine.step_prepared h.source.engine a (hf gid hgid) with hs | ⟨io,rfl,hok⟩ | ⟨heuristic,io,rfl,hok⟩
      · exact hs
      · simp only [resolvesHeld,hok,hheld] at hr
        cases hr
      · simp only [resolvesHeld,hok,hheld] at hr
        cases hr
    | publish call =>
      simp only [step,Source.step]
      split <;> exact hf
    | trimBefore cursor => exact hf
  | sync =>
    cases hp : m.phase with
    | idle report =>
      rcases sync_idle h hp with ⟨-,hs⟩ | ⟨-,graph,n,hs,-,hledger⟩
      · rw [hs]
        exact hf
      · rw [hs]
        intro gid hgid
        have hprep : graph.live.prepared = m.replica.graph.live.prepared := congrArg Ledger.prepared hledger
        simp only [hprep] at hgid
        exact hf gid hgid
    | lagged =>
      intro gid hgid
      have hprep := congrArg Ledger.prepared (dump_ledger h m.replica.graph.history.capacity)
      simp only [step,hp] at hgid ⊢
      have hprep : (Engine.replay m.replica.graph.history.capacity m.source.engine.live.toWalOps).live.prepared =
          m.source.engine.live.prepared := hprep
      rwa [hprep] at hgid
    | dumped n =>
      simp only [step,hp]
      exact hf
    | applied n resynced =>
      simp only [step,hp]
      exact hf

/-- In any run in which no transaction is resolved on the source while the replica holds it as
prepared, whatever the replica lists as prepared is so on the source, and a replica that became
a primary refuses writes for such transactions only. -/
theorem replica_prepared_on_source (capacity : ℕ) (readOnly : Bool) (maxTxWrites : Option ℕ)
    (log : Option (List (List WalOp))) (replicaCapacity : ℕ) (ms : List MirrorStep)
    {m₀ m : Mirror}
    (h₀ : m₀ = opened capacity readOnly maxTxWrites log replicaCapacity) (h : m = m₀.run ms)
    (hr : ∀ t ∈ m₀.trace ms, t.1.resolvesHeld t.2 = false) :
    (∀ gid ∈ m.replica.listPrepared, gid ∈ m.source.engine.preparedGids) ∧
      ∀ gids, m.replica.intoPrimary.writeForCommit = .error (.preparedTransactionPending gids) →
        ∀ gid ∈ gids, gid ∈ m.source.engine.preparedGids := by
  have hfresh : m.Fresh := by
    have hopen : Inv m₀ ∧ m₀.Fresh := by
      rw [h₀]
      exact ⟨opened_inv capacity readOnly maxTxWrites log replicaCapacity,fun gid hg => by cases hg⟩
    have hrun := run_invariant (p := fun m => Inv m ∧ m.Fresh)
      (q := fun m a => m.resolvesHeld a = false)
      (fun m a hm hq => ⟨step_inv hm.1 a,step_fresh hm.1 hm.2 hq⟩) hopen ms hr
    rw [h]
    exact hrun.2
  have hlist : ∀ gid ∈ m.replica.listPrepared, gid ∈ m.source.engine.preparedGids :=
    fun gid hg => Engine.mem_preparedGids.mpr (hfresh gid (Engine.mem_preparedGids.mp hg))
  refine ⟨hlist,?_⟩
  intro gids hw gid hg
  obtain rfl := Engine.writeForCommit_fence hw
  exact hlist gid hg

end Mirror

namespace Mirror
section Sample
attribute [local instance] Json.compactText

/-- A node is created in memory and reaches the feed. -/
def created (call : ℕ) (title : String) : List MirrorStep :=
  [.source (.act (.direct call (.mutation (.createNode (.titled "Note" title) ⟨5,call⟩)))),.source (.publish call)]

/-- A re-snapshot, with `between` falling between the dump and the read of the head. -/
def resynced (between : List MirrorStep) : List MirrorStep :=
  created 1 "a" ++ [.source (.trimBefore 1),.sync,.sync] ++ between ++ [.sync,.sync]

def prepared : List MirrorStep :=
  [.source (.act (.txBegin .snapshot false)),.source (.act (.txWrite 1 (.createNode (.titled "Note" "b") ⟨6,2⟩))),
    .source (.act (.txPrepare 1 "g" 7 true))]

/-- The feed is trimmed and the replica rebuilt while `g` is prepared; then `g` is committed. -/
def heldAndCommitted : List MirrorStep :=
  created 1 "a" ++ prepared ++ [.source (.trimBefore 1),.sync,.sync,.sync,.sync,
    .source (.act (.commitPrepared "g" true)),.sync,.sync]

/-- A transaction the replica never held may be resolved. -/
theorem replica_prepared_on_source_sample :
    let m := (opened 10000 false none none 10000).run
      (created 1 "a" ++ prepared ++ [.sync,.sync,.source (.act (.commitPrepared "g" true)),.sync,.sync])
    m.phase = .idle (some ⟨1,false,0⟩) ∧ ∀ gid ∈ m.replica.listPrepared, gid ∈ m.source.engine.preparedGids := by
  intro m
  refine ⟨by decide +kernel,?_⟩
  exact (replica_prepared_on_source 10000 false none none 10000 _ rfl (m := m) rfl (by decide +kernel)).1

/-- One it took over with a dump stays prepared there after the source committed it: a sync
reports no lag, and the promoted replica refuses every write. -/
theorem resolved_transaction_stays_prepared :
    let m := (opened 10000 false none none 10000).run heldAndCommitted
    m.phase = .idle (some ⟨1,false,0⟩) ∧ m.replica.listPrepared = ["g"] ∧ m.source.engine.preparedGids = [] ∧
      m.replica.intoPrimary.writeForCommit = .error (.preparedTransactionPending ["g"]) := by
  intro m
  refine ⟨by decide +kernel,by decide +kernel,by decide +kernel,?_⟩
  have hwrite : m.replica.graph.readOnly = false ∧ m.replica.graph.live.prepared.isEmpty = false ∧
      m.replica.graph.preparedGids = ["g"] := by decide +kernel
  obtain ⟨hr,hp,hg⟩ := hwrite
  simp [NativeReplica.intoPrimary,Engine.writeForCommit,hr,hp,hg]

end Sample
end Mirror
end Drevo
