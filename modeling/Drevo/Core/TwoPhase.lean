import Drevo.Core.Ledger
import Drevo.Core.Invariant

/-! The store over its life: transactions, two-phase commit, compaction, and crashes after
which the log is read again. The log and the live state stand for the same ledger throughout,
and so does the journal of every record that was written, which no compaction shortens. -/
namespace Drevo
open Lib

namespace Engine
variable [JsonText]

/-! ## What a call writes -/

/-- No record is on its way to the log. -/
structure AtRest (e : Engine) : Prop where
  idle : e.queue.Idle
  durable : e.durable = true

/-- The call appended these records to the log. -/
structure Wrote (e e' : Engine) (records : List (List WalOp)) : Prop where
  log : e'.queue.log = e.queue.log ++ records
  rest : AtRest e'

omit [JsonText] in
theorem Wrote.nothing {e e' : Engine} (h : AtRest e) (hq : e'.queue = e.queue) (hd : e'.durable = e.durable) :
    Wrote e e' [] := by
  refine ⟨by rw [hq,List.append_nil],⟨?_,hd.trans h.durable⟩⟩
  rw [hq]
  exact h.idle

omit [JsonText] in
theorem record_rest {e : Engine} (h : AtRest e) (ops : List WalOp) (hops : ops ≠ []) :
    ∃ e', e.record ops true = (true,e') ∧ Wrote e e' [ops] := by
  obtain ⟨hok,hidle,hlog⟩ := GroupQueue.commit_idle h.idle ops
  have hne : ¬ (ops.isEmpty || !e.durable) = true := by simp [hops,h.durable]
  refine ⟨{ e with queue := (e.queue.commit ops true).2 },?_,⟨hlog,hidle,h.durable⟩⟩
  simp only [record,if_neg hne,hok]

omit [JsonText] in
theorem Wrote.of_queue {e a b : Engine} {records : List (List WalOp)} (h : Wrote e a records)
    (hq : b.queue = a.queue) (hd : b.durable = a.durable) : Wrote e b records := by
  refine ⟨hq ▸ h.log,⟨?_,hd.trans h.rest.durable⟩⟩
  rw [hq]
  exact h.rest.idle

/-- A commit writes its changes as one record, a refused one nothing. -/
theorem commitParts_wrote {e : Engine} (h : AtRest e) (slot : TxSlot) :
    ∃ records, Wrote e (e.commitParts slot true).2 records ∧
      records.flatten = (okOps (e.commitParts slot true).1 slot.ops).map .graph := by
  have hself : Wrote e e [] := .nothing h rfl rfl
  unfold commitParts
  simp only
  by_cases ho : slot.ops.isEmpty = true
  · rw [if_pos ho]
    exact ⟨[],hself,by simp [okOps,List.isEmpty_iff.mp ho]⟩
  rw [if_neg ho]
  have hne : slot.ops.map WalOp.graph ≠ [] := by simpa using ho
  by_cases hr : e.readOnly = true
  · rw [if_pos hr]
    exact ⟨[],hself,rfl⟩
  rw [if_neg hr]
  by_cases hf : (!e.live.prepared.isEmpty && (ConflictSet.fromOps slot.ops).intersects e.live.preparedSet) = true
  · rw [if_pos hf]
    exact ⟨[],hself,rfl⟩
  rw [if_neg hf]
  by_cases he : e.epoch = slot.baseEpoch
  · rw [if_pos he]
    cases slot.working.validateConstraints with
    | error v => exact ⟨[],hself,rfl⟩
    | ok u =>
      simp only
      by_cases hb : slot.working.breaksPrepared = true
      · rw [if_pos hb]
        exact ⟨[],hself,rfl⟩
      rw [if_neg hb]
      obtain ⟨e',hrec,hw⟩ := record_rest h _ hne
      rw [hrec]
      exact ⟨_,hw.of_queue rfl rfl,by simp [okOps]⟩
  rw [if_neg he]
  by_cases hcl : e.history.classify slot.base.commitSeq (.fromOps slot.ops) ≠ .wouldPass ∨
      slot.isolation = .serializable
  · rw [if_pos hcl]
    exact ⟨[],hself,rfl⟩
  rw [if_neg hcl]
  cases slot.working.validateConstraints with
  | error v => exact ⟨[],hself,rfl⟩
  | ok u =>
    simp only
    cases (e.merged slot).validateConstraints with
    | error v => exact ⟨[],.nothing h rfl rfl,rfl⟩
    | ok u =>
      simp only
      by_cases hb : (e.merged slot).breaksPrepared = true
      · rw [if_pos hb]
        exact ⟨[],.nothing h rfl rfl,rfl⟩
      rw [if_neg hb]
      have h' : AtRest { e with ids := (e.merged slot).ids } := ⟨h.idle,h.durable⟩
      obtain ⟨e',hrec,hw⟩ := record_rest h' _ hne
      rw [hrec]
      exact ⟨_,⟨hw.log,⟨hw.rest.idle,hw.rest.durable⟩⟩,by simp [okOps]⟩

theorem prepareParts_wrote {e : Engine} (h : AtRest e) (slot : TxSlot) (gid : String) (now : ℤ) :
    ∃ records, Wrote e (e.prepareParts slot gid now true).2 records ∧
      records.flatten = match (e.prepareParts slot gid now true).1 with
        | .ok _ => [.prepare gid now slot.ops]
        | .error _ => [] := by
  have hself : Wrote e e [] := .nothing h rfl rfl
  unfold prepareParts
  by_cases hr : e.readOnly = true
  · rw [if_pos hr]
    exact ⟨[],hself,rfl⟩
  rw [if_neg hr]
  by_cases hg : e.live.prepared.contains gid = true
  · rw [if_pos hg]
    exact ⟨[],hself,rfl⟩
  rw [if_neg hg]
  by_cases hp : (!e.live.prepared.isEmpty) = true
  · rw [if_pos hp]
    exact ⟨[],hself,rfl⟩
  rw [if_neg hp]
  by_cases he : e.epoch ≠ slot.baseEpoch
  · rw [if_pos he]
    exact ⟨[],hself,rfl⟩
  rw [if_neg he]
  cases slot.working.validateConstraints with
  | error v => exact ⟨[],hself,rfl⟩
  | ok u =>
    simp only
    obtain ⟨e',hrec,hw⟩ := record_rest h [.prepare gid now slot.ops] (by simp)
    rw [hrec]
    exact ⟨_,hw.of_queue rfl rfl,rfl⟩

theorem prepareParts_ledger (e : Engine) (slot : TxSlot) (gid : String) (now : ℤ) (io : Bool) :
    (e.prepareParts slot gid now io).2.live.ledger = e.live.ledger.applyAll
      (match (e.prepareParts slot gid now io).1 with
        | .ok _ => [.prepare gid now slot.ops]
        | .error _ => []) := by
  have hr := prepareParts_result e slot gid now io
  generalize e.prepareParts slot gid now io = r at hr ⊢
  obtain ⟨r,e'⟩ := r
  cases hr with
  | refused err _ hc =>
    have hlive : e'.live = e.live := hc.live
    simp only [hlive]
    rfl
  | prepared _ hp he hv hc =>
    have hlive : e'.live = { e.fenced gid now slot.ops with commitSeq := e.live.commitSeq+1 } := hc.live
    simp only [hlive]
    rfl

theorem commitPrepared_wrote {e : Engine} (h : AtRest e) (gid : String) :
    ∃ records, Wrote e (e.commitPrepared gid true).2 records ∧
      records.flatten = match (e.commitPrepared gid true).1 with
        | .ok _ => [.commitPrepared gid]
        | .error _ => [] := by
  have hself : Wrote e e [] := .nothing h rfl rfl
  unfold commitPrepared
  by_cases hr : e.readOnly = true
  · rw [if_pos hr]
    exact ⟨[],hself,rfl⟩
  rw [if_neg hr]
  cases e.live.prepared[gid]? with
  | none => exact ⟨[],hself,rfl⟩
  | some entry =>
    simp only
    obtain ⟨e',hrec,hw⟩ := record_rest h [.commitPrepared gid] (by simp)
    rw [hrec]
    exact ⟨_,hw.of_queue rfl rfl,rfl⟩

theorem rollbackPreparedAs_wrote {e : Engine} (h : AtRest e) (gid : String) (heuristic : Bool) :
    ∃ records, Wrote e (e.rollbackPreparedAs gid heuristic true).2 records ∧
      ((records = [] ∧ (e.rollbackPreparedAs gid heuristic true).2 = e) ∨
        (records = [[.rollbackPrepared gid heuristic]] ∧ e.live.prepared[gid]?.isSome ∧
          ¬ SameCore e (e.rollbackPreparedAs gid heuristic true).2)) := by
  have hself : Wrote e e [] := .nothing h rfl rfl
  unfold rollbackPreparedAs
  by_cases hr : e.readOnly = true
  · rw [if_pos hr]
    exact ⟨[],hself,Or.inl ⟨rfl,rfl⟩⟩
  rw [if_neg hr]
  by_cases hg : (!e.live.prepared.contains gid) = true
  · rw [if_pos hg]
    split_ifs <;> exact ⟨[],hself,Or.inl ⟨rfl,rfl⟩⟩
  rw [if_neg hg]
  obtain ⟨e',hrec,hw⟩ := record_rest h [.rollbackPrepared gid heuristic] (by simp)
  have hc := record_core e [.rollbackPrepared gid heuristic] true
  rw [hrec] at hc ⊢
  refine ⟨_,hw.of_queue rfl rfl,Or.inr ⟨rfl,?_,?_⟩⟩
  · rw [← Map.contains_eq]
    simpa using hg
  · intro hsame
    have hepoch : e'.epoch+1 = e.epoch := hsame.epoch
    rw [hc.epoch] at hepoch
    omega

end Engine

/-! ## The store -/

/-- A call on the store, a compaction of its log, or a crash that loses the last records of the
log, after which the store is opened again. -/
inductive StoreAction where
  | txBegin (isolation : Isolation) (limited : Bool)
  | txWrite (id : ℕ) (m : Mutation)
  | txCommit (id : ℕ)
  | txRollback (id : ℕ)
  | txPrepare (id : ℕ) (gid : String) (now : ℤ)
  | commitPrepared (gid : String)
  | rollbackPrepared (gid : String)
  | heuristicRollbackPrepared (gid : String)
  | compactWal
  | reopen (lost : ℕ)

/-- The store: its engine, how many records of the log a compaction wrote, and the journal of
all records that were written and not lost, as they were written. If records of a compaction
are lost, which its rename excludes, the journal begins again with those that are left. -/
structure Store where
  engine : Engine
  compacted : ℕ := 0
  journal : List (List WalOp) := []

namespace Store
variable [JsonText]

def log (s : Store) : List (List WalOp) := s.engine.queue.log

/-- A call that may have appended to the log. -/
def call (s : Store) (e : Engine) : Store :=
  { s with engine := e, journal := s.journal ++ e.queue.log.drop s.log.length }

/-- Rewrite the log as a snapshot of the live state, one entry a record. The new file replaces
the old one by a rename. -/
def compactWal (s : Store) : Store :=
  if s.engine.readOnly then s
  else
    let log := s.engine.live.toWalOps.map (fun op => [op])
    { s with engine := { s.engine with queue := { s.engine.queue with log := log } }, compacted := log.length }

def reopen (s : Store) (lost : ℕ) : Store :=
  let kept := s.log.length-lost
  { engine := .openLog s.engine.history.capacity s.engine.readOnly s.engine.maxTxWrites (s.log.take kept)
    compacted := min s.compacted kept
    journal := if s.compacted ≤ kept then s.journal.take (s.journal.length-(s.log.length-kept)) else s.log.take kept }

def step (s : Store) : StoreAction → Store
  | .txBegin isolation limited => s.call (s.engine.txBegin isolation limited).2
  | .txWrite id m => s.call (s.engine.txWrite id m).2
  | .txCommit id => s.call (s.engine.txCommit id true).2
  | .txRollback id => s.call (s.engine.txRollback id).2
  | .txPrepare id gid now => s.call (s.engine.txPrepare id gid now true).2
  | .commitPrepared gid => s.call (s.engine.commitPrepared gid true).2
  | .rollbackPrepared gid => s.call (s.engine.rollbackPreparedAs gid false true).2
  | .heuristicRollbackPrepared gid => s.call (s.engine.rollbackPreparedAs gid true true).2
  | .compactWal => s.compactWal
  | .reopen lost => s.reopen lost

def run (s : Store) (as : List StoreAction) : Store := as.foldl step s

/-- The log and the journal end in the same records and stand for the same ledger, the live
state's. -/
structure Inv (s : Store) : Prop where
  engine : s.engine.Inv
  rest : s.engine.AtRest
  live : s.engine.live.ledger = ({} : Ledger).applyAll s.log.flatten
  tail : ∃ snapshot earlier tail, s.log = snapshot ++ tail ∧ snapshot.length = s.compacted ∧
    s.journal = earlier ++ tail ∧
    ({} : Ledger).applyAll snapshot.flatten = ({} : Ledger).applyAll earlier.flatten

theorem Inv.journal {s : Store} (h : Inv s) : s.engine.live.ledger = ({} : Ledger).applyAll s.journal.flatten := by
  obtain ⟨snapshot,earlier,tail,hlog,-,hjournal,hsame⟩ := h.tail
  rw [h.live,hlog,hjournal,List.flatten_append,List.flatten_append,Ledger.applyAll_append,Ledger.applyAll_append,
    hsame]

theorem Inv.call {s : Store} (h : Inv s) {e : Engine} {records : List (List WalOp)} (hi : e.Inv)
    (hw : s.engine.Wrote e records) (hl : e.live.ledger = s.engine.live.ledger.applyAll records.flatten) :
    Inv (s.call e) := by
  obtain ⟨snapshot,earlier,tail,hlog,hlen,hjournal,hsame⟩ := h.tail
  have hnew : (s.call e).log = s.log ++ records := hw.log
  refine ⟨hi,hw.rest,?_,snapshot,earlier,tail ++ records,?_,hlen,?_,hsame⟩
  · rw [hnew,List.flatten_append,Ledger.applyAll_append,← h.live]
    exact hl
  · rw [hnew,hlog,List.append_assoc]
  · have hdrop : e.queue.log.drop s.log.length = records := by
      have hq : e.queue.log = s.log ++ records := hw.log
      rw [hq,List.drop_left]
    simp only [Store.call,hdrop,hjournal,List.append_assoc]

theorem compactWal_inv {s : Store} (h : Inv s) : Inv s.compactWal := by
  unfold compactWal
  split_ifs
  · exact h
  · have hx : s.engine.live.ledger.Exclusive :=
      h.live ▸ Ledger.applyAll_exclusive _ Ledger.empty_exclusive
    have hflat : (s.engine.live.toWalOps.map (fun op => [op])).flatten = s.engine.live.toWalOps := by
      simp [List.flatten_eq_flatMap,List.flatMap_map]
    have hledger := Inner.toWalOps_ledger h.engine.live hx
    have hwal : (s.engine.load s.engine.live).toWalOps = s.engine.live.toWalOps := rfl
    rw [hwal] at hledger
    refine ⟨h.engine.of_core (by constructor <;> rfl),⟨?_,h.rest.durable⟩,?_,?_⟩
    · obtain ⟨hp,hb,hbr,hd⟩ := h.rest.idle
      exact ⟨hp,hb,hbr,hd⟩
    · simp only [log,hflat,hledger]
      rfl
    · refine ⟨s.engine.live.toWalOps.map (fun op => [op]),s.journal,[],by simp [log],rfl,by simp,?_⟩
      rw [hflat,hledger,← h.journal]
      rfl

theorem reopen_inv {s : Store} (h : Inv s) (lost : ℕ) : Inv (s.reopen lost) := by
  obtain ⟨snapshot,earlier,tail,hlog,hlen,hjournal,hsame⟩ := h.tail
  refine ⟨Engine.openLog_inv _ _ _ _,⟨GroupQueue.idle_new _,rfl⟩,Inner.replay_ledger _,?_⟩
  · have hkept : (s.reopen lost).log = s.log.take (s.log.length-lost) := rfl
    have hlength : s.log.length = s.compacted+tail.length := by rw [hlog,List.length_append,hlen]
    have hbegin : s.journal.length = earlier.length+tail.length := by rw [hjournal,List.length_append]
    by_cases hc : s.compacted ≤ s.log.length-lost
    · -- the records lost are the last ones of both
      obtain ⟨n,hn⟩ := Nat.exists_eq_add_of_le hc
      refine ⟨snapshot,earlier,tail.take n,?_,?_,?_,hsame⟩
      · rw [hkept,hn,hlog,← hlen,List.take_length_add_append]
      · simp only [reopen]
        omega
      · have hcut : s.journal.length-(s.log.length-(s.compacted+n)) = earlier.length+n := by omega
        simp only [reopen]
        rw [if_pos hc,hn,hcut,hjournal,List.take_length_add_append]
    · refine ⟨s.log.take (s.log.length-lost),s.log.take (s.log.length-lost),[],?_,?_,?_,rfl⟩
      · rw [hkept,List.append_nil]
      · simp only [reopen,List.length_take]
        omega
      · simp only [reopen,if_neg hc,List.append_nil]

theorem rollback_inv {s : Store} (h : Inv s) (gid : String) (heuristic : Bool) :
    Inv (s.call (s.engine.rollbackPreparedAs gid heuristic true).2) := by
  have hsec := Engine.rollbackPreparedAs_section h.engine.live gid heuristic true
  obtain ⟨records,hw,hcases⟩ := Engine.rollbackPreparedAs_wrote h.rest gid heuristic
  refine h.call (h.engine.of_section hsec) hw ?_
  rcases hcases with ⟨rfl,hsame⟩ | ⟨rfl,-,hmoved⟩
  · rw [hsame]
    rfl
  · rcases Engine.rollbackPreparedAs_schema s.engine gid heuristic true with hc | ⟨-,-,hschema⟩
    · exact absurd hc hmoved
    · have hprep := congrArg Schema.prepared hschema
      have hheur := congrArg Schema.heuristic hschema
      exact Ledger.ext hsec.live.graph hprep hheur

theorem step_inv {s : Store} (h : Inv s) (a : StoreAction) : Inv (s.step a) := by
  have hquiet : ∀ e : Engine, e.Inv → e.queue = s.engine.queue → e.durable = s.engine.durable →
      e.live = s.engine.live → Inv (s.call e) := by
    intro e hi hq hd hl
    exact h.call hi (.nothing h.rest hq hd) (by rw [hl]; rfl)
  have hslot : ∀ (id : ℕ) (slot : TxSlot), s.engine.txs[id]? = some slot →
      Engine.SlotInv { s.engine with txs := s.engine.txs.erase id } slot := by
    intro id slot hs
    have hi := (h.engine.slots id slot hs).1
    exact ⟨hi.wf,hi.baseWf,hi.replay,hi.epoch,hi.same,hi.seq⟩
  have hdrop : ∀ id : ℕ, Engine.AtRest { s.engine with txs := s.engine.txs.erase id } :=
    fun id => ⟨h.rest.idle,h.rest.durable⟩
  cases a with
  | txBegin isolation limited => exact hquiet _ (Engine.txBegin_inv h.engine isolation limited) rfl rfl rfl
  | txWrite id m =>
    have hinv := Engine.txWrite_inv h.engine id m
    have hsame : (s.engine.txWrite id m).2.queue = s.engine.queue ∧
        (s.engine.txWrite id m).2.durable = s.engine.durable ∧ (s.engine.txWrite id m).2.live = s.engine.live := by
      unfold Engine.txWrite
      split
      · exact ⟨rfl,rfl,rfl⟩
      · split <;> exact ⟨rfl,rfl,rfl⟩
    exact hquiet _ hinv hsame.1 hsame.2.1 hsame.2.2
  | txCommit id =>
    simp only [step]
    cases hs : s.engine.txs[id]? with
    | none =>
      rw [Engine.txCommit_none hs]
      exact hquiet _ h.engine rfl rfl rfl
    | some slot =>
      have hsec := Engine.txCommit_section h.engine hs true
      have hinv := (h.engine.drop id).of_section hsec
      have heq : s.engine.txCommit id true = { s.engine with txs := s.engine.txs.erase id }.commitParts slot true := by
        simp only [Engine.txCommit,hs]
      obtain ⟨records,hw,hflat⟩ := Engine.commitParts_wrote (hdrop id) slot
      have hschema := Engine.commitParts_schema (hslot id slot hs) true
      rw [← heq] at hw hflat hschema
      refine h.call hinv ⟨hw.log,hw.rest⟩ ?_
      rw [hflat,Ledger.applyAll_graph]
      have hg := hsec.live.graph
      simp only [Inner.ledger,hg,Inner.prepared_of_schema hschema,Inner.heuristic_of_schema hschema]
  | txRollback id => exact hquiet _ (h.engine.drop id) rfl rfl rfl
  | txPrepare id gid now =>
    simp only [step,Engine.txPrepare]
    cases hs : s.engine.txs[id]? with
    | none => exact hquiet _ h.engine rfl rfl rfl
    | some slot =>
      have hsec := Engine.prepareParts_section (e := { s.engine with txs := s.engine.txs.erase id }) h.engine.live
        slot gid now true
      obtain ⟨records,hw,hflat⟩ := Engine.prepareParts_wrote (hdrop id) slot gid now
      have hl := Engine.prepareParts_ledger { s.engine with txs := s.engine.txs.erase id } slot gid now true
      exact h.call ((h.engine.drop id).of_section hsec) ⟨hw.log,hw.rest⟩ (hflat ▸ hl)
  | commitPrepared gid =>
    simp only [step]
    cases hg : s.engine.live.prepared[gid]? with
    | none =>
      rw [Engine.commitPrepared_none hg]
      exact hquiet _ h.engine rfl rfl rfl
    | some entry =>
      have hsec := Engine.commitPrepared_section h.engine.live hg true
      obtain ⟨records,hw,hflat⟩ := Engine.commitPrepared_wrote h.rest gid
      refine h.call (h.engine.of_section hsec) hw ?_
      rw [hflat]
      rcases Engine.commitPrepared_result s.engine gid true with ⟨err,hr,hc⟩ | ⟨entry',-,hr,-⟩
      · simp only [hr,hc.live]
        rfl
      · have hschema := Engine.commitPrepared_schema hr
        have hprep : (s.engine.commitPrepared gid true).2.live.prepared = s.engine.live.prepared.erase gid :=
          congrArg Schema.prepared hschema
        have hheur : (s.engine.commitPrepared gid true).2.live.heuristic = s.engine.live.heuristic :=
          congrArg Schema.heuristic hschema
        have hgraph := hsec.live.graph
        rw [hr] at hgraph
        simp only [hr,Inner.ledger,hgraph,hprep,hheur,okOps]
        simp only [Ledger.applyAll,List.foldl_cons,List.foldl_nil,Ledger.apply,hg]
  | rollbackPrepared gid => exact rollback_inv h gid false
  | heuristicRollbackPrepared gid => exact rollback_inv h gid true
  | compactWal => exact compactWal_inv h
  | reopen lost => exact reopen_inv h lost

/-- A new store with an empty log. -/
def new (capacity : ℕ) (readOnly : Bool) (maxTxWrites : Option ℕ) : Store :=
  { engine := .new capacity readOnly maxTxWrites true }

theorem new_inv (capacity : ℕ) (readOnly : Bool) (maxTxWrites : Option ℕ) :
    Inv (new capacity readOnly maxTxWrites) where
  engine := Engine.new_inv capacity readOnly maxTxWrites true
  rest := ⟨GroupQueue.idle_new _,rfl⟩
  live := rfl
  tail := ⟨[],[],[],rfl,rfl,rfl,rfl⟩

theorem run_inv {s : Store} (h : Inv s) (as : List StoreAction) : Inv (s.run as) := by
  induction as generalizing s with
  | nil => exact h
  | cons a as ih => exact ih (step_inv h a)

end Store
end Drevo
