import Drevo.Core.Effect

/-! A database as a network session uses it: the engine, the list of explicit transactions
that an administrator can terminate, and the calls that open and end them. What a statement
or a trigger does inside a transaction is the list of writes it makes, an argument. -/
namespace Drevo
open Lib

/-- The open transaction an action is about. -/
def Action.tx : Action → Option ℕ
  | .txWrite id _ => some id
  | .txCommit id _ => some id
  | .txRollback id => some id
  | .txPrepare id _ _ _ => some id
  | _ => none

namespace Bolt

/-- A failed statement: the two failures the session looks at, the two of a deadline, and the
others by the code and the message the client is sent. -/
inductive ExecError where
  | transactionTooLarge (limit : ℕ)
  | timeout (limitMs : ℕ)
  | clientTimeout (limitMs : ℕ)
  | terminated
  | other (code message : String)
  deriving DecidableEq

/-- Why the service did not commit. -/
inductive CommitFailure where
  | engine (e : CommitError)
  | terminated
  | rejected (reason : String)
  deriving DecidableEq

inductive PrepareFailure where
  | engine (e : PrepareError)
  | rejected (reason : String)
  deriving DecidableEq

/-- A database. `explicitTxs` lists the explicit transactions, each with whether it was
terminated. -/
structure Service where
  engine : Engine := {}
  isolation : Isolation := .snapshot
  explicitTxs : Map ℕ Bool := ∅
  statementTimeout : Option ℕ := none

namespace Service

/-- The transaction is open. -/
def registered (s : Service) (id : ℕ) : Bool := s.engine.txs.contains id

def beginTxWith (s : Service) (isolation : Option Isolation) : ℕ × Service :=
  let r := s.engine.txBegin (isolation.getD s.isolation) true
  (r.1,{ s with engine := r.2, explicitTxs := s.explicitTxs.insert r.1 false })

def txTerminated (s : Service) (id : ℕ) : Bool := s.explicitTxs[id]?.getD false

def terminate (s : Service) (id : ℕ) : Service :=
  if s.explicitTxs.contains id then { s with explicitTxs := s.explicitTxs.insert id true } else s

def rollbackTx (s : Service) (id : ℕ) : Bool × Service :=
  let r := s.engine.txRollback id
  (r.1,{ s with engine := r.2, explicitTxs := s.explicitTxs.erase id })

variable [JsonText]

/-- The writes a statement or a trigger makes inside a transaction. -/
def runWrites (s : Service) (id : ℕ) (writes : List Mutation) : Service :=
  { s with engine := writes.foldl (fun e m => (e.txWrite id m).2) s.engine }

/-- What a statement outside any explicit transaction does to the engine. -/
def runActions (s : Service) (actions : List Action) : Service :=
  { s with engine := s.engine.run actions }

/-- Commit a transaction. The triggers that run before the commit write into it and may
refuse it. -/
def commitTx (s : Service) (id : ℕ) (before : List Mutation × Option String) (io : Bool) :
    Except CommitFailure Unit × Service :=
  if s.txTerminated id then (.error .terminated,(s.rollbackTx id).2)
  else
    let s := s.runWrites id before.1
    match before.2 with
    | some reason => (.error (.rejected reason),(s.rollbackTx id).2)
    | none =>
      let r := s.engine.txCommit id io
      (r.1.mapError .engine,{ s with engine := r.2, explicitTxs := s.explicitTxs.erase id })

def prepareTx (s : Service) (id : ℕ) (gid : String) (before : List Mutation × Option String) (now : ℤ)
    (io : Bool) : Except PrepareFailure Unit × Service :=
  let s := s.runWrites id before.1
  match before.2 with
  | some reason => (.error (.rejected reason),(s.rollbackTx id).2)
  | none =>
    let r := s.engine.txPrepare id gid now io
    (r.1.mapError .engine,{ s with engine := r.2, explicitTxs := s.explicitTxs.erase id })

/-- Run a statement in an open transaction. One that takes the transaction over its write
limit rolls it back. -/
def executeInTx {α : Type} (s : Service) (id : ℕ) (writes : List Mutation) (result : Except ExecError α) :
    Except ExecError α × Service :=
  if !s.registered id then
    (.error (.other "Neo.DatabaseError.Statement.ExecutionFailed"
      "storage error: io error: the transaction has already been closed"),s)
  else if s.txTerminated id then (.error .terminated,s)
  else
    let s := s.runWrites id writes
    match result with
    | .error (.transactionTooLarge limit) => (.error (.transactionTooLarge limit),(s.rollbackTx id).2)
    | result => (result,s)

end Service
end Bolt

namespace Engine

/-! ## Open transactions -/

theorem txBegin_contains (e : Engine) (isolation : Isolation) (limited : Bool) (id : ℕ) :
    (e.txBegin isolation limited).2.txs.contains id = (decide (e.nextRegTx+1 = id) || e.txs.contains id) := by
  simp only [txBegin,Map.contains_eq,Map.get_insert]
  by_cases h : e.nextRegTx+1 = id
  · simp [h]
  · simp [h]

theorem erase_contains (e : Engine) (i id : ℕ) :
    (e.txs.erase i).contains id = (decide (i ≠ id) && e.txs.contains id) := by
  simp only [Map.contains_eq,Map.get_erase]
  by_cases h : i = id
  · simp [h]
  · simp [h]

/-- The two engines hold the same open transactions. -/
structure SameTxs (e e' : Engine) : Prop where
  txs : e'.txs = e.txs
  next : e'.nextRegTx = e.nextRegTx

theorem SameTxs.of_core {e e' : Engine} (h : SameCore e e') : SameTxs e e' := ⟨h.txs,h.nextRegTx⟩

theorem SameTxs.trans {a b c : Engine} (h : SameTxs a b) (h' : SameTxs b c) : SameTxs a c :=
  ⟨h'.txs.trans h.txs,h'.next.trans h.next⟩

theorem SameTxs.leaveLock {e e' : Engine} (h : SameTxs e e') (call : ℕ) (ops : List GraphOp) :
    SameTxs e (e'.leaveLock call ops) := h.trans (.of_core (leaveLock_core e' call ops))

theorem SameTxs.written {e e' : Engine} (h : SameTxs e e') (touched : ConflictSet) (call : ℕ) (ops : List GraphOp) :
    SameTxs e ((e'.noteCommit touched).leaveLock call ops) :=
  (h.trans (c := e'.noteCommit touched) ⟨rfl,rfl⟩).leaveLock call ops

theorem withLive_txs {α : Type} (e : Engine) (f : Inner → α × Inner) : SameTxs e (e.withLive f).2 := ⟨rfl,rfl⟩

theorem withLive_eq_txs {α : Type} {e e' : Engine} {f : Inner → α × Inner} {a : α} (h : e.withLive f = (a,e')) :
    SameTxs e e' := by
  have := withLive_txs e f
  rwa [h] at this

variable [JsonText]

theorem direct_txs (e : Engine) (call : ℕ) (w : DirectWrite) : SameTxs e (e.direct call w).2 := by
  unfold direct
  split_ifs
  · exact ⟨rfl,rfl⟩
  split
  · exact ⟨rfl,rfl⟩
  split
  · rename_i h
    exact (withLive_eq_txs h).trans ⟨rfl,rfl⟩
  · rename_i ops e' h
    exact (withLive_eq_txs h).written _ call ops

theorem batch_txs (e : Engine) (w : BatchWrite) (io : Bool) : SameTxs e (e.batch w io).2 := by
  unfold batch
  split_ifs
  · exact ⟨rfl,rfl⟩
  split
  · exact ⟨rfl,rfl⟩
  simp only
  split
  · exact ⟨rfl,rfl⟩
  split_ifs
  · exact ⟨rfl,rfl⟩
  rename_i ops _ _
  have hc := record_core { e with ids := (w.run (e.load e.live)).2.ids } (ops.map .graph) io
  split
  · rename_i e' hrec
    rw [hrec] at hc
    exact ⟨hc.txs,hc.nextRegTx⟩
  · rename_i e' hrec
    rw [hrec] at hc
    exact ⟨hc.txs,hc.nextRegTx⟩

theorem commitParts_txs (e : Engine) (slot : TxSlot) (io : Bool) : SameTxs e (e.commitParts slot io).2 := by
  have h := commitParts_result e slot io
  generalize e.commitParts slot io = r at h ⊢
  obtain ⟨r,e'⟩ := r
  cases h with
  | refused err e' ids hids hc hconflict => exact ⟨hc.txs,hc.nextRegTx⟩
  | empty ho => exact ⟨rfl,rfl⟩
  | swapped e' hf he hv hp hc => exact ⟨hc.txs,hc.nextRegTx⟩
  | replayed e' hf he hcl hv hp hc => exact ⟨hc.txs,hc.nextRegTx⟩

theorem prepareParts_txs (e : Engine) (slot : TxSlot) (gid : String) (now : ℤ) (io : Bool) :
    SameTxs e (e.prepareParts slot gid now io).2 := by
  have h := prepareParts_result e slot gid now io
  generalize e.prepareParts slot gid now io = r at h ⊢
  obtain ⟨r,e'⟩ := r
  cases h with
  | refused err e' hc => exact .of_core hc
  | prepared e' hp he hv hc => exact ⟨hc.txs,hc.nextRegTx⟩

theorem commitPrepared_txs (e : Engine) (gid : String) (io : Bool) : SameTxs e (e.commitPrepared gid io).2 := by
  obtain ⟨err,-,hc⟩ | ⟨entry,-,-,hc⟩ := commitPrepared_result e gid io
  · exact .of_core hc
  · exact ⟨hc.txs,hc.nextRegTx⟩

theorem rollbackPreparedAs_txs (e : Engine) (gid : String) (heuristic io : Bool) :
    SameTxs e (e.rollbackPreparedAs gid heuristic io).2 := by
  obtain hc | ⟨entry,-,-,hc⟩ := rollbackPreparedAs_result e gid heuristic io
  · exact .of_core hc
  · exact ⟨hc.txs,hc.nextRegTx⟩

theorem addConstraint_txs (e : Engine) (c : Constraint) : SameTxs e (e.addConstraint c).2 := by
  obtain h | ⟨-,-,h⟩ := addConstraint_result e c
  · rw [h]
    exact ⟨rfl,rfl⟩
  · rw [h]
    exact ⟨rfl,rfl⟩

theorem removeConstraint_txs (e : Engine) (c : Constraint) : SameTxs e (e.removeConstraint c).2 := by
  obtain h | ⟨h,-⟩ := removeConstraint_result e c
  · rw [h]
    exact ⟨rfl,rfl⟩
  · rw [h]
    exact ⟨rfl,rfl⟩

theorem applyDump_txs (e : Engine) (call : ℕ) (dump : Dump) : SameTxs e (e.applyDump call dump).2 := by
  unfold applyDump
  split
  · exact ⟨rfl,rfl⟩
  split
  · rename_i h
    exact (withLive_eq_txs h).trans ⟨rfl,rfl⟩
  · rename_i applied report e' h
    apply SameTxs.leaveLock
    split_ifs
    · exact withLive_eq_txs h
    · exact (withLive_eq_txs h).trans ⟨rfl,rfl⟩

theorem applyNodeUpsert_txs (e : Engine) (call : ℕ) (node : Node) (incoming : Stamp)
    (current : StampTarget → Option Stamp) (remap : Remap) :
    SameTxs e (e.applyNodeUpsert call node incoming current remap).2.1 := by
  unfold applyNodeUpsert
  simp only
  split_ifs
  · exact ⟨rfl,rfl⟩
  split
  · exact ⟨rfl,rfl⟩
  · exact (withLive_txs e _).written _ call _

theorem applyEdgeUpsert_txs (e : Engine) (call : ℕ) (edge : Edge) (fromUuid toUuid : Uuid) (incoming : Stamp)
    (current : StampTarget → Option Stamp) (remap : Remap) :
    SameTxs e (e.applyEdgeUpsert call edge fromUuid toUuid incoming current remap).2.1 := by
  unfold applyEdgeUpsert
  split
  · simp only
    split_ifs
    · exact ⟨rfl,rfl⟩
    split
    · exact ⟨rfl,rfl⟩
    · exact (withLive_txs e _).written _ call _
  · exact ⟨rfl,rfl⟩

theorem applyDelete_txs (e : Engine) (call : ℕ) (uuid : Uuid) (incoming : Stamp) (isNode : Bool)
    (current : StampTarget → Option Stamp) (remap : Remap) :
    SameTxs e (e.applyDelete call uuid incoming isNode current remap).2.1 := by
  unfold applyDelete
  simp only
  by_cases hw : localWins current (remap.target uuid isNode) incoming = true
  · rw [if_pos hw]
    exact ⟨rfl,rfl⟩
  rw [if_neg hw]
  split
  · split
    · exact ⟨rfl,rfl⟩
    · exact (withLive_txs e _).written _ call _
  · exact ⟨rfl,rfl⟩
  · split
    · exact ⟨rfl,rfl⟩
    · exact ⟨rfl,rfl⟩

theorem applyChange_txs (e : Engine) (call : ℕ) (change : StampedChange) (current : StampTarget → Option Stamp)
    (remap : Remap) : SameTxs e (e.applyChange call change current remap).2.1 := by
  cases change with
  | node node stamp => exact applyNodeUpsert_txs e call node stamp current remap
  | edge edge fromUuid toUuid stamp => exact applyEdgeUpsert_txs e call edge fromUuid toUuid stamp current remap
  | deleteNode uuid stamp => exact applyDelete_txs e call uuid stamp true current remap
  | deleteEdge uuid stamp => exact applyDelete_txs e call uuid stamp false current remap

theorem deltaStep_txs (e : Engine) (id call : ℕ) (current : StampTarget → Option Stamp) :
    SameTxs e (e.deltaStep id call current) := by
  have h := deltaStep_core e id call current
  split at h
  · exact .of_core h
  · rename_i change remap _
    exact (applyChange_txs e call change current remap).trans (.of_core h)

/-- What an action does to the open transactions: an id that was given out is not given out
again, and only an action about a transaction ends it. -/
structure TxStep (e e' : Engine) (about : Option ℕ) : Prop where
  next : e.nextRegTx ≤ e'.nextRegTx
  old : ∀ id ≤ e.nextRegTx, e'.txs.contains id = true → e.txs.contains id = true
  kept : ∀ id ≤ e.nextRegTx, about ≠ some id → e'.txs.contains id = e.txs.contains id

omit [JsonText] in
theorem TxStep.of_same {e e' : Engine} {about : Option ℕ} (h : SameTxs e e') : TxStep e e' about where
  next := h.next.ge
  old id _ hid := by rwa [h.txs] at hid
  kept id _ _ := by rw [h.txs]

omit [JsonText] in
theorem TxStep.of_erase {e e' : Engine} {i : ℕ} (ht : e'.txs = e.txs.erase i) (hn : e'.nextRegTx = e.nextRegTx) :
    TxStep e e' (some i) where
  next := hn.ge
  old id _ hid := by
    rw [ht,erase_contains,Bool.and_eq_true] at hid
    exact hid.2
  kept id _ hne := by
    have hi : i ≠ id := fun h => hne (congrArg some h)
    rw [ht,erase_contains,decide_eq_true hi,Bool.true_and]

theorem txWrite_contains (e : Engine) (i : ℕ) (m : Mutation) (id : ℕ) :
    (e.txWrite i m).2.txs.contains id = e.txs.contains id ∧ (e.txWrite i m).2.nextRegTx = e.nextRegTx := by
  unfold txWrite
  cases hs : e.txs[i]? with
  | none => exact ⟨rfl,rfl⟩
  | some slot =>
    simp only
    split
    · exact ⟨rfl,rfl⟩
    refine ⟨?_,rfl⟩
    simp only [Map.contains_eq,Map.get_insert]
    split_ifs with h
    · rw [← h,hs]
      rfl
    · rfl

theorem txCommit_txs (e : Engine) (id : ℕ) (io : Bool) :
    (e.txCommit id io).2.txs = e.txs.erase id ∧ (e.txCommit id io).2.nextRegTx = e.nextRegTx := by
  unfold txCommit
  split
  · rename_i h
    refine ⟨Map.ext (fun k => ?_),rfl⟩
    rw [Map.get_erase]
    split_ifs with hk
    · rw [← hk,h]
    · rfl
  · rename_i slot _
    have h := commitParts_txs { e with txs := e.txs.erase id } slot io
    exact ⟨h.txs,h.next⟩

theorem txPrepare_txs (e : Engine) (id : ℕ) (gid : String) (now : ℤ) (io : Bool) :
    (e.txPrepare id gid now io).2.txs = e.txs.erase id ∧
      (e.txPrepare id gid now io).2.nextRegTx = e.nextRegTx := by
  unfold txPrepare
  split
  · rename_i h
    refine ⟨Map.ext (fun k => ?_),rfl⟩
    rw [Map.get_erase]
    split_ifs with hk
    · rw [← hk,h]
    · rfl
  · rename_i slot _
    have h := prepareParts_txs { e with txs := e.txs.erase id } slot gid now io
    exact ⟨h.txs,h.next⟩

theorem step_txs (e : Engine) (a : Action) : TxStep e (e.step a) a.tx := by
  cases a with
  | direct call w =>
    simp only [step]
    split_ifs
    · exact .of_same ⟨rfl,rfl⟩
    · exact .of_same (direct_txs e call w)
  | enqueue call encoded => exact .of_same (.of_core (enqueue_core e call encoded))
  | lead => exact .of_same ⟨rfl,rfl⟩
  | finish io => exact .of_same ⟨rfl,rfl⟩
  | await call => exact .of_same (.of_core (await_core e call))
  | batch w io => exact .of_same (batch_txs e w io)
  | txBegin isolation limited =>
    refine ⟨Nat.le_succ _,fun id hid h => ?_,fun id hid _ => ?_⟩
    · simp only [step,txBegin_contains,Bool.or_eq_true,decide_eq_true_eq] at h
      rcases h with h | h
      · omega
      · exact h
    · have hne : e.nextRegTx+1 ≠ id := by omega
      simp only [step,txBegin_contains,hne,decide_false,Bool.false_or]
  | txWrite i m =>
    refine ⟨(txWrite_contains e i m 0).2.ge,fun id _ h => ?_,fun id _ _ => (txWrite_contains e i m id).1⟩
    rwa [step,(txWrite_contains e i m id).1] at h
  | txCommit id io => exact .of_erase (txCommit_txs e id io).1 (txCommit_txs e id io).2
  | txRollback id => exact .of_erase rfl rfl
  | txPrepare id gid now io => exact .of_erase (txPrepare_txs e id gid now io).1 (txPrepare_txs e id gid now io).2
  | commitPrepared gid io => exact .of_same (commitPrepared_txs e gid io)
  | rollbackPrepared gid heuristic io => exact .of_same (rollbackPreparedAs_txs e gid heuristic io)
  | addConstraint c => exact .of_same (addConstraint_txs e c)
  | removeConstraint c => exact .of_same (removeConstraint_txs e c)
  | applyDump call dump =>
    simp only [step]
    split_ifs
    · exact .of_same ⟨rfl,rfl⟩
    · exact .of_same (applyDump_txs e call dump)
  | deltaBegin id changes tomb => exact .of_same ⟨rfl,rfl⟩
  | deltaStep id call current =>
    simp only [step]
    split_ifs
    · exact .of_same ⟨rfl,rfl⟩
    · exact .of_same (deltaStep_txs e id call current)

theorem run_txs (e : Engine) (as : List Action) :
    e.nextRegTx ≤ (e.run as).nextRegTx ∧
      ∀ id ≤ e.nextRegTx, (e.run as).txs.contains id = true → e.txs.contains id = true := by
  induction as generalizing e with
  | nil => exact ⟨le_rfl,fun id _ h => h⟩
  | cons a as ih =>
    have hstep := step_txs e a
    obtain ⟨hnext,hold⟩ := ih (e.step a)
    refine ⟨hstep.next.trans hnext,fun id hid h => ?_⟩
    exact hstep.old id hid (hold id (hid.trans hstep.next) h)

end Engine

namespace Bolt.Service
variable [JsonText]

/-- A call about transaction `id`: the other transactions and the counter stay. -/
structure About (s s' : Service) (id : ℕ) : Prop where
  next : s'.engine.nextRegTx = s.engine.nextRegTx
  other : ∀ i ≠ id, s'.registered i = s.registered i
  own : s'.registered id = true → s.registered id = true

/-- The call ended the transaction. -/
structure Closes (s s' : Service) (id : ℕ) : Prop extends About s s' id where
  closed : s'.registered id = false

omit [JsonText] in
theorem Closes.of_erase {s s' : Service} {id : ℕ} (ht : s'.engine.txs = s.engine.txs.erase id)
    (hn : s'.engine.nextRegTx = s.engine.nextRegTx) : Closes s s' id where
  next := hn
  other i hi := by
    rw [registered,ht,Engine.erase_contains,decide_eq_true hi.symm,Bool.true_and]
    rfl
  own h := by
    rw [registered,ht,Engine.erase_contains,Bool.and_eq_true] at h
    exact h.2
  closed := by simp [registered,ht]

omit [JsonText] in
theorem Closes.of_about {a b c : Service} {id : ℕ} (h : About a b id) (h' : Closes b c id) : Closes a c id where
  next := h'.next.trans h.next
  other i hi := (h'.other i hi).trans (h.other i hi)
  own hc := h.own (h'.own hc)
  closed := h'.closed

omit [JsonText] in
theorem rollbackTx_closes (s : Service) (id : ℕ) : Closes s (s.rollbackTx id).2 id := .of_erase rfl rfl

theorem runWrites_registered (s : Service) (id : ℕ) (writes : List Mutation) (i : ℕ) :
    (s.runWrites id writes).registered i = s.registered i ∧
      (s.runWrites id writes).engine.nextRegTx = s.engine.nextRegTx := by
  simp only [runWrites,registered]
  generalize s.engine = e
  induction writes generalizing e with
  | nil => exact ⟨rfl,rfl⟩
  | cons m writes ih =>
    obtain ⟨ht,hn⟩ := ih (e.txWrite id m).2
    obtain ⟨ht',hn'⟩ := Engine.txWrite_contains e id m i
    exact ⟨ht.trans ht',hn.trans hn'⟩

theorem runWrites_about (s : Service) (id : ℕ) (writes : List Mutation) : About s (s.runWrites id writes) id where
  next := (runWrites_registered s id writes 0).2
  other i _ := (runWrites_registered s id writes i).1
  own h := by rwa [(runWrites_registered s id writes id).1] at h

theorem commitTx_closes (s : Service) (id : ℕ) (before : List Mutation × Option String) (io : Bool) :
    Closes s (s.commitTx id before io).2 id ∧
      ((s.commitTx id before io).1 = .ok () → s.registered id = true) := by
  unfold commitTx
  split_ifs
  · exact ⟨rollbackTx_closes s id,by simp⟩
  have hw := runWrites_about s id before.1
  have hr := (runWrites_registered s id before.1 id).1
  simp only
  generalize s.runWrites id before.1 = t at hw hr ⊢
  cases before.2 with
  | some reason => exact ⟨.of_about hw (rollbackTx_closes t id),by simp⟩
  | none =>
    refine ⟨.of_about hw (.of_erase (Engine.txCommit_txs t.engine id io).1 (Engine.txCommit_txs t.engine id io).2),?_⟩
    intro hok
    rw [← hr,registered,Map.contains_eq]
    simp only [Engine.txCommit] at hok
    cases hs : t.engine.txs[id]? with
    | none => simp [hs,Except.mapError] at hok
    | some slot => rfl

theorem prepareTx_closes (s : Service) (id : ℕ) (gid : String) (before : List Mutation × Option String) (now : ℤ)
    (io : Bool) : Closes s (s.prepareTx id gid before now io).2 id ∧
      ((s.prepareTx id gid before now io).1 = .ok () → s.registered id = true) := by
  unfold prepareTx
  have hw := runWrites_about s id before.1
  have hr := (runWrites_registered s id before.1 id).1
  simp only
  generalize s.runWrites id before.1 = t at hw hr ⊢
  cases before.2 with
  | some reason => exact ⟨.of_about hw (rollbackTx_closes t id),by simp⟩
  | none =>
    refine ⟨.of_about hw (.of_erase (Engine.txPrepare_txs t.engine id gid now io).1
      (Engine.txPrepare_txs t.engine id gid now io).2),?_⟩
    intro hok
    rw [← hr,registered,Map.contains_eq]
    simp only [Engine.txPrepare] at hok
    cases hs : t.engine.txs[id]? with
    | none => simp [hs,Except.mapError] at hok
    | some slot => rfl

theorem executeInTx_about {α : Type} (s : Service) (id : ℕ) (writes : List Mutation) (result : Except ExecError α) :
    About s (s.executeInTx id writes result).2 id := by
  have hself : About s s id := ⟨rfl,fun _ _ => rfl,fun h => h⟩
  have hw := runWrites_about s id writes
  unfold executeInTx
  split_ifs
  · exact hself
  · exact hself
  simp only
  split
  · exact (Closes.of_about hw (rollbackTx_closes _ id)).toAbout
  · exact hw

end Bolt.Service
end Drevo
