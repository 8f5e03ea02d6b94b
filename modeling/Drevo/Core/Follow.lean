import Drevo.Core.TwoPhase

/-! Applying the log entries of another engine to a live one, and what any step of an engine,
its own or a leader's, means for the ledger: it moves as some log entries do. -/
namespace Drevo
open Lib

namespace ConflictSet

/-- Markers carry no change of their own. -/
def addWalOp (s : ConflictSet) : WalOp → ConflictSet
  | .graph op => s.addOp op
  | .prepare _ _ _ => s
  | .commitPrepared _ => s
  | .rollbackPrepared _ _ => s

def fromWalOps (ops : List WalOp) : ConflictSet := ops.foldl addWalOp {}

end ConflictSet

namespace Engine
variable [JsonText]

/-- Apply a batch of log entries verbatim. The two-phase-commit fence does not hold it off, and
its record is written once the lock is released. -/
def applyWalOps (e : Engine) (ops : List WalOp) (io : Bool) : Except CoreError Unit × Engine :=
  if ops.isEmpty then (.ok (),e)
  else if e.readOnly then (.error .readOnly,e)
  else
    let r := e.withLive (fun s => ((),s.applyWalOps ops))
    match (r.2.noteCommit (.fromWalOps ops)).record ops io with
    | (true,e) => (.ok (),e)
    | (false,e) => (.error .io,e)

theorem applyWalOps_result (e : Engine) (ops : List WalOp) (io : Bool) :
    (e.applyWalOps ops io).2 = e ∨
    SameCore ((e.moved ((e.load e.live).applyWalOps ops) ((e.load e.live).applyWalOps ops).ids).noteCommit
      (.fromWalOps ops)) (e.applyWalOps ops io).2 := by
  unfold applyWalOps
  split_ifs
  · exact Or.inl rfl
  · exact Or.inl rfl
  · right
    simp only [withLive]
    have hc := record_core ((e.moved ((e.load e.live).applyWalOps ops)
      ((e.load e.live).applyWalOps ops).ids).noteCommit (.fromWalOps ops)) ops io
    split
    · rename_i h
      exact (congrArg Prod.snd h) ▸ hc
    · rename_i h
      exact (congrArg Prod.snd h) ▸ hc

theorem applyWalOp_ids (s : Inner) (op : WalOp) : s.ids.Le (s.applyWalOp op).ids := by
  cases op with
  | graph op => exact Inner.applyOp_ids s op
  | prepare gid now ops => exact IdCounters.Le.refl _
  | commitPrepared gid =>
    simp only [Inner.applyWalOp]
    split
    · exact Inner.applyOps_ids { s with prepared := s.prepared.erase gid } _
    · exact IdCounters.Le.refl _
  | rollbackPrepared gid heuristic => cases heuristic <;> exact IdCounters.Le.refl _

theorem applyWalOps_ids (s : Inner) (ops : List WalOp) : s.ids.Le (s.applyWalOps ops).ids := by
  induction ops generalizing s with
  | nil => exact IdCounters.Le.refl _
  | cons op ops ih => exact (applyWalOp_ids s op).trans (ih _)

theorem applyWalOps_inv {e : Engine} (h : Inv e) (ops : List WalOp) (io : Bool) :
    Inv (e.applyWalOps ops io).2 := by
  rcases applyWalOps_result e ops io with he | hc
  · rwa [he]
  · refine Inv.of_core ?_ hc
    have hw := Inner.applyWalOps_wf h.live ops
    have hids := applyWalOps_ids (e.load e.live) ops
    have hseq := Inner.applyWalOps_commitSeq (e.load e.live) ops
    refine ⟨⟨hw.nodes.congr rfl rfl rfl rfl le_rfl,hw.edges.congr rfl rfl rfl rfl le_rfl⟩,?_,?_⟩
    · intro id slot hs
      obtain ⟨hi,hid⟩ := h.slots id slot hs
      refine ⟨⟨load_wf_mono hi.wf hids,load_wf_mono hi.baseWf hids,hi.replay,?_,?_,?_⟩,hid⟩
      · exact hi.epoch.trans (Nat.le_succ _)
      · intro he
        have hlt : slot.baseEpoch < e.epoch+1 := Nat.lt_succ_of_le hi.epoch
        exact absurd he hlt.ne
      · have hle : e.live.commitSeq ≤ ((e.load e.live).applyWalOps ops).commitSeq+1 := by
          rw [hseq]
          exact Nat.le_succ _
        exact hi.seq.trans hle
    · have hheld := CommitHistory.push_held h.history (.fromWalOps ops)
      simp only [noteCommit,moved,hseq]
      exact hheld

theorem applyWalOps_ledger {e : Engine} (h : Inv e) (ops : List WalOp) (io : Bool) :
    ∃ applied, (e.applyWalOps ops io).2.live.ledger = e.live.ledger.applyAll applied := by
  rcases applyWalOps_result e ops io with he | hc
  · exact ⟨[],by rw [he]; rfl⟩
  · refine ⟨ops,?_⟩
    rw [hc.live]
    exact Inner.applyWalOps_ledger h.live ops

/-! ## Every step of an engine -/

omit [JsonText] in
theorem LiveStep.ledger {e e' : Engine} {ops : List GraphOp} (h : LiveStep e e' ops)
    (hs : e'.live.schema = e.live.schema) :
    e'.live.ledger = e.live.ledger.applyAll (ops.map .graph) := by
  rw [Ledger.applyAll_graph]
  simp only [Inner.ledger,h.graph,Inner.prepared_of_schema hs,Inner.heuristic_of_schema hs]

/-- Whatever a step does, it does to the ledger what some log entries do. -/
theorem step_ledger {e : Engine} (h : Inv e) (a : Action) :
    ∃ ops, (e.step a).live.ledger = e.live.ledger.applyAll ops := by
  have hquiet : ∀ e', SameCore e e' → ∃ ops, e'.live.ledger = e.live.ledger.applyAll ops := by
    intro e' hc
    exact ⟨[],congrArg Inner.ledger hc.live⟩
  have hwrite : ∀ {e' : Engine} {ops : List GraphOp}, WriteSection e e' ops →
      ∃ ops, e'.live.ledger = e.live.ledger.applyAll ops :=
    fun hs => ⟨_,hs.live.ledger hs.schema⟩
  cases a with
  | direct call w =>
    simp only [step]
    split_ifs
    · exact hquiet e (SameCore.refl e)
    · exact hwrite (direct_section h.live call w)
  | enqueue call encoded => exact hquiet _ (enqueue_core e call encoded)
  | lead => exact hquiet _ (by constructor <;> rfl)
  | finish io => exact hquiet _ (by constructor <;> rfl)
  | await call => exact hquiet _ (await_core e call)
  | batch w io => exact hwrite (batch_section h.live w io)
  | txBegin isolation limited => exact ⟨[],rfl⟩
  | txWrite id m =>
    refine ⟨[],?_⟩
    simp only [step,txWrite]
    split
    · rfl
    · split <;> rfl
  | txCommit id io =>
    simp only [step]
    cases hs : e.txs[id]? with
    | none => exact ⟨[],by rw [txCommit_none hs]; rfl⟩
    | some slot =>
      have hsec := txCommit_section h hs io
      obtain ⟨hslot,-⟩ := h.slots id slot hs
      have hslot' : SlotInv { e with txs := e.txs.erase id } slot :=
        ⟨hslot.wf,hslot.baseWf,hslot.replay,hslot.epoch,hslot.same,hslot.seq⟩
      refine ⟨_,hsec.live.ledger ?_⟩
      simp only [txCommit,hs]
      exact commitParts_schema hslot' io
  | txRollback id => exact ⟨[],rfl⟩
  | txPrepare id gid now io =>
    simp only [step,txPrepare]
    split
    · exact ⟨[],rfl⟩
    · exact ⟨_,prepareParts_ledger _ _ gid now io⟩
  | commitPrepared gid io =>
    rcases commitPrepared_result e gid io with ⟨-,-,hc⟩ | ⟨entry,-,-,hc⟩
    · exact hquiet _ hc
    · refine ⟨[.commitPrepared gid],?_⟩
      simp only [step,hc.live]
      exact Inner.applyWalOp_ledger h.live (.commitPrepared gid)
  | rollbackPrepared gid heuristic io =>
    rcases rollbackPreparedAs_result e gid heuristic io with hc | ⟨entry,-,-,hc⟩
    · exact hquiet _ hc
    · refine ⟨[.rollbackPrepared gid heuristic],?_⟩
      simp only [step,hc.live]
      exact Inner.applyWalOp_ledger h.live (.rollbackPrepared gid heuristic)
  | addConstraint c =>
    refine ⟨[],?_⟩
    rcases addConstraint_result e c with he | ⟨-,-,he⟩
    · simp only [step,he]
      rfl
    · simp only [step,he]
      rfl
  | removeConstraint c =>
    refine ⟨[],?_⟩
    rcases removeConstraint_result e c with he | ⟨he,-⟩
    · simp only [step,he]
      rfl
    · simp only [step,he]
      rfl
  | applyDump call dump =>
    simp only [step]
    split_ifs
    · exact hquiet e (SameCore.refl e)
    · obtain ⟨ns,es,hs,-⟩ := applyDump_section h.live call dump
      exact hwrite hs
  | deltaBegin id changes tomb => exact ⟨[],rfl⟩
  | deltaStep id call current =>
    simp only [step]
    split_ifs
    · exact hquiet e (SameCore.refl e)
    · rcases deltaStep_section h.live id call current with ⟨-,ops,hs,-⟩ | ⟨edge,-,hs⟩
      · exact hwrite hs
      · exact hwrite hs

/-! ## Runs with batches from a leader -/

/-- A step of the engine itself, or a batch of log entries applied from outside. -/
inductive Move where
  | act (a : Action)
  | follow (ops : List WalOp) (io : Bool)

def move (e : Engine) : Move → Engine
  | .act a => e.step a
  | .follow ops io => (e.applyWalOps ops io).2

def drive (e : Engine) (ms : List Move) : Engine := ms.foldl move e

theorem move_inv {e : Engine} (h : Inv e) (m : Move) : Inv (e.move m) := by
  cases m with
  | act a => exact step_inv h a
  | follow ops io => exact applyWalOps_inv h ops io

theorem move_exclusive {e : Engine} (h : Inv e) (hx : e.live.ledger.Exclusive) (m : Move) :
    (e.move m).live.ledger.Exclusive := by
  have hledger : ∃ ops, (e.move m).live.ledger = e.live.ledger.applyAll ops := by
    cases m with
    | act a => exact step_ledger h a
    | follow ops io => exact applyWalOps_ledger h ops io
  obtain ⟨ops,hops⟩ := hledger
  rw [hops]
  exact Ledger.applyAll_exclusive ops hx

theorem drive_exclusive {e : Engine} (h : Inv e) (hx : e.live.ledger.Exclusive) (ms : List Move) :
    Inv (e.drive ms) ∧ (e.drive ms).live.ledger.Exclusive := by
  induction ms generalizing e with
  | nil => exact ⟨h,hx⟩
  | cons m ms ih => exact ih (move_inv h m) (move_exclusive h hx m)

end Engine
end Drevo
