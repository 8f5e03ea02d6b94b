import Drevo.Core.Frame
import Drevo.Core.Merge

/-! The engine as a transition system: one action is one section under the writer lock, or
one step of a caller on the commit queue. A direct write is an action of its own for each of
its sections, so that a run is any interleaving of them. -/
namespace Drevo
open Lib

inductive Action where
  | direct (call : ℕ) (w : DirectWrite)
  | enqueue (call : ℕ) (encoded : Bool)
  | lead
  | finish (io : Bool)
  | await (call : ℕ)
  | batch (w : BatchWrite) (io : Bool)
  | txBegin (isolation : Isolation) (limited : Bool)
  | txWrite (id : ℕ) (m : Mutation)
  | txCommit (id : ℕ) (io : Bool)
  | txRollback (id : ℕ)
  | txPrepare (id : ℕ) (gid : String) (now : ℤ) (io : Bool)
  | commitPrepared (gid : String) (io : Bool)
  | rollbackPrepared (gid : String) (heuristic io : Bool)
  | addConstraint (c : Constraint)
  | removeConstraint (c : Constraint)
  | applyDump (call : ℕ) (dump : Dump)
  | deltaBegin (id : ℕ) (changes : List StampedChange) (tomb : Map Uuid StampTarget)
  | deltaStep (id call : ℕ) (current : StampTarget → Option Stamp)

/-- The action brings in records from outside. -/
def Action.isMerge : Action → Bool
  | .applyDump _ _ => true
  | .deltaBegin _ _ _ => true
  | .deltaStep _ _ _ => true
  | _ => false

namespace Engine
variable [JsonText]

/-- One action. A call has one name: a name in use is not taken again. -/
def step (e : Engine) : Action → Engine
  | .direct call w => if e.calls.contains call then e else (e.direct call w).2
  | .enqueue call encoded => e.enqueue call encoded
  | .lead => { e with queue := e.queue.lead }
  | .finish io => { e with queue := e.queue.finish io }
  | .await call => e.await call
  | .batch w io => (e.batch w io).2
  | .txBegin isolation limited => (e.txBegin isolation limited).2
  | .txWrite id m => (e.txWrite id m).2
  | .txCommit id io => (e.txCommit id io).2
  | .txRollback id => (e.txRollback id).2
  | .txPrepare id gid now io => (e.txPrepare id gid now io).2
  | .commitPrepared gid io => (e.commitPrepared gid io).2
  | .rollbackPrepared gid heuristic io => (e.rollbackPreparedAs gid heuristic io).2
  | .addConstraint c => (e.addConstraint c).2
  | .removeConstraint c => (e.removeConstraint c).2
  | .applyDump call dump => if e.calls.contains call then e else (e.applyDump call dump).2
  | .deltaBegin id changes tomb => e.deltaBegin id changes tomb
  | .deltaStep id call current => if e.calls.contains call then e else e.deltaStep id call current

def run (e : Engine) (as : List Action) : Engine := as.foldl step e

@[simp] theorem run_nil (e : Engine) : e.run [] = e := rfl

@[simp] theorem run_cons (e : Engine) (a : Action) (as : List Action) : e.run (a :: as) = (e.step a).run as := rfl

theorem run_append (e : Engine) (as bs : List Action) : e.run (as ++ bs) = (e.run as).run bs :=
  List.foldl_append

/-- The actions of a run, each with the state it found. -/
def trace (e : Engine) : List Action → List (Engine × Action)
  | [] => []
  | a :: as => (e,a) :: (e.step a).trace as

theorem mem_trace {e : Engine} {as : List Action} {t : Engine × Action} :
    t ∈ e.trace as ↔ ∃ bs, bs ++ [t.2] <+: as ∧ t.1 = e.run bs := by
  induction as generalizing e with
  | nil => simp [trace]
  | cons a as ih =>
    simp only [trace,List.mem_cons,ih]
    constructor
    · rintro (rfl | ⟨bs,hp,ht⟩)
      · exact ⟨[],by simp,rfl⟩
      · exact ⟨a :: bs,by simpa using hp,ht⟩
    · rintro ⟨bs,hp,ht⟩
      cases bs with
      | nil =>
        refine Or.inl (Prod.ext ht ?_)
        simpa using hp
      | cons b bs =>
        simp only [List.cons_append,List.cons_prefix_cons] at hp
        obtain ⟨rfl,hp⟩ := hp
        exact Or.inr ⟨bs,hp,ht⟩

theorem run_invariant {p : Engine → Prop} {q : Engine → Action → Prop}
    (hstep : ∀ e a, p e → q e a → p (e.step a)) {e : Engine} (h : p e) (as : List Action)
    (hq : ∀ t ∈ e.trace as, q t.1 t.2) : p (e.run as) := by
  induction as generalizing e with
  | nil => exact h
  | cons a as ih =>
    have ha := hq (e,a) (by simp [trace])
    exact ih (hstep e a h ha) (fun t ht => hq t (by simp [trace,ht]))

/-! ## What writing to the log leaves alone -/

omit [JsonText]

/-- The engines differ in the commit queue, the calls and the merges under way only. -/
structure SameCore (e e' : Engine) : Prop where
  live : e'.live = e.live
  epoch : e'.epoch = e.epoch
  ids : e'.ids = e.ids
  txs : e'.txs = e.txs
  nextRegTx : e'.nextRegTx = e.nextRegTx
  history : e'.history = e.history
  readOnly : e'.readOnly = e.readOnly

theorem SameCore.refl (e : Engine) : SameCore e e := by constructor <;> rfl

theorem SameCore.trans {a b c : Engine} (h : SameCore a b) (h' : SameCore b c) : SameCore a c :=
  ⟨h'.live.trans h.live,h'.epoch.trans h.epoch,h'.ids.trans h.ids,h'.txs.trans h.txs,
    h'.nextRegTx.trans h.nextRegTx,h'.history.trans h.history,h'.readOnly.trans h.readOnly⟩

theorem SameCore.install {a b : Engine} (h : SameCore a b) (s : Inner) : SameCore (a.install s) (b.install s) :=
  ⟨rfl,congrArg (· + 1) h.epoch,h.ids,h.txs,h.nextRegTx,h.history,h.readOnly⟩

theorem SameCore.noteCommit {a b : Engine} (h : SameCore a b) (set : ConflictSet) :
    SameCore (a.noteCommit set) (b.noteCommit set) := by
  refine ⟨?_,h.epoch,h.ids,h.txs,h.nextRegTx,?_,h.readOnly⟩
  · simp only [Engine.noteCommit,h.live]
  · simp only [Engine.noteCommit,h.live,h.history]

theorem SameCore.withLive {α : Type} {a b : Engine} (h : SameCore a b) (f : Inner → α × Inner) :
    (b.withLive f).1 = (a.withLive f).1 ∧ SameCore (a.withLive f).2 (b.withLive f).2 := by
  have hl : b.load b.live = a.load a.live := by simp only [Engine.load,h.live,h.ids]
  simp only [Engine.withLive,hl]
  exact ⟨trivial,rfl,congrArg (· + 1) h.epoch,rfl,h.txs,h.nextRegTx,h.history,h.readOnly⟩

theorem record_core (e : Engine) (ops : List WalOp) (io : Bool) : SameCore e (e.record ops io).2 := by
  unfold record
  split_ifs <;> constructor <;> rfl

theorem leaveLock_core (e : Engine) (call : ℕ) (ops : List GraphOp) : SameCore e (e.leaveLock call ops) := by
  unfold leaveLock
  split_ifs <;> constructor <;> rfl

theorem enqueue_core (e : Engine) (call : ℕ) (encoded : Bool) : SameCore e (e.enqueue call encoded) := by
  unfold enqueue
  split
  · exact SameCore.refl e
  · simp only
    split <;> constructor <;> rfl

theorem await_core (e : Engine) (call : ℕ) : SameCore e (e.await call) := by
  unfold await
  split
  · split_ifs <;> constructor <;> rfl
  · exact SameCore.refl e

end Engine
end Drevo
