import Drevo.Core.Flow

/-! The calls that write several records as one: batches, commits and the steps of two-phase
commit. Each builds what it writes on the side and logs it before it goes live, so that a call
that fails, wherever it fails, leaves the graph and the feed as they were. -/
namespace Drevo
open Lib

/-- A call that takes effect as a whole or not at all. `commit` is that of a transaction its
caller holds, the others name a registered one or a prepared one. -/
inductive AtomicCall where
  | batch (w : BatchWrite)
  | commit (slot : TxSlot)
  | txCommit (id : ℕ)
  | txPrepare (id : ℕ) (gid : String) (now : ℤ)
  | commitPrepared (gid : String)
  | rollbackPrepared (gid : String) (heuristic : Bool)

/-- What happens to the record of a call, if it comes to write one: it cannot be encoded, or the
group it is in is flushed or fails to be. -/
inductive LogOutcome where
  | unencodable
  | group (io : Bool)

namespace Engine
variable [JsonText]

/-- Whether the call returned without an error, and the engine it left. -/
def atomic (e : Engine) (io : Bool) : AtomicCall → Bool × Engine
  | .batch w => (e.batch w io).map Except.toBool id
  | .commit slot => (e.commitParts slot io).map Except.toBool id
  | .txCommit id => (e.txCommit id io).map Except.toBool (fun e => e)
  | .txPrepare id gid now => (e.txPrepare id gid now io).map Except.toBool (fun e => e)
  | .commitPrepared gid => (e.commitPrepared gid io).map Except.toBool id
  | .rollbackPrepared gid heuristic => (e.rollbackPreparedAs gid heuristic io).map Except.toBool id

/-- What the call publishes where there is no log. -/
def atomicOps (e : Engine) : AtomicCall → List GraphOp
  | .batch w => ((e.batch w true).1.toOption).getD []
  | .commit slot => okOps (e.commitParts slot true).1 slot.ops
  | .txCommit id => e.committed (.txCommit id true)
  | .txPrepare _ _ _ => []
  | .commitPrepared gid => e.committed (.commitPrepared gid true)
  | .rollbackPrepared _ _ => []

omit [JsonText] in
/-- A record that cannot be encoded is refused before it is queued, as by a broken log. -/
def refusing (e : Engine) : Engine := { e with queue := { e.queue with broken := true } }

/-- The engines have the same live state and the same log. -/
structure Kept (e e' : Engine) : Prop where
  live : e'.live = e.live
  log : e'.queue.log = e.queue.log

omit [JsonText] in
theorem record_false {e : Engine} {ops : List WalOp} {io : Bool} (h : (e.record ops io).1 = false) :
    Kept e (e.record ops io).2 := by
  unfold record at h ⊢
  split_ifs at h ⊢
  exact ⟨rfl,(GroupQueue.commit_false h).2⟩

omit [JsonText] in
theorem record_false_of {e e₀ e₁ : Engine} {ops : List WalOp} {io : Bool} (h : e₀.record ops io = (false,e₁))
    (hl : e₀.live = e.live) (hq : e₀.queue = e.queue) : Kept e e₁ := by
  have hk := record_false (congrArg Prod.fst h)
  rw [h] at hk
  exact ⟨hk.live.trans hl,hk.log.trans (congrArg GroupQueue.log hq)⟩

theorem batch_false {e : Engine} {w : BatchWrite} {io : Bool} (h : (e.batch w io).1.toBool = false) :
    Kept e (e.batch w io).2 := by
  generalize hr : e.batch w io = r at h ⊢
  simp only [batch] at hr
  split at hr
  · exact hr ▸ ⟨rfl,rfl⟩
  split at hr
  · exact hr ▸ ⟨rfl,rfl⟩
  split at hr
  · exact hr ▸ ⟨rfl,rfl⟩
  split at hr
  · exact hr ▸ ⟨rfl,rfl⟩
  split at hr
  · rename_i hrec
    exact hr ▸ record_false_of hrec rfl rfl
  · subst hr
    cases h

theorem commitParts_false {e : Engine} {slot : TxSlot} {io : Bool} (h : (e.commitParts slot io).1.toBool = false) :
    Kept e (e.commitParts slot io).2 := by
  generalize hr : e.commitParts slot io = r at h ⊢
  simp only [commitParts] at hr
  split at hr
  · exact hr ▸ ⟨rfl,rfl⟩
  split at hr
  · exact hr ▸ ⟨rfl,rfl⟩
  split at hr
  · exact hr ▸ ⟨rfl,rfl⟩
  split at hr
  -- nothing was committed since the transaction began
  · split at hr
    · exact hr ▸ ⟨rfl,rfl⟩
    split at hr
    · exact hr ▸ ⟨rfl,rfl⟩
    split at hr
    · rename_i hrec
      exact hr ▸ record_false_of hrec rfl rfl
    · subst hr
      cases h
  split at hr
  · exact hr ▸ ⟨rfl,rfl⟩
  split at hr
  · exact hr ▸ ⟨rfl,rfl⟩
  split at hr
  · exact hr ▸ ⟨rfl,rfl⟩
  split at hr
  · exact hr ▸ ⟨rfl,rfl⟩
  split at hr
  · rename_i hrec
    exact hr ▸ record_false_of hrec rfl rfl
  · subst hr
    cases h

omit [JsonText] in
theorem Kept.of_txs {e e' : Engine} {txs : Map ℕ TxSlot} (h : Kept { e with txs := txs } e') : Kept e e' := ⟨h.live,h.log⟩

theorem txCommit_false {e : Engine} {id : ℕ} {io : Bool} (h : (e.txCommit id io).1.toBool = false) :
    Kept e (e.txCommit id io).2 := by
  simp only [txCommit] at h ⊢
  cases hslot : e.txs[id]? with
  | none => exact ⟨rfl,rfl⟩
  | some slot =>
    rw [hslot] at h
    exact (commitParts_false h).of_txs

theorem prepareParts_false {e : Engine} {slot : TxSlot} {gid : String} {now : ℤ} {io : Bool}
    (h : (e.prepareParts slot gid now io).1.toBool = false) : Kept e (e.prepareParts slot gid now io).2 := by
  generalize hr : e.prepareParts slot gid now io = r at h ⊢
  simp only [prepareParts] at hr
  split at hr
  · exact hr ▸ ⟨rfl,rfl⟩
  split at hr
  · exact hr ▸ ⟨rfl,rfl⟩
  split at hr
  · exact hr ▸ ⟨rfl,rfl⟩
  split at hr
  · exact hr ▸ ⟨rfl,rfl⟩
  split at hr
  · exact hr ▸ ⟨rfl,rfl⟩
  split at hr
  · rename_i hrec
    exact hr ▸ record_false_of hrec rfl rfl
  · subst hr
    cases h

theorem txPrepare_false {e : Engine} {id : ℕ} {gid : String} {now : ℤ} {io : Bool}
    (h : (e.txPrepare id gid now io).1.toBool = false) : Kept e (e.txPrepare id gid now io).2 := by
  simp only [txPrepare] at h ⊢
  cases hslot : e.txs[id]? with
  | none => exact ⟨rfl,rfl⟩
  | some slot =>
    rw [hslot] at h
    exact (prepareParts_false h).of_txs

theorem commitPrepared_false {e : Engine} {gid : String} {io : Bool} (h : (e.commitPrepared gid io).1.toBool = false) :
    Kept e (e.commitPrepared gid io).2 := by
  generalize hr : e.commitPrepared gid io = r at h ⊢
  simp only [commitPrepared] at hr
  split at hr
  · exact hr ▸ ⟨rfl,rfl⟩
  split at hr
  · exact hr ▸ ⟨rfl,rfl⟩
  split at hr
  · rename_i hrec
    exact hr ▸ record_false_of hrec rfl rfl
  · subst hr
    cases h

theorem rollbackPreparedAs_false {e : Engine} {gid : String} {heuristic io : Bool}
    (h : (e.rollbackPreparedAs gid heuristic io).1.toBool = false) : Kept e (e.rollbackPreparedAs gid heuristic io).2 := by
  generalize hr : e.rollbackPreparedAs gid heuristic io = r at h ⊢
  simp only [rollbackPreparedAs] at hr
  split at hr
  · exact hr ▸ ⟨rfl,rfl⟩
  split at hr
  · split at hr
    · subst hr
      cases h
    · exact hr ▸ ⟨rfl,rfl⟩
  split at hr
  · rename_i hrec
    exact hr ▸ record_false_of hrec rfl rfl
  · subst hr
    cases h

theorem atomic_false {e : Engine} {io : Bool} {c : AtomicCall} (h : (e.atomic io c).1 = false) :
    Kept e (e.atomic io c).2 := by
  cases c with
  | batch w => exact batch_false h
  | commit slot => exact commitParts_false h
  | txCommit id => exact txCommit_false h
  | txPrepare id gid now => exact txPrepare_false h
  | commitPrepared gid => exact commitPrepared_false h
  | rollbackPrepared gid heuristic => exact rollbackPreparedAs_false h

end Engine

namespace Source
variable [JsonText]

/-- The call with its record: what the flush wrote is published, or without a log what the call
wrote. -/
def atomic (s : Source) (o : LogOutcome) (c : AtomicCall) : Bool × Source :=
  if s.engine.durable then
    match o with
    | .unencodable =>
      let r := s.engine.refusing.atomic false c
      (r.1,{ s with engine := { r.2 with queue := s.engine.queue } })
    | .group io =>
      let r := s.engine.atomic io c
      let flushed := r.2.queue.log.drop s.engine.queue.log.length
      (r.1,{ s with
        engine := r.2
        feed := s.feed.publish ((flushed.flatten.flatMap s.engine.feedOps).map .graph) })
  else
    let r := s.engine.atomic true c
    (r.1,{ s with engine := r.2, feed := s.feed.publish ((s.engine.atomicOps c).map .graph) })

/-- What a failed call has to leave as it was. -/
structure Untouched (s s' : Source) : Prop where
  nodes : s'.engine.live.nodes = s.engine.live.nodes
  edges : s'.engine.live.edges = s.engine.live.edges
  embeddings : s'.engine.live.embeddings = s.engine.live.embeddings
  constraints : s'.engine.live.constraints = s.engine.live.constraints
  prepared : s'.engine.live.prepared = s.engine.live.prepared
  heuristic : s'.engine.live.heuristic = s.engine.live.heuristic
  feed : s'.feed = s.feed

omit [JsonText] in
theorem untouched_of_live {s s' : Source} (hl : s'.engine.live = s.engine.live) (hf : s'.feed = s.feed) :
    Untouched s s' := by
  constructor <;> first | exact hf | rw [hl]

omit [JsonText] in
theorem okOps_false {ε : Type} {r : Except ε Unit} (h : r.toBool = false) (ops : List GraphOp) : okOps r ops = [] := by
  cases r with
  | error err => rfl
  | ok u => cases h

theorem atomicOps_false {e : Engine} {c : AtomicCall} (h : (e.atomic true c).1 = false) : e.atomicOps c = [] := by
  cases c with
  | batch w =>
    simp only [Engine.atomicOps]
    cases hr : (e.batch w true).1 with
    | error err => rfl
    | ok ops => simp [Engine.atomic,hr,Except.toBool] at h
  | commit slot => exact okOps_false h slot.ops
  | txCommit id =>
    simp only [Engine.atomicOps,Engine.committed]
    split
    · rfl
    · exact okOps_false h _
  | txPrepare id gid now => rfl
  | commitPrepared gid =>
    simp only [Engine.atomicOps,Engine.committed]
    split
    · rfl
    · exact okOps_false h _
  | rollbackPrepared gid heuristic => rfl

/-- A call that fails leaves the graph, the constraints, the prepared transactions and the feed
as they were, whatever made it fail. -/
theorem atomic_err_untouched (s : Source) (o : LogOutcome) (c : AtomicCall) (h : (s.atomic o c).1 = false) :
    Untouched s (s.atomic o c).2 := by
  by_cases hd : s.engine.durable = true
  · simp only [atomic,hd,if_true] at h ⊢
    cases o with
    | unencodable =>
      have hk := Engine.atomic_false h
      exact untouched_of_live hk.live rfl
    | group io =>
      have hk := Engine.atomic_false h
      refine untouched_of_live hk.live ?_
      simp only [hk.log,List.drop_length,List.flatten_nil,List.flatMap_nil,List.map_nil,Feed.publish_nil]
  · simp only [atomic,if_neg hd] at h ⊢
    have hk := Engine.atomic_false h
    refine untouched_of_live hk.live ?_
    simp only [atomicOps_false h,List.map_nil,Feed.publish_nil]

end Source

section Sample
attribute [local instance] Json.compactText

/-- Nodes that cannot be logged are not created. -/
theorem atomic_err_untouched_sample :
    let s := Source.opened 4 false none (some [])
    let c := AtomicCall.batch (.createNodes [(.titled "n" "a",⟨0,1#128⟩),(.titled "n" "b",⟨0,2#128⟩)])
    (s.atomic (.group false) c).1 = false ∧ Source.Untouched s (s.atomic (.group false) c).2 := by
  have h : ((Source.opened 4 false none (some [])).atomic (.group false)
      (.batch (.createNodes [(.titled "n" "a",⟨0,1#128⟩),(.titled "n" "b",⟨0,2#128⟩)]))).1 = false := by
    decide +kernel
  exact ⟨h,Source.atomic_err_untouched _ _ _ h⟩

end Sample
end Drevo
