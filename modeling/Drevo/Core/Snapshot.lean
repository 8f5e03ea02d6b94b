import Drevo.Core.Invariant

/-! Snapshot isolation: what a commit that was let through excludes, and what a refused one
can blame. Both look at the commits made since the transaction began. -/
namespace Drevo
open Lib

namespace Engine
variable [JsonText]

/-- The changes a step makes live. -/
def installs (e : Engine) : Action → List GraphOp
  | .direct call w => if e.calls.contains call then [] else (e.direct call w).1.toOption.getD []
  | .batch w io => (e.batch w io).1.toOption.getD []
  | .txCommit id io =>
    match e.txs[id]? with
    | some slot => okOps (e.txCommit id io).1 slot.ops
    | none => []
  | .commitPrepared gid io =>
    match e.live.prepared[gid]? with
    | some entry => okOps (e.commitPrepared gid io).1 entry.ops
    | none => []
  | _ => []

theorem installs_direct (e : Engine) (call : ℕ) (w : DirectWrite) : e.installs (.direct call w) =
    if e.calls.contains call then [] else (e.direct call w).1.toOption.getD [] := rfl

theorem installs_batch (e : Engine) (w : BatchWrite) (io : Bool) :
    e.installs (.batch w io) = (e.batch w io).1.toOption.getD [] := rfl

theorem installs_txCommit (e : Engine) (id : ℕ) (io : Bool) : e.installs (.txCommit id io) =
    match e.txs[id]? with
    | some slot => okOps (e.txCommit id io).1 slot.ops
    | none => [] := rfl

theorem installs_commitPrepared (e : Engine) (gid : String) (io : Bool) : e.installs (.commitPrepared gid io) =
    match e.live.prepared[gid]? with
    | some entry => okOps (e.commitPrepared gid io).1 entry.ops
    | none => [] := rfl

/-- What a step that commits reports as touched. -/
def commitSet (e : Engine) : Action → ConflictSet
  | .addConstraint _ => .all
  | .removeConstraint _ => .all
  | a => .fromOps (e.installs a)

/-- The step changes the pointer to the live state and nothing else: a direct write that is
refused once the state was made writable, or a schema change that changes nothing. -/
def touchesOnly (e : Engine) : Action → Bool
  | .direct call w => !e.calls.contains call && !w.isNoop && e.writeForCommit.toOption.isSome &&
      (w.run (e.load e.live)).1.toOption.isNone
  | .addConstraint c => c ∈ e.live.constraints ||
      (Inner.validateConstraints { e.live with constraints := e.live.constraints ++ [c] }).toOption.isNone
  | .removeConstraint c => !(c ∈ e.live.constraints)
  | _ => false

/-- What one step does, seen from the transactions that are open. -/
inductive Turn (e : Engine) (a : Action) (e' : Engine) : Prop
  | quiet (hi : e.installs a = []) (hl : e'.live = e.live) (he : e'.epoch = e.epoch) (hh : e'.history = e.history)
  | touched (hi : e.installs a = []) (ht : e.touchesOnly a = true)
      (hs : e'.live.commitSeq = e.live.commitSeq) (he : e.epoch ≤ e'.epoch) (hh : e'.history = e.history)
  | committed (h : Noted e e' (e.installs a) (e.commitSet a))

theorem Turn.of_core {e e' : Engine} {a : Action} (hi : e.installs a = []) (hc : SameCore e e') : Turn e a e' :=
  .quiet hi hc.live hc.epoch hc.history

theorem direct_turn {e : Engine} (h : (e.load e.live).Wf) (call : ℕ) (w : DirectWrite)
    (hc : e.calls.contains call = false) : Turn e (.direct call w) (e.direct call w).2 := by
  have hinst : e.installs (.direct call w) = (e.direct call w).1.toOption.getD [] := by simp [installs_direct,hc]
  have hset : e.commitSet (.direct call w) = .fromOps (e.installs (.direct call w)) := rfl
  by_cases hn : w.isNoop = true
  · have hd : e.direct call w = (.ok [],{ e with calls := e.calls.insert call .ok }) := by
      simp only [direct,if_pos hn]
    rw [hd] at hinst ⊢
    exact .of_core hinst (by constructor <;> rfl)
  cases hw : e.writeForCommit with
  | error err =>
    have hd : e.direct call w = (.error err,{ e with calls := e.calls.insert call .err }) := by
      simp only [direct,if_neg hn,hw]
    rw [hd] at hinst ⊢
    exact .of_core hinst (by constructor <;> rfl)
  | ok u =>
    rcases hr : w.run (e.load e.live) with ⟨r,t⟩
    cases r with
    | error err =>
      have hd : e.direct call w = (.error err,{ e.moved t t.ids with calls := e.calls.insert call .err }) := by
        simp only [direct,if_neg hn,hw,withLive,hr]
        rfl
      have ha := (e.load_agree e.live).trans (DirectWrite.run_err hr).1
      rw [hd] at hinst ⊢
      refine .touched hinst ?_ ha.commitSeq (Nat.le_succ _) rfl
      simp [touchesOnly,hc,hn,hw,hr,Except.toOption]
    | ok ops =>
      obtain rfl := DirectWrite.run_ok h hr
      have hd : (e.direct call w).1 = .ok ops := by
        simp only [direct,if_neg hn,hw,withLive,hr]
      refine .committed ?_
      rw [hset,hinst,hd]
      simp only [direct,if_neg hn,hw,withLive,hr,DirectWrite.touched_eq]
      exact (Noted.applied h ops).of_core (leaveLock_core _ call ops)

theorem batch_turn {e : Engine} (h : (e.load e.live).Wf) (w : BatchWrite) (io : Bool) :
    Turn e (.batch w io) (e.batch w io).2 := by
  -- a batch that was not swapped in leaves the live state as it is
  have hspent : ∀ (err : Except CoreError (List GraphOp)) (ids : IdCounters) (e' : Engine),
      SameCore { e with ids := ids } e' → err.toOption.getD [] = [] → e.batch w io = (err,e') →
      Turn e (.batch w io) (e.batch w io).2 := by
    intro err ids e' hc herr hb
    refine .quiet ?_ ?_ ?_ ?_
    · simp only [installs_batch,hb,herr]
    · rw [hb]; exact hc.live
    · rw [hb]; exact hc.epoch
    · rw [hb]; exact hc.history
  by_cases hn : w.isNoop = true
  · exact hspent (.ok []) e.ids e (SameCore.refl e) rfl (by simp only [batch,if_pos hn])
  cases hw : e.writeForCommit with
  | error err => exact hspent (.error err) e.ids e (SameCore.refl e) rfl (by simp only [batch,if_neg hn,hw])
  | ok u =>
    rcases hr : w.run (e.load e.live) with ⟨r,t⟩
    cases r with
    | error err => exact hspent (.error err) t.ids _ (SameCore.refl _) rfl (by simp only [batch,if_neg hn,hw,hr])
    | ok ops =>
      obtain rfl := BatchWrite.run_ok h hr
      by_cases he : ops.isEmpty = true
      · exact hspent (.ok []) ((e.load e.live).applyOps ops).ids _ (SameCore.refl _) rfl
          (by simp only [batch,if_neg hn,hw,hr,if_pos he])
      have hc := record_core { e with ids := ((e.load e.live).applyOps ops).ids } (ops.map .graph) io
      rcases hrec : record { e with ids := ((e.load e.live).applyOps ops).ids } (ops.map .graph) io with ⟨ok,e'⟩
      rw [hrec] at hc
      cases ok with
      | false => exact hspent (.error .io) _ e' hc rfl (by simp only [batch,if_neg hn,hw,hr,if_neg he,hrec])
      | true =>
        have hb : e.batch w io =
            (.ok ops,(e'.install ((e.load e.live).applyOps ops)).noteCommit (.fromOps ops)) := by
          simp only [batch,if_neg hn,hw,hr,if_neg he,hrec]
        refine .committed ?_
        simp only [commitSet,installs_batch,hb]
        exact (Noted.applied h ops).of_core ((hc.install _).noteCommit _)

theorem txCommit_turn {e : Engine} (h : Inv e) (id : ℕ) (io : Bool) :
    Turn e (.txCommit id io) (e.txCommit id io).2 := by
  cases hslot : e.txs[id]? with
  | none =>
    rw [txCommit_none hslot]
    exact .of_core (by simp only [installs_txCommit,hslot]) (SameCore.refl e)
  | some slot =>
    have hi := (h.slots id slot hslot).1
    have hinst : e.installs (.txCommit id io) = okOps (e.txCommit id io).1 slot.ops := by
      simp only [installs_txCommit,hslot]
    have hset : e.commitSet (.txCommit id io) = .fromOps (e.installs (.txCommit id io)) := rfl
    have hdrop : e.txCommit id io = { e with txs := e.txs.erase id }.commitParts slot io := by
      simp only [txCommit,hslot]
    rw [hdrop] at hinst ⊢
    have hr := commitParts_result { e with txs := e.txs.erase id } slot io
    generalize commitParts { e with txs := e.txs.erase id } slot io = r at hr hinst
    obtain ⟨r,e'⟩ := r
    cases hr with
    | refused err _ ids hids hc hconflict => exact .quiet hinst hc.live hc.epoch hc.history
    | empty ho => exact .quiet (by rw [hinst,ho]; rfl) rfl rfl rfl
    | swapped _ hf he hv hp hc =>
      have hbase := hi.same he.symm
      refine .committed ?_
      rw [hset,hinst]
      have hn : Noted e ((e.moved slot.working e.ids).noteCommit (.fromOps slot.ops)) slot.ops (.fromOps slot.ops) := by
        refine .moved _ ?_ ?_
        · rw [hi.graph,hbase]
        · rw [hi.replay.commitSeq,(Inner.applyOps_schema slot.base slot.ops).commitSeq,hbase]
      exact ⟨hc.live ▸ hn.graph,hc.live ▸ hn.seq,hc.history.trans hn.history,hc.epoch ▸ hn.epoch⟩
    | replayed _ hf he hcl hv hp hc =>
      refine .committed ?_
      rw [hset,hinst]
      have hn := Noted.applied h.live slot.ops
      exact ⟨hc.live ▸ hn.graph,hc.live ▸ hn.seq,hc.history.trans hn.history,hc.epoch ▸ hn.epoch⟩

theorem txPrepare_turn (e : Engine) (id : ℕ) (gid : String) (now : ℤ) (io : Bool) :
    Turn e (.txPrepare id gid now io) (e.txPrepare id gid now io).2 := by
  unfold txPrepare
  split
  · exact .of_core rfl (SameCore.refl e)
  · rename_i slot hslot
    have hr := prepareParts_result { e with txs := e.txs.erase id } slot gid now io
    generalize prepareParts { e with txs := e.txs.erase id } slot gid now io = r at hr
    obtain ⟨r,e'⟩ := r
    cases hr with
    | refused err _ hc => exact .quiet rfl hc.live hc.epoch hc.history
    | prepared _ hp he hv hc =>
      have hn : Noted e ((e.moved (e.fenced gid now slot.ops) e.ids).noteCommit {}) [] {} := .moved _ rfl rfl
      exact .committed ⟨hc.live ▸ hn.graph,hc.live ▸ hn.seq,hc.history.trans hn.history,hc.epoch ▸ hn.epoch⟩

theorem commitPrepared_turn {e : Engine} (h : (e.load e.live).Wf) (gid : String) (io : Bool) :
    Turn e (.commitPrepared gid io) (e.commitPrepared gid io).2 := by
  cases hg : e.live.prepared[gid]? with
  | none =>
    rw [commitPrepared_none hg]
    exact .of_core (by simp only [installs_commitPrepared,hg]) (SameCore.refl e)
  | some entry =>
    have hinst : e.installs (.commitPrepared gid io) = okOps (e.commitPrepared gid io).1 entry.ops := by
      simp only [installs_commitPrepared,hg]
    have hset : e.commitSet (.commitPrepared gid io) = .fromOps (e.installs (.commitPrepared gid io)) := rfl
    rcases commitPrepared_result e gid io with ⟨err,hr,hc⟩ | ⟨entry',hg',hr,hc⟩
    · exact .of_core (by rw [hinst,hr]; rfl) hc
    · obtain rfl := Option.some.inj (hg.symm.trans hg')
      refine .committed ?_
      rw [hset,hinst,hr]
      refine Noted.of_core (.moved _ ?_ ?_) hc
      · have hw : Inner.Wf { e.load e.live with prepared := (e.load e.live).prepared.erase gid } :=
          ⟨h.nodes.congr rfl rfl rfl rfl le_rfl,h.edges.congr rfl rfl rfl rfl le_rfl⟩
        rw [applyWalOp_commitPrepared (s := e.load e.live) hg]
        exact Inner.applyOps_graph hw entry.ops
      · rw [applyWalOp_commitPrepared (s := e.load e.live) hg]
        exact (Inner.applyOps_schema _ entry.ops).commitSeq

theorem rollbackPrepared_turn (e : Engine) (gid : String) (heuristic io : Bool) :
    Turn e (.rollbackPrepared gid heuristic io) (e.rollbackPreparedAs gid heuristic io).2 := by
  rcases rollbackPreparedAs_result e gid heuristic io with hc | ⟨entry,hg,-,hc⟩
  · exact .of_core rfl hc
  · refine .committed (Noted.of_core (.moved _ ?_ ?_) hc)
    · simp only [Inner.applyWalOp]
      split_ifs <;> rfl
    · simp only [Inner.applyWalOp]
      split_ifs <;> rfl

theorem addConstraint_turn (e : Engine) (c : Constraint) : Turn e (.addConstraint c) (e.addConstraint c).2 := by
  by_cases hc : c ∈ e.live.constraints
  · have he : (e.addConstraint c).2 = e.install e.live := by
      have hc' : c ∈ (e.install e.live).live.constraints := hc
      simp only [addConstraint,if_pos hc']
    rw [he]
    exact .touched rfl (by simp [touchesOnly,hc]) rfl (Nat.le_succ _) rfl
  · rcases addConstraint_result e c with he | ⟨-,hv,he⟩
    · have hv : (Inner.validateConstraints { e.live with constraints := e.live.constraints ++ [c] }).toOption = none := by
        cases hv : Inner.validateConstraints { e.live with constraints := e.live.constraints ++ [c] } with
        | error v => rfl
        | ok u =>
          -- a declaration that holds is noted
          have hc' : c ∉ (e.install e.live).live.constraints := hc
          have hv' : Inner.validateConstraints { (e.install e.live).live with
              constraints := (e.install e.live).live.constraints ++ [c] } = .ok u := hv
          have hseq := congrArg (fun e => e.live.commitSeq) he
          simp only [addConstraint,if_neg hc',hv'] at hseq
          simp only [noteCommit,install,Inner.syncUnique] at hseq
          omega
      rw [he]
      exact .touched rfl (by simp [touchesOnly,hv]) rfl (Nat.le_succ _) rfl
    · rw [he]
      exact .committed (.moved _ rfl rfl)

theorem removeConstraint_turn (e : Engine) (c : Constraint) :
    Turn e (.removeConstraint c) (e.removeConstraint c).2 := by
  rcases removeConstraint_result e c with he | ⟨he,hfilter⟩
  · rw [he]
    exact .committed (.moved _ rfl rfl)
  · rw [he]
    refine .touched rfl ?_ rfl (Nat.le_succ _) rfl
    have hc : c ∉ e.live.constraints := by
      intro hmem
      have hne := List.filter_eq_self.mp hfilter c hmem
      simp at hne
    simp [touchesOnly,hc]

theorem step_turn {e : Engine} (h : Inv e) {a : Action} (ha : a.isMerge = false) : Turn e a (e.step a) := by
  cases a with
  | direct call w =>
    simp only [step]
    split_ifs with hc
    · exact .of_core (by simp only [installs_direct,if_pos hc]) (SameCore.refl e)
    · exact direct_turn h.live call w (Bool.eq_false_iff.mpr hc)
  | enqueue call encoded => exact .of_core rfl (enqueue_core e call encoded)
  | lead => exact .quiet rfl rfl rfl rfl
  | finish io => exact .quiet rfl rfl rfl rfl
  | await call => exact .of_core rfl (await_core e call)
  | batch w io => exact batch_turn h.live w io
  | txBegin isolation limited => exact .quiet rfl rfl rfl rfl
  | txWrite id m =>
    simp only [step,txWrite]
    split
    · exact .quiet rfl rfl rfl rfl
    · split <;> exact .quiet rfl rfl rfl rfl
  | txCommit id io => exact txCommit_turn h id io
  | txRollback id => exact .quiet rfl rfl rfl rfl
  | txPrepare id gid now io => exact txPrepare_turn e id gid now io
  | commitPrepared gid io => exact commitPrepared_turn h.live gid io
  | rollbackPrepared gid heuristic io => exact rollbackPrepared_turn e gid heuristic io
  | addConstraint c => exact addConstraint_turn e c
  | removeConstraint c => exact removeConstraint_turn e c
  | applyDump call dump => simp [Action.isMerge] at ha
  | deltaBegin id changes tomb => simp [Action.isMerge] at ha
  | deltaStep id call current => simp [Action.isMerge] at ha

/-! ## Since a transaction began -/

/-- The step advances the commit sequence. -/
def commits (e : Engine) (a : Action) : Bool := (e.step a).live.commitSeq != e.live.commitSeq

theorem Turn.epoch_le {e e' : Engine} {a : Action} (h : Turn e a e') : e.epoch ≤ e'.epoch := by
  cases h with
  | quiet hi hl he hh => exact he.ge
  | touched hi ht hs he hh => exact he
  | committed h => exact h.epoch.le

theorem Turn.noted {e : Engine} {a : Action} (h : Turn e a (e.step a)) (hc : e.commits a = true) :
    Noted e (e.step a) (e.installs a) (e.commitSet a) := by
  unfold commits at hc
  cases h with
  | quiet hi hl he hh => simp [hl] at hc
  | touched hi ht hs he hh => simp [hs] at hc
  | committed h => exact h

theorem Turn.still {e : Engine} {a : Action} (h : Turn e a (e.step a)) (hc : e.commits a = false) :
    e.installs a = [] ∧ (e.step a).live.commitSeq = e.live.commitSeq ∧ (e.step a).history = e.history ∧
      ((e.step a).epoch = e.epoch ∨ e.touchesOnly a = true) := by
  unfold commits at hc
  cases h with
  | quiet hi hl he hh => exact ⟨hi,congrArg Inner.commitSeq hl,hh,Or.inl he⟩
  | touched hi ht hs he hh => exact ⟨hi,hs,hh,Or.inr ht⟩
  | committed h => simp [h.seq] at hc

/-- The commits of a run, each with the state it found. -/
def committedIn (e : Engine) (as : List Action) : List (Engine × Action) :=
  (e.trace as).filter (fun t => t.1.commits t.2)

variable {e : Engine} {mid : List Action}

theorem run_commitSeq (h : Inv e) (hm : ∀ a ∈ mid, a.isMerge = false) :
    (e.run mid).live.commitSeq = e.live.commitSeq+(e.committedIn mid).length := by
  induction mid generalizing e with
  | nil => rfl
  | cons a as ih =>
    have hturn := step_turn h (hm a (List.mem_cons_self ..))
    have hrest := ih (step_inv h a) (fun b hb => hm b (List.mem_cons_of_mem _ hb))
    simp only [committedIn] at hrest
    simp only [run_cons,committedIn,trace,List.filter_cons,hrest]
    by_cases hc : e.commits a = true
    · rw [if_pos hc,(hturn.noted hc).seq,List.length_cons]
      omega
    · rw [if_neg hc,(hturn.still (Bool.eq_false_iff.mpr hc)).2.1]

theorem run_epoch (h : Inv e) (hm : ∀ a ∈ mid, a.isMerge = false) :
    e.epoch ≤ (e.run mid).epoch ∧ (e.committedIn mid ≠ [] → e.epoch < (e.run mid).epoch) := by
  induction mid generalizing e with
  | nil => exact ⟨le_rfl,fun hne => absurd rfl hne⟩
  | cons a as ih =>
    have hturn := step_turn h (hm a (List.mem_cons_self ..))
    obtain ⟨hle,hlt⟩ := ih (step_inv h a) (fun b hb => hm b (List.mem_cons_of_mem _ hb))
    have hstep := hturn.epoch_le
    refine ⟨hstep.trans hle,?_⟩
    intro hne
    simp only [committedIn,trace,List.filter_cons] at hne
    by_cases hc : e.commits a = true
    · exact (hturn.noted hc).epoch.trans_le hle
    · rw [if_neg hc] at hne
      exact hstep.trans_lt (hlt hne)

theorem run_epoch_eq (h : Inv e) (hm : ∀ a ∈ mid, a.isMerge = false) (hc : e.committedIn mid = [])
    (ht : ∀ t ∈ e.trace mid, t.1.touchesOnly t.2 = false) : (e.run mid).epoch = e.epoch := by
  induction mid generalizing e with
  | nil => rfl
  | cons a as ih =>
    have hturn := step_turn h (hm a (List.mem_cons_self ..))
    simp only [committedIn,trace,List.filter_cons] at hc
    split_ifs at hc with hcom
    have hrest := ih (step_inv h a) (fun b hb => hm b (List.mem_cons_of_mem _ hb)) hc
      (fun t ht' => ht t (List.mem_cons_of_mem _ ht'))
    rcases (hturn.still (Bool.eq_false_iff.mpr hcom)).2.2.2 with he | htouch
    · rw [run_cons,hrest,he]
    · exact absurd htouch (by simp [ht (e,a) (List.mem_cons_self ..)])

/-- The history remembers every commit made since. -/
theorem run_remembers (h : Inv e) (hm : ∀ a ∈ mid, a.isMerge = false) (base : ℕ) (hb : base ≤ e.live.commitSeq)
    {t : Engine × Action} (ht : t ∈ e.committedIn mid) :
    ∃ p, (e.run mid).history.Remembers base (e.run mid).live.commitSeq p ∧ p.2 = t.1.commitSet t.2 := by
  -- what is remembered stays so: the statement from any remembered commit on
  have hkeep : ∀ (as : List Action) (e : Engine), Inv e → (∀ a ∈ as, a.isMerge = false) →
      ∀ p, e.history.Remembers base e.live.commitSeq p →
        (e.run as).history.Remembers base (e.run as).live.commitSeq p := by
    intro as
    induction as with
    | nil => exact fun e _ _ p hp => hp
    | cons a as ih =>
      intro e h hm p hp
      have hturn := step_turn h (hm a (List.mem_cons_self ..))
      refine ih _ (step_inv h a) (fun b hb => hm b (List.mem_cons_of_mem _ hb)) p ?_
      by_cases hc : e.commits a = true
      · have hn := hturn.noted hc
        rw [hn.seq,hn.history]
        exact hp.push h.history _
      · obtain ⟨-,hs,hh,-⟩ := hturn.still (Bool.eq_false_iff.mpr hc)
        rw [hs,hh]
        exact hp
  induction mid generalizing e with
  | nil => simp [committedIn,trace] at ht
  | cons a as ih =>
    have hturn := step_turn h (hm a (List.mem_cons_self ..))
    have hm' : ∀ b ∈ as, b.isMerge = false := fun b hb => hm b (List.mem_cons_of_mem _ hb)
    simp only [committedIn,trace,List.filter_cons] at ht
    by_cases hc : e.commits a = true
    · have hn := hturn.noted hc
      rw [if_pos hc] at ht
      rcases List.mem_cons.mp ht with rfl | ht
      · refine ⟨(e.live.commitSeq+1,e.commitSet a),hkeep as _ (step_inv h a) hm' _ ?_,rfl⟩
        rw [hn.seq,hn.history]
        exact CommitHistory.remembers_new h.history hb _
      · exact ih (step_inv h a) hm' (by rw [hn.seq]; omega) ht
    · rw [if_neg hc] at ht
      have hs := (hturn.still (Bool.eq_false_iff.mpr hc)).2.1
      exact ih (step_inv h a) hm' (by rw [hs]; exact hb) ht

/-- What the history holds from after a state was committed since. -/
theorem run_origin (h : Inv e) (hm : ∀ a ∈ mid, a.isMerge = false) {p : ℕ × ConflictSet}
    (hp : p ∈ (e.run mid).history.recent) (hb : e.live.commitSeq < p.1) :
    ∃ t ∈ e.committedIn mid, p.2 = t.1.commitSet t.2 := by
  have hfrom : ∀ (as : List Action) (e : Engine), Inv e → (∀ a ∈ as, a.isMerge = false) →
      p ∈ (e.run as).history.recent → p ∈ e.history.recent ∨ ∃ t ∈ e.committedIn as, p.2 = t.1.commitSet t.2 := by
    intro as
    induction as with
    | nil => exact fun e _ _ hp => Or.inl hp
    | cons a as ih =>
      intro e h hm hp
      have hturn := step_turn h (hm a (List.mem_cons_self ..))
      have hrest := ih _ (step_inv h a) (fun b hb => hm b (List.mem_cons_of_mem _ hb)) hp
      simp only [committedIn] at hrest
      simp only [committedIn,trace,List.filter_cons]
      by_cases hc : e.commits a = true
      · rw [if_pos hc]
        rcases hrest with hin | ⟨t,ht,hpt⟩
        · rw [(hturn.noted hc).history] at hin
          rcases List.mem_append.mp (List.mem_of_mem_drop hin) with hold | hnew
          · exact Or.inl hold
          · obtain rfl : p = _ := by simpa using hnew
            exact Or.inr ⟨(e,a),List.mem_cons_self ..,rfl⟩
        · exact Or.inr ⟨t,List.mem_cons_of_mem _ ht,hpt⟩
      · rw [if_neg hc]
        rcases hrest with hin | hin
        · rw [(hturn.still (Bool.eq_false_iff.mpr hc)).2.2.1] at hin
          exact Or.inl hin
        · exact Or.inr hin
  rcases hfrom mid e h hm hp with hin | hin
  · exact absurd (h.history.mem hin).2 (not_le.mpr hb)
  · exact hin

/-- A registered transaction keeps its snapshot and its isolation; its id is not taken again. -/
theorem step_slot (h : Inv e) {a : Action} (ha : a.isMerge = false) {id : ℕ} (hid : id ≤ e.nextRegTx) :
    id ≤ (e.step a).nextRegTx ∧ ∀ slot', (e.step a).txs[id]? = some slot' → ∃ slot, e.txs[id]? = some slot ∧
      slot'.base = slot.base ∧ slot'.baseEpoch = slot.baseEpoch ∧ slot'.isolation = slot.isolation := by
  have hsame : ∀ e' : Engine, e'.txs = e.txs → e'.nextRegTx = e.nextRegTx →
      id ≤ e'.nextRegTx ∧ ∀ slot', e'.txs[id]? = some slot' → ∃ slot, e.txs[id]? = some slot ∧
        slot'.base = slot.base ∧ slot'.baseEpoch = slot.baseEpoch ∧ slot'.isolation = slot.isolation := by
    intro e' htxs hnext
    rw [htxs,hnext]
    exact ⟨hid,fun slot hs => ⟨slot,hs,rfl,rfl,rfl⟩⟩
  have hcore : ∀ e' : Engine, SameCore e e' → _ := fun e' hc => hsame e' hc.txs hc.nextRegTx
  have herase : ∀ (i : ℕ) (e' : Engine), e'.txs = e.txs.erase i → e'.nextRegTx = e.nextRegTx →
      id ≤ e'.nextRegTx ∧ ∀ slot', e'.txs[id]? = some slot' → ∃ slot, e.txs[id]? = some slot ∧
        slot'.base = slot.base ∧ slot'.baseEpoch = slot.baseEpoch ∧ slot'.isolation = slot.isolation := by
    intro i e' htxs hnext
    rw [htxs,hnext]
    exact ⟨hid,fun slot hs => ⟨slot,get_erase_txs hs,rfl,rfl,rfl⟩⟩
  cases a with
  | direct call w =>
    simp only [step]
    split_ifs
    · exact hcore e (SameCore.refl e)
    · have hs := (direct_section h.live call w).toSection
      exact hsame _ hs.txs hs.nextRegTx
  | enqueue call encoded => exact hcore _ (enqueue_core e call encoded)
  | lead => exact hsame _ rfl rfl
  | finish io => exact hsame _ rfl rfl
  | await call => exact hcore _ (await_core e call)
  | batch w io =>
    have hs := (batch_section h.live w io).toSection
    exact hsame _ hs.txs hs.nextRegTx
  | txBegin isolation limited =>
    refine ⟨hid.trans (Nat.le_succ _),?_⟩
    intro slot' hs
    simp only [step,txBegin,Map.get_insert] at hs
    rw [if_neg (by omega)] at hs
    exact ⟨slot',hs,rfl,rfl,rfl⟩
  | txWrite i m =>
    simp only [step,txWrite]
    split
    · exact hcore e (SameCore.refl e)
    · rename_i slot hslot
      split
      · exact hcore e (SameCore.refl e)
      · refine ⟨hid,?_⟩
        intro slot' hs
        simp only [Map.get_insert] at hs
        split_ifs at hs with hi
        · obtain rfl := Option.some.inj hs
          exact ⟨slot,hi ▸ hslot,rfl,rfl,rfl⟩
        · exact ⟨slot',hs,rfl,rfl,rfl⟩
  | txCommit i io =>
    simp only [step]
    cases hs : e.txs[i]? with
    | none =>
      rw [txCommit_none hs]
      exact hcore e (SameCore.refl e)
    | some slot =>
      have hsec := txCommit_section h hs io
      exact herase i _ hsec.txs hsec.nextRegTx
  | txRollback i => exact herase i _ rfl rfl
  | txPrepare i gid now io =>
    simp only [step,txPrepare]
    split
    · exact hcore e (SameCore.refl e)
    · rename_i slot hslot
      have hsec := prepareParts_section (e := { e with txs := e.txs.erase i }) h.live slot gid now io
      exact herase i _ hsec.txs hsec.nextRegTx
  | commitPrepared gid io =>
    simp only [step]
    cases hg : e.live.prepared[gid]? with
    | none =>
      rw [commitPrepared_none hg]
      exact hcore e (SameCore.refl e)
    | some entry =>
      have hs := commitPrepared_section h.live hg io
      exact hsame _ hs.txs hs.nextRegTx
  | rollbackPrepared gid heuristic io =>
    have hs := rollbackPreparedAs_section h.live gid heuristic io
    exact hsame _ hs.txs hs.nextRegTx
  | addConstraint c =>
    have hs := addConstraint_section h.live c
    exact hsame _ hs.txs hs.nextRegTx
  | removeConstraint c =>
    have hs := removeConstraint_section h.live c
    exact hsame _ hs.txs hs.nextRegTx
  | applyDump call dump => simp [Action.isMerge] at ha
  | deltaBegin id changes tomb => simp [Action.isMerge] at ha
  | deltaStep id call current => simp [Action.isMerge] at ha

theorem run_slot (h : Inv e) (hm : ∀ a ∈ mid, a.isMerge = false) {id : ℕ} (hid : id ≤ e.nextRegTx)
    {slot' : TxSlot} (hs : (e.run mid).txs[id]? = some slot') : ∃ slot, e.txs[id]? = some slot ∧
      slot'.base = slot.base ∧ slot'.baseEpoch = slot.baseEpoch ∧ slot'.isolation = slot.isolation := by
  induction mid generalizing e with
  | nil => exact ⟨slot',hs,rfl,rfl,rfl⟩
  | cons a as ih =>
    obtain ⟨hid',hstep⟩ := step_slot h (hm a (List.mem_cons_self ..)) hid
    obtain ⟨slot,hslot,hb,he,hi⟩ := ih (step_inv h a) (fun b hb => hm b (List.mem_cons_of_mem _ hb)) hid' hs
    obtain ⟨slot₀,hslot₀,hb₀,he₀,hi₀⟩ := hstep slot hslot
    exact ⟨slot₀,hslot₀,hb.trans hb₀,he.trans he₀,hi.trans hi₀⟩

theorem run_begun {e₀ e₁ : Engine} (h : Inv e₀) {isolation : Isolation} {limited : Bool} {id : ℕ}
    (h₁ : e₀.txBegin isolation limited = (id,e₁)) (hm : ∀ a ∈ mid, a.isMerge = false) {slot : TxSlot}
    (hs : (e₁.run mid).txs[id]? = some slot) :
    slot.base = e₀.live ∧ slot.baseEpoch = e₀.epoch ∧ slot.isolation = isolation := by
  have hinv : Inv e₁ := by
    have := txBegin_inv h isolation limited
    rwa [h₁] at this
  obtain ⟨rfl,rfl⟩ := Prod.mk.inj h₁
  obtain ⟨slot₀,hslot₀,hb,he,hi⟩ := run_slot hinv hm le_rfl hs
  simp only [Map.get_insert,if_true,Option.some.injEq] at hslot₀
  obtain rfl := hslot₀
  exact ⟨hb,he,hi⟩

omit [JsonText] in
theorem txBegin_frame {e₀ e₁ : Engine} {isolation : Isolation} {limited : Bool} {id : ℕ}
    (h₁ : e₀.txBegin isolation limited = (id,e₁)) :
    e₁.live = e₀.live ∧ e₁.epoch = e₀.epoch ∧ e₁.history = e₀.history := by
  obtain ⟨-,rfl⟩ := Prod.mk.inj h₁
  exact ⟨rfl,rfl,rfl⟩

/-! ## Commits that were let through -/

theorem txCommit_live (h : Inv e) {id : ℕ} {slot : TxSlot} (hs : e.txs[id]? = some slot) {io : Bool}
    (hok : (e.txCommit id io).1 = .ok ()) :
    { e.live.applyOps slot.ops with commitSeq := (e.txCommit id io).2.live.commitSeq }.Agree (e.txCommit id io).2.live := by
  have hi := (h.slots id slot hs).1
  have hagree : ∀ (s t : Inner) (seq : ℕ), s.Agree t → { s with commitSeq := seq }.Agree { t with commitSeq := seq } := by
    intro s t seq ha
    rw [← ha]
    rfl
  simp only [txCommit,hs] at hok ⊢
  have hr := commitParts_result { e with txs := e.txs.erase id } slot io
  generalize commitParts { e with txs := e.txs.erase id } slot io = r at hr hok
  obtain ⟨r,e'⟩ := r
  cases hr with
  | refused err _ ids hids hc hconflict => simp at hok
  | empty ho =>
    rw [ho]
    exact Inner.Agree.refl _
  | swapped _ hf he hv hp hc =>
    have ha := hi.replay
    rw [hi.same he.symm] at ha
    have hlive : e'.live = { slot.working with commitSeq := slot.working.commitSeq+1 } := hc.live
    simp only [hlive]
    exact hagree _ _ _ ha
  | replayed _ hf he hcl hv hp hc =>
    have ha : (e.live.applyOps slot.ops).Agree (e.merged slot) := (e.load_agree e.live).applyOps slot.ops
    have hlive : e'.live = { e.merged slot with commitSeq := (e.merged slot).commitSeq+1 } := hc.live
    simp only [hlive]
    exact hagree _ _ _ ha

/-- What a transaction that commits excludes: none of its writes clashes with a change made
live since it began. -/
theorem txCommit_no_clash {e₀ e₁ e₂ : Engine} (h : Inv e₀) {isolation : Isolation} {limited : Bool} {id : ℕ}
    (h₁ : e₀.txBegin isolation limited = (id,e₁)) (hm : ∀ a ∈ mid, a.isMerge = false) (h₂ : e₂ = e₁.run mid)
    {slot : TxSlot} {io : Bool} (hs : e₂.txs[id]? = some slot) (hok : (e₂.txCommit id io).1 = .ok ())
    {t : Engine × Action} (ht : t ∈ e₁.trace mid) {c op : GraphOp} (hc : c ∈ t.1.installs t.2)
    (hop : op ∈ slot.ops) : ¬ c.Clashes op := by
  have hinv₁ : Inv e₁ := by
    have := txBegin_inv h isolation limited
    rwa [h₁] at this
  have hinv₂ : Inv e₂ := h₂ ▸ run_inv hinv₁ mid
  obtain ⟨hbase,hepoch,-⟩ := run_begun h h₁ hm (h₂ ▸ hs)
  obtain ⟨hlive₁,hepoch₁,-⟩ := txBegin_frame h₁
  -- the step made changes live, so it is a commit with the set of these changes
  have hturn : Turn t.1 t.2 (t.1.step t.2) := by
    obtain ⟨bs,hp,ht⟩ := mem_trace.mp ht
    rw [ht]
    exact step_turn (run_inv hinv₁ bs) (hm _ (hp.subset (by simp)))
  have hcommits : t.1.commits t.2 = true := by
    by_contra hno
    have hempty := (hturn.still (Bool.eq_false_iff.mpr hno)).1
    rw [hempty] at hc
    simp at hc
  have hset : t.1.commitSet t.2 = .fromOps (t.1.installs t.2) := by
    unfold commitSet
    split
    · simp [*,installs] at hc
    · simp [*,installs] at hc
    · rfl
  have hin : t ∈ e₁.committedIn mid := List.mem_filter.mpr ⟨ht,hcommits⟩
  simp only [txCommit,hs] at hok
  have hr := commitParts_result { e₂ with txs := e₂.txs.erase id } slot io
  rw [hok] at hr
  generalize (commitParts { e₂ with txs := e₂.txs.erase id } slot io).2 = e₃ at hr
  cases hr with
  | empty ho => simp [ho] at hop
  | swapped _ hf he hv hp hc =>
    -- the pointer did not change, so nothing was committed
    have hlt := (run_epoch hinv₁ hm).2 (List.ne_nil_of_mem hin)
    have heq : e₂.epoch = e₁.epoch := he.trans (hepoch.trans hepoch₁.symm)
    rw [h₂] at heq
    exact absurd heq hlt.ne'
  | replayed _ hf he hcl hv hp hc =>
    obtain ⟨p,hrem,hp⟩ := run_remembers hinv₁ hm e₁.live.commitSeq le_rfl hin
    rw [hbase,← hlive₁] at hcl
    rw [← h₂] at hrem
    have hdis := CommitHistory.classify_wouldPass hinv₂.history hcl hrem
    rw [hp,hset] at hdis
    exact ConflictSet.not_clashes hdis ‹_› hop

/-- The action is a direct write whose call has returned an error. -/
def returnedErr (e : Engine) : Action → Bool
  | .direct call _ => e.calls[call]? = some .err
  | _ => false

/-- A conflict has a cause: a commit since the transaction began that touched what it touched,
more commits since than the history holds, or a constraint its writes would break. A direct
write that has returned an error in `final` is not a commit. -/
def ConflictCaused (e₁ : Engine) (mid : List Action) (slot : TxSlot) (final : Engine) : Prop :=
  (∃ t ∈ e₁.committedIn mid, final.returnedErr t.2 = false ∧
    (t.1.commitSet t.2).intersects (.fromOps slot.ops) = true) ∨
  e₁.history.capacity < ((e₁.committedIn mid).filter (fun t => !final.returnedErr t.2)).length ∨
  ∃ v, ((e₁.run mid).merged slot).validateConstraints = .error v

theorem run_capacity (h : Inv e) (hm : ∀ a ∈ mid, a.isMerge = false) :
    (e.run mid).history.capacity = e.history.capacity := by
  induction mid generalizing e with
  | nil => rfl
  | cons a as ih =>
    have hturn := step_turn h (hm a (List.mem_cons_self ..))
    rw [run_cons,ih (step_inv h a) (fun b hb => hm b (List.mem_cons_of_mem _ hb))]
    by_cases hc : e.commits a = true
    · rw [(hturn.noted hc).history,CommitHistory.push_capacity]
    · rw [(hturn.still (Bool.eq_false_iff.mpr hc)).2.2.1]

theorem not_covers (h : Inv e) (hm : ∀ a ∈ mid, a.isMerge = false)
    (hc : (e.run mid).history.covers e.live.commitSeq = false) :
    e.history.capacity < (e.committedIn mid).length ∨
      ((e.run mid).history.recent = [] ∧ e.committedIn mid = []) := by
  have h₂ := run_inv h mid
  have hseq := run_commitSeq h hm
  have hcap := run_capacity h hm
  have hlen := h₂.history.length
  have hcov := (h₂.history.covers_iff e.live.commitSeq).not.mp (by simp [hc])
  by_cases hr : (e.run mid).history.recent = []
  · by_cases hcom : e.committedIn mid = []
    · exact Or.inr ⟨hr,hcom⟩
    · have hpos := List.length_pos_iff.mpr hcom
      rw [hr,hcap,hseq] at hlen
      simp only [List.length_nil] at hlen
      exact Or.inl (by omega)
  · have hlt : ¬ (e.run mid).live.commitSeq ≤ e.live.commitSeq+(e.run mid).history.recent.length :=
      fun hle => hcov ⟨hr,hle⟩
    rw [hseq] at hlt
    rw [hcap,hseq] at hlen
    exact Or.inl (by omega)

/-- A conflict is reported for a cause, in every run in which no direct write that was applied
since the transaction began returns an error, and in which no write was refused since, or the
history holds a commit, or something was committed since. -/
theorem conflict_has_cause (capacity : ℕ) (readOnly : Bool) (maxTxWrites : Option ℕ) (durable : Bool)
    (pre mid post : List Action) (limited io : Bool) (hm : ∀ a ∈ mid, a.isMerge = false)
    {e₀ e₁ e₂ : Engine} {id : ℕ} {slot : TxSlot} (h₀ : e₀ = (new capacity readOnly maxTxWrites durable).run pre)
    (h₁ : e₀.txBegin .snapshot limited = (id,e₁)) (h₂ : e₂ = e₁.run mid) (hs : e₂.txs[id]? = some slot)
    (htouch : (∀ t ∈ e₁.trace mid, t.1.touchesOnly t.2 = false) ∨ e₂.history.recent ≠ [] ∨
      e₁.live.commitSeq < e₂.live.commitSeq)
    (herr : ∀ t ∈ e₁.committedIn mid, ((e₂.step (.txCommit id io)).run post).returnedErr t.2 = false)
    (hc : (e₂.txCommit id io).1 = .error .conflict) :
    e₁.ConflictCaused mid slot ((e₂.step (.txCommit id io)).run post) := by
  have hinv₀ : Inv e₀ := h₀ ▸ run_inv (new_inv _ _ _ _) pre
  have hinv₁ : Inv e₁ := by
    have := txBegin_inv hinv₀ .snapshot limited
    rwa [h₁] at this
  have hinv₂ : Inv e₂ := h₂ ▸ run_inv hinv₁ mid
  obtain ⟨hbase,hepoch,hiso⟩ := run_begun hinv₀ h₁ hm (h₂ ▸ hs)
  obtain ⟨hlive₁,hepoch₁,-⟩ := txBegin_frame h₁
  simp only [txCommit,hs] at hc
  have hr := commitParts_result { e₂ with txs := e₂.txs.erase id } slot io
  rw [hc] at hr
  generalize (commitParts { e₂ with txs := e₂.txs.erase id } slot io).2 = e₃ at hr
  cases hr with
  | refused _ _ ids hids hcore hconflict =>
    obtain ⟨hmoved,hcause⟩ := hconflict rfl
    rcases hcause with hclass | hser | ⟨v,hv⟩
    · unfold CommitHistory.classify at hclass
      split_ifs at hclass with hcov hany
      · -- the history does not cover the snapshot
        have hcov' : (e₁.run mid).history.covers e₁.live.commitSeq = false := by
          rw [hbase,← hlive₁] at hcov
          rw [← h₂]
          simpa using hcov
        rcases not_covers hinv₁ hm hcov' with hmany | ⟨hempty,hnone⟩
        · refine Or.inr (Or.inl ?_)
          rwa [List.filter_eq_self.mpr (fun t ht => by simp [herr t ht])]
        · exfalso
          have hseq := run_commitSeq hinv₁ hm
          rw [hnone,← h₂] at hseq
          rcases htouch with hno | hrec | hlt
          · have heq := run_epoch_eq hinv₁ hm hnone hno
            rw [← h₂] at heq
            exact hmoved (heq.trans (hepoch₁.trans hepoch.symm))
          · exact hrec (h₂ ▸ hempty)
          · simp only [List.length_nil] at hseq
            omega
      · -- a commit the history holds touched the same records
        obtain ⟨p,hp,hint⟩ := List.any_eq_true.mp hany
        have hmem : p ∈ (e₁.run mid).history.recent := by
          rw [← h₂]
          exact List.mem_reverse.mp ((List.takeWhile_prefix _).subset hp)
        have hafter := List.mem_takeWhile_imp hp
        rw [hbase,← hlive₁] at hafter
        obtain ⟨t,ht,hpt⟩ := run_origin hinv₁ hm hmem (by simpa using hafter)
        exact Or.inl ⟨t,ht,herr t ht,hpt ▸ hint⟩
      · exact absurd rfl hclass
    · rw [hiso] at hser
      exact absurd hser (by decide)
    · refine Or.inr (Or.inr ⟨v,?_⟩)
      rw [← h₂]
      exact hv

end Engine

namespace Engine
section Sample
attribute [local instance] Json.compactText

/-- Two writers update one node: the transaction loses, and the direct write is the cause. -/
theorem conflict_has_cause_sample :
    let e₀ := (new 10000 false none true).run [.direct 1 (.mutation (.createNode (.titled "Note" "a") ⟨5,1⟩))]
    let e₁ := (e₀.txBegin .snapshot true).2
    let mid := [Action.txWrite 1 (.updateNode 1 { title := some "b" } ⟨6,2⟩),
      .direct 2 (.mutation (.updateNode 1 { title := some "c" } ⟨6,3⟩))]
    ((e₁.run mid).txCommit 1 true).1 = .error .conflict ∧
      ∃ slot, (e₁.run mid).txs[1]? = some slot ∧
        e₁.ConflictCaused mid slot ((e₁.run mid).step (.txCommit 1 true)) := by
  intro e₀ e₁ mid
  have hc : ((e₁.run mid).txCommit 1 true).1 = .error .conflict := by decide +kernel
  obtain ⟨slot,hs⟩ := Option.isSome_iff_exists.mp (show (e₁.run mid).txs[1]?.isSome by decide +kernel)
  have hbegin : e₀.txBegin .snapshot true = (1,e₁) := Prod.ext (by decide +kernel) rfl
  have hcaused := conflict_has_cause 10000 false none true
    [.direct 1 (.mutation (.createNode (.titled "Note" "a") ⟨5,1⟩))] mid [] true true (by decide) rfl
    hbegin rfl hs (Or.inr (Or.inr (by decide +kernel))) (by decide +kernel) hc
  exact ⟨hc,slot,hs,hcaused⟩

/-- A transaction writes a node; a direct write of a node that does not exist is refused. -/
def refusedWriteRun : List Action :=
  [.txWrite 1 (.createNode (.titled "Note" "a") ⟨5,1⟩),.direct 1 (.mutation (.updateNode 7 {} ⟨6,2⟩))]

/-- The transaction is refused although nothing was committed since it began. -/
theorem refused_write_causes_conflict :
    let e₁ := (new 10000 false none true).step (.txBegin .snapshot true)
    ∃ slot, (e₁.run refusedWriteRun).txs[1]? = some slot ∧
      ((e₁.run refusedWriteRun).txCommit 1 true).1 = .error .conflict ∧
      ¬ e₁.ConflictCaused refusedWriteRun slot ((e₁.run refusedWriteRun).step (.txCommit 1 true)) := by
  intro e₁
  have hlen : (e₁.committedIn refusedWriteRun).length = 0 := by decide +kernel
  have hnone := List.length_eq_zero_iff.mp hlen
  have hfree : (e₁.run refusedWriteRun).live.constraints = [] := by decide +kernel
  obtain ⟨slot,hs⟩ := Option.isSome_iff_exists.mp
    (show (e₁.run refusedWriteRun).txs[1]?.isSome by decide +kernel)
  refine ⟨slot,hs,by decide +kernel,?_⟩
  rintro (⟨t,ht,-⟩ | hmany | ⟨v,hv⟩)
  · simp [hnone] at ht
  · simp [hnone] at hmany
  · -- nothing is declared, so nothing can be broken
    have hmerged : ((e₁.run refusedWriteRun).merged slot).constraints = [] :=
      (Inner.constraints_of_schema (Inner.applyOps_schema _ slot.ops).schema).trans hfree
    simp [Inner.validateConstraints_nil hmerged] at hv

end Sample
end Engine
end Drevo
