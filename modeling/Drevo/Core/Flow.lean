import Drevo.Core.Source

/-! What reaches a reader of the feed. As long as no change overtakes a related one on its way
and the log refuses none, the graph a reader has, the changes it has not read and those still to
be published give the live graph. -/
namespace Drevo
open Lib

namespace Source

/-- The step publishes `pub` and makes `done` live, and accounts for both in what is under way. -/
structure Moves (s s' : Source) (pub done : List GraphOp) : Prop where
  feed : s'.feed = s.feed.publish (pub.map .graph)
  graph : s'.engine.live.graph = s.engine.live.graph.applyAll done
  flow : ∀ g : Graph, g.applyAll (s.underway ++ done) = g.applyAll (pub ++ s'.underway)

/-- A reader that has `g` and stands at `cursor`, if it is not told to start over, will have the
live graph once it has seen what is on the feed and what is under way. -/
def Follows (s : Source) (cursor : ℕ) (g : Graph) : Prop :=
  cursor ≤ s.feed.changeHead ∧ (s.feed.startSeq ≤ cursor →
    (g.applyAll ((s.feed.tail cursor).filterMap WalOp.change)).applyAll s.underway = s.engine.live.graph)

theorem Moves.follows {s s' : Source} {pub done : List GraphOp} (h : Moves s s' pub done) {cursor : ℕ} {g : Graph}
    (hf : s.Follows cursor g) : s'.Follows cursor g := by
  obtain ⟨hc,hg⟩ := hf
  refine ⟨?_,?_⟩
  · rw [h.feed,Feed.changeHead_publish]
    omega
  · intro hstart
    rw [h.feed,Feed.publish_startSeq] at hstart
    rw [h.feed,Feed.tail_publish hc,List.filterMap_append,filterMap_change,Graph.applyAll_append,
      ← Graph.applyAll_append _ pub,← h.flow,Graph.applyAll_append,hg hstart,h.graph]

theorem follows_trim {s : Source} {cursor floor : ℕ} {g : Graph} (hf : s.Follows cursor g) :
    Follows { s with feed := s.feed.trimBefore floor } cursor g := by
  obtain ⟨hc,hg⟩ := hf
  refine ⟨by rw [Feed.changeHead_trimBefore]; exact hc,?_⟩
  intro hstart
  rw [Feed.tail_trimBefore hstart]
  exact hg ((s.feed.startSeq_trimBefore floor).trans hstart)

theorem follows_snapshot {s : Source} (hq : s.underway = []) : s.Follows s.feed.changeHead s.engine.live.graph := by
  refine ⟨le_rfl,fun _ => ?_⟩
  rw [Feed.tail_changeHead,hq]
  rfl

theorem Quiet.underway {s : Source} (h : s.Quiet) : s.underway = [] := by
  obtain ⟨hb | hi,hw⟩ := h
  · simp [Source.underway,queued,hb,hw]
  · have hi : s.engine.queue.inFlight = [] := by simpa using hi
    simp [Source.underway,queued,hi,hw]

/-! ## Commuting on the way -/

theorem applyAll_past {ws : List (ℕ × List GraphOp)} {ops : List GraphOp}
    (h : ws.any (fun p => p.2.any (fun earlier => ops.any earlier.related)) = false) (g : Graph) :
    (g.applyAll (ws.flatMap Prod.snd)).applyAll ops = (g.applyAll ops).applyAll (ws.flatMap Prod.snd) := by
  refine Graph.applyAll_comm g ?_
  intro a ha b hb
  obtain ⟨p,hp,hap⟩ := List.mem_flatMap.mp ha
  simp only [List.any_eq_false,List.any_eq_true,not_exists,not_and,Bool.not_eq_true] at h
  exact h p hp a hap b hb

theorem applyAll_taken {ws : List (ℕ × List GraphOp)} (hn : (ws.map Prod.fst).Nodup) {call : ℕ}
    {p : ℕ × List GraphOp} (hf : ws.find? (fun p => p.1 = call) = some p) (hp : passes ws call = false) (g : Graph) :
    g.applyAll (ws.flatMap Prod.snd) = (g.applyAll p.2).applyAll ((ws.filter (fun p => p.1 ≠ call)).flatMap Prod.snd) := by
  obtain ⟨before,after,rfl,hsplit,htake,hrest⟩ := Engine.waiting_split hn hf
  simp only [passes,hf,htake] at hp
  have hcomm := applyAll_past hp g
  rw [hrest,hsplit]
  simp only [List.flatMap_append,List.flatMap_cons,Graph.applyAll_append]
  rw [hcomm]

/-! ## Every step -/

variable [JsonText]

/-- What holds of an engine and its feed in every state. -/
structure Inv (s : Source) : Prop where
  engine : s.engine.Inv
  numbered : s.engine.queue.Numbered
  records : s.engine.queue.broken = false → ∀ p ∈ s.engine.queue.inFlight, ∃ ops : List GraphOp, p.2 = ops.map .graph
  names : (s.waiting.map Prod.fst).Nodup
  named : ∀ p ∈ s.waiting, s.engine.calls[p.1]?.isSome
  logged : s.engine.durable = true → s.unpublished = []
  unlogged : s.engine.durable = false → s.engine.inflight = [] ∧ s.engine.queue.inFlight = []
  changes : ∀ op ∈ s.feed.ops, ∃ g, op = WalOp.graph g

theorem overtakes_locked (s : Source) {a : Action} (hw : a.isLocked = true) : s.overtakes (.act a) =
    s.waiting.any (fun p => p.2.any (fun earlier => (s.engine.committed a).any earlier.related)) := by
  cases a <;> first | rfl | cases hw

theorem loses_locked (s : Source) {a : Action} (hw : a.isLocked = true) : s.loses (.act a) =
    ((s.engine.step a).queue.broken && !s.engine.queue.broken && !s.engine.queue.inFlight.isEmpty) := by
  cases a <;> first | rfl | cases hw

omit [JsonText] in
theorem flatMap_records {e : Engine} {ps : List (ℕ × List WalOp)}
    (hr : ∀ p ∈ ps, ∃ ops : List GraphOp, p.2 = ops.map .graph) :
    (ps.map Prod.snd).flatten.flatMap e.feedOps = ps.flatMap (fun p => p.2.filterMap WalOp.change) := by
  induction ps with
  | nil => rfl
  | cons p ps ih =>
    obtain ⟨ops,hp⟩ := hr p (by simp)
    have hrest := ih (fun q hq => hr q (by simp [hq]))
    simp only [List.map_cons,List.flatten_cons,List.flatMap_append,List.flatMap_cons,hrest,hp,Engine.flatMap_feedOps,
      filterMap_change]

omit [JsonText] in
theorem queued_nil {s : Source} (h : s.engine.queue.broken = true ∨ s.engine.queue.inFlight = []) : s.queued = [] := by
  rcases h with h | h <;> simp [queued,h]

omit [JsonText] in
theorem flow_past {s s' : Source} {own : List GraphOp} (hq' : s'.queued = []) (hw : s'.waiting = s.waiting)
    (hp : s.waiting.any (fun p => p.2.any (fun earlier => own.any earlier.related)) = false) (g : Graph) :
    g.applyAll (s.underway ++ own) = g.applyAll ((s.queued ++ own) ++ s'.underway) := by
  simp only [underway,hq',hw,List.nil_append,Graph.applyAll_append]
  exact applyAll_past hp _

/-- A section that records under the lock. -/
theorem locked_moves {s : Source} (h : Inv s) {a : Action} (hw : a.isLocked = true)
    (ho : s.overtakes (.act a) = false) (hl : s.loses (.act a) = false) :
    ∃ pub done, Moves s (s.step (.act a)) pub done := by
  have hlock := Engine.step_locked h.numbered hw
  have hgraph := Engine.committed_graph h.engine hw
  rw [overtakes_locked s hw] at ho
  rw [loses_locked s hw] at hl
  by_cases hd : s.engine.durable = true
  · have hstep : s.step (.act a) = { s with
        engine := s.engine.step a
        feed := s.feed.publish ((((s.engine.step a).queue.log.drop s.engine.queue.log.length).flatten.flatMap
          s.engine.feedOps).map .graph) } := by
      simp only [step]
      rw [if_pos hd]
    have hwait : (s.step (.act a)).waiting = s.waiting := by
      rw [hstep]
      simp only [waiting,hlock.inflight]
    cases hlock.logged with
    | unused hq hops =>
      refine ⟨[],[],?_,?_,?_⟩
      · rw [hstep,hq]
        simp
      · rw [hstep]
        rw [hops hd] at hgraph
        exact hgraph
      · have hsame : (s.step (.act a)).underway = s.underway := by
          rw [underway,underway,hwait,hstep]
          simp only [queued,hq]
        intro g
        rw [hsame,List.append_nil,List.nil_append]
    | failed hdur hb hlog hops =>
      have hq : s.queued = [] := by
        refine queued_nil ?_
        cases hbr : s.engine.queue.broken with
        | true => exact Or.inl rfl
        | false => exact Or.inr (by simpa [hb,hbr] using hl)
      have hq' : (s.step (.act a)).queued = [] := queued_nil (Or.inl (by rw [hstep]; exact hb))
      refine ⟨[],[],?_,?_,?_⟩
      · rw [hstep,hlog]
        simp
      · rw [hstep]
        rw [hops] at hgraph
        exact hgraph
      · intro g
        simp only [underway,hq,hq',hwait,List.append_nil,List.nil_append]
    | flushed own hdur hb hb' hi hlog hops =>
      have hpub : ((s.engine.step a).queue.log.drop s.engine.queue.log.length).flatten.flatMap s.engine.feedOps =
          s.queued ++ s.engine.committed a := by
        rw [hlog,List.append_assoc,List.drop_left,List.flatten_append,List.flatMap_append,flatMap_records (h.records hb),
          queued,if_neg (by simp [hb])]
        simp [hops]
      have hq' : (s.step (.act a)).queued = [] := queued_nil (Or.inr (by rw [hstep]; exact hi))
      refine ⟨s.queued ++ s.engine.committed a,s.engine.committed a,?_,?_,flow_past hq' hwait ho⟩
      · rw [hstep,hpub]
      · rw [hstep]
        exact hgraph
  · have hoff : s.engine.durable = false := by simpa using hd
    have hhands : s.engine.handsOver a = [] := by
      cases a <;> first | rfl | cases hw
    have hstep : s.step (.act a) = ⟨s.engine.step a,s.feed.publish ((s.engine.committed a).map .graph),s.unpublished⟩ := by
      simp only [step]
      rw [if_neg hd,hhands,List.append_nil]
    obtain ⟨-,hqueue⟩ := h.unlogged hoff
    have hq : s.queued = [] := queued_nil (Or.inr hqueue)
    have hwait : (s.step (.act a)).waiting = s.waiting := by
      rw [hstep]
      simp only [waiting,hlock.inflight]
    cases hlock.logged with
    | unused hkeep hops =>
      have hq' : (s.step (.act a)).queued = [] := queued_nil (Or.inr (by rw [hstep]; exact hkeep ▸ hqueue))
      refine ⟨s.engine.committed a,s.engine.committed a,?_,?_,?_⟩
      · rw [hstep]
      · rw [hstep]
        exact hgraph
      · intro g
        have hf := flow_past hq' hwait ho g
        rwa [hq,List.nil_append] at hf
    | failed hdur => exact absurd hdur hd
    | flushed own hdur => exact absurd hdur hd

end Source

namespace Engine
variable [JsonText]

theorem step_hands {e : Engine} (h : Inv e) {a : Action} (hw : a.isUnlocked = true) :
    ∃ call ops, Hands e (e.step a) call ops ∧ e.handsOver a = handed call ops ∧
      (ops ≠ [] → e.calls[call]? = none) := by
  have hquiet : ∀ call, Hands e e call [] := fun call => .nothing rfl rfl rfl (fun _ hc => hc)
  have hfree : ∀ call : ℕ, ¬ e.calls.contains call = true → e.calls[call]? = none := by
    intro call hc
    rw [Map.contains_eq] at hc
    simpa using hc
  cases a with
  | direct call w =>
    simp only [step,handsOver]
    split_ifs with hc
    · exact ⟨call,[],hquiet call,rfl,fun hne => absurd rfl hne⟩
    · exact ⟨call,_,direct_hands e call w,rfl,fun _ => hfree call hc⟩
  | applyDump call dump =>
    simp only [step,handsOver]
    split_ifs with hc
    · exact ⟨call,[],hquiet call,rfl,fun hne => absurd rfl hne⟩
    · exact ⟨call,_,applyDump_hands e call dump,rfl,fun _ => hfree call hc⟩
  | deltaStep id call current =>
    simp only [step,handsOver]
    split_ifs with hc
    · exact ⟨call,[],hquiet call,rfl,fun hne => absurd rfl hne⟩
    · obtain ⟨ops,hh,-,hops⟩ := deltaStep_hands h.live id call current
      exact ⟨call,ops,hh,hops.symm,fun _ => hfree call hc⟩
  | _ => cases hw

omit [JsonText] in
@[simp] theorem handed_flatMap (call : ℕ) (ops : List GraphOp) : (handed call ops).flatMap Prod.snd = ops := by
  cases ops <;> simp [handed]

end Engine

namespace Source
variable [JsonText]

theorem handsOver_graph {s : Source} (h : Inv s) {a : Action} (hw : a.isUnlocked = true) (hl : s.loses (.act a) = false) :
    (s.engine.step a).live.graph = s.engine.live.graph.applyAll ((s.engine.handsOver a).flatMap Prod.snd) := by
  cases a with
  | direct call w =>
    simp only [Engine.step,Engine.handsOver]
    split_ifs
    · rfl
    · rw [Engine.handed_flatMap]
      exact (Engine.direct_section h.engine.live call w).live.graph
  | applyDump call dump =>
    simp only [Engine.step,Engine.handsOver]
    split_ifs with hc
    · rfl
    · rw [Engine.handed_flatMap]
      have hnot : (!s.engine.calls.contains call) = true := by simp only [Bool.eq_false_iff.mpr hc,Bool.not_false]
      simp only [loses,hnot,Bool.true_and] at hl
      exact Engine.importOps_graph h.engine.live call dump hl
  | deltaStep id call current =>
    simp only [Engine.step,Engine.handsOver]
    split_ifs
    · rfl
    · obtain ⟨ops,-,hg,hops⟩ := Engine.deltaStep_hands h.engine.live id call current
      rw [hg,← hops,Engine.handed_flatMap]
  | _ => cases hw

theorem step_act {s : Source} {a : Action} (hw : a.isLocked = false)
    (hlog : (s.engine.step a).queue.log = s.engine.queue.log) : s.step (.act a) =
      ⟨s.engine.step a,s.feed,s.unpublished ++ (if s.engine.durable then [] else s.engine.handsOver a)⟩ := by
  have hc : s.engine.committed a = [] := by
    cases a <;> first | rfl | cases hw
  simp only [step,hlog,hc]
  split <;> simp

theorem unlocked_moves {s : Source} (h : Inv s) {a : Action} (hw : a.isUnlocked = true)
    (hl : s.loses (.act a) = false) : ∃ pub done, Moves s (s.step (.act a)) pub done := by
  have hlocked : a.isLocked = false := by
    cases a <;> first | rfl | cases hw
  obtain ⟨call,ops,hh,hops,-⟩ := Engine.step_hands h.engine hw
  have hgraph := handsOver_graph h hw hl
  rw [hops,Engine.handed_flatMap] at hgraph
  refine ⟨[],ops,?_⟩
  rw [step_act hlocked (by rw [hh.queue]),hops]
  refine ⟨by simp,hgraph,?_⟩
  intro g
  have hwaiting : (waiting ⟨s.engine.step a,s.feed,
      s.unpublished ++ (if s.engine.durable then [] else Engine.handed call ops)⟩).flatMap Prod.snd =
      s.waiting.flatMap Prod.snd ++ ops := by
    cases hdur : s.engine.durable with
    | true =>
      have hu := h.logged hdur
      simp [waiting,hh.inflight,hdur,hu]
    | false => simp [waiting,hh.inflight,hdur]
  rw [underway,underway,hwaiting]
  simp only [queued,hh.queue,List.nil_append,List.append_assoc]

omit [JsonText] in
theorem flow_taken {s s' : Source} {pub : List GraphOp} (taken : List GraphOp) (hq : pub ++ s'.queued = s.queued ++ taken)
    (hw : ∀ g : Graph, g.applyAll (s.waiting.flatMap Prod.snd) = (g.applyAll taken).applyAll (s'.waiting.flatMap Prod.snd))
    (g : Graph) : g.applyAll (s.underway ++ []) = g.applyAll (pub ++ s'.underway) := by
  rw [underway,underway,List.append_nil,← List.append_assoc,hq]
  simp only [Graph.applyAll_append]
  exact hw _

theorem enqueue_moves {s : Source} (h : Inv s) {call : ℕ} {encoded : Bool}
    (ho : s.overtakes (.act (.enqueue call encoded)) = false) (hl : s.loses (.act (.enqueue call encoded)) = false) :
    ∃ pub done, Moves s (s.step (.act (.enqueue call encoded))) pub done := by
  cases hfind : s.engine.inflight.find? (fun p => p.1 = call) with
  | none =>
    have hsame : s.engine.step (.enqueue call encoded) = s.engine := by simp only [Engine.step,Engine.enqueue,hfind]
    refine ⟨[],[],?_⟩
    rw [step_act rfl (by rw [hsame]),hsame]
    refine ⟨by simp,rfl,fun g => ?_⟩
    simp [underway,queued,waiting,Engine.handsOver]
  | some p =>
    have hin : p ∈ s.engine.inflight := List.mem_of_find?_eq_some hfind
    have hname : p.1 = call := by simpa using List.find?_some hfind
    have hdur : s.engine.durable = true := by
      by_contra hoff
      have hnil := (h.unlogged (by simpa using hoff)).1
      simp [hnil] at hin
    have hu := h.logged hdur
    have hany : s.engine.inflight.any (fun p => p.1 = call) = true := List.any_eq_true.mpr ⟨p,hin,by simpa using hname⟩
    have henc : encoded = true ∧ s.engine.queue.broken = false := by simpa [loses,hany] using hl
    obtain ⟨rfl,hb⟩ := henc
    have hnames : (s.engine.inflight.map Prod.fst).Nodup := by
      have hn := h.names
      rwa [waiting,hu,List.append_nil] at hn
    have hrun : ∃ calls : Map ℕ CallState, s.engine.step (.enqueue call true) = { s.engine with
        inflight := s.engine.inflight.filter (fun p => p.1 ≠ call)
        queue := { s.engine.queue with
          pending := s.engine.queue.pending ++ [(s.engine.queue.nextSeq,p.2.map .graph)]
          nextSeq := s.engine.queue.nextSeq+1 }
        calls := calls } := by
      refine ⟨s.engine.calls.insert call (.waiting s.engine.queue.nextSeq),?_⟩
      simp only [Engine.step,Engine.enqueue,hfind,GroupQueue.enqueue,hb,Bool.false_eq_true,if_true,if_false]
    obtain ⟨calls,hrun⟩ := hrun
    refine ⟨[],[],?_⟩
    rw [step_act rfl (by rw [hrun]),hrun]
    refine ⟨by simp,rfl,flow_taken p.2 ?_ ?_⟩
    · simp [queued,hb,GroupQueue.inFlight,-List.filterMap_map]
    · intro g
      simp only [waiting,hu,hdur,List.append_nil,if_true]
      exact applyAll_taken hnames hfind ho g

theorem publish_moves {s : Source} (h : Inv s) {call : ℕ} (ho : s.overtakes (.publish call) = false) :
    ∃ pub done, Moves s (s.step (.publish call)) pub done := by
  cases hfind : s.unpublished.find? (fun p => p.1 = call) with
  | none =>
    refine ⟨[],[],?_⟩
    simp only [step,hfind]
    exact ⟨by simp,rfl,fun g => by simp⟩
  | some p =>
    have hin : p ∈ s.unpublished := List.mem_of_find?_eq_some hfind
    have hoff : s.engine.durable = false := by
      by_contra hdur
      have hnil := h.logged (by simpa using hdur)
      simp [hnil] at hin
    obtain ⟨hinflight,hqueue⟩ := h.unlogged hoff
    have hnames : (s.unpublished.map Prod.fst).Nodup := by
      have hn := h.names
      rwa [waiting,hinflight,List.nil_append] at hn
    refine ⟨p.2,[],?_⟩
    simp only [step,hfind]
    refine ⟨rfl,rfl,flow_taken p.2 ?_ ?_⟩
    · simp [queued,hqueue]
    · intro g
      simp only [waiting,hinflight,List.nil_append]
      exact applyAll_taken hnames hfind ho g

theorem quiet_moves {s : Source} {a : Action} (hw : a.isLocked = false) (hhands : s.engine.handsOver a = [])
    (hg : (s.engine.step a).live = s.engine.live) (hi : (s.engine.step a).inflight = s.engine.inflight)
    (hf : (s.engine.step a).queue.inFlight = s.engine.queue.inFlight)
    (hb : (s.engine.step a).queue.broken = s.engine.queue.broken)
    (hl : (s.engine.step a).queue.log = s.engine.queue.log) : Moves s (s.step (.act a)) [] [] := by
  rw [step_act hw hl,hhands]
  simp only [ite_self,List.append_nil]
  refine ⟨by simp,congrArg Inner.graph hg,fun g => ?_⟩
  simp only [underway,queued,waiting,hi,hf,hb,List.append_nil,List.nil_append]

/-- The end of a flush moves its batch from the queue to the feed. -/
theorem finish_moves {s : Source} (h : Inv s) {io : Bool} (hl : s.loses (.act (.finish io)) = false) :
    ∃ pub done, Moves s (s.step (.act (.finish io))) pub done := by
  cases hb : s.engine.queue.batch with
  | none =>
    have hsame : s.engine.queue.finish io = s.engine.queue := by simp only [GroupQueue.finish,hb]
    have hrun : s.engine.step (.finish io) = s.engine := by simp only [Engine.step,hsame]
    exact ⟨[],[],quiet_moves rfl rfl (by rw [hrun]) (by rw [hrun]) (by rw [hrun]) (by rw [hrun]) (by rw [hrun])⟩
  | some batch =>
    have hbr : s.engine.queue.broken = false := by
      by_contra hbr
      have hnone := h.numbered.halted (by simpa using hbr)
      rw [hb] at hnone
      cases hnone
    have hin : s.engine.queue.inFlight = batch ++ s.engine.queue.pending := by simp [GroupQueue.inFlight,hb]
    cases io with
    | false =>
      have hnil : s.engine.queue.inFlight = [] := by
        simpa [loses,Engine.step,GroupQueue.finish,hb,hbr] using hl
      have hrun : s.engine.step (.finish false) =
          { s.engine with queue := { s.engine.queue with batch := none, broken := true } } := by
        simp [Engine.step,GroupQueue.finish,hb]
      refine ⟨[],[],?_⟩
      rw [step_act rfl (by rw [hrun]),hrun]
      refine ⟨by simp,rfl,fun g => ?_⟩
      simp [underway,queued,waiting,hnil,Engine.handsOver]
    | true =>
      have hrun : ∃ seq, s.engine.step (.finish true) =
          { s.engine with queue := { s.engine.queue with
            batch := none, log := s.engine.queue.log ++ batch.map Prod.snd, durableSeq := seq } } := by
        simp only [Engine.step,GroupQueue.finish,hb,if_true]
        exact ⟨_,rfl⟩
      obtain ⟨seq,hrun⟩ := hrun
      have hrecords := h.records hbr
      rw [hin] at hrecords
      by_cases hdur : s.engine.durable = true
      · refine ⟨batch.flatMap (fun p => p.2.filterMap WalOp.change),[],?_⟩
        have hpub : ((batch.map Prod.snd).flatten.flatMap s.engine.feedOps) =
            batch.flatMap (fun p => p.2.filterMap WalOp.change) :=
          flatMap_records (fun p hp => hrecords p (List.mem_append_left _ hp))
        simp only [step]
        rw [if_pos hdur,hrun]
        refine ⟨by simp only [List.drop_left,hpub],rfl,fun g => ?_⟩
        simp [underway,queued,waiting,hbr,hb,GroupQueue.inFlight]
      · obtain ⟨-,hqueue⟩ := h.unlogged (by simpa using hdur)
        obtain ⟨rfl,hpending⟩ := List.append_eq_nil_iff.mp (hin.symm.trans hqueue)
        refine ⟨[],[],quiet_moves rfl rfl (by rw [hrun]) (by rw [hrun]) ?_ (by rw [hrun]) (by rw [hrun]; simp)⟩
        rw [hrun,hqueue]
        simp [GroupQueue.inFlight,hpending]

theorem step_moves {s : Source} (h : Inv s) {a : SourceStep} (ht : a.isTrim = false)
    (ho : s.overtakes a = false) (hl : s.loses a = false) : ∃ pub done, Moves s (s.step a) pub done := by
  cases a with
  | trimBefore cursor => cases ht
  | publish call => exact publish_moves h ho
  | act a =>
    cases a with
    | enqueue call encoded => exact enqueue_moves h ho hl
    | lead =>
      obtain ⟨hlog,-,-,hbr⟩ := GroupQueue.lead_frame s.engine.queue
      exact ⟨[],[],quiet_moves rfl rfl rfl rfl (GroupQueue.lead_inFlight _) hbr hlog⟩
    | finish io => exact finish_moves h hl
    | await call =>
      obtain ⟨-,hi,hq⟩ := Engine.await_frame s.engine call
      exact ⟨[],[],quiet_moves rfl rfl (Engine.await_core s.engine call).live hi (congrArg GroupQueue.inFlight hq)
        (congrArg GroupQueue.broken hq) (congrArg GroupQueue.log hq)⟩
    | direct call w => exact unlocked_moves h rfl hl
    | applyDump call dump => exact unlocked_moves h rfl hl
    | deltaStep id call current => exact unlocked_moves h rfl hl
    | _ => exact locked_moves h rfl ho hl

/-! ## The invariant -/

theorem publish_changes {s : Source} (h : Inv s) (ops : List GraphOp) :
    ∀ op ∈ (s.feed.publish (ops.map .graph)).ops, ∃ g, op = WalOp.graph g := by
  intro op hop
  rcases List.mem_append.mp hop with hop | hop
  · exact h.changes op hop
  · obtain ⟨g,-,rfl⟩ := List.mem_map.mp hop
    exact ⟨g,rfl⟩

theorem act_changes {s : Source} (h : Inv s) (a : Action) :
    ∀ op ∈ (s.step (.act a)).feed.ops, ∃ g, op = WalOp.graph g := by
  simp only [step]
  split <;> exact publish_changes h _

theorem locked_inv {s : Source} (h : Inv s) {a : Action} (hw : a.isLocked = true) : Inv (s.step (.act a)) := by
  have hlock := Engine.step_locked h.numbered hw
  have hengine : (s.step (.act a)).engine = s.engine.step a := by
    simp only [step]
    split <;> rfl
  have hunpublished : (s.step (.act a)).unpublished = s.unpublished := by
    have hhands : s.engine.handsOver a = [] := by
      cases a <;> first | rfl | cases hw
    simp only [step,hhands,List.append_nil]
    split <;> rfl
  have hwait : (s.step (.act a)).waiting = s.waiting := by
    rw [waiting,waiting,hengine,hunpublished,hlock.inflight]
  refine ⟨?_,?_,?_,?_,?_,?_,?_,act_changes h a⟩
  · rw [hengine]
    exact Engine.step_inv h.engine a
  · rw [hengine]
    exact hlock.numbered
  · rw [hengine]
    cases hlock.logged with
    | unused hq => exact hq ▸ h.records
    | failed hd hb => exact fun hb' => by simp [hb] at hb'
    | flushed own hd hb hb' hi => simp [hi]
  · rw [hwait]
    exact h.names
  · rw [hwait,hengine,hlock.calls]
    exact h.named
  · rw [hengine,hunpublished,hlock.durable]
    exact h.logged
  · rw [hengine,hlock.durable,hlock.inflight]
    intro hd
    obtain ⟨hi,hq⟩ := h.unlogged hd
    refine ⟨hi,?_⟩
    cases hlock.logged with
    | unused hkeep => exact hkeep ▸ hq
    | failed hd' => simp [hd] at hd'
    | flushed own hd' => simp [hd] at hd'

theorem unlocked_inv {s : Source} (h : Inv s) {a : Action} (hw : a.isUnlocked = true) : Inv (s.step (.act a)) := by
  have hinv := Engine.step_inv h.engine a
  have hlocked : a.isLocked = false := by
    cases a <;> first | rfl | cases hw
  obtain ⟨call,ops,hh,hops,hfree⟩ := Engine.step_hands h.engine hw
  rw [step_act hlocked (by rw [hh.queue]),hops]
  have hperm : List.Perm (waiting ⟨s.engine.step a,s.feed,
      s.unpublished ++ (if s.engine.durable then [] else Engine.handed call ops)⟩) (s.waiting ++ Engine.handed call ops) := by
    cases hdur : s.engine.durable with
    | true =>
      have hu := h.logged hdur
      simp [waiting,hh.inflight,hdur,hu]
    | false => simp [waiting,hh.inflight,hdur]
  have hother : ops ≠ [] → ∀ p ∈ s.waiting, p.1 ≠ call := by
    rintro hne p hp rfl
    have hp' := h.named p hp
    simp [hfree hne] at hp'
  refine ⟨hinv,hh.queue ▸ h.numbered,hh.queue ▸ h.records,?_,?_,?_,?_,h.changes⟩
  · rw [(hperm.map Prod.fst).nodup_iff]
    cases ops with
    | nil => simpa [Engine.handed] using h.names
    | cons op ops =>
      have hnew : Engine.handed call (op :: ops) = [(call,op :: ops)] := rfl
      rw [hnew,List.map_append,List.nodup_append]
      refine ⟨h.names,by simp,?_⟩
      intro c hc d hd
      obtain ⟨p,hp,rfl⟩ := List.mem_map.mp hc
      obtain rfl : d = call := by simpa using hd
      exact hother (by simp) p hp
  · intro p hp
    rcases List.mem_append.mp (hperm.mem_iff.mp hp) with hp | hp
    · exact hh.calls p.1 (h.named p hp)
    · cases ops with
      | nil => simp [Engine.handed] at hp
      | cons op ops =>
        obtain rfl : p = (call,op :: ops) := by simpa [Engine.handed] using hp
        exact hh.named (by simp)
  · intro hdur
    simp only [hh.durable] at hdur
    simp [hdur,h.logged hdur]
  · intro hoff
    simp only [hh.durable] at hoff
    obtain ⟨hnil,hqueue⟩ := h.unlogged hoff
    exact ⟨by simp [hh.inflight,hoff,hnil],by simp only [hh.queue]; exact hqueue⟩

/-- A step that only moves records within the queue, or ends a call. -/
theorem queue_inv {s : Source} (h : Inv s) {a : Action}
    (hhands : s.engine.handsOver a = []) (hd : (s.engine.step a).durable = s.engine.durable)
    (hi : (s.engine.step a).inflight = s.engine.inflight)
    (hc : ∀ call : ℕ, (s.engine.calls[call]?).isSome → ((s.engine.step a).calls[call]?).isSome)
    (hn : (s.engine.step a).queue.Numbered)
    (hf : ∀ p ∈ (s.engine.step a).queue.inFlight, p ∈ s.engine.queue.inFlight)
    (hb : (s.engine.step a).queue.broken = false → s.engine.queue.broken = false) : Inv (s.step (.act a)) := by
  have hengine : (s.step (.act a)).engine = s.engine.step a := by
    simp only [step]
    split <;> rfl
  have hunpublished : (s.step (.act a)).unpublished = s.unpublished := by
    simp only [step,hhands,List.append_nil]
    split <;> rfl
  have hwait : (s.step (.act a)).waiting = s.waiting := by
    rw [waiting,waiting,hengine,hunpublished,hi]
  refine ⟨?_,?_,?_,?_,?_,?_,?_,act_changes h a⟩
  · rw [hengine]
    exact Engine.step_inv h.engine a
  · rw [hengine]
    exact hn
  · rw [hengine]
    exact fun hbr p hp => h.records (hb hbr) p (hf p hp)
  · rw [hwait]
    exact h.names
  · rw [hwait,hengine]
    exact fun p hp => hc p.1 (h.named p hp)
  · rw [hengine,hunpublished,hd]
    exact h.logged
  · rw [hengine,hd,hi]
    intro hoff
    obtain ⟨hnil,hq⟩ := h.unlogged hoff
    refine ⟨hnil,List.eq_nil_iff_forall_not_mem.mpr ?_⟩
    intro p hp
    have hp := hf p hp
    simp [hq] at hp

theorem enqueue_inv {s : Source} (h : Inv s) (call : ℕ) (encoded : Bool) :
    Inv (s.step (.act (.enqueue call encoded))) := by
  cases hfind : s.engine.inflight.find? (fun p => p.1 = call) with
  | none =>
    have hsame : s.engine.step (.enqueue call encoded) = s.engine := by simp only [Engine.step,Engine.enqueue,hfind]
    refine queue_inv h rfl ?_ ?_ ?_ ?_ ?_ ?_ <;> rw [hsame]
    · exact fun c hc => hc
    · exact h.numbered
    · exact fun p hp => hp
    · exact fun hb => hb
  | some p =>
    have hin : p ∈ s.engine.inflight := List.mem_of_find?_eq_some hfind
    have hdur : s.engine.durable = true := by
      by_contra hoff
      have hnil := (h.unlogged (by simpa using hoff)).1
      simp [hnil] at hin
    have hinv := Engine.step_inv h.engine (.enqueue call encoded)
    have hsub : (s.engine.inflight.filter (fun p => p.1 ≠ call)).Sublist s.engine.inflight := List.filter_sublist
    have hrest : ∀ st (q : GroupQueue (List WalOp)), q.Numbered →
        (q.broken = false → ∀ p ∈ q.inFlight, ∃ ops : List GraphOp, p.2 = ops.map .graph) →
        Inv ⟨{ s.engine with
          inflight := s.engine.inflight.filter (fun p => p.1 ≠ call)
          queue := q
          calls := s.engine.calls.insert call st },s.feed,s.unpublished⟩ := by
      intro st q hn hr
      have hwaiting : ((s.engine.inflight.filter (fun p => p.1 ≠ call)) ++ s.unpublished).Sublist s.waiting :=
        hsub.append (List.Sublist.refl _)
      refine ⟨h.engine.of_core (by constructor <;> rfl),hn,hr,?_,?_,h.logged,?_,h.changes⟩
      · exact h.names.sublist (hwaiting.map _)
      · exact fun p hp => (Engine.calls_insert rfl).1 p.1 (h.named p (hwaiting.subset hp))
      · exact fun hoff => absurd (show s.engine.durable = false from hoff) (by simp [hdur])
    have hlog : (s.engine.step (.enqueue call encoded)).queue.log = s.engine.queue.log := by
      simp only [Engine.step,Engine.enqueue,hfind]
      cases henq : (if encoded then s.engine.queue.enqueue (p.2.map .graph) else none) with
      | none => rfl
      | some r =>
        obtain ⟨seq,q⟩ := r
        have henq : s.engine.queue.enqueue (p.2.map .graph) = some (seq,q) := by
          cases encoded with
          | false => simp at henq
          | true => simpa using henq
        obtain ⟨-,-,hq⟩ := GroupQueue.enqueue_eq henq
        simp only [hq]
    rw [step_act rfl hlog,if_pos hdur,List.append_nil]
    simp only [Engine.step,Engine.enqueue,hfind]
    cases henq : (if encoded then s.engine.queue.enqueue (p.2.map .graph) else none) with
    | none => exact hrest _ _ h.numbered h.records
    | some r =>
      obtain ⟨seq,q⟩ := r
      have henq : s.engine.queue.enqueue (p.2.map .graph) = some (seq,q) := by
        cases encoded with
        | false => simp at henq
        | true => simpa using henq
      have hf := GroupQueue.enqueue_inFlight henq
      refine hrest _ _ (h.numbered.enqueue henq) ?_
      obtain ⟨hb,-,-⟩ := GroupQueue.enqueue_eq henq
      intro _ r hr
      rw [hf] at hr
      rcases List.mem_append.mp hr with hr | hr
      · exact h.records hb r hr
      · obtain rfl : r = (seq,p.2.map .graph) := by simpa using hr
        exact ⟨p.2,rfl⟩

theorem publish_inv {s : Source} (h : Inv s) (call : ℕ) : Inv (s.step (.publish call)) := by
  simp only [step]
  split
  · exact h
  · have hwaiting : (waiting { s with unpublished := s.unpublished.filter (fun p => p.1 ≠ call) }).Sublist s.waiting :=
      (List.Sublist.refl _).append List.filter_sublist
    refine ⟨h.engine,h.numbered,h.records,h.names.sublist (hwaiting.map _),?_,?_,h.unlogged,publish_changes h _⟩
    · exact fun p hp => h.named p (hwaiting.subset hp)
    · intro hdur
      simp [h.logged hdur]

omit [JsonText] in
theorem finish_inFlight {q : GroupQueue (List WalOp)} {io : Bool} {p : ℕ × List WalOp}
    (hp : p ∈ (q.finish io).inFlight) : p ∈ q.inFlight := by
  unfold GroupQueue.finish at hp
  cases hb : q.batch with
  | none => simpa only [hb] using hp
  | some batch => cases io <;> simp_all [GroupQueue.inFlight]

theorem step_inv {s : Source} (h : Inv s) (a : SourceStep) : Inv (s.step a) := by
  cases a with
  | trimBefore cursor =>
    exact ⟨h.engine,h.numbered,h.records,h.names,h.named,h.logged,h.unlogged,
      fun op hop => h.changes op (Feed.mem_trimBefore hop)⟩
  | publish call => exact publish_inv h call
  | act a =>
    cases a with
    | enqueue call encoded => exact enqueue_inv h call encoded
    | lead =>
      obtain ⟨-,-,-,hbr⟩ := GroupQueue.lead_frame s.engine.queue
      refine queue_inv h rfl rfl rfl (fun c hc => hc) h.numbered.lead ?_ (fun hb => hbr ▸ hb)
      intro p hp
      exact GroupQueue.lead_inFlight s.engine.queue ▸ hp
    | finish io =>
      refine queue_inv h rfl rfl rfl (fun c hc => hc) (h.numbered.finish io) (fun p hp => finish_inFlight hp) ?_
      intro hb
      cases hbr : s.engine.queue.broken with
      | false => rfl
      | true =>
        have hnone := h.numbered.halted hbr
        simp [Engine.step,GroupQueue.finish,hnone,hbr] at hb
    | await call =>
      obtain ⟨hd,hi,hq⟩ := Engine.await_frame s.engine call
      have hq : (s.engine.step (.await call)).queue = s.engine.queue := hq
      exact queue_inv h rfl hd hi (fun c hc => Engine.await_calls s.engine call hc) (hq ▸ h.numbered)
        (fun p hp => hq ▸ hp) (fun hb => hq ▸ hb)
    | direct call w => exact unlocked_inv h rfl
    | applyDump call dump => exact unlocked_inv h rfl
    | deltaStep id call current => exact unlocked_inv h rfl
    | _ => exact locked_inv h rfl

theorem step_follows {s : Source} (h : Inv s) {a : SourceStep} (ho : s.overtakes a = false)
    (hl : s.loses a = false) {cursor : ℕ} {g : Graph} (hf : s.Follows cursor g) : (s.step a).Follows cursor g := by
  by_cases ht : a.isTrim = true
  · cases a with
    | trimBefore floor => exact follows_trim hf
    | _ => cases ht
  · obtain ⟨pub,done,hmoves⟩ := step_moves h (by simpa using ht) ho hl
    exact hmoves.follows hf

/-! ## Opening -/

omit [JsonText] in
/-- What a feed counts as already behind a state that was recovered. -/
def recovered (s : Inner) : ℕ := s.nodes.size+s.edges.size+s.embeddings.size+s.prepared.size

/-- A source on a log, or in memory where there is none. The feed of one that was recovered
starts empty behind the recovered state. -/
def opened (capacity : ℕ) (readOnly : Bool) (maxTxWrites : Option ℕ) : Option (List (List WalOp)) → Source
  | none => { engine := .new capacity readOnly maxTxWrites false }
  | some log =>
    let engine := Engine.openLog capacity readOnly maxTxWrites log
    { engine := engine, feed := { startSeq := recovered engine.live } }

theorem opened_inv (capacity : ℕ) (readOnly : Bool) (maxTxWrites : Option ℕ) (log : Option (List (List WalOp))) :
    Inv (opened capacity readOnly maxTxWrites log) := by
  cases log with
  | none =>
    exact ⟨Engine.new_inv capacity readOnly maxTxWrites false,GroupQueue.numbered_new [],by simp [opened,Engine.new,
      GroupQueue.inFlight],List.nodup_nil,by simp [opened,waiting,Engine.new],fun _ => rfl,fun _ => ⟨rfl,rfl⟩,
      by simp [opened]⟩
  | some log =>
    exact ⟨Engine.openLog_inv capacity readOnly maxTxWrites log,GroupQueue.numbered_new log,by simp [opened,
      Engine.openLog,GroupQueue.inFlight],List.nodup_nil,by simp [opened,waiting,Engine.openLog],fun _ => rfl,
      fun _ => ⟨rfl,rfl⟩,by simp [opened]⟩

theorem opened_follows (capacity : ℕ) (readOnly : Bool) (maxTxWrites : Option ℕ) (log : Option (List (List WalOp))) :
    (opened capacity readOnly maxTxWrites log).Follows 0 {} := by
  cases log with
  | none => exact ⟨Nat.zero_le _,fun _ => rfl⟩
  | some log =>
    refine ⟨Nat.zero_le _,?_⟩
    intro hstart
    have hsum : recovered (Engine.openLog capacity readOnly maxTxWrites log).live = 0 := Nat.le_zero.mp hstart
    simp only [recovered,Nat.add_eq_zero_iff] at hsum
    obtain ⟨⟨⟨hn,he⟩,hv⟩,-⟩ := hsum
    have hgraph : (Engine.openLog capacity readOnly maxTxWrites log).live.graph = {} :=
      Graph.ext (Std.ExtTreeMap.eq_empty_iff_size_eq_zero.mpr hn) (Std.ExtTreeMap.eq_empty_iff_size_eq_zero.mpr he)
        (Std.ExtTreeMap.eq_empty_iff_size_eq_zero.mpr hv)
    have hway : (opened capacity readOnly maxTxWrites (some log)).underway = [] := by
      simp [opened,underway,queued,waiting,Engine.openLog,GroupQueue.inFlight]
    rw [hway]
    simp only [opened,Feed.tail,List.drop_nil,List.filterMap_nil,Graph.applyAll_nil]
    exact hgraph.symm

end Source
end Drevo
