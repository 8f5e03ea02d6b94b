import Drevo.Core.Dump
import Drevo.Core.Flow

/-! Calls from their start to their return, with no other thread in between. A direct write
changes the graph under the lock and is logged after it has left the lock: if the log refuses its
record the call fails, and what it changed stays for later reads. -/
namespace Drevo
open Lib

namespace Source
variable [JsonText]

def run (s : Source) (as : List SourceStep) : Source := as.foldl step s

/-- The rest of a call that has left the lock: it publishes or queues its record, waits for a
flush under way and leads the next one. -/
def settle (s : Source) (call : ℕ) (encoded io : Bool) : Source :=
  let s := s.run [.publish call,.act (.enqueue call encoded)]
  match s.engine.calls[call]? with
  | some (.waiting _) => s.run [.act (.finish io),.act .lead,.act (.finish io),.act (.await call)]
  | _ => s

/-- A direct write by itself. -/
def directCall (s : Source) (call : ℕ) (w : DirectWrite) (encoded io : Bool) : Source :=
  (s.step (.act (.direct call w))).settle call encoded io

omit [JsonText] in
/-- The call has returned an error. -/
def failed (s : Source) (call : ℕ) : Bool := s.engine.calls[call]? = some .err

omit [JsonText] in
/-- The log takes a record now: it can be encoded, and the log is not broken and flushes. -/
def logs (s : Source) (encoded io : Bool) : Bool := encoded && !s.engine.queue.broken && io

@[simp] theorem step_act_engine (s : Source) (a : Action) : (s.step (.act a)).engine = s.engine.step a := by
  simp only [step]
  split <;> rfl

theorem step_act_feed {s : Source} {a : Action} (hd : s.engine.durable = true)
    (hlog : (s.engine.step a).queue.log = s.engine.queue.log) : (s.step (.act a)).feed = s.feed := by
  simp [step,hd,hlog]

theorem step_publish_none {s : Source} {call : ℕ} (h : s.unpublished = []) : s.step (.publish call) = s := by
  simp [step,h]

/-- What the rest of a call leaves: the live state in any case, and if it failed the log and the
feed too. -/
structure Settles (s s' : Source) (call : ℕ) (ok : Bool) : Prop where
  live : s'.engine.live = s.engine.live
  failed : s'.failed call = !ok
  log : ok = false → s'.engine.queue.log = s.engine.queue.log
  feed : ok = false → s'.feed = s.feed

omit [JsonText] in
theorem finish_false_log {α : Type} (q : GroupQueue α) : (q.finish false).log = q.log := by
  unfold GroupQueue.finish
  cases q.batch <;> rfl

theorem flush_false_feed {t : Source} (hd : t.engine.durable = true) (call : ℕ) :
    (t.run [.act (.finish false),.act .lead,.act (.finish false),.act (.await call)]).feed = t.feed := by
  have hfinish : ∀ u : Source, u.engine.durable = true → (u.step (.act (.finish false))).feed = u.feed :=
    fun u hu => step_act_feed hu (finish_false_log _)
  have hlead : ∀ u : Source, u.engine.durable = true → (u.step (.act .lead)).feed = u.feed :=
    fun u hu => step_act_feed hu (GroupQueue.lead_frame _).1
  have hawait : ∀ u : Source, u.engine.durable = true → (u.step (.act (.await call))).feed = u.feed :=
    fun u hu => step_act_feed hu (congrArg GroupQueue.log (Engine.await_frame _ call).2.2)
  simp only [run,List.foldl_cons,List.foldl_nil]
  rw [hawait,hfinish,hlead,hfinish]
  all_goals simp only [step_act_engine,Engine.step,hd]

theorem settle_spec {s : Source} (h : Inv s) (hd : s.engine.durable = true) {call : ℕ} {ops : List GraphOp}
    (hfind : s.engine.inflight.find? (fun p => p.1 = call) = some (call,ops)) (encoded io : Bool) :
    Settles s (s.settle call encoded io) call (s.logs encoded io) := by
  have hrun : s.run [.publish call,.act (.enqueue call encoded)] = s.step (.act (.enqueue call encoded)) := by
    simp only [run,List.foldl_cons,List.foldl_nil,step_publish_none (h.logged hd)]
  cases henq : (if encoded then s.engine.queue.enqueue (ops.map .graph) else none) with
  | none =>
    have hengine : s.engine.step (.enqueue call encoded) = { s.engine with
        inflight := s.engine.inflight.filter (fun p => p.1 ≠ call)
        calls := s.engine.calls.insert call .err } := by
      simp only [Engine.step,Engine.enqueue,hfind,henq]
    have hlogs : s.logs encoded io = false := by
      cases encoded with
      | false => rfl
      | true =>
        cases hb : s.engine.queue.broken with
        | true => simp [logs,hb]
        | false => simp [GroupQueue.enqueue,hb] at henq
    have hstate : s.settle call encoded io = s.step (.act (.enqueue call encoded)) := by
      simp [settle,hrun,hengine]
    rw [hstate,hlogs]
    refine ⟨by simp [hengine],by simp [failed,hengine],fun _ => by simp [hengine],fun _ => ?_⟩
    exact step_act_feed hd (by rw [hengine])
  | some r =>
    obtain ⟨seq,q⟩ := r
    have hencoded : encoded = true := by
      cases encoded with
      | true => rfl
      | false => simp at henq
    subst hencoded
    simp only [if_true] at henq
    obtain ⟨hbr,-,hq⟩ := GroupQueue.enqueue_eq henq
    have hqueue : s.engine.queue.commit (ops.map .graph) io =
        (decide (seq ≤ (((q.finish io).lead).finish io).durableSeq),((q.finish io).lead).finish io) := by
      simp only [GroupQueue.commit,henq,ge_iff_le]
    have hiff := GroupQueue.commit_iff h.numbered (ops.map WalOp.graph) io
    have hlogs : s.logs true io = io := by simp [logs,hbr]
    obtain ⟨e,hengine⟩ : ∃ e, s.engine.step (.enqueue call true) = e := ⟨_,rfl⟩
    have he : e = { s.engine with
        inflight := s.engine.inflight.filter (fun p => p.1 ≠ call)
        queue := q
        calls := s.engine.calls.insert call (.waiting seq) } := by
      simp only [← hengine,Engine.step,Engine.enqueue,hfind,if_true,henq]
    have hcalls : e.calls[call]? = some (.waiting seq) := by simp [he]
    have hstate : s.settle call true io = (s.step (.act (.enqueue call true))).run
        [.act (.finish io),.act .lead,.act (.finish io),.act (.await call)] := by
      simp only [settle,hrun,step_act_engine,hengine,hcalls]
    obtain ⟨t,ht⟩ : ∃ t, s.step (.act (.enqueue call true)) = t := ⟨_,rfl⟩
    have hte : t.engine = e := by rw [← ht,step_act_engine,hengine]
    have hend : (s.settle call true io).engine =
        Engine.await { e with queue := (((q.finish io).lead).finish io) } call := by
      have hqe : e.queue = q := by rw [he]
      simp only [hstate,ht,run,List.foldl_cons,List.foldl_nil,step_act_engine,Engine.step,hte,hqe]
    have hlive : (s.settle call true io).engine.live = s.engine.live := by
      rw [hend,(Engine.await_core _ call).live,he]
    rw [hlogs]
    rw [hqueue] at hiff
    cases io with
    | true =>
      have hdurable : seq ≤ (((q.finish true).lead).finish true).durableSeq := by simpa [hbr] using hiff
      refine ⟨hlive,?_,by simp,by simp⟩
      simp [failed,hend,Engine.await,hcalls,hdurable]
    | false =>
      have hshort : ¬ seq ≤ (((q.finish false).lead).finish false).durableSeq := by simpa using hiff
      obtain ⟨hbroken,hlog⟩ := @GroupQueue.commit_false _ s.engine.queue (ops.map WalOp.graph) false
        (by rw [hqueue]; simpa using hshort)
      rw [hqueue] at hbroken hlog
      refine ⟨hlive,?_,fun _ => ?_,fun _ => ?_⟩
      · have hb : (((q.finish false).lead).finish false).broken = true := hbroken
        simp [failed,hend,Engine.await,hcalls,hshort,hb]
      · rw [hend,(Engine.await_frame _ call).2.2]
        exact hlog
      · have hdur : t.engine.durable = true := by rw [hte,he]; exact hd
        have hlog : (s.engine.step (.enqueue call true)).queue.log = s.engine.queue.log := by rw [hengine,he,hq]
        rw [hstate,ht,flush_false_feed hdur,← ht]
        exact step_act_feed hd hlog

end Source

/-! ## What a refused record leaves behind -/

namespace Inner

/-- The states differ at most in the id counters and the commit count, which no read returns. -/
def SameRecords (s t : Inner) : Prop := { s with ids := t.ids, commitSeq := t.commitSeq } = t

theorem SameRecords.graph {s t : Inner} (h : s.SameRecords t) : t.graph = s.graph := (congrArg Inner.graph h).symm

theorem SameRecords.lastUpdatedAt {s t : Inner} (h : s.SameRecords t) : t.lastUpdatedAt = s.lastUpdatedAt :=
  (congrArg Inner.lastUpdatedAt h).symm

theorem sameRecords_load {e : Engine} {t : Inner} : (e.load e.live).SameRecords t ↔ e.live.SameRecords t := Iff.rfl

theorem sameRecords_commitSeq {s t : Inner} {n : ℕ} : s.SameRecords { t with commitSeq := n } ↔ s.SameRecords t := by
  unfold SameRecords
  constructor
  · intro h
    have hs := congrArg (fun u : Inner => { u with commitSeq := t.commitSeq }) h
    exact hs
  · intro h
    have hs := congrArg (fun u : Inner => { u with commitSeq := n }) h
    exact hs

theorem sameRecords_of_agree {s t : Inner} (h : Agree s t) : s.SameRecords t := by
  unfold SameRecords
  rw [h.commitSeq]
  exact h

end Inner

section Writes
variable [JsonText]

/-- The mutation asks for something the checks before it forbid. -/
def Mutation.refused (s : Inner) : Mutation → Bool
  | .createNode newNode mint => !(s.checkNode (newNode.intoNode (s.ids.node+1) mint) true).toBool
  | .updateNode id patch _ =>
    match s.nodes[id]? with
    | none => true
    | some old => !(s.checkNode (Inner.patchNode old patch) true).toBool
  | .deleteNode id => s.nodes[id]?.isNone
  | .createEdge newEdge _ =>
    !newEdge.weight.isFinite || !s.nodes.contains newEdge.fromId || !s.nodes.contains newEdge.toId
  | .updateEdge id patch => (patch.weight.filter (fun w => !w.isFinite)).isSome || s.edges[id]?.isNone
  | .deleteEdge id => !s.edges.contains id

namespace DirectWrite

def refused (s : Inner) : DirectWrite → Bool
  | .mutation m => m.refused s
  | .setEmbedding id _ => !s.nodes.contains id
  | .setEmbeddings embeddings => embeddings.any (fun p => !s.nodes.contains p.1)
  | .deleteEmbedding _ => false

omit [JsonText] in
/-- The write asks for what is there already. -/
def inert (s : Inner) : DirectWrite → Bool
  | .mutation (.updateEdge id patch) => s.edges[id]?.any (fun old => Inner.patchEdge old patch = old)
  | .setEmbedding id vector => s.embeddings[id]? = some vector
  | .deleteEmbedding id => s.embeddings[id]? = none
  | _ => false

omit [JsonText] in
/-- A write of one record. -/
def isSingle : DirectWrite → Bool
  | .setEmbeddings _ => false
  | _ => true

end DirectWrite

namespace Inner

/-- A mutation that is refused changes nothing but the id counters. -/
theorem mutate_refused {s : Inner} {m : Mutation} (h : m.refused s = true) :
    ∃ err t, s.mutate m true = (.error err,t) ∧ Agree s t := by
  have herr : ∃ err, (s.mutate m true).1 = .error err := by
    cases m with
    | createNode newNode mint =>
      cases hc : s.checkNode (newNode.intoNode (s.ids.node+1) mint) true with
      | ok u => simp [Mutation.refused,hc,Except.toBool] at h
      | error v =>
        refine ⟨.constraintViolation v,?_⟩
        simp only [mutate,createNodeChecked]
        have hc' : ({ s with ids := { s.ids with node := s.ids.node+1 } } : Inner).checkNode
            (newNode.intoNode (s.ids.node+1) mint) true = .error v := hc
        simp [hc',Except.map]
    | updateNode id patch mint =>
      cases hn : s.nodes[id]? with
      | none => exact ⟨.nodeNotFound id,by simp [mutate,updateNodeChecked,hn,Except.map]⟩
      | some old =>
        cases hc : s.checkNode (patchNode old patch) true with
        | ok u => simp [Mutation.refused,hn,hc,Except.toBool] at h
        | error v => exact ⟨.constraintViolation v,by simp [mutate,updateNodeChecked,hn,hc,Except.map]⟩
    | deleteNode id =>
      have hn : s.nodes[id]? = none := by simpa [Mutation.refused] using h
      exact ⟨.nodeNotFound id,by simp [mutate,deleteNode,hn,Except.map]⟩
    | createEdge newEdge mint =>
      simp only [mutate,createEdge]
      split_ifs with h₁ h₂ h₃
      · exact ⟨_,rfl⟩
      · exact ⟨_,rfl⟩
      · exact ⟨_,rfl⟩
      · simp [Mutation.refused,h₁,h₂,h₃] at h
    | updateEdge id patch =>
      simp only [mutate,updateEdge]
      cases hw : patch.weight.filter (fun w => !w.isFinite) with
      | some w => exact ⟨_,rfl⟩
      | none =>
        have he : s.edges[id]? = none := by simpa [Mutation.refused,hw] using h
        rw [he]
        exact ⟨_,rfl⟩
    | deleteEdge id =>
      have he : s.edges.contains id = false := by simpa [Mutation.refused] using h
      exact ⟨.edgeNotFound id,by simp [mutate,deleteEdge,he,Except.map]⟩
  obtain ⟨err,herr⟩ := herr
  have hr : s.mutate m true = (.error err,(s.mutate m true).2) := Prod.ext herr rfl
  exact ⟨err,_,hr,(mutate_err hr).1⟩

/-- A mutation that is not refused changes what reads return, unless it asks for what is there. -/
theorem mutate_admitted {s : Inner} (hwf : Wf s) {m : Mutation} (h : m.refused s = false) :
    ∃ op t, s.mutate m true = (.ok op,t) ∧ (s.SameRecords t ↔ (DirectWrite.mutation m).inert s = true) := by
  -- the state it leaves is the one its log entry makes
  suffices hop : ∃ op, (s.mutate m true).1 = .ok op ∧
      (s.SameRecords (s.applyOp op) ↔ (DirectWrite.mutation m).inert s = true) by
    obtain ⟨op,hr,hiff⟩ := hop
    have hpair : s.mutate m true = (.ok op,(s.mutate m true).2) := Prod.ext hr rfl
    exact ⟨op,_,hpair,by rw [mutate_ok hwf hpair]; exact hiff⟩
  have hgraph : ∀ op, s.SameRecords (s.applyOp op) → s.graph.apply op = s.graph :=
    fun op hs => (applyOp_graph hwf op).symm.trans hs.graph
  cases m with
  | createNode newNode mint =>
    cases hc : s.checkNode (newNode.intoNode (s.ids.node+1) mint) true with
    | error v => simp [Mutation.refused,hc,Except.toBool] at h
    | ok u =>
      have hc' : ({ s with ids := { s.ids with node := s.ids.node+1 } } : Inner).checkNode
          (newNode.intoNode (s.ids.node+1) mint) true = .ok () := hc
      refine ⟨.upsertNode (newNode.intoNode (s.ids.node+1) mint),?_,iff_of_false ?_ (by simp [DirectWrite.inert])⟩
      · simp [mutate,createNodeChecked,hc',Except.map]
      · intro hs
        have hnodes := congrArg (fun g => g.nodes[s.ids.node+1]?) (hgraph _ hs)
        have hn : s.nodes[s.ids.node+1]? = some (newNode.intoNode (s.ids.node+1) mint) := by
          simpa [Graph.apply,NewNode.intoNode,graph,eq_comm] using hnodes
        have hb := hwf.nodes.bound _ _ hn
        omega
  | updateNode id patch mint =>
    cases hn : s.nodes[id]? with
    | none => simp [Mutation.refused,hn] at h
    | some old =>
      cases hc : s.checkNode (patchNode old patch) true with
      | error v => simp [Mutation.refused,hn,hc,Except.toBool] at h
      | ok u =>
        refine ⟨.upsertNode { patchNode old patch with updatedAt := s.nextUpdatedAt mint.now },?_,
          iff_of_false ?_ (by simp [DirectWrite.inert])⟩
        · simp only [mutate,updateNodeChecked,hn,hc,Prod.map_apply,Except.map]
          split_ifs <;> rfl
        · intro hs
          have hlast := hs.lastUpdatedAt
          simp only [applyOp,upsertNode_eq,nextUpdatedAt] at hlast
          omega
  | deleteNode id =>
    cases hn : s.nodes[id]? with
    | none => simp [Mutation.refused,hn] at h
    | some old =>
      refine ⟨.deleteNode id,by simp [mutate,deleteNode,hn,Except.map],iff_of_false ?_ (by simp [DirectWrite.inert])⟩
      intro hs
      have hnodes := congrArg (fun g => g.nodes[id]?) (hgraph _ hs)
      simp [Graph.apply,graph,hn] at hnodes
  | createEdge newEdge mint =>
    simp only [Mutation.refused,Bool.or_eq_false_iff,Bool.not_eq_false'] at h
    obtain ⟨⟨h₁,h₂⟩,h₃⟩ := h
    refine ⟨.upsertEdge (newEdge.intoEdge (s.ids.edge+1) mint),?_,iff_of_false ?_ (by simp [DirectWrite.inert])⟩
    · simp [mutate,createEdge,h₁,h₂,h₃,Except.map]
    · intro hs
      have hedges := congrArg (fun g => g.edges[s.ids.edge+1]?) (hgraph _ hs)
      have he : s.edges[s.ids.edge+1]? = some (newEdge.intoEdge (s.ids.edge+1) mint) := by
        simpa [Graph.apply,NewEdge.intoEdge,graph,eq_comm] using hedges
      have hb := hwf.edges.bound _ _ he
      omega
  | updateEdge id patch =>
    obtain ⟨hw,he⟩ := Bool.or_eq_false_iff.mp h
    obtain ⟨old,he⟩ := Option.isSome_iff_exists.mp (Option.isNone_eq_false_iff.mp he)
    have hw : patch.weight.filter (fun w => !w.isFinite) = none := Option.not_isSome_iff_eq_none.mp (by rw [hw]; simp)
    have hid : (patchEdge old patch).id = id := hwf.edges.key id old he
    refine ⟨.upsertEdge (patchEdge old patch),by simp [mutate,updateEdge,hw,he,Except.map],?_⟩
    have hinert : (DirectWrite.mutation (.updateEdge id patch)).inert s = true ↔ patchEdge old patch = old := by
      simp [DirectWrite.inert,he]
    rw [hinert]
    constructor
    · intro hs
      have hedges := congrArg (fun g => g.edges[id]?) (hgraph _ hs)
      simpa [Graph.apply,graph,hid,he] using hedges
    · intro hsame
      have hstay : s.upsertEdge (patchEdge old patch) = s := upsertEdge_same hwf (by rw [hid,hsame]; exact he)
      simp only [applyOp,hstay]
      rfl
  | deleteEdge id =>
    have he : s.edges.contains id = true := by simpa [Mutation.refused] using h
    refine ⟨.deleteEdge id,by simp [mutate,deleteEdge,he,Except.map],iff_of_false ?_ (by simp [DirectWrite.inert])⟩
    intro hs
    have hedges := congrArg (fun g => g.edges[id]?) (hgraph _ hs)
    have hgone : s.edges[id]? = none := by simpa [Graph.apply,graph,eq_comm] using hedges
    rw [Map.contains_eq,hgone] at he
    cases he

theorem run_refused {s : Inner} {w : DirectWrite} (hw : w.isSingle = true) (h : w.refused s = true) :
    ∃ err t, w.run s = (.error err,t) ∧ Agree s t := by
  cases w with
  | mutation m =>
    obtain ⟨err,t,hr,ha⟩ := mutate_refused h
    exact ⟨err,t,by simp [DirectWrite.run,hr,Except.map],ha⟩
  | setEmbedding id vector =>
    have hn : s.nodes.contains id = false := by simpa [DirectWrite.refused] using h
    exact ⟨.nodeNotFound id,s,by simp [DirectWrite.run,hn],Agree.refl s⟩
  | setEmbeddings embeddings => cases hw
  | deleteEmbedding id => cases h

theorem run_admitted {s : Inner} (hwf : Wf s) {w : DirectWrite} (hw : w.isSingle = true) (h : w.refused s = false) :
    ∃ op t, w.run s = (.ok [op],t) ∧ (s.SameRecords t ↔ w.inert s = true) := by
  cases w with
  | mutation m =>
    obtain ⟨op,t,hr,hiff⟩ := mutate_admitted hwf h
    exact ⟨op,t,by simp [DirectWrite.run,hr,Except.map],hiff⟩
  | setEmbedding id vector =>
    have hn : s.nodes.contains id = true := by simpa [DirectWrite.refused] using h
    refine ⟨.setEmbedding id vector,s.applyOp (.setEmbedding id vector),by simp only [DirectWrite.run,hn,if_true],?_⟩
    simp only [DirectWrite.inert,decide_eq_true_eq]
    constructor
    · intro hs
      have hget := congrArg (fun g => g.embeddings[id]?) hs.graph
      simpa [applyOp,graph,eq_comm] using hget
    · intro hv
      have hsame : s.embeddings.insert id vector = s.embeddings := Map.insert_get hv
      simp only [applyOp,hsame]
      rfl
  | setEmbeddings embeddings => cases hw
  | deleteEmbedding id =>
    refine ⟨.deleteEmbedding id,_,rfl,?_⟩
    simp only [DirectWrite.inert,decide_eq_true_eq]
    constructor
    · intro hs
      have hget := congrArg (fun g => g.embeddings[id]?) hs.graph
      simpa [applyOp,graph,eq_comm] using hget
    · intro hv
      have hsame : s.embeddings.erase id = s.embeddings := Map.erase_none hv
      simp only [applyOp,hsame]
      rfl

end Inner

namespace Source

theorem step_durable {s : Source} (h : Inv s) (a : SourceStep) : (s.step a).engine.durable = s.engine.durable := by
  cases a with
  | trimBefore cursor => rfl
  | publish call =>
    simp only [step]
    split <;> rfl
  | act a =>
    rw [step_act_engine]
    by_cases hl : a.isLocked = true
    · exact (Engine.step_locked h.numbered hl).durable
    · by_cases hu : a.isUnlocked = true
      · obtain ⟨_,_,hh,-⟩ := Engine.step_hands h.engine hu
        exact hh.durable
      · cases a with
        | enqueue call encoded =>
          simp only [Engine.step,Engine.enqueue]
          split
          · rfl
          · split <;> rfl
        | lead => rfl
        | finish io => rfl
        | await call => exact (Engine.await_frame s.engine call).1
        | _ => first | exact absurd rfl hl | exact absurd rfl hu

theorem run_inv {s : Source} (h : Inv s) (as : List SourceStep) : Inv (s.run as) := by
  induction as generalizing s with
  | nil => exact h
  | cons a as ih => exact ih (step_inv h a)

theorem run_durable {s : Source} (h : Inv s) (as : List SourceStep) :
    (s.run as).engine.durable = s.engine.durable := by
  induction as generalizing s with
  | nil => rfl
  | cons a as ih => exact (ih (step_inv h a)).trans (step_durable h a)

theorem find_inflight_fresh {s : Source} (h : Inv s) {call : ℕ} (hfree : s.engine.calls[call]? = none) :
    s.engine.inflight.find? (fun p => p.1 = call) = none := by
  rw [List.find?_eq_none]
  intro p hp hname
  have hsome := h.named p (List.mem_append_left _ hp)
  rw [of_decide_eq_true hname,hfree] at hsome
  cases hsome

theorem settle_failed {s : Source} (hnone : s.unpublished = []) {call : ℕ}
    (hfind : s.engine.inflight.find? (fun p => p.1 = call) = none) (hcall : s.engine.calls[call]? = some .err)
    (encoded io : Bool) : (s.settle call encoded io).engine = s.engine := by
  have hengine : s.engine.step (.enqueue call encoded) = s.engine := by simp only [Engine.step,Engine.enqueue,hfind]
  simp [settle,run,step_publish_none hnone,hengine,hcall]

theorem directCall_failed {s : Source} (h : Inv s) (hd : s.engine.durable = true) {call : ℕ}
    (hfree : s.engine.calls[call]? = none) {w : DirectWrite} (encoded io : Bool)
    (hcalls : (s.engine.direct call w).2.calls = s.engine.calls.insert call .err)
    (hin : (s.engine.direct call w).2.inflight = s.engine.inflight) :
    (s.directCall call w encoded io).engine = (s.engine.direct call w).2 := by
  have hengine : (s.step (.act (.direct call w))).engine = (s.engine.direct call w).2 := by
    simp [Engine.step,Map.contains_eq,hfree]
  have hinv := step_inv h (.act (.direct call w))
  have hdur := step_durable h (.act (.direct call w))
  rw [directCall,settle_failed (hinv.logged (hdur.trans hd)),hengine]
  · rw [hengine,hin]
    exact find_inflight_fresh h hfree
  · simp [hengine,hcalls]

/-- A direct write of one record fails and yet changes what later reads return, exactly if the
checks let it pass, it changes a record, and the log does not take its record. -/
theorem failed_write_unseen_iff (capacity : ℕ) (readOnly : Bool) (maxTxWrites : Option ℕ)
    (log : List (List WalOp)) (steps : List SourceStep) (call : ℕ) (w : DirectWrite) (encoded io : Bool) :
    let s := (opened capacity readOnly maxTxWrites (some log)).run steps
    let s' := s.directCall call w encoded io
    s.engine.calls[call]? = none → w.isSingle = true →
      ((s'.failed call = true → s.engine.live.SameRecords s'.engine.live) ↔
        (s.engine.writeForCommit.toBool = false ∨ w.refused (s.engine.load s.engine.live) = true ∨
          w.inert s.engine.live = true ∨ s.logs encoded io = true)) := by
  intro s s' hfree hsingle
  have hinv : Inv s := run_inv (opened_inv capacity readOnly maxTxWrites (some log)) steps
  have hd : s.engine.durable = true := run_durable (opened_inv capacity readOnly maxTxWrites (some log)) steps
  have hnoop : ¬ w.isNoop = true := by
    cases w with
    | setEmbeddings embeddings => cases hsingle
    | _ => simp [DirectWrite.isNoop]
  cases hwrite : s.engine.writeForCommit with
  | error err =>
    have hdirect : s.engine.direct call w =
        (.error err,{ s.engine with calls := s.engine.calls.insert call .err }) := by
      simp only [Engine.direct,if_neg hnoop,hwrite]
    have hend := directCall_failed hinv hd hfree encoded io (by rw [hdirect]) (by rw [hdirect])
    refine iff_of_true (fun _ => ?_) (Or.inl rfl)
    rw [hend,hdirect]
    rfl
  | ok u =>
    cases href : w.refused (s.engine.load s.engine.live) with
    | true =>
      obtain ⟨err,t,hr,ha⟩ := Inner.run_refused hsingle href
      have hdirect : s.engine.direct call w = (.error err,{ s.engine with
          live := t, ids := t.ids, epoch := s.engine.epoch+1, calls := s.engine.calls.insert call .err }) := by
        simp only [Engine.direct,if_neg hnoop,hwrite,Engine.withLive,hr]
      have hend := directCall_failed hinv hd hfree encoded io (by rw [hdirect]) (by rw [hdirect])
      refine iff_of_true (fun _ => ?_) (Or.inr (Or.inl rfl))
      rw [hend,hdirect]
      exact Inner.sameRecords_load.mp (Inner.sameRecords_of_agree ha)
    | false =>
      obtain ⟨op,t,hr,hsame⟩ := Inner.run_admitted hinv.engine.live hsingle href
      have hdirect : s.engine.direct call w = (.ok [op],(({ s.engine with
          live := t, ids := t.ids, epoch := s.engine.epoch+1 } : Engine).noteCommit (w.touched [op])).leaveLock
            call [op]) := by
        simp only [Engine.direct,if_neg hnoop,hwrite,Engine.withLive,hr]
      obtain ⟨s₁,hs₁⟩ : ∃ s₁, s.step (.act (.direct call w)) = s₁ := ⟨_,rfl⟩
      have hengine : s₁.engine = (s.engine.direct call w).2 := by
        rw [← hs₁]
        simp [Engine.step,Map.contains_eq,hfree]
      have hin : s₁.engine.inflight = s.engine.inflight ++ [(call,[op])] := by
        simp [hengine,hdirect,Engine.leaveLock,Engine.noteCommit,hd]
      have hlive : s.engine.live.SameRecords s₁.engine.live ↔ w.inert s.engine.live = true := by
        rw [hengine,hdirect,(Engine.leaveLock_core _ call [op]).live]
        exact Inner.sameRecords_commitSeq.trans (Inner.sameRecords_load.symm.trans hsame)
      have hfind : s₁.engine.inflight.find? (fun p => p.1 = call) = some (call,[op]) := by
        rw [hin,List.find?_append,find_inflight_fresh hinv hfree]
        simp
      have hqueue : s₁.engine.queue = s.engine.queue := by
        simp [hengine,hdirect,Engine.leaveLock,Engine.noteCommit,hd]
      have hspec := settle_spec (hs₁ ▸ step_inv hinv _) ((hs₁ ▸ step_durable hinv _ : s₁.engine.durable = _).trans hd)
        hfind encoded io
      have hs' : s' = s₁.settle call encoded io := by rw [← hs₁]; rfl
      have hlogs : s₁.logs encoded io = s.logs encoded io := by simp only [logs,hqueue]
      rw [hlogs] at hspec
      rw [hs',hspec.failed,hspec.live,hlive]
      simp only [Except.toBool,Bool.false_eq_true,Bool.true_eq_false,false_or,Bool.not_eq_true']
      cases s.logs encoded io <;> simp

end Source

end Writes

section Sample
attribute [local instance] Json.compactText

/-- The log refuses the record of a new node: the call fails, and the node is there. -/
theorem failed_write_seen :
    let s := (Source.opened 4 false none (some [])).directCall 0 (.mutation (.createNode (.titled "n" "a") ⟨0,1#128⟩)) true false
    s.failed 0 = true ∧ ¬ (Source.opened 4 false none (some [])).engine.live.SameRecords s.engine.live ∧
      (s.engine.live.getNode 1).map (fun n => n.title) = some "a" := by
  refine ⟨by decide +kernel,fun h => ?_,by decide +kernel⟩
  have hsize := congrArg (fun g : Graph => g.nodes.size) h.graph
  revert hsize
  decide +kernel

/-- A read-only engine refuses a new node, and later reads do not see it. -/
theorem failed_write_unseen_iff_sample :
    let s := (Source.opened 4 true none (some [])).run []
    let s' := s.directCall 0 (.mutation (.createNode (.titled "n" "a") ⟨0,1#128⟩)) true false
    s'.failed 0 = true ∧ s.engine.live.SameRecords s'.engine.live := by
  have hfailed : (((Source.opened 4 true none (some [])).run []).directCall 0
      (.mutation (.createNode (.titled "n" "a") ⟨0,1#128⟩)) true false).failed 0 = true := by decide +kernel
  exact ⟨hfailed,(Source.failed_write_unseen_iff 4 true none [] [] 0 (.mutation (.createNode (.titled "n" "a") ⟨0,1#128⟩))
    true false (by decide +kernel) rfl).mpr (Or.inl (by decide +kernel)) hfailed⟩

end Sample
end Drevo
