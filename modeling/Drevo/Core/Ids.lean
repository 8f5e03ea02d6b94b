import Drevo.Core.Follow

/-! The ids a store hands out, over compactions and reopens. The counters are rebuilt on open
from the ids the log still mentions, so an id comes up again iff the log has lost every
mention of an id as high. -/
namespace Drevo
open Lib

def GraphOp.stored : GraphOp → Option StampTarget
  | .upsertNode node => some (.node node.id)
  | .upsertEdge edge => some (.edge edge.id)
  | _ => none

/-- The targets are of one kind, the second with an id at least as high. -/
def StampTarget.upTo : StampTarget → StampTarget → Bool
  | .node i,.node j => i ≤ j
  | .edge i,.edge j => i ≤ j
  | _,_ => false

def WalOp.stored : WalOp → Option StampTarget
  | .graph op => op.stored
  | _ => none

namespace IdCounters

/-- The id was drawn: its counter has passed it. -/
def Past (ids : IdCounters) : StampTarget → Prop
  | .node id => id ≤ ids.node
  | .edge id => id ≤ ids.edge

def Covers (ids : IdCounters) (ops : List WalOp) : Prop := ∀ op ∈ ops, ∀ t, op.stored = some t → ids.Past t

theorem Past.mono {a b : IdCounters} {t : StampTarget} (h : a.Past t) (hi : a.Le b) : b.Past t := by
  cases t with
  | node id => exact Nat.le_trans h hi.1
  | edge id => exact Nat.le_trans h hi.2

theorem Covers.mono {a b : IdCounters} {ops : List WalOp} (h : a.Covers ops) (hi : a.Le b) : b.Covers ops :=
  fun op hop t ht => (h op hop t ht).mono hi

theorem Past.of_upTo {ids : IdCounters} {t u : StampTarget} (h : ids.Past u) (hle : t.upTo u = true) : ids.Past t := by
  cases t <;> cases u <;> simp only [StampTarget.upTo,decide_eq_true_eq,Bool.false_eq_true] at hle <;>
  exact Nat.le_trans hle h

theorem Covers.nil (ids : IdCounters) : ids.Covers [] := by simp [Covers]

end IdCounters

section
variable [JsonText]

theorem Inner.applyOp_past (s : Inner) {op : GraphOp} {t : StampTarget} (h : op.stored = some t) :
    (s.applyOp op).ids.Past t := by
  cases op with
  | upsertNode node =>
    obtain rfl : StampTarget.node node.id = t := Option.some.inj h
    simp only [applyOp,upsertNode_eq]
    exact le_max_right _ _
  | upsertEdge edge =>
    obtain rfl : StampTarget.edge edge.id = t := Option.some.inj h
    simp only [applyOp,upsertEdge_fields]
    exact le_max_right _ _
  | deleteNode id => cases h
  | deleteEdge id => cases h
  | setEmbedding id vector => cases h
  | deleteEmbedding id => cases h

theorem Inner.applyOps_covers (s : Inner) (ops : List GraphOp) : (s.applyOps ops).ids.Covers (ops.map .graph) := by
  induction ops generalizing s with
  | nil => exact IdCounters.Covers.nil _
  | cons op ops ih =>
    intro x hx t ht
    rcases List.mem_cons.mp hx with rfl | hx
    · exact (s.applyOp_past ht).mono ((s.applyOp op).applyOps_ids ops)
    · exact ih _ x hx t ht

theorem Inner.applyWalOps_covers (s : Inner) (ops : List WalOp) : (s.applyWalOps ops).ids.Covers ops := by
  induction ops generalizing s with
  | nil => exact IdCounters.Covers.nil _
  | cons op ops ih =>
    intro x hx t ht
    rcases List.mem_cons.mp hx with rfl | hx
    · cases x with
      | graph op => exact (s.applyOp_past ht).mono (Engine.applyWalOps_ids _ ops)
      | prepare gid now ops => cases ht
      | commitPrepared gid => cases ht
      | rollbackPrepared gid heuristic => cases ht
    · exact ih _ x hx t ht

/-! ## What an engine carries -/

namespace Engine

/-- Every entry that is in the log, on its way to it or in a transaction stores a record whose id
was drawn. -/
structure Covered (e : Engine) : Prop where
  queue : ∀ record ∈ e.queue.order, e.ids.Covers record
  inflight : ∀ p ∈ e.inflight, e.ids.Covers (p.2.map .graph)
  slots : ∀ (id : ℕ) (slot : TxSlot), e.txs[id]? = some slot → e.ids.Covers (slot.ops.map .graph)

omit [JsonText] in
theorem Covered.of_frame {e e' : Engine} (h : e.Covered) (hi : e.ids.Le e'.ids) (hq : e'.queue = e.queue)
    (hf : e'.inflight = e.inflight) (ht : e'.txs = e.txs) : e'.Covered where
  queue record hr := (h.queue record (hq ▸ hr)).mono hi
  inflight p hp := (h.inflight p (hf ▸ hp)).mono hi
  slots id slot hs := (h.slots id slot (ht ▸ hs)).mono hi

omit [JsonText] in
theorem Covered.leaveLock {e : Engine} (h : e.Covered) (call : ℕ) {ops : List GraphOp}
    (ho : e.ids.Covers (ops.map .graph)) : (e.leaveLock call ops).Covered := by
  unfold Engine.leaveLock
  split_ifs
  · exact h.of_frame (IdCounters.Le.refl _) rfl rfl rfl
  · refine ⟨h.queue,?_,h.slots⟩
    intro p hp
    rcases List.mem_append.mp hp with hp | hp
    · exact h.inflight p hp
    · obtain rfl := List.mem_singleton.mp hp
      exact ho

omit [JsonText] in
theorem Covered.record {e : Engine} (h : e.Covered) {ops : List WalOp} (ho : e.ids.Covers ops) (io : Bool) :
    (e.record ops io).2.Covered := by
  unfold Engine.record
  split_ifs
  · exact h
  · refine ⟨?_,h.inflight,h.slots⟩
    intro record hr
    rcases GroupQueue.mem_commit_order hr with hr | rfl
    · exact h.queue record hr
    · exact ho

theorem direct_covered {e : Engine} (hw : (e.load e.live).Wf) (h : e.Covered) (call : ℕ) (w : DirectWrite) :
    (e.direct call w).2.Covered := by
  have hids := (direct_section hw call w).ids
  unfold direct at hids ⊢
  split_ifs at hids ⊢ with hn
  · exact h.of_frame hids rfl rfl rfl
  cases hf : e.writeForCommit with
  | error err =>
    simp only [hf] at hids ⊢
    exact h.of_frame hids rfl rfl rfl
  | ok u =>
    simp only [hf] at hids ⊢
    rcases hr : w.run (e.load e.live) with ⟨r,t⟩
    simp only [withLive,hr] at hids ⊢
    cases r with
    | error err => exact h.of_frame hids rfl rfl rfl
    | ok ops =>
      obtain rfl := DirectWrite.run_ok hw hr
      have hspent : Covered ((e.moved ((e.load e.live).applyOps ops) ((e.load e.live).applyOps ops).ids).noteCommit
          (w.touched ops)) := h.of_frame ((e.load e.live).applyOps_ids ops) rfl rfl rfl
      exact hspent.leaveLock call ((e.load e.live).applyOps_covers ops)

theorem batch_covered {e : Engine} (hw : (e.load e.live).Wf) (h : e.Covered) (w : BatchWrite) (io : Bool) :
    (e.batch w io).2.Covered := by
  unfold batch
  split_ifs with hn
  · exact h
  cases hf : e.writeForCommit with
  | error err => exact h
  | ok u =>
    have hids := BatchWrite.run_ids hw w
    rcases hr : w.run (e.load e.live) with ⟨r,t⟩
    rw [hr] at hids
    have hspent : Covered { e with ids := t.ids } := h.of_frame hids rfl rfl rfl
    cases r with
    | error err => exact hspent
    | ok ops =>
      obtain rfl := BatchWrite.run_ok hw hr
      simp only
      split_ifs with he
      · exact hspent
      have hrec := hspent.record ((e.load e.live).applyOps_covers ops) io
      split
      · rename_i e' hrec'
        rw [hrec'] at hrec
        exact hrec
      · rename_i e' hrec'
        rw [hrec'] at hrec
        exact hrec.of_frame (IdCounters.Le.refl _) rfl rfl rfl

theorem txWrite_covered {e : Engine} (hi : Inv e) (h : e.Covered) (id : ℕ) (m : Mutation) :
    (e.txWrite id m).2.Covered ∧ e.ids.Le (e.txWrite id m).2.ids := by
  have hsame : e.Covered ∧ e.ids.Le e.ids := ⟨h,IdCounters.Le.refl _⟩
  unfold txWrite
  cases hs : e.txs[id]? with
  | none => exact hsame
  | some slot =>
    simp only
    split
    · exact hsame
    obtain ⟨hslot,-⟩ := hi.slots id slot hs
    have hids := Inner.mutate_ids hslot.wf m false
    rcases hr : (e.load slot.working).mutate m false with ⟨r,t⟩
    rw [hr] at hids
    refine ⟨⟨fun record hq => (h.queue record hq).mono hids,fun p hp => (h.inflight p hp).mono hids,?_⟩,hids⟩
    intro id' slot' hs'
    simp only [Map.get_insert] at hs'
    split_ifs at hs' with hid
    · obtain rfl := Option.some.inj hs'
      have hold := (h.slots id slot hs).mono hids
      cases r with
      | error err => exact hold
      | ok op =>
        intro x hx t' ht'
        simp only [List.map_append,List.mem_append,List.map_cons,List.map_nil,List.mem_singleton] at hx
        rcases hx with hx | rfl
        · exact hold x hx t' ht'
        · rw [Inner.mutate_ok hslot.wf hr]
          exact Inner.applyOp_past _ ht'
    · exact (h.slots id' slot' hs').mono hids

omit [JsonText] in
theorem Covered.drop {e : Engine} (h : e.Covered) (id : ℕ) : Covered { e with txs := e.txs.erase id } := by
  refine ⟨h.queue,h.inflight,?_⟩
  intro id' slot hs
  simp only [Map.get_erase] at hs
  split_ifs at hs
  exact h.slots id' slot hs

theorem commitParts_covered {e : Engine} (h : e.Covered) {slot : TxSlot} (ho : e.ids.Covers (slot.ops.map .graph))
    (io : Bool) : (e.commitParts slot io).2.Covered := by
  have hrecord : ∀ {e₀ e' : Engine} {ok : Bool}, e₀.Covered → e₀.ids.Covers (slot.ops.map .graph) →
      e₀.record (slot.ops.map .graph) io = (ok,e') → e'.Covered := by
    intro e₀ e' ok h₀ ho₀ hr
    have hrec := h₀.record ho₀ io
    rwa [hr] at hrec
  have hmerged := (e.load e.live).applyOps_ids slot.ops
  have hspent : Covered { e with ids := (e.merged slot).ids } := h.of_frame hmerged rfl rfl rfl
  simp only [commitParts]
  split
  · exact h
  split
  · exact h
  split
  · exact h
  split
  · split
    · exact h
    · split
      · exact h
      · split
        · rename_i hr
          exact hrecord h ho hr
        · rename_i hr
          exact (hrecord h ho hr).of_frame (IdCounters.Le.refl _) rfl rfl rfl
  split
  · exact h
  split
  · exact h
  split
  · exact hspent
  split
  · exact hspent
  · split
    · rename_i hr
      exact hrecord hspent (ho.mono hmerged) hr
    · rename_i hr
      exact (hrecord hspent (ho.mono hmerged) hr).of_frame (IdCounters.Le.refl _) rfl rfl rfl

theorem txCommit_covered {e : Engine} (hi : Inv e) (h : e.Covered) (id : ℕ) (io : Bool) :
    (e.txCommit id io).2.Covered ∧ e.ids.Le (e.txCommit id io).2.ids := by
  cases hs : e.txs[id]? with
  | none =>
    rw [txCommit_none hs]
    exact ⟨h,IdCounters.Le.refl _⟩
  | some slot =>
    refine ⟨?_,(txCommit_section hi hs io).ids⟩
    simp only [txCommit,hs]
    exact commitParts_covered (h.drop id) (h.slots id slot hs) io

/-! ## Merges -/

theorem applyNodeUpsert_covered {e : Engine} (h : e.Covered) (call : ℕ) (node : Node) (stamp : Stamp)
    (current : StampTarget → Option Stamp) (remap : Remap) :
    (e.applyNodeUpsert call node stamp current remap).2.1.Covered := by
  simp only [applyNodeUpsert]
  split
  · exact h
  split
  · exact h
  obtain ⟨-,hids⟩ := targetNode_agree (e.load e.live) (remap.nodeTarget node.uuid)
  refine Covered.leaveLock (h.of_frame ?_ (by rfl) (by rfl) (by rfl)) call ?_
  · exact hids.trans (Inner.applyOp_ids _ _)
  · exact Inner.applyOps_covers _ [_]

theorem applyEdgeUpsert_covered {e : Engine} (h : e.Covered) (call : ℕ) (edge : Edge) (fromUuid toUuid : Uuid)
    (stamp : Stamp) (current : StampTarget → Option Stamp) (remap : Remap) :
    (e.applyEdgeUpsert call edge fromUuid toUuid stamp current remap).2.1.Covered := by
  simp only [applyEdgeUpsert]
  split
  · split
    · exact h
    split
    · exact h
    obtain ⟨-,hids⟩ := targetEdge_agree (e.load e.live) (remap.edgeTarget edge.uuid)
    refine Covered.leaveLock (h.of_frame ?_ (by rfl) (by rfl) (by rfl)) call ?_
    · exact hids.trans (Inner.applyOp_ids _ _)
    · exact Inner.applyOps_covers _ [_]
  · exact h

theorem applyDelete_covered {e : Engine} (h : e.Covered) (call : ℕ) (uuid : Uuid) (stamp : Stamp) (isNode : Bool)
    (current : StampTarget → Option Stamp) (remap : Remap) :
    (e.applyDelete call uuid stamp isNode current remap).2.1.Covered := by
  simp only [applyDelete]
  split
  · exact h
  split
  · split
    · exact h
    refine Covered.leaveLock (h.of_frame ?_ (by rfl) (by rfl) (by rfl)) call ?_
    · exact Inner.applyOp_ids (e.load e.live) _
    · exact Inner.applyOps_covers _ [_]
  · exact h
  · split
    · exact h
    · exact h.of_frame (anchor_agree (e.load e.live) isNode).2 rfl rfl rfl

theorem deltaStep_covered {e : Engine} (h : e.Covered) (id call : ℕ) (current : StampTarget → Option Stamp) :
    (e.deltaStep id call current).Covered := by
  unfold deltaStep
  cases hd : e.deltas[id]? with
  | none => exact h
  | some d =>
    have hdone : Covered { e with deltas := e.deltas.erase id } := h.of_frame (IdCounters.Le.refl _) rfl rfl rfl
    simp only
    generalize d.record.bind (fun c => e.calls[c]?) = record
    cases hch : d.changes with
    | nil => rcases record with _ | ⟨_ | _ | _ | _⟩ <;> first | exact hdone | exact h
    | cons change rest =>
      have hchange : (e.applyChange call change current d.remap).2.1.Covered := by
        cases change with
        | node node stamp => exact applyNodeUpsert_covered h call node stamp current d.remap
        | edge edge fromUuid toUuid stamp =>
          exact applyEdgeUpsert_covered h call edge fromUuid toUuid stamp current d.remap
        | deleteNode uuid stamp => exact applyDelete_covered h call uuid stamp true current d.remap
        | deleteEdge uuid stamp => exact applyDelete_covered h call uuid stamp false current d.remap
      rcases hr : e.applyChange call change current d.remap with ⟨r,e',remap⟩
      rw [hr] at hchange
      have hgoes : ∀ deltas, Covered { e' with deltas := deltas } :=
        fun deltas => hchange.of_frame (IdCounters.Le.refl _) rfl rfl rfl
      rcases record with _ | ⟨_ | _ | _ | _⟩ <;> cases r <;> simp only [hr] <;>
      first
      | exact hgoes _
      | exact hdone
      | exact h

/-! ## Every step -/

omit [JsonText] in
theorem enqueue_covered {e : Engine} (h : e.Covered) (call : ℕ) (encoded : Bool) : (e.enqueue call encoded).Covered := by
  unfold enqueue
  cases hf : e.inflight.find? (fun p => p.1 = call) with
  | none => exact h
  | some p =>
    have hp := h.inflight p (List.mem_of_find?_eq_some hf)
    have hrest : Covered { e with inflight := e.inflight.filter (fun p => p.1 ≠ call) } :=
      ⟨h.queue,fun q hq => h.inflight q (List.mem_of_mem_filter hq),h.slots⟩
    simp only
    split
    · exact hrest.of_frame (IdCounters.Le.refl _) rfl rfl rfl
    · rename_i seq q hq
      split_ifs at hq
      refine ⟨?_,hrest.inflight,hrest.slots⟩
      intro record hr
      rw [GroupQueue.enqueue_order hq,List.mem_append,List.mem_singleton] at hr
      rcases hr with hr | rfl
      · exact h.queue record hr
      · exact hp

end Engine

/-- The actions of a store that only writes, transacts and merges: no two-phase commit and no
import. -/
def Action.isLocal : Action → Bool
  | .txPrepare _ _ _ _ => false
  | .commitPrepared _ _ => false
  | .rollbackPrepared _ _ _ => false
  | .applyDump _ _ => false
  | _ => true

namespace Engine

theorem step_covered {e : Engine} (hi : Inv e) (h : e.Covered) {a : Action} (ha : a.isLocal = true) :
    (e.step a).Covered ∧ e.ids.Le (e.step a).ids := by
  have hsame : e.Covered ∧ e.ids.Le e.ids := ⟨h,IdCounters.Le.refl _⟩
  have hqueue : ∀ q : GroupQueue (List WalOp), (∀ r ∈ q.order, r ∈ e.queue.order) →
      Covered { e with queue := q } ∧ e.ids.Le e.ids :=
    fun q hq => ⟨⟨fun r hr => h.queue r (hq r hr),h.inflight,h.slots⟩,IdCounters.Le.refl _⟩
  cases a with
  | direct call w =>
    simp only [step]
    split_ifs
    · exact hsame
    · exact ⟨direct_covered hi.live h call w,(direct_section hi.live call w).ids⟩
  | enqueue call encoded => exact ⟨enqueue_covered h call encoded,(enqueue_core e call encoded).ids ▸ hsame.2⟩
  | lead => exact hqueue _ (fun r hr => GroupQueue.lead_order e.queue ▸ hr)
  | finish io => exact hqueue _ (fun r hr => GroupQueue.mem_finish_order hr)
  | await call =>
    simp only [step,await]
    split
    · split_ifs <;> exact ⟨h.of_frame (IdCounters.Le.refl _) rfl rfl rfl,IdCounters.Le.refl _⟩
    · exact hsame
  | batch w io => exact ⟨batch_covered hi.live h w io,(batch_section hi.live w io).ids⟩
  | txBegin isolation limited =>
    refine ⟨⟨h.queue,h.inflight,?_⟩,IdCounters.Le.refl _⟩
    intro id slot hs
    simp only [step,txBegin,Map.get_insert] at hs
    split_ifs at hs
    · obtain rfl := Option.some.inj hs
      exact IdCounters.Covers.nil _
    · exact h.slots id slot hs
  | txWrite id m => exact txWrite_covered hi h id m
  | txCommit id io => exact txCommit_covered hi h id io
  | txRollback id => exact ⟨h.drop id,IdCounters.Le.refl _⟩
  | addConstraint c =>
    simp only [step,addConstraint]
    split_ifs
    · exact ⟨h.of_frame (IdCounters.Le.refl _) rfl rfl rfl,IdCounters.Le.refl _⟩
    · split <;> exact ⟨h.of_frame (IdCounters.Le.refl _) rfl rfl rfl,IdCounters.Le.refl _⟩
  | removeConstraint c =>
    simp only [step,removeConstraint]
    split_ifs <;> exact ⟨h.of_frame (IdCounters.Le.refl _) rfl rfl rfl,IdCounters.Le.refl _⟩
  | deltaBegin id changes tomb =>
    exact ⟨h.of_frame (IdCounters.Le.refl _) rfl rfl rfl,IdCounters.Le.refl _⟩
  | deltaStep id call current =>
    simp only [step]
    split_ifs
    · exact hsame
    · refine ⟨deltaStep_covered h id call current,?_⟩
      rcases deltaStep_section hi.live id call current with ⟨-,ops,hs,-⟩ | ⟨edge,-,hs⟩ <;> exact hs.ids
  | txPrepare id gid now io => cases ha
  | commitPrepared gid io => cases ha
  | rollbackPrepared gid heuristic io => cases ha
  | applyDump call dump => cases ha

end Engine

/-! ## What a step hands out -/

def Mutation.creates : Mutation → Bool
  | .createNode _ _ => true
  | .createEdge _ _ => true
  | _ => false

namespace StampedChange

def uuid : StampedChange → Uuid
  | .node record _ => record.uuid
  | .edge record _ _ _ => record.uuid
  | .deleteNode uuid _ => uuid
  | .deleteEdge uuid _ => uuid

def isNode : StampedChange → Bool
  | .node _ _ => true
  | .edge _ _ _ _ => false
  | .deleteNode _ _ => true
  | .deleteEdge _ _ => false

def isDeletion : StampedChange → Bool
  | .node _ _ => false
  | .edge _ _ _ _ => false
  | .deleteNode _ _ => true
  | .deleteEdge _ _ => true

end StampedChange

namespace Engine

/-- The id a change of a peer is given if there was none for its UUID: that of the record it
stores, or the anchor of its tombstone. -/
def mintedFor (e : Engine) (call : ℕ) (change : StampedChange) (current : StampTarget → Option Stamp)
    (remap : Remap) : Option StampTarget :=
  match e.applyChange call change current remap with
  | (.ok true,_,remap') =>
    if (remap.target change.uuid change.isNode).isNone then remap'.target change.uuid change.isNode else none
  | _ => none

/-- The ids an action hands out. -/
def handedOut (e : Engine) : Action → List StampTarget
  | .direct call (.mutation m) =>
    if e.calls.contains call || !m.creates then []
    else ((e.direct call (.mutation m)).1.toOption.getD []).filterMap GraphOp.stored
  | .batch w io => ((e.batch w io).1.toOption.getD []).filterMap GraphOp.stored
  | .txWrite id m => if m.creates then (e.txWrite id m).1.toOption.toList.filterMap GraphOp.stored else []
  | .deltaStep id call current =>
    match e.nextChange id with
    | some (change,remap) => if e.calls.contains call then [] else (e.mintedFor call change current remap).toList
    | none => []
  | _ => []

/-- The anchor an action gives to a tombstone. -/
def anchored (e : Engine) : Action → List StampTarget
  | .deltaStep id call current =>
    match e.nextChange id with
    | some (change,_) => if change.isDeletion then e.handedOut (.deltaStep id call current) else []
    | none => []
  | _ => []

/-- The records the log mentions. -/
def logged (e : Engine) : List StampTarget := e.queue.log.flatten.filterMap WalOp.stored

omit [JsonText] in
theorem Covered.logged {e : Engine} (h : e.Covered) : ∀ t ∈ e.logged, e.ids.Past t := by
  intro t ht
  obtain ⟨op,hop,hstored⟩ := List.mem_filterMap.mp ht
  obtain ⟨record,hrecord,hmem⟩ := List.mem_flatten.mp hop
  exact h.queue record (List.mem_append_left _ hrecord) op hmem t hstored

theorem mutate_fresh {s u : Inner} {m : Mutation} {require : Bool} {op : GraphOp} (hm : m.creates = true)
    (h : s.mutate m require = (.ok op,u)) : ∀ t, op.stored = some t → ¬ s.ids.Past t := by
  intro t ht
  cases m with
  | createNode newNode mint =>
    simp only [Inner.mutate,Inner.createNodeChecked] at h
    split at h
    · simp [Except.map] at h
    · simp only [Prod.map_apply,Except.map,id,Prod.mk.injEq,Except.ok.injEq] at h
      obtain ⟨rfl,-⟩ := h
      obtain rfl : StampTarget.node (s.ids.node+1) = t := Option.some.inj ht
      exact Nat.not_succ_le_self _
  | createEdge newEdge mint =>
    simp only [Inner.mutate,Inner.createEdge] at h
    split_ifs at h <;> simp only [Prod.map_apply,Except.map,id,Prod.mk.injEq,reduceCtorEq,false_and,Except.ok.injEq] at h
    obtain ⟨rfl,-⟩ := h
    obtain rfl : StampTarget.edge (s.ids.edge+1) = t := Option.some.inj ht
    exact Nat.not_succ_le_self _
  | updateNode id patch mint => cases hm
  | deleteNode id => cases hm
  | updateEdge id patch => cases hm
  | deleteEdge id => cases hm

theorem mutateAll_fresh {s u : Inner} (hw : s.Wf) {ms : List Mutation} {ops : List GraphOp}
    (hm : ∀ m ∈ ms, m.creates = true) (h : BatchWrite.mutateAll s ms = (.ok ops,u)) :
    ∀ op ∈ ops, ∀ t, op.stored = some t → ¬ s.ids.Past t := by
  induction ms generalizing s u ops with
  | nil =>
    simp only [BatchWrite.mutateAll,Prod.mk.injEq,Except.ok.injEq] at h
    obtain ⟨rfl,-⟩ := h
    simp
  | cons m ms ih =>
    simp only [BatchWrite.mutateAll] at h
    rcases hr : s.mutate m true with ⟨r,v⟩
    have hids := Inner.mutate_ids hw m true
    have hv := Inner.mutate_wf hw m true
    rw [hr] at h hids hv
    simp only at hids hv
    cases r with
    | error err => simp at h
    | ok op =>
      rcases hrest : BatchWrite.mutateAll v ms with ⟨r',w⟩
      simp only [hrest,Prod.map_apply,id,Prod.mk.injEq] at h
      cases r' with
      | error err => simp [Except.map] at h
      | ok more =>
        simp only [Except.map,Except.ok.injEq] at h
        obtain ⟨rfl,-⟩ := h
        intro x hx t ht hpast
        rcases List.mem_cons.mp hx with rfl | hx
        · exact mutate_fresh (hm m (by simp)) hr t ht hpast
        · exact ih hv (fun m' hm' => hm m' (by simp [hm'])) hrest x hx t ht (hpast.mono hids)

omit [JsonText] in
theorem localWins_none (current : StampTarget → Option Stamp) (stamp : Stamp) : localWins current none stamp = false :=
  rfl

/-- The id a change was given where there was none is the next one of its counter. -/
def nextTarget (ids : IdCounters) (isNode : Bool) : StampTarget := if isNode then .node (ids.node+1) else .edge (ids.edge+1)

theorem applyNodeUpsert_minted {e e' : Engine} {call : ℕ} {node : Node} {stamp : Stamp}
    {current : StampTarget → Option Stamp} {remap remap' : Remap} (hn : remap.nodeTarget node.uuid = none)
    (h : e.applyNodeUpsert call node stamp current remap = (.ok true,e',remap')) :
    remap'.nodeTarget node.uuid = some (.node (e.ids.node+1)) ∧ e'.ids.Past (.node (e.ids.node+1)) := by
  simp only [applyNodeUpsert,hn,localWins_none,Bool.false_eq_true,if_false] at h
  split at h
  · simp at h
  · simp only [Prod.mk.injEq] at h
    obtain ⟨-,rfl,rfl⟩ := h
    refine ⟨?_,?_⟩
    · simp [Remap.nodeTarget,withLive,Inner.mergeNode,Inner.targetNode,Inner.nextNode,Engine.load]
    · rw [(leaveLock_core _ call _).ids]
      exact Inner.applyOp_past _ rfl

theorem applyEdgeUpsert_minted {e e' : Engine} {call : ℕ} {edge : Edge} {fromUuid toUuid : Uuid} {stamp : Stamp}
    {current : StampTarget → Option Stamp} {remap remap' : Remap} (hn : remap.edgeTarget edge.uuid = none)
    (h : e.applyEdgeUpsert call edge fromUuid toUuid stamp current remap = (.ok true,e',remap')) :
    remap'.edgeTarget edge.uuid = some (.edge (e.ids.edge+1)) ∧ e'.ids.Past (.edge (e.ids.edge+1)) := by
  simp only [applyEdgeUpsert] at h
  split at h
  · simp only [hn,localWins_none,Bool.false_eq_true,if_false] at h
    split at h
    · simp at h
    · simp only [Prod.mk.injEq] at h
      obtain ⟨-,rfl,rfl⟩ := h
      refine ⟨?_,?_⟩
      · simp [Remap.edgeTarget,withLive,Inner.mergeEdge,Inner.targetEdge,Inner.nextEdge,Engine.load]
      · rw [(leaveLock_core _ call _).ids]
        exact Inner.applyOp_past _ rfl
  · simp at h

theorem applyDelete_minted {e e' : Engine} {call : ℕ} {uuid : Uuid} {stamp : Stamp} {isNode : Bool}
    {current : StampTarget → Option Stamp} {remap remap' : Remap} (hn : remap.target uuid isNode = none)
    (h : e.applyDelete call uuid stamp isNode current remap = (.ok true,e',remap')) :
    remap'.target uuid isNode = some (nextTarget e.ids isNode) ∧ e'.ids.Past (nextTarget e.ids isNode) := by
  simp only [applyDelete,hn,localWins_none,Bool.false_eq_true,if_false] at h
  split at h
  · simp at h
  · simp only [Prod.mk.injEq] at h
    obtain ⟨-,rfl,rfl⟩ := h
    refine ⟨?_,by cases isNode <;> exact le_rfl⟩
    cases isNode <;>
    simp [Remap.target,Remap.nodeTarget,Remap.edgeTarget,Remap.forget,StampTarget.isNode,withLive,Inner.anchor,
      Inner.nextNode,Inner.nextEdge,Engine.load,nextTarget]

theorem mintedFor_spec {e : Engine} {call : ℕ} {change : StampedChange} {current : StampTarget → Option Stamp}
    {remap : Remap} {t : StampTarget} (h : e.mintedFor call change current remap = some t) :
    ¬ e.ids.Past t ∧ (e.applyChange call change current remap).2.1.ids.Past t := by
  unfold mintedFor at h
  rcases hr : e.applyChange call change current remap with ⟨r,e',remap'⟩
  rw [hr] at h
  cases r with
  | error err => cases h
  | ok won =>
    cases won with
    | false => cases h
    | true =>
      simp only at h
      split_ifs at h with hnone
      have hn := Option.isNone_iff_eq_none.mp hnone
      have hnext : remap'.target change.uuid change.isNode = some (nextTarget e.ids change.isNode) ∧
          e'.ids.Past (nextTarget e.ids change.isNode) := by
        cases change with
        | node node stamp => exact applyNodeUpsert_minted hn hr
        | edge edge fromUuid toUuid stamp => exact applyEdgeUpsert_minted hn hr
        | deleteNode uuid stamp => exact applyDelete_minted hn hr
        | deleteEdge uuid stamp => exact applyDelete_minted hn hr
      obtain rfl : t = nextTarget e.ids change.isNode := Option.some.inj (h.symm.trans hnext.1)
      refine ⟨?_,hnext.2⟩
      unfold nextTarget
      split_ifs <;> exact Nat.not_succ_le_self _

theorem batch_ops {e : Engine} {w : BatchWrite} {io : Bool} {op : GraphOp}
    (h : op ∈ (e.batch w io).1.toOption.getD []) : ∃ ops u, w.run (e.load e.live) = (.ok ops,u) ∧ op ∈ ops := by
  unfold batch at h
  split_ifs at h with hn
  · simp [Except.toOption] at h
  cases hf : e.writeForCommit with
  | error err => simp [hf,Except.toOption] at h
  | ok u =>
    rcases hr : w.run (e.load e.live) with ⟨r,v⟩
    cases r with
    | error err => simp [hf,hr,Except.toOption] at h
    | ok ops =>
      simp only [hf,hr] at h
      split_ifs at h with he
      · simp [Except.toOption] at h
      · refine ⟨ops,v,rfl,?_⟩
        split at h
        · simp [Except.toOption] at h
        · simpa [Except.toOption] using h

theorem deleteAll_stored (s : Inner) (ids : List ℕ) : ∀ op ∈ (BatchWrite.deleteAll s ids).1, op.stored = none := by
  induction ids generalizing s with
  | nil => simp [BatchWrite.deleteAll]
  | cons i ids ih =>
    simp only [BatchWrite.deleteAll]
    split
    · exact ih s
    · rename_i t hd
      intro op hop
      simp only [Prod.map_fst,List.mem_cons] at hop
      rcases hop with rfl | hop
      · rfl
      · exact ih t op hop

theorem batch_fresh {s u : Inner} (hw : s.Wf) {w : BatchWrite} {ops : List GraphOp} (h : w.run s = (.ok ops,u)) :
    ∀ op ∈ ops, ∀ t, op.stored = some t → ¬ s.ids.Past t := by
  cases w with
  | createNodes newNodes =>
    refine mutateAll_fresh hw ?_ h
    intro m hm
    obtain ⟨p,-,rfl⟩ := List.mem_map.mp hm
    rfl
  | createEdges newEdges =>
    refine mutateAll_fresh hw ?_ h
    intro m hm
    obtain ⟨p,-,rfl⟩ := List.mem_map.mp hm
    rfl
  | deleteNodes ids =>
    simp only [BatchWrite.run,Prod.map,Prod.mk.injEq,Except.ok.injEq,id] at h
    obtain ⟨rfl,-⟩ := h
    intro op hop t ht
    rw [deleteAll_stored s ids op hop] at ht
    cases ht

/-- No action hands out an id that was drawn before. -/
theorem handedOut_fresh {e : Engine} (hi : Inv e) (a : Action) : ∀ t ∈ e.handedOut a, ¬ e.ids.Past t := by
  intro t ht
  cases a with
  | direct call w =>
    cases w with
    | mutation m =>
      simp only [handedOut] at ht
      split_ifs at ht with hc
      · cases ht
      · have hm : m.creates = true := by
          simp only [Bool.or_eq_true,Bool.not_eq_true',not_or,Bool.not_eq_false] at hc
          exact hc.2
        obtain ⟨op,hop,hstored⟩ := List.mem_filterMap.mp ht
        simp only [direct,DirectWrite.isNoop,Bool.false_eq_true,if_false] at hop
        cases hf : e.writeForCommit with
        | error err => simp [hf,Except.toOption] at hop
        | ok u =>
          rcases hr : (e.load e.live).mutate m true with ⟨r,v⟩
          cases r with
          | error err => simp [hf,withLive,DirectWrite.run,hr,Except.map,Except.toOption] at hop
          | ok made =>
            simp only [hf,withLive,DirectWrite.run,hr,Except.map,Except.toOption,Prod.map_apply,id,Option.getD_some,
              List.mem_singleton] at hop
            subst hop
            exact mutate_fresh hm hr t hstored
    | setEmbedding id vector => cases ht
    | setEmbeddings embeddings => cases ht
    | deleteEmbedding id => cases ht
  | batch w io =>
    obtain ⟨op,hop,hstored⟩ := List.mem_filterMap.mp ht
    obtain ⟨ops,u,hr,hmem⟩ := batch_ops hop
    exact batch_fresh hi.live hr op hmem t hstored
  | txWrite id m =>
    simp only [handedOut] at ht
    split_ifs at ht with hm
    · obtain ⟨op,hop,hstored⟩ := List.mem_filterMap.mp ht
      simp only [txWrite] at hop
      cases hs : e.txs[id]? with
      | none => simp [hs,Except.toOption] at hop
      | some slot =>
        simp only [hs] at hop
        split at hop
        · simp [Except.toOption] at hop
        · rcases hr : (e.load slot.working).mutate m false with ⟨r,v⟩
          cases r with
          | error err => simp [hr,Except.toOption] at hop
          | ok made =>
            simp only [hr,Except.toOption,Option.toList_some,List.mem_singleton] at hop
            subst hop
            exact mutate_fresh hm hr t hstored
    · cases ht
  | deltaStep id call current =>
    simp only [handedOut] at ht
    split at ht
    · split_ifs at ht with hc
      · cases ht
      · exact (mintedFor_spec (Option.mem_toList.mp ht)).1
    · cases ht
  | enqueue call encoded => cases ht
  | lead => cases ht
  | finish io => cases ht
  | await call => cases ht
  | txBegin isolation limited => cases ht
  | txCommit id io => cases ht
  | txRollback id => cases ht
  | txPrepare id gid now io => cases ht
  | commitPrepared gid io => cases ht
  | rollbackPrepared gid heuristic io => cases ht
  | addConstraint c => cases ht
  | removeConstraint c => cases ht
  | applyDump call dump => cases ht
  | deltaBegin id changes tomb => cases ht

theorem anchored_past {e : Engine} (a : Action) : ∀ t ∈ e.anchored a, (e.step a).ids.Past t := by
  intro t ht
  cases a with
  | deltaStep id call current =>
    have hcore := deltaStep_core e id call current
    simp only [anchored,handedOut] at ht
    cases hn : e.nextChange id with
    | none =>
      rw [hn] at ht
      cases ht
    | some p =>
      obtain ⟨change,remap⟩ := p
      rw [hn] at ht hcore
      simp only at ht hcore
      split_ifs at ht with hdel hc
      · cases ht
      · simp only [step,if_neg hc]
        rw [hcore.ids]
        exact (mintedFor_spec (Option.mem_toList.mp ht)).2
      · cases ht
  | _ => cases ht

def compactWal (e : Engine) : Engine :=
  if e.readOnly then e
  else { e with queue := { e.queue with log := e.live.toWalOps.map (fun op => [op]) } }

theorem compactWal_covered {e : Engine} (hi : Inv e) (h : e.Covered) :
    Inv e.compactWal ∧ e.compactWal.Covered ∧ e.compactWal.ids = e.ids := by
  unfold compactWal
  split_ifs
  · exact ⟨hi,h,rfl⟩
  refine ⟨hi.of_core (by constructor <;> rfl),⟨?_,h.inflight,h.slots⟩,rfl⟩
  intro record hr
  rcases List.mem_append.mp hr with hr | hr
  · obtain ⟨op,hop,rfl⟩ := List.mem_map.mp hr
    intro x hx t ht
    obtain rfl := List.mem_singleton.mp hx
    simp only [Inner.toWalOps,List.mem_append,List.mem_map] at hop
    rcases hop with (((⟨p,hp,rfl⟩ | ⟨p,hp,rfl⟩) | ⟨p,hp,rfl⟩) | ⟨p,hp,rfl⟩) | ⟨p,hp,rfl⟩
    · have hget := Std.ExtTreeMap.mem_toList_iff_getElem?_eq_some.mp hp
      have hkey := hi.live.nodes.key p.1 p.2 hget
      obtain rfl : StampTarget.node p.2.id = t := Option.some.inj ht
      exact hkey ▸ hi.live.nodes.bound p.1 p.2 hget
    · have hget := Std.ExtTreeMap.mem_toList_iff_getElem?_eq_some.mp hp
      have hkey := hi.live.edges.key p.1 p.2 hget
      obtain rfl : StampTarget.edge p.2.id = t := Option.some.inj ht
      exact hkey ▸ hi.live.edges.bound p.1 p.2 hget
    · cases ht
    · cases ht
    · cases ht
  · exact h.queue record (List.mem_append_right _ hr)

theorem openLog_covered (capacity : ℕ) (readOnly : Bool) (maxTxWrites : Option ℕ) (log : List (List WalOp)) :
    (openLog capacity readOnly maxTxWrites log).Covered := by
  refine ⟨?_,by simp [openLog],by simp [openLog]⟩
  intro record hr op hop t ht
  have hmem : record ∈ log := by simpa [openLog,GroupQueue.order,GroupQueue.inFlight] using hr
  exact ({} : Inner).applyWalOps_covers log.flatten op (List.mem_flatten.mpr ⟨record,hmem,hop⟩) t ht

end Engine

/-! ## The life of a store -/

/-- A store with the ids that were given to a record in its log, now or before, or to a
tombstone. -/
structure Allocation where
  engine : Engine
  taken : List StampTarget := []

/-- An action on the open store, a compaction of its log, or a reopen with new settings. -/
inductive LifeStep where
  | act (a : Action)
  | compactWal
  | reopen (capacity : ℕ) (readOnly : Bool) (maxTxWrites : Option ℕ)

def LifeStep.isLocal : LifeStep → Bool
  | .act a => a.isLocal
  | _ => true

def LifeStep.isReopen : LifeStep → Bool
  | .reopen _ _ _ => true
  | _ => false

namespace Allocation

def step (s : Allocation) : LifeStep → Allocation
  | .act a => ⟨s.engine.step a,s.taken ++ s.engine.anchored a ++ (s.engine.step a).logged⟩
  | .compactWal => { s with engine := s.engine.compactWal }
  | .reopen capacity readOnly maxTxWrites =>
    { s with engine := .openLog capacity readOnly maxTxWrites s.engine.queue.log }

def handedOut (s : Allocation) : LifeStep → List StampTarget
  | .act a => s.engine.handedOut a
  | _ => []

/-- The states of a run, each with the step taken there. -/
def trace (s : Allocation) : List LifeStep → List (Allocation × LifeStep)
  | [] => []
  | a :: as => (s,a) :: trace (s.step a) as

/-- The log stores a record of the same kind under an id as high. -/
def Mentioned (log : List (List WalOp)) (t : StampTarget) : Prop :=
  ∃ u ∈ log.flatten.filterMap WalOp.stored, t.upTo u = true

instance (log : List (List WalOp)) (t : StampTarget) : Decidable (Mentioned log t) :=
  inferInstanceAs (Decidable (∃ u ∈ log.flatten.filterMap WalOp.stored, t.upTo u = true))

structure Inv (s : Allocation) : Prop where
  engine : s.engine.Inv
  covered : s.engine.Covered
  taken : ∀ t ∈ s.taken, s.engine.ids.Past t

theorem step_inv {s : Allocation} (h : Inv s) {a : LifeStep} (hl : a.isLocal = true)
    (hr : a.isReopen = true → ∀ t ∈ s.taken, Mentioned s.engine.queue.log t) : Inv (s.step a) := by
  cases a with
  | act a =>
    obtain ⟨hcov,hids⟩ := Engine.step_covered h.engine h.covered hl
    refine ⟨Engine.step_inv h.engine a,hcov,?_⟩
    intro t ht
    simp only [step,List.mem_append] at ht
    rcases ht with (ht | ht) | ht
    · exact (h.taken t ht).mono hids
    · exact Engine.anchored_past a t ht
    · exact hcov.logged t ht
  | compactWal =>
    obtain ⟨hi,hcov,hids⟩ := Engine.compactWal_covered h.engine h.covered
    refine ⟨hi,hcov,?_⟩
    intro t ht
    simp only [step,hids]
    exact h.taken t ht
  | reopen capacity readOnly maxTxWrites =>
    refine ⟨Engine.openLog_inv capacity readOnly maxTxWrites _,Engine.openLog_covered capacity readOnly maxTxWrites _,?_⟩
    intro t ht
    obtain ⟨u,hu,hle⟩ := hr rfl t ht
    obtain ⟨op,hop,hstored⟩ := List.mem_filterMap.mp hu
    exact (({} : Inner).applyWalOps_covers _ op hop u hstored).of_upTo hle

def fresh (capacity : ℕ) (readOnly : Bool) (maxTxWrites : Option ℕ) : Allocation :=
  ⟨.openLog capacity readOnly maxTxWrites [],[]⟩

end Allocation
end

namespace Allocation
section Sample
attribute [local instance] Json.compactText

/-- A direct write from its call to its return. -/
def written (call : ℕ) (m : Mutation) : List LifeStep :=
  [.act (.direct call (.mutation m)),.act (.enqueue call true),.act .lead,.act (.finish true),.act (.await call)]

def createNamed (call : ℕ) (title : String) : List LifeStep := written call (.createNode (.titled "Note" title) ⟨5,call⟩)

end Sample
end Allocation
end Drevo
