import Drevo.Delta.Cells

/-! One change of a peer. What the identity map knows agrees with the cells, so that a change that
wins is written where its UUID is held, and one that loses finds something at least as new. -/
namespace Drevo
open Lib

/-! ## The engine under a change -/

namespace Engine
variable [JsonText] {e e' : Engine} {call : ℕ} {stamp : Stamp} {current : StampTarget → Option Stamp}
  {remap remap' : Remap} {won : Bool}

theorem applyNodeUpsert_ok (hw : (e.load e.live).Wf) {node : Node}
    (h : e.applyNodeUpsert call node stamp current remap = (.ok won,e',remap')) :
    (won = false ∧ localWins current (remap.target node.uuid true) stamp = true ∧ e' = e ∧ remap' = remap) ∨
    (won = true ∧ localWins current (remap.target node.uuid true) stamp = false ∧ ∃ id,
      (remap.target node.uuid true = some (.node id) ∨
        remap.target node.uuid true = none ∧ StampTarget.node id = nextTarget e.ids true) ∧
      WriteSection e e' [.upsertNode { node with id := id }] ∧
      remap' = { remap with node := remap.node.insert node.uuid id, tomb := remap.tomb.erase node.uuid }) := by
  simp only [applyNodeUpsert] at h
  split_ifs at h with hl
  · simp only [Prod.mk.injEq,Except.ok.injEq] at h
    exact Or.inl ⟨h.1.symm,hl,h.2.1.symm,h.2.2.symm⟩
  · split at h
    · simp at h
    · rename_i hfree
      simp only [Prod.mk.injEq,Except.ok.injEq] at h
      obtain ⟨rfl,rfl,rfl⟩ := h
      obtain ⟨ha,hi⟩ := targetNode_agree (e.load e.live) (remap.nodeTarget node.uuid)
      refine Or.inr ⟨rfl,Bool.eq_false_iff.mpr hl,(Inner.targetNode (e.load e.live) (remap.nodeTarget node.uuid)).1,?_,
        (WriteSection.minted hw hfree ha hi (.upsertNode _)).of_core (leaveLock_core _ call _),rfl⟩
      change remap.nodeTarget node.uuid = _ ∨ remap.nodeTarget node.uuid = none ∧ _
      cases ht : remap.nodeTarget node.uuid with
      | none => exact Or.inr ⟨rfl,rfl⟩
      | some t =>
        cases t with
        | node id => exact Or.inl rfl
        | edge id =>
          simp only [Remap.nodeTarget] at ht
          split at ht
          · cases ht
          · obtain ⟨-,hno⟩ := Option.filter_eq_some_iff.mp ht
            cases hno

theorem applyEdgeUpsert_ok (hw : (e.load e.live).Wf) {edge : Edge} {fromUuid toUuid : Uuid}
    (h : e.applyEdgeUpsert call edge fromUuid toUuid stamp current remap = (.ok won,e',remap')) :
    (won = false ∧ (remap.node[fromUuid]? = none ∨ remap.node[toUuid]? = none ∨
      localWins current (remap.target edge.uuid false) stamp = true) ∧ e' = e ∧ remap' = remap) ∨
    (won = true ∧ localWins current (remap.target edge.uuid false) stamp = false ∧ ∃ a b id,
      remap.node[fromUuid]? = some a ∧ remap.node[toUuid]? = some b ∧
      (remap.target edge.uuid false = some (.edge id) ∨
        remap.target edge.uuid false = none ∧ StampTarget.edge id = nextTarget e.ids false) ∧
      WriteSection e e' [.upsertEdge { edge with id := id, fromId := a, toId := b }] ∧
      remap' = { remap with edge := remap.edge.insert edge.uuid id, tomb := remap.tomb.erase edge.uuid }) := by
  simp only [applyEdgeUpsert] at h
  split at h
  · rename_i a b ha hb
    split_ifs at h with hl
    · simp only [Prod.mk.injEq,Except.ok.injEq] at h
      exact Or.inl ⟨h.1.symm,Or.inr (Or.inr hl),h.2.1.symm,h.2.2.symm⟩
    · split at h
      · simp at h
      · rename_i hfree
        simp only [Prod.mk.injEq,Except.ok.injEq] at h
        obtain ⟨rfl,rfl,rfl⟩ := h
        obtain ⟨hag,hi⟩ := targetEdge_agree (e.load e.live) (remap.edgeTarget edge.uuid)
        refine Or.inr ⟨rfl,Bool.eq_false_iff.mpr hl,a,b,(Inner.targetEdge (e.load e.live) (remap.edgeTarget edge.uuid)).1,ha,hb,?_,
          (WriteSection.minted hw hfree hag hi (.upsertEdge _)).of_core (leaveLock_core _ call _),rfl⟩
        change remap.edgeTarget edge.uuid = _ ∨ remap.edgeTarget edge.uuid = none ∧ _
        cases ht : remap.edgeTarget edge.uuid with
        | none => exact Or.inr ⟨rfl,rfl⟩
        | some t =>
          cases t with
          | edge id => exact Or.inl rfl
          | node id =>
            simp only [Remap.edgeTarget] at ht
            split at ht
            · cases ht
            · obtain ⟨-,hno⟩ := Option.filter_eq_some_iff.mp ht
              cases hno
  · rename_i hends
    simp only [Prod.mk.injEq,Except.ok.injEq] at h
    refine Or.inl ⟨h.1.symm,?_,h.2.1.symm,h.2.2.symm⟩
    cases ha : remap.node[fromUuid]? with
    | none => exact Or.inl rfl
    | some a =>
      cases hb : remap.node[toUuid]? with
      | none => exact Or.inr (Or.inl rfl)
      | some b => exact absurd hb (hends a b ha)

theorem applyDelete_ok (hw : (e.load e.live).Wf) {uuid : Uuid} {isNode : Bool}
    (h : e.applyDelete call uuid stamp isNode current remap = (.ok won,e',remap')) :
    (won = false ∧ localWins current (remap.target uuid isNode) stamp = true ∧ e' = e ∧ remap' = remap) ∨
    (won = true ∧ localWins current (remap.target uuid isNode) stamp = false ∧ ∃ t,
      (remap.target uuid isNode = some t ∨
        remap.target uuid isNode = none ∧ t = nextTarget e.ids isNode ∧ e'.ids.Past t) ∧
      ((∃ id, remap.target uuid isNode = some t ∧ remap.liveId uuid isNode = some id ∧ WriteSection e e' [deleteOp isNode id]) ∨
        (remap.target uuid isNode = none ∨ remap.liveId uuid isNode = none) ∧ WriteSection e e' []) ∧
      remap' = remap.forget uuid isNode t) := by
  simp only [applyDelete] at h
  by_cases hl : localWins current (remap.target uuid isNode) stamp = true
  · rw [if_pos hl] at h
    simp only [Prod.mk.injEq,Except.ok.injEq] at h
    exact Or.inl ⟨h.1.symm,hl,h.2.1.symm,h.2.2.symm⟩
  · have hl' := Bool.eq_false_iff.mpr hl
    right
    rw [if_neg hl] at h
    split at h
    · rename_i t id ht hid
      split at h
      · simp at h
      · rename_i hfree
        simp only [Prod.mk.injEq,Except.ok.injEq] at h
        obtain ⟨rfl,rfl,rfl⟩ := h
        exact ⟨rfl,hl',t,Or.inl ht,
          Or.inl ⟨id,ht,hid,(WriteSection.applied hw hfree _).of_core (leaveLock_core _ call _)⟩,rfl⟩
    · rename_i t ht hid
      simp only [Prod.mk.injEq,Except.ok.injEq] at h
      obtain ⟨rfl,rfl,rfl⟩ := h
      exact ⟨rfl,hl',t,Or.inl ht,Or.inr ⟨Or.inr hid,.quiet hw (SameCore.refl e)⟩,rfl⟩
    · rename_i ht
      split at h
      · simp at h
      · -- an anchor id is minted and nothing stored
        simp only [Prod.mk.injEq,Except.ok.injEq] at h
        obtain ⟨rfl,rfl,rfl⟩ := h
        obtain ⟨ha,hi⟩ := anchor_agree (e.load e.live) isNode
        have ha' := (e.load_agree e.live).trans ha
        refine ⟨rfl,hl',_,Or.inr ⟨ht,?_,?_⟩,Or.inr ⟨Or.inl ht,?_,ha'.schema,Or.inl rfl⟩,rfl⟩
        · cases isNode <;> rfl
        · cases isNode <;> exact le_rfl
        · exact .noted _ (hw.of_agree ha hi.1 hi.2) ha'.graph.symm ha'.commitSeq hi (Or.inl rfl)

omit [JsonText] in
theorem settle_core (e : Engine) (call : ℕ) (encoded io : Bool) : SameCore e (e.settle call encoded io).2 := by
  unfold settle
  split
  · exact SameCore.refl e
  · simp only
    split
    · refine (enqueue_core e call encoded).trans (SameCore.trans ?_ (await_core _ call))
      constructor <;> rfl
    · exact enqueue_core e call encoded

end Engine

namespace Peer
variable [JsonText] {kind : Uuid → Bool} {p q : Peer}

/-! ## Writing to the tables -/

theorem Tidy.markLive (h : Tidy kind p) {e : Engine} {t : StampTarget} {u : Uuid} {v : Held} (s : Stamp)
    (hids : p.engine.ids.Le e.ids) (hwf : (e.load e.live).Wf) (hi : e.live.graph.Intact)
    (hrec : ∀ t', e.live.graph.record t' = if t' = t then some (u,v) else p.graph.record t')
    (hat : p.At t u) (hk : kind u = t.isNode) :
    Tidy kind ({ p with engine := e }.markLive t s) ∧ Wrote p ({ p with engine := e }.markLive t s) t ⟨u,s,v⟩ := by
  obtain ⟨q,hq⟩ : ∃ q, { p with engine := e }.markLive t s = q := ⟨_,rfl⟩
  have hlive : v.isGone = false := record_held (by rw [hrec t,if_pos rfl])
  have hstamps : ∀ t' : StampTarget, q.stamps[t']? = if t = t' then some s else p.stamps[t']? := by
    intro t'
    rw [← hq]
    exact Map.get_insert ..
  have htombs : ∀ t' : StampTarget, q.tombstones[t']? = if t = t' then none else p.tombstones[t']? := by
    intro t'
    rw [← hq]
    exact Map.get_erase ..
  have hrec' : ∀ t', q.graph.record t' = if t' = t then some (u,v) else p.graph.record t' := by
    intro t'
    rw [← hrec t',← hq]
    rfl
  have hids' : q.engine.ids = e.ids := by rw [← hq]; rfl
  have hw : Wrote p q t ⟨u,s,v⟩ := by
    constructor
    · simp [cell,hrec',hstamps]
    · intro t' ht
      have hkeep : ∀ o : Option Cell, o.filter (fun d => !(Cell.mk u s v).drops d) = o := by
        intro o
        cases o <;> simp [Cell.drops,hlive,Option.filter_some]
      simp only [hkeep,cell,hrec',hstamps,htombs,if_neg ht,if_neg (Ne.symm ht)]
  rw [hq]
  refine ⟨⟨?_,?_,?_,?_,?_,h.wrote_kinds hw hk,h.wrote_inj hw hat⟩,hw⟩
  · rw [← hq]
    exact hwf
  · rw [← hq]
    exact hi
  · intro t' hs
    rw [hrec'] at hs
    rw [hstamps]
    split_ifs with ht
    · rfl
    · rw [if_neg (Ne.symm ht)] at hs
      exact h.stamped t' hs
  · intro t' hs
    rw [htombs] at hs
    split_ifs at hs with ht
    · simp at hs
    · rw [hstamps,if_neg ht]
      exact h.disjoint t' hs
  · intro t' hs
    rw [htombs] at hs
    split_ifs at hs with ht
    · simp at hs
    · rw [hids']
      exact (h.past t' hs).mono hids

theorem Tidy.markTombstoned (h : Tidy kind p) {e : Engine} {t : StampTarget} {u : Uuid} (s : Stamp)
    (hids : p.engine.ids.Le e.ids) (hwf : (e.load e.live).Wf) (hi : e.live.graph.Intact) (hpast : e.ids.Past t)
    (hrec : ∀ t', e.live.graph.record t' =
      if t' = t then none else (p.graph.record t').filter (fun r => !r.2.touches u))
    (hat : p.At t u) (hk : kind u = t.isNode) :
    Tidy kind ({ p with engine := e }.markTombstoned t s u) ∧
      Wrote p ({ p with engine := e }.markTombstoned t s u) t ⟨u,s,.gone⟩ := by
  obtain ⟨q,hq⟩ : ∃ q, { p with engine := e }.markTombstoned t s u = q := ⟨_,rfl⟩
  have hstamps : ∀ t' : StampTarget, q.stamps[t']? = if t = t' then none else p.stamps[t']? := by
    intro t'
    rw [← hq]
    exact Map.get_erase ..
  have htombs : ∀ t' : StampTarget, q.tombstones[t']? = if t = t' then some ⟨s,u⟩ else p.tombstones[t']? := by
    intro t'
    rw [← hq]
    exact Map.get_insert ..
  have hrec' : ∀ t', q.graph.record t' =
      if t' = t then none else (p.graph.record t').filter (fun r => !r.2.touches u) := by
    intro t'
    rw [← hrec t',← hq]
    rfl
  have hids' : q.engine.ids = e.ids := by rw [← hq]; rfl
  have hsub : ∀ t', (q.graph.record t').isSome → t' ≠ t ∧ (p.graph.record t').isSome := by
    intro t' hs
    rw [hrec'] at hs
    split_ifs at hs with ht
    · simp at hs
    · obtain ⟨r,hr⟩ := Option.isSome_iff_exists.mp hs
      exact ⟨ht,by rw [(Option.filter_eq_some_iff.mp hr).1]; rfl⟩
  have hw : Wrote p q t ⟨u,s,.gone⟩ := by
    constructor
    · simp [cell,hrec',htombs]
    · intro t' ht
      have hs : q.stamps[t']? = p.stamps[t']? := by rw [hstamps,if_neg (Ne.symm ht)]
      have htomb : q.tombstones[t']? = p.tombstones[t']? := by rw [htombs,if_neg (Ne.symm ht)]
      have hr := hrec' t'
      rw [if_neg ht] at hr
      cases hp : p.graph.record t' with
      | none =>
        rw [hp,Option.filter_none] at hr
        rw [cell_dead hr,cell_dead hp,htomb]
        cases p.tombstones[t']? <;> simp [Option.filter_some,Cell.drops,Held.isGone,Held.touches]
      | some r =>
        obtain ⟨s',hs',hc⟩ := h.live (show p.graph.record t' = some (r.1,r.2) from hp)
        rw [hp] at hr
        rw [hc]
        by_cases htouch : r.2.touches u = true
        · have hnone : p.tombstones[t']? = none := by
            rw [← Option.not_isSome_iff_eq_none]
            intro hsome
            rw [h.disjoint t' hsome] at hs'
            cases hs'
          rw [cell_dead (by rw [hr]; simp [Option.filter_some,htouch]),htomb,hnone]
          simp [Option.filter_some,Cell.drops,Held.isGone,htouch]
        · have hkeep : q.graph.record t' = some (r.1,r.2) := by
            rw [hr]
            simp [Option.filter_some,htouch]
          simp [cell,hkeep,hs,hs',Option.filter_some,Cell.drops,htouch]
  rw [hq]
  refine ⟨⟨?_,?_,?_,?_,?_,h.wrote_kinds hw hk,h.wrote_inj hw hat⟩,hw⟩
  · rw [← hq]
    exact hwf
  · rw [← hq]
    exact hi
  · intro t' hs
    obtain ⟨ht,hp⟩ := hsub t' hs
    rw [hstamps,if_neg (Ne.symm ht)]
    exact h.stamped t' hp
  · intro t' hs
    rw [hstamps]
    split_ifs with ht
    · rfl
    · rw [htombs,if_neg ht] at hs
      exact h.disjoint t' hs
  · intro t' hs
    rw [hids']
    by_cases ht : t = t'
    · exact ht ▸ hpast
    · rw [htombs,if_neg ht] at hs
      exact (h.past t' hs).mono hids

omit [JsonText] in
theorem record_untouched {u : Uuid} (hno : ∀ (id : ℕ) (n : Node), p.graph.nodes[id]? = some n → n.uuid ≠ u)
    (t : StampTarget) : (p.graph.record t).filter (fun r => !r.2.touches u) = p.graph.record t := by
  cases hr : p.graph.record t with
  | none => rfl
  | some r =>
    have htouch : r.2.touches u = false := by
      cases t with
      | node id =>
        obtain ⟨n,-,-,hv⟩ := Graph.record_node.mp (show p.graph.record (.node id) = some (r.1,r.2) from hr)
        rw [hv]
        rfl
      | edge id =>
        obtain ⟨e,a,b,-,ha,hb,-,hv⟩ := Graph.record_edge.mp (show p.graph.record (.edge id) = some (r.1,r.2) from hr)
        obtain ⟨n,hn,hna⟩ := Option.map_eq_some_iff.mp ha
        obtain ⟨m,hm,hmb⟩ := Option.map_eq_some_iff.mp hb
        have hau : a ≠ u := hna ▸ hno _ n hn
        have hbu : b ≠ u := hmb ▸ hno _ m hm
        rw [hv]
        simp [Held.touches,hau,hbu]
    simp [Option.filter_some,htouch]

/-! ## The identity map -/

section
attribute [local instance] Engine.uuid_trans

omit [JsonText] in
/-- The map has the target of every cell of that sort, under its UUID. -/
def Indexes {ι : Type} (p : Peer) (m : Map Uuid ι) (make : ι → StampTarget) (gone : Bool) : Prop :=
  ∀ (u : Uuid) (i : ι), m[u]? = some i ↔ ∃ c, p.cell (make i) = some c ∧ c.uuid = u ∧ c.held.isGone = gone

end

/-- The identity map knows the nodes and the tombstones. -/
structure Agrees (remap : Remap) (p : Peer) : Prop where
  node : p.Indexes remap.node .node false
  tomb : p.Indexes remap.tomb id true

/-- It knows the edges too, as long as no node was deleted: it is not told of the edges a deletion
takes along. -/
def KnowsEdges (remap : Remap) (p : Peer) : Prop := p.Indexes remap.edge .edge false

section Identity
variable {remap : Remap} {u : Uuid} {isNode : Bool}

/-- A lookup among the records, then among the tombstones, finds where a UUID is held. -/
theorem Tidy.lookup (h : Tidy kind p) (ha : Agrees remap p) (hk : kind u = isNode) {m : Map Uuid ℕ}
    {f : ℕ → StampTarget} (hmake : ∀ t : StampTarget, t.isNode = isNode → ∃ id, t = f id)
    (hm : ∀ id, m[u]? = some id ↔ ∃ c, p.cell (f id) = some c ∧ c.uuid = u ∧ c.held.isGone = false)
    (t : StampTarget) : (match m[u]? with
      | some id => some (f id)
      | none => remap.tomb[u]?.filter (fun t => t.isNode = isNode)) = some t ↔ ∃ c, p.cell t = some c ∧ c.uuid = u := by
  constructor
  · intro hs
    cases hid : m[u]? with
    | some id =>
      rw [hid] at hs
      obtain rfl := Option.some.inj hs
      obtain ⟨c,hc,hu,-⟩ := (hm id).mp hid
      exact ⟨c,hc,hu⟩
    | none =>
      rw [hid] at hs
      obtain ⟨htomb,-⟩ := Option.filter_eq_some_iff.mp hs
      obtain ⟨c,hc,hu,-⟩ := (ha.tomb u t).mp htomb
      exact ⟨c,hc,hu⟩
  · rintro ⟨c,hc,hu⟩
    have htn : t.isNode = isNode := by rw [← h.kinds t c hc,hu,hk]
    cases hg : c.held.isGone with
    | false =>
      obtain ⟨id,rfl⟩ := hmake t htn
      rw [(hm id).mpr ⟨c,hc,hu,hg⟩]
    | true =>
      -- a record under the UUID would be held at the same target
      have hnone : m[u]? = none := by
        rw [Option.eq_none_iff_forall_ne_some]
        intro id hid
        obtain ⟨c',hc',hu',hg'⟩ := (hm id).mp hid
        obtain rfl := h.inj t (f id) c c' hc hc' (hu.trans hu'.symm)
        rw [hc] at hc'
        obtain rfl := Option.some.inj hc'
        rw [hg] at hg'
        cases hg'
      rw [hnone,(ha.tomb u t).mpr ⟨c,hc,hu,hg⟩]
      simp [Option.filter_some,htn]

theorem Tidy.target (h : Tidy kind p) (ha : Agrees remap p) (he : isNode = false → KnowsEdges remap p)
    (hk : kind u = isNode) (t : StampTarget) : remap.target u isNode = some t ↔ ∃ c, p.cell t = some c ∧ c.uuid = u := by
  cases isNode with
  | true =>
    rw [← h.lookup ha hk (f := StampTarget.node) ?_ (ha.node u) t]
    · simp only [Remap.target,if_true,Remap.nodeTarget]
      cases remap.node[u]? <;> simp
    · intro t' ht'
      cases t' with
      | node id => exact ⟨id,rfl⟩
      | edge id => cases ht'
  | false =>
    rw [← h.lookup ha hk (f := StampTarget.edge) ?_ (he rfl u) t]
    · simp only [Remap.target,Bool.false_eq_true,if_false,Remap.edgeTarget]
      cases remap.edge[u]? <;> simp
    · intro t' ht'
      cases t' with
      | node id => cases ht'
      | edge id => exact ⟨id,rfl⟩

theorem Tidy.localWins (h : Tidy kind p) (ha : Agrees remap p) (he : isNode = false → KnowsEdges remap p)
    (hk : kind u = isNode) (s : Stamp) :
    Drevo.localWins p.currentStamp (remap.target u isNode) s = true ↔ p.Covers u s := by
  cases ht : remap.target u isNode with
  | none =>
    simp only [Drevo.localWins,Option.bind_none,Bool.false_eq_true,false_iff]
    rintro ⟨s',v,⟨t,hc⟩,-⟩
    have hsome := (h.target ha he hk t).mpr ⟨_,hc,rfl⟩
    rw [ht] at hsome
    cases hsome
  | some t =>
    obtain ⟨c,hc,rfl⟩ := (h.target ha he hk t).mp ht
    simp only [Drevo.localWins,Option.bind_some,h.currentStamp hc,decide_eq_true_eq]
    constructor
    · intro hs
      exact ⟨c.stamp,c.held,⟨t,hc⟩,hs⟩
    · rintro ⟨s',v,⟨t',hc'⟩,hs⟩
      obtain rfl := h.inj t t' _ _ hc hc' rfl
      rw [hc] at hc'
      have hstamp : c.stamp = s' := congrArg Cell.stamp (Option.some.inj hc')
      rwa [hstamp]

theorem Tidy.target_none (h : Tidy kind p) (ha : Agrees remap p) (he : isNode = false → KnowsEdges remap p)
    (hk : kind u = isNode) (hn : remap.target u isNode = none) (t : StampTarget) (c : Cell) (hc : p.cell t = some c) :
    c.uuid ≠ u := by
  rintro rfl
  have hs := (h.target ha he hk t).mpr ⟨c,hc,rfl⟩
  rw [hn] at hs
  cases hs

theorem Tidy.fresh (h : Tidy kind p) {t : StampTarget} (ht : ¬ p.engine.ids.Past t) : p.cell t = none := by
  cases hc : p.cell t with
  | none => rfl
  | some c => exact absurd (h.cell_past hc) ht

end Identity

/-! ## The identity map under a write -/

section Index
variable {ι : Type} {m : Map Uuid ι} {make : ι → StampTarget} {gone : Bool} {t : StampTarget} {c : Cell}

omit [JsonText] in
theorem Wrote.elsewhere (hw : Wrote p q t c) (hat : p.At t c.uuid) {t' : StampTarget} {u : Uuid} (hu : u ≠ c.uuid)
    (hkeep : ∀ d, p.cell t' = some d → d.held.isGone = gone → c.drops d = false) :
    (∃ d, q.cell t' = some d ∧ d.uuid = u ∧ d.held.isGone = gone) ↔
      ∃ d, p.cell t' = some d ∧ d.uuid = u ∧ d.held.isGone = gone := by
  by_cases ht : t' = t
  · subst ht
    constructor
    · rintro ⟨d,hd,hdu,-⟩
      rw [hw.here] at hd
      obtain rfl := Option.some.inj hd
      exact absurd hdu.symm hu
    · rintro ⟨d,hd,hdu,-⟩
      obtain ⟨d',hd',hdu'⟩ | ⟨hnone,-⟩ := hat
      · rw [hd] at hd'
        obtain rfl := Option.some.inj hd'
        exact absurd (hdu.symm.trans hdu') hu
      · rw [hd] at hnone
        cases hnone
  · rw [hw.there t' ht]
    constructor
    · rintro ⟨d,hd,hrest⟩
      exact ⟨d,(Option.filter_eq_some_iff.mp hd).1,hrest⟩
    · rintro ⟨d,hd,hdu,hg⟩
      refine ⟨d,?_,hdu,hg⟩
      rw [hd,Option.filter_some,hkeep d hd hg]
      rfl

theorem Indexes.insert (hx : p.Indexes m make gone) (hmake : Function.Injective make) (h : Tidy kind p)
    {i : ι} (hw : Wrote p q (make i) c) (hat : p.At (make i) c.uuid) (hg : c.held.isGone = gone)
    (hkeep : ∀ j d, p.cell (make j) = some d → d.held.isGone = gone → c.drops d = false) :
    q.Indexes (m.insert c.uuid i) make gone := by
  intro u j
  rw [Map.get_insert]
  by_cases hu : c.uuid = u
  · subst hu
    rw [if_pos rfl,Option.some.injEq]
    constructor
    · rintro rfl
      exact ⟨c,hw.here,rfl,hg⟩
    · rintro ⟨d,hd,hdu,-⟩
      exact hmake (h.wrote_inj hw hat _ _ _ _ hw.here hd hdu.symm)
  · rw [if_neg hu,hx u j,hw.elsewhere hat (Ne.symm hu) (hkeep j)]

theorem Indexes.erase (hx : p.Indexes m make gone) (h : Tidy kind p) (hw : Wrote p q t c) (hat : p.At t c.uuid)
    (hg : ∀ j, make j = t → c.held.isGone ≠ gone)
    (hkeep : ∀ j d, p.cell (make j) = some d → d.held.isGone = gone → c.drops d = false) :
    q.Indexes (m.erase c.uuid) make gone := by
  intro u j
  rw [Map.get_erase]
  by_cases hu : c.uuid = u
  · subst hu
    rw [if_pos rfl]
    constructor
    · intro hj
      cases hj
    · rintro ⟨d,hd,hdu,hdg⟩
      have ht : make j = t := h.wrote_inj hw hat _ _ _ _ hd hw.here hdu
      rw [ht,hw.here] at hd
      obtain rfl := Option.some.inj hd
      exact absurd hdg (hg j ht)
  · rw [if_neg hu,hx u j,hw.elsewhere hat (Ne.symm hu) (hkeep j)]

theorem Indexes.other (hx : p.Indexes m make gone) (h : Tidy kind p) (hw : Wrote p q t c) (hat : p.At t c.uuid)
    (hne : ∀ j, make j ≠ t) (hkeep : ∀ j d, p.cell (make j) = some d → d.held.isGone = gone → c.drops d = false) :
    q.Indexes m make gone := by
  have hnone : m[c.uuid]? = none := by
    rw [Option.eq_none_iff_forall_ne_some]
    intro j hj
    obtain ⟨d,hd,hdu,-⟩ := (hx c.uuid j).mp hj
    exact hne j (h.at_inj hat hd hdu)
  rw [← Map.erase_none hnone]
  exact hx.erase h hw hat (fun j hj => absurd hj (hne j)) hkeep

end Index

omit [JsonText] in
theorem foldl_uuid {K α β : Type} [Ord K] [Std.TransOrd K] [Std.LawfulEqOrd K] [DecidableEq K] (table : Map K α)
    (key : α → Uuid) (value : K × α → β)
    (hinj : ∀ (k k' : K) (a a' : α), table[k]? = some a → table[k']? = some a' → key a = key a' → k = k')
    (u : Uuid) (i : β) :
    (table.toList.foldl (fun (m : Map Uuid β) e => m.insert (key e.2) (value e)) ∅)[u]? = some i ↔
      ∃ k a, table[k]? = some a ∧ key a = u ∧ value (k,a) = i := by
  have hdistinct : table.toList.Pairwise (fun a b => key a.2 ≠ key b.2) := by
    refine Std.ExtTreeMap.distinct_keys_toList.imp_of_mem ?_
    intro a b ha hb hne heq
    have ht := hinj a.1 b.1 a.2 b.2 (Std.ExtTreeMap.mem_toList_iff_getElem?_eq_some.mp ha)
      (Std.ExtTreeMap.mem_toList_iff_getElem?_eq_some.mp hb) heq
    rw [ht] at hne
    exact hne Std.ReflCmp.compare_self
  rw [Map.foldl_insert_iff hdistinct]
  constructor
  · rintro ⟨e,he,hu,hi⟩
    exact ⟨e.1,e.2,Std.ExtTreeMap.mem_toList_iff_getElem?_eq_some.mp he,hu,hi⟩
  · rintro ⟨k,a,ha,hu,hi⟩
    exact ⟨(k,a),Std.ExtTreeMap.mem_toList_iff_getElem?_eq_some.mpr ha,hu,hi⟩

/-- The identity map a merge begins with knows everything. -/
theorem Tidy.ofInner (h : Tidy kind p) :
    Agrees (.ofInner p.engine.live p.tombs) p ∧ KnowsEdges (.ofInner p.engine.live p.tombs) p := by
  have hnode : ∀ (id : ℕ) (n : Node), p.engine.live.nodes[id]? = some n →
      ∃ s, p.cell (.node id) = some ⟨n.uuid,s,.node n.bare⟩ := by
    intro id n hn
    obtain ⟨s,-,hc⟩ := h.live (t := .node id) (Graph.record_node.mpr ⟨n,hn,rfl,rfl⟩)
    exact ⟨s,hc⟩
  have hedge : ∀ (id : ℕ) (e : Edge), p.engine.live.edges[id]? = some e →
      ∃ s a b, p.cell (.edge id) = some ⟨e.uuid,s,.edge e.bare a b⟩ := by
    intro id e he
    obtain ⟨a,b,-,-,hr⟩ := Graph.record_edge_some h.intact he
    obtain ⟨s,-,hc⟩ := h.live hr
    exact ⟨s,a,b,hc⟩
  refine ⟨⟨?_,?_⟩,?_⟩
  · intro u id
    refine (foldl_uuid p.engine.live.nodes Node.uuid (fun e => e.2.id) ?_ u id).trans ?_
    rotate_left
    · constructor
      · rintro ⟨k,n,hn,rfl,rfl⟩
        obtain ⟨s,hc⟩ := hnode k n hn
        rw [h.wf.nodes.key k n hn]
        exact ⟨_,hc,rfl,rfl⟩
      · rintro ⟨c,hc,rfl,hg⟩
        obtain ⟨hr,-,-⟩ | ⟨-,-,hv⟩ := cell_some hc
        · obtain ⟨n,hn,hu,-⟩ := Graph.record_node.mp hr
          exact ⟨id,n,hn,hu,h.wf.nodes.key id n hn⟩
        · rw [hv] at hg
          cases hg
    · intro i j a b ha hb hu
      obtain ⟨s,hc⟩ := hnode i a ha
      obtain ⟨s',hc'⟩ := hnode j b hb
      exact StampTarget.node.inj (h.inj _ _ _ _ hc hc' hu)
  · intro u t
    refine (foldl_uuid p.tombstones Tomb.uuid Prod.fst ?_ u t).trans ?_
    rotate_left
    · constructor
      · rintro ⟨k,tomb,ht,rfl,rfl⟩
        exact ⟨_,(h.dead ht).2,rfl,rfl⟩
      · rintro ⟨c,hc,rfl,hg⟩
        obtain ⟨-,-,hv⟩ | ⟨-,ht,-⟩ := cell_some hc
        · rw [hv] at hg
          cases hg
        · exact ⟨t,_,ht,rfl,rfl⟩
    · intro t t' a b ha hb hu
      exact h.inj _ _ _ _ (h.dead ha).2 (h.dead hb).2 hu
  · intro u id
    refine (foldl_uuid p.engine.live.edges Edge.uuid (fun e => e.2.id) ?_ u id).trans ?_
    rotate_left
    · constructor
      · rintro ⟨k,e,he,rfl,rfl⟩
        obtain ⟨s,a,b,hc⟩ := hedge k e he
        rw [h.wf.edges.key k e he]
        exact ⟨_,hc,rfl,rfl⟩
      · rintro ⟨c,hc,rfl,hg⟩
        obtain ⟨hr,-,-⟩ | ⟨-,-,hv⟩ := cell_some hc
        · obtain ⟨e,a,b,he,-,-,hu,-⟩ := Graph.record_edge.mp hr
          exact ⟨id,e,he,hu,h.wf.edges.key id e he⟩
        · rw [hv] at hg
          cases hg
    · intro i j a b ha hb hu
      obtain ⟨s,x,y,hc⟩ := hedge i a ha
      obtain ⟨s',x',y',hc'⟩ := hedge j b hb
      exact StampTarget.edge.inj (h.inj _ _ _ _ hc hc' hu)

end Peer
end Drevo
