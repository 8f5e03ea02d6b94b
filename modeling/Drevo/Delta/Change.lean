import Drevo.Delta.Apply

/-! Merging: what one change of a peer leaves, seen by UUID, and what a whole delta leaves. -/
namespace Drevo
open Lib

namespace Peer
variable [JsonText] {kind : Uuid → Bool} {p q : Peer} {remap remap' : Remap} {change : StampedChange} {turn : Turn}
  {won : Bool}

/-- The change needs a node that is not there. -/
def LacksEnd (p : Peer) : StampedChange → Prop
  | .edge _ a b _ => (∀ s n, ¬ p.Holds a s (.node n)) ∨ ∀ s n, ¬ p.Holds b s (.node n)
  | _ => False

/-- The change is written: what is held for its UUID is the change, and nothing else has changed but
for the relationships a deletion takes along. -/
structure Put (kind : Uuid → Bool) (p q : Peer) (change : StampedChange) : Prop where
  tidy : Tidy kind q
  holds : ∀ u s v, q.Holds u s v ↔ if u = change.uuid then s = change.stamp ∧ v = change.held
    else p.Holds u s v ∧ (change.held.isGone && v.touches change.uuid) = false
  stamps : ∀ t s, q.currentStamp t = some s → s = change.stamp ∨ p.currentStamp t = some s
  origin : q.origin = p.origin

/-- The change won. -/
structure Took (kind : Uuid → Bool) (p q : Peer) (remap remap' : Remap) (change : StampedChange) (now : ℤ) : Prop
    extends Put kind p q change where
  agrees : Agrees remap' q
  edges : (change.isNode && change.isDeletion) = false → KnowsEdges remap p → KnowsEdges remap' q
  fresh : ¬ p.Covers change.uuid change.stamp
  clock : q.clock = p.clock.update change.stamp.hlc now

theorem Tidy.withClock (h : Tidy kind p) (clock : Hlc) : Tidy kind { p with clock := clock } :=
  ⟨h.wf,h.intact,h.stamped,h.disjoint,h.past,h.kinds,h.inj⟩

omit [JsonText] in
theorem Wrote.withClock {t : StampTarget} {c : Cell} (h : Wrote p q t c) (clock : Hlc) :
    Wrote p { q with clock := clock } t c := ⟨h.here,h.there⟩

omit [JsonText] in
theorem currentStamp_markLive (p : Peer) (t t' : StampTarget) (s s' : Stamp)
    (h : (p.markLive t s).currentStamp t' = some s') : s' = s ∨ p.currentStamp t' = some s' := by
  simp only [currentStamp,markLive,Map.get_insert,Map.get_erase] at h ⊢
  by_cases ht : t = t'
  · simp only [if_pos ht,Option.some.injEq] at h
    exact Or.inl h.symm
  · simp only [if_neg ht] at h
    exact Or.inr h

omit [JsonText] in
theorem currentStamp_markTombstoned (p : Peer) (t t' : StampTarget) (s s' : Stamp) (u : Uuid)
    (h : (p.markTombstoned t s u).currentStamp t' = some s') : s' = s ∨ p.currentStamp t' = some s' := by
  simp only [currentStamp,markTombstoned,Map.get_insert,Map.get_erase] at h ⊢
  by_cases ht : t = t'
  · simp only [if_pos ht,Option.map_some,Option.some.injEq] at h
    exact Or.inl h.symm
  · simp only [if_neg ht] at h
    exact Or.inr h

theorem Tidy.at_target (h : Tidy kind p) (ha : Agrees remap p) {u : Uuid} {isNode : Bool}
    (he : isNode = false → KnowsEdges remap p) (hk : kind u = isNode) {t : StampTarget}
    (ht : remap.target u isNode = some t ∨ remap.target u isNode = none ∧ t = Engine.nextTarget p.engine.ids isNode) :
    p.At t u ∧ kind u = t.isNode := by
  obtain ht | ⟨hn,rfl⟩ := ht
  · obtain ⟨c,hc,hu⟩ := (h.target ha he hk t).mp ht
    exact ⟨Or.inl ⟨c,hc,hu⟩,hu ▸ h.kinds t c hc⟩
  · refine ⟨Or.inr ⟨h.fresh ?_,fun t' d hd => h.target_none ha he hk hn t' d hd⟩,?_⟩
    · cases isNode <;> exact Nat.not_succ_le_self _
    · rw [hk]
      cases isNode <;> rfl

theorem Tidy.node_at (h : Tidy kind p) {u : Uuid} {id : ℕ} (hat : p.At (.node id) u) {n : Node}
    (hn : p.graph.nodes[id]? = some n) : n.uuid = u := by
  obtain ⟨s,-,hc⟩ := h.live (t := .node id) (Graph.record_node.mpr ⟨n,hn,rfl,rfl⟩)
  obtain ⟨d,hd,hu⟩ | ⟨hnone,-⟩ := hat
  · rw [hc] at hd
    rw [← hu,← Option.some.inj hd]
  · rw [hc] at hnone
    cases hnone

theorem Tidy.uuid_inj (h : Tidy kind p) {i j : ℕ} {n m : Node} (hn : p.graph.nodes[i]? = some n)
    (hm : p.graph.nodes[j]? = some m) (hu : n.uuid = m.uuid) : i = j := by
  obtain ⟨s,-,hc⟩ := h.live (t := .node i) (Graph.record_node.mpr ⟨n,hn,rfl,rfl⟩)
  obtain ⟨s',-,hc'⟩ := h.live (t := .node j) (Graph.record_node.mpr ⟨m,hm,rfl,rfl⟩)
  exact StampTarget.node.inj (h.inj _ _ _ _ hc hc' hu)

omit [JsonText] in
theorem drops_live {c : Cell} (hc : c.held.isGone = false) (d : Cell) : c.drops d = false := by
  show (c.held.isGone && d.held.touches c.uuid) = false
  rw [hc,Bool.false_and]

omit [JsonText] in
theorem drops_apart {c d : Cell} (hd : d.held.touches c.uuid = false) : c.drops d = false := by
  show (c.held.isGone && d.held.touches c.uuid) = false
  rw [hd,Bool.and_false]

omit [JsonText] in
theorem drops_node {c d : Cell} {id : ℕ} (hd : p.cell (.node id) = some d) : c.drops d = false := by
  obtain ⟨hr,-,-⟩ | ⟨-,-,hv⟩ := cell_some hd
  · obtain ⟨n,-,-,hv⟩ := Graph.record_node.mp hr
    exact drops_apart (by rw [hv]; rfl)
  · exact drops_apart (by rw [hv]; rfl)

omit [JsonText] in
theorem drops_gone {c d : Cell} (hd : d.held.isGone = true) : c.drops d = false := by
  cases hv : d.held with
  | gone => exact drops_apart (by rw [hv]; rfl)
  | _ =>
    rw [hv] at hd
    cases hd

/-! ## The four kinds of changes -/

theorem took_node (h : Tidy kind p) (ha : Agrees remap p) {node : Node} {stamp : Stamp} (hk : kind node.uuid = true)
    {e : Engine} {id : ℕ} (hid : remap.target node.uuid true = some (.node id) ∨
      remap.target node.uuid true = none ∧ StampTarget.node id = Engine.nextTarget p.engine.ids true)
    (hfresh : ¬ p.Covers node.uuid stamp) (hs : Engine.WriteSection p.engine e [.upsertNode { node with id := id }]) (now : ℤ) :
    Took kind p (({ p with engine := e }.markLive (.node id) stamp).observe stamp now) remap
      { remap with node := remap.node.insert node.uuid id, tomb := remap.tomb.erase node.uuid } (.node node stamp) now := by
  obtain ⟨hat,hkt⟩ := h.at_target ha (by simp) hk hid
  have hgraph : e.live.graph = p.graph.apply (.upsertNode { node with id := id }) := hs.live.graph
  have hrec : ∀ t', e.live.graph.record t' =
      if t' = .node id then some (node.uuid,.node node.bare) else p.graph.record t' := by
    intro t'
    rw [hgraph]
    exact Graph.record_upsertNode (r := { node with id := id }) h.intact (fun n hn => h.node_at hat hn) t'
  obtain ⟨hq,hw⟩ := h.markLive stamp hs.ids hs.wf (hgraph ▸ Graph.apply_intact h.intact (by simp [GraphOp.needs]))
    hrec hat hkt
  replace hw := hw.withClock (p.clock.update stamp.hlc now)
  have hno := drops_live (c := ⟨node.uuid,stamp,.node node.bare⟩) rfl
  refine ⟨⟨hq.withClock _,?_,?_,rfl⟩,⟨?_,?_⟩,?_,hfresh,rfl⟩
  · exact hw.holds hat (fun t' d hd hu => h.at_inj hat hd hu)
  · exact fun t s hts => currentStamp_markLive _ _ _ _ _ hts
  · exact ha.node.insert (fun _ _ hij => StampTarget.node.inj hij) h hw hat rfl (fun _ d _ _ => hno d)
  · exact ha.tomb.erase h hw hat (fun _ _ => by simp [Held.isGone]) (fun _ d _ _ => hno d)
  · exact fun _ hx => hx.other h hw hat (by simp) (fun _ d _ _ => hno d)

theorem took_edge (h : Tidy kind p) (ha : Agrees remap p) (he : KnowsEdges remap p) {edge : Edge} {fromUuid toUuid : Uuid}
    {stamp : Stamp} (hk : kind edge.uuid = false) {e : Engine} {a b id : ℕ} (hfrom : remap.node[fromUuid]? = some a)
    (hto : remap.node[toUuid]? = some b) (hid : remap.target edge.uuid false = some (.edge id) ∨
      remap.target edge.uuid false = none ∧ StampTarget.edge id = Engine.nextTarget p.engine.ids false)
    (hfresh : ¬ p.Covers edge.uuid stamp)
    (hs : Engine.WriteSection p.engine e [.upsertEdge { edge with id := id, fromId := a, toId := b }]) (now : ℤ) :
    Took kind p (({ p with engine := e }.markLive (.edge id) stamp).observe stamp now) remap
      { remap with edge := remap.edge.insert edge.uuid id, tomb := remap.tomb.erase edge.uuid }
      (.edge edge fromUuid toUuid stamp) now := by
  obtain ⟨hat,hkt⟩ := h.at_target ha (fun _ => he) hk hid
  have hgraph : e.live.graph = p.graph.apply (.upsertEdge { edge with id := id, fromId := a, toId := b }) := hs.live.graph
  have hend : ∀ (u : Uuid) (i : ℕ), remap.node[u]? = some i → p.graph.uuidOf i = some u := by
    intro u i hi
    obtain ⟨c,hc,rfl,hg⟩ := (ha.node u i).mp hi
    obtain ⟨hr,-,-⟩ | ⟨-,-,hv⟩ := cell_some hc
    · obtain ⟨n,hn,hu,-⟩ := Graph.record_node.mp hr
      rw [Graph.uuidOf,hn,Option.map_some,hu]
    · rw [hv] at hg
      cases hg
  have hneeds : ∀ i ∈ GraphOp.needs (.upsertEdge { edge with id := id, fromId := a, toId := b }),
      (p.graph.nodes[i]?).isSome := by
    intro i hi
    have hsome : ∀ (u : Uuid) (j : ℕ), p.graph.uuidOf j = some u → (p.graph.nodes[j]?).isSome := by
      intro u j hj
      obtain ⟨n,hn,-⟩ := Option.map_eq_some_iff.mp hj
      rw [hn]
      rfl
    simp only [GraphOp.needs,List.mem_cons,List.not_mem_nil,or_false] at hi
    obtain rfl | rfl := hi
    · exact hsome _ _ (hend _ _ hfrom)
    · exact hsome _ _ (hend _ _ hto)
  have hrec : ∀ t', e.live.graph.record t' =
      if t' = .edge id then some (edge.uuid,.edge edge.bare fromUuid toUuid) else p.graph.record t' := by
    intro t'
    rw [hgraph]
    exact Graph.record_upsertEdge (r := { edge with id := id, fromId := a, toId := b }) (hend _ _ hfrom) (hend _ _ hto) t'
  obtain ⟨hq,hw⟩ := h.markLive stamp hs.ids hs.wf (hgraph ▸ Graph.apply_intact h.intact hneeds) hrec hat hkt
  replace hw := hw.withClock (p.clock.update stamp.hlc now)
  have hno := drops_live (c := ⟨edge.uuid,stamp,.edge edge.bare fromUuid toUuid⟩) rfl
  refine ⟨⟨hq.withClock _,?_,?_,rfl⟩,⟨?_,?_⟩,?_,hfresh,rfl⟩
  · exact hw.holds hat (fun t' d hd hu => h.at_inj hat hd hu)
  · exact fun t s hts => currentStamp_markLive _ _ _ _ _ hts
  · exact ha.node.other h hw hat (by simp) (fun _ d _ _ => hno d)
  · exact ha.tomb.erase h hw hat (fun _ _ => by simp [Held.isGone]) (fun _ d _ _ => hno d)
  · exact fun _ hx => hx.insert (fun _ _ hij => StampTarget.edge.inj hij) h hw hat rfl (fun _ d _ _ => hno d)

/-- What a deletion does to the records: the one at its target is gone, and the relationships that
end there. -/
theorem record_deleted (h : Tidy kind p) (ha : Agrees remap p) {uuid : Uuid} {isNode : Bool}
    (he : isNode = false → KnowsEdges remap p) (hk : kind uuid = isNode) {e : Engine} {t : StampTarget}
    (hat : p.At t uuid) (hkt : kind uuid = t.isNode)
    (hs : (∃ id, remap.target uuid isNode = some t ∧ remap.liveId uuid isNode = some id ∧
        Engine.WriteSection p.engine e [deleteOp isNode id]) ∨
      (remap.target uuid isNode = none ∨ remap.liveId uuid isNode = none) ∧ Engine.WriteSection p.engine e []) :
    e.live.graph.Intact ∧ ∀ t', e.live.graph.record t' =
      if t' = t then none else (p.graph.record t').filter (fun r => !r.2.touches uuid) := by
  have hedge : isNode = false → ∀ (i : ℕ) (n : Node), p.graph.nodes[i]? = some n → n.uuid ≠ uuid := by
    rintro rfl i n hn rfl
    obtain ⟨s,-,hc⟩ := h.live (t := .node i) (Graph.record_node.mpr ⟨n,hn,rfl,rfl⟩)
    have hkind := h.kinds _ _ hc
    rw [hk] at hkind
    cases hkind
  obtain ⟨id,ht,hid,hs⟩ | ⟨hnone,hs⟩ := hs
  · have hgraph : e.live.graph = p.graph.apply (deleteOp isNode id) := hs.live.graph
    refine ⟨hgraph ▸ Graph.apply_intact h.intact (by cases isNode <;> simp [deleteOp,GraphOp.needs]),?_⟩
    intro t'
    rw [hgraph]
    cases isNode with
    | true =>
      have hid' : remap.node[uuid]? = some id := hid
      obtain rfl : StampTarget.node id = t := by
        simp only [Remap.target,if_true,Remap.nodeTarget,hid'] at ht
        exact Option.some.inj ht
      obtain ⟨c,hc,hu,hg⟩ := (ha.node uuid id).mp hid'
      obtain ⟨hr,-,-⟩ | ⟨-,-,hv⟩ := cell_some hc
      · obtain ⟨n,hn,hnu,-⟩ := Graph.record_node.mp hr
        obtain rfl : n.uuid = uuid := hnu.trans hu
        exact Graph.record_deleteNode hn (fun i m hm hmu => h.uuid_inj hm hn hmu) t'
      · rw [hv] at hg
        cases hg
    | false =>
      have hid' : remap.edge[uuid]? = some id := hid
      obtain rfl : StampTarget.edge id = t := by
        simp only [Remap.target,Bool.false_eq_true,if_false,Remap.edgeTarget,hid'] at ht
        exact Option.some.inj ht
      rw [record_untouched (hedge rfl)]
      exact Graph.record_deleteEdge id t'
  · have hgraph : e.live.graph = p.graph := hs.live.graph
    -- nothing is stored under the UUID
    have hlive : ∀ c, p.cell t = some c → c.uuid = uuid → c.held.isGone = true := by
      intro c hc hu
      by_contra hg
      have htarget := (h.target ha he hk t).mpr ⟨c,hc,hu⟩
      obtain hnone | hnone := hnone
      · rw [hnone] at htarget
        cases htarget
      · cases isNode with
        | true =>
          cases t with
          | edge i => rw [hk] at hkt; cases hkt
          | node i =>
            have hsome := (ha.node uuid i).mpr ⟨c,hc,hu,Bool.eq_false_iff.mpr hg⟩
            have hno : remap.node[uuid]? = none := hnone
            rw [hno] at hsome
            cases hsome
        | false =>
          cases t with
          | node i => rw [hk] at hkt; cases hkt
          | edge i =>
            have hsome := (he rfl uuid i).mpr ⟨c,hc,hu,Bool.eq_false_iff.mpr hg⟩
            have hno : remap.edge[uuid]? = none := hnone
            rw [hno] at hsome
            cases hsome
    have hno : ∀ (i : ℕ) (n : Node), p.graph.nodes[i]? = some n → n.uuid ≠ uuid := by
      intro i n hn hu
      obtain ⟨s,-,hc⟩ := h.live (t := .node i) (Graph.record_node.mpr ⟨n,hn,rfl,rfl⟩)
      have hit := h.at_inj hat hc hu
      rw [hit] at hc
      cases hlive _ hc hu
    refine ⟨hgraph ▸ h.intact,?_⟩
    intro t'
    rw [hgraph,record_untouched hno]
    split_ifs with ht
    · subst ht
      cases hr : p.graph.record t' with
      | none => rfl
      | some r =>
        obtain ⟨s,-,hc⟩ := h.live (show p.graph.record t' = some (r.1,r.2) from hr)
        have hu : r.1 = uuid := by
          obtain ⟨d,hd,hdu⟩ | ⟨hn,-⟩ := hat
          · rw [hc] at hd
            rw [← hdu,← Option.some.inj hd]
          · rw [hc] at hn
            cases hn
        have hg := hlive _ hc hu
        rw [record_held (show p.graph.record t' = some (r.1,r.2) from hr)] at hg
        cases hg
    · rfl

theorem took_delete (h : Tidy kind p) (ha : Agrees remap p) {uuid : Uuid} {stamp : Stamp} {isNode : Bool}
    (he : isNode = false → KnowsEdges remap p) (hk : kind uuid = isNode) {e : Engine} {t : StampTarget}
    (ht : remap.target uuid isNode = some t ∨
      remap.target uuid isNode = none ∧ t = Engine.nextTarget p.engine.ids isNode ∧ e.ids.Past t)
    (hs : (∃ id, remap.target uuid isNode = some t ∧ remap.liveId uuid isNode = some id ∧
        Engine.WriteSection p.engine e [deleteOp isNode id]) ∨
      (remap.target uuid isNode = none ∨ remap.liveId uuid isNode = none) ∧ Engine.WriteSection p.engine e [])
    (hfresh : ¬ p.Covers uuid stamp) (now : ℤ) :
    Took kind p (({ p with engine := e }.markTombstoned t stamp uuid).observe stamp now) remap (remap.forget uuid isNode t)
      (if isNode then .deleteNode uuid stamp else .deleteEdge uuid stamp) now := by
  obtain ⟨hat,hkt⟩ := h.at_target ha he hk (ht.imp_right (fun ht => ⟨ht.1,ht.2.1⟩))
  obtain ⟨hi,hrec⟩ := record_deleted h ha he hk hat hkt hs
  have hsec : p.engine.ids.Le e.ids ∧ (e.load e.live).Wf := by
    obtain ⟨id,-,-,hs⟩ | ⟨-,hs⟩ := hs <;> exact ⟨hs.ids,hs.wf⟩
  have hpast : e.ids.Past t := by
    obtain ht | ⟨-,-,ht⟩ := ht
    · obtain ⟨c,hc,-⟩ := (h.target ha he hk t).mp ht
      exact (h.cell_past hc).mono hsec.1
    · exact ht
  obtain ⟨hq,hw⟩ := h.markTombstoned stamp hsec.1 hsec.2 hi hpast hrec hat hkt
  replace hw := hw.withClock (p.clock.update stamp.hlc now)
  have hstamps := fun t' s hts => currentStamp_markTombstoned { p with engine := e } t t' stamp s uuid hts
  have htomb := ha.tomb.insert Function.injective_id h hw hat rfl (fun _ d _ hg => drops_gone hg)
  cases isNode with
  | true =>
    refine ⟨⟨hq.withClock _,?_,hstamps,rfl⟩,⟨?_,htomb⟩,?_,hfresh,rfl⟩
    · exact hw.holds hat (fun t' d hd hu => h.at_inj hat hd hu)
    · exact ha.node.erase h hw hat (fun _ _ => by simp [Held.isGone]) (fun _ d hd _ => drops_node hd)
    · intro hd
      cases hd
  | false =>
    have hedge : ∀ (j : ℕ) (d : Cell), p.cell (.edge j) = some d → (Cell.mk uuid stamp .gone).drops d = false := by
      intro j d hd
      simp only [Cell.drops,Held.isGone,Bool.true_and]
      cases hv : d.held with
      | node n => rfl
      | gone => rfl
      | edge r a b =>
        have hends := h.ends (u := d.uuid) (s := d.stamp) ⟨.edge j,by rw [hd,← hv]⟩
        have hne : ∀ x, (∃ s n, p.Holds x s (.node n)) → x ≠ uuid := by
          rintro x ⟨s,n,t',hc⟩ rfl
          have hkind := h.kinds _ _ hc
          have hnode : t'.isNode = true := by
            cases t' with
            | node i => rfl
            | edge i =>
              obtain ⟨hr,-,-⟩ | ⟨-,-,hv'⟩ := cell_some hc
              · obtain ⟨_,_,_,_,_,_,_,hv'⟩ := Graph.record_edge.mp hr
                cases hv'
              · cases hv'
          rw [hnode] at hkind
          exact absurd (hk.symm.trans hkind) (by simp)
        simp [Held.touches,hne a hends.1,hne b hends.2]
    refine ⟨⟨hq.withClock _,?_,hstamps,rfl⟩,⟨?_,htomb⟩,?_,hfresh,rfl⟩
    · exact hw.holds hat (fun t' d hd hu => h.at_inj hat hd hu)
    · refine ha.node.other h hw hat ?_ (fun _ d hd _ => drops_node hd)
      rintro j rfl
      rw [hk] at hkt
      cases hkt
    · exact fun _ hx => hx.erase h hw hat (fun _ _ => by simp [Held.isGone]) (fun j d hd _ => hedge j d hd)

/-! ## One change and a list of them -/

omit [JsonText] in
theorem mark_node {node : Node} {stamp : Stamp} {id : ℕ} (h : remap.node[node.uuid]? = some id) :
    p.mark remap (.node node stamp) = p.markLive (.node id) stamp := by
  simp only [mark,h]

omit [JsonText] in
theorem mark_edge {edge : Edge} {a b : Uuid} {stamp : Stamp} {id : ℕ} (h : remap.edge[edge.uuid]? = some id) :
    p.mark remap (.edge edge a b stamp) = p.markLive (.edge id) stamp := by
  simp only [mark,h]

omit [JsonText] in
theorem mark_deleteNode {uuid : Uuid} {stamp : Stamp} {t : StampTarget} (h : remap.tomb[uuid]? = some t) :
    p.mark remap (.deleteNode uuid stamp) = p.markTombstoned t stamp uuid := by
  simp only [mark,h]

omit [JsonText] in
theorem mark_deleteEdge {uuid : Uuid} {stamp : Stamp} {t : StampTarget} (h : remap.tomb[uuid]? = some t) :
    p.mark remap (.deleteEdge uuid stamp) = p.markTombstoned t stamp uuid := by
  simp only [mark,h]

/-- A change that is merged without an error is skipped, because something at least as new is held
or an end is missing, or it wins. -/
theorem applyChange_spec (h : Tidy kind p) (ha : Agrees remap p) (he : change.isNode = false → KnowsEdges remap p)
    (hk : kind change.uuid = change.isNode) (hr : p.applyChange remap change turn = (.ok won,q,remap')) :
    (won = false ∧ q = p ∧ remap' = remap ∧ (p.Covers change.uuid change.stamp ∨ p.LacksEnd change)) ∨
      (won = true ∧ Took kind p q remap remap' change turn.now) := by
  have hwins := h.localWins ha he hk change.stamp
  have hcovers : ∀ b, localWins p.currentStamp (remap.target change.uuid change.isNode) change.stamp = b →
      (p.Covers change.uuid change.stamp ↔ b = true) := fun b hb => by rw [← hwins,hb]
  simp only [applyChange] at hr
  rcases hc : p.engine.applyChange 0 change p.currentStamp remap with ⟨r,e,m⟩
  rw [hc] at hr
  cases r with
  | error err => simp at hr
  | ok b =>
    cases b with
    | false =>
      simp only [Prod.mk.injEq,Except.ok.injEq] at hr
      obtain ⟨rfl,rfl,rfl⟩ := hr
      left
      cases change with
      | node node stamp =>
        obtain ⟨-,hl,rfl,rfl⟩ | ⟨hno,-⟩ := Engine.applyNodeUpsert_ok h.wf hc
        · exact ⟨rfl,rfl,rfl,Or.inl ((hcovers _ hl).mpr rfl)⟩
        · cases hno
      | edge edge fromUuid toUuid stamp =>
        have hmissing : ∀ u, remap.node[u]? = none → ∀ s n, ¬ p.Holds u s (.node n) := by
          rintro u hnone s n ⟨t,ht⟩
          obtain ⟨hrec,-,hg⟩ | ⟨-,-,hv⟩ := cell_some ht
          · cases t with
            | node i =>
              have hsome := (ha.node u i).mpr ⟨_,ht,rfl,hg⟩
              rw [hnone] at hsome
              cases hsome
            | edge i =>
              obtain ⟨_,_,_,_,_,_,_,hv⟩ := Graph.record_edge.mp hrec
              cases hv
          · cases hv
        obtain ⟨-,hl,rfl,rfl⟩ | ⟨hno,-⟩ := Engine.applyEdgeUpsert_ok h.wf hc
        · refine ⟨rfl,rfl,rfl,?_⟩
          obtain hl | hl | hl := hl
          · exact Or.inr (Or.inl (hmissing _ hl))
          · exact Or.inr (Or.inr (hmissing _ hl))
          · exact Or.inl ((hcovers _ hl).mpr rfl)
        · cases hno
      | deleteNode uuid stamp =>
        obtain ⟨-,hl,rfl,rfl⟩ | ⟨hno,-⟩ := Engine.applyDelete_ok h.wf hc
        · exact ⟨rfl,rfl,rfl,Or.inl ((hcovers _ hl).mpr rfl)⟩
        · cases hno
      | deleteEdge uuid stamp =>
        obtain ⟨-,hl,rfl,rfl⟩ | ⟨hno,-⟩ := Engine.applyDelete_ok h.wf hc
        · exact ⟨rfl,rfl,rfl,Or.inl ((hcovers _ hl).mpr rfl)⟩
        · cases hno
    | true =>
      simp only at hr
      rcases hset : e.settle 0 turn.encoded turn.io with ⟨ok,e'⟩
      have hcore : Engine.SameCore e e' := by
        have hcore := Engine.settle_core e 0 turn.encoded turn.io
        rwa [hset] at hcore
      rw [hset] at hr
      cases ok with
      | false => simp at hr
      | true =>
        simp only [Prod.mk.injEq,Except.ok.injEq] at hr
        obtain ⟨rfl,rfl,rfl⟩ := hr
        right
        refine ⟨rfl,?_⟩
        cases change with
        | node node stamp =>
          obtain ⟨hno,-⟩ | ⟨-,hl,id,hid,hs,rfl⟩ := Engine.applyNodeUpsert_ok h.wf hc
          · cases hno
          · have hnew : ¬ p.Covers node.uuid stamp := fun hcov => Bool.false_ne_true ((hcovers _ hl).mp hcov)
            rw [mark_node (Map.get_insert .. |>.trans (if_pos rfl))]
            exact took_node h ha hk hid hnew (hs.of_core hcore) turn.now
        | edge edge fromUuid toUuid stamp =>
          obtain ⟨hno,-⟩ | ⟨-,hl,a,b,id,hfrom,hto,hid,hs,rfl⟩ := Engine.applyEdgeUpsert_ok h.wf hc
          · cases hno
          · have hnew : ¬ p.Covers edge.uuid stamp := fun hcov => Bool.false_ne_true ((hcovers _ hl).mp hcov)
            rw [mark_edge (Map.get_insert .. |>.trans (if_pos rfl))]
            exact took_edge h ha (he rfl) hk hfrom hto hid hnew (hs.of_core hcore) turn.now
        | deleteNode uuid stamp =>
          obtain ⟨hno,-⟩ | ⟨-,hl,t,ht,hs,rfl⟩ := Engine.applyDelete_ok h.wf hc
          · cases hno
          · have hnew : ¬ p.Covers uuid stamp := fun hcov => Bool.false_ne_true ((hcovers _ hl).mp hcov)
            rw [mark_deleteNode (Map.get_insert .. |>.trans (if_pos rfl))]
            exact took_delete h ha he hk (ht.imp_right (fun ht => ⟨ht.1,ht.2.1,hcore.ids ▸ ht.2.2⟩))
              (hs.imp (fun ⟨i,hi,hlive,hs⟩ => ⟨i,hi,hlive,hs.of_core hcore⟩) (fun hs => ⟨hs.1,hs.2.of_core hcore⟩)) hnew turn.now
        | deleteEdge uuid stamp =>
          obtain ⟨hno,-⟩ | ⟨-,hl,t,ht,hs,rfl⟩ := Engine.applyDelete_ok h.wf hc
          · cases hno
          · have hnew : ¬ p.Covers uuid stamp := fun hcov => Bool.false_ne_true ((hcovers _ hl).mp hcov)
            rw [mark_deleteEdge (Map.get_insert .. |>.trans (if_pos rfl))]
            exact took_delete h ha he hk (ht.imp_right (fun ht => ⟨ht.1,ht.2.1,hcore.ids ▸ ht.2.2⟩))
              (hs.imp (fun ⟨i,hi,hlive,hs⟩ => ⟨i,hi,hlive,hs.of_core hcore⟩) (fun hs => ⟨hs.1,hs.2.of_core hcore⟩)) hnew turn.now

end Peer
end Drevo
