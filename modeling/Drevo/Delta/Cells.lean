import Drevo.Core.Integrity
import Drevo.Delta.Peer

/-! What a replica holds for each UUID, without local ids: a record with its stamp, or a
tombstone. A change that is written replaces what is held for its UUID; the deletion of a node
takes its relationships with it. -/
namespace Drevo
open Lib

def Node.bare (n : Node) : Node := { n with id := 0 }

def Edge.bare (e : Edge) : Edge := { e with id := 0, fromId := 0, toId := 0 }

/-- A record without local ids, an edge with the UUIDs of its ends, or the mark of a deletion. -/
inductive Held where
  | node (record : Node)
  | edge (record : Edge) (fromUuid toUuid : Uuid)
  | gone
  deriving DecidableEq

/-- The relationship has an end with that UUID. -/
def Held.touches (uuid : Uuid) : Held → Bool
  | .edge _ a b => a = uuid || b = uuid
  | _ => false

def Held.isGone : Held → Bool
  | .gone => true
  | _ => false

structure Cell where
  uuid : Uuid
  stamp : Stamp
  held : Held

/-- Writing `c` takes `d` with it. -/
def Cell.drops (c d : Cell) : Bool := c.held.isGone && d.held.touches c.uuid

namespace StampedChange

def held : StampedChange → Held
  | .node record _ => .node record.bare
  | .edge record a b _ => .edge record.bare a b
  | .deleteNode _ _ => .gone
  | .deleteEdge _ _ => .gone

def cell (c : StampedChange) : Cell := ⟨c.uuid,c.stamp,c.held⟩

end StampedChange

/-! ## The records of a graph -/

namespace Graph

def uuidOf (g : Graph) (id : ℕ) : Option Uuid := g.nodes[id]?.map Node.uuid

def record (g : Graph) : StampTarget → Option (Uuid × Held)
  | .node id => g.nodes[id]?.map (fun n => (n.uuid,.node n.bare))
  | .edge id =>
    match g.edges[id]? with
    | none => none
    | some e =>
      match g.uuidOf e.fromId,g.uuidOf e.toId with
      | some a,some b => some (e.uuid,.edge e.bare a b)
      | _,_ => none

variable {g : Graph}

theorem record_node {id : ℕ} {u : Uuid} {v : Held} : g.record (.node id) = some (u,v) ↔
    ∃ n, g.nodes[id]? = some n ∧ n.uuid = u ∧ v = .node n.bare := by
  simp [record,eq_comm]

theorem record_edge {id : ℕ} {u : Uuid} {v : Held} : g.record (.edge id) = some (u,v) ↔
    ∃ e a b, g.edges[id]? = some e ∧ g.uuidOf e.fromId = some a ∧ g.uuidOf e.toId = some b ∧
      e.uuid = u ∧ v = .edge e.bare a b := by
  simp only [record]
  constructor
  · intro h
    split at h
    · simp at h
    · rename_i e he
      split at h
      · rename_i a b ha hb
        obtain ⟨rfl,rfl⟩ := Prod.mk.inj (Option.some.inj h)
        exact ⟨e,a,b,he,ha,hb,rfl,rfl⟩
      · simp at h
  · rintro ⟨e,a,b,he,ha,hb,rfl,rfl⟩
    simp only [he,ha,hb]

theorem record_edge_some (h : g.Intact) {id : ℕ} {e : Edge} (he : g.edges[id]? = some e) :
    ∃ a b, g.uuidOf e.fromId = some a ∧ g.uuidOf e.toId = some b ∧
      g.record (.edge id) = some (e.uuid,.edge e.bare a b) := by
  obtain ⟨hf,ht⟩ := h id e he
  obtain ⟨a,ha⟩ := Option.isSome_iff_exists.mp hf
  obtain ⟨b,hb⟩ := Option.isSome_iff_exists.mp ht
  have ha' : g.uuidOf e.fromId = some a.uuid := by rw [uuidOf,ha,Option.map_some]
  have hb' : g.uuidOf e.toId = some b.uuid := by rw [uuidOf,hb,Option.map_some]
  exact ⟨a.uuid,b.uuid,ha',hb',record_edge.mpr ⟨e,_,_,he,ha',hb',rfl,rfl⟩⟩

theorem record_congr {h : Graph} {id : ℕ} (he : h.edges[id]? = g.edges[id]?)
    (hn : ∀ e, g.edges[id]? = some e → h.uuidOf e.fromId = g.uuidOf e.fromId ∧ h.uuidOf e.toId = g.uuidOf e.toId) :
    h.record (.edge id) = g.record (.edge id) := by
  simp only [record,he]
  cases hg : g.edges[id]? with
  | none => rfl
  | some e => simp only [(hn e hg).1,(hn e hg).2]

theorem record_upsertNode (hi : g.Intact) {r : Node} (h : ∀ n, g.nodes[r.id]? = some n → n.uuid = r.uuid)
    (t : StampTarget) : (g.apply (.upsertNode r)).record t =
      if t = .node r.id then some (r.uuid,.node r.bare) else g.record t := by
  cases t with
  | node id =>
    simp only [record,apply,Map.get_insert,StampTarget.node.injEq]
    by_cases hid : r.id = id
    · simp [hid]
    · simp [hid,Ne.symm hid]
  | edge id =>
    have huuid : ∀ i, (g.nodes[i]?).isSome → (g.apply (.upsertNode r)).uuidOf i = g.uuidOf i := by
      intro i hs
      simp only [uuidOf,apply,Map.get_insert]
      split_ifs with hid
      · subst hid
        obtain ⟨n,hn⟩ := Option.isSome_iff_exists.mp hs
        simp [hn,h n hn]
      · rfl
    simp only [reduceCtorEq,if_false]
    exact record_congr (g := g) rfl (fun e he => ⟨huuid _ (hi id e he).1,huuid _ (hi id e he).2⟩)

theorem record_upsertEdge {r : Edge} {a b : Uuid} (ha : g.uuidOf r.fromId = some a) (hb : g.uuidOf r.toId = some b)
    (t : StampTarget) : (g.apply (.upsertEdge r)).record t =
      if t = .edge r.id then some (r.uuid,.edge r.bare a b) else g.record t := by
  have huuid : (g.apply (.upsertEdge r)).uuidOf = g.uuidOf := rfl
  cases t with
  | node id => simp [record,apply]
  | edge id =>
    simp only [record,huuid]
    simp only [apply,Map.get_insert,StampTarget.edge.injEq]
    by_cases hid : r.id = id
    · simp [hid,ha,hb]
    · simp [hid,Ne.symm hid]

theorem record_deleteEdge (id : ℕ) (t : StampTarget) : (g.apply (.deleteEdge id)).record t =
    if t = .edge id then none else g.record t := by
  have huuid : (g.apply (.deleteEdge id)).uuidOf = g.uuidOf := rfl
  cases t with
  | node i => simp [record,apply]
  | edge i =>
    simp only [record,huuid]
    simp only [apply,Map.get_erase,StampTarget.edge.injEq]
    by_cases hid : id = i
    · simp [hid]
    · simp [hid,Ne.symm hid]

theorem record_deleteNode {id : ℕ} {n : Node} (hn : g.nodes[id]? = some n)
    (hinj : ∀ (i : ℕ) (m : Node), g.nodes[i]? = some m → m.uuid = n.uuid → i = id) (t : StampTarget) :
    (g.apply (.deleteNode id)).record t =
      if t = .node id then none else (g.record t).filter (fun r => !r.2.touches n.uuid) := by
  cases t with
  | node i =>
    simp only [record,apply,hn,Option.isSome_some,if_true,Map.get_erase,StampTarget.node.injEq]
    by_cases hid : id = i
    · simp [hid]
    · cases g.nodes[i]? <;> simp [hid,Ne.symm hid,Held.touches,Option.filter_some]
  | edge i =>
    simp only [reduceCtorEq,if_false]
    have hedges : (g.apply (.deleteNode id)).edges[i]? = (g.edges[i]?).filter (fun e => !e.touches id) := by
      simp only [apply,hn,Option.isSome_some,if_true,get_filter_edges]
    have huuid : ∀ j, j ≠ id → (g.apply (.deleteNode id)).uuidOf j = g.uuidOf j := by
      intro j hj
      simp only [uuidOf,apply,hn,Option.isSome_some,if_true,Map.get_erase,if_neg (Ne.symm hj)]
    -- an end of the edge is the deleted node if it has its UUID
    have hend : ∀ j u, g.uuidOf j = some u → (u = n.uuid ↔ j = id) := by
      intro j u hu
      obtain ⟨m,hm,rfl⟩ := Option.map_eq_some_iff.mp hu
      constructor
      · exact hinj j m hm
      · rintro rfl
        rw [hn] at hm
        rw [Option.some.inj hm]
    cases he : g.edges[i]? with
    | none =>
      rw [he] at hedges
      simp only [record,hedges,he,Option.filter_none]
    | some e =>
      rw [he] at hedges
      cases hr : g.record (.edge i) with
      | none =>
        simp only [record,he] at hr
        by_cases ht : e.touches id = true
        · simp [record,hedges,ht,Option.filter_some]
        · have hends : e.fromId ≠ id ∧ e.toId ≠ id := by simpa [Edge.touches] using ht
          simp only [record,hedges,Option.filter_some,ht,Bool.not_false,if_true,huuid _ hends.1,huuid _ hends.2]
          exact hr
      | some r =>
        obtain ⟨e',a,b,he',ha,hb,hu,hv⟩ := record_edge.mp (show g.record (.edge i) = some (r.1,r.2) from hr)
        obtain rfl : e = e' := Option.some.inj (he.symm.trans he')
        have htouch : r.2.touches n.uuid = e.touches id := by
          rw [hv]
          simp only [Held.touches,hend _ _ ha,hend _ _ hb,Edge.touches]
        by_cases ht : e.touches id = true
        · simp [record,hedges,ht,htouch,Option.filter_some]
        · have hends : e.fromId ≠ id ∧ e.toId ≠ id := by simpa [Edge.touches] using ht
          have hsame : (g.apply (.deleteNode id)).record (.edge i) = some r := by
            rw [record_edge (u := r.1) (v := r.2)]
            refine ⟨e,a,b,?_,?_,?_,hu,hv⟩
            · simp [hedges,ht,Option.filter_some]
            · rw [huuid _ hends.1,ha]
            · rw [huuid _ hends.2,hb]
          rw [hsame]
          simp [htouch,ht,Option.filter_some]

end Graph

/-! ## The cells of a replica -/

namespace Peer

def graph (p : Peer) : Graph := p.engine.live.graph

def cell (p : Peer) (t : StampTarget) : Option Cell :=
  match p.graph.record t with
  | some (u,v) => p.stamps[t]?.map (fun s => ⟨u,s,v⟩)
  | none => p.tombstones[t]?.map (fun tomb => ⟨tomb.uuid,tomb.stamp,.gone⟩)

/-- What the replica holds for a UUID. -/
def Holds (p : Peer) (u : Uuid) (s : Stamp) (v : Held) : Prop := ∃ t, p.cell t = some ⟨u,s,v⟩

def Covers (p : Peer) (u : Uuid) (s : Stamp) : Prop := ∃ s' v, p.Holds u s' v ∧ s ≤ s'

/-- The target where the replica holds something for the UUID, or a free one if it holds nothing. -/
def At (p : Peer) (t : StampTarget) (u : Uuid) : Prop :=
  (∃ d, p.cell t = some d ∧ d.uuid = u) ∨ (p.cell t = none ∧ ∀ t' d, p.cell t' = some d → d.uuid ≠ u)

variable [JsonText]

/-- The tables agree with the graph: a record has a stamp, a tombstone stands for no record, and
no UUID is held twice. `kind` tells the UUIDs of nodes from those of edges. -/
structure Tidy (kind : Uuid → Bool) (p : Peer) : Prop where
  wf : (p.engine.load p.engine.live).Wf
  intact : p.graph.Intact
  stamped : ∀ t : StampTarget, (p.graph.record t).isSome → (p.stamps[t]?).isSome
  disjoint : ∀ t : StampTarget, (p.tombstones[t]?).isSome → p.stamps[t]? = none
  past : ∀ t : StampTarget, (p.tombstones[t]?).isSome → p.engine.ids.Past t
  kinds : ∀ t c, p.cell t = some c → kind c.uuid = t.isNode
  inj : ∀ t t' c c', p.cell t = some c → p.cell t' = some c' → c.uuid = c'.uuid → t = t'

omit [JsonText] in
/-- What is written at `t` replaces its cell; a deletion also takes the relationships of the node. -/
structure Wrote (p q : Peer) (t : StampTarget) (c : Cell) : Prop where
  here : q.cell t = some c
  there : ∀ t', t' ≠ t → q.cell t' = (p.cell t').filter (fun d => !c.drops d)

section Cells
variable {kind : Uuid → Bool} {p q : Peer}

theorem Tidy.live (h : Tidy kind p) {t : StampTarget} {u : Uuid} {v : Held} (hr : p.graph.record t = some (u,v)) :
    ∃ s, p.stamps[t]? = some s ∧ p.cell t = some ⟨u,s,v⟩ := by
  obtain ⟨s,hs⟩ := Option.isSome_iff_exists.mp (h.stamped t (by rw [hr]; rfl))
  exact ⟨s,hs,by simp only [cell,hr,hs,Option.map_some]⟩

omit [JsonText] in
theorem cell_dead {t : StampTarget} (hr : p.graph.record t = none) :
    p.cell t = p.tombstones[t]?.map (fun tomb => ⟨tomb.uuid,tomb.stamp,.gone⟩) := by
  simp only [cell,hr]

theorem Tidy.dead (h : Tidy kind p) {t : StampTarget} {tomb : Tomb} (ht : p.tombstones[t]? = some tomb) :
    p.graph.record t = none ∧ p.cell t = some ⟨tomb.uuid,tomb.stamp,.gone⟩ := by
  have hr : p.graph.record t = none := by
    rw [← Option.not_isSome_iff_eq_none]
    intro hs
    have hstamp := h.stamped t hs
    rw [h.disjoint t (by rw [ht]; rfl)] at hstamp
    cases hstamp
  exact ⟨hr,by rw [cell_dead hr,ht,Option.map_some]⟩

omit [JsonText] in
theorem record_held {g : Graph} {t : StampTarget} {u : Uuid} {v : Held} (hr : g.record t = some (u,v)) :
    v.isGone = false := by
  cases t with
  | node id =>
    obtain ⟨n,-,-,rfl⟩ := Graph.record_node.mp hr
    rfl
  | edge id =>
    obtain ⟨e,a,b,-,-,-,-,rfl⟩ := Graph.record_edge.mp hr
    rfl

omit [JsonText] in
theorem cell_some {t : StampTarget} {c : Cell} (hc : p.cell t = some c) :
    (p.graph.record t = some (c.uuid,c.held) ∧ p.stamps[t]? = some c.stamp ∧ c.held.isGone = false) ∨
      (p.graph.record t = none ∧ p.tombstones[t]? = some ⟨c.stamp,c.uuid⟩ ∧ c.held = .gone) := by
  cases hr : p.graph.record t with
  | some r =>
    simp only [cell,hr] at hc
    obtain ⟨s,hs,rfl⟩ := Option.map_eq_some_iff.mp hc
    exact Or.inl ⟨rfl,hs,record_held hr⟩
  | none =>
    rw [cell_dead hr] at hc
    obtain ⟨tomb,ht,rfl⟩ := Option.map_eq_some_iff.mp hc
    exact Or.inr ⟨rfl,ht,rfl⟩

theorem Tidy.currentStamp (h : Tidy kind p) {t : StampTarget} {c : Cell} (hc : p.cell t = some c) :
    p.currentStamp t = some c.stamp := by
  obtain ⟨-,hs,-⟩ | ⟨-,ht,-⟩ := cell_some hc
  · simp only [Peer.currentStamp,hs]
  · simp only [Peer.currentStamp,h.disjoint t (by rw [ht]; rfl),ht,Option.map_some]

theorem Tidy.cell_past (h : Tidy kind p) {t : StampTarget} {c : Cell} (hc : p.cell t = some c) : p.engine.ids.Past t := by
  obtain ⟨hr,-,-⟩ | ⟨-,ht,-⟩ := cell_some hc
  · cases t with
    | node id =>
      obtain ⟨n,hn,-,-⟩ := Graph.record_node.mp hr
      exact h.wf.nodes.bound id n hn
    | edge id =>
      obtain ⟨e,a,b,he,-,-,-,-⟩ := Graph.record_edge.mp hr
      exact h.wf.edges.bound id e he
  · exact h.past t (by rw [ht]; rfl)

theorem Tidy.ends (h : Tidy kind p) {u a b : Uuid} {s : Stamp} {e : Edge} (hu : p.Holds u s (.edge e a b)) :
    (∃ s n, p.Holds a s (.node n)) ∧ ∃ s n, p.Holds b s (.node n) := by
  obtain ⟨t,ht⟩ := hu
  obtain ⟨hr,-,-⟩ | ⟨-,-,hv⟩ := cell_some ht
  · cases t with
    | node id =>
      obtain ⟨n,-,-,hv⟩ := Graph.record_node.mp hr
      cases hv
    | edge id =>
      obtain ⟨e',a',b',-,ha,hb,-,hv⟩ := Graph.record_edge.mp hr
      obtain ⟨-,rfl,rfl⟩ := Held.edge.inj hv
      have hend : ∀ i u, p.graph.uuidOf i = some u → ∃ s n, p.Holds u s (.node n) := by
        intro i u hi
        obtain ⟨n,hn,rfl⟩ := Option.map_eq_some_iff.mp hi
        obtain ⟨s,-,hc⟩ := h.live (Graph.record_node.mpr ⟨n,hn,rfl,rfl⟩)
        exact ⟨s,n.bare,_,hc⟩
      exact ⟨hend _ _ ha,hend _ _ hb⟩
  · cases hv

/-! ## Writing a cell -/

omit [JsonText] in
/-- Seen by UUID: a write replaces what is held for its UUID and drops the relationships of a
deleted node. -/
theorem Wrote.holds {t : StampTarget} {c : Cell} (hw : Wrote p q t c) (hat : p.At t c.uuid)
    (hinj : ∀ t' d, p.cell t' = some d → d.uuid = c.uuid → t' = t) (u : Uuid) (s : Stamp) (v : Held) :
    q.Holds u s v ↔ if u = c.uuid then s = c.stamp ∧ v = c.held
      else p.Holds u s v ∧ (c.held.isGone && v.touches c.uuid) = false := by
  constructor
  · rintro ⟨t',ht'⟩
    by_cases heq : t' = t
    · subst heq
      rw [hw.here] at ht'
      obtain rfl := Option.some.inj ht'
      simp
    · rw [hw.there t' heq,Option.filter_eq_some_iff] at ht'
      obtain ⟨hp,hd⟩ := ht'
      have hu : u ≠ c.uuid := fun hu => heq (hinj t' _ hp hu)
      rw [if_neg hu]
      exact ⟨⟨t',hp⟩,(Bool.not_eq_true' _).mp hd⟩
  · split_ifs with hu
    · rintro ⟨rfl,rfl⟩
      subst hu
      exact ⟨t,hw.here⟩
    · rintro ⟨⟨t',hp⟩,hd⟩
      refine ⟨t',?_⟩
      have heq : t' ≠ t := by
        rintro rfl
        obtain ⟨d,hd',hdu⟩ | ⟨hnone,-⟩ := hat
        · rw [hp] at hd'
          obtain rfl := Option.some.inj hd'
          exact hu hdu
        · rw [hp] at hnone
          cases hnone
      rw [hw.there t' heq,hp,Option.filter_some]
      simp [Cell.drops,hd]

theorem Tidy.at_inj (h : Tidy kind p) {t : StampTarget} {u : Uuid} (hat : p.At t u) {t' : StampTarget} {d : Cell}
    (hd : p.cell t' = some d) (hu : d.uuid = u) : t' = t := by
  obtain ⟨d',hd',hu'⟩ | ⟨-,hno⟩ := hat
  · exact h.inj t' t d d' hd hd' (hu.trans hu'.symm)
  · exact absurd hu (hno t' d hd)

omit [JsonText] in
theorem Wrote.sub {t t' : StampTarget} {c d : Cell} (hw : Wrote p q t c) (hd : q.cell t' = some d) :
    (t' = t ∧ d = c) ∨ (t' ≠ t ∧ p.cell t' = some d) := by
  by_cases heq : t' = t
  · subst heq
    rw [hw.here] at hd
    exact Or.inl ⟨rfl,(Option.some.inj hd).symm⟩
  · rw [hw.there t' heq,Option.filter_eq_some_iff] at hd
    exact Or.inr ⟨heq,hd.1⟩

theorem Tidy.wrote_kinds (h : Tidy kind p) {t : StampTarget} {c : Cell} (hw : Wrote p q t c)
    (hk : kind c.uuid = t.isNode) (t' : StampTarget) (d : Cell) (hd : q.cell t' = some d) : kind d.uuid = t'.isNode := by
  obtain ⟨rfl,rfl⟩ | ⟨-,hp⟩ := hw.sub hd
  · exact hk
  · exact h.kinds t' d hp

theorem Tidy.wrote_inj (h : Tidy kind p) {t : StampTarget} {c : Cell} (hw : Wrote p q t c) (hat : p.At t c.uuid)
    (t₁ t₂ : StampTarget) (c₁ c₂ : Cell) (h₁ : q.cell t₁ = some c₁) (h₂ : q.cell t₂ = some c₂)
    (hu : c₁.uuid = c₂.uuid) : t₁ = t₂ := by
  obtain ⟨rfl,rfl⟩ | ⟨hne₁,hp₁⟩ := hw.sub h₁
  · obtain ⟨rfl,-⟩ | ⟨hne₂,hp₂⟩ := hw.sub h₂
    · rfl
    · exact absurd (h.at_inj hat hp₂ hu.symm) hne₂
  · obtain ⟨rfl,rfl⟩ | ⟨-,hp₂⟩ := hw.sub h₂
    · exact absurd (h.at_inj hat hp₁ hu) hne₁
    · exact h.inj t₁ t₂ c₁ c₂ hp₁ hp₂ hu

end Cells

end Peer
end Drevo
