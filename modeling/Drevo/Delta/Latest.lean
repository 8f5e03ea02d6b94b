import Drevo.Delta.Change
import Drevo.Lib.Register

/-! Changes of nodes, in deltas of any order and with any repetitions: for each UUID the replica is
left with the change of the greatest stamp. -/
namespace Drevo
open Lib

/-! ## A replica in memory merges without errors -/

namespace Engine

/-- An engine without a log that takes writes. -/
structure Volatile (e : Engine) : Prop where
  durable : e.durable = false
  writable : e.readOnly = false
  free : e.live.prepared = ∅
  inflight : e.inflight = []

theorem Volatile.writeForCommit {e : Engine} (h : e.Volatile) : e.writeForCommit = .ok () :=
  writeForCommit_ok_iff.mpr (by simp [h.writable,h.free])

theorem Volatile.noted {e : Engine} (h : e.Volatile) {α : Type} {f : Inner → α × Inner}
    (hf : (f (e.load e.live)).2.prepared = e.live.prepared) (set : ConflictSet) :
    ((e.withLive f).2.noteCommit set).Volatile :=
  ⟨h.durable,h.writable,hf.trans h.free,h.inflight⟩

theorem Volatile.leaveLock {e : Engine} (h : e.Volatile) (call : ℕ) (ops : List GraphOp) :
    (e.leaveLock call ops).Volatile := by
  have heq : e.leaveLock call ops = { e with calls := e.calls.insert call .ok } := by
    simp [Engine.leaveLock,h.durable]
  rw [heq]
  exact ⟨h.durable,h.writable,h.free,h.inflight⟩

theorem Volatile.settle {e : Engine} (h : e.Volatile) (call : ℕ) (encoded io : Bool) :
    e.settle call encoded io = (true,e) := by
  simp [Engine.settle,h.inflight]

variable [JsonText]

theorem applyOp_prepared (s : Inner) (op : GraphOp) : (s.applyOp op).prepared = s.prepared :=
  Inner.prepared_of_schema (Inner.applyOp_schema s op).schema

theorem Volatile.applyDelete {e : Engine} (h : e.Volatile) (call : ℕ) (uuid : Uuid) (stamp : Stamp) (isNode : Bool)
    (current : StampTarget → Option Stamp) (remap : Remap) :
    ∃ won e' remap', e.applyDelete call uuid stamp isNode current remap = (.ok won,e',remap') ∧ e'.Volatile := by
  simp only [Engine.applyDelete,h.writeForCommit]
  by_cases hl : localWins current (remap.target uuid isNode) stamp = true
  · rw [if_pos hl]
    exact ⟨_,_,_,rfl,h⟩
  · rw [if_neg hl]
    split
    · exact ⟨_,_,_,rfl,(h.noted (applyOp_prepared _ _) _).leaveLock call _⟩
    · exact ⟨_,_,_,rfl,h⟩
    · have hanchor : ((e.load e.live).anchor isNode).2.prepared = e.live.prepared := by cases isNode <;> rfl
      exact ⟨_,_,_,rfl,h.noted hanchor _⟩

/-- Merging a change succeeds. -/
theorem Volatile.applyChange {e : Engine} (h : e.Volatile) (call : ℕ) (change : StampedChange)
    (current : StampTarget → Option Stamp) (remap : Remap) :
    ∃ won e' remap', e.applyChange call change current remap = (.ok won,e',remap') ∧ e'.Volatile := by
  cases change with
  | node node stamp =>
    simp only [Engine.applyChange,applyNodeUpsert,h.writeForCommit]
    split_ifs
    · exact ⟨_,_,_,rfl,h⟩
    · have hp : ((e.load e.live).mergeNode (remap.nodeTarget node.uuid) node).2.prepared = e.live.prepared := by
        have hids : ∀ t, ((e.load e.live).targetNode t).2.prepared = e.live.prepared := by
          intro t
          unfold Inner.targetNode
          split <;> rfl
        exact (applyOp_prepared _ _).trans (hids _)
      exact ⟨_,_,_,rfl,(h.noted hp _).leaveLock call _⟩
  | edge edge fromUuid toUuid stamp =>
    simp only [Engine.applyChange,applyEdgeUpsert,h.writeForCommit]
    split
    · split_ifs
      · exact ⟨_,_,_,rfl,h⟩
      · rename_i a b _ _ _
        have hp : ((e.load e.live).mergeEdge (remap.edgeTarget edge.uuid)
            { edge with fromId := a, toId := b }).2.prepared = e.live.prepared := by
          have hids : ∀ t, ((e.load e.live).targetEdge t).2.prepared = e.live.prepared := by
            intro t
            unfold Inner.targetEdge
            split <;> rfl
          exact (applyOp_prepared _ _).trans (hids _)
        exact ⟨_,_,_,rfl,(h.noted hp _).leaveLock call _⟩
    · exact ⟨_,_,_,rfl,h⟩
  | deleteNode uuid stamp => exact h.applyDelete call uuid stamp true current remap
  | deleteEdge uuid stamp => exact h.applyDelete call uuid stamp false current remap

end Engine

namespace Peer
variable [JsonText] {kind : Uuid → Bool} {p q : Peer} {remap remap' : Remap} {change : StampedChange} {turn : Turn}
  {won : Bool}

omit [JsonText] in
theorem mark_engine (p : Peer) (remap : Remap) (change : StampedChange) : (p.mark remap change).engine = p.engine := by
  cases change <;> simp only [mark] <;> split <;> rfl

theorem applyAll_volatile (h : p.engine.Volatile) (remap : Remap) (stats : ApplyStats) (turns : ℕ → Turn)
    (changes : List StampedChange) :
    ∃ stats' q, p.applyAll remap stats turns changes = (.ok stats',q) ∧ q.engine.Volatile := by
  induction changes generalizing p remap stats with
  | nil => exact ⟨stats,p,rfl,h⟩
  | cons change rest ih =>
    obtain ⟨won,e,remap',hc,he⟩ := h.applyChange 0 change p.currentStamp remap
    simp only [applyAll,applyChange,hc]
    cases won with
    | false => exact ih (p := { p with engine := e }) he remap' _
    | true =>
      simp only [he.settle]
      exact ih (by rw [observe,mark_engine]; exact he) remap' _

end Peer

/-! ## The replica as a set of registers -/

namespace StampedChange

def write (c : StampedChange) : Lib.Write Uuid Stamp Held := ⟨c.uuid,c.stamp,c.held⟩

theorem ordered_perm (changes : List StampedChange) : (ordered changes).Perm changes := by
  induction changes with
  | nil => exact List.Perm.refl _
  | cons c changes ih =>
    refine List.Perm.trans ?_ (ih.cons c)
    have hfilter : ∀ k, (c :: changes).filter (fun d => d.applyPhase = k) =
        if c.applyPhase = k then c :: changes.filter (fun d => d.applyPhase = k)
        else changes.filter (fun d => d.applyPhase = k) := by
      intro k
      by_cases hk : c.applyPhase = k <;> simp [hk]
    simp only [ordered,List.flatMap_cons,List.flatMap_nil,List.append_nil,hfilter]
    generalize changes.filter (fun d => d.applyPhase = 0) = nodes
    generalize changes.filter (fun d => d.applyPhase = 1) = edges
    generalize changes.filter (fun d => d.applyPhase = 2) = lostEdges
    generalize changes.filter (fun d => d.applyPhase = 3) = lostNodes
    cases c with
    | node record stamp => exact List.Perm.refl _
    | edge record a b stamp => exact List.perm_middle
    | deleteEdge uuid stamp =>
      have h := @List.perm_middle _ (StampedChange.deleteEdge uuid stamp) (nodes ++ edges) (lostEdges ++ lostNodes)
      simpa [applyPhase] using h
    | deleteNode uuid stamp =>
      have h := @List.perm_middle _ (StampedChange.deleteNode uuid stamp) (nodes ++ edges ++ lostEdges) lostNodes
      simpa [applyPhase] using h

theorem mem_ordered {c : StampedChange} {changes : List StampedChange} : c ∈ ordered changes ↔ c ∈ changes :=
  (ordered_perm changes).mem_iff

end StampedChange

namespace Peer
variable [JsonText] {p q : Peer} {remap remap' : Remap} {change : StampedChange} {turn : Turn}
  {m : Registers Uuid Stamp Held}

omit [JsonText] in
/-- The replica holds what the registers have. -/
def Represents (p : Peer) (m : Registers Uuid Stamp Held) : Prop := ∀ u s v, p.Holds u s v ↔ m u = some (s,v)

omit [JsonText] in
theorem Represents.covers (h : p.Represents m) (u : Uuid) (s : Stamp) : m.Covers u s ↔ p.Covers u s := by
  simp only [Registers.Covers,Covers,h u]

/-- The identity of nodes only. -/
abbrev TidyNodes (p : Peer) : Prop := Tidy (fun _ => true) p

theorem no_edge (h : TidyNodes p) {u : Uuid} {s : Stamp} {v : Held} (hu : p.Holds u s v) (uuid : Uuid) :
    v.touches uuid = false := by
  obtain ⟨t,ht⟩ := hu
  have hkind := h.kinds t _ ht
  cases t with
  | node id => 
    obtain ⟨hr,-,-⟩ | ⟨-,-,rfl⟩ := cell_some ht
    · obtain ⟨n,-,-,rfl⟩ := Graph.record_node.mp hr
      rfl
    · rfl
  | edge id => cases hkind

theorem Represents.took (hm : p.Represents m) (h : TidyNodes p) {now : ℤ}
    (ht : Took (fun _ => true) p q remap remap' change now) : q.Represents (m.write change.write) := by
  intro u s v
  rw [Registers.write_new (mt (hm.covers _ _).mp ht.fresh),ht.holds,Registers.put]
  by_cases hu : u = change.uuid
  · subst hu
    rw [if_pos rfl,show change.write.key = change.uuid from rfl,Function.update_self,Option.some.injEq,Prod.mk.injEq]
    exact ⟨fun hs => ⟨hs.1.symm,hs.2.symm⟩,fun hs => ⟨hs.1.symm,hs.2.symm⟩⟩
  · rw [if_neg hu,show change.write.key = change.uuid from rfl,Function.update_of_ne hu,← hm u s v]
    constructor
    · exact fun hs => hs.1
    · intro hs
      exact ⟨hs,by rw [no_edge h hs,Bool.and_false]⟩

theorem applyAll_represents (hm : p.Represents m) (h : TidyNodes p) (ha : Agrees remap p) {stats stats' : ApplyStats}
    {turns : ℕ → Turn} {changes : List StampedChange} (hn : ∀ c ∈ changes, c.isNode = true)
    (hr : p.applyAll remap stats turns changes = (.ok stats',q)) :
    TidyNodes q ∧ q.Represents (m.writes (changes.map StampedChange.write)) := by
  induction changes generalizing p remap stats m with
  | nil =>
    simp only [applyAll,Prod.mk.injEq] at hr
    obtain ⟨-,rfl⟩ := hr
    exact ⟨h,hm⟩
  | cons c rest ih =>
    have hc := hn c (by simp)
    have hrest := fun d hd => hn d (List.mem_cons_of_mem _ hd)
    simp only [applyAll] at hr
    rcases hone : p.applyChange remap c (turns rest.length) with ⟨r,p',remap'⟩
    rw [hone] at hr
    cases r with
    | error err => simp at hr
    | ok won =>
      have hspec := applyChange_spec h ha (fun he => absurd (hc.symm.trans he) (by simp)) hc.symm hone
      rw [List.map_cons,Registers.writes_cons]
      obtain ⟨rfl,rfl,rfl,hcov⟩ | ⟨rfl,htook⟩ := hspec
      · have hcov' : p'.Covers c.uuid c.stamp := by
          refine hcov.resolve_right ?_
          cases c with
          | edge record a b stamp => cases hc
          | _ => exact fun hlacks => hlacks
        rw [Registers.write_covered ((hm.covers _ _).mpr hcov')]
        exact ih hm h ha hrest hr
      · exact ih (hm.took h htook) htook.tidy htook.agrees hrest hr

theorem applyAll_covered (h : TidyNodes p) (ha : Agrees remap p) (stats : ApplyStats) (turns : ℕ → Turn)
    {changes : List StampedChange} (hn : ∀ c ∈ changes, c.isNode = true) (hc : ∀ c ∈ changes, p.Covers c.uuid c.stamp) :
    p.applyAll remap stats turns changes = (.ok { stats with skipped := stats.skipped+changes.length },p) := by
  induction changes generalizing stats with
  | nil => rfl
  | cons c rest ih =>
    have hwins := (h.localWins ha (show true = false → _ by simp) rfl c.stamp).mpr (hc c (by simp))
    have hone : p.applyChange remap c (turns rest.length) = (.ok false,p,remap) := by
      cases c with
      | node record stamp =>
        have hw : localWins p.currentStamp (remap.nodeTarget record.uuid) stamp = true := hwins
        simp [applyChange,Engine.applyChange,Engine.applyNodeUpsert,hw]
      | deleteNode uuid stamp =>
        have hw : localWins p.currentStamp (remap.target uuid true) stamp = true := hwins
        simp [applyChange,Engine.applyChange,Engine.applyDelete,hw]
      | edge record a b stamp => cases hn _ (List.mem_cons_self ..)
      | deleteEdge uuid stamp => cases hn _ (List.mem_cons_self ..)
    simp only [applyAll,hone]
    rw [ih _ (fun d hd => hn d (List.mem_cons_of_mem _ hd)) (fun d hd => hc d (List.mem_cons_of_mem _ hd))]
    simp only [List.length_cons,Nat.add_assoc,Nat.add_comm 1]

/-! ## Deltas one after the other -/

omit [JsonText] in
/-- A replica on an empty store, with the settings of its engine and a clock. -/
def opened (origin capacity : ℕ) (clock : Hlc) (maxTxWrites : Option ℕ) (durable : Bool) : Peer :=
  { engine := .new capacity false maxTxWrites durable, origin := origin, clock := clock }

/-- Merge deltas until one fails. -/
def merges (p : Peer) : List (List StampedChange × (ℕ → Turn)) → Except CoreError Peer
  | [] => .ok p
  | d :: rest =>
    match p.applyDelta d.1 d.2 with
    | (.error err,_) => .error err
    | (.ok _,q) => q.merges rest

omit [JsonText] in
/-- The change is in effect: its record is live with its stamp and has no tombstone, or no node is
left under its UUID and its tombstone stands. -/
def InEffect (p : Peer) : StampedChange → Prop
  | .node record stamp => ∃ id, p.engine.live.nodes[id]? = some { record with id := id } ∧
      p.stamps[StampTarget.node id]? = some stamp ∧
      (∀ (i : ℕ) (n : Node), p.engine.live.nodes[i]? = some n → n.uuid = record.uuid → i = id) ∧
      ∀ (t : StampTarget) (tomb : Tomb), p.tombstones[t]? = some tomb → tomb.uuid ≠ record.uuid
  | .deleteNode uuid stamp => (∀ (i : ℕ) (n : Node), p.engine.live.nodes[i]? = some n → n.uuid ≠ uuid) ∧
      ∃ id, p.tombstones[StampTarget.node id]? = some ⟨stamp,uuid⟩
  | _ => False

theorem opened_tidy (origin capacity : ℕ) (clock : Hlc) (maxTxWrites : Option ℕ) (durable : Bool) (kind : Uuid → Bool) :
    Tidy kind (opened origin capacity clock maxTxWrites durable) ∧
      ∀ t, (opened origin capacity clock maxTxWrites durable).cell t = none := by
  obtain ⟨p,hp⟩ : ∃ p, opened origin capacity clock maxTxWrites durable = p := ⟨_,rfl⟩
  have hrec : ∀ t, p.graph.record t = none := by
    intro t
    rw [← hp]
    cases t <;> simp [Graph.record,graph,opened,Engine.new,Inner.graph]
  have htomb : ∀ t : StampTarget, p.tombstones[t]? = none := by
    intro t
    rw [← hp]
    simp [opened]
  have hcell : ∀ t, p.cell t = none := by
    intro t
    rw [cell_dead (hrec t),htomb]
    rfl
  rw [hp]
  refine ⟨⟨?_,?_,?_,?_,?_,?_,?_⟩,hcell⟩
  · rw [← hp]
    exact (Engine.new_inv capacity false maxTxWrites durable).live
  · rw [← hp]
    intro id edge he
    simp [graph,opened,Engine.new,Inner.graph] at he
  · intro t hs
    rw [hrec] at hs
    cases hs
  · intro t hs
    rw [htomb] at hs
    cases hs
  · intro t hs
    rw [htomb] at hs
    cases hs
  · intro t c hc
    rw [hcell] at hc
    cases hc
  · intro t t' c c' hc
    rw [hcell] at hc
    cases hc

theorem merges_volatile (h : p.engine.Volatile) (deltas : List (List StampedChange × (ℕ → Turn))) :
    ∃ q, p.merges deltas = .ok q := by
  induction deltas generalizing p with
  | nil => exact ⟨p,rfl⟩
  | cons d rest ih =>
    obtain ⟨stats,q,hq,hv⟩ := applyAll_volatile h (.ofInner p.engine.live p.tombs) {} d.2 (StampedChange.ordered d.1)
    simp only [merges,applyDelta,hq]
    exact ih hv

theorem merges_represents (h : TidyNodes p) (hm : p.Represents m) {deltas : List (List StampedChange × (ℕ → Turn))}
    (hn : ∀ d ∈ deltas, ∀ c ∈ d.1, c.isNode = true) (hr : p.merges deltas = .ok q) :
    TidyNodes q ∧ q.Represents (m.writes ((deltas.flatMap (fun d => StampedChange.ordered d.1)).map StampedChange.write)) := by
  induction deltas generalizing p m with
  | nil =>
    obtain rfl := Except.ok.inj hr
    exact ⟨h,hm⟩
  | cons d rest ih =>
    simp only [merges] at hr
    rcases hd : p.applyDelta d.1 d.2 with ⟨r,p'⟩
    rw [hd] at hr
    cases r with
    | error err => cases hr
    | ok stats =>
      have hnd : ∀ c ∈ StampedChange.ordered d.1, c.isNode = true :=
        fun c hc => hn d (by simp) c (StampedChange.mem_ordered.mp hc)
      obtain ⟨hp',hm'⟩ := applyAll_represents hm h h.ofInner.1 hnd hd
      obtain ⟨hq,hmq⟩ := ih hp' hm' (fun d' hd' => hn d' (by simp [hd'])) hr
      refine ⟨hq,?_⟩
      rw [List.flatMap_cons,List.map_append,Registers.writes_append]
      exact hmq

theorem Tidy.holds_node {kind : Uuid → Bool} (h : Tidy kind p) {u : Uuid} {s : Stamp} {v : Node}
    (hu : p.Holds u s (.node v)) : ∃ id n, p.engine.live.nodes[id]? = some n ∧ n.uuid = u ∧ n.bare = v ∧ n.id = id ∧
      p.stamps[StampTarget.node id]? = some s := by
  obtain ⟨t,ht⟩ := hu
  obtain ⟨hr,hs,-⟩ | ⟨-,-,hv⟩ := cell_some ht
  · cases t with
    | node id =>
      obtain ⟨n,hn,hnu,hv⟩ := Graph.record_node.mp hr
      exact ⟨id,n,hn,hnu,(Held.node.inj hv).symm,h.wf.nodes.key id n hn,hs⟩
    | edge id =>
      obtain ⟨_,_,_,_,_,_,_,hv⟩ := Graph.record_edge.mp hr
      cases hv
  · cases hv

theorem Tidy.node_holds {kind : Uuid → Bool} (h : Tidy kind p) {id : ℕ} {n : Node}
    (hn : p.engine.live.nodes[id]? = some n) : ∃ s, p.cell (.node id) = some ⟨n.uuid,s,.node n.bare⟩ := by
  obtain ⟨s,-,hc⟩ := h.live (t := .node id) (Graph.record_node.mpr ⟨n,hn,rfl,rfl⟩)
  exact ⟨s,hc⟩

/-- What is held is in effect. -/
theorem inEffect_of_holds (h : TidyNodes p) {c : StampedChange} (hn : c.isNode = true)
    (hc : p.Holds c.uuid c.stamp c.held) : p.InEffect c := by
  cases c with
  | node record stamp =>
    obtain ⟨id,n,hid,hu,hbare,hkey,hs⟩ := h.holds_node hc
    have hrecord : n = { record with id := id } := by
      have hn' : n = { n.bare with id := n.id } := rfl
      rw [hn',hbare,hkey]
      rfl
    refine ⟨id,hrecord ▸ hid,hs,?_,?_⟩
    · intro i m hm hmu
      exact h.uuid_inj hm hid (hmu.trans hu.symm)
    · intro t tomb ht htu
      obtain ⟨s,hlive⟩ := h.node_holds hid
      have hdead := (h.dead ht).2
      obtain rfl := h.inj _ _ _ _ hlive hdead (hu.trans htu.symm)
      rw [hlive] at hdead
      simp at hdead
  | deleteNode uuid stamp =>
    obtain ⟨t,ht⟩ := hc
    have hkind := h.kinds t _ ht
    obtain ⟨-,-,hg⟩ | ⟨-,htomb,-⟩ := cell_some ht
    · cases hg
    · cases t with
      | edge id => cases hkind
      | node id =>
        refine ⟨?_,id,htomb⟩
        rintro i n hi rfl
        obtain ⟨s,hlive⟩ := h.node_holds hi
        obtain hit := h.inj _ _ _ _ hlive ht rfl
        rw [hit,ht] at hlive
        simp [StampedChange.held] at hlive
  | edge record a b stamp => cases hn
  | deleteEdge uuid stamp => cases hn

/-- Merge deltas of node changes, whose stamps are distinct for each UUID, into an empty replica, in
any order and with any repetitions: for each UUID the change with the greatest stamp is in effect,
nothing else is there, and a delta that was merged changes nothing when it is merged again. In
memory no merge fails. -/
theorem latest_change_wins (origin capacity : ℕ) (clock : Hlc) (maxTxWrites : Option ℕ) (durable : Bool)
    (deltas : List (List StampedChange × (ℕ → Turn))) (hn : ∀ d ∈ deltas, ∀ c ∈ d.1, c.isNode = true)
    (hdistinct : ∀ c ∈ deltas.flatMap Prod.fst, ∀ c' ∈ deltas.flatMap Prod.fst, c.uuid = c'.uuid →
      c.stamp = c'.stamp → c.held = c'.held) :
    (durable = false → ∃ p, (opened origin capacity clock maxTxWrites durable).merges deltas = .ok p) ∧
    ∀ p, (opened origin capacity clock maxTxWrites durable).merges deltas = .ok p →
      (∀ c ∈ deltas.flatMap Prod.fst,
        (∀ c' ∈ deltas.flatMap Prod.fst, c'.uuid = c.uuid → c'.stamp ≤ c.stamp) → p.InEffect c) ∧
      (∀ (id : ℕ) (n : Node), p.engine.live.nodes[id]? = some n → ∃ c ∈ deltas.flatMap Prod.fst, c.uuid = n.uuid) ∧
      (∀ (t : StampTarget) (tomb : Tomb), p.tombstones[t]? = some tomb →
        ∃ c ∈ deltas.flatMap Prod.fst, c.uuid = tomb.uuid) ∧
      ∀ d ∈ deltas, ∀ turns, p.applyDelta d.1 turns = (.ok { applied := 0, skipped := d.1.length },p) := by
  refine ⟨?_,?_⟩
  · rintro rfl
    exact merges_volatile ⟨rfl,rfl,rfl,rfl⟩ deltas
  · intro p hp
    obtain ⟨h₀,hnone⟩ := opened_tidy origin capacity clock maxTxWrites durable (fun _ => true)
    have hempty : (opened origin capacity clock maxTxWrites durable).Represents (fun _ => none) := by
      intro u s v
      constructor
      · rintro ⟨t,ht⟩
        rw [hnone] at ht
        cases ht
      · intro hs
        cases hs
    obtain ⟨h,hm⟩ := merges_represents h₀ hempty hn hp
    obtain ⟨ws,hws⟩ : ∃ ws, (deltas.flatMap (fun d => StampedChange.ordered d.1)).map StampedChange.write = ws := ⟨_,rfl⟩
    rw [hws] at hm
    have hmem : ∀ w, w ∈ ws ↔ ∃ c ∈ deltas.flatMap Prod.fst, c.write = w := by
      intro w
      rw [← hws,List.mem_map]
      simp only [List.mem_flatMap,StampedChange.mem_ordered]
    have hws_distinct : Registers.Distinct ws := by
      intro w hw w' hw' hk hs
      obtain ⟨c,hc,rfl⟩ := (hmem w).mp hw
      obtain ⟨c',hc',rfl⟩ := (hmem w').mp hw'
      exact hdistinct c hc c' hc' hk hs
    have hheld : ∀ t c, p.cell t = some c → ∃ d ∈ deltas.flatMap Prod.fst, d.uuid = c.uuid := by
      intro t c hc
      have hin := (Registers.writes_origin ((hm c.uuid c.stamp c.held).mp ⟨t,hc⟩)).resolve_left (by simp)
      obtain ⟨d,hd,hdw⟩ := (hmem _).mp hin
      exact ⟨d,hd,congrArg Lib.Write.key hdw⟩
    refine ⟨?_,?_,?_,?_⟩
    · intro c hc hmax
      have hkept := Registers.writes_greatest hws_distinct ((hmem c.write).mpr ⟨c,hc,rfl⟩) (by
        intro w hw hk
        obtain ⟨c',hc',rfl⟩ := (hmem w).mp hw
        exact hmax c' hc' hk)
      obtain ⟨d,hd,hcd⟩ := List.mem_flatMap.mp hc
      exact inEffect_of_holds h (hn d hd c hcd) ((hm _ _ _).mpr hkept)
    · intro id n hid
      obtain ⟨s,hc⟩ := h.node_holds hid
      exact hheld _ _ hc
    · intro t tomb ht
      exact hheld _ _ (h.dead ht).2
    · intro d hd turns
      have hcovered : ∀ c ∈ StampedChange.ordered d.1, p.Covers c.uuid c.stamp := by
        intro c hc
        have hw := (hmem c.write).mpr ⟨c,List.mem_flatMap.mpr ⟨d,hd,StampedChange.mem_ordered.mp hc⟩,rfl⟩
        exact (hm.covers _ _).mp (Registers.covers_writes _ hw)
      rw [applyDelta,applyAll_covered h h.ofInner.1 {} turns
        (fun c hc => hn d hd c (StampedChange.mem_ordered.mp hc)) hcovered,
        (StampedChange.ordered_perm d.1).length_eq]
      simp

end Peer

section Sample
attribute [local instance] Json.compactText

/-- A node of a peer, with the UUID it goes by. -/
def peerNode (uuid : Uuid) (title : String) : Node := (NewNode.titled "n" title).intoNode 1 ⟨0,uuid⟩

/-- A node is written, deleted later at another peer, and the first delta comes once more. -/
def sampleDeltas : List (List StampedChange × (ℕ → Turn)) :=
  [([.deleteNode 7#128 (Stamp.mk (Hlc.mk 9 0) 2)],fun _ => {}),
    ([.node (peerNode 7#128 "a") (Stamp.mk (Hlc.mk 5 0) 1),.node (peerNode 8#128 "b") (Stamp.mk (Hlc.mk 3 0) 1)],fun _ => {}),
    ([.deleteNode 7#128 (Stamp.mk (Hlc.mk 9 0) 2)],fun _ => {})]

theorem latest_change_wins_sample : ∃ p : Peer, (Peer.opened 3 4 (Hlc.mk 0 0) none false).merges sampleDeltas = .ok p ∧
    p.InEffect (.deleteNode 7#128 (Stamp.mk (Hlc.mk 9 0) 2)) ∧
    p.InEffect (.node (peerNode 8#128 "b") (Stamp.mk (Hlc.mk 3 0) 1)) := by
  obtain ⟨hok,hall⟩ := Peer.latest_change_wins 3 4 (Hlc.mk 0 0) none false sampleDeltas (by decide +kernel) (by decide +kernel)
  obtain ⟨p,hp⟩ := hok rfl
  obtain ⟨hwins,-⟩ := hall p hp
  exact ⟨p,hp,hwins _ (by simp [sampleDeltas]) (by decide +kernel),hwins _ (by simp [sampleDeltas]) (by decide +kernel)⟩

end Sample
end Drevo
