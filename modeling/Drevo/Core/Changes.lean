import Drevo.Core.Flow
import Drevo.Core.Reads
import Drevo.Core.Snapshot

/-! What an open transaction has changed so far, which triggers run on: the records its buffered operations
name, and the edges that went with a deleted node, compared with the snapshot it began from. -/
namespace Drevo
open Lib

/-- One record a transaction changed, as committed before it began and as it leaves it. -/
structure Change (T : Type) where
  before : Option T
  after : Option T

structure TxChanges where
  nodes : List (Change Node)
  edges : List (Change Edge)

/-- Whether two versions of a record are the same: both absent, one stored record, or equal. -/
def sameVersion {T : Type} (equal : T → T → Bool) (shared : Bool) : Option T → Option T → Bool
  | none,none => true
  | some b,some a => shared || equal b a
  | _,_ => false

def change {T : Type} (equal : T → T → Bool) (shared : Bool) (before after : Option T) : Option (Change T) :=
  if sameVersion equal shared before after then none else some ⟨before,after⟩

namespace TxSlot

/-- The transaction has written no record of the node, so that its copy holds the one of the snapshot, if any. -/
def sharesNode (slot : TxSlot) (id : ℕ) : Bool :=
  slot.ops.all (fun op => match op with | .upsertNode node => node.id ≠ id | _ => true)

def sharesEdge (slot : TxSlot) (id : ℕ) : Bool :=
  slot.ops.all (fun op => match op with | .upsertEdge edge => edge.id ≠ id | _ => true)

/-- The nodes and the edges that an operation may have changed. A node's edges go with it without operations of
their own. -/
def collect (base : Inner) (ids : Finset ℕ × Finset ℕ) : GraphOp → Finset ℕ × Finset ℕ
  | .upsertNode node => (insert node.id ids.1,ids.2)
  | .deleteNode id =>
    (insert id ids.1,(base.incidentEntries id .both).foldl (fun edgeIds e => insert e.edgeId edgeIds) ids.2)
  | .upsertEdge edge => (ids.1,insert edge.id ids.2)
  | .deleteEdge id => (ids.1,insert id ids.2)
  | _ => ids

def collected (slot : TxSlot) : Finset ℕ × Finset ℕ := slot.ops.foldl (collect slot.base) (∅,∅)

def changes (slot : TxSlot) : TxChanges where
  nodes := (slot.collected.1.sort (· ≤ ·)).filterMap (fun n =>
    change (· == ·) (slot.sharesNode n) (slot.base.getNode n) (slot.working.getNode n))
  edges := (slot.collected.2.sort (· ≤ ·)).filterMap (fun m =>
    change Edge.same (slot.sharesEdge m) (slot.base.getEdge m) (slot.working.getEdge m))

end TxSlot

def Engine.txChanges (e : Engine) (id : ℕ) : Option TxChanges := e.txs[id]?.map TxSlot.changes

/-! ## What operations leave alone -/

/-- The operation writes or deletes the node. -/
def GraphOp.namesNode (n : ℕ) : GraphOp → Prop
  | .upsertNode node => node.id = n
  | .deleteNode id => id = n
  | _ => False

/-- The operation writes or deletes the edge, or deletes an end that it had in the snapshot. -/
def GraphOp.namesEdge (base : Inner) (m : ℕ) : GraphOp → Prop
  | .upsertEdge edge => edge.id = m
  | .deleteEdge id => id = m
  | .deleteNode id => ∃ e, base.edges[m]? = some e ∧ e.touches id
  | _ => False

namespace TxSlot

theorem mem_inserted (l : List AdjEntry) (ids : Finset ℕ) (m : ℕ) :
    m ∈ l.foldl (fun edgeIds e => insert e.edgeId edgeIds) ids ↔ m ∈ ids ∨ m ∈ l.map AdjEntry.edgeId := by
  induction l generalizing ids with
  | nil => simp
  | cons e l ih =>
    rw [List.foldl_cons,ih,Finset.mem_insert,List.map_cons,List.mem_cons]
    tauto

theorem mem_collected {base : Inner} (h : base.EdgeIndexes) (ops : List GraphOp) (ids : Finset ℕ × Finset ℕ) :
    (∀ n, n ∈ (ops.foldl (collect base) ids).1 ↔ n ∈ ids.1 ∨ ∃ op ∈ ops, op.namesNode n) ∧
      ∀ m, m ∈ (ops.foldl (collect base) ids).2 ↔ m ∈ ids.2 ∨ ∃ op ∈ ops, op.namesEdge base m := by
  induction ops generalizing ids with
  | nil => simp
  | cons op ops ih =>
    obtain ⟨hn,hm⟩ := ih (collect base ids op)
    have hstep : (∀ n, n ∈ (collect base ids op).1 ↔ n ∈ ids.1 ∨ op.namesNode n) ∧
        ∀ m, m ∈ (collect base ids op).2 ↔ m ∈ ids.2 ∨ op.namesEdge base m := by
      cases op with
      | deleteNode id =>
        refine ⟨?_,?_⟩
        · intro n
          simp only [collect,Finset.mem_insert,GraphOp.namesNode]
          tauto
        · intro m
          simp only [collect,mem_inserted,Inner.mem_incident h,GraphOp.namesEdge]
      | _ =>
        simp only [collect,Finset.mem_insert,GraphOp.namesNode,GraphOp.namesEdge]
        grind
    refine ⟨?_,?_⟩
    · intro n
      rw [List.foldl_cons,hn,hstep.1,List.exists_mem_cons_iff,or_assoc]
    · intro m
      rw [List.foldl_cons,hm,hstep.2,List.exists_mem_cons_iff,or_assoc]

end TxSlot

namespace Graph

theorem applyAll_node (ops : List GraphOp) (n : ℕ) : ∀ g : Graph, (∀ op ∈ ops, ¬ op.namesNode n) →
    (g.applyAll ops).nodes[n]? = g.nodes[n]? := by
  induction ops with
  | nil => exact fun _ _ => rfl
  | cons op ops ih =>
    intro g h
    rw [applyAll_cons,ih _ (fun op' hop => h op' (List.mem_cons_of_mem _ hop))]
    have hop := h op (List.mem_cons_self ..)
    cases op with
    | upsertNode node => rw [apply,Map.get_insert,if_neg (show ¬ node.id = n from hop)]
    | deleteNode id =>
      rw [apply]
      split_ifs
      · rw [Map.get_erase,if_neg (show ¬ id = n from hop)]
      · rfl
    | _ => rfl

theorem applyAll_unwritten (ops : List GraphOp) (n : ℕ) : ∀ g : Graph, (∀ node, .upsertNode node ∈ ops → node.id ≠ n) →
    (g.applyAll ops).nodes[n]? = g.nodes[n]? ∨ (g.applyAll ops).nodes[n]? = none := by
  induction ops with
  | nil => exact fun _ _ => .inl rfl
  | cons op ops ih =>
    intro g h
    rw [applyAll_cons]
    have hstep : (g.apply op).nodes[n]? = g.nodes[n]? ∨ (g.apply op).nodes[n]? = none := by
      cases op with
      | upsertNode node =>
        rw [apply,Map.get_insert,if_neg (h node (List.mem_cons_self ..))]
        exact .inl rfl
      | deleteNode id =>
        rw [apply]
        split_ifs
        · rw [Map.get_erase]
          split_ifs
          · exact .inr rfl
          · exact .inl rfl
        · exact .inl rfl
      | _ => exact .inl rfl
    obtain hrest | hrest := ih (g.apply op) (fun node hop => h node (List.mem_cons_of_mem _ hop))
    · rw [hrest]
      exact hstep
    · exact .inr hrest

theorem applyAll_edge {base : Inner} (ops : List GraphOp) (m : ℕ) : ∀ g : Graph, g.edges[m]? = base.edges[m]? →
    (∀ op ∈ ops, ¬ op.namesEdge base m) → (g.applyAll ops).edges[m]? = base.edges[m]? := by
  induction ops with
  | nil => exact fun _ hg _ => hg
  | cons op ops ih =>
    intro g hg h
    refine ih (g.apply op) ?_ (fun op' hop => h op' (List.mem_cons_of_mem _ hop))
    have hop := h op (List.mem_cons_self ..)
    cases op with
    | upsertEdge edge => rw [apply,Map.get_insert,if_neg (show ¬ edge.id = m from hop),hg]
    | deleteEdge id => rw [apply,Map.get_erase,if_neg (show ¬ id = m from hop),hg]
    | deleteNode id =>
      rw [apply]
      split_ifs
      · rw [get_filter_edges,hg]
        cases he : base.edges[m]? with
        | none => rfl
        | some e =>
          have htouch : e.touches id = false := by
            by_contra htouch
            exact hop ⟨e,he,by simpa using htouch⟩
          rw [Option.filter_some,htouch]
          rfl
      · exact hg
    | _ => exact hg

/-- An edge that is not written stays as it was or is gone. -/
theorem applyAll_unwritten_edge (ops : List GraphOp) (m : ℕ) : ∀ g : Graph, (∀ edge, .upsertEdge edge ∈ ops → edge.id ≠ m) →
    (g.applyAll ops).edges[m]? = g.edges[m]? ∨ (g.applyAll ops).edges[m]? = none := by
  induction ops with
  | nil => exact fun _ _ => .inl rfl
  | cons op ops ih =>
    intro g h
    rw [applyAll_cons]
    have hstep : (g.apply op).edges[m]? = g.edges[m]? ∨ (g.apply op).edges[m]? = none := by
      cases op with
      | upsertEdge edge =>
        rw [apply,Map.get_insert,if_neg (h edge (List.mem_cons_self ..))]
        exact .inl rfl
      | deleteEdge id =>
        rw [apply,Map.get_erase]
        split_ifs
        · exact .inr rfl
        · exact .inl rfl
      | deleteNode id =>
        rw [apply]
        split_ifs
        · rw [get_filter_edges]
          cases g.edges[m]? with
          | none => exact .inl rfl
          | some e =>
            rw [Option.filter_some]
            split_ifs
            · exact .inl rfl
            · exact .inr rfl
        · exact .inl rfl
      | _ => exact .inl rfl
    obtain hrest | hrest := ih (g.apply op) (fun edge hop => h edge (List.mem_cons_of_mem _ hop))
    · rw [hrest]
      exact hstep
    · exact .inr hrest

end Graph

/-! ## What the comparison finds -/

theorem sameVersion_refl {T : Type} {equal : T → T → Bool} (v : Option T) : sameVersion equal true v v = true := by
  cases v <;> rfl

theorem Edge.same_refl {e : Edge} (h : e.weight.isNan = false) : e.same e = true := by
  simp [Edge.same,F32.eq,h]

theorem filterMap_versions {T : Type} (equal : T → T → Bool) (shared : ℕ → Bool) (before after : ℕ → Option T) (l : List ℕ) :
    l.filterMap (fun i => change equal (shared i) (before i) (after i)) =
      (l.filter (fun i => !sameVersion equal (shared i) (before i) (after i))).map (fun i => ⟨before i,after i⟩) := by
  induction l with
  | nil => rfl
  | cons i l ih =>
    rw [List.filterMap_cons,List.filter_cons,change]
    by_cases h : sameVersion equal (shared i) (before i) (after i) = true
    · rw [if_pos h,h]
      exact ih
    · rw [if_neg h,Bool.not_eq_true _ |>.mp h]
      simp only [Bool.not_false,if_true,List.map_cons]
      rw [ih]

namespace TxSlot

/-- What two versions of a relationship differ in for a reader of the changes: one of them is missing, or they are
neither one stored record nor equal. -/
def edgeDiffers (slot : TxSlot) (m : ℕ) : Prop :=
  sameVersion Edge.same (slot.sharesEdge m) (slot.base.edges[m]?) (slot.working.edges[m]?) = false

variable {slot : TxSlot}

theorem shares_unwritten {n : ℕ} (h : slot.sharesNode n = true) (node : Node) (hin : .upsertNode node ∈ slot.ops) : node.id ≠ n :=
  of_decide_eq_true (List.all_eq_true.mp h _ hin)

theorem shares_unwritten_edge {m : ℕ} (h : slot.sharesEdge m = true) (edge : Edge) (hin : .upsertEdge edge ∈ slot.ops) :
    edge.id ≠ m := of_decide_eq_true (List.all_eq_true.mp h _ hin)

theorem shared_edge (hw : slot.working.graph = slot.base.graph.applyAll slot.ops) {m : ℕ} (h : slot.sharesEdge m = true)
    {b a : Edge} (hb : slot.base.edges[m]? = some b) (ha : slot.working.edges[m]? = some a) : b = a := by
  have hedges : slot.working.edges[m]? = (slot.base.graph.applyAll slot.ops).edges[m]? :=
    congrArg (fun g : Graph => g.edges[m]?) hw
  rw [ha] at hedges
  obtain hsame | hgone := Graph.applyAll_unwritten_edge slot.ops m slot.base.graph (shares_unwritten_edge h)
  · exact Option.some.inj (hb.symm.trans (hsame.symm.trans hedges.symm))
  · rw [hgone] at hedges
    cases hedges

/-- The nodes that are listed are those whose records differ. -/
theorem listed_node {base : Inner} (hbase : base.EdgeIndexes)
    (hc : slot.collected = slot.ops.foldl (collect base) (∅,∅)) (hw : slot.working.graph = slot.base.graph.applyAll slot.ops) (n : ℕ) :
    (n ∈ slot.collected.1 ∧ sameVersion (· == ·) (slot.sharesNode n) (slot.base.nodes[n]?) (slot.working.nodes[n]?) = false) ↔
      slot.base.nodes[n]? ≠ slot.working.nodes[n]? := by
  have hnodes : slot.working.nodes[n]? = (slot.base.graph.applyAll slot.ops).nodes[n]? :=
    congrArg (fun g : Graph => g.nodes[n]?) hw
  constructor
  · rintro ⟨-,hdiff⟩ heq
    rw [← heq] at hdiff
    cases hv : slot.base.nodes[n]? with
    | none =>
      rw [hv] at hdiff
      cases hdiff
    | some node =>
      rw [hv] at hdiff
      simp [sameVersion] at hdiff
  · intro hne
    refine ⟨?_,?_⟩
    · by_contra hout
      rw [hc,(mem_collected hbase slot.ops (∅,∅)).1] at hout
      refine hne ?_
      rw [hnodes,Graph.applyAll_node slot.ops n slot.base.graph (fun op hop hname => hout (.inr ⟨op,hop,hname⟩))]
      rfl
    · cases hv : slot.base.nodes[n]? with
      | none =>
        rw [hv] at hne
        cases hv' : slot.working.nodes[n]? with
        | none => exact absurd hv'.symm hne
        | some node => rfl
      | some node =>
        rw [hv] at hne
        cases hv' : slot.working.nodes[n]? with
        | none => rfl
        | some node' =>
          have hshare : slot.sharesNode n = false := by
            by_contra hshare
            obtain hsame | hgone := Graph.applyAll_unwritten slot.ops n slot.base.graph
              (shares_unwritten (by simpa using hshare))
            · exact hne (hv.symm.trans (hsame.symm.trans hnodes.symm))
            · rw [hnodes,hgone] at hv'
              cases hv'
          rw [sameVersion,hshare,Bool.false_or,beq_eq_false_iff_ne]
          rintro rfl
          exact hne hv'.symm

theorem listed_edge {base : Inner} (hbase : base.EdgeIndexes) (hb : slot.base.graph = base.graph)
    (hc : slot.collected = slot.ops.foldl (collect base) (∅,∅)) (hw : slot.working.graph = slot.base.graph.applyAll slot.ops) (m : ℕ) :
    (m ∈ slot.collected.2 ∧ slot.edgeDiffers m) ↔ slot.edgeDiffers m := by
  refine and_iff_right_of_imp ?_
  intro hdiff
  by_contra hout
  rw [hc,(mem_collected hbase slot.ops (∅,∅)).2] at hout
  have hnone : ∀ op ∈ slot.ops, ¬ op.namesEdge base m := fun op hop hname => hout (.inr ⟨op,hop,hname⟩)
  have hbedges : slot.base.graph.edges[m]? = base.edges[m]? := congrArg (fun g : Graph => g.edges[m]?) hb
  have hedges : slot.working.edges[m]? = slot.base.edges[m]? :=
    (congrArg (fun g : Graph => g.edges[m]?) hw).trans ((Graph.applyAll_edge slot.ops m slot.base.graph hbedges hnone).trans hbedges.symm)
  have hshare : slot.sharesEdge m = true := by
    refine List.all_eq_true.mpr ?_
    intro op hop
    cases op with
    | upsertEdge edge => exact decide_eq_true (hnone _ hop)
    | _ => rfl
  rw [edgeDiffers,hedges,hshare,sameVersion_refl] at hdiff
  cases hdiff

end TxSlot

namespace Engine
variable [JsonText]

theorem step_base {e : Engine} (h : Inv e) (a : Action) {id : ℕ} (hid : id ≤ e.nextRegTx) :
    id ≤ (e.step a).nextRegTx ∧ ∀ slot', (e.step a).txs[id]? = some slot' → ∃ slot, e.txs[id]? = some slot ∧ slot'.base = slot.base := by
  have hsame : ∀ e' : Engine, e'.txs = e.txs → e'.nextRegTx = e.nextRegTx → id ≤ e'.nextRegTx ∧
      ∀ slot', e'.txs[id]? = some slot' → ∃ slot, e.txs[id]? = some slot ∧ slot'.base = slot.base := by
    intro e' htxs hnext
    rw [htxs,hnext]
    exact ⟨hid,fun slot hs => ⟨slot,hs,rfl⟩⟩
  by_cases ha : a.isMerge = false
  · obtain ⟨hle,hslot⟩ := step_slot h ha hid
    refine ⟨hle,?_⟩
    intro slot' hs
    obtain ⟨slot,hold,hb,-⟩ := hslot slot' hs
    exact ⟨slot,hold,hb⟩
  · cases a with
    | applyDump call dump =>
      simp only [step]
      split_ifs
      · exact hsame e rfl rfl
      · obtain ⟨ns,es,hsec,-⟩ := applyDump_section h.live call dump
        exact hsame _ hsec.txs hsec.nextRegTx
    | deltaBegin i changes tomb => exact hsame _ rfl rfl
    | deltaStep i call current =>
      simp only [step]
      split_ifs
      · exact hsame e rfl rfl
      · obtain ⟨-,ops,hsec,-⟩ | ⟨edge,-,hsec⟩ := deltaStep_section h.live i call current
        · exact hsame _ hsec.txs hsec.nextRegTx
        · exact hsame _ hsec.txs hsec.nextRegTx
    | _ => exact absurd rfl ha

theorem run_base {e : Engine} (h : Inv e) (mid : List Action) {id : ℕ} (hid : id ≤ e.nextRegTx) {slot' : TxSlot}
    (hs : (e.run mid).txs[id]? = some slot') : ∃ slot, e.txs[id]? = some slot ∧ slot'.base = slot.base := by
  induction mid generalizing e with
  | nil => exact ⟨slot',hs,rfl⟩
  | cons a mid ih =>
    obtain ⟨hid',hstep⟩ := step_base h a hid
    obtain ⟨slot,hslot,hb⟩ := ih (step_inv h a) hid' hs
    obtain ⟨slot₀,hslot₀,hb₀⟩ := hstep slot hslot
    exact ⟨slot₀,hslot₀,hb.trans hb₀⟩

end Engine

namespace Engine
section Sample
attribute [local instance] Json.compactText

/-- Two notes that link to each other. -/
def twoLinks : List Action :=
  [.direct 1 (.mutation (.createNode (.titled "Note" "a") ⟨5,1⟩)),.direct 2 (.mutation (.createNode (.titled "Note" "b") ⟨5,2⟩)),
    .direct 3 (.mutation (.createEdge (.plain 1 2 "links_to") ⟨5,3⟩)),.direct 4 (.mutation (.createEdge (.plain 2 1 "links_to") ⟨5,4⟩))]

/-- A link gets another kind, a third note is created and linked, then an end of all links is deleted. -/
def cascadingWrites : List Action :=
  [.txWrite 1 (.updateEdge 1 { kind := some "cites" }),.txWrite 1 (.createNode (.titled "Note" "c") ⟨6,5⟩),
    .txWrite 1 (.createEdge (.plain 3 1 "links_to") ⟨6,6⟩),.txWrite 1 (.deleteNode 1)]

end Sample

end Engine

end Drevo
