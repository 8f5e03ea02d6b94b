import Drevo.Core.Follow
import Drevo.Core.Reads

/-! The snapshot form of a state, as a compaction writes it and a dump hands it out: replayed
into an empty state it gives back the records, the prepared transactions and the heuristic
outcomes, and every read answers as before. Replayed once more it changes nothing. -/
namespace Drevo
open Lib

namespace Inner
variable [JsonText]

/-! ## Log entries a state already holds -/

omit [JsonText] in
/-- No stored node is newer than the newest time stamp seen. -/
def Stamped (s : Inner) : Prop := ∀ (id : ℕ) (n : Node), s.nodes[id]? = some n → n.updatedAt ≤ s.lastUpdatedAt

omit [JsonText] in
theorem Stamped.congr {s t : Inner} (h : Stamped s) (hn : ∀ (id : ℕ) (n : Node), t.nodes[id]? = some n → s.nodes[id]? = some n)
    (hl : t.lastUpdatedAt = s.lastUpdatedAt) : Stamped t := by
  intro id n hid
  rw [hl]
  exact h id n (hn id n hid)

theorem applyOp_stamped {s : Inner} (h : Stamped s) (op : GraphOp) : Stamped (s.applyOp op) := by
  cases op with
  | upsertNode node =>
    intro id n hid
    simp only [applyOp,upsertNode_eq,Map.get_insert] at hid ⊢
    split_ifs at hid with hnode
    · obtain rfl := Option.some.inj hid
      exact le_max_right _ _
    · exact (h id n hid).trans (le_max_left _ _)
  | deleteNode id =>
    cases hn : s.nodes[id]? with
    | none => simpa only [applyOp,hn] using h
    | some node =>
      have hf := removeEdges_frame ((s.incidentEntries id .both).map AdjEntry.edgeId) s
      simp only [applyOp,hn]
      refine h.congr ?_ hf.lastUpdatedAt
      intro a n ha
      have hnodes : (s.dropNode id node).nodes = s.nodes.erase id :=
        congrArg (fun m => Std.ExtTreeMap.erase m id) hf.nodes
      rw [hnodes,Map.get_erase] at ha
      split_ifs at ha
      exact ha
  | upsertEdge edge =>
    simp only [applyOp,upsertEdge_fields]
    exact h
  | deleteEdge id =>
    have hf := removeEdge_frame s id
    exact h.congr (fun a n ha => hf.nodes ▸ ha) hf.lastUpdatedAt
  | setEmbedding id vector => exact h
  | deleteEmbedding id => exact h

theorem applyOps_stamped {s : Inner} (h : Stamped s) (ops : List GraphOp) : Stamped (s.applyOps ops) := by
  induction ops generalizing s with
  | nil => exact h
  | cons op ops ih => exact ih (applyOp_stamped h op)

theorem applyWalOps_stamped {s : Inner} (h : Stamped s) (ops : List WalOp) : Stamped (s.applyWalOps ops) := by
  induction ops generalizing s with
  | nil => exact h
  | cons op ops ih =>
    refine ih ?_
    cases op with
    | graph op => exact applyOp_stamped h op
    | prepare gid now ops => exact h
    | commitPrepared gid =>
      simp only [applyWalOp]
      split
      · exact applyOps_stamped (s := { s with prepared := s.prepared.erase gid }) h _
      · exact h
    | rollbackPrepared gid heuristic => cases heuristic <;> exact h

theorem unique_eq {s t : Inner} (hs : NodeIndexes s) (ht : NodeIndexes t) (hn : t.nodes = s.nodes)
    (htuples : t.unique.map Prod.fst = s.unique.map Prod.fst) : t.unique = s.unique := by
  have hbuild : ∀ u : Inner, NodeIndexes u → u.nodes = s.nodes →
      u.unique = (u.unique.map Prod.fst).map (fun tuple => (tuple,s.buildUnique tuple)) := by
    intro u hu hun
    rw [List.map_map]
    refine (List.map_id u.unique).symm.trans (List.map_congr_left ?_)
    intro entry hentry
    have hfiles := hu.unique entry hentry
    rw [hun] at hfiles
    exact Prod.ext rfl (hfiles.unique (buildUnique_files hs entry.1))
  rw [hbuild t ht hn,htuples]
  exact (hbuild s hs rfl).symm

theorem upsertNode_same {s : Inner} (h : Wf s) (hs : Stamped s) {node : Node}
    (hn : s.nodes[node.id]? = some node) : s.upsertNode node = s := by
  have hw := (upsertNode_wf h node).nodes
  have hschema := (applyOp_schema s (.upsertNode node)).schema
  have hnodes : (s.upsertNode node).nodes = s.nodes := by
    rw [upsertNode_eq]
    exact Map.insert_get hn
  have htitles : (s.upsertNode node).titles = s.titles := (hnodes ▸ hw.titles).unique h.nodes.titles
  have hkinds : (s.upsertNode node).kindIndex = s.kindIndex := (hnodes ▸ hw.kinds).unique h.nodes.kinds
  have hunique : (s.upsertNode node).unique = s.unique :=
    unique_eq h.nodes hw hnodes (tuples_of_schema hschema)
  have hids : s.ids.observeNode node.id = s.ids := by
    have hb := h.nodes.bound _ _ hn
    simp [IdCounters.observeNode,hb]
  have hstamp : max s.lastUpdatedAt node.updatedAt = s.lastUpdatedAt := max_eq_left (hs _ _ hn)
  rw [upsertNode_eq] at hnodes htitles hkinds hunique ⊢
  simp only at hnodes htitles hkinds hunique
  rw [hnodes,htitles,hkinds,hunique,hids,hstamp]

theorem upsertEdge_same {s : Inner} (h : Wf s) {edge : Edge} (he : s.edges[edge.id]? = some edge) :
    s.upsertEdge edge = s := by
  obtain ⟨i,hi⟩ := h.edges.interned _ _ he
  have hkind : (s.internKind edge.kind).2 = s := by simp only [internKind,hi]
  have hedges : s.edges.insert edge.id edge = s.edges := Map.insert_get he
  refine (replaceEdge_eq h edge he rfl rfl ?_ ?_ (fun n => rfl) (fun n => rfl) ?_).symm
  · rw [hedges,hkind]
    exact h.edges.outAdj
  · rw [hedges,hkind]
    exact h.edges.inAdj
  · rw [hedges,hkind]

theorem applyWalOp_toWalOps {s : Inner} (h : Wf s) (hs : Stamped s) (hx : s.ledger.Exclusive) {op : WalOp}
    (hop : op ∈ s.toWalOps) : s.applyWalOp op = s := by
  simp only [toWalOps,List.mem_append,List.mem_map,Prod.exists,Std.ExtTreeMap.mem_toList_iff_getElem?_eq_some] at hop
  rcases hop with (((⟨id,n,hn,rfl⟩ | ⟨id,e,he,rfl⟩) | ⟨id,v,hv,rfl⟩) | ⟨gid,entry,hp,rfl⟩) | ⟨gid,u,hu,rfl⟩
  · obtain rfl := h.nodes.key id n hn
    exact upsertNode_same h hs hn
  · obtain rfl := h.edges.key id e he
    exact upsertEdge_same h he
  · simp only [applyWalOp,applyOp,Map.insert_get hv]
  · have hnone : s.heuristic[gid]? = none := hx gid (by simp [ledger,hp])
    have hheur : s.heuristic.erase gid = s.heuristic := Map.erase_none hnone
    have hentry : s.prepared.insert gid ⟨entry.preparedAtMs,entry.ops⟩ = s.prepared := Map.insert_get hp
    simp only [applyWalOp,hheur,hentry]
  · have hnone : s.prepared[gid]? = none := by
      by_contra hne
      have hheur := hx gid (Option.isSome_iff_ne_none.mpr hne)
      simp [ledger,hu] at hheur
    have hprep : s.prepared.erase gid = s.prepared := Map.erase_none hnone
    have hheur : s.heuristic.insert gid () = s.heuristic := Map.insert_get hu
    simp only [applyWalOp,hprep,if_true,hheur]

theorem applyWalOps_toWalOps {s : Inner} (h : Wf s) (hs : Stamped s) (hx : s.ledger.Exclusive) :
    s.applyWalOps s.toWalOps = s := by
  have hfix : ∀ ops : List WalOp, (∀ op ∈ ops, s.applyWalOp op = s) → s.applyWalOps ops = s := by
    intro ops
    induction ops with
    | nil => exact fun _ => rfl
    | cons op ops ih =>
      intro hops
      have hrest := ih (fun o ho => hops o (List.mem_cons_of_mem _ ho))
      simp only [applyWalOps,List.foldl_cons,hops op (List.mem_cons_self ..)]
      exact hrest
  exact hfix _ (fun op hop => applyWalOp_toWalOps h hs hx hop)

omit [JsonText] in
theorem toWalOps_congr {s t : Inner} (h : t.ledger = s.ledger) : t.toWalOps = s.toWalOps := by
  have hn : t.nodes = s.nodes := congrArg (fun l => l.graph.nodes) h
  have he : t.edges = s.edges := congrArg (fun l => l.graph.edges) h
  have hv : t.embeddings = s.embeddings := congrArg (fun l => l.graph.embeddings) h
  have hp : t.prepared = s.prepared := congrArg Ledger.prepared h
  have hh : t.heuristic = s.heuristic := congrArg Ledger.heuristic h
  simp only [toWalOps,hn,he,hv,hp,hh]

/-- What replaying the snapshot form of `s` gives. -/
structure Restores (s t : Inner) : Prop where
  nodes : t.nodes = s.nodes
  edges : t.edges = s.edges
  embeddings : t.embeddings = s.embeddings
  prepared : t.prepared = s.prepared
  heuristic : t.heuristic = s.heuristic
  reads : SameReads s t
  again : t.applyWalOps s.toWalOps = t

theorem replay_restores {s : Inner} (h : Wf s) (hx : s.ledger.Exclusive) :
    Restores s (({} : Inner).applyWalOps s.toWalOps) := by
  have hledger : (({} : Inner).applyWalOps s.toWalOps).ledger = s.ledger :=
    (replay_ledger s.toWalOps).trans (toWalOps_ledger h hx)
  have hwf : Wf (({} : Inner).applyWalOps s.toWalOps) := applyWalOps_wf empty_wf _
  have hstamped : Stamped (({} : Inner).applyWalOps s.toWalOps) :=
    applyWalOps_stamped (fun id n hid => by simp at hid) _
  have hgraph := congrArg Ledger.graph hledger
  have hagain := applyWalOps_toWalOps hwf hstamped (hledger ▸ hx)
  rw [toWalOps_congr hledger] at hagain
  exact ⟨congrArg Graph.nodes hgraph,congrArg Graph.edges hgraph,congrArg Graph.embeddings hgraph,
    congrArg Ledger.prepared hledger,congrArg Ledger.heuristic hledger,sameReads_of_graph h hwf hgraph,hagain⟩

end Inner

namespace Engine
variable [JsonText]

end Engine
end Drevo
