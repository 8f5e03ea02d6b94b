import Drevo.Core.Frame
import Drevo.Core.Conflict

/-! Write sets that do not intersect stand side by side: their operations commute one by one, so either batch
may be applied first. -/
namespace Drevo
open Lib

theorem foldl_swap {σ α : Type} {f : σ → α → σ} {as bs : List α} (h : ∀ a ∈ as, ∀ b ∈ bs, ∀ s, f (f s a) b = f (f s b) a) (s : σ) :
    bs.foldl f (as.foldl f s) = as.foldl f (bs.foldl f s) := by
  have hone : ∀ (bs : List α) (a : α), (∀ b ∈ bs, ∀ s, f (f s a) b = f (f s b) a) → ∀ s, bs.foldl f (f s a) = f (bs.foldl f s) a := by
    intro bs a
    induction bs with
    | nil => exact fun _ _ => rfl
    | cons b bs ih =>
      intro hb s
      rw [List.foldl_cons,hb b (List.mem_cons_self ..),ih (fun b' hb' => hb b' (List.mem_cons_of_mem _ hb'))]
      rfl
  induction as generalizing s with
  | nil => rfl
  | cons a as ih =>
    rw [List.foldl_cons,ih (fun a' ha' => h a' (List.mem_cons_of_mem _ ha')),hone bs a (h a (List.mem_cons_self ..))]
    rfl

theorem GraphOp.Clashes.symm {c op : GraphOp} (h : c.Clashes op) : op.Clashes c := by
  obtain hkey | hdel | hdel := h
  · exact .inl hkey.symm
  · exact .inr (.inr hdel)
  · exact .inr (.inl hdel)

theorem ConflictSet.intersects_comm (s other : ConflictSet) : s.intersects other = other.intersects s := by
  unfold intersects isEmpty
  by_cases hs : s.everything = true
  · by_cases ho : other.everything = true
    · simp [hs,ho]
    · simp [hs,ho]
  · by_cases ho : other.everything = true
    · simp [hs,ho]
    · rw [if_neg hs,if_neg ho,if_neg ho,if_neg hs,Finset.inter_comm s.writes,Finset.inter_comm s.deps,Finset.inter_comm s.deletes,
        Bool.or_right_comm]

namespace Graph

/-! ## Two operations -/

variable {c op : GraphOp}

theorem read_comm {β : Type} (read : Graph → β) (hc : ∀ g : Graph, read (g.apply c) = read g)
    (hop : ∃ f : β → β, ∀ g : Graph, read (g.apply op) = f (read g)) (g : Graph) :
    read ((g.apply c).apply op) = read ((g.apply op).apply c) := by
  obtain ⟨f,hf⟩ := hop
  rw [hf,hc,hc,hf]

/-- A node with its embedding. -/
def slot (n : ℕ) (g : Graph) : Option Node × Option (List F32) := (g.nodes[n]?,g.embeddings[n]?)

theorem slot_idle {n : ℕ} (h : op.key ≠ .node n) (g : Graph) : slot n (g.apply op) = slot n g := by
  cases op with
  | upsertNode node =>
    have hn : ¬ node.id = n := fun hn => h (congrArg Key.node hn)
    simp [slot,apply,hn]
  | deleteNode id =>
    have hn : ¬ id = n := fun hn => h (congrArg Key.node hn)
    simp only [slot,apply]
    split_ifs
    · simp [hn]
    · rfl
  | setEmbedding id vector =>
    have hn : ¬ id = n := fun hn => h (congrArg Key.node hn)
    simp [slot,apply,hn]
  | deleteEmbedding id =>
    have hn : ¬ id = n := fun hn => h (congrArg Key.node hn)
    simp [slot,apply,hn]
  | _ => rfl

theorem slot_local (op : GraphOp) (n : ℕ) : ∃ f : Option Node × Option (List F32) → Option Node × Option (List F32),
    ∀ g : Graph, slot n (g.apply op) = f (slot n g) := by
  by_cases hkey : op.key = .node n
  · cases op with
    | upsertNode node =>
      obtain rfl := Key.node.inj hkey
      exact ⟨fun r => (some node,r.2),fun g => by simp [slot,apply]⟩
    | deleteNode id =>
      obtain rfl := Key.node.inj hkey
      refine ⟨fun r => if r.1.isSome then (none,none) else r,fun g => ?_⟩
      show ((g.apply (.deleteNode id)).nodes[id]?,(g.apply (.deleteNode id)).embeddings[id]?) =
        if g.nodes[id]?.isSome then (none,none) else (g.nodes[id]?,g.embeddings[id]?)
      by_cases hin : g.nodes[id]?.isSome
      · rw [apply,if_pos hin,if_pos hin,Map.get_erase,Map.get_erase,if_pos rfl,if_pos rfl]
      · rw [apply,if_neg hin,if_neg hin]
    | setEmbedding id vector =>
      obtain rfl := Key.node.inj hkey
      exact ⟨fun r => (r.1,some vector),fun g => by simp [slot,apply]⟩
    | deleteEmbedding id =>
      obtain rfl := Key.node.inj hkey
      exact ⟨fun r => (r.1,none),fun g => by simp [slot,apply]⟩
    | _ => cases hkey
  · exact ⟨id,slot_idle hkey⟩

theorem slot_comm (h : c.key ≠ op.key) (g : Graph) (n : ℕ) :
    slot n ((g.apply c).apply op) = slot n ((g.apply op).apply c) := by
  by_cases hc : c.key = .node n
  · exact (read_comm (slot n) (slot_idle (fun hop => h (hc.trans hop.symm))) (slot_local c n) g).symm
  · exact read_comm (slot n) (slot_idle hc) (slot_local op n) g

theorem get_apply_edges (g : Graph) (op : GraphOp) (m : ℕ) : (g.apply op).edges[m]? =
    match op with
    | .upsertEdge edge => if edge.id = m then some edge else g.edges[m]?
    | .deleteEdge id => if id = m then none else g.edges[m]?
    | .deleteNode id => if g.nodes[id]?.isSome then g.edges[m]?.filter (fun e => !e.touches id) else g.edges[m]?
    | _ => g.edges[m]? := by
  cases op with
  | upsertEdge edge => exact Map.get_insert ..
  | deleteEdge id => exact Map.get_erase ..
  | deleteNode id =>
    simp only [apply]
    split_ifs
    · exact get_filter_edges g id m
    · rfl
  | _ => rfl

/-- The edges that go with a node are none that the other operation stores. -/
theorem edges_comm_delete {id : ℕ} (h : ¬ GraphOp.Clashes (.deleteNode id) op) (g : Graph) (m : ℕ) :
    ((g.apply (.deleteNode id)).apply op).edges[m]? = ((g.apply op).apply (.deleteNode id)).edges[m]? := by
  have hkey : op.key ≠ .node id := fun hkey => h (.inl hkey.symm)
  have hguard : (g.apply op).nodes[id]? = g.nodes[id]? := congrArg Prod.fst (slot_idle hkey g)
  cases op with
  | upsertEdge edge =>
    have hends : edge.touches id = false := by
      by_contra htouch
      simp only [Bool.not_eq_false,Edge.touches,Bool.or_eq_true,decide_eq_true_eq] at htouch
      obtain htouch | htouch := htouch
      · exact h (.inr (.inl ⟨rfl,edge.fromId,by simp [GraphOp.needs],congrArg Key.node htouch.symm⟩))
      · exact h (.inr (.inl ⟨rfl,edge.toId,by simp [GraphOp.needs],congrArg Key.node htouch.symm⟩))
    simp only [get_apply_edges,hguard]
    by_cases hm : edge.id = m
    · have hkept : (some edge).filter (fun e => !e.touches id) = some edge := by simp [Option.filter,hends]
      rw [if_pos hm,if_pos hm,hkept,ite_self]
    · simp [hm]
  | deleteEdge i =>
    simp only [get_apply_edges,hguard]
    by_cases hm : i = m
    · simp [hm]
    · simp [hm]
  | deleteNode i =>
    have hother : GraphOp.key (.deleteNode id) ≠ .node i := fun hkey' => hkey hkey'.symm
    have hguard' : (g.apply (.deleteNode id)).nodes[i]? = g.nodes[i]? := congrArg Prod.fst (slot_idle hother g)
    simp only [get_apply_edges,hguard,hguard']
    split_ifs
    · rw [Option.filter_filter,Option.filter_filter]
      simp only [Bool.and_comm]
    · rfl
    · rfl
    · rfl
  | _ => simp only [get_apply_edges,hguard]

theorem edge_idle {m : ℕ} (hop : ∀ id, op ≠ .deleteNode id) (h : op.key ≠ .edge m) (g : Graph) :
    (g.apply op).edges[m]? = g.edges[m]? := by
  rw [get_apply_edges]
  cases op with
  | upsertEdge edge => exact if_neg (fun hm => h (congrArg Key.edge hm))
  | deleteEdge id => exact if_neg (fun hm => h (congrArg Key.edge hm))
  | deleteNode id => exact absurd rfl (hop id)
  | _ => rfl

theorem edge_local (hop : ∀ id, op ≠ .deleteNode id) (m : ℕ) : ∃ f : Option Edge → Option Edge,
    ∀ g : Graph, (g.apply op).edges[m]? = f g.edges[m]? := by
  cases op with
  | upsertEdge edge => exact ⟨fun e => if edge.id = m then some edge else e,fun g => get_apply_edges g (.upsertEdge edge) m⟩
  | deleteEdge id => exact ⟨fun e => if id = m then none else e,fun g => get_apply_edges g (.deleteEdge id) m⟩
  | deleteNode id => exact absurd rfl (hop id)
  | _ => exact ⟨id,fun g => rfl⟩

theorem edges_comm (h : ¬ c.Clashes op) (g : Graph) (m : ℕ) :
    ((g.apply c).apply op).edges[m]? = ((g.apply op).apply c).edges[m]? := by
  by_cases hc : ∃ id, c = .deleteNode id
  · obtain ⟨id,rfl⟩ := hc
    exact edges_comm_delete h g m
  · by_cases hop : ∃ id, op = .deleteNode id
    · obtain ⟨id,rfl⟩ := hop
      exact (edges_comm_delete (fun hclash => h hclash.symm) g m).symm
    · have hcd : ∀ id, c ≠ .deleteNode id := fun id heq => hc ⟨id,heq⟩
      have hod : ∀ id, op ≠ .deleteNode id := fun id heq => hop ⟨id,heq⟩
      by_cases hkey : c.key = .edge m
      · have hother : op.key ≠ .edge m := fun hkey' => h (.inl (hkey.trans hkey'.symm))
        exact (read_comm (fun g => g.edges[m]?) (edge_idle hod hother) (edge_local hcd m) g).symm
      · exact read_comm (fun g => g.edges[m]?) (edge_idle hcd hkey) (edge_local hod m) g

theorem apply_swap (h : ¬ c.Clashes op) (g : Graph) : (g.apply c).apply op = (g.apply op).apply c := by
  have hkey : c.key ≠ op.key := fun hkey => h (.inl hkey)
  ext1
  · exact Map.ext (fun n => congrArg Prod.fst (slot_comm hkey g n))
  · exact Map.ext (edges_comm h g)
  · exact Map.ext (fun n => congrArg Prod.snd (slot_comm hkey g n))

end Graph

namespace Inner
variable [JsonText]

theorem applyOps_comm_graph {s : Inner} (h : s.Wf) {as bs : List GraphOp}
    (hab : (ConflictSet.fromOps as).intersects (.fromOps bs) = false) :
    ((s.applyOps as).applyOps bs).graph = ((s.applyOps bs).applyOps as).graph := by
  rw [applyOps_graph (applyOps_wf h as),applyOps_graph (applyOps_wf h bs),applyOps_graph h,applyOps_graph h]
  exact foldl_swap (fun a ha b hb g => Graph.apply_swap (ConflictSet.not_clashes hab ha hb) g) s.graph

theorem unique_unique {s t : Inner} (hs : s.Wf) (ht : t.Wf) (hn : t.nodes = s.nodes)
    (htuples : t.unique.map Prod.fst = s.unique.map Prod.fst) : t.unique = s.unique := by
  have hlen := congrArg List.length htuples
  rw [List.length_map,List.length_map] at hlen
  refine List.ext_getElem hlen ?_
  intro i hi hi'
  have hkey : t.unique[i].1 = s.unique[i].1 := by
    have hget := List.getElem_of_eq htuples (by simpa using hi)
    simpa using hget
  have hfiles := ht.nodes.unique t.unique[i] (List.getElem_mem hi)
  rw [hn,hkey] at hfiles
  exact Prod.ext hkey (hfiles.unique (hs.nodes.unique s.unique[i] (List.getElem_mem hi')))

/-- On a state whose indexes agree with its nodes, two write sets that do not intersect may be applied in either order: the
nodes, edges, embeddings, the indexes of titles and kinds and the unique lookups come out the same. Whether two sets intersect
does not depend on which comes first. -/
theorem applyOps_diamond {s : Inner} (h : s.Wf) (as bs : List GraphOp)
    (hab : (ConflictSet.fromOps as).intersects (.fromOps bs) = false) :
    let t := (s.applyOps as).applyOps bs
    let u := (s.applyOps bs).applyOps as
    t.nodes = u.nodes ∧ t.edges = u.edges ∧ t.embeddings = u.embeddings ∧ t.titles = u.titles ∧ t.kindIndex = u.kindIndex ∧
      t.unique = u.unique ∧ ∀ a b : ConflictSet, a.intersects b = b.intersects a := by
  intro t u
  have ht : t.Wf := applyOps_wf (applyOps_wf h as) bs
  have hu : u.Wf := applyOps_wf (applyOps_wf h bs) as
  have hgraph : t.graph = u.graph := applyOps_comm_graph h hab
  have hn : t.nodes = u.nodes := congrArg Graph.nodes hgraph
  have htuples : t.unique.map Prod.fst = u.unique.map Prod.fst := by
    have hts := ((applyOps_schema s as).trans (applyOps_schema _ bs)).schema
    have hus := ((applyOps_schema s bs).trans (applyOps_schema _ as)).schema
    exact (tuples_of_schema hts).trans (tuples_of_schema hus).symm
  refine ⟨hn,congrArg Graph.edges hgraph,congrArg Graph.embeddings hgraph,?_,?_,?_,ConflictSet.intersects_comm⟩
  · exact (hn ▸ ht.nodes.titles).unique hu.nodes.titles
  · exact (hn ▸ ht.nodes.kinds).unique hu.nodes.kinds
  · exact unique_unique hu ht hn htuples

end Inner

section Sample
attribute [local instance] Json.compactText

/-- Three notes in a row. -/
def noteChain : List GraphOp :=
  [.upsertNode ⟨1,1,"Note","a","","",0,0,default⟩,.upsertNode ⟨2,2,"Note","b","","",0,0,default⟩,
    .upsertNode ⟨3,3,"Note","c","","",0,0,default⟩,.upsertEdge ⟨1,4,1,2,"links_to",F32.one,0,default⟩,
    .upsertEdge ⟨2,5,2,3,"links_to",F32.one,0,default⟩]

/-- One transaction deletes the first note with its link, another one renames the last and changes the link to it. -/
theorem noteChain_diamond :
    let s := ({} : Inner).applyOps noteChain
    let as : List GraphOp := [.deleteNode 1]
    let bs : List GraphOp := [.upsertNode ⟨3,3,"Note","d","","",0,1,default⟩,.upsertEdge ⟨2,5,2,3,"cites",F32.one,0,default⟩]
    ((s.applyOps as).applyOps bs).edges = ((s.applyOps bs).applyOps as).edges ∧
      ((s.applyOps as).applyOps bs).titles = ((s.applyOps bs).applyOps as).titles ∧
      ((s.applyOps as).applyOps bs).edges.keys = [2] := by
  intro s as bs
  have hdiamond := Inner.applyOps_diamond (Inner.applyOps_wf Inner.empty_wf noteChain) as bs (by decide +kernel)
  exact ⟨hdiamond.2.1,hdiamond.2.2.2.1,by decide +kernel⟩

end Sample

end Drevo
