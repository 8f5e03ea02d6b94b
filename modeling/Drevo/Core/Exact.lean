import Drevo.Core.Ledger

/-! The derived structures of a state over whole histories. Whatever mutations, log entries,
constraint changes and counters of other copies a state went through, its adjacency lists, its
title and kind indexes and its uniqueness lookups are those its records determine. -/
namespace Drevo
open Lib

/-- One thing that happens to a state: a live mutation, a log entry, a change of the declared
constraints, a rebuild of the lookups they need, or another copy handing out ids from the
counters all copies share. -/
inductive InnerMove where
  | mutate (m : Mutation) (require : Bool)
  | applyWalOp (op : WalOp)
  | declare (constraints : List Constraint)
  | syncUnique
  | others (node edge : ℕ)

/-- A list of one node mirrors the edges seen from one of their ends: every edge at that end has
one entry, with its kind and the node at the other end, and there is no other entry. -/
structure Adjacency.Exact (adj : Adjacency) (edges : Map ℕ Edge) (kindIds : Map String ℕ)
    (near far : Edge → ℕ) : Prop where
  sorted : ∀ n, (adj.list n).Pairwise (fun a b => adjSortKey a < adjSortKey b)
  once : ∀ (id : ℕ) (e : Edge), edges[id]? = some e → ∃ kindId, kindIds[e.kind]? = some kindId ∧
    (adj.list (near e)).filter (fun a => a.edgeId = id) = [⟨id,far e,kindId⟩]
  only : ∀ n, ∀ a ∈ adj.list n, ∃ e, edges[a.edgeId]? = some e ∧ near e = n

/-- An index lists exactly the records with each value, and keeps no empty set. -/
structure ListsBy {V : Type} (m : Index String ℕ) (records : Map ℕ V) (value : V → String) : Prop where
  mem : ∀ key id, id ∈ m.ids key ↔ ∃ v, records[id]? = some v ∧ value v = key
  nonempty : ∀ (key : String) (ids : Finset ℕ), m[key]? = some ids → ids.Nonempty

namespace Inner
variable [JsonText]

def move (s : Inner) : InnerMove → Inner
  | .mutate m require => (s.mutate m require).2
  | .applyWalOp op => s.applyWalOp op
  | .declare constraints => { s with constraints := constraints }
  | .syncUnique => s.syncUnique
  | .others node edge => { s with ids := ⟨max s.ids.node node,max s.ids.edge edge⟩ }

def moves (s : Inner) (ms : List InnerMove) : Inner := ms.foldl move s

/-- Every derived structure is what the records determine. -/
structure Exact (s : Inner) : Prop where
  outAdj : s.outAdj.Exact s.edges s.kindIds Edge.fromId Edge.toId
  inAdj : s.inAdj.Exact s.edges s.kindIds Edge.toId Edge.fromId
  kindIds : ∀ (k l : String) (i : ℕ), s.kindIds[k]? = some i → s.kindIds[l]? = some i → k = l
  titles : ListsBy s.titles s.nodes Node.title
  kinds : ListsBy s.kindIndex s.nodes Node.kind
  unique : ∀ entry ∈ s.unique, entry.2 = s.buildUnique entry.1

omit [JsonText] in
theorem exact_of_mirrors {adj : Adjacency} {edges : Map ℕ Edge} {kindIds : Map String ℕ} {near far : Edge → ℕ}
    (h : Mirrors adj edges kindIds near far)
    (hk : ∀ (id : ℕ) (e : Edge), edges[id]? = some e → ∃ i, kindIds[e.kind]? = some i) :
    adj.Exact edges kindIds near far where
  sorted := h.sorted
  once id e he := by
    obtain ⟨i,hi⟩ := hk id e he
    refine ⟨i,hi,?_⟩
    have hin : (⟨id,far e,i⟩ : AdjEntry) ∈ adj.list (near e) := (h.mem _ _).mpr ⟨e,he,rfl,rfl,hi⟩
    have hall : ∀ a ∈ (adj.list (near e)).filter (fun a => a.edgeId = id), a = ⟨id,far e,i⟩ := by
      intro a ha
      obtain ⟨ha,hid⟩ := List.mem_filter.mp ha
      exact h.entry_unique ha hin (by simpa using hid)
    have hnodup : ((adj.list (near e)).filter (fun a => a.edgeId = id)).Nodup := (h.sorted (near e)).nodup.filter _
    have hmem : (⟨id,far e,i⟩ : AdjEntry) ∈ (adj.list (near e)).filter (fun a => a.edgeId = id) :=
      List.mem_filter.mpr ⟨hin,by simp⟩
    rcases hl : (adj.list (near e)).filter (fun a => a.edgeId = id) with _ | ⟨a,rest⟩
    · simp [hl] at hmem
    · rw [hl] at hall hnodup
      obtain rfl := hall a (List.mem_cons_self ..)
      rcases rest with _ | ⟨b,rest⟩
      · exact hl
      · obtain rfl := hall b (by simp)
        simp at hnodup
  only n a ha := by
    obtain ⟨e,he,hn,-⟩ := (h.mem n a).mp ha
    exact ⟨e,he,hn⟩

omit [JsonText] in
theorem listsBy_of_files {V : Type} {m : Index String ℕ} {records : Map ℕ V} {value : V → String}
    (h : m.Files records (fun v => some (value v))) : ListsBy m records value where
  mem key id := by
    rw [h.mem]
    simp
  nonempty := h.tight

theorem Wf.exact {s : Inner} (h : Wf s) : Exact s where
  outAdj := exact_of_mirrors h.edges.outAdj h.edges.interned
  inAdj := exact_of_mirrors h.edges.inAdj h.edges.interned
  kindIds := h.edges.kindInj
  titles := listsBy_of_files h.nodes.titles
  kinds := listsBy_of_files h.nodes.kinds
  unique entry hentry := (h.nodes.unique entry hentry).unique (buildUnique_files h.nodes entry.1)

theorem move_wf {s : Inner} (h : Wf s) (m : InnerMove) : Wf (s.move m) := by
  cases m with
  | mutate m require => exact mutate_wf h m require
  | applyWalOp op => exact applyWalOp_wf h op
  | declare constraints => exact ⟨h.nodes.congr rfl rfl rfl rfl le_rfl,h.edges.congr rfl rfl rfl rfl le_rfl⟩
  | syncUnique => exact syncUnique_wf h
  | others node edge =>
    exact ⟨h.nodes.congr rfl rfl rfl rfl (le_max_left _ _),h.edges.congr rfl rfl rfl rfl (le_max_left _ _)⟩

end Inner
end Drevo
