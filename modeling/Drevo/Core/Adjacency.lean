import Drevo.Core.Inner

/-! Adjacency lists as a derived structure: each list holds one entry for every edge at its
end, in the order of its keys, and nothing else. Both directions share one statement, with
the near and the far end of an edge as parameters. -/
namespace Drevo
open Lib

/-- The lists mirror the edges, seen from their near end. -/
structure Mirrors (adj : Adjacency) (edges : Map ℕ Edge) (kindIds : Map String ℕ)
    (near far : Edge → ℕ) : Prop where
  sorted : ∀ n, KeySorted adjSortKey (adj.list n)
  mem : ∀ n (a : AdjEntry), a ∈ adj.list n ↔ ∃ e, edges[a.edgeId]? = some e ∧ near e = n ∧
    far e = a.neighborId ∧ kindIds[e.kind]? = some a.kindId

namespace Adjacency

@[simp] theorem list_empty (n : ℕ) : list ∅ n = [] := by simp [list]

theorem list_insertAdjSorted (m : Adjacency) (id n : ℕ) (e : AdjEntry) :
    (m.insertAdjSorted id e).list n =
      if id = n then insertSorted adjSortKey (m.list n) e else m.list n := by
  simp only [insertAdjSorted,list,Map.get_insert]
  split_ifs with h
  · subst n; rfl
  · rfl

theorem list_modify (m : Adjacency) (id n : ℕ) (f : List AdjEntry → List AdjEntry) (hf : f [] = []) :
    (m.modify id f).list n = if id = n then f (m.list n) else m.list n := by
  unfold modify
  cases h : m[id]? with
  | none =>
    split_ifs with hn
    · subst n
      simp [list,h,hf]
    · rfl
  | some v =>
    simp only [list,Map.get_insert]
    split_ifs with hn
    · subst n
      simp [h]
    · rfl

@[simp] theorem rekind_nil (edgeId kindId : ℕ) : rekind edgeId kindId [] = [] := rfl

theorem mem_rekind {edgeId kindId : ℕ} {v : List AdjEntry} {a : AdjEntry} :
    a ∈ rekind edgeId kindId v ↔
      (a.edgeId ≠ edgeId ∧ a ∈ v) ∨
      (a.edgeId = edgeId ∧ a.kindId = kindId ∧ ∃ k, { a with kindId := k } ∈ v) := by
  simp only [rekind,List.mem_insertionSort,List.mem_map]
  constructor
  · rintro ⟨b,hb,rfl⟩
    split_ifs with hid
    · exact Or.inr ⟨hid,rfl,b.kindId,hb⟩
    · exact Or.inl ⟨hid,hb⟩
  · rintro (⟨hid,ha⟩ | ⟨hid,hk,k,ha⟩)
    · exact ⟨a,ha,by simp [hid]⟩
    · refine ⟨_,ha,?_⟩
      obtain ⟨ai,an,ak⟩ := a
      simp_all

end Adjacency

namespace Mirrors

variable {adj adj' : Adjacency} {edges : Map ℕ Edge} {kindIds : Map String ℕ} {near far : Edge → ℕ}

theorem empty : Mirrors ∅ ∅ kindIds near far where
  sorted n := by simp [KeySorted]
  mem n a := by simp

theorem list_unique (h : Mirrors adj edges kindIds near far)
    (h' : Mirrors adj' edges kindIds near far) (n : ℕ) : adj.list n = adj'.list n := by
  apply (h.sorted n).ext (h'.sorted n)
  intro a
  rw [h.mem,h'.mem]

theorem entry_unique (h : Mirrors adj edges kindIds near far) {n m : ℕ} {a b : AdjEntry}
    (ha : a ∈ adj.list n) (hb : b ∈ adj.list m) (hid : a.edgeId = b.edgeId) : a = b := by
  obtain ⟨e,he,-,hf,hk⟩ := (h.mem n a).mp ha
  obtain ⟨e',he',-,hf',hk'⟩ := (h.mem m b).mp hb
  rw [hid,he'] at he
  obtain rfl := Option.some.inj he
  rw [hk'] at hk
  obtain ⟨ai,an,ak⟩ := a
  obtain ⟨bi,bn,bk⟩ := b
  simp_all

theorem remove (h : Mirrors adj edges kindIds near far) {id : ℕ} {e : Edge} (he : edges[id]? = some e) :
    Mirrors (adj.modify (near e) (fun v => v.filter (fun a => a.edgeId ≠ id))) (edges.erase id)
      kindIds near far := by
  have hl : ∀ n, (adj.modify (near e) (fun v => v.filter (fun a => a.edgeId ≠ id))).list n =
      (adj.list n).filter (fun a => a.edgeId ≠ id) := by
    intro n
    rw [Adjacency.list_modify _ _ _ _ rfl]
    split_ifs with hn
    · rfl
    · refine (List.filter_eq_self.mpr ?_).symm
      intro a ha
      obtain ⟨e',he',hn',-⟩ := (h.mem n a).mp ha
      simp only [ne_eq,decide_not,Bool.not_eq_eq_eq_not,Bool.not_true,decide_eq_false_iff_not]
      intro hid
      rw [hid,he] at he'
      obtain rfl := Option.some.inj he'
      exact hn hn'
  refine ⟨?_,?_⟩
  · intro n
    rw [hl]
    exact (h.sorted n).filter _
  · intro n a
    rw [hl,List.mem_filter,h.mem,Map.get_erase]
    by_cases hid : id = a.edgeId
    · simp [hid]
    · simp [hid,Ne.symm hid]

theorem intern (h : Mirrors adj edges kindIds near far) {kind : String} (i : ℕ)
    (hk : ∀ (id : ℕ) (e : Edge), edges[id]? = some e → e.kind ≠ kind) :
    Mirrors adj edges (kindIds.insert kind i) near far := by
  refine ⟨h.sorted,?_⟩
  intro n a
  rw [h.mem]
  constructor
  · rintro ⟨e,he,hn,hf,hi⟩
    refine ⟨e,he,hn,hf,?_⟩
    rw [Map.get_insert,if_neg (Ne.symm (hk _ e he))]
    exact hi
  · rintro ⟨e,he,hn,hf,hi⟩
    refine ⟨e,he,hn,hf,?_⟩
    rwa [Map.get_insert,if_neg (Ne.symm (hk _ e he))] at hi

theorem insert (h : Mirrors adj edges kindIds near far) {e : Edge} {i : ℕ} (he : edges[e.id]? = none)
    (hi : kindIds[e.kind]? = some i) :
    Mirrors (adj.insertAdjSorted (near e) ⟨e.id,far e,i⟩) (edges.insert e.id e) kindIds near far := by
  have hnew : ∀ n, ∀ b ∈ adj.list n, b.edgeId ≠ e.id := by
    intro n b hb hid
    obtain ⟨e',he',-⟩ := (h.mem n b).mp hb
    rw [hid,he] at he'
    exact Option.some_ne_none _ he'.symm
  refine ⟨?_,?_⟩
  · intro n
    rw [Adjacency.list_insertAdjSorted]
    split_ifs with hn
    · apply (h.sorted n).insertSorted
      intro b hb hkey
      exact hnew n b hb (congrArg AdjEntry.edgeId (adjSortKey_injective hkey))
    · exact h.sorted n
  · intro n a
    have hm : a ∈ (adj.insertAdjSorted (near e) ⟨e.id,far e,i⟩).list n ↔
        (near e = n ∧ a = ⟨e.id,far e,i⟩) ∨ a ∈ adj.list n := by
      rw [Adjacency.list_insertAdjSorted]
      split_ifs with hn
      · simp [hn]
      · simp [hn]
    rw [hm,Map.get_insert]
    by_cases hid : e.id = a.edgeId
    · have hna : a ∉ adj.list n := fun ha => hnew n a ha hid.symm
      obtain ⟨ai,an,ak⟩ := a
      simp only at hid
      subst hid
      simp only [hna,or_false,if_true,Option.some.injEq,exists_eq_left',AdjEntry.mk.injEq,true_and,hi]
      constructor
      · rintro ⟨h₁,rfl,rfl⟩
        exact ⟨h₁,rfl,rfl⟩
      · rintro ⟨h₁,rfl,rfl⟩
        exact ⟨h₁,rfl,rfl⟩
    · have hne : a ≠ ⟨e.id,far e,i⟩ := by
        rintro rfl
        exact hid rfl
      simp only [hne,and_false,false_or,hid,if_false]
      exact h.mem n a

theorem insert_same (h : Mirrors adj edges kindIds near far) {id : ℕ} {old e : Edge}
    (hold : edges[id]? = some old) (hn : near e = near old) (hf : far e = far old)
    (hk : e.kind = old.kind) : Mirrors adj (edges.insert id e) kindIds near far := by
  refine ⟨h.sorted,?_⟩
  intro n a
  rw [h.mem,Map.get_insert]
  by_cases hid : id = a.edgeId
  · subst hid
    simp [hold,hn,hf,hk]
  · simp [hid]

/-- Replacing an edge by one with the same ends and another kind: its entry moves to its new
place in the list. -/
theorem insert_rekind (h : Mirrors adj edges kindIds near far) {id i : ℕ} {old e : Edge}
    (hold : edges[id]? = some old) (hn : near e = near old) (hf : far e = far old)
    (hi : kindIds[e.kind]? = some i) (hold' : ∃ k, kindIds[old.kind]? = some k) :
    Mirrors (adj.modify (near e) (Adjacency.rekind id i)) (edges.insert id e) kindIds near far := by
  obtain ⟨k,hk⟩ := hold'
  have hlist : ∀ n, (adj.modify (near e) (Adjacency.rekind id i)).list n =
      if near e = n then Adjacency.rekind id i (adj.list n) else adj.list n :=
    fun n => Adjacency.list_modify _ _ _ _ rfl
  refine ⟨?_,?_⟩
  · intro n
    rw [hlist]
    split_ifs with hnn
    · apply keySorted_insertionSort
      have hp : (adj.list n).Pairwise (fun a b => a.edgeId ≠ b.edgeId) := by
        refine List.Pairwise.imp_of_mem ?_ (h.sorted n)
        intro a b ha hb hlt hid
        exact absurd (congrArg adjSortKey (h.entry_unique ha hb hid)) hlt.ne
      refine List.Pairwise.map _ ?_ hp
      intro a b hab hkey
      apply hab
      have he := congrArg AdjEntry.edgeId (adjSortKey_injective hkey)
      split_ifs at he <;> exact he
    · exact h.sorted n
  · intro n a
    rw [hlist]
    have hmem : (a ∈ if near e = n then Adjacency.rekind id i (adj.list n) else adj.list n) ↔
        (a.edgeId ≠ id ∧ a ∈ adj.list n) ∨
        (near e = n ∧ a.edgeId = id ∧ a.kindId = i ∧ ∃ k, { a with kindId := k } ∈ adj.list n) := by
      split_ifs with hnn
      · rw [Adjacency.mem_rekind]
        simp [hnn]
      · simp only [hnn,false_and,or_false]
        constructor
        · intro ha
          refine ⟨?_,ha⟩
          rintro rfl
          obtain ⟨e',he',hn',-⟩ := (h.mem n a).mp ha
          rw [hold] at he'
          obtain rfl := Option.some.inj he'
          exact hnn (hn.trans hn')
        · exact fun ha => ha.2
    rw [hmem,Map.get_insert]
    by_cases hid : id = a.edgeId
    · subst hid
      simp only [ne_eq,not_true,false_and,false_or,true_and,if_true,Option.some.injEq,exists_eq_left']
      constructor
      · rintro ⟨hnn,rfl,k',hk'⟩
        obtain ⟨e',he',-,hf',-⟩ := (h.mem n _).mp hk'
        simp only [hold,Option.some.injEq] at he'
        subst he'
        exact ⟨hnn,hf.trans hf',hi⟩
      · rintro ⟨hnn,hff,hki⟩
        refine ⟨hnn,Option.some.inj (hki.symm.trans hi),k,?_⟩
        rw [h.mem]
        exact ⟨old,hold,hn.symm.trans hnn,hf.symm.trans hff,hk⟩
    · simp only [ne_eq,Ne.symm hid,not_false_eq_true,true_and,false_and,and_false,or_false,hid,if_false]
      exact h.mem n a

end Mirrors
end Drevo
