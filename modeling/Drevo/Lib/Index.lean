import Mathlib

/-! Inverted indexes: a finite map from keys to the sets of identifiers filed under them.
An index is tight when it keeps no empty set, so that two tight indexes with the same
postings are the same index. -/
set_option linter.unusedSectionVars false

namespace Lib
open Std

variable {K ι : Type*} [Ord K] [TransOrd K] [LawfulEqOrd K] [DecidableEq K] [DecidableEq ι]

/-- A finite map with its keys in order. -/
abbrev Map (K : Type*) (V : Type*) [Ord K] := ExtTreeMap K V

/-- Identifiers filed under keys. -/
abbrev Index (K : Type*) (ι : Type*) [Ord K] := Map K (Finset ι)

namespace Map

variable {V : Type*}

@[simp] theorem get_insert (m : Map K V) (k a : K) (v : V) :
    (m.insert k v)[a]? = if k = a then some v else m[a]? := by
  rw [ExtTreeMap.getElem?_insert]
  simp only [Std.compare_eq_iff_eq]

@[simp] theorem get_erase (m : Map K V) (k a : K) :
    (m.erase k)[a]? = if k = a then none else m[a]? := by
  rw [ExtTreeMap.getElem?_erase]
  simp only [Std.compare_eq_iff_eq]

theorem ext {m n : Map K V} (h : ∀ k : K, m[k]? = n[k]?) : m = n :=
  ExtTreeMap.ext_getElem? h

theorem contains_eq (m : Map K V) (k : K) : m.contains k = m[k]?.isSome :=
  ExtTreeMap.contains_eq_isSome_getElem?

theorem insert_get {m : Map K V} {k : K} {v : V} (h : m[k]? = some v) : m.insert k v = m := by
  apply ext
  intro a
  rw [get_insert]
  split_ifs with ha
  · rw [← ha,h]
  · rfl

theorem erase_none {m : Map K V} {k : K} (h : m[k]? = none) : m.erase k = m := by
  apply ext
  intro a
  rw [get_erase]
  split_ifs with ha
  · rw [← ha,h]
  · rfl

theorem insert_insert (m : Map K V) (k : K) (v w : V) :
    (m.insert k v).insert k w = m.insert k w := by
  apply ext
  intro a
  simp only [get_insert]
  split_ifs <;> rfl

theorem toList_single {m : Map K V} {k : K} {v : V} (h : m[k]? = some v)
    (honly : ∀ other : K, m[other]?.isSome → other = k) : m.toList = [(k,v)] := by
  have hmem : ∀ p ∈ m.toList, p = (k,v) := by
    intro p hp
    have hget := Std.ExtTreeMap.mem_toList_iff_getElem?_eq_some.mp hp
    have hkey : p.1 = k := honly p.1 (by rw [hget]; rfl)
    rw [hkey,h] at hget
    exact Prod.ext hkey (Option.some.inj hget).symm
  have hin : (k,v) ∈ m.toList := Std.ExtTreeMap.mem_toList_iff_getElem?_eq_some.mpr h
  have hdistinct := Std.ExtTreeMap.distinct_keys_toList (t := m)
  rcases hl : m.toList with _ | ⟨p,_ | ⟨q,l⟩⟩
  · simp [hl] at hin
  · rw [hmem p (by simp [hl])]
  · rw [hl,List.pairwise_cons] at hdistinct
    have hne := hdistinct.1 q (List.mem_cons_self ..)
    rw [hmem p (by simp [hl]),hmem q (by simp [hl])] at hne
    simp at hne

theorem foldl_insert_get {l : List (K × V)} (hl : l.Pairwise (fun a b => a.1 ≠ b.1)) (m : Map K V) (k : K) :
    (∀ v, (k,v) ∈ l → (l.foldl (fun m p => m.insert p.1 p.2) m)[k]? = some v) ∧
      ((∀ v, (k,v) ∉ l) → (l.foldl (fun m p => m.insert p.1 p.2) m)[k]? = m[k]?) := by
  induction l generalizing m with
  | nil => simp
  | cons p l ih =>
    rw [List.pairwise_cons] at hl
    obtain ⟨hin,hout⟩ := ih hl.2 (m.insert p.1 p.2)
    rw [List.foldl_cons]
    refine ⟨?_,?_⟩
    · intro v hv
      rcases List.mem_cons.mp hv with rfl | hv
      · have hno : ∀ w, (k,w) ∉ l := fun w hw => hl.1 (k,w) hw rfl
        rw [hout hno,get_insert,if_pos rfl]
      · exact hin v hv
    · intro hno
      rw [hout (fun v hv => hno v (List.mem_cons_of_mem _ hv)),get_insert]
      rw [if_neg]
      rintro rfl
      exact hno p.2 (List.mem_cons_self ..)

theorem foldl_insert_iff {α : Type*} {l : List α} {key : α → K} {value : α → V}
    (hl : l.Pairwise (fun a b => key a ≠ key b)) (k : K) (v : V) :
    (l.foldl (fun (m : Map K V) a => m.insert (key a) (value a)) ∅)[k]? = some v ↔ ∃ a ∈ l, key a = k ∧ value a = v := by
  have hpairs : (l.map (fun a => (key a,value a))).Pairwise (fun a b => a.1 ≠ b.1) := List.pairwise_map.mpr hl
  obtain ⟨hin,hout⟩ := foldl_insert_get hpairs (∅ : Map K V) k
  rw [List.foldl_map] at hin hout
  constructor
  · intro h
    by_contra hno
    have hnone := hout (fun w hw => by
      obtain ⟨a,ha,heq⟩ := List.mem_map.mp hw
      obtain ⟨hk,rfl⟩ := Prod.mk.inj heq
      have hv := hin (value a) (hk ▸ List.mem_map.mpr ⟨a,ha,rfl⟩)
      rw [h] at hv
      exact hno ⟨a,ha,hk,(Option.some.inj hv).symm⟩)
    rw [h,ExtTreeMap.getElem?_empty] at hnone
    cases hnone
  · rintro ⟨a,ha,rfl,rfl⟩
    exact hin (value a) (List.mem_map.mpr ⟨a,ha,rfl⟩)

theorem foldl_toList (m : Map K V) : m.toList.foldl (fun acc p => acc.insert p.1 p.2) ∅ = m := by
  have hdistinct : m.toList.Pairwise (fun a b => a.1 ≠ b.1) := by
    refine ExtTreeMap.distinct_keys_toList.imp ?_
    intro a b hne heq
    exact hne (by rw [heq]; exact compare_self)
  apply ext
  intro k
  obtain ⟨hin,hout⟩ := foldl_insert_get hdistinct (∅ : Map K V) k
  cases hk : m[k]? with
  | some v => exact hin v (ExtTreeMap.mem_toList_iff_getElem?_eq_some.mpr hk)
  | none =>
    rw [hout,ExtTreeMap.getElem?_empty]
    intro v hv
    rw [ExtTreeMap.mem_toList_iff_getElem?_eq_some,hk] at hv
    simp at hv

theorem foldl_toList_key {m : Map K V} {key : V → K} (h : ∀ (k : K) (v : V), m[k]? = some v → key v = k) :
    m.toList.foldl (fun acc p => acc.insert (key p.2) p.2) ∅ = m := by
  rw [List.foldl_ext _ (fun acc p => acc.insert p.1 p.2),foldl_toList]
  intro acc p hp
  rw [h p.1 p.2 (ExtTreeMap.mem_toList_iff_getElem?_eq_some.mp hp)]

end Map

namespace Index

/-- The identifiers filed under a key. -/
def ids (m : Index K ι) (k : K) : Finset ι := m[k]?.getD ∅

/-- File `i` under `k`. -/
def add (m : Index K ι) (k : K) (i : ι) : Index K ι := m.insert k (insert i (ids m k))

/-- Drop `i` from under `k`; a key left with nothing is forgotten. -/
def remove (m : Index K ι) (k : K) (i : ι) : Index K ι :=
  match m[k]? with
  | none => m
  | some s => if s.erase i = ∅ then m.erase k else m.insert k (s.erase i)

/-- No key is kept with an empty set. -/
def Tight (m : Index K ι) : Prop := ∀ (k : K) (s : Finset ι), m[k]? = some s → s.Nonempty

@[simp] theorem ids_empty (k : K) : ids (∅ : Index K ι) k = ∅ := by simp [ids]

theorem tight_empty : Tight (∅ : Index K ι) := by
  intro k s h
  simp at h

theorem ids_add (m : Index K ι) (k a : K) (i : ι) :
    ids (add m k i) a = if k = a then insert i (ids m a) else ids m a := by
  simp only [ids,add,Map.get_insert]
  split_ifs with h
  · simp [h]
  · rfl

theorem ids_remove (m : Index K ι) (k a : K) (i : ι) :
    ids (remove m k i) a = if k = a then (ids m a).erase i else ids m a := by
  unfold remove
  cases hk : m[k]? with
  | none =>
    split_ifs with h
    · subst a
      simp [ids,hk]
    · rfl
  | some s =>
    by_cases hs : s.erase i = ∅
    · simp only [hs,if_true,ids,Map.get_erase]
      split_ifs with h
      · subst a
        simp [hk,hs]
      · rfl
    · simp only [hs,if_false,ids,Map.get_insert]
      split_ifs with h
      · subst a
        simp [hk]
      · rfl

theorem mem_ids_add {m : Index K ι} {k a : K} {i j : ι} :
    j ∈ ids (add m k i) a ↔ (k = a ∧ j = i) ∨ j ∈ ids m a := by
  rw [ids_add]
  by_cases h : k = a <;> simp [h]

theorem mem_ids_remove {m : Index K ι} {k a : K} {i j : ι} :
    j ∈ ids (remove m k i) a ↔ j ∈ ids m a ∧ ¬(k = a ∧ j = i) := by
  rw [ids_remove]
  by_cases h : k = a
  · simp [h,and_comm]
  · simp [h]

theorem add_tight {m : Index K ι} (hm : Tight m) (k : K) (i : ι) : Tight (add m k i) := by
  intro a s h
  rw [add,Map.get_insert] at h
  split_ifs at h with ha
  · obtain rfl := Option.some.inj h
    exact Finset.insert_nonempty _ _
  · exact hm a s h

theorem remove_tight {m : Index K ι} (hm : Tight m) (k : K) (i : ι) : Tight (remove m k i) := by
  intro a s h
  unfold remove at h
  cases hk : m[k]? with
  | none => exact hm a s (by simpa [hk] using h)
  | some t =>
    simp only [hk] at h
    by_cases ht : t.erase i = ∅
    · simp only [ht,if_true,Map.get_erase] at h
      split_ifs at h
      exact hm a s h
    · simp only [ht,if_false,Map.get_insert] at h
      split_ifs at h with ha
      · obtain rfl := Option.some.inj h
        exact Finset.nonempty_iff_ne_empty.mpr ht
      · exact hm a s h

theorem ext_ids {m n : Index K ι} (hm : Tight m) (hn : Tight n)
    (h : ∀ k, ids m k = ids n k) : m = n := by
  apply Map.ext
  intro k
  have hk := h k
  simp only [ids] at hk
  cases h₁ : m[k]? with
  | none =>
    cases h₂ : n[k]? with
    | none => rfl
    | some t =>
      have ht := hn k t h₂
      simp [h₁,h₂] at hk
      simp [← hk] at ht
  | some s =>
    cases h₂ : n[k]? with
    | none =>
      have hs := hm k s h₁
      simp [h₁,h₂] at hk
      simp [hk] at hs
    | some t => simpa [h₁,h₂] using hk

theorem add_remove {m : Index K ι} (hm : Tight m) {k : K} {i : ι} (h : i ∈ ids m k) :
    add (remove m k i) k i = m := by
  apply ext_ids (add_tight (remove_tight hm k i) k i) hm
  intro a
  rw [ids_add,ids_remove]
  split_ifs with ha
  · subst a
    exact Finset.insert_erase h
  · rfl

/-! ## Indexes over a map of records -/

variable {V : Type*} [Ord ι] [TransOrd ι] [LawfulEqOrd ι]

/-- File `i` under `k` if there is a key. -/
def fileKey (m : Index K ι) (k : Option K) (i : ι) : Index K ι :=
  match k with
  | some k => m.add k i
  | none => m

/-- Drop `i` from under `k` if there is a key. -/
def unfileKey (m : Index K ι) (k : Option K) (i : ι) : Index K ι :=
  match k with
  | some k => m.remove k i
  | none => m

/-- The index files every record under its key and nothing else. -/
structure Files (m : Index K ι) (records : Map ι V) (key : V → Option K) : Prop where
  mem : ∀ k i, i ∈ m.ids k ↔ ∃ v, records[i]? = some v ∧ key v = some k
  tight : m.Tight

theorem mem_ids_fileKey {m : Index K ι} {k : Option K} {a : K} {i j : ι} :
    j ∈ (fileKey m k i).ids a ↔ (k = some a ∧ j = i) ∨ j ∈ m.ids a := by
  cases k with
  | none => simp [fileKey]
  | some k => simp [fileKey,mem_ids_add]

theorem mem_ids_unfileKey {m : Index K ι} {k : Option K} {a : K} {i j : ι} :
    j ∈ (unfileKey m k i).ids a ↔ j ∈ m.ids a ∧ ¬(k = some a ∧ j = i) := by
  cases k with
  | none => simp [unfileKey]
  | some k => simp [unfileKey,mem_ids_remove]

theorem fileKey_tight {m : Index K ι} (hm : Tight m) (k : Option K) (i : ι) :
    Tight (fileKey m k i) := by
  cases k with
  | none => exact hm
  | some k => exact add_tight hm k i

theorem unfileKey_tight {m : Index K ι} (hm : Tight m) (k : Option K) (i : ι) :
    Tight (unfileKey m k i) := by
  cases k with
  | none => exact hm
  | some k => exact remove_tight hm k i

namespace Files

variable {m n : Index K ι} {records : Map ι V} {key : V → Option K}

theorem empty : Files (∅ : Index K ι) (∅ : Map ι V) key where
  mem k i := by simp
  tight := tight_empty

theorem unique (hm : Files m records key) (hn : Files n records key) : m = n := by
  apply ext_ids hm.tight hn.tight
  intro k
  ext i
  rw [hm.mem,hn.mem]

theorem insert_new (h : Files m records key) {i : ι} (hi : records[i]? = none) (v : V) :
    Files (fileKey m (key v) i) (records.insert i v) key where
  mem k j := by
    rw [mem_ids_fileKey,h.mem,Map.get_insert]
    by_cases hj : i = j
    · subst j
      simp [hi]
    · simp [hj,Ne.symm hj]
  tight := fileKey_tight h.tight _ _

theorem erase (h : Files m records key) {i : ι} {v : V} (hi : records[i]? = some v) :
    Files (unfileKey m (key v) i) (records.erase i) key where
  mem k j := by
    rw [mem_ids_unfileKey,h.mem,Map.get_erase]
    by_cases hj : i = j
    · subst j
      simp [hi]
    · simp [hj,Ne.symm hj]
  tight := unfileKey_tight h.tight _ _

theorem insert_old (h : Files m records key) {i : ι} {old : V} (hi : records[i]? = some old) (v : V) :
    Files (fileKey (unfileKey m (key old) i) (key v) i) (records.insert i v) key where
  mem k j := by
    rw [mem_ids_fileKey,mem_ids_unfileKey,h.mem,Map.get_insert]
    by_cases hj : i = j
    · subst j
      simp [hi]
    · simp [hj,Ne.symm hj]
  tight := fileKey_tight (unfileKey_tight h.tight _ _) _ _

end Files

theorem foldl_fileKey_mem (l : List V) (key : V → Option K) (ident : V → ι) (m : Index K ι) (k : K) (j : ι) :
    j ∈ (l.foldl (fun m v => fileKey m (key v) (ident v)) m).ids k ↔
      (∃ v ∈ l, key v = some k ∧ ident v = j) ∨ j ∈ m.ids k := by
  induction l generalizing m with
  | nil => simp
  | cons v l ih =>
    rw [List.foldl_cons,ih,mem_ids_fileKey]
    constructor
    · rintro (⟨w,hw,hk,hj⟩ | (⟨hk,hj⟩ | hm))
      · exact Or.inl ⟨w,List.mem_cons_of_mem _ hw,hk,hj⟩
      · exact Or.inl ⟨v,List.mem_cons_self,hk,hj.symm⟩
      · exact Or.inr hm
    · rintro (⟨w,hw,hk,hj⟩ | hm)
      · rcases List.mem_cons.mp hw with rfl | hw
        · exact Or.inr (Or.inl ⟨hk,hj.symm⟩)
        · exact Or.inl ⟨w,hw,hk,hj⟩
      · exact Or.inr (Or.inr hm)

theorem foldl_fileKey_tight (l : List V) (key : V → Option K) (ident : V → ι) {m : Index K ι} (hm : Tight m) :
    Tight (l.foldl (fun m v => fileKey m (key v) (ident v)) m) := by
  induction l generalizing m with
  | nil => exact hm
  | cons v l ih => exact ih (fileKey_tight hm _ _)

theorem Files.build (records : Map ι V) (key : V → Option K) (ident : V → ι)
    (hid : ∀ (i : ι) (v : V), records[i]? = some v → ident v = i) :
    Files ((records.toList.map Prod.snd).foldl (fun m v => fileKey m (key v) (ident v)) ∅) records key where
  mem k i := by
    rw [foldl_fileKey_mem]
    simp only [ids_empty,Finset.notMem_empty,or_false,List.mem_map]
    constructor
    · rintro ⟨v,⟨⟨j,w⟩,hp,rfl⟩,hk,hi⟩
      have hj : records[j]? = some w := ExtTreeMap.mem_toList_iff_getElem?_eq_some.mp hp
      obtain rfl : j = i := (hid j w hj).symm.trans hi
      exact ⟨w,hj,hk⟩
    · rintro ⟨v,hv,hk⟩
      exact ⟨v,⟨(i,v),ExtTreeMap.mem_toList_iff_getElem?_eq_some.mpr hv,rfl⟩,hk,hid i v hv⟩
  tight := foldl_fileKey_tight _ _ _ tight_empty

end Index
end Lib
