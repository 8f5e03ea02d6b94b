import Drevo.Core.DenseMap

/-! The dense map refines a finite map, whatever copies share its chunks. -/
namespace Drevo.DenseMap
open Lib

variable {T : Type} {h h₀ : Chunks T} {m : DenseMap T} {f f' : Map ℕ T} {others : List ℕ}

/-- Every chunk has its slots. -/
def Wide (h : Chunks T) (m : DenseMap T) : Prop := ∀ p ∈ m.chunks, (h.value p).length = CHUNK

/-- The vector and the outliers hold the entries of `f`; an outlier hides its slot. -/
structure Holds (h : Chunks T) (m : DenseMap T) (f : Map ℕ T) : Prop where
  wide : m.Wide h
  dense : ∀ {i : ℕ}, i < m.ending → m.sparse[i]? = none → m.slotValue h i = f[i]?
  sparse : ∀ {id : ℕ} {v : T}, m.sparse[id]? = some v → f[id]? = some v
  far : ∀ {id : ℕ}, m.ending ≤ id → f[id]? = m.sparse[id]?
  len : m.len = f.size

/-- The map between two operations: no id below the end of the vector is an outlier. -/
structure Rep (h : Chunks T) (m : DenseMap T) (f : Map ℕ T) : Prop extends Holds h m f where
  apart : ∀ {id : ℕ}, id < m.ending → m.sparse[id]? = none
  least : ∀ {id : ℕ} {v : T}, m.sparse[id]? = some v → m.sparseMin ≤ id

/-- The heap counts the pointers of the map and of the others, who see what they saw at `h₀`. -/
structure Owned (others : List ℕ) (h₀ : Chunks T) (hm : Chunks T × DenseMap T) : Prop where
  counted : hm.1.Counted (hm.2.chunks ++ others)
  frame : ∀ p ∈ others, hm.1.value p = h₀.value p

theorem chunk_lt {i : ℕ} (hi : i < m.ending) : i/CHUNK < m.chunks.length :=
  Nat.div_lt_of_lt_mul (by rw [Nat.mul_comm]; exact hi)

theorem mem_keys_of_get {s : Map ℕ T} {k : ℕ} {v : T} (hk : s[k]? = some v) : k ∈ s.keys :=
  Std.ExtTreeMap.mem_keys.mpr (Std.ExtTreeMap.mem_iff_isSome_getElem?.mpr (by rw [hk]; rfl))

/-! ## One slot -/

/-- A write to a slot changes that slot of this map and nothing else. -/
theorem setSlot_spec (hown : Owned others h₀ (h,m)) (hw : m.Wide h) {i : ℕ} (hi : i < m.ending) (v : Option T) :
    Owned others h₀ (m.setSlot h i v) ∧ (m.setSlot h i v).2.Wide (m.setSlot h i v).1 ∧
      (m.setSlot h i v).2.ending = m.ending ∧
      ∀ j, j < m.ending → (m.setSlot h i v).2.slotValue (m.setSlot h i v).1 j = if i = j then v else m.slotValue h j := by
  have hk : i/CHUNK < m.chunks.length := chunk_lt hi
  have hget : m.chunks.getD (i/CHUNK) 0 = m.chunks[i/CHUNK] := List.getD_eq_getElem _ _ hk
  have hperm : m.chunks.Perm (m.chunks[i/CHUNK] :: m.chunks.eraseIdx (i/CHUNK)) := (List.getElem_cons_eraseIdx_perm hk).symm
  obtain ⟨hcounted,hself,hrest⟩ := Heap.update_spec (hown.counted.perm (hperm.append_right others)) (fun c => c.set (i%CHUNK) v)
  have hwidth : (h.value m.chunks[i/CHUNK]).length = CHUNK := hw _ (List.getElem_mem hk)
  have hmod : i%CHUNK < CHUNK := Nat.mod_lt _ (by decide)
  unfold setSlot
  rw [hget]
  generalize h.update m.chunks[i/CHUNK] (fun c => c.set (i%CHUNK) v) = r at hcounted hself hrest
  obtain ⟨h',p⟩ := r
  have hset : (m.chunks.set (i/CHUNK) p).Perm (p :: m.chunks.eraseIdx (i/CHUNK)) := List.set_perm_cons_eraseIdx hk p
  refine ⟨⟨?_,?_⟩,?_,?_,?_⟩
  · exact hcounted.perm (hset.symm.append_right others)
  · intro q hq
    exact (hrest q (List.mem_append_right _ hq)).trans (hown.frame q hq)
  · intro q hq
    show (h'.value q).length = CHUNK
    obtain rfl | hq := List.mem_cons.mp (hset.mem_iff.mp hq)
    · rw [show h'.value q = _ from hself,List.length_set]
      exact hwidth
    · rw [hrest q (List.mem_append_left _ hq)]
      exact hw q (List.mem_of_mem_eraseIdx hq)
  · show (m.chunks.set (i/CHUNK) p).length*CHUNK = _
    rw [List.length_set]
    rfl
  · intro j hj
    unfold slotValue
    show ((h'.value ((m.chunks.set (i/CHUNK) p).getD (j/CHUNK) 0))[j%CHUNK]?).join = _
    by_cases hchunk : i/CHUNK = j/CHUNK
    · have hp : (m.chunks.set (i/CHUNK) p).getD (j/CHUNK) 0 = p := by
        rw [← hchunk,List.getD_eq_getElem?_getD,List.getElem?_set_self hk]
        rfl
      rw [hp,show h'.value p = _ from hself,List.getElem?_set,← hchunk,hget,hwidth,if_pos hmod]
      by_cases hsame : i%CHUNK = j%CHUNK
      · have heq : i = j := by rw [← Nat.div_add_mod i CHUNK,← Nat.div_add_mod j CHUNK,hchunk,hsame]
        rw [if_pos hsame,if_pos heq]
        rfl
      · rw [if_neg hsame,if_neg (fun heq => hsame (by rw [heq]))]
    · have hother : (m.chunks.set (i/CHUNK) p).getD (j/CHUNK) 0 = m.chunks.getD (j/CHUNK) 0 := by
        rw [List.getD_eq_getElem?_getD,List.getElem?_set_ne hchunk,← List.getD_eq_getElem?_getD]
      rw [hother,if_neg (fun heq => hchunk (by rw [heq]))]
      have hmem : m.chunks.getD (j/CHUNK) 0 ∈ m.chunks.eraseIdx (i/CHUNK) := by
        rw [List.getD_eq_getElem _ _ (chunk_lt hj),List.mem_eraseIdx_iff_getElem?]
        exact ⟨j/CHUNK,fun heq => hchunk heq.symm,List.getElem?_eq_getElem (chunk_lt hj)⟩
      rw [hrest _ (List.mem_append_left _ hmem)]

theorem Holds.write (hh : Holds h m f) (hown : Owned others h₀ (h,m)) {i : ℕ} (hi : i < m.ending) (v : Option T)
    (hf : ∀ j, f'[j]? = if i = j then v else f[j]?) (hnone : m.sparse[i]? = none) {n : ℕ} (hlen : n = f'.size) :
    Holds (m.setSlot h i v).1 { (m.setSlot h i v).2 with len := n } f' := by
  obtain ⟨-,hwide,hend,hvalue⟩ := setSlot_spec hown hh.wide hi v
  refine ⟨hwide,?_,?_,?_,hlen⟩
  · intro j hj hs
    have hj' : j < m.ending := hend ▸ hj
    show (m.setSlot h i v).2.slotValue (m.setSlot h i v).1 j = _
    rw [hvalue j hj',hf]
    split_ifs
    · rfl
    · exact hh.dense hj' hs
  · intro id w hs
    rw [hf,if_neg]
    · exact hh.sparse hs
    · rintro rfl
      rw [show m.sparse[i]? = some w from hs] at hnone
      cases hnone
  · intro id hid
    have hid' : m.ending ≤ id := hend ▸ hid
    rw [hf,if_neg (by rintro rfl; omega)]
    exact hh.far hid'

/-! ## Growing -/

theorem push_spec (n : ℕ) : ∀ {h : Chunks T} {m : DenseMap T}, Owned others h₀ (h,m) → Holds h m f →
    Owned others h₀ (push h m n) ∧ Holds (push h m n).1 (push h m n).2 f ∧ (push h m n).2.sparse = m.sparse ∧
      (push h m n).2.sparseMin = m.sparseMin ∧ (push h m n).2.chunks.length = m.chunks.length+n := by
  induction n with
  | zero => exact fun hown hh => ⟨hown,hh,rfl,rfl,rfl⟩
  | succ n ih =>
    intro h m hown hh
    have hold : ∀ p ∈ m.chunks ++ others, (h.alloc (List.replicate CHUNK none)).1.value p = h.value p :=
      fun p hp => Heap.alloc_value hown.counted _ hp
    have hnew : (h.alloc (List.replicate CHUNK (none : Option T))).1.value h.next = List.replicate CHUNK none := Heap.alloc_self ..
    have hown' : Owned others h₀ ((h.alloc (List.replicate CHUNK none)).1,{ m with chunks := m.chunks ++ [h.next] }) := by
      refine ⟨(Heap.alloc_counted hown.counted _).perm ?_,?_⟩
      · show (h.next :: (m.chunks ++ others)).Perm ((m.chunks ++ [h.next]) ++ others)
        rw [List.append_assoc]
        exact List.perm_middle.symm
      · intro p hp
        exact (hold p (List.mem_append_right _ hp)).trans (hown.frame p hp)
    have hend : ({ m with chunks := m.chunks ++ [h.next] } : DenseMap T).ending = m.ending+CHUNK := by
      show (m.chunks ++ [h.next]).length*CHUNK = m.chunks.length*CHUNK+CHUNK
      rw [List.length_append,List.length_singleton,Nat.add_mul,Nat.one_mul]
    have hh' : Holds (h.alloc (List.replicate CHUNK none)).1 { m with chunks := m.chunks ++ [h.next] } f := by
      refine ⟨?_,?_,hh.sparse,?_,hh.len⟩
      · intro p hp
        obtain hp | hp := List.mem_append.mp hp
        · rw [hold p (List.mem_append_left _ hp)]
          exact hh.wide p hp
        · rw [List.mem_singleton.mp hp,hnew]
          exact List.length_replicate
      · intro i hi hs
        rw [hend] at hi
        show (((h.alloc _).1.value ((m.chunks ++ [h.next]).getD (i/CHUNK) 0))[i%CHUNK]?).join = _
        by_cases hlt : i < m.ending
        · have hk := chunk_lt hlt
          have hget : (m.chunks ++ [h.next]).getD (i/CHUNK) 0 = m.chunks.getD (i/CHUNK) 0 := by
            rw [List.getD_eq_getElem?_getD,List.getElem?_append_left hk,← List.getD_eq_getElem?_getD]
          rw [hget,hold]
          · exact hh.dense hlt hs
          · rw [List.getD_eq_getElem _ _ hk]
            exact List.mem_append_left _ (List.getElem_mem hk)
        · -- the new chunk has no value
          have hk : i/CHUNK = m.chunks.length := by
            have hlo : m.chunks.length*CHUNK ≤ i := Nat.le_of_not_lt hlt
            have hhi : i < m.chunks.length*CHUNK+CHUNK := hi
            unfold CHUNK at hlo hhi ⊢
            omega
          have hget : (m.chunks ++ [h.next]).getD (i/CHUNK) 0 = h.next := by
            rw [List.getD_eq_getElem?_getD,hk,List.getElem?_append_right le_rfl,Nat.sub_self]
            rfl
          rw [hget,hnew,hh.far (Nat.le_of_not_lt hlt),hs,List.getElem?_replicate,if_pos (Nat.mod_lt _ (by decide))]
          rfl
      · intro id hid
        exact hh.far (by omega)
    obtain ⟨hown'',hh'',hs,hmin,hlen⟩ := ih hown' hh'
    refine ⟨hown'',hh'',hs,hmin,hlen.trans ?_⟩
    rw [List.length_append,List.length_singleton,Nat.add_assoc,Nat.add_comm 1 n]

theorem migrate_spec (hown : Owned others h₀ (h,m)) (hh : Holds h m f) {k : ℕ} (hk : k < m.ending) :
    Owned others h₀ (migrate (h,m) k) ∧ Holds (migrate (h,m) k).1 (migrate (h,m) k).2 f ∧
      (migrate (h,m) k).2.ending = m.ending ∧ (migrate (h,m) k).2.sparse = m.sparse.erase k := by
  unfold migrate
  cases hs : m.sparse[k]? with
  | none => exact ⟨hown,hh,rfl,(Map.erase_none hs).symm⟩
  | some v =>
    simp only
    have hown' : Owned others h₀ (h,{ m with sparse := m.sparse.erase k }) := ⟨hown.counted,hown.frame⟩
    obtain ⟨howned,hwide,hend,hvalue⟩ := setSlot_spec hown' hh.wide hk (some v)
    refine ⟨howned,⟨hwide,?_,?_,?_,hh.len⟩,hend,rfl⟩
    · intro i hi hnone
      rw [hvalue i (hend ▸ hi)]
      have hnone' : (m.sparse.erase k)[i]? = none := hnone
      rw [Map.get_erase] at hnone'
      split_ifs at hnone' ⊢ with heq
      · rw [← heq,hh.sparse hs]
      · exact hh.dense (hend ▸ hi) hnone'
    · intro id w hw
      have hw' : (m.sparse.erase k)[id]? = some w := hw
      rw [Map.get_erase] at hw'
      split_ifs at hw'
      exact hh.sparse hw'
    · intro id hid
      have hid' : m.ending ≤ id := hend ▸ hid
      show f[id]? = (m.sparse.erase k)[id]?
      rw [Map.get_erase,if_neg (by rintro rfl; omega)]
      exact hh.far hid'

theorem foldl_migrate_spec {l : List ℕ} : ∀ {h : Chunks T} {m : DenseMap T}, Owned others h₀ (h,m) → Holds h m f →
    (∀ k ∈ l, k < m.ending) → Owned others h₀ (l.foldl migrate (h,m)) ∧
      Holds (l.foldl migrate (h,m)).1 (l.foldl migrate (h,m)).2 f ∧ (l.foldl migrate (h,m)).2.ending = m.ending ∧
      ∀ id, (l.foldl migrate (h,m)).2.sparse[id]? = if id ∈ l then none else m.sparse[id]? := by
  induction l with
  | nil => exact fun hown hh _ => ⟨hown,hh,rfl,fun id => (if_neg List.not_mem_nil).symm⟩
  | cons k l ih =>
    intro h m hown hh hl
    obtain ⟨hown₁,hh₁,hend₁,hs₁⟩ := migrate_spec hown hh (hl k List.mem_cons_self)
    obtain ⟨hown₂,hh₂,hend₂,hs₂⟩ := ih (h := (migrate (h,m) k).1) (m := (migrate (h,m) k).2) hown₁ hh₁
      (fun k' hk' => hend₁ ▸ hl k' (List.mem_cons_of_mem _ hk'))
    refine ⟨hown₂,hh₂,hend₂.trans hend₁,?_⟩
    intro id
    refine (hs₂ id).trans ?_
    rw [hs₁,Map.get_erase]
    by_cases hid : id ∈ l
    · rw [if_pos hid,if_pos (List.mem_cons_of_mem _ hid)]
    · rw [if_neg hid]
      by_cases hk : k = id
      · rw [if_pos hk,if_pos (by rw [hk]; exact List.mem_cons_self)]
      · rw [if_neg hk,if_neg]
        rintro hmem
        obtain heq | hmem := List.mem_cons.mp hmem
        · exact hk heq.symm
        · exact hid hmem

/-- The vector has the slot of the id, having grown to it, or the id is too far. -/
theorem denseSlot_spec (hown : Owned others h₀ (h,m)) (hr : Rep h m f) (id : ℕ) :
    Owned others h₀ (m.denseSlot h id).1 ∧ Rep (m.denseSlot h id).1.1 (m.denseSlot h id).1.2 f ∧
      ((m.denseSlot h id).2 = some id ∧ id < (m.denseSlot h id).1.2.ending ∨
        (m.denseSlot h id).2 = none ∧ (m.denseSlot h id).1.2.ending ≤ id) := by
  unfold denseSlot slot
  by_cases hid : id < m.ending
  · rw [if_pos hid]
    exact ⟨hown,hr,.inl ⟨rfl,hid⟩⟩
  · rw [if_neg hid]
    simp only
    by_cases hreach : min (min (m.ending*2) u64Max + GROWTH_SLACK) u64Max < id
    · rw [if_pos hreach]
      exact ⟨hown,hr,.inr ⟨rfl,Nat.le_of_not_lt hid⟩⟩
    · rw [if_neg hreach]
      obtain ⟨hown₁,hh₁,hs₁,hmin₁,hlen₁⟩ := push_spec (id/CHUNK+1-m.chunks.length) hown hr.toHolds
      generalize push h m (id/CHUNK+1-m.chunks.length) = hm at hown₁ hh₁ hs₁ hmin₁ hlen₁
      obtain ⟨h₁,m₁⟩ := hm
      have hcovers : id < m₁.ending := by
        have hlength : m₁.chunks.length = m.chunks.length+(id/CHUNK+1-m.chunks.length) := hlen₁
        have hnot : ¬ id < m.chunks.length*CHUNK := hid
        show id < m₁.chunks.length*CHUNK
        rw [hlength]
        unfold CHUNK at hnot ⊢
        omega
      by_cases hmin : m₁.sparseMin < m₁.ending
      · rw [if_pos hmin]
        have hl : ∀ k ∈ m₁.sparse.keys.filter (· < m₁.ending), k < m₁.ending :=
          fun k hk => of_decide_eq_true (List.mem_filter.mp hk).2
        obtain ⟨hown₂,hh₂,hend₂,hs₂⟩ := foldl_migrate_spec hown₁ hh₁ hl
        simp only
        generalize (m₁.sparse.keys.filter (· < m₁.ending)).foldl migrate (h₁,m₁) = hm at hown₂ hh₂ hend₂ hs₂
        obtain ⟨h₂,m₂⟩ := hm
        refine ⟨⟨hown₂.counted,hown₂.frame⟩,⟨⟨hh₂.wide,hh₂.dense,hh₂.sparse,hh₂.far,hh₂.len⟩,?_,?_⟩,
          .inl ⟨trivial,lt_of_lt_of_eq hcovers hend₂.symm⟩⟩
        · intro k hk
          show m₂.sparse[k]? = none
          have hk' : k < m₁.ending := lt_of_lt_of_eq hk hend₂
          rw [hs₂ k]
          split_ifs with hmem
          · rfl
          · cases hv : m₁.sparse[k]? with
            | none => rfl
            | some v =>
              refine absurd ?_ hmem
              rw [List.mem_filter]
              exact ⟨mem_keys_of_get hv,decide_eq_true hk'⟩
        · intro k v hk
          exact List.min?_getD_le_of_mem (mem_keys_of_get hk)
      · rw [if_neg hmin]
        have hsparse : m₁.sparse = m.sparse := hs₁
        have hleast : m₁.sparseMin = m.sparseMin := hmin₁
        have hmin' : ¬ m₁.sparseMin < m₁.ending := hmin
        refine ⟨hown₁,⟨hh₁,?_,?_⟩,.inl ⟨rfl,hcovers⟩⟩
        · intro k hk
          cases hv : m₁.sparse[k]? with
          | none => rfl
          | some v =>
            have hle := hr.least (hsparse ▸ hv)
            exact absurd (show k < m₁.ending from hk) (by omega)
        · intro k v hk
          rw [hleast]
          exact hr.least (hsparse ▸ hk)

/-! ## The operations -/

theorem Rep.write (hr : Rep h m f) (hown : Owned others h₀ (h,m)) {i : ℕ} (hi : i < m.ending) (v : Option T)
    (hf : ∀ j, f'[j]? = if i = j then v else f[j]?) {n : ℕ} (hlen : n = f'.size) :
    Owned others h₀ ((m.setSlot h i v).1,{ (m.setSlot h i v).2 with len := n }) ∧
      Rep (m.setSlot h i v).1 { (m.setSlot h i v).2 with len := n } f' := by
  obtain ⟨howned,-,hend,-⟩ := setSlot_spec hown hr.wide hi v
  exact ⟨⟨howned.counted,howned.frame⟩,hr.toHolds.write hown hi v hf (hr.apart hi) hlen,fun hk => hr.apart (hend ▸ hk),hr.least⟩

theorem Rep.outlier (hr : Rep h m f) {id : ℕ} (hid : m.ending ≤ id) {s' : Map ℕ T} {v : Option T}
    (hs : ∀ j, s'[j]? = if id = j then v else m.sparse[j]?) (hf : ∀ j, f'[j]? = if id = j then v else f[j]?)
    {least n : ℕ} (hleast : ∀ {k : ℕ} {w : T}, s'[k]? = some w → least ≤ k) (hlen : n = f'.size) :
    Rep h ⟨m.chunks,s',least,n⟩ f' := by
  have hne : ∀ {j : ℕ}, j < m.ending → id ≠ j := by
    rintro j hj rfl
    omega
  refine ⟨⟨hr.wide,?_,?_,?_,hlen⟩,?_,hleast⟩
  · intro i hi _
    rw [hf,if_neg (hne hi)]
    exact hr.dense hi (hr.apart hi)
  · intro k w hk
    have hk' : s'[k]? = some w := hk
    rw [hs] at hk'
    rw [hf]
    split_ifs at hk' ⊢
    · exact hk'
    · exact hr.sparse hk'
  · intro k hk
    show f'[k]? = s'[k]?
    rw [hf,hs]
    split_ifs
    · rfl
    · exact hr.far hk
  · intro k hk
    show s'[k]? = none
    rw [hs,if_neg (hne hk)]
    exact hr.apart hk

theorem get_spec (hr : Rep h m f) (id : ℕ) : m.get h id = f[id]? := by
  unfold get slot
  split_ifs with hid
  · exact hr.dense hid (hr.apart hid)
  · exact (hr.far (Nat.le_of_not_lt hid)).symm

theorem size_insert (f : Map ℕ T) (id : ℕ) (v : T) :
    (f.insert id v).size = if f[id]?.isNone then f.size+1 else f.size := by
  rw [Std.ExtTreeMap.size_insert]
  cases hf : f[id]? with
  | none => rw [if_neg (by rw [Map.contains_eq,hf]; exact Bool.false_ne_true)]; rfl
  | some _ => rw [if_pos (by rw [Map.contains_eq,hf]; rfl)]; rfl

theorem size_erase (f : Map ℕ T) (id : ℕ) : (f.erase id).size = if f[id]?.isSome then f.size-1 else f.size := by
  rw [Std.ExtTreeMap.size_erase]
  cases hf : f[id]? with
  | none => rw [if_neg (by rw [Map.contains_eq,hf]; exact Bool.false_ne_true)]; rfl
  | some _ => rw [if_pos (by rw [Map.contains_eq,hf]; rfl)]; rfl

theorem counted_eq (m : DenseMap T) (old : Option T) :
    m.counted old = { m with len := if old.isNone then m.len+1 else m.len } := by
  unfold counted
  split_ifs <;> rfl

/-- An operation does to the map what it does to a finite map, and says the same. -/
structure Does (others : List ℕ) (h₀ : Chunks T) (r : (Chunks T × DenseMap T) × Option T) (p : Map ℕ T × Option T) : Prop where
  owned : Owned others h₀ r.1
  rep : Rep r.1.1 r.1.2 p.1
  reply : r.2 = p.2

theorem insert_does (hown : Owned others h₀ (h,m)) (hr : Rep h m f) (id : ℕ) (v : T) :
    Does others h₀ (m.insert h id v) (f.insert id v,f[id]?) := by
  obtain ⟨hown₁,hr₁,hwhere⟩ := denseSlot_spec hown hr id
  unfold insert
  generalize m.denseSlot h id = r at hown₁ hr₁ hwhere
  obtain ⟨⟨h₁,m₁⟩,o⟩ := r
  have hf : ∀ j, (f.insert id v)[j]? = if id = j then some v else f[j]? := fun j => Map.get_insert ..
  obtain ⟨ho,hid⟩ | ⟨ho,hid⟩ := hwhere
  · obtain rfl : o = some id := ho
    have hold : m₁.slotValue h₁ id = f[id]? := hr₁.dense hid (hr₁.apart hid)
    have hlen : (if f[id]?.isNone then m₁.len+1 else m₁.len) = (f.insert id v).size := by
      rw [size_insert,show m₁.len = f.size from hr₁.len]
    obtain ⟨howned,hrep⟩ := hr₁.write hown₁ hid (some v) hf hlen
    simp only [counted_eq,hold]
    exact ⟨howned,hrep,rfl⟩
  · obtain rfl : o = none := ho
    have hold : m₁.sparse[id]? = f[id]? := (hr₁.far hid).symm
    have hlen : (if f[id]?.isNone then m₁.len+1 else m₁.len) = (f.insert id v).size := by
      rw [size_insert,show m₁.len = f.size from hr₁.len]
    have hs : ∀ j, (m₁.sparse.insert id v)[j]? = if id = j then some v else m₁.sparse[j]? := fun j => Map.get_insert ..
    have hleast : ∀ {k : ℕ} {w : T}, (m₁.sparse.insert id v)[k]? = some w → min m₁.sparseMin id ≤ k := by
      intro k w hk
      rw [hs] at hk
      split_ifs at hk with heq
      · exact heq ▸ Nat.min_le_right ..
      · exact (Nat.min_le_left ..).trans (hr₁.least hk)
    simp only [counted_eq,hold]
    exact ⟨⟨hown₁.counted,hown₁.frame⟩,hr₁.outlier hid hs hf hleast hlen,rfl⟩

theorem remove_does (hown : Owned others h₀ (h,m)) (hr : Rep h m f) (id : ℕ) :
    Does others h₀ (m.remove h id) (f.erase id,f[id]?) := by
  have hf : ∀ j, (f.erase id)[j]? = if id = j then none else f[j]? := fun j => Map.get_erase ..
  have hsize := size_erase f id
  unfold remove slot
  by_cases hid : id < m.ending
  · rw [if_pos hid]
    have hold : m.slotValue h id = f[id]? := hr.dense hid (hr.apart hid)
    cases hv : f[id]? with
    | none =>
      simp only [hold,hv]
      rw [Map.erase_none hv]
      exact ⟨hown,hr,rfl⟩
    | some v =>
      simp only [hold,hv]
      have hlen : m.len-1 = (f.erase id).size := by
        rw [hsize,hv,hr.len]
        rfl
      obtain ⟨howned,hrep⟩ := hr.write hown hid none hf hlen
      exact ⟨howned,hrep,rfl⟩
  · rw [if_neg hid]
    have hfar := Nat.le_of_not_lt hid
    have hold : m.sparse[id]? = f[id]? := (hr.far hfar).symm
    have hs : ∀ j, (m.sparse.erase id)[j]? = if id = j then none else m.sparse[j]? := fun j => Map.get_erase ..
    have hsub : ∀ {k : ℕ} {w : T}, (m.sparse.erase id)[k]? = some w → m.sparse[k]? = some w := by
      intro k w hk
      rw [hs] at hk
      split_ifs at hk
      exact hk
    have hlen : (if f[id]?.isSome then m.len-1 else m.len) = (f.erase id).size := by rw [hsize,hr.len]
    -- the least outlier is looked for again when it was the one removed
    have hmin : ∃ least, (if id = m.sparseMin then
        { ({ m with sparse := m.sparse.erase id } : DenseMap T) with
          sparseMin := ({ m with sparse := m.sparse.erase id } : DenseMap T).leastOutlier }
        else { m with sparse := m.sparse.erase id }) = ⟨m.chunks,m.sparse.erase id,least,m.len⟩ ∧
        ∀ {k : ℕ} {w : T}, (m.sparse.erase id)[k]? = some w → least ≤ k := by
      by_cases heq : id = m.sparseMin
      · rw [if_pos heq]
        exact ⟨_,rfl,fun hk => List.min?_getD_le_of_mem (mem_keys_of_get hk)⟩
      · rw [if_neg heq]
        exact ⟨_,rfl,fun hk => hr.least (hsub hk)⟩
    obtain ⟨least,hm,hleast⟩ := hmin
    have hrep : Rep h ⟨m.chunks,m.sparse.erase id,least,if f[id]?.isSome then m.len-1 else m.len⟩ (f.erase id) :=
      hr.outlier hfar hs hf hleast hlen
    simp only [hm,hold]
    refine ⟨?_,?_,rfl⟩
    · split_ifs <;> exact ⟨hown.counted,hown.frame⟩
    · split_ifs at hrep ⊢ <;> exact hrep

theorem change_does (hown : Owned others h₀ (h,m)) (hr : Rep h m f) {id : ℕ} {v w : T} (hv : f[id]? = some v) :
    (id < m.ending → m.slotValue h id = some v ∧ Owned others h₀ (m.setSlot h id (some w)) ∧
      Rep (m.setSlot h id (some w)).1 (m.setSlot h id (some w)).2 (f.insert id w)) ∧
    (m.ending ≤ id → m.sparse[id]? = some v ∧ Rep h { m with sparse := m.sparse.insert id w } (f.insert id w)) := by
  have hf : ∀ j, (f.insert id w)[j]? = if id = j then some w else f[j]? := fun j => Map.get_insert ..
  have hlen : m.len = (f.insert id w).size := by
    rw [size_insert,hv,hr.len]
    rfl
  refine ⟨?_,?_⟩
  · intro hid
    obtain ⟨howned,hrep⟩ := hr.write hown hid (some w) hf hlen
    exact ⟨(hr.dense hid (hr.apart hid)).trans hv,howned,hrep⟩
  · intro hid
    have hold : m.sparse[id]? = some v := (hr.far hid).symm.trans hv
    have hs : ∀ j, (m.sparse.insert id w)[j]? = if id = j then some w else m.sparse[j]? := fun j => Map.get_insert ..
    refine ⟨hold,hr.outlier hid hs hf ?_ hlen⟩
    intro k u hk
    rw [hs] at hk
    split_ifs at hk with heq
    · exact heq ▸ hr.least hold
    · exact hr.least hk

theorem getMut_does (initial : T) (hown : Owned others h₀ (h,m)) (hr : Rep h m f) (id : ℕ) (g : T → T) :
    Does others h₀ (m.getMut h id g) ((MapOp.getMut id g).plain initial f) := by
  unfold getMut slot MapOp.plain
  by_cases hid : id < m.ending
  · rw [if_pos hid]
    cases hv : f[id]? with
    | none =>
      simp only [hr.dense hid (hr.apart hid),hv]
      exact ⟨hown,hr,rfl⟩
    | some v =>
      obtain ⟨hold,howned,hrep⟩ := (change_does (w := g v) hown hr hv).1 hid
      simp only [hold,hv]
      exact ⟨howned,hrep,rfl⟩
  · rw [if_neg hid]
    have hfar := Nat.le_of_not_lt hid
    cases hv : f[id]? with
    | none =>
      simp only [(hr.far hfar).symm,hv]
      exact ⟨hown,hr,rfl⟩
    | some v =>
      obtain ⟨hold,hrep⟩ := (change_does (w := g v) hown hr hv).2 hfar
      simp only [hold,hv]
      exact ⟨⟨hown.counted,hown.frame⟩,hrep,rfl⟩

theorem entryOrDefault_does (initial : T) (hown : Owned others h₀ (h,m)) (hr : Rep h m f) (id : ℕ) (g : T → T) :
    Does others h₀ (m.entryOrDefault initial h id g) ((MapOp.entryOrDefault id g).plain initial f) := by
  -- the entry is there when the caller gets it
  obtain ⟨f₁,hown₁,hr₁,hv,hf₁⟩ : ∃ f₁, Owned others h₀ (if m.containsKey h id then (h,m) else (m.insert h id initial).1) ∧
      Rep (if m.containsKey h id then (h,m) else (m.insert h id initial).1).1
        (if m.containsKey h id then (h,m) else (m.insert h id initial).1).2 f₁ ∧
      f₁[id]? = some ((f[id]?).getD initial) ∧ ∀ w, f₁.insert id w = f.insert id w := by
    unfold containsKey
    rw [get_spec hr]
    cases hv : f[id]? with
    | some v => exact ⟨f,hown,hr,hv,fun _ => rfl⟩
    | none =>
      obtain ⟨howned,hrep,-⟩ := insert_does hown hr id initial
      refine ⟨f.insert id initial,howned,hrep,?_,?_⟩
      · rw [Map.get_insert,if_pos rfl]
        rfl
      · exact fun w => Map.insert_insert f id initial w
  unfold entryOrDefault MapOp.plain
  simp only
  generalize (if m.containsKey h id then (h,m) else (m.insert h id initial).1) = hm at hown₁ hr₁
  obtain ⟨h₁,m₁⟩ := hm
  simp only
  have hchange := change_does (w := g ((f[id]?).getD initial)) hown₁ hr₁ hv
  rw [hf₁] at hchange
  unfold slot
  by_cases hid : id < m₁.ending
  · obtain ⟨hold,howned,hrep⟩ := hchange.1 hid
    rw [if_pos hid]
    simp only [hold,Option.getD_some]
    exact ⟨howned,hrep,rfl⟩
  · obtain ⟨hold,hrep⟩ := hchange.2 (Nat.le_of_not_lt hid)
    rw [if_neg hid]
    simp only [hold,Option.getD_some]
    exact ⟨⟨hown₁.counted,hown₁.frame⟩,hrep,rfl⟩

theorem op_does (initial : T) (hown : Owned others h₀ (h,m)) (hr : Rep h m f) (op : MapOp T) :
    Does others h₀ (op.dense initial h m) (op.plain initial f) := by
  cases op with
  | insert id v => exact insert_does hown hr id v
  | remove id => exact remove_does hown hr id
  | get id => exact ⟨hown,hr,get_spec hr id⟩
  | getMut id g => exact getMut_does initial hown hr id g
  | entryOrDefault id g => exact entryOrDefault_does initial hown hr id g

/-! ## Iteration -/

theorem flatMap_get {ps : List ℕ} (hw : ∀ p ∈ ps, (h.value p).length = CHUNK) (i : ℕ) :
    (ps.flatMap h.value)[i]? = (ps[i/CHUNK]?).bind (fun p => (h.value p)[i%CHUNK]?) := by
  induction ps generalizing i with
  | nil => rfl
  | cons p ps ih =>
    have hp := hw p List.mem_cons_self
    rw [List.flatMap_cons]
    by_cases hi : i < CHUNK
    · rw [List.getElem?_append_left (by omega),Nat.div_eq_of_lt hi,Nat.mod_eq_of_lt hi]
      rfl
    · have hle : CHUNK ≤ i := Nat.le_of_not_lt hi
      rw [List.getElem?_append_right (by omega),hp,ih (fun q hq => hw q (List.mem_cons_of_mem _ hq)),
        Nat.div_eq_sub_div (by decide) hle,Nat.mod_eq_sub_mod hle]
      rfl

theorem mem_slots (hr : Rep h m f) {id : ℕ} {v : T} :
    (id,v) ∈ (m.chunks.flatMap h.value).zipIdx.filterMap (fun p => p.1.map fun v => (p.2,v)) ↔
      id < m.ending ∧ f[id]? = some v := by
  rw [List.mem_filterMap]
  constructor
  · rintro ⟨⟨x,i⟩,hmem,hx⟩
    obtain ⟨w,rfl,heq⟩ := Option.map_eq_some_iff.mp hx
    obtain ⟨rfl,rfl⟩ := Prod.mk.inj heq
    have hget := List.mem_zipIdx_iff_getElem?.mp hmem
    rw [flatMap_get hr.wide] at hget
    obtain ⟨p,hp,hslot⟩ := Option.bind_eq_some_iff.mp hget
    have hi : i < m.ending := by
      have hlt := (List.getElem?_eq_some_iff.mp hp).1
      show i < m.chunks.length*CHUNK
      unfold CHUNK at hlt ⊢
      omega
    refine ⟨hi,?_⟩
    rw [← hr.dense hi (hr.apart hi)]
    unfold slotValue
    rw [List.getD_eq_getElem?_getD,hp]
    exact congrArg Option.join hslot
  · rintro ⟨hid,hv⟩
    refine ⟨(some v,id),?_,rfl⟩
    rw [List.mem_zipIdx_iff_getElem?,flatMap_get hr.wide]
    rw [← hr.dense hid (hr.apart hid)] at hv
    unfold slotValue at hv
    have hk := chunk_lt hid
    rw [List.getD_eq_getElem _ _ hk] at hv
    rw [List.getElem?_eq_getElem hk,Option.bind_some]
    exact Option.join_eq_some_iff.mp hv

/-- The iteration gives each entry once. -/
theorem iter_perm (hr : Rep h m f) : (m.iter h).Perm f.toList := by
  have hmem : ∀ p : ℕ × T, p ∈ m.iter h ↔ p ∈ f.toList := by
    rintro ⟨id,v⟩
    unfold iter
    rw [List.mem_append,mem_slots hr,Std.ExtTreeMap.mem_toList_iff_getElem?_eq_some,Std.ExtTreeMap.mem_toList_iff_getElem?_eq_some]
    constructor
    · rintro (⟨-,hv⟩ | hv)
      · exact hv
      · exact hr.sparse hv
    · intro hv
      by_cases hid : id < m.ending
      · exact .inl ⟨hid,hv⟩
      · exact .inr ((hr.far (Nat.le_of_not_lt hid)).symm.trans hv)
  have hkeys : ∀ s : Map ℕ T, s.toList.Pairwise (fun a b => a.1 ≠ b.1) := by
    intro s
    refine Std.ExtTreeMap.distinct_keys_toList.imp ?_
    intro a b hne heq
    exact hne (by rw [heq]; exact Std.compare_self)
  have hpairs : (m.iter h).Pairwise (fun a b => a.1 ≠ b.1) := by
    unfold iter
    rw [List.pairwise_append]
    refine ⟨?_,hkeys _,?_⟩
    · have hidx : (m.chunks.flatMap h.value).zipIdx.Pairwise (fun a b => a.2 ≠ b.2) := by
        rw [← List.pairwise_map (f := Prod.snd) (R := (· ≠ ·)),List.zipIdx_map_snd]
        exact List.nodup_range'
      refine List.Pairwise.filterMap _ ?_ hidx
      intro a a' hne b hb b' hb'
      obtain ⟨v,-,rfl⟩ := Option.map_eq_some_iff.mp hb
      obtain ⟨v',-,rfl⟩ := Option.map_eq_some_iff.mp hb'
      exact hne
    · rintro ⟨id,v⟩ hv ⟨id',v'⟩ hv' heq
      obtain rfl : id = id' := heq
      have hnone := hr.apart ((mem_slots hr).mp hv).1
      rw [Std.ExtTreeMap.mem_toList_iff_getElem?_eq_some.mp hv'] at hnone
      cases hnone
  have hnodup : ∀ {l : List (ℕ × T)}, l.Pairwise (fun a b => a.1 ≠ b.1) → l.Nodup := by
    intro l hl
    refine hl.imp ?_
    rintro a b hne rfl
    exact hne rfl
  exact (List.perm_ext_iff_of_nodup (hnodup hpairs) (hnodup (hkeys f))).mpr hmem

end Drevo.DenseMap

namespace Drevo.DenseMaps
open Lib DenseMap

variable {T : Type}

/-- The pointers a map holds. -/
def pointers : Option (DenseMap T) → List ℕ
  | some m => m.chunks
  | none => []

/-- A map, or one that was dropped. -/
def Same (h : Chunks T) : Option (DenseMap T) → Option (Map ℕ T) → Prop
  | some m, some f => Rep h m f
  | none, none => True
  | _, _ => False

/-- Each map represents its finite map, and the heap counts the pointers of all of them. -/
structure Refines (w : DenseMaps T) (fs : PlainMaps T) : Prop where
  counted : w.heap.Counted (w.maps.flatMap pointers)
  length : w.maps.length = fs.length
  same : ∀ {i : ℕ} {x : Option (DenseMap T)} {y : Option (Map ℕ T)}, w.maps[i]? = some x → fs[i]? = some y → Same w.heap x y

variable {w : DenseMaps T} {fs : PlainMaps T}

theorem rep_congr {h h' : Chunks T} {m : DenseMap T} {f : Map ℕ T} (hv : ∀ p ∈ m.chunks, h'.value p = h.value p)
    (hr : Rep h m f) : Rep h' m f := by
  refine ⟨⟨?_,?_,hr.sparse,hr.far,hr.len⟩,hr.apart,hr.least⟩
  · intro p hp
    rw [hv p hp]
    exact hr.wide p hp
  · intro i hi hs
    rw [← hr.dense hi hs]
    unfold slotValue
    rw [List.getD_eq_getElem _ _ (chunk_lt hi),hv _ (List.getElem_mem _)]

theorem same_congr {h h' : Chunks T} {x : Option (DenseMap T)} {y : Option (Map ℕ T)}
    (hv : ∀ p ∈ pointers x, h'.value p = h.value p) (hs : Same h x y) : Same h' x y := by
  cases x with
  | none => cases y with
    | none => trivial
    | some f => exact hs.elim
  | some m => cases y with
    | none => exact hs.elim
    | some f => exact rep_congr hv hs

theorem Refines.plain (h : Refines w fs) {i : ℕ} {m : DenseMap T} (hi : w.maps[i]? = some (some m)) :
    ∃ f, fs[i]? = some (some f) ∧ Rep w.heap m f := by
  have hlt : i < fs.length := h.length ▸ (List.getElem?_eq_some_iff.mp hi).1
  have hget : fs[i]? = some fs[i] := List.getElem?_eq_getElem hlt
  have hsame := h.same hi hget
  cases hf : fs[i] with
  | none =>
    rw [hf] at hsame
    exact hsame.elim
  | some f =>
    rw [hf] at hsame hget
    exact ⟨f,hget,hsame⟩

theorem Refines.both (h : Refines w fs) (i : ℕ) :
    (∃ m f, w.maps[i]? = some (some m) ∧ fs[i]? = some (some f) ∧ Rep w.heap m f) ∨
      (∀ m, w.maps[i]? ≠ some (some m)) ∧ ∀ f, fs[i]? ≠ some (some f) := by
  by_cases hm : ∃ m, w.maps[i]? = some (some m)
  · obtain ⟨m,hm⟩ := hm
    obtain ⟨f,hf,hrep⟩ := h.plain hm
    exact .inl ⟨m,f,hm,hf,hrep⟩
  · refine .inr ⟨fun m hm' => hm ⟨m,hm'⟩,?_⟩
    intro f hf
    have hlt : i < w.maps.length := h.length ▸ (List.getElem?_eq_some_iff.mp hf).1
    have hget : w.maps[i]? = some w.maps[i] := List.getElem?_eq_getElem hlt
    have hsame := h.same hget hf
    cases hx : w.maps[i] with
    | none =>
      rw [hx] at hsame
      exact hsame
    | some m => exact hm ⟨m,hx ▸ hget⟩

theorem pointers_perm {i : ℕ} {m : DenseMap T} (hm : w.maps[i]? = some (some m)) :
    (w.maps.flatMap pointers).Perm (m.chunks ++ (w.maps.eraseIdx i).flatMap pointers) := by
  obtain ⟨hlt,hget⟩ := List.getElem?_eq_some_iff.mp hm
  have hcons := (List.getElem_cons_eraseIdx_perm hlt).symm.flatMap_right pointers
  rw [hget] at hcons
  exact hcons

theorem Refines.set (h : Refines w fs) {i : ℕ} (hi : i < w.maps.length) {h' : Chunks T} {x : Option (DenseMap T)} {y : Option (Map ℕ T)}
    (hcounted : h'.Counted (pointers x ++ (w.maps.eraseIdx i).flatMap pointers))
    (hframe : ∀ p ∈ (w.maps.eraseIdx i).flatMap pointers, h'.value p = w.heap.value p) (hsame : Same h' x y) :
    Refines ⟨h',w.maps.set i x⟩ (fs.set i y) := by
  refine ⟨?_,?_,?_⟩
  · refine hcounted.perm ?_
    have hperm : (w.maps.set i x).Perm (x :: w.maps.eraseIdx i) := List.set_perm_cons_eraseIdx hi x
    exact (hperm.flatMap_right pointers).symm
  · show (w.maps.set i x).length = (fs.set i y).length
    rw [List.length_set,List.length_set,h.length]
  · intro j x' y' hx hy
    have hx' : (w.maps.set i x)[j]? = some x' := hx
    by_cases heq : i = j
    · subst heq
      rw [List.getElem?_set_self hi] at hx'
      rw [List.getElem?_set_self (h.length ▸ hi)] at hy
      cases hx'
      cases hy
      exact hsame
    · rw [List.getElem?_set_ne heq] at hx' hy
      refine same_congr ?_ (h.same hx' hy)
      intro p hp
      refine hframe p (List.mem_flatMap.mpr ⟨x',?_,hp⟩)
      exact List.mem_eraseIdx_iff_getElem?.mpr ⟨j,fun hji => heq hji.symm,hx'⟩

theorem Refines.push (h : Refines w fs) {h' : Chunks T} {m : DenseMap T} {f : Map ℕ T}
    (hcounted : h'.Counted (m.chunks ++ w.maps.flatMap pointers)) (hframe : ∀ p, h'.value p = w.heap.value p)
    (hrep : Rep h' m f) : Refines ⟨h',w.maps ++ [some m]⟩ (fs ++ [some f]) := by
  refine ⟨?_,?_,?_⟩
  · refine hcounted.perm ?_
    show (m.chunks ++ w.maps.flatMap pointers).Perm ((w.maps ++ [some m]).flatMap pointers)
    rw [List.flatMap_append,List.flatMap_singleton]
    exact List.perm_append_comm
  · show (w.maps ++ [some m]).length = (fs ++ [some f]).length
    rw [List.length_append,List.length_append,h.length]
    rfl
  · intro j x y hx hy
    have hx' : (w.maps ++ [some m])[j]? = some x := hx
    by_cases hj : j < w.maps.length
    · rw [List.getElem?_append_left hj] at hx'
      rw [List.getElem?_append_left (h.length ▸ hj)] at hy
      exact same_congr (fun p _ => hframe p) (h.same hx' hy)
    · have hle := Nat.le_of_not_lt hj
      rw [List.getElem?_append_right hle,List.getElem?_singleton] at hx'
      rw [List.getElem?_append_right (h.length ▸ hle),List.getElem?_singleton,← h.length] at hy
      split_ifs at hx' hy
      cases hx'
      cases hy
      exact hrep

theorem default_rep (h : Chunks T) : Rep h .default (∅ : Map ℕ T) := by
  have hnone : ∀ {id : ℕ}, (∅ : Map ℕ T)[id]? = none := fun {id} => by simp
  have hsome : ∀ {id : ℕ} {v : T}, (∅ : Map ℕ T)[id]? ≠ some v := fun {id v} => by simp
  refine ⟨⟨?_,?_,?_,fun _ => rfl,rfl⟩,fun _ => hnone,?_⟩
  · intro p hp
    cases hp
  · intro i hi
    exact absurd hi (by show ¬ i < 0*CHUNK; omega)
  · exact fun hs => absurd hs hsome
  · exact fun hs => absurd hs hsome

/-- One step of the maps is one step of the finite maps, with the same reply. -/
theorem step_refines (initial : T) (h : Refines w fs) (a : MapAct T) :
    Refines (w.step initial a).1 (PlainMaps.step initial fs a).1 ∧ (w.step initial a).2 = (PlainMaps.step initial fs a).2 := by
  cases a with
  | new => exact ⟨h.push h.counted (fun _ => rfl) (default_rep _),rfl⟩
  | op i op =>
    simp only [step,PlainMaps.step]
    obtain ⟨m,f,hm,hf,hrep⟩ | ⟨hno,hnof⟩ := h.both i
    · have hdoes := op_does initial (⟨h.counted.perm (pointers_perm hm),fun _ _ => rfl⟩ : Owned _ w.heap (w.heap,m)) hrep op
      simp only [hm,hf]
      exact ⟨h.set (List.getElem?_eq_some_iff.mp hm).1 hdoes.owned.counted hdoes.owned.frame hdoes.rep,hdoes.reply⟩
    · split
      · next m hm => exact absurd hm (hno m)
      · split
        · next f hf => exact absurd hf (hnof f)
        · exact ⟨h,rfl⟩
  | clone i =>
    simp only [step,PlainMaps.step]
    obtain ⟨m,f,hm,hf,hrep⟩ | ⟨hno,hnof⟩ := h.both i
    · simp only [hm,hf]
      have hsub : m.chunks ⊆ w.maps.flatMap pointers :=
        fun p hp => List.mem_flatMap.mpr ⟨some m,List.mem_of_getElem? hm,hp⟩
      have hsee : ∀ p, (w.heap.retainAll m.chunks).value p = w.heap.value p := fun p => Heap.retainAll_value ..
      exact ⟨h.push (Heap.retainAll_counted h.counted hsub) hsee (rep_congr (fun p _ => hsee p) hrep),trivial⟩
    · split
      · next m hm => exact absurd hm (hno m)
      · split
        · next f hf => exact absurd hf (hnof f)
        · exact ⟨h,rfl⟩
  | drop i =>
    simp only [step,PlainMaps.step]
    obtain ⟨m,f,hm,hf,hrep⟩ | ⟨hno,hnof⟩ := h.both i
    · simp only [hm,hf]
      refine ⟨h.set (List.getElem?_eq_some_iff.mp hm).1 ?_ ?_ trivial,trivial⟩
      · exact Heap.releaseAll_counted (h.counted.perm (pointers_perm hm))
      · exact fun p _ => Heap.releaseAll_value ..
    · split
      · next m hm => exact absurd hm (hno m)
      · split
        · next f hf => exact absurd hf (hnof f)
        · exact ⟨h,rfl⟩

theorem run_refines (initial : T) (acts : List (MapAct T)) : ∀ {w : DenseMaps T} {fs : PlainMaps T}, Refines w fs →
    Refines (w.run initial acts).1 (PlainMaps.run initial fs acts).1 ∧ (w.run initial acts).2 = (PlainMaps.run initial fs acts).2 := by
  induction acts with
  | nil => exact fun h => ⟨h,rfl⟩
  | cons a acts ih =>
    intro w fs h
    obtain ⟨hstep,hreply⟩ := step_refines initial h a
    obtain ⟨hrun,hreplies⟩ := ih hstep
    exact ⟨hrun,congrArg₂ List.cons hreply hreplies⟩

theorem empty_refines : Refines (empty : DenseMaps T) [] :=
  ⟨Heap.empty_counted _,rfl,fun hx => absurd hx (by show ([] : List (Option (DenseMap T)))[_]? ≠ _; simp)⟩

/-- Whatever is done to the maps and their copies, each reply is that of a finite map, and each map
has the entries of its finite map, counts them, gives each once when iterated, and keeps no outlier
below the end of its vector. -/
theorem dense_is_map (initial : T) (acts : List (MapAct T)) :
    ((empty : DenseMaps T).run initial acts).2 = (PlainMaps.run initial [] acts).2 ∧
    ∀ (i : ℕ) (m : DenseMap T), (empty.run initial acts).1.maps[i]? = some (some m) →
      ∃ f : Map ℕ T, (PlainMaps.run initial [] acts).1[i]? = some (some f) ∧
        (∀ id, m.get (empty.run initial acts).1.heap id = f[id]?) ∧ m.len = f.size ∧
        (m.iter (empty.run initial acts).1.heap).Perm f.toList ∧ ∀ id, id < m.ending → m.sparse[id]? = none := by
  obtain ⟨hrun,hreplies⟩ := run_refines initial acts (empty_refines (T := T))
  refine ⟨hreplies,?_⟩
  intro i m hm
  obtain ⟨f,hf,hrep⟩ := hrun.plain hm
  exact ⟨f,hf,get_spec hrep,hrep.len,iter_perm hrep,fun _ => hrep.apart⟩

/-- An outlier, a copy of the map, and writes to both. -/
def copied : List (MapAct ℕ) :=
  [.new,.op 0 (.insert 10000 7),.clone 0,.op 0 (.insert 3 5),.op 1 (.remove 10000),.op 0 (.get 10000)]

theorem copied_kept : ∃ (m : DenseMap ℕ) (f : Map ℕ ℕ), (empty.run 0 copied).1.maps[0]? = some (some m) ∧
    (PlainMaps.run 0 [] copied).1[0]? = some (some f) ∧ m.get (empty.run 0 copied).1.heap 10000 = f[10000]? := by
  obtain ⟨m,hm⟩ : ∃ m, (empty.run 0 copied).1.maps[0]? = some (some m) := ⟨_,rfl⟩
  obtain ⟨f,hf,hget,-⟩ := (dense_is_map 0 copied).2 0 m hm
  exact ⟨m,f,hm,hf,hget 10000⟩

end Drevo.DenseMaps
