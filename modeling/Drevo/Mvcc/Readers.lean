import Drevo.Mvcc.Moves

/-! Registered readers. The horizon a collector has read stays below everything that a reader can
miss, so that a vacuum takes no version that a guard resolves a key to, however late it comes. -/
set_option linter.unusedSectionVars false

namespace Drevo.Mvcc
open Lib Std

section Watched
variable {K V : Type} [Ord K] [TransOrd K] [LawfulEqOrd K] [DecidableEq K]

/-- The store with the guards of its readers and the horizons its collectors have read. -/
structure Watched (K V : Type) [Ord K] where
  store : VersionedStore K V := {}
  guards : List Snapshot := []
  horizons : Map ℕ ℕ := ∅

/-- One call on the store or its manager. A guard goes by its place among those that are held. -/
inductive StoreCall (K V : Type) where
  | begin
  | putChecked (xid : ℕ) (snapshot : Snapshot) (key : K) (value : V)
  | deleteChecked (xid : ℕ) (snapshot : Snapshot) (key : K)
  | commit (xid : ℕ)
  | abort (xid : ℕ)
  | beginSnapshot (myXid : ℕ)
  | dropGuard (guard : ℕ)
  | gcHorizon (collector : ℕ)
  | vacuum (collector : ℕ)

namespace Watched

/-- The manager once it has answered. -/
def managed (s : Watched K V) (r : Except MvccError Registry) : Watched K V :=
  match r with
  | .ok mgr => { s with store := { s.store with mgr := mgr } }
  | .error _ => s

def step (s : Watched K V) : StoreCall K V → Watched K V
  | .begin => { s with store := { s.store with mgr := s.store.mgr.begin.2 } }
  | .putChecked xid snapshot key value => { s with store := (s.store.putChecked xid snapshot key value).2 }
  | .deleteChecked xid snapshot key => { s with store := (s.store.deleteChecked xid snapshot key).2 }
  | .commit xid => s.managed (s.store.mgr.commit xid)
  | .abort xid => s.managed (s.store.mgr.abort xid)
  | .beginSnapshot myXid =>
    let r := s.store.mgr.beginSnapshot myXid
    { s with store := { s.store with mgr := r.2 }, guards := s.guards ++ [r.1] }
  | .dropGuard guard =>
    match s.guards[guard]? with
    | none => s
    | some snap =>
      { s with store := { s.store with mgr := s.store.mgr.releaseSnapshot snap.xmin }, guards := s.guards.eraseIdx guard }
  | .gcHorizon collector => { s with horizons := s.horizons.insert collector s.store.mgr.gcHorizon }
  | .vacuum collector =>
    match s.horizons[collector]? with
    | none => s
    | some horizon => { s with store := (s.store.vacuum horizon).2, horizons := s.horizons.erase collector }

def run (s : Watched K V) (calls : List (StoreCall K V)) : Watched K V := calls.foldl step s

/-- The calls of a run, each with the state it found. -/
def trace (s : Watched K V) : List (StoreCall K V) → List (Watched K V × StoreCall K V)
  | [] => []
  | a :: as => (s,a) :: (s.step a).trace as

/-- A guard is taken on behalf of a transaction that has aborted. -/
def forAborted (s : Watched K V) : StoreCall K V → Bool
  | .beginSnapshot myXid => s.store.mgr.status[myXid]? = some .aborted
  | _ => false

end Watched

/-! ## What a horizon bounds -/

/-- The manager knows every id it has given out. -/
structure Registry.Full (r : Registry) : Prop extends r.Inv where
  known : ∀ x, 1 ≤ x → x < r.next → (r.status[x]?).isSome

/-- Nothing that the reader misses lies below: no transaction that was active, and its own only if
that committed. -/
structure Snapshot.Above (horizon : ℕ) (s : Snapshot) (r : Registry) : Prop where
  below : horizon ≤ s.xmax
  active : ∀ x ∈ s.active, horizon ≤ x
  mine : s.myXid = invalidXid ∨ horizon ≤ s.myXid ∨ r.statusOf s.myXid = .committed

/-- No transaction under way lies below. -/
structure Registry.Bounds (r : Registry) (horizon : ℕ) : Prop where
  next : horizon ≤ r.next
  active : ∀ x, r.status[x]? = some .inProgress → horizon ≤ x

namespace Registry
variable {r r' : Registry}

theorem gcHorizon_le_reader (r : Registry) {x n : ℕ} (hx : r.activeSnaps[x]? = some n) : r.gcHorizon ≤ x := by
  have hmem : x ∈ (r.activeSnaps.toList.map Prod.fst) :=
    List.mem_map.mpr ⟨(x,n),ExtTreeMap.mem_toList_iff_getElem?_eq_some.mpr hx,rfl⟩
  obtain ⟨y,hy⟩ : ∃ y, (r.activeSnaps.toList.map Prod.fst).head? = some y := by
    cases hl : r.activeSnaps.toList.map Prod.fst with
    | nil => simp [hl] at hmem
    | cons y rest => exact ⟨y,rfl⟩
  have hyx : y ≤ x := by
    refine head_le (L := r.activeSnaps.toList) (p := fun _ => true) ExtTreeMap.ordered_keys_toList ?_ ?_
    · simpa only [List.filter_true] using hmem
    · simpa only [List.filter_true] using hy
  unfold gcHorizon
  simp only [hy]
  have hy' : y ∈ ((some y).toList ++ r.inProgress.head?.toList) := by simp
  generalize ((some y).toList ++ r.inProgress.head?.toList) = L at hy'
  cases hm : L.min? with
  | none => simp [List.min?_eq_none_iff.mp hm] at hy'
  | some m => exact ((List.min?_eq_some_iff.mp hm).2 y hy').trans hyx

theorem gcHorizon_bounds (h : r.Inv) : r.Bounds r.gcHorizon :=
  ⟨gcHorizon_le_next h,fun _ hx => r.gcHorizon_le_inProgress hx⟩

theorem Bounds.evolves {horizon : ℕ} (h : r.Bounds horizon) (he : r.Evolves r') : r'.Bounds horizon := by
  refine ⟨h.next.trans he.next,?_⟩
  intro x hx
  obtain hx | hx := he.fresh x hx
  · exact h.active x hx
  · exact h.next.trans hx

theorem Bounds.above {horizon : ℕ} (h : r.Bounds horizon) (hr : r.Full) {my : ℕ} (hmy : r.status[my]? ≠ some .aborted) :
    (r.snapshot my).Above horizon r := by
  refine ⟨h.next,fun x hx => h.active x (mem_inProgress.mp hx),?_⟩
  change my = invalidXid ∨ horizon ≤ my ∨ r.statusOf my = .committed
  by_cases hzero : my = invalidXid
  · exact Or.inl hzero
  right
  cases hs : r.status[my]? with
  | none =>
    left
    by_contra hlt
    have hnext := h.next
    unfold invalidXid at hzero
    have hknown := hr.known my (by omega) (by omega)
    rw [hs] at hknown
    cases hknown
  | some st =>
    cases st with
    | inProgress => exact Or.inl (h.active my hs)
    | committed => exact Or.inr (statusOf_of hzero hs)
    | aborted => exact absurd hs hmy

theorem Bounds.snapshot_xmin {horizon : ℕ} (h : r.Bounds horizon) (my : ℕ) : horizon ≤ (r.snapshot my).xmin := by
  change horizon ≤ r.inProgress.head?.getD r.next
  cases hl : r.inProgress.head? with
  | none => exact h.next
  | some y => exact h.active y (mem_inProgress.mp (List.mem_of_mem_head? (Option.mem_def.mpr hl)))

theorem snapshot_bounds (h : r.Inv) (my : ℕ) : r.Bounds (r.snapshot my).xmin := by
  change r.Bounds (r.inProgress.head?.getD r.next)
  cases hl : r.inProgress.head? with
  | none =>
    refine ⟨le_rfl,?_⟩
    intro x hx
    rw [List.head?_eq_none_iff] at hl
    have hmem := mem_inProgress.mpr hx
    rw [hl] at hmem
    cases hmem
  | some y =>
    have hy := mem_inProgress.mp (List.mem_of_mem_head? (Option.mem_def.mpr hl))
    refine ⟨(h.ids y _ hy).2.le,?_⟩
    intro x hx
    exact head_le (p := fun st => st = XidStatus.inProgress) ExtTreeMap.ordered_keys_toList (mem_inProgress.mpr hx) hl

end Registry

theorem Snapshot.Above.mono {h h' : ℕ} {s : Snapshot} {r : Registry} (ha : s.Above h r) (hle : h' ≤ h) : s.Above h' r :=
  ⟨hle.trans ha.below,fun x hx => hle.trans (ha.active x hx),ha.mine.imp_right (Or.imp_left hle.trans)⟩

theorem Snapshot.Above.evolves {h : ℕ} {s : Snapshot} {r r' : Registry} (ha : s.Above h r) (he : r.Evolves r')
    (hr : r.Inv) : s.Above h r' := by
  refine ⟨ha.below,ha.active,ha.mine.imp_right (Or.imp_right ?_)⟩
  intro hc
  have hs : r.status[s.myXid]? = some .committed := by
    simp only [Registry.statusOf] at hc
    split_ifs at hc
    cases hs : r.status[s.myXid]? with
    | none => simp [hs] at hc
    | some st => simpa [hs] using hc
  rw [Registry.statusOf_congr (he.final _ (hr.ids _ _ hs).2 (by rw [hs]; decide)),hc]

/-- What can be reclaimed is not visible to a reader above the horizon, one captured later included. -/
theorem reclaimed_hidden {r r' : Registry} (he : r.Evolves r') {horizon : ℕ} (hn : horizon ≤ r.next) {s : Snapshot}
    (ha : s.Above horizon r') {v : Version V} (hv : v.isReclaimable horizon r = true) : v.isVisible s r = false := by
  simp only [Version.isReclaimable,Bool.or_eq_true,Bool.and_eq_true,decide_eq_true_eq] at hv
  obtain ⟨⟨hne,hlt⟩,hc⟩ | ⟨hlt,hab⟩ := hv
  · -- the deletion is seen
    have hsee : s.seesEffect r v.xmax = true := by
      have hbelow := ha.below
      have hactive : v.xmax ∉ s.active := fun hm => absurd (ha.active _ hm) (by omega)
      simp only [Snapshot.seesEffect,if_neg hne,if_neg hactive,hc,decide_true]
      split_ifs
      · rfl
      · omega
      · rfl
    simp [Version.isVisible,hsee]
  · -- the creation is not
    have hsee : s.seesEffect r v.xmin = false := by
      unfold Snapshot.seesEffect
      split_ifs with hzero hmy
      · rfl
      · exfalso
        obtain hm | hm | hm := ha.mine
        · exact hzero (hmy.trans hm)
        · omega
        · have hin : r.status[v.xmin]? ≠ some .inProgress := by
            intro hin
            rw [Registry.statusOf_of hzero hin] at hab
            cases hab
          rw [← hmy,Registry.statusOf_congr (he.final _ (by omega) hin),hab] at hm
          cases hm
      · rfl
      · rfl
      · simp [hab]
    simp [Version.isVisible,hsee]

/-! ## Every call -/

theorem Registry.begin_full {r : Registry} (h : r.Full) : r.begin.2.Full := by
  refine ⟨begin_inv h.toInv,?_⟩
  intro x hpos hx
  simp only [begin,Map.get_insert] at hx ⊢
  split_ifs with hn
  · rfl
  · exact h.known x hpos (by omega)

theorem Registry.finish_full {r r' : Registry} {x : ℕ} {st : XidStatus} (h : r.Full) (hf : r.finish x st = .ok r') : r'.Full := by
  refine ⟨finish_inv h.toInv hf,?_⟩
  obtain ⟨-,rfl⟩ := finish_ok hf
  intro y hpos hy
  rw [Map.get_insert]
  split_ifs
  · rfl
  · exact h.known y hpos hy

namespace Watched

/-- What holds after every run whose guards are not taken for an aborted transaction. -/
structure Inv (s : Watched K V) : Prop where
  mgr : s.store.mgr.Full
  counted : ∀ x : ℕ, (s.store.mgr.activeSnaps[x]?).getD 0 = s.guards.countP (fun g => g.xmin = x)
  guards : ∀ g ∈ s.guards, g.Above g.xmin s.store.mgr
  horizons : ∀ (c h : ℕ), s.horizons[c]? = some h → s.store.mgr.Bounds h ∧ ∀ g ∈ s.guards, h ≤ g.xmin

section Steps
variable {s : Watched K V}

/-- The manager only moves on. -/
theorem step_evolves (h : s.store.mgr.Full) (a : StoreCall K V) :
    s.store.mgr.Evolves (s.step a).store.mgr ∧ (s.step a).store.mgr.Full := by
  have hfinish : ∀ (xid : ℕ) (st : XidStatus), st ≠ .inProgress →
      s.store.mgr.Evolves (s.managed (s.store.mgr.finish xid st)).store.mgr ∧
        (s.managed (s.store.mgr.finish xid st)).store.mgr.Full := by
    intro xid st hst
    cases hf : s.store.mgr.finish xid st with
    | ok mgr => exact ⟨Registry.finish_evolves hst hf,Registry.finish_full h hf⟩
    | error err => exact ⟨.refl _,h⟩
  cases a with
  | begin => exact ⟨s.store.mgr.begin_evolves,Registry.begin_full h⟩
  | putChecked xid snapshot key value =>
    simp only [step,System.putChecked_mgr]
    exact ⟨.refl _,h⟩
  | deleteChecked xid snapshot key =>
    simp only [step,System.deleteChecked_mgr]
    exact ⟨.refl _,h⟩
  | commit xid => exact hfinish xid .committed (by decide)
  | abort xid => exact hfinish xid .aborted (by decide)
  | beginSnapshot my => exact ⟨⟨le_rfl,fun _ _ _ => rfl,fun _ hx => Or.inl hx⟩,Registry.beginSnapshot_inv h.toInv my,h.known⟩
  | dropGuard guard =>
    simp only [step]
    split
    · exact ⟨.refl _,h⟩
    · rename_i snap _
      obtain ⟨m,hm,hsub⟩ := Registry.releaseSnapshot_eq s.store.mgr snap.xmin
      simp only [hm]
      refine ⟨⟨le_rfl,fun _ _ _ => rfl,fun _ hx => Or.inl hx⟩,⟨h.pos,h.ids,?_⟩,h.known⟩
      intro x n hx
      obtain ⟨n',hx'⟩ := hsub x n hx
      exact h.snaps x n' hx'
  | gcHorizon c => exact ⟨.refl _,h⟩
  | vacuum c =>
    simp only [step]
    split <;> exact ⟨.refl _,h⟩

theorem run_evolves (h : s.store.mgr.Full) (as : List (StoreCall K V)) :
    s.store.mgr.Evolves (s.run as).store.mgr ∧ (s.run as).store.mgr.Full := by
  induction as generalizing s with
  | nil => exact ⟨.refl _,h⟩
  | cons a as ih =>
    obtain ⟨he,hf⟩ := step_evolves h a
    obtain ⟨he',hf'⟩ := ih hf
    exact ⟨he.trans he',hf'⟩

theorem Inv.stays (h : Inv s) {s' : Watched K V} (he : s.store.mgr.Evolves s'.store.mgr) (hf : s'.store.mgr.Full)
    (hsnaps : s'.store.mgr.activeSnaps = s.store.mgr.activeSnaps) (hg : s'.guards = s.guards)
    (hh : ∀ (c z : ℕ), s'.horizons[c]? = some z → s.horizons[c]? = some z) : Inv s' := by
  refine ⟨hf,?_,?_,?_⟩
  · rw [hsnaps,hg]
    exact h.counted
  · rw [hg]
    exact fun g hm => (h.guards g hm).evolves he h.mgr.toInv
  · intro c z hc
    rw [hg]
    obtain ⟨hb,hall⟩ := h.horizons c z (hh c z hc)
    exact ⟨hb.evolves he,hall⟩

theorem managed_snaps (s : Watched K V) (xid : ℕ) (st : XidStatus) :
    (s.managed (s.store.mgr.finish xid st)).store.mgr.activeSnaps = s.store.mgr.activeSnaps ∧
      (s.managed (s.store.mgr.finish xid st)).guards = s.guards ∧
        (s.managed (s.store.mgr.finish xid st)).horizons = s.horizons := by
  cases hf : s.store.mgr.finish xid st with
  | ok mgr =>
    obtain ⟨-,rfl⟩ := Registry.finish_ok hf
    exact ⟨rfl,rfl,rfl⟩
  | error err => exact ⟨rfl,rfl,rfl⟩

theorem countP_eraseIdx {guards : List Snapshot} {i : ℕ} {snap : Snapshot} (hi : guards[i]? = some snap) (x : ℕ) :
    (guards.eraseIdx i).countP (fun g => g.xmin = x) =
      guards.countP (fun g => g.xmin = x)-(if snap.xmin = x then 1 else 0) := by
  obtain ⟨hlt,rfl⟩ := List.getElem?_eq_some_iff.mp hi
  have hsplit : guards = guards.take i ++ guards[i] :: guards.drop (i+1) := by
    rw [List.getElem_cons_drop,List.take_append_drop]
  have hcount := congrArg (List.countP (fun g => decide (g.xmin = x))) hsplit
  rw [List.countP_append,List.countP_cons] at hcount
  rw [List.eraseIdx_eq_take_drop_succ,List.countP_append]
  simp only [decide_eq_true_eq] at hcount
  omega

theorem release_counted (r : Registry) (xmin x : ℕ) :
    ((r.releaseSnapshot xmin).activeSnaps[x]?).getD 0 = (r.activeSnaps[x]?).getD 0-(if xmin = x then 1 else 0) := by
  unfold Registry.releaseSnapshot
  split
  · rename_i hnone
    split_ifs with hx
    · simp [← hx,hnone]
    · rfl
  · rename_i count hcount
    split_ifs with hone hx hx
    · simp [← hx,hcount,hone]
    · simp [hx]
    · simp [← hx,hcount]
    · simp [hx]

theorem step_inv (h : Inv s) (a : StoreCall K V) (ha : s.forAborted a = false) : Inv (s.step a) := by
  obtain ⟨he,hf⟩ := step_evolves h.mgr a
  cases a with
  | begin => exact h.stays he hf rfl rfl (fun _ _ hc => hc)
  | putChecked xid snapshot key value =>
    exact h.stays he hf (by simp only [step,System.putChecked_mgr]) rfl (fun _ _ hc => hc)
  | deleteChecked xid snapshot key =>
    exact h.stays he hf (by simp only [step,System.deleteChecked_mgr]) rfl (fun _ _ hc => hc)
  | commit xid =>
    obtain ⟨hsnaps,hg,hh⟩ := managed_snaps s xid .committed
    exact h.stays he hf hsnaps hg (fun c z hc => hh ▸ hc)
  | abort xid =>
    obtain ⟨hsnaps,hg,hh⟩ := managed_snaps s xid .aborted
    exact h.stays he hf hsnaps hg (fun c z hc => hh ▸ hc)
  | beginSnapshot my =>
    have hbounds := Registry.snapshot_bounds h.mgr.toInv my
    have hmy : s.store.mgr.status[my]? ≠ some .aborted := by simpa [forAborted] using ha
    refine ⟨hf,?_,?_,?_⟩
    · intro x
      change ((s.store.mgr.activeSnaps.insert (s.store.mgr.snapshot my).xmin _)[x]?).getD 0 =
        (s.guards ++ [s.store.mgr.snapshot my]).countP _
      rw [List.countP_append,List.countP_singleton,Map.get_insert,← h.counted x]
      simp only [decide_eq_true_eq]
      split_ifs with hx
      · rw [hx]
        rfl
      · rfl
    · intro g hg
      obtain hg | hg := List.mem_append.mp hg
      · exact (h.guards g hg).evolves he h.mgr.toInv
      · obtain rfl := List.mem_singleton.mp hg
        exact (hbounds.above h.mgr hmy).evolves he h.mgr.toInv
    · intro c z hc
      obtain ⟨hb,hall⟩ := h.horizons c z hc
      refine ⟨hb.evolves he,?_⟩
      intro g hg
      obtain hg | hg := List.mem_append.mp hg
      · exact hall g hg
      · obtain rfl := List.mem_singleton.mp hg
        exact hb.snapshot_xmin my
  | dropGuard guard =>
    cases hi : s.guards[guard]? with
    | none => simpa only [step,hi] using h
    | some snap =>
      simp only [step,hi] at he hf ⊢
      have hsub : ∀ g ∈ s.guards.eraseIdx guard, g ∈ s.guards := fun g hg => List.mem_of_mem_eraseIdx hg
      refine ⟨hf,?_,fun g hg => (h.guards g (hsub g hg)).evolves he h.mgr.toInv,?_⟩
      · intro x
        rw [release_counted,countP_eraseIdx hi,h.counted x]
      · intro c z hc
        obtain ⟨hb,hall⟩ := h.horizons c z hc
        exact ⟨hb.evolves he,fun g hg => hall g (hsub g hg)⟩
  | gcHorizon c =>
    refine ⟨h.mgr,h.counted,h.guards,?_⟩
    intro d z hd
    simp only [step,Map.get_insert] at hd
    split_ifs at hd
    · obtain rfl := Option.some.inj hd
      refine ⟨Registry.gcHorizon_bounds h.mgr.toInv,?_⟩
      intro g hg
      have hpos : 0 < s.guards.countP (fun g' => g'.xmin = g.xmin) := List.countP_pos_iff.mpr ⟨g,hg,by simp⟩
      rw [← h.counted] at hpos
      cases hn : s.store.mgr.activeSnaps[g.xmin]? with
      | none => simp [hn] at hpos
      | some n => exact s.store.mgr.gcHorizon_le_reader hn
    · exact h.horizons d z hd
  | vacuum c =>
    cases hc : s.horizons[c]? with
    | none => simpa only [step,hc] using h
    | some horizon =>
      simp only [step,hc] at he hf ⊢
      refine h.stays he hf rfl rfl ?_
      intro d z hd
      rw [Map.get_erase] at hd
      split_ifs at hd
      exact hd

theorem empty_inv : Inv ({} : Watched K V) := by
  refine ⟨⟨⟨le_rfl,by simp,by simp⟩,?_⟩,by simp,by simp,by simp⟩
  intro x hpos hx
  change x < 1 at hx
  omega

/-- No guard of the run is taken on behalf of a transaction that has aborted. -/
def Entitled (s : Watched K V) (as : List (StoreCall K V)) : Prop := ∀ t ∈ s.trace as, t.1.forAborted t.2 = false

theorem run_inv (h : Inv s) {as : List (StoreCall K V)} (he : s.Entitled as) : Inv (s.run as) := by
  induction as generalizing s with
  | nil => exact h
  | cons a as ih => exact ih (step_inv h a (he (s,a) (by simp [trace]))) (fun t ht => he t (by simp [trace,ht]))

theorem get_vacuum (h : Inv s) {c : ℕ} {snap : Snapshot} {r' : Registry} (he : s.store.mgr.Evolves r')
    (ha : ∀ z, s.horizons[c]? = some z → snap.Above z r') (key : K) :
    (s.step (.vacuum c)).store.get key snap = s.store.get key snap := by
  cases hc : s.horizons[c]? with
  | none => simp only [step,hc]
  | some horizon =>
    simp only [step,hc,VersionedStore.get,VersionedStore.resolve,System.chain_vacuum]
    refine congrArg (Option.map Version.value) (find_filter ?_)
    intro v _ hvis
    rw [Bool.not_eq_true',Bool.eq_false_iff]
    intro hv
    have hno := reclaimed_hidden he (h.horizons c horizon hc).1.next (ha horizon hc) hv
    rw [show v.isVisible snap s.store.mgr = true from hvis] at hno
    cases hno

end Steps
end Watched
end Watched

section Samples

end Samples
end Drevo.Mvcc
