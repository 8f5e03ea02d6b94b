import Drevo.Mvcc.Store

/-! The view of a transaction. As long as no vacuum takes a version that an open transaction sees
and no delete retires a version in place of another, a transaction reads the values that were
committed when its snapshot was captured, and reads them again. -/
set_option linter.unusedSectionVars false

namespace Drevo.Mvcc
open Lib Std

/-! ## The registry -/

namespace Registry

@[simp] theorem mem_inProgress {r : Registry} {x : ℕ} : x ∈ r.inProgress ↔ r.status[x]? = some .inProgress := by
  simp only [inProgress,List.mem_map,List.mem_filter,decide_eq_true_eq]
  constructor
  · rintro ⟨p,⟨hp,hs⟩,rfl⟩
    rw [← hs]
    exact ExtTreeMap.mem_toList_iff_getElem?_eq_some.mp hp
  · intro h
    exact ⟨(x,.inProgress),⟨ExtTreeMap.mem_toList_iff_getElem?_eq_some.mpr h,rfl⟩,rfl⟩

theorem statusOf_of {r : Registry} {x : ℕ} {st : XidStatus} (hx : x ≠ invalidXid) (h : r.status[x]? = some st) :
    r.statusOf x = st := by
  simp [statusOf,hx,h]

theorem statusOf_congr {r r' : Registry} {x : ℕ} (h : r'.status[x]? = r.status[x]?) : r'.statusOf x = r.statusOf x := by
  simp only [statusOf,h]

theorem statusOf_zero (r : Registry) : r.statusOf invalidXid = .aborted := by simp [statusOf]

/-- What the registry always satisfies. -/
structure Inv (r : Registry) : Prop where
  pos : 1 ≤ r.next
  ids : ∀ (x : ℕ) (st : XidStatus), r.status[x]? = some st → 1 ≤ x ∧ x < r.next
  snaps : ∀ (x : ℕ) (n : ℕ), r.activeSnaps[x]? = some n → x ≤ r.next

theorem Inv.ne_invalid {r : Registry} (h : Inv r) {x : ℕ} {st : XidStatus} (hx : r.status[x]? = some st) :
    x ≠ invalidXid := by
  have := (h.ids x st hx).1
  unfold invalidXid
  omega

theorem Inv.statusOf {r : Registry} (h : Inv r) {x : ℕ} {st : XidStatus} (hx : r.status[x]? = some st) :
    r.statusOf x = st := statusOf_of (h.ne_invalid hx) hx

theorem head_le {α : Type} {L : List (ℕ × α)} (hL : L.Pairwise (fun a b => compare a.1 b.1 = .lt)) {p : α → Bool}
    {x y : ℕ} (hx : x ∈ (L.filter (fun q => p q.2)).map Prod.fst)
    (hy : ((L.filter (fun q => p q.2)).map Prod.fst).head? = some y) : y ≤ x := by
  have hs : ((L.filter (fun q => p q.2)).map Prod.fst).Pairwise (· < ·) := by
    rw [List.pairwise_map]
    exact (hL.filter _).imp (fun hab => compare_lt_iff_lt.mp hab)
  cases hl : (L.filter (fun q => p q.2)).map Prod.fst with
  | nil => simp [hl] at hy
  | cons z rest =>
    rw [hl] at hs hx hy
    obtain rfl : z = y := by simpa using hy
    rcases List.mem_cons.mp hx with rfl | hx
    · exact le_rfl
    · exact ((List.pairwise_cons.mp hs).1 x hx).le

theorem gcHorizon_le_inProgress (r : Registry) {x : ℕ} (hx : r.status[x]? = some .inProgress) : r.gcHorizon ≤ x := by
  have hmem := mem_inProgress.mpr hx
  obtain ⟨y,hy⟩ : ∃ y, r.inProgress.head? = some y := by
    cases hl : r.inProgress with
    | nil => simp [hl] at hmem
    | cons y rest => exact ⟨y,rfl⟩
  have hyx : y ≤ x := head_le (p := fun st => st = XidStatus.inProgress) ExtTreeMap.ordered_keys_toList hmem hy
  unfold gcHorizon
  simp only [hy]
  have hy' : y ∈ ((r.activeSnaps.toList.map Prod.fst).head?.toList ++ (some y).toList) := by simp
  generalize ((r.activeSnaps.toList.map Prod.fst).head?.toList ++ (some y).toList) = L at hy'
  cases hm : L.min? with
  | none => simp [List.min?_eq_none_iff.mp hm] at hy'
  | some m => exact ((List.min?_eq_some_iff.mp hm).2 y hy').trans hyx

theorem gcHorizon_le_next {r : Registry} (h : Inv r) : r.gcHorizon ≤ r.next := by
  unfold gcHorizon
  simp only
  cases hm : ((r.activeSnaps.toList.map Prod.fst).head?.toList ++ r.inProgress.head?.toList).min? with
  | none => exact le_rfl
  | some m =>
    have hmem := (List.min?_eq_some_iff.mp hm).1
    simp only [Option.getD_some]
    rcases List.mem_append.mp hmem with hm | hm
    · have hm := List.mem_of_mem_head? (Option.mem_toList.mp hm)
      obtain ⟨p,hp,rfl⟩ := List.mem_map.mp hm
      exact h.snaps p.1 p.2 (ExtTreeMap.mem_toList_iff_getElem?_eq_some.mp hp)
    · have hm := List.mem_of_mem_head? (Option.mem_toList.mp hm)
      exact (h.ids m _ (mem_inProgress.mp hm)).2.le

/-- Ids are given out and ended, and what has ended stays so. -/
structure Evolves (r r' : Registry) : Prop where
  next : r.next ≤ r'.next
  final : ∀ x : ℕ, x < r.next → r.status[x]? ≠ some .inProgress → r'.status[x]? = r.status[x]?
  fresh : ∀ x : ℕ, r'.status[x]? = some .inProgress → r.status[x]? = some .inProgress ∨ r.next ≤ x

theorem Evolves.refl (r : Registry) : Evolves r r := ⟨le_rfl,fun _ _ _ => rfl,fun _ h => Or.inl h⟩

theorem Evolves.trans {r r' r'' : Registry} (h : Evolves r r') (h' : Evolves r' r'') : Evolves r r'' := by
  refine ⟨h.next.trans h'.next,?_,?_⟩
  · intro x hx hin
    have hst := h.final x hx hin
    have hnext := h.next
    rw [h'.final x (by omega) (by rwa [hst]),hst]
  · intro x hx
    obtain hx | hx := h'.fresh x hx
    · exact h.fresh x hx
    · exact Or.inr (h.next.trans hx)

theorem begin_evolves (r : Registry) : Evolves r r.begin.2 := by
  refine ⟨Nat.le_succ _,?_,?_⟩
  · intro x hx _
    have hne : r.next ≠ x := by omega
    simp [begin,hne]
  · intro x hx
    by_cases hne : r.next = x
    · exact Or.inr hne.le
    · left
      simpa [begin,hne] using hx

theorem begin_inv {r : Registry} (h : Inv r) : Inv r.begin.2 where
  pos := Nat.le_succ_of_le h.pos
  ids x st hx := by
    have hpos := h.pos
    simp only [begin,Map.get_insert] at hx ⊢
    split_ifs at hx with hn
    · omega
    · have := h.ids x st hx
      omega
  snaps x n hx := Nat.le_succ_of_le (h.snaps x n hx)

theorem finish_ok {r r' : Registry} {x : ℕ} {st : XidStatus} (h : r.finish x st = .ok r') :
    r.status[x]? = some .inProgress ∧ r' = { r with status := r.status.insert x st } := by
  unfold finish at h
  split at h
  · rename_i hs
    simp only [Except.ok.injEq] at h
    exact ⟨hs,h.symm⟩
  · cases h

theorem finish_evolves {r r' : Registry} {x : ℕ} {st : XidStatus} (hst : st ≠ .inProgress)
    (h : r.finish x st = .ok r') : Evolves r r' := by
  obtain ⟨hs,rfl⟩ := finish_ok h
  refine ⟨le_rfl,?_,?_⟩
  · intro y hy hne
    have hxy : x ≠ y := by
      rintro rfl
      exact hne hs
    simp [hxy]
  · intro y hy
    simp only [Map.get_insert] at hy
    split_ifs at hy
    · exact absurd (Option.some.inj hy) hst
    · exact Or.inl hy

theorem finish_inv {r r' : Registry} {x : ℕ} {st : XidStatus} (hr : Inv r) (h : r.finish x st = .ok r') : Inv r' := by
  obtain ⟨hs,rfl⟩ := finish_ok h
  refine ⟨hr.pos,?_,hr.snaps⟩
  intro y st' hy
  simp only [Map.get_insert] at hy
  split_ifs at hy with hxy
  · subst hxy
    exact hr.ids x _ hs
  · exact hr.ids y _ hy

theorem finish_of {r : Registry} {x : ℕ} (h : r.status[x]? = some .inProgress) (st : XidStatus) :
    r.finish x st = .ok { r with status := r.status.insert x st } := by
  simp only [finish,h]

theorem beginSnapshot_inv {r : Registry} (h : Inv r) (my : ℕ) : Inv (r.beginSnapshot my).2 := by
  refine ⟨h.pos,h.ids,?_⟩
  intro x n hx
  simp only [beginSnapshot,Map.get_insert] at hx
  split_ifs at hx with heq
  · rw [← heq]
    simp only [snapshot,beginSnapshot]
    cases hl : r.inProgress.head? with
    | none => exact le_rfl
    | some y =>
      have hy := List.mem_of_mem_head? (Option.mem_def.mpr hl)
      exact (h.ids y _ (mem_inProgress.mp hy)).2.le
  · exact h.snaps x n hx

theorem releaseSnapshot_eq (r : Registry) (xmin : ℕ) :
    ∃ m, r.releaseSnapshot xmin = { r with activeSnaps := m } ∧
      ∀ (x : ℕ) (n : ℕ), m[x]? = some n → ∃ n', r.activeSnaps[x]? = some n' := by
  unfold releaseSnapshot
  split
  · exact ⟨r.activeSnaps,rfl,fun x n hx => ⟨n,hx⟩⟩
  · rename_i count hcount
    split_ifs
    · refine ⟨_,rfl,?_⟩
      intro x n hx
      simp only [Map.get_erase] at hx
      split_ifs at hx
      exact ⟨n,hx⟩
    · refine ⟨_,rfl,?_⟩
      intro x n hx
      simp only [Map.get_insert] at hx
      split_ifs at hx with heq
      · exact ⟨count,heq ▸ hcount⟩
      · exact ⟨n,hx⟩

end Registry

/-! ## Snapshots -/

namespace Snapshot

/-- A snapshot of a transaction in progress: everything in progress that it could see is in its
active set. -/
structure Sound (s : Snapshot) (r : Registry) : Prop where
  mine : r.status[s.myXid]? = some .inProgress
  below : s.myXid < s.xmax
  bound : s.xmax ≤ r.next
  active : ∀ x : ℕ, r.status[x]? = some .inProgress → x < s.xmax → x ∈ s.active

theorem sound_capture {r : Registry} (hr : r.Inv) {x : ℕ} (hx : r.status[x]? = some .inProgress) :
    Sound (r.snapshot x) r :=
  ⟨hx,(hr.ids x _ hx).2,le_rfl,fun _ hy _ => Registry.mem_inProgress.mpr hy⟩

theorem Sound.evolves {s : Snapshot} {r r' : Registry} (h : Sound s r) (he : r.Evolves r')
    (hm : r'.status[s.myXid]? = some .inProgress) : Sound s r' := by
  refine ⟨hm,h.below,h.bound.trans he.next,?_⟩
  intro x hx hlt
  have hb := h.bound
  rcases he.fresh x hx with hx | hx
  · exact h.active x hx hlt
  · omega

theorem Sound.stable {s : Snapshot} {r r' : Registry} (h : Sound s r) (he : r.Evolves r') (x : ℕ) :
    s.seesEffect r' x = s.seesEffect r x := by
  unfold seesEffect
  split_ifs with h₀ h₁ h₂ h₃
  · rfl
  · rfl
  · rfl
  · rfl
  · have hb := h.bound
    have hin : r.status[x]? ≠ some .inProgress := fun hx => h₃ (h.active x hx (by omega))
    rw [Registry.statusOf_congr (he.final x (by omega) hin)]

theorem Sound.hidden {s : Snapshot} {r : Registry} (h : Sound s r) {x : ℕ} (hx : r.status[x]? = some .inProgress)
    (hne : x ≠ s.myXid) : s.seesEffect r x = false := by
  unfold seesEffect
  split_ifs with h₀ h₁ h₂
  · rfl
  · rfl
  · rfl
  · exact absurd (h.active x hx (by omega)) h₂

theorem seesEffect_zero (s : Snapshot) (r : Registry) : s.seesEffect r invalidXid = false := by simp [seesEffect]

theorem seesEffect_capture {r : Registry} (hr : r.Inv) {x y : ℕ} (hxy : y ≠ x) (hy : y < r.next) :
    (r.snapshot x).seesEffect r y = decide (r.statusOf y = .committed) := by
  unfold seesEffect
  simp only [Registry.snapshot,Registry.mem_inProgress]
  split_ifs with h₀ h₁ h₂
  · simp [h₀,Registry.statusOf_zero]
  · omega
  · simp [hr.statusOf h₂]
  · rfl

end Snapshot

/-! ## Chains -/

section Chains
variable {V : Type}

/-- The version is what an observer finds committed. -/
def Version.isCurrent (r : Registry) (v : Version V) : Bool :=
  r.statusOf v.xmin = .committed && !decide (r.statusOf v.xmax = .committed)

/-- The transaction made or retired a version of the chain. -/
def Occurs (x : ℕ) (chain : List (Version V)) : Prop := ∃ v ∈ chain, v.xmin = x ∨ v.xmax = x

/-- Only the newest version may be live. -/
def Retired (chain : List (Version V)) : Prop := ∀ v ∈ chain.tail, v.isLive = false

theorem retire_live {x : ℕ} {v : Version V} (rest : List (Version V)) (h : v.isLive = true) :
    retire x (v :: rest) = some ({ v with xmax := x } :: rest) := by
  simp only [retire,h,if_true]

theorem retire_dead {x : ℕ} {chain : List (Version V)} (h : ∀ v ∈ chain, v.isLive = false) : retire x chain = none := by
  induction chain with
  | nil => rfl
  | cons v rest ih => simp [retire,h v (by simp),ih (fun u hu => h u (by simp [hu]))]

theorem retire_cases {x : ℕ} {chain : List (Version V)} (h : Retired chain) :
    (retire x chain = none ∧ ∀ v ∈ chain, v.isLive = false) ∨ ∃ v rest, chain = v :: rest ∧ v.isLive = true ∧
      retire x chain = some ({ v with xmax := x } :: rest) := by
  cases chain with
  | nil => exact Or.inl ⟨rfl,by simp⟩
  | cons v rest =>
    cases hv : v.isLive with
    | false =>
      have hall : ∀ u ∈ v :: rest, u.isLive = false := by
        intro u hu
        rcases List.mem_cons.mp hu with rfl | hu
        · exact hv
        · exact h u hu
      exact Or.inl ⟨retire_dead hall,hall⟩
    | true => exact Or.inr ⟨v,rest,rfl,hv,retire_live rest hv⟩

/-- The chain after a write of `x`. -/
def pushed (x : ℕ) (value : V) (chain : List (Version V)) : List (Version V) :=
  { xmin := x, value := value } :: (retire x chain).getD chain

theorem retire_getD {x : ℕ} {chain : List (Version V)} (h : Retired chain) :
    (retire x chain).getD chain = chain ∨ ∃ v rest, chain = v :: rest ∧ v.isLive = true ∧
      (retire x chain).getD chain = { v with xmax := x } :: rest := by
  rcases retire_cases h (x := x) with ⟨hr,-⟩ | ⟨v,rest,hc,hv,hr⟩
  · exact Or.inl (by rw [hr]; rfl)
  · exact Or.inr ⟨v,rest,hc,hv,by rw [hr]; rfl⟩

theorem retired_pushed {x : ℕ} (hx : x ≠ invalidXid) {value : V} {chain : List (Version V)} (h : Retired chain) :
    Retired (pushed x value chain) := by
  intro v hv
  simp only [pushed,List.tail_cons] at hv
  rcases retire_cases h (x := x) with ⟨hr,hdead⟩ | ⟨u,rest,rfl,-,hr⟩
  · rw [hr] at hv
    exact hdead v hv
  · rw [hr,Option.getD_some] at hv
    rcases List.mem_cons.mp hv with rfl | hv
    · simp [Version.isLive,hx]
    · exact h v hv

theorem find_retired {x : ℕ} {chain : List (Version V)} (h : Retired chain) {p : Version V → Bool}
    (hp : ∀ v ∈ chain, v.isLive = true → p { v with xmax := x } = p v) :
    (((retire x chain).getD chain).find? p).map Version.value = (chain.find? p).map Version.value := by
  rcases retire_getD h (x := x) with he | ⟨v,rest,rfl,hv,he⟩
  · rw [he]
  · rw [he,List.find?_cons,List.find?_cons,hp v (by simp) hv]
    cases p v <;> rfl

theorem find_pushed {x : ℕ} {value : V} {chain : List (Version V)} (h : Retired chain) {p : Version V → Bool}
    (hx : p { xmin := x, value := value } = false)
    (hp : ∀ v ∈ chain, v.isLive = true → p { v with xmax := x } = p v) :
    ((pushed x value chain).find? p).map Version.value = (chain.find? p).map Version.value := by
  rw [pushed,List.find?_cons,hx]
  exact find_retired h hp

theorem occurs_retired {x y : ℕ} {chain : List (Version V)} (h : Retired chain)
    (ho : Occurs y ((retire x chain).getD chain)) : y = x ∨ Occurs y chain := by
  rcases retire_getD h (x := x) with he | ⟨v,rest,rfl,hv,he⟩
  · rw [he] at ho
    exact Or.inr ho
  · rw [he] at ho
    obtain ⟨u,hu,hy⟩ := ho
    rcases List.mem_cons.mp hu with rfl | hu
    · rcases hy with rfl | rfl
      · exact Or.inr ⟨v,by simp,Or.inl rfl⟩
      · exact Or.inl rfl
    · exact Or.inr ⟨u,by simp [hu],hy⟩

theorem occurs_pushed {x y : ℕ} {value : V} {chain : List (Version V)} (h : Retired chain)
    (hy : y ≠ invalidXid) (ho : Occurs y (pushed x value chain)) : y = x ∨ Occurs y chain := by
  obtain ⟨u,hu,ho⟩ := ho
  rcases List.mem_cons.mp hu with rfl | hu
  · rcases ho with ho | ho
    · exact Or.inl ho.symm
    · exact absurd ho.symm hy
  · exact occurs_retired h ⟨u,hu,ho⟩

theorem mem_tail_filter {p : Version V → Bool} {chain : List (Version V)} {v : Version V}
    (h : v ∈ (chain.filter p).tail) : v ∈ chain.tail := by
  cases chain with
  | nil => simp at h
  | cons u rest =>
    rw [List.filter_cons] at h
    split_ifs at h
    · exact (List.mem_filter.mp h).1
    · exact (List.mem_filter.mp (List.mem_of_mem_tail h)).1

theorem find_filter {p q : Version V → Bool} {chain : List (Version V)} (h : ∀ v ∈ chain, p v = true → q v = true) :
    (chain.filter q).find? p = chain.find? p := by
  induction chain with
  | nil => rfl
  | cons v rest ih =>
    have hrest := ih (fun u hu => h u (by simp [hu]))
    rw [List.filter_cons]
    cases hp : p v with
    | true =>
      rw [if_pos (h v (by simp) hp)]
      simp [hp]
    | false =>
      split_ifs
      · simp [hp,hrest]
      · simp [hp,hrest]

end Chains

/-! ## The invariant -/

section System
variable {K V : Type} [Ord K] [TransOrd K] [LawfulEqOrd K] [DecidableEq K]

/-- A chain that an open transaction wrote: it holds the transaction's value at its end, or the
transaction retired its end and nothing else is left to be seen. -/
def Written (r : Registry) (chain : List (Version V)) (x : ℕ) : Option V → Prop
  | some value => chain.head? = some { xmin := x, value := value }
  | none => ∃ head, chain.head? = some head ∧ head.xmax = x ∧ r.statusOf head.xmin ≠ .aborted ∧
      ∀ v ∈ chain, r.statusOf v.xmin = .committed ∨ v.xmin = x → r.statusOf v.xmax = .committed ∨ v.xmax = x

/-- What holds of a chain. -/
structure ChainInv (r : Registry) (chain : List (Version V)) : Prop where
  known : ∀ v ∈ chain, 1 ≤ v.xmin ∧ v.xmin < r.next ∧ v.xmax < r.next
  retired : Retired chain
  own : ∀ v ∈ chain, r.status[v.xmin]? = some .inProgress → v.xmax = invalidXid ∨ v.xmax = v.xmin
  decides : ∀ x, r.status[x]? = some .inProgress → Occurs x chain → ∃ head, chain.head? = some head ∧ head.decider = x

structure TxInv (s : System K V) (x : ℕ) (tx : Transaction K V) : Prop where
  xid : tx.xid = x
  mine : tx.snapshot.myXid = x
  sound : tx.snapshot.Sound s.store.mgr
  wrote : ∀ (k : K) (w : Option V), tx.wrote[k]? = some w → Written s.store.mgr (s.store.chain k) x w
  view : tx.level.refreshesSnapshotPerStatement = false → ∀ k : K, s.store.get k tx.snapshot = tx.view k

namespace System

def current (s : System K V) (key : K) : Option V :=
  ((s.store.chain key).find? (fun v => v.isCurrent s.store.mgr)).map Version.value

structure Inv (s : System K V) : Prop where
  mgr : s.store.mgr.Inv
  chains : ∀ k, ChainInv s.store.mgr (s.store.chain k)
  begun : ∀ (x : ℕ) (level : IsolationLevel), s.begun[x]? = some level →
    s.store.mgr.status[x]? = some .inProgress ∧ s.txs[x]? = none
  txs : ∀ (x : ℕ) (tx : Transaction K V), s.txs[x]? = some tx → TxInv s x tx
  owned : ∀ (k : K) (x : ℕ), s.store.mgr.status[x]? = some .inProgress → Occurs x (s.store.chain k) →
    ∃ tx, s.txs[x]? = some tx ∧ (tx.wrote[k]?).isSome
  horizons : ∀ (c h : ℕ), s.collectors[c]? = some h → h ≤ s.store.mgr.next ∧
    ∀ x, s.store.mgr.status[x]? = some .inProgress → h ≤ x
  latest : ∀ k, s.current k = s.latest k

/-! ## The registry moves on -/

theorem statusOf_evolves {r r' : Registry} (he : r.Evolves r') {x : ℕ} (hx : x < r.next)
    (hn : r.status[x]? ≠ some .inProgress) : r'.statusOf x = r.statusOf x :=
  Registry.statusOf_congr (he.final x hx hn)

theorem get_evolves {s s' : VersionedStore K V} {snapshot : Snapshot} (hs : snapshot.Sound s.mgr)
    (he : s.mgr.Evolves s'.mgr) {k : K} (hc : s'.chain k = s.chain k) :
    s'.get k snapshot = s.get k snapshot := by
  simp only [VersionedStore.get,VersionedStore.resolve,hc,Version.isVisible,hs.stable he]

end System

theorem TxInv.status {s : System K V} {x : ℕ} {tx : Transaction K V} (h : TxInv s x tx) :
    s.store.mgr.status[x]? = some .inProgress := h.mine ▸ h.sound.mine

theorem ChainInv.occurs_lt {r : Registry} {chain : List (Version V)} (h : ChainInv r chain) {x : ℕ}
    (ho : Occurs x chain) : x < r.next := by
  obtain ⟨v,hv,hx⟩ := ho
  have := h.known v hv
  omega

theorem ChainInv.inProgress {r r' : Registry} {chain : List (Version V)} (h : ChainInv r chain) (he : r.Evolves r')
    {x : ℕ} (hx : r'.status[x]? = some .inProgress) (ho : Occurs x chain) : r.status[x]? = some .inProgress := by
  have := h.occurs_lt ho
  exact (he.fresh x hx).resolve_right (by omega)

theorem ChainInv.evolves {r r' : Registry} {chain : List (Version V)} (h : ChainInv r chain) (he : r.Evolves r') :
    ChainInv r' chain where
  known v hv := by
    have := h.known v hv
    have := he.next
    omega
  retired := h.retired
  own v hv hx := h.own v hv (h.inProgress he hx ⟨v,hv,Or.inl rfl⟩)
  decides x hx ho := h.decides x (h.inProgress he hx ho) ho

theorem Written.evolves {r r' : Registry} {chain : List (Version V)} (hr : r.Inv) (hr' : r'.Inv)
    (hc : ChainInv r chain) (he : r.Evolves r') {x : ℕ} {w : Option V} (h : Written r chain x w)
    (hx : r.status[x]? = some .inProgress) (hx' : r'.status[x]? = some .inProgress) : Written r' chain x w := by
  cases w with
  | some value => exact h
  | none =>
    obtain ⟨head,hhead,hxmax,hab,hall⟩ := h
    -- the transaction is the only one under way in the chain
    have honly : ∀ y, r.status[y]? = some .inProgress → Occurs y chain → y = x := by
      intro y hy ho
      obtain ⟨head',hh,hd⟩ := hc.decides y hy ho
      obtain rfl : head = head' := Option.some.inj (hhead.symm.trans hh)
      have hlive : head.isLive = false := by
        simp only [Version.isLive,decide_eq_false_iff_not,hxmax]
        exact hr.ne_invalid hx
      rw [← hd,Version.decider,hlive,← hxmax]
      rfl
    have hmem := List.mem_of_mem_head? (Option.mem_def.mpr hhead)
    refine ⟨head,hhead,hxmax,?_,?_⟩
    · by_cases hin : r.status[head.xmin]? = some .inProgress
      · rw [honly _ hin ⟨head,hmem,Or.inl rfl⟩,hr'.statusOf hx']
        decide
      · rw [System.statusOf_evolves he (hc.known head hmem).2.1 hin]
        exact hab
    · intro v hv hmin
      have hmin : r.statusOf v.xmin = .committed ∨ v.xmin = x := by
        by_cases hin : r.status[v.xmin]? = some .inProgress
        · exact Or.inr (honly _ hin ⟨v,hv,Or.inl rfl⟩)
        · rwa [System.statusOf_evolves he (hc.known v hv).2.1 hin] at hmin
      rcases hall v hv hmin with hcom | hown
      · left
        rw [System.statusOf_evolves he (hc.known v hv).2.2]
        · exact hcom
        · intro hin
          rw [hr.statusOf hin] at hcom
          cases hcom
      · exact Or.inr hown

theorem TxInv.evolves {s s' : System K V} (h : s.Inv) (hr : s'.store.mgr.Inv) (he : s.store.mgr.Evolves s'.store.mgr)
    (hc : ∀ k, s'.store.chain k = s.store.chain k) {x : ℕ} {tx : Transaction K V} (ht : TxInv s x tx)
    (hx : s'.store.mgr.status[x]? = some .inProgress) : TxInv s' x tx where
  xid := ht.xid
  mine := ht.mine
  sound := ht.sound.evolves he (ht.mine.symm ▸ hx)
  wrote k w hw := by
    rw [hc k]
    exact (ht.wrote k w hw).evolves h.mgr hr (h.chains k) he ht.status hx
  view hl k := (System.get_evolves ht.sound he (hc k)).trans (ht.view hl k)

namespace System

theorem owned_evolves {s s' : System K V} (h : Inv s) (he : s.store.mgr.Evolves s'.store.mgr)
    (hc : ∀ k, s'.store.chain k = s.store.chain k) {k : K} {x : ℕ}
    (hx : s'.store.mgr.status[x]? = some .inProgress) (ho : Occurs x (s'.store.chain k)) :
    ∃ tx, s.txs[x]? = some tx ∧ (tx.wrote[k]?).isSome := by
  rw [hc k] at ho
  exact h.owned k x ((h.chains k).inProgress he hx ho) ho

theorem horizons_evolves {s s' : System K V} (h : Inv s) (he : s.store.mgr.Evolves s'.store.mgr) {c z : ℕ}
    (hc : s.collectors[c]? = some z) :
    z ≤ s'.store.mgr.next ∧ ∀ x, s'.store.mgr.status[x]? = some .inProgress → z ≤ x := by
  obtain ⟨hle,hall⟩ := h.horizons c z hc
  refine ⟨hle.trans he.next,?_⟩
  intro x hx
  rcases he.fresh x hx with hx | hx
  · exact hall x hx
  · exact hle.trans hx

theorem current_congr {s s' : System K V} {k : K} (hc : s'.store.chain k = s.store.chain k)
    (hs : ∀ v ∈ s.store.chain k, v.isCurrent s'.store.mgr = v.isCurrent s.store.mgr) :
    s'.current k = s.current k := by
  simp only [current,hc]
  exact congrArg (Option.map Version.value) (List.find?_congr hs)

theorem begin_inv {s : System K V} (h : Inv s) (level : IsolationLevel) : Inv (s.step (.begin level)) := by
  have he : s.store.mgr.Evolves (s.step (.begin level)).store.mgr := s.store.mgr.begin_evolves
  have hr : (s.step (.begin level)).store.mgr.Inv := Registry.begin_inv h.mgr
  have hold : ∀ x : ℕ, x < s.store.mgr.next →
      (s.step (.begin level)).store.mgr.status[x]? = s.store.mgr.status[x]? := by
    intro x hx
    have hne : s.store.mgr.next ≠ x := by omega
    simp [step,Registry.begin,hne]
  refine ⟨hr,fun k => (h.chains k).evolves he,?_,?_,?_,?_,?_⟩
  · intro x l hx
    simp only [step,Map.get_insert] at hx
    split_ifs at hx with hn
    · subst hn
      refine ⟨by simp [step,Registry.begin],?_⟩
      rw [Option.eq_none_iff_forall_ne_some]
      intro tx htx
      have := (h.mgr.ids _ _ (h.txs _ tx htx).status).2
      simp [Registry.begin] at this
    · obtain ⟨hs,ht⟩ := h.begun x l hx
      exact ⟨(hold x (h.mgr.ids x _ hs).2).trans hs,ht⟩
  · intro x tx htx
    have hx := h.txs x tx htx
    exact hx.evolves h hr he (fun _ => rfl) ((hold x (h.mgr.ids x _ hx.status).2).trans hx.status)
  · intro k x hx ho
    exact owned_evolves h he (fun _ => rfl) hx ho
  · intro c z hc
    exact horizons_evolves h he hc
  · intro k
    refine (current_congr (by rfl) ?_).trans (h.latest k)
    intro v hv
    have hknown := (h.chains k).known v hv
    simp only [Version.isCurrent,Registry.statusOf_congr (hold _ hknown.2.1),Registry.statusOf_congr (hold _ hknown.2.2)]

/-- The values after a commit. -/
def committing (s : System K V) (tx : Transaction K V) : K → Option V :=
  fun key => (tx.wrote[key]?).getD (s.latest key)

/-- A commit makes what the transaction wrote current. -/
theorem current_commit {s s' : System K V} (h : Inv s) {x : ℕ} {tx : Transaction K V} (htx : s.txs[x]? = some tx)
    (hm : s'.store.mgr.status = s.store.mgr.status.insert x .committed)
    (hc : ∀ k, s'.store.chain k = s.store.chain k) (k : K) : s'.current k = s.committing tx k := by
  have ht := h.txs x tx htx
  have hne : x ≠ invalidXid := h.mgr.ne_invalid ht.status
  have hx : s'.store.mgr.statusOf x = .committed := by simp [Registry.statusOf,hne,hm]
  have hother : ∀ y, y ≠ x → s'.store.mgr.statusOf y = s.store.mgr.statusOf y := by
    intro y hy
    simp [Registry.statusOf,hm,hy.symm]
  unfold committing
  cases hw : tx.wrote[k]? with
  | none =>
    refine (current_congr (hc k) ?_).trans (h.latest k)
    intro v hv
    have hmiss : ¬ Occurs x (s.store.chain k) := by
      intro ho
      obtain ⟨tx',htx',hsome⟩ := h.owned k x ht.status ho
      obtain rfl : tx = tx' := Option.some.inj (htx.symm.trans htx')
      rw [hw] at hsome
      cases hsome
    have hmin : v.xmin ≠ x := fun he => hmiss ⟨v,hv,Or.inl he⟩
    have hmax : v.xmax ≠ x := fun he => hmiss ⟨v,hv,Or.inr he⟩
    simp only [Version.isCurrent,hother _ hmin,hother _ hmax]
  | some w =>
    have hwr := ht.wrote k w hw
    cases w with
    | some value =>
      cases hch : s.store.chain k with
      | nil => simp [Written,hch] at hwr
      | cons v rest =>
        obtain rfl : v = { xmin := x, value := value } := by simpa [Written,hch] using hwr
        simp [current,hc k,hch,Version.isCurrent,hx,Registry.statusOf_zero]
    | none =>
      obtain ⟨head,hhead,hxmax,hab,hall⟩ := hwr
      have hnone : (s'.store.chain k).find? (fun v => v.isCurrent s'.store.mgr) = none := by
        rw [hc k,List.find?_eq_none]
        intro v hv hcur
        simp only [Version.isCurrent,Bool.and_eq_true,decide_eq_true_eq,Bool.not_eq_true',decide_eq_false_iff_not] at hcur
        obtain ⟨hmin,hmax⟩ := hcur
        have hmin : s.store.mgr.statusOf v.xmin = .committed ∨ v.xmin = x := by
          by_cases hv : v.xmin = x
          · exact Or.inr hv
          · rw [hother _ hv] at hmin
            exact Or.inl hmin
        by_cases hxv : v.xmax = x
        · exact hmax (hxv ▸ hx)
        · rw [hother _ hxv] at hmax
          exact (hall v hv hmin).elim hmax hxv
      simp [current,hnone]

/-- A transaction ends. -/
theorem ended_inv {s s' : System K V} (h : Inv s) {x : ℕ} {tx : Transaction K V} (htx : s.txs[x]? = some tx)
    {st : XidStatus} (hst : st ≠ .inProgress) (hf : s.store.mgr.finish x st = .ok s'.store.mgr)
    (hch : s'.store.chains = s.store.chains) (hb : s'.begun = s.begun) (ht : s'.txs = s.txs.erase x)
    (hcol : s'.collectors = s.collectors)
    (hl : s'.latest = if st = .committed then s.committing tx else s.latest) : Inv s' := by
  have he := Registry.finish_evolves hst hf
  have hr := Registry.finish_inv h.mgr hf
  obtain ⟨hin,hm⟩ := Registry.finish_ok hf
  have hc : ∀ k, s'.store.chain k = s.store.chain k := fun k => by simp only [VersionedStore.chain,hch]
  have hold : ∀ y : ℕ, y ≠ x → s'.store.mgr.status[y]? = s.store.mgr.status[y]? := by
    intro y hy
    simp [hm,hy.symm]
  have hgone : s'.store.mgr.status[x]? = some st := by simp [hm]
  refine ⟨hr,fun k => by rw [hc k]; exact (h.chains k).evolves he,?_,?_,?_,?_,?_⟩
  · intro y l hy
    rw [hb] at hy
    obtain ⟨hs,hnone⟩ := h.begun y l hy
    have hyx : y ≠ x := by
      rintro rfl
      rw [htx] at hnone
      cases hnone
    exact ⟨(hold y hyx).trans hs,by simp [ht,hnone]⟩
  · intro y ty hy
    rw [ht,Map.get_erase] at hy
    split_ifs at hy with hxy
    have hty := h.txs y ty hy
    exact hty.evolves h hr he hc ((hold y (Ne.symm hxy)).trans hty.status)
  · intro k y hy ho
    have hyx : y ≠ x := by
      rintro rfl
      rw [hgone] at hy
      exact hst (Option.some.inj hy)
    obtain ⟨ty,hty,hsome⟩ := owned_evolves h he hc hy ho
    exact ⟨ty,by simp [ht,hyx.symm,hty],hsome⟩
  · intro c z hz
    rw [hcol] at hz
    exact horizons_evolves h he hz
  · intro k
    rw [hl]
    split_ifs with hcommit
    · subst hcommit
      exact current_commit h htx (by rw [hm]) hc k
    · refine (current_congr (hc k) ?_).trans (h.latest k)
      intro v hv
      have hsame : ∀ y, decide (s'.store.mgr.statusOf y = .committed) = decide (s.store.mgr.statusOf y = .committed) := by
        intro y
        by_cases hy : y = x
        · subst hy
          rw [hr.statusOf hgone,h.mgr.statusOf hin]
          simp [hcommit]
        · rw [Registry.statusOf_congr (hold y hy)]
      simp only [Version.isCurrent,hsame]

/-! ## Sections that leave the versions alone -/

theorem commit_inv {s : System K V} (h : Inv s) (x : ℕ) : Inv (s.step (.commit x)) := by
  cases htx : s.txs[x]? with
  | none => simpa only [step,htx] using h
  | some tx =>
    have ht := h.txs x tx htx
    have hcommit : s.store.mgr.commit tx.xid = .ok { s.store.mgr with status := s.store.mgr.status.insert x .committed } := by
      rw [ht.xid]
      exact Registry.finish_of ht.status .committed
    have habort : s.store.mgr.abort tx.xid = .ok { s.store.mgr with status := s.store.mgr.status.insert x .aborted } := by
      rw [ht.xid]
      exact Registry.finish_of ht.status .aborted
    have hdone : ∀ s', s.commitTx tx = (.ok (),s') → s' = { s.store with
          mgr := { s.store.mgr with status := s.store.mgr.status.insert x .committed } } := by
      intro s' hs'
      simp only [commitTx,VersionedStore.commitSerializable,hcommit,habort] at hs'
      split_ifs at hs'
      · split at hs' <;> simp_all
      · simp_all
    have hundone : ∀ err s', s.commitTx tx = (.error err,s') → s' = { s.store with
          mgr := { s.store.mgr with status := s.store.mgr.status.insert x .aborted } } := by
      intro err s' hs'
      simp only [commitTx,VersionedStore.commitSerializable,hcommit,habort] at hs'
      split_ifs at hs'
      · split at hs' <;> simp_all
      · simp_all
    simp only [step,htx]
    rcases hr : s.commitTx tx with ⟨r,s'⟩
    cases r with
    | ok u =>
      obtain rfl := hdone s' hr
      exact ended_inv h htx (by decide) (Registry.finish_of ht.status .committed) rfl rfl rfl rfl rfl
    | error err =>
      obtain rfl := hundone err s' hr
      exact ended_inv h htx (by decide) (Registry.finish_of ht.status .aborted) rfl rfl rfl rfl rfl

theorem abort_inv {s : System K V} (h : Inv s) (x : ℕ) : Inv (s.step (.abort x)) := by
  cases htx : s.txs[x]? with
  | none => simpa only [step,htx] using h
  | some tx =>
    have ht := h.txs x tx htx
    have habort : s.store.mgr.abort tx.xid = .ok { s.store.mgr with status := s.store.mgr.status.insert x .aborted } := by
      rw [ht.xid]
      exact Registry.finish_of ht.status .aborted
    simp only [step,htx,habort]
    exact ended_inv h htx (by decide) (Registry.finish_of ht.status .aborted) rfl rfl rfl rfl rfl

theorem get_capture {s : System K V} (h : Inv s) {x : ℕ} (hmiss : ∀ k, ¬ Occurs x (s.store.chain k)) (k : K) :
    s.store.get k (s.store.mgr.snapshot x) = s.latest k := by
  rw [← h.latest k]
  refine congrArg (Option.map Version.value) (List.find?_congr ?_)
  intro v hv
  have hknown := (h.chains k).known v hv
  have hmin : v.xmin ≠ x := fun he => hmiss k ⟨v,hv,Or.inl he⟩
  have hmax : v.xmax ≠ x := fun he => hmiss k ⟨v,hv,Or.inr he⟩
  simp only [Version.isVisible,Version.isCurrent,Snapshot.seesEffect_capture h.mgr hmin hknown.2.1,
    Snapshot.seesEffect_capture h.mgr hmax hknown.2.2]

theorem capture_inv {s : System K V} (h : Inv s) (x : ℕ) : Inv (s.step (.capture x)) := by
  cases hb : s.begun[x]? with
  | none => simpa only [step,hb] using h
  | some level =>
    obtain ⟨hs,hnone⟩ := h.begun x level hb
    simp only [step,hb]
    refine ⟨h.mgr,h.chains,?_,?_,?_,h.horizons,h.latest⟩
    · intro y l hy
      simp only [Map.get_erase] at hy
      split_ifs at hy with hxy
      obtain ⟨hys,hyn⟩ := h.begun y l hy
      exact ⟨hys,by simp [hxy,hyn]⟩
    · intro y ty hy
      simp only [Map.get_insert] at hy
      split_ifs at hy with hxy
      · subst hxy
        obtain rfl := Option.some.inj hy
        refine ⟨rfl,rfl,Snapshot.sound_capture h.mgr hs,?_,?_⟩
        · intro k w hw
          simp at hw
        · intro _ k
          refine get_capture h ?_ k
          intro k ho
          obtain ⟨tx,htx,-⟩ := h.owned k x hs ho
          rw [hnone] at htx
          cases htx
      · have hty := h.txs y ty hy
        exact ⟨hty.xid,hty.mine,hty.sound,hty.wrote,hty.view⟩
    · intro k y hy ho
      obtain ⟨ty,hty,hsome⟩ := h.owned k y hy ho
      have hxy : x ≠ y := by
        rintro rfl
        rw [hnone] at hty
        cases hty
      exact ⟨ty,by simp [hxy,hty],hsome⟩

theorem replaced_inv {s : System K V} (h : Inv s) {x : ℕ} {tx tx' : Transaction K V} (htx : s.txs[x]? = some tx)
    (hinv : TxInv s x tx') (hw : tx'.wrote = tx.wrote) : Inv { s with txs := s.txs.insert x tx' } := by
  refine ⟨h.mgr,h.chains,?_,?_,?_,h.horizons,h.latest⟩
  · intro y l hy
    obtain ⟨hys,hyn⟩ := h.begun y l hy
    have hxy : x ≠ y := by
      rintro rfl
      rw [htx] at hyn
      cases hyn
    exact ⟨hys,by simp [hxy,hyn]⟩
  · intro y ty hy
    simp only [Map.get_insert] at hy
    split_ifs at hy with hxy
    · subst hxy
      obtain rfl := Option.some.inj hy
      exact ⟨hinv.xid,hinv.mine,hinv.sound,hinv.wrote,hinv.view⟩
    · have hty := h.txs y ty hy
      exact ⟨hty.xid,hty.mine,hty.sound,hty.wrote,hty.view⟩
  · intro k y hy ho
    obtain ⟨ty,hty,hsome⟩ := h.owned k y hy ho
    by_cases hxy : x = y
    · subst hxy
      obtain rfl : tx = ty := Option.some.inj (htx.symm.trans hty)
      exact ⟨tx',by simp,hw ▸ hsome⟩
    · exact ⟨ty,by simp [hxy,hty],hsome⟩

theorem txInv_before {s : System K V} (h : Inv s) {x : ℕ} {tx : Transaction K V} (ht : TxInv s x tx) :
    TxInv s x (tx.beforeStatement s) := by
  unfold Transaction.beforeStatement
  split_ifs with hl
  · refine ⟨ht.xid,ht.xid,?_,ht.wrote,?_⟩
    · exact ht.xid ▸ Snapshot.sound_capture h.mgr (ht.xid ▸ ht.status)
    · intro hl'
      simp [hl] at hl'
  · exact ht

@[simp] theorem before_wrote (s : System K V) (tx : Transaction K V) : (tx.beforeStatement s).wrote = tx.wrote := by
  unfold Transaction.beforeStatement
  split_ifs <;> rfl

@[simp] theorem before_level (s : System K V) (tx : Transaction K V) : (tx.beforeStatement s).level = tx.level := by
  unfold Transaction.beforeStatement
  split_ifs <;> rfl

theorem get_inv {s : System K V} (h : Inv s) (x : ℕ) (key : K) : Inv (s.step (.get x key)) := by
  cases htx : s.txs[x]? with
  | none => simpa only [step,htx] using h
  | some tx =>
    have hb := txInv_before h (h.txs x tx htx)
    simp only [step,htx]
    refine replaced_inv h htx ?_ ?_
    · simp only [Transaction.get]
      split_ifs
      · exact ⟨hb.xid,hb.mine,hb.sound,hb.wrote,hb.view⟩
      · exact hb
    · simp only [Transaction.get]
      split_ifs <;> simp

theorem beginSnapshot_inv {s : System K V} (h : Inv s) (my : ℕ) : Inv (s.step (.beginSnapshot my)) := by
  refine ⟨Registry.beginSnapshot_inv h.mgr my,fun k => ⟨(h.chains k).known,(h.chains k).retired,(h.chains k).own,
    (h.chains k).decides⟩,h.begun,?_,h.owned,h.horizons,h.latest⟩
  intro x tx htx
  have ht := h.txs x tx htx
  exact ⟨ht.xid,ht.mine,⟨ht.sound.mine,ht.sound.below,ht.sound.bound,ht.sound.active⟩,ht.wrote,ht.view⟩

theorem releaseSnapshot_inv {s : System K V} (h : Inv s) (xmin : ℕ) : Inv (s.step (.releaseSnapshot xmin)) := by
  obtain ⟨m,hm,hsub⟩ := Registry.releaseSnapshot_eq s.store.mgr xmin
  simp only [step,hm]
  refine ⟨⟨h.mgr.pos,h.mgr.ids,?_⟩,fun k => ⟨(h.chains k).known,(h.chains k).retired,(h.chains k).own,
    (h.chains k).decides⟩,h.begun,?_,h.owned,h.horizons,h.latest⟩
  · intro x n hx
    obtain ⟨n',hx'⟩ := hsub x n hx
    exact h.mgr.snaps x n' hx'
  · intro x tx htx
    have ht := h.txs x tx htx
    exact ⟨ht.xid,ht.mine,⟨ht.sound.mine,ht.sound.below,ht.sound.bound,ht.sound.active⟩,ht.wrote,ht.view⟩

theorem readHorizon_inv {s : System K V} (h : Inv s) (c : ℕ) : Inv (s.step (.readHorizon c)) := by
  refine ⟨h.mgr,h.chains,h.begun,?_,h.owned,?_,h.latest⟩
  · intro x tx htx
    have ht := h.txs x tx htx
    exact ⟨ht.xid,ht.mine,ht.sound,ht.wrote,ht.view⟩
  · intro d z hd
    simp only [step,Map.get_insert] at hd
    split_ifs at hd
    · obtain rfl := Option.some.inj hd
      exact ⟨Registry.gcHorizon_le_next h.mgr,fun x hx => s.store.mgr.gcHorizon_le_inProgress hx⟩
    · exact h.horizons d z hd

/-! ## Writes -/

/-- The chain of a key is replaced by one that `x` wrote. -/
def wroteTo (s : System K V) (x : ℕ) (tx : Transaction K V) (key : K) (chain : List (Version V)) (w : Option V) :
    System K V :=
  { s with
    store := { s.store with chains := s.store.chains.insert key chain }
    txs := s.txs.insert x (tx.wroteTo { s.store with chains := s.store.chains.insert key chain } key w) }

theorem chain_insert (s : VersionedStore K V) (key k : K) (chain : List (Version V)) :
    ({ s with chains := s.chains.insert key chain } : VersionedStore K V).chain k =
      if key = k then chain else s.chain k := by
  simp only [VersionedStore.chain,Map.get_insert]
  split_ifs <;> rfl

theorem unopposed {s : System K V} (h : Inv s) {x : ℕ} {tx : Transaction K V} (ht : TxInv s x tx) {key : K}
    (hc : s.store.conflictingWriter (s.store.chain key) x tx.snapshot = none) {y : ℕ}
    (hy : s.store.mgr.status[y]? = some .inProgress) (ho : Occurs y (s.store.chain key)) : y = x := by
  obtain ⟨head,hhead,hd⟩ := (h.chains key).decides y hy ho
  by_contra hne
  have hhidden := ht.sound.hidden hy (ht.mine ▸ hne)
  have hzero := h.mgr.ne_invalid hy
  simp [VersionedStore.conflictingWriter,hhead,hd,hne,hzero,hhidden,h.mgr.statusOf hy] at hc

theorem unwritten {s : System K V} (h : Inv s) {x y : ℕ} (hxy : y ≠ x) {tx ty : Transaction K V} (ht : TxInv s x tx)
    (hy : TxInv s y ty) {key : K} (hc : s.store.conflictingWriter (s.store.chain key) x tx.snapshot = none) :
    ty.wrote[key]? = none := by
  cases hw : ty.wrote[key]? with
  | none => rfl
  | some w =>
    refine absurd (unopposed h ht hc hy.status ?_) hxy
    have hwr := hy.wrote key w hw
    cases w with
    | some value => exact ⟨_,List.mem_of_mem_head? (Option.mem_def.mpr hwr),Or.inl rfl⟩
    | none =>
      obtain ⟨head,hhead,hxmax,-⟩ := hwr
      exact ⟨head,List.mem_of_mem_head? (Option.mem_def.mpr hhead),Or.inr hxmax⟩

/-- What a write of `x` makes of the chain of a key. -/
structure Writes (s : System K V) (x : ℕ) (key : K) (chain : List (Version V)) (w : Option V) : Prop where
  known : ∀ v ∈ chain, 1 ≤ v.xmin ∧ v.xmin < s.store.mgr.next ∧ v.xmax < s.store.mgr.next
  retired : Retired chain
  own : ∀ v ∈ chain, s.store.mgr.status[v.xmin]? = some .inProgress → v.xmax = invalidXid ∨ v.xmax = v.xmin
  occurs : ∀ y, s.store.mgr.status[y]? = some .inProgress → Occurs y chain → y = x ∨ Occurs y (s.store.chain key)
  head : ∃ head, chain.head? = some head ∧ head.decider = x
  written : Written s.store.mgr chain x w
  find : ∀ p : Version V → Bool, (∀ value, p { xmin := x, value := value } = false) →
    (∀ v ∈ s.store.chain key, v.isLive = true → p { v with xmax := x } = p v) →
      (chain.find? p).map Version.value = ((s.store.chain key).find? p).map Version.value

theorem wroteTo_inv {s : System K V} (h : Inv s) {x : ℕ} {tx : Transaction K V} (htx : (s.txs[x]?).isSome)
    (ht : TxInv s x tx) (hwrote : ∀ tx₀, s.txs[x]? = some tx₀ → tx.wrote = tx₀.wrote) {key : K} {w : Option V}
    {chain : List (Version V)} (hc : s.store.conflictingWriter (s.store.chain key) x tx.snapshot = none)
    (hw : Writes s x key chain w) : Inv (s.wroteTo x tx key chain w) := by
  have hx := ht.status
  have hmgr : (s.wroteTo x tx key chain w).store.mgr = s.store.mgr := rfl
  have hchain : ∀ k, (s.wroteTo x tx key chain w).store.chain k = if key = k then chain else s.store.chain k :=
    fun k => chain_insert s.store key k chain
  have hmine : ∀ y, s.store.mgr.status[y]? = some .inProgress → Occurs y chain → y = x := by
    intro y hy ho
    exact (hw.occurs y hy ho).elim id (unopposed h ht hc hy)
  have hfound : ∀ (y : ℕ) (ty : Transaction K V), y ≠ x → TxInv s y ty →
      (s.wroteTo x tx key chain w).store.get key ty.snapshot = s.store.get key ty.snapshot := by
    intro y ty hyx hty
    have hhid : ty.snapshot.seesEffect s.store.mgr x = false := hty.sound.hidden hx (hty.mine ▸ Ne.symm hyx)
    simp only [VersionedStore.get,VersionedStore.resolve,hchain,hmgr,if_true]
    refine hw.find _ ?_ ?_
    · intro value
      simp [Version.isVisible,hhid]
    · intro v hv hlive
      have hz : v.xmax = invalidXid := by simpa [Version.isLive] using hlive
      simp only [Version.isVisible,hz,Snapshot.seesEffect_zero,hhid]
  have hother : ∀ (k : K), key ≠ k → ∀ snapshot, (s.wroteTo x tx key chain w).store.get k snapshot =
      s.store.get k snapshot := by
    intro k hk snapshot
    simp only [VersionedStore.get,VersionedStore.resolve,hchain k,if_neg hk,hmgr]
  refine ⟨h.mgr,?_,?_,?_,?_,h.horizons,?_⟩
  · intro k
    rw [hchain k]
    split_ifs
    · refine ⟨hw.known,hw.retired,hw.own,?_⟩
      intro y hy ho
      obtain rfl := hmine y hy ho
      exact hw.head
    · exact h.chains k
  · intro y l hy
    obtain ⟨hys,hyn⟩ := h.begun y l hy
    have hxy : x ≠ y := by
      rintro rfl
      rw [hyn] at htx
      cases htx
    exact ⟨hys,by simp [wroteTo,hxy,hyn]⟩
  · intro y ty hy
    simp only [wroteTo,Map.get_insert] at hy
    split_ifs at hy with hxy
    · subst hxy
      obtain rfl := Option.some.inj hy
      refine ⟨ht.xid,ht.mine,ht.sound,?_,?_⟩
      · intro k w' hw'
        rw [hchain k]
        simp only [Transaction.wroteTo,Map.get_insert] at hw'
        split_ifs at hw' ⊢
        · obtain rfl := Option.some.inj hw'
          exact hw.written
        · exact ht.wrote k w' hw'
      · intro hl k
        by_cases hk : key = k
        · subst hk
          exact (Function.update_self key _ tx.view).symm
        · simp only [Transaction.wroteTo,Function.update_of_ne (Ne.symm hk)]
          exact (hother k hk tx.snapshot).trans (ht.view hl k)
    · have hty := h.txs y ty hy
      refine ⟨hty.xid,hty.mine,hty.sound,?_,?_⟩
      · intro k w' hw'
        rw [hchain k]
        split_ifs with hk
        · subst hk
          rw [unwritten h (Ne.symm hxy) ht hty hc] at hw'
          cases hw'
        · exact hty.wrote k w' hw'
      · intro hl k
        by_cases hk : key = k
        · subst hk
          exact (hfound y ty (Ne.symm hxy) hty).trans (hty.view hl key)
        · exact (hother k hk ty.snapshot).trans (hty.view hl k)
  · intro k y hy ho
    rw [hchain k] at ho
    split_ifs at ho with hk
    · obtain rfl := hmine y hy ho
      exact ⟨_,ExtTreeMap.getElem?_insert_self,by simp [Transaction.wroteTo,hk]⟩
    · obtain ⟨ty,hty,hsome⟩ := h.owned k y hy ho
      by_cases hxy : x = y
      · subst hxy
        refine ⟨_,ExtTreeMap.getElem?_insert_self,?_⟩
        simp only [Transaction.wroteTo,Map.get_insert,if_neg hk,hwrote ty hty]
        exact hsome
      · exact ⟨ty,by simp [wroteTo,hxy,hty],hsome⟩
  · intro k
    refine Eq.trans ?_ (h.latest k)
    simp only [current,hchain k]
    split_ifs with hk
    · subst hk
      have hst : s.store.mgr.statusOf x ≠ .committed := by
        rw [h.mgr.statusOf hx]
        decide
      refine hw.find _ ?_ ?_
      · intro value
        simp [Version.isCurrent,hmgr,hst]
      · intro v hv hlive
        have hz : v.xmax = invalidXid := by simpa [Version.isLive] using hlive
        simp [Version.isCurrent,hmgr,hz,hst,Registry.statusOf_zero]
    · rfl

theorem put_writes {s : System K V} (h : Inv s) {x : ℕ} {tx : Transaction K V} (ht : TxInv s x tx) {key : K}
    (hc : s.store.conflictingWriter (s.store.chain key) x tx.snapshot = none) (value : V) :
    Writes s x key (pushed x value (s.store.chain key)) (some value) := by
  have hch := h.chains key
  have hx := h.mgr.ids x _ ht.status
  have hzero := h.mgr.ne_invalid ht.status
  refine ⟨?_,retired_pushed hzero hch.retired,?_,?_,⟨_,rfl,rfl⟩,rfl,?_⟩
  · intro v hv
    rcases List.mem_cons.mp hv with rfl | hv
    · exact ⟨hx.1,hx.2,h.mgr.pos⟩
    · rcases retire_getD hch.retired (x := x) with he | ⟨u,rest,hu,hlive,he⟩
      · rw [he] at hv
        exact hch.known v hv
      · rw [he] at hv
        rcases List.mem_cons.mp hv with rfl | hv
        · have := hch.known u (by simp [hu])
          exact ⟨this.1,this.2.1,hx.2⟩
        · exact hch.known v (by simp [hu,hv])
  · intro v hv hin
    rcases List.mem_cons.mp hv with rfl | hv
    · exact Or.inl rfl
    · rcases retire_getD hch.retired (x := x) with he | ⟨u,rest,hu,hlive,he⟩
      · rw [he] at hv
        exact hch.own v hv hin
      · rw [he] at hv
        rcases List.mem_cons.mp hv with rfl | hv
        · exact Or.inr (unopposed h ht hc hin ⟨u,by simp [hu],Or.inl rfl⟩).symm
        · exact hch.own v (by simp [hu,hv]) hin
  · intro y hy ho
    exact occurs_pushed hch.retired (h.mgr.ne_invalid hy) ho
  · intro p hp hlive
    exact find_pushed hch.retired (hp value) hlive

theorem put_inv {s : System K V} (h : Inv s) (x : ℕ) (key : K) (value : V) : Inv (s.step (.put x key value)) := by
  cases htx : s.txs[x]? with
  | none => simpa only [step,htx] using h
  | some tx =>
    have hb := txInv_before h (h.txs x tx htx)
    cases hc : s.store.conflictingWriter (s.store.chain key) x (tx.beforeStatement s).snapshot with
    | some winner =>
      have hput : s.store.putChecked (tx.beforeStatement s).xid (tx.beforeStatement s).snapshot key value =
          (.error (.writeConflict winner),s.store) := by
        rw [hb.xid]
        simp only [VersionedStore.putChecked,hc]
      simp only [step,htx,hput]
      exact replaced_inv h htx hb (before_wrote s tx)
    | none =>
      have hput : s.store.putChecked (tx.beforeStatement s).xid (tx.beforeStatement s).snapshot key value =
          (.ok (),{ s.store with chains := s.store.chains.insert key (pushed x value (s.store.chain key)) }) := by
        rw [hb.xid]
        simp only [VersionedStore.putChecked,hc]
        rfl
      simp only [step,htx,hput]
      refine wroteTo_inv h (by simp [htx]) hb ?_ hc (put_writes h hb hc value)
      intro tx₀ htx₀
      obtain rfl : tx = tx₀ := Option.some.inj (htx.symm.trans htx₀)
      exact before_wrote s tx

/-- The delete retires a version that an aborted transaction made, or leaves one to be seen that an
aborted transaction had retired. -/
def misses (s : System K V) : Action K V → Bool
  | .delete x key =>
    match s.txs[x]?,s.store.chain key with
    | some tx,head :: rest =>
      head.isLive && (s.store.conflictingWriter (head :: rest) tx.xid (tx.beforeStatement s).snapshot).isNone &&
        (s.store.mgr.statusOf head.xmin = .aborted || rest.any (fun v =>
          s.store.mgr.statusOf v.xmin = .committed && s.store.mgr.statusOf v.xmax = .aborted))
    | _,_ => false
  | _ => false

theorem delete_writes {s : System K V} (h : Inv s) {x : ℕ} {tx : Transaction K V} (ht : TxInv s x tx) {key : K}
    (hc : s.store.conflictingWriter (s.store.chain key) x tx.snapshot = none) {head : Version V}
    {rest : List (Version V)} (hch : s.store.chain key = head :: rest) (hlive : head.isLive = true)
    (hhead : s.store.mgr.statusOf head.xmin ≠ .aborted)
    (hrest : ∀ v ∈ rest, s.store.mgr.statusOf v.xmin = .committed → s.store.mgr.statusOf v.xmax ≠ .aborted) :
    Writes s x key ({ head with xmax := x } :: rest) none := by
  have hk := h.chains key
  have hx := h.mgr.ids x _ ht.status
  have hzero := h.mgr.ne_invalid ht.status
  have hretire : (retire x (s.store.chain key)).getD (s.store.chain key) = { head with xmax := x } :: rest := by
    rw [hch,retire_live rest hlive]
    rfl
  refine ⟨?_,?_,?_,?_,⟨_,rfl,?_⟩,⟨_,rfl,rfl,hhead,?_⟩,?_⟩
  · intro v hv
    rcases List.mem_cons.mp hv with rfl | hv
    · have := hk.known head (by simp [hch])
      exact ⟨this.1,this.2.1,hx.2⟩
    · exact hk.known v (by simp [hch,hv])
  · intro v hv
    exact hk.retired v (by rw [hch]; exact hv)
  · intro v hv hin
    rcases List.mem_cons.mp hv with rfl | hv
    · exact Or.inr (unopposed h ht hc hin ⟨head,by simp [hch],Or.inl rfl⟩).symm
    · exact hk.own v (by simp [hch,hv]) hin
  · intro y hy ho
    exact occurs_retired hk.retired (hretire ▸ ho)
  · simp [Version.decider,Version.isLive,hzero]
  · intro v hv hmin
    rcases List.mem_cons.mp hv with rfl | hv
    · exact Or.inr rfl
    · have hdead : v.xmax ≠ invalidXid := by
        have := hk.retired v (by rw [hch]; exact hv)
        simpa [Version.isLive] using this
      rcases hmin with hmin | hmin
      swap
      · exact Or.inr (((hk.own v (by simp [hch,hv]) (hmin ▸ ht.status)).resolve_left hdead).trans hmin)
      cases hst : s.store.mgr.statusOf v.xmax with
      | committed => exact Or.inl rfl
      | aborted => exact absurd hst (hrest v hv hmin)
      | inProgress =>
        right
        refine unopposed h ht hc ?_ ⟨v,by simp [hch,hv],Or.inr rfl⟩
        simp only [Registry.statusOf,if_neg hdead] at hst
        cases hget : s.store.mgr.status[v.xmax]? with
        | none => simp [hget] at hst
        | some st => simpa [hget] using hst
  · intro p hp hlive
    rw [← hretire]
    exact find_retired hk.retired hlive

theorem delete_inv {s : System K V} (h : Inv s) (x : ℕ) (key : K) (hm : s.misses (.delete x key) = false) :
    Inv (s.step (.delete x key)) := by
  cases htx : s.txs[x]? with
  | none => simpa only [step,htx] using h
  | some tx =>
    have hb := txInv_before h (h.txs x tx htx)
    have hstay : ∀ r, (r = .ok false ∨ ∃ err, r = .error err) →
        s.store.deleteChecked (tx.beforeStatement s).xid (tx.beforeStatement s).snapshot key = (r,s.store) →
          Inv (s.step (.delete x key)) := by
      intro r hr hdel
      have hinv := replaced_inv h htx hb (before_wrote s tx)
      rcases hr with rfl | ⟨err,rfl⟩ <;> simpa only [step,htx,hdel] using hinv
    cases hc : s.store.conflictingWriter (s.store.chain key) x (tx.beforeStatement s).snapshot with
    | some winner =>
      refine hstay (.error (.writeConflict winner)) (Or.inr ⟨_,rfl⟩) ?_
      rw [hb.xid]
      simp only [VersionedStore.deleteChecked,hc]
    | none =>
      rcases retire_cases (h.chains key).retired (x := x) with ⟨hr,-⟩ | ⟨head,rest,hch,hlive,hr⟩
      · refine hstay (.ok false) (Or.inl rfl) ?_
        rw [hb.xid]
        simp only [VersionedStore.deleteChecked,hc,hr]
      · have hdel : s.store.deleteChecked (tx.beforeStatement s).xid (tx.beforeStatement s).snapshot key =
            (.ok true,{ s.store with chains := s.store.chains.insert key ({ head with xmax := x } :: rest) }) := by
          rw [hb.xid]
          simp only [VersionedStore.deleteChecked,hc,hr]
        have hc' := hc
        rw [hch] at hc'
        simp only [misses,htx,hch,hlive,(h.txs x tx htx).xid,hc',Option.isNone_none,Bool.true_and,
          Bool.or_eq_false_iff,decide_eq_false_iff_not] at hm
        obtain ⟨hhead,hrest⟩ := hm
        simp only [step,htx,hdel]
        refine wroteTo_inv h (by simp [htx]) hb ?_ hc (delete_writes h hb hc hch hlive hhead ?_)
        · intro tx₀ htx₀
          obtain rfl : tx = tx₀ := Option.some.inj (htx.symm.trans htx₀)
          exact before_wrote s tx
        · intro v hv hmin hab
          rw [List.any_eq_false] at hrest
          refine hrest v hv ?_
          simpa [hab] using hmin

/-! ## The collector -/

/-- The vacuum would take a version that an open transaction sees: one that a transaction retired
which was active when the snapshot was captured and has committed below the horizon since. -/
def strands (s : System K V) : Action K V → Bool
  | .vacuum c =>
    match s.collectors[c]? with
    | none => false
    | some horizon =>
      s.txs.toList.any (fun p => !p.2.level.refreshesSnapshotPerStatement && s.store.chains.toList.any (fun q =>
        q.2.any (fun v => v.xmax < horizon && s.store.mgr.statusOf v.xmax = .committed &&
          decide (v.xmax ∈ p.2.snapshot.active) && p.2.snapshot.seesEffect s.store.mgr v.xmin)))
  | _ => false

theorem chain_vacuum (s : VersionedStore K V) (horizon : ℕ) (k : K) :
    (s.vacuum horizon).2.chain k = s.kept horizon (s.chain k) := by
  simp only [VersionedStore.vacuum,VersionedStore.chain,ExtTreeMap.getElem?_filterMap']
  cases hc : s.chains[k]? with
  | none => rfl
  | some c =>
    simp only [Option.bind_some,Option.getD_some]
    split_ifs with he
    · exact (List.isEmpty_iff.mp he).symm
    · rfl

theorem head_kept {s : System K V} (h : Inv s) (horizon : ℕ) {k : K} {x : ℕ}
    (hx : s.store.mgr.status[x]? = some .inProgress) (ho : Occurs x (s.store.chain k)) {head : Version V}
    (hhead : (s.store.chain k).head? = some head) : (s.store.kept horizon (s.store.chain k)).head? = some head := by
  obtain ⟨head',hh,hd⟩ := (h.chains k).decides x hx ho
  obtain rfl : head = head' := Option.some.inj (hhead.symm.trans hh)
  have hst := h.mgr.statusOf hx
  have hkeep : head.isReclaimable horizon s.store.mgr = false := by
    cases hlive : head.isLive with
    | true =>
      have hz : head.xmax = invalidXid := by simpa [Version.isLive] using hlive
      have hmin : head.xmin = x := by simpa [Version.decider,hlive] using hd
      simp [Version.isReclaimable,hz,hmin,hst]
    | false =>
      have hmax : head.xmax = x := by simpa [Version.decider,hlive] using hd
      obtain ⟨tx,htx,hsome⟩ := h.owned k x hx ho
      obtain ⟨w,hw⟩ := Option.isSome_iff_exists.mp hsome
      have hwr := (h.txs x tx htx).wrote k w hw
      cases w with
      | some value =>
        obtain rfl : head = { xmin := x, value := value } := Option.some.inj (hhead.symm.trans hwr)
        simp [Version.isLive] at hlive
      | none =>
        obtain ⟨head',hh',-,hab,-⟩ := hwr
        obtain rfl : head = head' := Option.some.inj (hhead.symm.trans hh')
        simp [Version.isReclaimable,hmax,hst,hab]
  cases hch : s.store.chain k with
  | nil => simp [hch] at hhead
  | cons v rest =>
    obtain rfl : v = head := by simpa [hch] using hhead
    simp [VersionedStore.kept,hkeep]

/-- What an open transaction sees stays, unless the vacuum strands one. -/
theorem visible_kept {s : System K V} (h : Inv s) {c horizon : ℕ} (hc : s.collectors[c]? = some horizon)
    (hs : s.strands (.vacuum c) = false) {x : ℕ} {tx : Transaction K V} (htx : s.txs[x]? = some tx)
    (hl : tx.level.refreshesSnapshotPerStatement = false) {k : K} {v : Version V} (hv : v ∈ s.store.chain k)
    (hvis : v.isVisible tx.snapshot s.store.mgr = true) : v.isReclaimable horizon s.store.mgr = false := by
  have ht := h.txs x tx htx
  simp only [Version.isVisible,Bool.and_eq_true,Bool.not_eq_true'] at hvis
  obtain ⟨hmin,hmax⟩ := hvis
  have hseen : s.store.mgr.statusOf v.xmin ≠ .aborted := by
    intro hab
    unfold Snapshot.seesEffect at hmin
    split_ifs at hmin with h₀ h₁
    · rw [h₁,ht.mine,h.mgr.statusOf ht.status] at hab
      cases hab
    · rw [hab] at hmin
      cases hmin
  simp only [Version.isReclaimable,Bool.or_eq_false_iff]
  refine ⟨?_,by simp [hseen]⟩
  by_contra hrec
  simp only [ne_eq,decide_not,Bool.not_eq_false,Bool.and_eq_true,Bool.not_eq_true',decide_eq_false_iff_not,
    decide_eq_true_eq] at hrec
  obtain ⟨⟨hz,hlt⟩,hcom⟩ := hrec
  have hactive : v.xmax ∈ tx.snapshot.active := by
    unfold Snapshot.seesEffect at hmax
    split_ifs at hmax with h₁ h₂ h₃
    · have hle := (h.horizons c horizon hc).2 x ht.status
      have hb := ht.sound.below
      rw [ht.mine] at hb
      omega
    · exact h₃
    · simp [hcom] at hmax
  simp only [strands,hc,List.any_eq_false,Bool.not_eq_true] at hs
  have hp := hs (x,tx) (ExtTreeMap.mem_toList_iff_getElem?_eq_some.mpr htx)
  simp only [hl,Bool.not_false,Bool.true_and,List.any_eq_false,Bool.not_eq_true] at hp
  have hchain : s.store.chains[k]? = some (s.store.chain k) := by
    cases hg : s.store.chains[k]? with
    | none => simp [VersionedStore.chain,hg] at hv
    | some ch => simp [VersionedStore.chain,hg]
  have hq := hp (k,s.store.chain k) (ExtTreeMap.mem_toList_iff_getElem?_eq_some.mpr hchain) v hv
  simp [hlt,hcom,hactive,hmin] at hq

theorem vacuum_inv {s : System K V} (h : Inv s) (c : ℕ) (hs : s.strands (.vacuum c) = false) :
    Inv (s.step (.vacuum c)) := by
  cases hc : s.collectors[c]? with
  | none => simpa only [step,hc] using h
  | some horizon =>
    simp only [step,hc]
    have hchain : ∀ k, (s.store.vacuum horizon).2.chain k = s.store.kept horizon (s.store.chain k) :=
      chain_vacuum s.store horizon
    have hsub : ∀ (k : K) (v : Version V), v ∈ s.store.kept horizon (s.store.chain k) → v ∈ s.store.chain k :=
      fun k v hv => (List.mem_filter.mp hv).1
    have hocc : ∀ (k : K) (x : ℕ), Occurs x (s.store.kept horizon (s.store.chain k)) → Occurs x (s.store.chain k) := by
      rintro k x ⟨v,hv,hx⟩
      exact ⟨v,hsub k v hv,hx⟩
    refine ⟨h.mgr,?_,h.begun,?_,?_,?_,?_⟩
    · intro k
      have hk := h.chains k
      refine ⟨?_,?_,?_,?_⟩ <;> simp only [hchain k]
      · exact fun v hv => hk.known v (hsub k v hv)
      · exact fun v hv => hk.retired v (mem_tail_filter hv)
      · exact fun v hv => hk.own v (hsub k v hv)
      · intro x hx ho
        obtain ⟨head,hhead,hd⟩ := hk.decides x hx (hocc k x ho)
        exact ⟨head,head_kept h horizon hx (hocc k x ho) hhead,hd⟩
    · intro x tx htx
      have ht := h.txs x tx htx
      refine ⟨ht.xid,ht.mine,ht.sound,?_,?_⟩
      · intro k w hw
        have hwr := ht.wrote k w hw
        simp only [hchain k]
        cases w with
        | some value =>
          exact head_kept h horizon ht.status ⟨_,List.mem_of_mem_head? (Option.mem_def.mpr hwr),Or.inl rfl⟩ hwr
        | none =>
          obtain ⟨head,hhead,hxmax,hab,hall⟩ := hwr
          have ho : Occurs x (s.store.chain k) := ⟨head,List.mem_of_mem_head? (Option.mem_def.mpr hhead),Or.inr hxmax⟩
          exact ⟨head,head_kept h horizon ht.status ho hhead,hxmax,hab,fun v hv => hall v (hsub k v hv)⟩
      · intro hl k
        refine Eq.trans ?_ (ht.view hl k)
        simp only [VersionedStore.get,VersionedStore.resolve,hchain k]
        refine congrArg (Option.map Version.value) (find_filter ?_)
        intro v hv hvis
        rw [visible_kept h hc hs htx hl hv hvis]
        rfl
    · intro k x hx ho
      exact h.owned k x hx (hocc k x (hchain k ▸ ho))
    · intro d z hd
      simp only [Map.get_erase] at hd
      split_ifs at hd
      exact h.horizons d z hd
    · intro k
      refine Eq.trans ?_ (h.latest k)
      simp only [current,hchain k]
      refine congrArg (Option.map Version.value) (find_filter ?_)
      intro v hv hcur
      have hcur : v.isCurrent s.store.mgr = true := hcur
      obtain ⟨hmin,hmax⟩ : s.store.mgr.statusOf v.xmin = .committed ∧ s.store.mgr.statusOf v.xmax ≠ .committed := by
        simpa [Version.isCurrent] using hcur
      simp [Version.isReclaimable,hmin,hmax]

/-! ## Every run -/

theorem step_inv {s : System K V} (h : Inv s) (a : Action K V) (hs : s.strands a = false) (hm : s.misses a = false) :
    Inv (s.step a) := by
  cases a with
  | begin level => exact begin_inv h level
  | capture x => exact capture_inv h x
  | get x key => exact get_inv h x key
  | put x key value => exact put_inv h x key value
  | delete x key => exact delete_inv h x key hm
  | commit x => exact commit_inv h x
  | abort x => exact abort_inv h x
  | beginSnapshot my => exact beginSnapshot_inv h my
  | releaseSnapshot xmin => exact releaseSnapshot_inv h xmin
  | readHorizon c => exact readHorizon_inv h c
  | vacuum c => exact vacuum_inv h c hs

theorem empty_inv : Inv ({} : System K V) := by
  constructor
  · exact ⟨le_rfl,by simp,by simp⟩
  · intro k
    constructor <;> simp [VersionedStore.chain,Retired,Occurs]
  · simp
  · simp
  · simp [Occurs,VersionedStore.chain]
  · simp
  · simp [current,VersionedStore.chain]

/-- Every step of the run leaves what open transactions see. -/
def Clean (s : System K V) (as : List (Action K V)) : Prop :=
  ∀ t ∈ s.trace as, t.1.strands t.2 = false ∧ t.1.misses t.2 = false

theorem run_append (s : System K V) (as bs : List (Action K V)) : s.run (as ++ bs) = (s.run as).run bs :=
  List.foldl_append

theorem clean_append {s : System K V} {as bs : List (Action K V)} :
    s.Clean (as ++ bs) ↔ s.Clean as ∧ (s.run as).Clean bs := by
  induction as generalizing s with
  | nil => simp [Clean,trace,run]
  | cons a as ih =>
    have hcons : ∀ cs, s.Clean (a :: cs) ↔ (s.strands a = false ∧ s.misses a = false) ∧ (s.step a).Clean cs := by
      intro cs
      simp [Clean,trace]
    rw [List.cons_append,hcons,hcons,ih]
    exact and_assoc.symm

theorem run_inv {s : System K V} (h : Inv s) {as : List (Action K V)} (hc : s.Clean as) : Inv (s.run as) := by
  induction as generalizing s with
  | nil => exact h
  | cons a as ih =>
    obtain ⟨hs,hm⟩ := hc (s,a) (by simp [trace])
    exact ih (step_inv h a hs hm) (fun t ht => hc t (by simp [trace,ht]))

end System

def Action.writes (x : ℕ) (key : K) : Action K V → Bool
  | .put y k _ => y = x ∧ k = key
  | .delete y k => y = x ∧ k = key
  | _ => false

namespace System

theorem before_stable {s : System K V} {tx : Transaction K V} (hl : tx.level.refreshesSnapshotPerStatement = false) :
    tx.beforeStatement s = tx := by
  simp [Transaction.beforeStatement,hl]

/-- Where a transaction and what it reads come from. -/
inductive Keeps (s : System K V) (a : Action K V) (x : ℕ) (key : K) (tx' : Transaction K V) : Prop
  | held (tx : Transaction K V) (htx : s.txs[x]? = some tx) (hl : tx'.level = tx.level)
      (hv : tx.level.refreshesSnapshotPerStatement = false → tx'.view key = tx.view key)
  | captured (ha : a = .capture x) (hb : (s.begun[x]?).isSome) (hv : tx'.view = s.latest)

theorem Keeps.replaced {s : System K V} {a : Action K V} {x y : ℕ} {key : K} {tx ty tx' : Transaction K V}
    (hy : s.txs[y]? = some ty) (h : (s.txs.insert y tx)[x]? = some tx') (hl : tx.level = ty.level)
    (hv : y = x → ty.level.refreshesSnapshotPerStatement = false → tx.view key = ty.view key) : Keeps s a x key tx' := by
  rw [Map.get_insert] at h
  split_ifs at h with hyx
  · obtain rfl := Option.some.inj h
    subst hyx
    exact .held ty hy hl (hv rfl)
  · exact .held tx' h rfl (fun _ => rfl)

theorem step_keeps {s : System K V} {a : Action K V} {x : ℕ} {key : K} (ha : a.writes x key = false)
    {tx' : Transaction K V} (htx : (s.step a).txs[x]? = some tx') : Keeps s a x key tx' := by
  have hstay : s.txs[x]? = some tx' → Keeps s a x key tx' := fun h => .held tx' h rfl (fun _ => rfl)
  have herase : ∀ y : ℕ, (s.txs.erase y)[x]? = some tx' → Keeps s a x key tx' := by
    intro y hy
    rw [Map.get_erase] at hy
    split_ifs at hy
    exact hstay hy
  cases a with
  | begin level => exact hstay htx
  | capture y =>
    cases hb : s.begun[y]? with
    | none => exact hstay (by simpa only [step,hb] using htx)
    | some level =>
      simp only [step,hb,Map.get_insert] at htx
      split_ifs at htx with hyx
      · subst hyx
        obtain rfl := Option.some.inj htx
        exact .captured rfl (by simp [hb]) rfl
      · exact hstay htx
  | get y k =>
    cases hy : s.txs[y]? with
    | none => exact hstay (by simpa only [step,hy] using htx)
    | some ty =>
      simp only [step,hy] at htx
      have hlt : (ty.get s k).2.level = ty.level := by
        simp only [Transaction.get]
        split_ifs <;> simp
      refine Keeps.replaced hy htx hlt ?_
      intro _ hst
      simp only [Transaction.get,before_stable hst]
      split_ifs <;> rfl
  | put y k value =>
    cases hy : s.txs[y]? with
    | none => exact hstay (by simpa only [step,hy] using htx)
    | some ty =>
      simp only [step,hy] at htx
      split at htx
      · refine Keeps.replaced hy htx (before_level s ty) ?_
        intro hyx hst
        have hk : k ≠ key := by
          rintro rfl
          simp [Action.writes,hyx] at ha
        simp only [Transaction.wroteTo,before_stable hst,Function.update_of_ne hk.symm]
      · refine Keeps.replaced hy htx (before_level s ty) ?_
        intro _ hst
        rw [before_stable hst]
  | delete y k =>
    cases hy : s.txs[y]? with
    | none => exact hstay (by simpa only [step,hy] using htx)
    | some ty =>
      simp only [step,hy] at htx
      split at htx
      · refine Keeps.replaced hy htx (before_level s ty) ?_
        intro hyx hst
        have hk : k ≠ key := by
          rintro rfl
          simp [Action.writes,hyx] at ha
        simp only [Transaction.wroteTo,before_stable hst,Function.update_of_ne hk.symm]
      · refine Keeps.replaced hy htx (before_level s ty) ?_
        intro _ hst
        rw [before_stable hst]
  | commit y =>
    cases hy : s.txs[y]? with
    | none => exact hstay (by simpa only [step,hy] using htx)
    | some ty =>
      simp only [step,hy] at htx
      split at htx <;> exact herase y htx
  | abort y =>
    cases hy : s.txs[y]? with
    | none => exact hstay (by simpa only [step,hy] using htx)
    | some ty =>
      simp only [step,hy] at htx
      split at htx <;> exact herase y htx
  | beginSnapshot my => exact hstay htx
  | releaseSnapshot xmin => exact hstay htx
  | readHorizon c => exact hstay htx
  | vacuum c =>
    simp only [step] at htx
    split at htx <;> exact hstay htx

theorem putChecked_mgr (s : VersionedStore K V) (x : ℕ) (snapshot : Snapshot) (key : K) (value : V) :
    (s.putChecked x snapshot key value).2.mgr = s.mgr := by
  unfold VersionedStore.putChecked
  split <;> rfl

theorem deleteChecked_mgr (s : VersionedStore K V) (x : ℕ) (snapshot : Snapshot) (key : K) :
    (s.deleteChecked x snapshot key).2.mgr = s.mgr := by
  unfold VersionedStore.deleteChecked
  split
  · rfl
  · split <;> rfl

theorem commitTx_next (s : System K V) (tx : Transaction K V) : (s.commitTx tx).2.mgr.next = s.store.mgr.next := by
  have hfinish : ∀ {st : XidStatus} {r : Registry}, s.store.mgr.finish tx.xid st = .ok r → r.next = s.store.mgr.next :=
    fun hf => by rw [(Registry.finish_ok hf).2]
  unfold commitTx VersionedStore.commitSerializable
  split_ifs
  · split <;> split
    · rename_i hf
      exact hfinish hf
    · rfl
    · rename_i hf
      exact hfinish hf
    · rfl
  · split
    · rename_i hf
      exact hfinish hf
    · rfl

/-- An id that was given out does not begin again. -/
theorem step_begun {s : System K V} (a : Action K V) {x : ℕ} (hx : x < s.store.mgr.next) (hb : s.begun[x]? = none) :
    x < (s.step a).store.mgr.next ∧ (s.step a).begun[x]? = none := by
  cases a with
  | begin level =>
    have hne : s.store.mgr.next ≠ x := by omega
    refine ⟨?_,by simp [step,Registry.begin,hne,hb]⟩
    simp only [step,Registry.begin]
    omega
  | capture y =>
    simp only [step]
    split
    · exact ⟨hx,hb⟩
    · refine ⟨hx,?_⟩
      simp only [Map.get_erase,hb]
      split_ifs <;> rfl
  | get y k =>
    simp only [step]
    split <;> exact ⟨hx,hb⟩
  | put y k value =>
    simp only [step]
    split
    · exact ⟨hx,hb⟩
    · rename_i tx _
      have hmgr := putChecked_mgr s.store (tx.beforeStatement s).xid (tx.beforeStatement s).snapshot k value
      split <;> rename_i heq <;> rw [heq] at hmgr <;> exact ⟨hmgr ▸ hx,hb⟩
  | delete y k =>
    simp only [step]
    split
    · exact ⟨hx,hb⟩
    · rename_i tx _
      have hmgr := deleteChecked_mgr s.store (tx.beforeStatement s).xid (tx.beforeStatement s).snapshot k
      split <;> rename_i heq <;> rw [heq] at hmgr <;> exact ⟨hmgr ▸ hx,hb⟩
  | commit y =>
    simp only [step]
    split
    · exact ⟨hx,hb⟩
    · rename_i tx _
      have hnext := commitTx_next s tx
      split <;> rename_i heq <;> rw [heq] at hnext <;> exact ⟨hnext ▸ hx,hb⟩
  | abort y =>
    simp only [step]
    split
    · exact ⟨hx,hb⟩
    · split
      · rename_i hf
        exact ⟨(Registry.finish_ok hf).2 ▸ hx,hb⟩
      · exact ⟨hx,hb⟩
  | beginSnapshot my => exact ⟨hx,hb⟩
  | releaseSnapshot xmin =>
    obtain ⟨m,hm,-⟩ := Registry.releaseSnapshot_eq s.store.mgr xmin
    simp only [step,hm]
    exact ⟨hx,hb⟩
  | readHorizon c => exact ⟨hx,hb⟩
  | vacuum c =>
    simp only [step]
    split <;> exact ⟨hx,hb⟩

theorem run_begun {s : System K V} (bs : List (Action K V)) {x : ℕ} (hx : x < s.store.mgr.next)
    (hb : s.begun[x]? = none) : (s.run bs).begun[x]? = none := by
  induction bs generalizing s with
  | nil => exact hb
  | cons b bs ih =>
    obtain ⟨hx,hb⟩ := step_begun b hx hb
    exact ih hx hb

theorem run_captured {as : List (Action K V)} {x : ℕ} {key : K} (hw : ∀ a ∈ as, a.writes x key = false)
    {tx : Transaction K V} (htx : (({} : System K V).run as).txs[x]? = some tx)
    (hl : tx.level.refreshesSnapshotPerStatement = false) :
    ∃ before after, as = before ++ .capture x :: after ∧ ((({} : System K V).run before).begun[x]?).isSome ∧
      tx.view key = (({} : System K V).run before).latest key := by
  induction as using List.reverseRecOn generalizing tx with
  | nil => simp [run] at htx
  | append_singleton as a ih =>
    rw [run_append] at htx
    cases step_keeps (hw a (by simp)) htx with
    | held ty hty hlt hv =>
      obtain ⟨before,after,rfl,hb,hview⟩ := ih (fun b hb => hw b (by simp [hb])) hty (hlt ▸ hl)
      exact ⟨before,after ++ [a],by simp,hb,(hv (hlt ▸ hl)).trans hview⟩
    | captured ha hb hv =>
      subst ha
      exact ⟨as,[],rfl,hb,congrFun hv key⟩

theorem run_view {s : System K V} {bs : List (Action K V)} {x : ℕ} {key : K} (h : Inv s) (hc : s.Clean bs)
    (hw : ∀ b ∈ bs, b.writes x key = false) {tx tx' : Transaction K V} (htx : s.txs[x]? = some tx)
    (htx' : (s.run bs).txs[x]? = some tx') (hl : tx.level.refreshesSnapshotPerStatement = false) :
    tx'.level = tx.level ∧ tx'.view key = tx.view key := by
  induction bs using List.reverseRecOn generalizing tx' with
  | nil =>
    obtain rfl : tx = tx' := Option.some.inj (htx.symm.trans htx')
    exact ⟨rfl,rfl⟩
  | append_singleton bs b ih =>
    obtain ⟨hcb,-⟩ := clean_append.mp hc
    rw [run_append] at htx'
    cases step_keeps (hw b (by simp)) htx' with
    | held ty hty hlt hv =>
      obtain ⟨hlevel,hview⟩ := ih hcb (fun c hc => hw c (by simp [hc])) hty
      exact ⟨hlt.trans hlevel,(hv (hlevel ▸ hl)).trans hview⟩
    | captured hb hbegun hv =>
      -- it was captured before, and an id is captured once
      have hx := (h.mgr.ids x _ (h.txs x tx htx).status).2
      have hnone : s.begun[x]? = none := by
        rw [Option.eq_none_iff_forall_ne_some]
        intro level hlevel
        rw [(h.begun x level hlevel).2] at htx
        cases htx
      rw [run_begun bs hx hnone] at hbegun
      cases hbegun

theorem get_eq_view {s : System K V} (h : Inv s) {x : ℕ} {tx : Transaction K V} (htx : s.txs[x]? = some tx)
    (hl : tx.level.refreshesSnapshotPerStatement = false) (key : K) : s.get x key = some (tx.view key) := by
  have hsnap : (tx.get s key).1 = s.store.get key tx.snapshot := by
    simp only [Transaction.get,before_stable hl]
    split_ifs <;> rfl
  rw [get,htx,Option.map_some,hsnap,(h.txs x tx htx).view hl key]

end System
end System

section Samples

end Samples
end Drevo.Mvcc
