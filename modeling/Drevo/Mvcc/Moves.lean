import Drevo.Mvcc.Stable

/-! What one section does to the store and the open transactions, vacuums apart, and what holds of
a run of such sections whatever the writes meet. -/
set_option linter.unusedSectionVars false

namespace Drevo.Mvcc
open Lib Std

section System
variable {K V : Type} [Ord K] [TransOrd K] [LawfulEqOrd K] [DecidableEq K]

/-! ## Writes on a chain -/

theorem ChainInv.retire {r : Registry} (hr : r.Inv) {chain chain' : List (Version V)} (h : ChainInv r chain) {x : ℕ}
    (hx : r.status[x]? = some .inProgress) (honly : ∀ y, r.status[y]? = some .inProgress → Occurs y chain → y = x)
    (hc : retire x chain = some chain') : ChainInv r chain' ∧ Occurs x chain' := by
  have hzero := hr.ne_invalid hx
  obtain ⟨hnone,-⟩ | ⟨v,rest,rfl,hlive,hsome⟩ := retire_cases h.retired (x := x)
  · rw [hnone] at hc
    cases hc
  · rw [hsome] at hc
    obtain rfl := Option.some.inj hc
    refine ⟨⟨?_,h.retired,?_,?_⟩,_,List.mem_cons_self ..,Or.inr rfl⟩
    · intro u hu
      obtain rfl | hu := List.mem_cons.mp hu
      · have hknown := h.known v (by simp)
        exact ⟨hknown.1,hknown.2.1,(hr.ids x _ hx).2⟩
      · exact h.known u (by simp [hu])
    · intro u hu hin
      obtain rfl | hu := List.mem_cons.mp hu
      · exact Or.inr (honly _ hin ⟨v,by simp,Or.inl rfl⟩).symm
      · exact h.own u (by simp [hu]) hin
    · intro y hy ho
      have ho' : y = x ∨ Occurs y (v :: rest) := by
        refine occurs_retired h.retired ?_
        rw [hsome]
        exact ho
      obtain rfl : y = x := ho'.elim id (honly y hy)
      exact ⟨_,rfl,by simp [Version.decider,Version.isLive,hzero]⟩

theorem ChainInv.push {r : Registry} (hr : r.Inv) {chain : List (Version V)} (h : ChainInv r chain) {x : ℕ}
    (hx : r.status[x]? = some .inProgress) (honly : ∀ y, r.status[y]? = some .inProgress → Occurs y chain → y = x)
    (value : V) : ChainInv r (pushed x value chain) ∧ Occurs x (pushed x value chain) := by
  have hzero := hr.ne_invalid hx
  have hrest : ChainInv r ((Drevo.Mvcc.retire x chain).getD chain) := by
    cases hc : Drevo.Mvcc.retire x chain with
    | none => exact h
    | some chain' => exact (h.retire hr hx honly hc).1
  refine ⟨⟨?_,retired_pushed hzero h.retired,?_,?_⟩,_,List.mem_cons_self ..,Or.inl rfl⟩
  · intro v hv
    obtain rfl | hv := List.mem_cons.mp hv
    · have hid := hr.ids x _ hx
      exact ⟨hid.1,hid.2,hr.pos⟩
    · exact hrest.known v hv
  · intro v hv hin
    obtain rfl | hv := List.mem_cons.mp hv
    · exact Or.inl rfl
    · exact hrest.own v hv hin
  · intro y hy ho
    have hyx : y = x := (occurs_pushed h.retired (hr.ne_invalid hy) ho).elim id (honly y hy)
    exact ⟨_,rfl,hyx.symm⟩

theorem Occurs.retire {chain chain' : List (Version V)} {x y : ℕ} (hy : y ≠ invalidXid) (h : Occurs y chain)
    (hr : Retired chain) (hc : Drevo.Mvcc.retire x chain = some chain') : Occurs y chain' := by
  obtain ⟨hnone,-⟩ | ⟨v,rest,rfl,hlive,hsome⟩ := retire_cases hr (x := x)
  · rw [hnone] at hc
    cases hc
  · rw [hsome] at hc
    obtain rfl := Option.some.inj hc
    obtain ⟨u,hu,ho⟩ := h
    obtain rfl | hu := List.mem_cons.mp hu
    · have hmax : u.xmax = invalidXid := by simpa [Version.isLive] using hlive
      obtain ho | ho := ho
      · exact ⟨_,List.mem_cons_self ..,Or.inl ho⟩
      · exact absurd (ho.symm.trans hmax) hy
    · exact ⟨u,by simp [hu],ho⟩

theorem Occurs.push {chain : List (Version V)} {x y : ℕ} {value : V} (hy : y ≠ invalidXid) (h : Occurs y chain)
    (hr : Retired chain) : Occurs y (pushed x value chain) := by
  cases hc : Drevo.Mvcc.retire x chain with
  | none =>
    obtain ⟨u,hu,ho⟩ := h
    exact ⟨u,by simp [pushed,hc,hu],ho⟩
  | some chain' =>
    obtain ⟨u,hu,ho⟩ := h.retire hy hr hc
    exact ⟨u,by simp [pushed,hc,hu],ho⟩

def Action.write (x : ℕ) (key : K) : Option V → Action K V
  | some value => .put x key value
  | none => .delete x key

namespace System

/-! ## One section -/

/-- The transaction at the start of a statement: a new snapshot, if its level takes one, and the key
in its read set, if it keeps one. -/
structure Turns (s : System K V) (x : ℕ) (tx tx' : Transaction K V) : Prop where
  xid : tx'.xid = x
  wrote : tx'.wrote = tx.wrote
  level : tx'.level = tx.level
  snapshot : tx'.snapshot = tx.snapshot ∧ tx'.view = tx.view ∨
    tx'.snapshot = s.store.mgr.snapshot x ∧ tx.level.refreshesSnapshotPerStatement = true

/-- A transaction that has its snapshot. -/
def opened (s : System K V) (x : ℕ) (level : IsolationLevel) : Transaction K V :=
  { xid := x, level := level, snapshot := s.store.mgr.snapshot x, view := s.latest }

/-- What a write that meets no conflict makes of a chain. -/
def Overwrites (x : ℕ) (chain chain' : List (Version V)) : Option V → Prop
  | some value => chain' = pushed x value chain
  | none => retire x chain = some chain'

/-- The sections other than a vacuum, by what they change. -/
inductive Moves (s : System K V) (a : Action K V) : System K V → Prop
  | idle {s' : System K V} (hr : s'.store.mgr.Inv) (hs : s'.store.mgr.status = s.store.mgr.status)
      (hn : s'.store.mgr.next = s.store.mgr.next) (hc : s'.store.chains = s.store.chains) (hb : s'.begun = s.begun)
      (ht : s'.txs = s.txs) (hl : s'.latest = s.latest) : Moves s a s'
  | began (level : IsolationLevel) : Moves s a (s.step (.begin level))
  | captured {x : ℕ} {level : IsolationLevel} (ha : a = .capture x) (hb : s.begun[x]? = some level) :
      Moves s a { s with begun := s.begun.erase x, txs := s.txs.insert x (s.opened x level) }
  | turned {x : ℕ} {tx tx' : Transaction K V} (htx : s.txs[x]? = some tx) (ht : Turns s x tx tx') :
      Moves s a { s with txs := s.txs.insert x tx' }
  | wrote {x : ℕ} {tx : Transaction K V} {key : K} {w : Option V} (ha : a = .write x key w) (htx : s.txs[x]? = some tx)
      (ht : Turns s x tx (tx.beforeStatement s)) {chain : List (Version V)}
      (hc : s.store.conflictingWriter (s.store.chain key) x (tx.beforeStatement s).snapshot = none)
      (hch : Overwrites x (s.store.chain key) chain w) : Moves s a (s.wroteTo x (tx.beforeStatement s) key chain w)
  | ended {x : ℕ} {tx : Transaction K V} {st : XidStatus} {s' : System K V} (htx : s.txs[x]? = some tx)
      (ha : a = .commit x ∧ ((s.commitTx tx).1 = .ok () ↔ st = .committed) ∨ a = .abort x ∧ st = .aborted) (hst : st ≠ .inProgress) (hf : s.store.mgr.finish x st = .ok s'.store.mgr) (hc : s'.store.chains = s.store.chains)
      (hb : s'.begun = s.begun) (ht : s'.txs = s.txs.erase x)
      (hl : s'.latest = if st = .committed then s.committing tx else s.latest) : Moves s a s'

/-- What holds after every run without a vacuum. -/
structure Basic (s : System K V) : Prop where
  mgr : s.store.mgr.Inv
  chains : ∀ k, ChainInv s.store.mgr (s.store.chain k)
  begun : ∀ (x : ℕ) (level : IsolationLevel), s.begun[x]? = some level →
    s.store.mgr.status[x]? = some .inProgress ∧ s.txs[x]? = none
  xid : ∀ (x : ℕ) (tx : Transaction K V), s.txs[x]? = some tx → tx.xid = x ∧ tx.snapshot.myXid = x
  sound : ∀ (x : ℕ) (tx : Transaction K V), s.txs[x]? = some tx → tx.snapshot.Sound s.store.mgr
  wrote : ∀ (x : ℕ) (tx : Transaction K V), s.txs[x]? = some tx → ∀ k : K, (tx.wrote[k]?).isSome → Occurs x (s.store.chain k)
  owned : ∀ (k : K) (x : ℕ), s.store.mgr.status[x]? = some .inProgress → Occurs x (s.store.chain k) →
    ∃ tx, s.txs[x]? = some tx ∧ (tx.wrote[k]?).isSome

section Steps
variable {s : System K V}

theorem Basic.status (h : Basic s) {x : ℕ} {tx : Transaction K V} (htx : s.txs[x]? = some tx) :
    s.store.mgr.status[x]? = some .inProgress := (h.xid x tx htx).2 ▸ (h.sound x tx htx).mine

theorem turns_before (h : Basic s) {x : ℕ} {tx : Transaction K V} (htx : s.txs[x]? = some tx) :
    Turns s x tx (tx.beforeStatement s) := by
  have hx := (h.xid x tx htx).1
  unfold Transaction.beforeStatement
  split_ifs with hl
  · exact ⟨hx,rfl,rfl,Or.inr ⟨by rw [hx],hl⟩⟩
  · exact ⟨hx,rfl,rfl,Or.inl ⟨rfl,rfl⟩⟩

theorem commitTx_cases (h : Basic s) {x : ℕ} {tx : Transaction K V} (htx : s.txs[x]? = some tx) :
    ∃ st mgr, st ≠ .inProgress ∧ s.store.mgr.finish x st = .ok mgr ∧ (s.commitTx tx).2 = { s.store with mgr := mgr } ∧
      ((s.commitTx tx).1 = .ok () ↔ st = .committed) := by
  have hx := h.status htx
  have hcommit : s.store.mgr.commit tx.xid = .ok { s.store.mgr with status := s.store.mgr.status.insert x .committed } := by
    rw [(h.xid x tx htx).1]
    exact Registry.finish_of hx .committed
  have habort : s.store.mgr.abort tx.xid = .ok { s.store.mgr with status := s.store.mgr.status.insert x .aborted } := by
    rw [(h.xid x tx htx).1]
    exact Registry.finish_of hx .aborted
  simp only [commitTx,VersionedStore.commitSerializable,hcommit,habort]
  split_ifs with hl
  · split
    · exact ⟨.aborted,_,by decide,Registry.finish_of hx _,rfl,by simp⟩
    · exact ⟨.committed,_,by decide,Registry.finish_of hx _,rfl,by simp⟩
  · exact ⟨.committed,_,by decide,Registry.finish_of hx _,rfl,by simp⟩

/-- Every section but a vacuum is a move. -/
theorem step_moves (h : Basic s) (a : Action K V) (hv : ∀ c, a ≠ .vacuum c) : Moves s a (s.step a) := by
  have hstay : Moves s a s := .idle h.mgr rfl rfl rfl rfl rfl rfl
  cases a with
  | begin level => exact .began level
  | capture x =>
    simp only [step]
    split
    · exact hstay
    · rename_i level hb
      exact .captured rfl hb
  | get x key =>
    simp only [step]
    split
    · exact hstay
    · rename_i tx htx
      have ht := turns_before h htx
      refine .turned htx ?_
      simp only [Transaction.get]
      split_ifs
      · exact ⟨ht.xid,ht.wrote,ht.level,ht.snapshot⟩
      · exact ht
  | put x key value =>
    simp only [step]
    split
    · exact hstay
    · rename_i tx htx
      have ht := turns_before h htx
      simp only [VersionedStore.putChecked,ht.xid]
      cases hc : s.store.conflictingWriter (s.store.chain key) x (tx.beforeStatement s).snapshot with
      | some winner => exact .turned htx ht
      | none => exact .wrote (w := some value) rfl htx ht hc rfl
  | delete x key =>
    simp only [step]
    split
    · exact hstay
    · rename_i tx htx
      have ht := turns_before h htx
      simp only [VersionedStore.deleteChecked,ht.xid]
      cases hc : s.store.conflictingWriter (s.store.chain key) x (tx.beforeStatement s).snapshot with
      | some winner => exact .turned htx ht
      | none =>
        cases hr : retire x (s.store.chain key) with
        | none => exact .turned htx ht
        | some chain => exact .wrote (w := none) rfl htx ht hc hr
  | commit x =>
    simp only [step]
    split
    · exact hstay
    · rename_i tx htx
      obtain ⟨st,mgr,hst,hf,hstore,hok⟩ := commitTx_cases h htx
      split
      · rename_i store hr
        rw [hr] at hstore hok
        obtain rfl : store = _ := hstore
        refine .ended htx (Or.inl ⟨rfl,by rw [hr]; exact hok⟩) hst hf rfl rfl rfl ?_
        rw [if_pos (hok.mp rfl)]
        rfl
      · rename_i err store hr
        rw [hr] at hstore hok
        obtain rfl : store = _ := hstore
        refine .ended htx (Or.inl ⟨rfl,by rw [hr]; exact hok⟩) hst hf rfl rfl rfl ?_
        rw [if_neg]
        intro hc
        cases hok.mpr hc
  | abort x =>
    simp only [step]
    split
    · exact hstay
    · rename_i tx htx
      have habort := Registry.finish_of (h.status htx) .aborted
      simp only [Registry.abort,(h.xid x tx htx).1,habort]
      exact .ended htx (Or.inr ⟨rfl,rfl⟩) (by decide) habort rfl rfl rfl rfl
  | beginSnapshot my => exact .idle (Registry.beginSnapshot_inv h.mgr my) rfl rfl rfl rfl rfl rfl
  | releaseSnapshot xmin =>
    obtain ⟨m,hm,hsub⟩ := Registry.releaseSnapshot_eq s.store.mgr xmin
    simp only [step,hm]
    refine .idle ⟨h.mgr.pos,h.mgr.ids,?_⟩ rfl rfl rfl rfl rfl rfl
    intro x n hx
    obtain ⟨n',hx'⟩ := hsub x n hx
    exact h.mgr.snaps x n' hx'
  | readHorizon c => exact .idle h.mgr rfl rfl rfl rfl rfl rfl
  | vacuum c => exact absurd rfl (hv c)

/-! ## What every move keeps -/

theorem Turns.sound {x : ℕ} {tx tx' : Transaction K V} (h : Basic s) (htx : s.txs[x]? = some tx) (ht : Turns s x tx tx') :
    tx'.snapshot.myXid = x ∧ tx'.snapshot.Sound s.store.mgr := by
  obtain ⟨hsnap,-⟩ | ⟨hsnap,-⟩ := ht.snapshot
  · rw [hsnap]
    exact ⟨(h.xid x tx htx).2,h.sound x tx htx⟩
  · rw [hsnap]
    exact ⟨rfl,Snapshot.sound_capture h.mgr (h.status htx)⟩

theorem Basic.unopposed (h : Basic s) {x : ℕ} {tx tx' : Transaction K V} (htx : s.txs[x]? = some tx) (ht : Turns s x tx tx')
    {key : K} (hc : s.store.conflictingWriter (s.store.chain key) x tx'.snapshot = none) {y : ℕ}
    (hy : s.store.mgr.status[y]? = some .inProgress) (ho : Occurs y (s.store.chain key)) : y = x := by
  obtain ⟨head,hhead,hd⟩ := (h.chains key).decides y hy ho
  obtain ⟨hmine,hsound⟩ := ht.sound h htx
  by_contra hne
  have hhidden := hsound.hidden hy (hmine ▸ hne)
  have hzero := h.mgr.ne_invalid hy
  simp [VersionedStore.conflictingWriter,hhead,hd,hne,hzero,hhidden,h.mgr.statusOf hy] at hc

theorem Basic.overwritten (h : Basic s) {x : ℕ} {tx tx' : Transaction K V} (htx : s.txs[x]? = some tx) (ht : Turns s x tx tx')
    {key : K} {chain : List (Version V)} {w : Option V}
    (hc : s.store.conflictingWriter (s.store.chain key) x tx'.snapshot = none) (hch : Overwrites x (s.store.chain key) chain w) :
    ChainInv s.store.mgr chain ∧ Occurs x chain ∧ (∀ y, y ≠ invalidXid → Occurs y (s.store.chain key) → Occurs y chain) ∧
      ∀ y, y ≠ invalidXid → Occurs y chain → y = x ∨ Occurs y (s.store.chain key) := by
  have hk := h.chains key
  have honly := fun y hy ho => h.unopposed htx ht hc (y := y) hy ho
  cases w with
  | some value =>
    obtain rfl := hch
    obtain ⟨hinv,hx⟩ := hk.push h.mgr (h.status htx) honly value
    exact ⟨hinv,hx,fun y hy ho => ho.push hy hk.retired,fun y hy ho => occurs_pushed hk.retired hy ho⟩
  | none =>
    obtain ⟨hinv,hx⟩ := hk.retire h.mgr (h.status htx) honly hch
    refine ⟨hinv,hx,fun y hy ho => ho.retire hy hk.retired hch,fun y _ ho => occurs_retired (x := x) hk.retired ?_⟩
    rw [show retire x (s.store.chain key) = some chain from hch]
    exact ho

theorem Moves.evolves {a : Action K V} {s' : System K V} (h : Basic s) (hm : Moves s a s') :
    s.store.mgr.Evolves s'.store.mgr ∧ s'.store.mgr.Inv := by
  cases hm with
  | idle hr hs hn =>
    refine ⟨⟨hn.ge,fun x _ _ => by rw [hs],fun x hx => ?_⟩,hr⟩
    rw [hs] at hx
    exact Or.inl hx
  | began level => exact ⟨s.store.mgr.begin_evolves,Registry.begin_inv h.mgr⟩
  | captured => exact ⟨.refl _,h.mgr⟩
  | turned => exact ⟨.refl _,h.mgr⟩
  | wrote => exact ⟨.refl _,h.mgr⟩
  | ended htx _ hst hf => exact ⟨Registry.finish_evolves hst hf,Registry.finish_inv h.mgr hf⟩

/-- What a transaction holds after a move: it was there, or it is new. -/
inductive Remains (s : System K V) (a : Action K V) (x : ℕ) (tx' : Transaction K V) : Prop
  | held {tx : Transaction K V} (htx : s.txs[x]? = some tx) (hl : tx'.level = tx.level)
      (hsnap : tx'.snapshot = tx.snapshot ∨
        tx'.snapshot = s.store.mgr.snapshot x ∧ tx.level.refreshesSnapshotPerStatement = true)
  | new (ha : a = .capture x) (hb : (s.begun[x]?).isSome) (hsnap : tx'.snapshot = s.store.mgr.snapshot x) (hw : tx'.wrote = ∅)

theorem Moves.remains {a : Action K V} {s' : System K V} (hm : Moves s a s') {x : ℕ} {tx' : Transaction K V} (htx : s'.txs[x]? = some tx') :
    Remains s a x tx' := by
  have hstay : s.txs[x]? = some tx' → Remains s a x tx' := fun h => .held h rfl (Or.inl rfl)
  have hturn : ∀ {y : ℕ} {ty ty' t : Transaction K V}, (s.txs.insert y t)[x]? = some tx' → s.txs[y]? = some ty →
      Turns s y ty ty' → t.level = ty'.level → t.snapshot = ty'.snapshot → Remains s a x tx' := by
    intro y ty ty' t hx hty ht hl hsnap
    rw [Map.get_insert] at hx
    split_ifs at hx with hyx
    · subst hyx
      obtain rfl := Option.some.inj hx
      refine .held hty (hl.trans ht.level) ?_
      rw [hsnap]
      exact ht.snapshot.imp And.left id
    · exact hstay hx
  cases hm with
  | idle _ _ _ _ _ ht => exact hstay (ht ▸ htx)
  | began level => exact hstay htx
  | @captured y level ha hb =>
    simp only [Map.get_insert] at htx
    split_ifs at htx with hyx
    · subst hyx
      obtain rfl := Option.some.inj htx
      exact .new ha (by rw [hb]; rfl) rfl rfl
    · exact hstay htx
  | turned hty ht => exact hturn htx hty ht rfl rfl
  | wrote _ hty ht => exact hturn htx hty ht rfl rfl
  | ended _ _ _ _ _ _ ht =>
    rw [ht,Map.get_erase] at htx
    split_ifs at htx
    exact hstay htx

theorem Moves.occurs {a : Action K V} {s' : System K V} (h : Basic s) (hm : Moves s a s') {y : ℕ} (hy : y ≠ invalidXid) {k : K}
    (ho : Occurs y (s.store.chain k)) : Occurs y (s'.store.chain k) := by
  cases hm with
  | idle _ _ _ hc => simpa only [VersionedStore.chain,hc] using ho
  | began level => exact ho
  | captured => exact ho
  | turned => exact ho
  | @wrote x tx key w _ htx ht chain hc hch =>
    have hchain := chain_insert s.store key k chain
    change Occurs y (({ s.store with chains := s.store.chains.insert key chain } : VersionedStore K V).chain k)
    rw [hchain]
    split_ifs with hk
    · exact (h.overwritten htx ht hc hch).2.2.1 y hy (hk ▸ ho)
    · exact ho
  | ended _ _ _ _ hc => simpa only [VersionedStore.chain,hc] using ho

/-- A step that only turns or writes: the transactions are the old ones and the one that acted. -/
theorem Basic.acted (h : Basic s) {r : System K V} {x : ℕ} {tx tx' t : Transaction K V} (htx : s.txs[x]? = some tx)
    (ht : Turns s x tx tx') (hmgr : r.store.mgr = s.store.mgr) (hb : r.begun = s.begun)
    (htxs : r.txs = s.txs.insert x t) (hxid : t.xid = tx'.xid) (hsnap : t.snapshot = tx'.snapshot)
    (hchains : ∀ k, ChainInv s.store.mgr (r.store.chain k))
    (hkeep : ∀ k y, y ≠ invalidXid → Occurs y (s.store.chain k) → Occurs y (r.store.chain k))
    (hwrote : ∀ k : K, (t.wrote[k]?).isSome → (tx.wrote[k]?).isSome ∨ Occurs x (r.store.chain k))
    (hown : ∀ (k : K) (y : ℕ), s.store.mgr.status[y]? = some .inProgress → Occurs y (r.store.chain k) →
      Occurs y (s.store.chain k) ∨ y = x ∧ (t.wrote[k]?).isSome)
    (hmore : ∀ k : K, (tx.wrote[k]?).isSome → (t.wrote[k]?).isSome) : Basic r := by
  obtain ⟨hmine,hsound⟩ := ht.sound h htx
  refine ⟨hmgr ▸ h.mgr,fun k => hmgr ▸ hchains k,?_,?_,?_,?_,?_⟩
  · intro y level hy
    rw [hb] at hy
    obtain ⟨hys,hyn⟩ := h.begun y level hy
    have hxy : x ≠ y := by
      rintro rfl
      rw [htx] at hyn
      cases hyn
    exact ⟨hmgr ▸ hys,by rw [htxs,Map.get_insert,if_neg hxy,hyn]⟩
  · intro y ty hy
    rw [htxs,Map.get_insert] at hy
    split_ifs at hy with hxy
    · subst hxy
      obtain rfl := Option.some.inj hy
      exact ⟨hxid.trans ht.xid,by rw [hsnap,hmine]⟩
    · exact h.xid y ty hy
  · intro y ty hy
    rw [htxs,Map.get_insert] at hy
    rw [hmgr]
    split_ifs at hy with hxy
    · subst hxy
      obtain rfl := Option.some.inj hy
      exact hsnap ▸ hsound
    · exact h.sound y ty hy
  · intro y ty hy k hk
    rw [htxs,Map.get_insert] at hy
    split_ifs at hy with hxy
    · subst hxy
      obtain rfl := Option.some.inj hy
      exact (hwrote k hk).elim (fun hold => hkeep k x (h.mgr.ne_invalid (h.status htx)) (h.wrote x tx htx k hold)) id
    · exact hkeep k y (h.mgr.ne_invalid (h.status hy)) (h.wrote y ty hy k hk)
  · intro k y hy ho
    rw [hmgr] at hy
    rw [htxs]
    obtain hold | ⟨rfl,hk⟩ := hown k y hy ho
    · obtain ⟨ty,hty,hk⟩ := h.owned k y hy hold
      by_cases hxy : x = y
      · subst hxy
        obtain rfl : tx = ty := Option.some.inj (htx.symm.trans hty)
        exact ⟨t,by rw [Map.get_insert,if_pos rfl],hmore k hk⟩
      · exact ⟨ty,by rw [Map.get_insert,if_neg hxy,hty],hk⟩
    · exact ⟨t,by rw [Map.get_insert,if_pos rfl],hk⟩

/-- The invariant of runs without a vacuum. -/
theorem Moves.basic {a : Action K V} {s' : System K V} (h : Basic s) (hm : Moves s a s') : Basic s' := by
  obtain ⟨he,hr⟩ := hm.evolves h
  cases hm with
  | idle _ hs hn hc hb ht =>
    have hchain : ∀ k, s'.store.chain k = s.store.chain k := fun k => by simp only [VersionedStore.chain,hc]
    refine ⟨hr,fun k => by rw [hchain k]; exact (h.chains k).evolves he,?_,?_,?_,?_,?_⟩
    · rw [hb,hs,ht]
      exact h.begun
    · rw [ht]
      exact h.xid
    · rw [ht]
      intro x tx htx
      exact (h.sound x tx htx).evolves he (by rw [hs]; exact (h.sound x tx htx).mine)
    · rw [ht]
      intro x tx htx k hk
      rw [hchain k]
      exact h.wrote x tx htx k hk
    · rw [hs,ht]
      intro k x hx ho
      exact h.owned k x hx (hchain k ▸ ho)
  | began level =>
    have hold : ∀ x : ℕ, x < s.store.mgr.next →
        (s.step (.begin level)).store.mgr.status[x]? = s.store.mgr.status[x]? := by
      intro x hx
      have hne : s.store.mgr.next ≠ x := by omega
      simp [step,Registry.begin,hne]
    refine ⟨hr,fun k => (h.chains k).evolves he,?_,h.xid,?_,h.wrote,?_⟩
    · intro x l hx
      simp only [step,Map.get_insert] at hx
      split_ifs at hx with hn
      · subst hn
        refine ⟨by simp [step,Registry.begin],?_⟩
        rw [Option.eq_none_iff_forall_ne_some]
        intro tx htx
        have hlt := (h.mgr.ids _ _ (h.status htx)).2
        simp [Registry.begin] at hlt
      · obtain ⟨hs,ht⟩ := h.begun x l hx
        exact ⟨(hold x (h.mgr.ids x _ hs).2).trans hs,ht⟩
    · intro x tx htx
      have hx := h.status htx
      refine (h.sound x tx htx).evolves he ?_
      rw [(h.xid x tx htx).2]
      exact (hold x (h.mgr.ids x _ hx).2).trans hx
    · intro k x hx ho
      exact h.owned k x ((h.chains k).inProgress he hx ho) ho
  | @captured x level _ hb =>
    obtain ⟨hs,hnone⟩ := h.begun x level hb
    refine ⟨hr,h.chains,?_,?_,?_,?_,?_⟩
    · intro y l hy
      simp only [Map.get_erase] at hy
      split_ifs at hy with hxy
      obtain ⟨hys,hyn⟩ := h.begun y l hy
      exact ⟨hys,by simp [hxy,hyn]⟩
    · intro y ty hy
      simp only [Map.get_insert] at hy
      split_ifs at hy with hxy
      · subst hxy
        obtain rfl := Option.some.inj hy
        exact ⟨rfl,rfl⟩
      · exact h.xid y ty hy
    · intro y ty hy
      simp only [Map.get_insert] at hy
      split_ifs at hy with hxy
      · subst hxy
        obtain rfl := Option.some.inj hy
        exact Snapshot.sound_capture h.mgr hs
      · exact h.sound y ty hy
    · intro y ty hy k hk
      simp only [Map.get_insert] at hy
      split_ifs at hy with hxy
      · subst hxy
        obtain rfl := Option.some.inj hy
        simp [opened] at hk
      · exact h.wrote y ty hy k hk
    · intro k y hy ho
      obtain ⟨ty,hty,hk⟩ := h.owned k y hy ho
      have hxy : x ≠ y := by
        rintro rfl
        rw [hnone] at hty
        cases hty
      exact ⟨ty,by simp [hxy,hty],hk⟩
  | turned htx ht =>
    refine h.acted htx ht rfl rfl rfl rfl rfl h.chains (fun k y _ ho => ho) (fun k hk => Or.inl ?_) (fun k y _ ho => Or.inl ho) ?_
    · rwa [ht.wrote] at hk
    · intro k hk
      rwa [ht.wrote]
  | @wrote x tx key w _ htx ht chain hc hch =>
    obtain ⟨hinv,hx,hkeep,hsub⟩ := h.overwritten htx ht hc hch
    have hchain : ∀ k, (s.wroteTo x (tx.beforeStatement s) key chain w).store.chain k = if key = k then chain else s.store.chain k :=
      fun k => chain_insert s.store key k chain
    refine h.acted htx ht (r := s.wroteTo x (tx.beforeStatement s) key chain w) rfl rfl rfl rfl rfl ?_ ?_ ?_ ?_ ?_
    · intro k
      rw [hchain k]
      split_ifs
      · exact hinv
      · exact h.chains k
    · intro k y hy ho
      rw [hchain k]
      split_ifs with hk
      · exact hkeep y hy (hk ▸ ho)
      · exact ho
    · intro k hk
      rw [hchain k]
      split_ifs with hkey
      · exact Or.inr hx
      · left
        simp only [Transaction.wroteTo,Map.get_insert,if_neg hkey,ht.wrote] at hk
        exact hk
    · intro k y hy ho
      rw [hchain k] at ho
      split_ifs at ho with hkey
      · subst hkey
        right
        obtain rfl | hold := hsub y (h.mgr.ne_invalid hy) ho
        · exact ⟨rfl,by simp [Transaction.wroteTo]⟩
        · exact ⟨h.unopposed htx ht hc hy hold,by simp [Transaction.wroteTo]⟩
      · exact Or.inl ho
    · intro k hk
      simp only [Transaction.wroteTo,Map.get_insert]
      split_ifs
      · rfl
      · rwa [ht.wrote]
  | @ended x tx st _ htx _ hst hf hc hb ht =>
    obtain ⟨hin,hm⟩ := Registry.finish_ok hf
    have hchain : ∀ k, s'.store.chain k = s.store.chain k := fun k => by simp only [VersionedStore.chain,hc]
    have hold : ∀ y : ℕ, y ≠ x → s'.store.mgr.status[y]? = s.store.mgr.status[y]? := by
      intro y hy
      simp [hm,hy.symm]
    have hother : ∀ {y : ℕ} {ty : Transaction K V}, s'.txs[y]? = some ty → y ≠ x ∧ s.txs[y]? = some ty := by
      intro y ty hy
      rw [ht,Map.get_erase] at hy
      split_ifs at hy with hxy
      exact ⟨Ne.symm hxy,hy⟩
    refine ⟨hr,fun k => by rw [hchain k]; exact (h.chains k).evolves he,?_,?_,?_,?_,?_⟩
    · intro y l hy
      rw [hb] at hy
      obtain ⟨hs,hnone⟩ := h.begun y l hy
      have hyx : y ≠ x := by
        rintro rfl
        rw [htx] at hnone
        cases hnone
      exact ⟨(hold y hyx).trans hs,by simp [ht,hnone]⟩
    · exact fun y ty hy => h.xid y ty (hother hy).2
    · intro y ty hy
      obtain ⟨hyx,hy⟩ := hother hy
      refine (h.sound y ty hy).evolves he ?_
      rw [(h.xid y ty hy).2,hold y hyx]
      exact h.status hy
    · intro y ty hy k hk
      rw [hchain k]
      exact h.wrote y ty (hother hy).2 k hk
    · intro k y hy ho
      have hyx : y ≠ x := by
        rintro rfl
        rw [hm] at hy
        simp [hst] at hy
      rw [hchain k] at ho
      obtain ⟨ty,hty,hk⟩ := h.owned k y (hold y hyx ▸ hy) ho
      exact ⟨ty,by rw [ht,Map.get_erase,if_neg hyx.symm,hty],hk⟩

theorem empty_basic : Basic ({} : System K V) := by
  refine ⟨⟨le_rfl,by simp,by simp⟩,?_,by simp,by simp,by simp,by simp,by simp⟩
  intro k
  constructor <;> simp [VersionedStore.chain,Retired,Occurs]

end Steps

/-- The run has no vacuum. -/
def Unswept (as : List (Action K V)) : Prop := ∀ a ∈ as, ∀ c, a ≠ .vacuum c

theorem run_basic {s : System K V} (h : Basic s) {as : List (Action K V)} (hv : Unswept as) : Basic (s.run as) := by
  induction as generalizing s with
  | nil => exact h
  | cons a as ih =>
    exact ih ((step_moves h a (hv a (by simp))).basic h) (fun b hb => hv b (by simp [hb]))

theorem run_evolves {s : System K V} (h : Basic s) {as : List (Action K V)} (hv : Unswept as) :
    s.store.mgr.Evolves (s.run as).store.mgr := by
  induction as generalizing s with
  | nil => exact .refl _
  | cons a as ih =>
    have hm := step_moves h a (hv a (by simp))
    exact (hm.evolves h).1.trans (ih (hm.basic h) (fun b hb => hv b (by simp [hb])))

theorem run_occurs {s : System K V} (h : Basic s) {as : List (Action K V)} (hv : Unswept as) {y : ℕ} (hy : y ≠ invalidXid)
    {k : K} (ho : Occurs y (s.store.chain k)) : Occurs y ((s.run as).store.chain k) := by
  induction as generalizing s with
  | nil => exact ho
  | cons a as ih =>
    have hm := step_moves h a (hv a (by simp))
    exact ih (hm.basic h) (fun b hb => hv b (by simp [hb])) (hm.occurs h hy ho)

theorem run_held {s : System K V} (h : Basic s) {as : List (Action K V)} (hv : Unswept as) {x : ℕ} {tx' : Transaction K V}
    (htx : (s.run as).txs[x]? = some tx') (hl : tx'.level.refreshesSnapshotPerStatement = false)
    (hno : .capture x ∉ as) : ∃ tx, s.txs[x]? = some tx ∧ tx'.snapshot = tx.snapshot ∧ tx'.level = tx.level := by
  induction as using List.reverseRecOn generalizing tx' with
  | nil => exact ⟨tx',htx,rfl,rfl⟩
  | append_singleton as a ih =>
    have hvas : Unswept as := fun b hb => hv b (by simp [hb])
    rw [run_append] at htx
    cases (step_moves (run_basic h hvas) a (hv a (by simp))).remains htx with
    | held hty hlevel hsnap =>
      rw [hlevel] at hl
      have hsame := hsnap.resolve_right (fun hr => by rw [hl] at hr; exact Bool.false_ne_true hr.2)
      obtain ⟨tx,htx,hs,hle⟩ := ih hvas hty hl (fun hm => hno (by simp [hm]))
      exact ⟨tx,htx,hsame.trans hs,hlevel.trans hle⟩
    | new ha => exact absurd (by simp [ha]) hno

end System
end System
end Drevo.Mvcc
