import Drevo.Mvcc.Moves

/-! Lost updates. The check of a write looks at the end of the chain only: what a transaction that
aborted left there hides a concurrent commit. Where no write goes over such an end, two
transactions that committed a write of one key did not overlap. -/
set_option linter.unusedSectionVars false

namespace Drevo.Mvcc
open Lib Std

section System
variable {K V : Type} [Ord K] [TransOrd K] [LawfulEqOrd K] [DecidableEq K]

namespace System

/-- A concurrent transaction that has committed. -/
def unseen (s : System K V) (tx : Transaction K V) (y : ℕ) : Bool :=
  y ≠ tx.xid && s.store.mgr.statusOf y = .committed && !tx.snapshot.seesEffect s.store.mgr y

/-- A concurrent transaction that has committed made or retired a version of the key. -/
def changedSince (s : System K V) (tx : Transaction K V) (key : K) : Bool :=
  (s.store.chain key).any (fun v => s.unseen tx v.xmin || s.unseen tx v.xmax)

/-- The chain ends in what an aborted transaction left, above a concurrent commit. -/
def masks (s : System K V) (tx : Transaction K V) (key : K) : Bool :=
  match (s.store.chain key).head? with
  | none => false
  | some head => s.store.mgr.statusOf head.decider = .aborted && s.changedSince tx key

/-- A write that goes over a masked commit. -/
def overlooks (s : System K V) : Action K V → Bool
  | .put x key _ =>
    match s.txs[x]? with
    | none => false
    | some tx => s.masks (tx.beforeStatement s) key
  | .delete x key =>
    match s.txs[x]? with
    | none => false
    | some tx => (retire x (s.store.chain key)).isSome && s.masks (tx.beforeStatement s) key
  | _ => false

section Steps
variable {s : System K V}

theorem changedSince_iff {tx : Transaction K V} {key : K} :
    s.changedSince tx key = true ↔ ∃ y, Occurs y (s.store.chain key) ∧ s.unseen tx y = true := by
  simp only [changedSince,List.any_eq_true,Bool.or_eq_true]
  constructor
  · rintro ⟨v,hv,hy | hy⟩
    · exact ⟨_,⟨v,hv,Or.inl rfl⟩,hy⟩
    · exact ⟨_,⟨v,hv,Or.inr rfl⟩,hy⟩
  · rintro ⟨y,⟨v,hv,hy⟩,hu⟩
    obtain rfl | rfl := hy
    · exact ⟨v,hv,Or.inl hu⟩
    · exact ⟨v,hv,Or.inr hu⟩

theorem unseen_iff {tx : Transaction K V} {y : ℕ} : s.unseen tx y = true ↔
    y ≠ tx.xid ∧ s.store.mgr.statusOf y = .committed ∧ tx.snapshot.seesEffect s.store.mgr y = false := by
  simp [unseen,and_assoc]

theorem committed_ne {r : Registry} {y : ℕ} (h : r.statusOf y = .committed) : y ≠ invalidXid := by
  rintro rfl
  rw [Registry.statusOf_zero] at h
  cases h

theorem committed_status {r : Registry} {y : ℕ} (h : r.statusOf y = .committed) : r.status[y]? = some .committed := by
  simp only [Registry.statusOf,if_neg (committed_ne h)] at h
  cases hs : r.status[y]? with
  | none => simp [hs] at h
  | some st => simpa [hs] using h

theorem Basic.absent (h : Basic s) {x : ℕ} {tx : Transaction K V} (htx : s.txs[x]? = some tx) {k : K}
    (hw : tx.wrote[k]? = none) : ¬ Occurs x (s.store.chain k) := by
  intro ho
  obtain ⟨tx',htx',hk⟩ := h.owned k x (h.status htx) ho
  obtain rfl : tx = tx' := Option.some.inj (htx.symm.trans htx')
  rw [hw] at hk
  cases hk

theorem changedSince_capture (h : Basic s) {tx : Transaction K V} (hs : tx.snapshot = s.store.mgr.snapshot tx.xid) (k : K) :
    s.changedSince tx k = false := by
  rw [Bool.eq_false_iff]
  intro hc
  obtain ⟨y,ho,hu⟩ := changedSince_iff.mp hc
  obtain ⟨hne,hst,hsee⟩ := unseen_iff.mp hu
  rw [hs,Snapshot.seesEffect_capture h.mgr hne ((h.chains k).occurs_lt ho),hst] at hsee
  simp at hsee

theorem changedSince_stays (h : Basic s) {s' : System K V} (he : s.store.mgr.Evolves s'.store.mgr) {k : K}
    (hc : s'.store.chain k = s.store.chain k) {x : ℕ} {tx tx' : Transaction K V} (htx : s.txs[x]? = some tx)
    (hsnap : tx'.snapshot = tx.snapshot) (hx : tx'.xid = x)
    (hnew : ∀ z, Occurs z (s.store.chain k) → s.store.mgr.status[z]? = some .inProgress →
      s'.store.mgr.statusOf z ≠ .committed) (hch : s'.changedSince tx' k = true) : s.changedSince tx k = true := by
  obtain ⟨z,ho,hu⟩ := changedSince_iff.mp hch
  rw [hc] at ho
  obtain ⟨hne,hst,hsee⟩ := unseen_iff.mp hu
  have hlt := (h.chains k).occurs_lt ho
  have hin : s.store.mgr.status[z]? ≠ some .inProgress := fun hin => hnew z ho hin hst
  rw [hsnap,(h.sound x tx htx).stable he] at hsee
  rw [Registry.statusOf_congr (he.final z hlt hin)] at hst
  rw [hx,← (h.xid x tx htx).1] at hne
  exact changedSince_iff.mpr ⟨z,ho,unseen_iff.mpr ⟨hne,hst,hsee⟩⟩

/-- What no other transaction changes after a snapshot, a write of the key does not build on. -/
structure Fenced (s : System K V) : Prop extends Basic s where
  ahead : ∀ (x : ℕ) (tx : Transaction K V), s.txs[x]? = some tx → ∀ k : K, tx.wrote[k]? = none →
    s.changedSince tx k = true → ∃ head, (s.store.chain k).head? = some head ∧
      tx.snapshot.seesEffect s.store.mgr head.decider = false
  first : ∀ (x : ℕ) (tx : Transaction K V), s.txs[x]? = some tx → ∀ k : K, (tx.wrote[k]?).isSome → s.changedSince tx k = false

/-- What holds of one transaction of a fenced state. -/
def Fences (s : System K V) (tx : Transaction K V) (k : K) : Prop :=
  (tx.wrote[k]? = none → s.changedSince tx k = true → ∃ head, (s.store.chain k).head? = some head ∧
    tx.snapshot.seesEffect s.store.mgr head.decider = false) ∧
  ((tx.wrote[k]?).isSome → s.changedSince tx k = false)

theorem Fenced.fences (h : Fenced s) {x : ℕ} {tx : Transaction K V} (htx : s.txs[x]? = some tx) (k : K) : Fences s tx k :=
  ⟨h.ahead x tx htx k,h.first x tx htx k⟩

theorem Fenced.of_fences (h : Basic s) (hf : ∀ (x : ℕ) (tx : Transaction K V), s.txs[x]? = some tx → ∀ k, Fences s tx k) :
    Fenced s := ⟨h,fun x tx htx k => (hf x tx htx k).1,fun x tx htx k => (hf x tx htx k).2⟩

theorem fences_of_unchanged {tx : Transaction K V} {k : K} (h : s.changedSince tx k = false) : Fences s tx k := by
  refine ⟨fun _ hc => ?_,fun _ => h⟩
  rw [h] at hc
  cases hc

theorem Fences.stays (h : Basic s) {s' : System K V} (he : s.store.mgr.Evolves s'.store.mgr) {k : K}
    (hc : s'.store.chain k = s.store.chain k) {x : ℕ} {tx tx' : Transaction K V} (htx : s.txs[x]? = some tx)
    (hsnap : tx'.snapshot = tx.snapshot) (hx : tx'.xid = x) (hw : tx'.wrote[k]? = tx.wrote[k]?)
    (hnew : ∀ z, Occurs z (s.store.chain k) → s.store.mgr.status[z]? = some .inProgress →
      s'.store.mgr.statusOf z ≠ .committed) (hf : Fences s tx k) : Fences s' tx' k := by
  have hback := changedSince_stays h he hc htx hsnap hx hnew
  refine ⟨?_,?_⟩
  · intro hnone hch
    obtain ⟨head,hhead,hsee⟩ := hf.1 (hw ▸ hnone) (hback hch)
    exact ⟨head,by rw [hc,hhead],by rw [hsnap,(h.sound x tx htx).stable he,hsee]⟩
  · intro hsome
    rw [Bool.eq_false_iff]
    intro hch
    have hno := hf.2 (hw ▸ hsome)
    rw [hback hch] at hno
    cases hno

/-- The first write of a key that meets no conflict and masks none: nothing was changed since. -/
theorem Fenced.unchanged (h : Fenced s) {x : ℕ} {tx : Transaction K V} (htx : s.txs[x]? = some tx)
    (ht : Turns s x tx (tx.beforeStatement s)) {key : K}
    (hc : s.store.conflictingWriter (s.store.chain key) x (tx.beforeStatement s).snapshot = none)
    (hm : s.masks (tx.beforeStatement s) key = false) : s.changedSince (tx.beforeStatement s) key = false := by
  obtain ⟨hsnap,-⟩ | ⟨hsnap,-⟩ := ht.snapshot
  · rw [Bool.eq_false_iff]
    intro hch
    have hch' : s.changedSince tx key = true := changedSince_stays h.toBasic (.refl _) rfl htx hsnap ht.xid
      (fun z _ hz => by rw [h.mgr.statusOf hz]; decide) hch
    cases hw : tx.wrote[key]? with
    | some w =>
      have hno := h.first x tx htx key (by rw [hw]; rfl)
      rw [hch'] at hno
      cases hno
    | none =>
      obtain ⟨head,hhead,hsee⟩ := h.ahead x tx htx key hw hch'
      have hmem := List.mem_of_mem_head? (Option.mem_def.mpr hhead)
      have hknown := (h.chains key).known head hmem
      have hdec : Occurs head.decider (s.store.chain key) ∧ head.decider ≠ invalidXid := by
        cases hlive : head.isLive with
        | true =>
          rw [Version.decider,hlive,if_pos rfl]
          exact ⟨⟨head,hmem,Or.inl rfl⟩,by unfold invalidXid; omega⟩
        | false =>
          rw [Version.decider,hlive,if_neg Bool.false_ne_true]
          exact ⟨⟨head,hmem,Or.inr rfl⟩,by simpa [Version.isLive] using hlive⟩
      have hne : head.decider ≠ x := fun heq => h.absent htx hw (heq ▸ hdec.1)
      have hab : s.store.mgr.statusOf head.decider ≠ .aborted := by
        intro hab
        simp [masks,hhead,hab,hch] at hm
      simp [VersionedStore.conflictingWriter,hhead,hdec.2,hne,hsnap,hsee,hab] at hc
  · exact changedSince_capture h.toBasic (by rw [hsnap,ht.xid]) key

theorem Moves.fenced {a : Action K V} {s' : System K V} (h : Fenced s) (hm : Moves s a s') (ho : s.overlooks a = false) :
    Fenced s' := by
  have hbasic := hm.basic h.toBasic
  obtain ⟨he,-⟩ := hm.evolves h.toBasic
  refine .of_fences hbasic ?_
  have hquiet : ∀ z, s.store.mgr.status[z]? = some .inProgress → s.store.mgr.statusOf z ≠ .committed := by
    intro z hz
    rw [h.mgr.statusOf hz]
    decide
  cases hm with
  | idle _ hs _ hc _ ht =>
    intro x tx htx k
    rw [ht] at htx
    refine Fences.stays h.toBasic he (by simp only [VersionedStore.chain,hc]) htx rfl (h.xid x tx htx).1 rfl ?_ (h.fences htx k)
    intro z _ hz
    rw [hbasic.mgr.statusOf (hs ▸ hz)]
    decide
  | began level =>
    intro x tx htx k
    refine Fences.stays h.toBasic he rfl htx rfl (h.xid x tx htx).1 rfl ?_ (h.fences htx k)
    intro z _ hz
    have hne : s.store.mgr.next ≠ z := by
      have hlt := (h.mgr.ids z _ hz).2
      omega
    have hst : (s.step (.begin level)).store.mgr.status[z]? = some .inProgress := by simp [step,Registry.begin,hne,hz]
    rw [hbasic.mgr.statusOf hst]
    decide
  | @captured y level _ hb =>
    intro x tx htx k
    simp only [Map.get_insert] at htx
    split_ifs at htx with hyx
    · subst hyx
      obtain rfl := Option.some.inj htx
      exact fences_of_unchanged (changedSince_capture hbasic rfl k)
    · exact Fences.stays h.toBasic he rfl htx rfl (h.xid x tx htx).1 rfl (fun z _ hz => hquiet z hz) (h.fences htx k)
  | @turned y ty ty' hty ht =>
    intro x tx htx k
    simp only [Map.get_insert] at htx
    split_ifs at htx with hyx
    · subst hyx
      obtain rfl := Option.some.inj htx
      obtain ⟨hsnap,-⟩ | ⟨hsnap,-⟩ := ht.snapshot
      · exact Fences.stays h.toBasic he rfl hty hsnap ht.xid (by rw [ht.wrote]) (fun z _ hz => hquiet z hz) (h.fences hty k)
      · exact fences_of_unchanged (changedSince_capture hbasic (by rw [hsnap,ht.xid]) k)
    · exact Fences.stays h.toBasic he rfl htx rfl (h.xid x tx htx).1 rfl (fun z _ hz => hquiet z hz) (h.fences htx k)
  | @wrote y ty key w ha hty ht chain hc hch =>
    have hmask : s.masks (ty.beforeStatement s) key = false := by
      subst ha
      cases w with
      | some value => simpa only [Action.write,overlooks,hty] using ho
      | none =>
        rw [Overwrites] at hch
        simpa only [Action.write,overlooks,hty,hch,Option.isSome_some,Bool.true_and] using ho
    obtain ⟨-,hoccurs,-,hsub⟩ := h.overwritten hty ht hc hch
    have hchain : ∀ k, (s.wroteTo y (ty.beforeStatement s) key chain w).store.chain k =
        if key = k then chain else s.store.chain k := fun k => chain_insert s.store key k chain
    intro x tx htx k
    simp only [wroteTo,Map.get_insert] at htx
    by_cases hk : key = k
    · subst hk
      split_ifs at htx with hyx
      · -- the writer itself
        subst hyx
        obtain rfl := Option.some.inj htx
        refine fences_of_unchanged ?_
        rw [Bool.eq_false_iff]
        intro hchanged
        obtain ⟨z,hz,hu⟩ := changedSince_iff.mp hchanged
        rw [hchain,if_pos rfl] at hz
        obtain ⟨hne,hst,hsee⟩ := unseen_iff.mp hu
        obtain rfl | hz := hsub z (committed_ne hst) hz
        · exact hne ht.xid.symm
        · have hno := h.unchanged hty ht hc hmask
          have hyes : s.changedSince (ty.beforeStatement s) key = true :=
            changedSince_iff.mpr ⟨z,hz,unseen_iff.mpr ⟨hne,hst,hsee⟩⟩
          rw [hyes] at hno
          cases hno
      · have hin := h.status htx
        refine ⟨?_,?_⟩
        · intro _ _
          obtain ⟨head,hhead,hd⟩ := (hbasic.chains key).decides y (h.status hty) (by rw [hchain,if_pos rfl]; exact hoccurs)
          refine ⟨head,hhead,?_⟩
          rw [hd]
          exact (h.sound x tx htx).hidden (h.status hty) (by rw [(h.xid x tx htx).2]; exact hyx)
        · intro hsome
          exact absurd (h.unopposed hty ht hc hin (h.wrote x tx htx key hsome)).symm hyx
    · have hsame : (s.wroteTo y (ty.beforeStatement s) key chain w).store.chain k = s.store.chain k := by
        rw [hchain,if_neg hk]
      split_ifs at htx with hyx
      · subst hyx
        obtain rfl := Option.some.inj htx
        obtain ⟨hsnap,-⟩ | ⟨hsnap,-⟩ := ht.snapshot
        · refine Fences.stays h.toBasic he hsame hty hsnap ht.xid ?_ (fun z _ hz => hquiet z hz) (h.fences hty k)
          simp only [Transaction.wroteTo,Map.get_insert,if_neg hk,ht.wrote]
        · refine fences_of_unchanged (changedSince_capture hbasic ?_ k)
          exact hsnap.trans (by rw [Transaction.wroteTo,ht.xid]; rfl)
      · exact Fences.stays h.toBasic he hsame htx rfl (h.xid x tx htx).1 rfl (fun z _ hz => hquiet z hz) (h.fences htx k)
  | @ended y ty st _ hty _ hst hf hc _ ht =>
    obtain ⟨hin,hmgr⟩ := Registry.finish_ok hf
    intro x tx htx k
    rw [ht,Map.get_erase] at htx
    split_ifs at htx with hyx
    have hsame : s'.store.chain k = s.store.chain k := by simp only [VersionedStore.chain,hc]
    by_cases hoccurs : Occurs y (s.store.chain k)
    · -- what has just ended is at the end of the chain
      obtain ⟨head,hhead,hd⟩ := (h.chains k).decides y hin hoccurs
      refine ⟨fun _ _ => ⟨head,by rw [hsame,hhead],?_⟩,?_⟩
      · rw [hd,(h.sound x tx htx).stable he]
        exact (h.sound x tx htx).hidden hin (by rw [(h.xid x tx htx).2]; exact hyx)
      · intro hsome
        obtain ⟨head',hhead',hd'⟩ := (h.chains k).decides x (h.status htx) (h.wrote x tx htx k hsome)
        obtain rfl : head = head' := Option.some.inj (hhead.symm.trans hhead')
        exact absurd (hd.symm.trans hd') hyx
    · refine Fences.stays h.toBasic he hsame htx rfl (h.xid x tx htx).1 rfl ?_ (h.fences htx k)
      intro z hz hzin
      have hne : y ≠ z := fun heq => hoccurs (heq ▸ hz)
      rw [Registry.statusOf_congr (r := s.store.mgr) (by rw [hmgr]; simp [hne])]
      exact hquiet z hzin

end Steps

/-! ## Every run -/

/-- No write of the run goes over a masked commit. -/
def Heeds (s : System K V) (as : List (Action K V)) : Prop := ∀ t ∈ s.trace as, t.1.overlooks t.2 = false

theorem empty_fenced : Fenced ({} : System K V) := .of_fences empty_basic (by simp)

theorem run_fenced {s : System K V} (h : Fenced s) {as : List (Action K V)} (hv : Unswept as) (hh : s.Heeds as) :
    Fenced (s.run as) := by
  induction as generalizing s with
  | nil => exact h
  | cons a as ih =>
    have hstep := (step_moves h.toBasic a (hv a (by simp))).fenced h (hh (s,a) (by simp [trace]))
    exact ih hstep (fun b hb => hv b (by simp [hb])) (fun t ht => hh t (by simp [trace,ht]))

/-- Of two transactions that write one key, one has committed before the snapshot of the other is
captured: where `t` commits and `u`, which keeps its snapshot, is open later, both with a write of
the key, `u` was captured in between. -/
theorem no_lost_update (as bs : List (Action K V)) (t u : ℕ) (hv : Unswept (as ++ .commit t :: bs))
    (hrun : ({} : System K V).Heeds (as ++ .commit t :: bs)) (key : K) (tx ux : Transaction K V)
    (htx : (({} : System K V).run as).txs[t]? = some tx) (htw : (tx.wrote[key]?).isSome)
    (hok : ((({} : System K V).run as).commitTx tx).1 = .ok ())
    (hux : (({} : System K V).run (as ++ .commit t :: bs)).txs[u]? = some ux) (huw : (ux.wrote[key]?).isSome)
    (hl : ux.level.refreshesSnapshotPerStatement = false) : .capture u ∈ bs := by
  have hlast := run_fenced empty_fenced hv hrun
  have hvas : Unswept as := fun a ha => hv a (by simp [ha])
  have hvbs : Unswept bs := fun a ha => hv a (by simp [ha])
  have hfirst := run_basic empty_basic hvas
  rw [run_append] at hux hlast
  obtain ⟨s,hs⟩ : ∃ s, ({} : System K V).run as = s := ⟨_,rfl⟩
  rw [hs] at htx hok hux hlast hfirst
  have hmove := step_moves hfirst (.commit t) (by simp)
  obtain ⟨s',hs'⟩ : ∃ s', s.step (.commit t) = s' := ⟨_,rfl⟩
  have hrest : s.run (.commit t :: bs) = s'.run bs := by rw [← hs']; rfl
  rw [hs'] at hmove
  rw [hrest] at hux hlast
  have hmid := hmove.basic hfirst
  have hin := hfirst.status htx
  have hzero := hfirst.mgr.ne_invalid hin
  -- `t` has committed and stays in the chain
  have hcommitted : s'.store.mgr.status[t]? = some .committed := by
    obtain ⟨st,mgr,-,hf,hstore,hst⟩ := commitTx_cases hfirst htx
    obtain rfl := hst.mp hok
    have hmgr : s'.store = (s.commitTx tx).2 := by
      rw [← hs']
      simp only [step,htx]
      split <;> rename_i hr <;> simp [hr]
    rw [hmgr,hstore]
    obtain ⟨-,rfl⟩ := Registry.finish_ok hf
    simp
  have hstatus : (s'.run bs).store.mgr.status[t]? = some .committed := by
    rw [(run_evolves hmid hvbs).final t (hmid.mgr.ids t _ hcommitted).2 (by rw [hcommitted]; decide),hcommitted]
  have hoccurs : Occurs t ((s'.run bs).store.chain key) :=
    run_occurs hmid hvbs hzero (hmove.occurs hfirst hzero (hfirst.wrote t tx htx key htw))
  have hne : t ≠ u := by
    rintro rfl
    rw [hlast.status hux] at hstatus
    cases hstatus
  by_contra hno
  obtain ⟨uy,huy,hsnap,-⟩ := run_held hmid hvbs hux hl hno
  -- the snapshot is from before the commit, and does not see it
  have hhidden : ux.snapshot.seesEffect (s'.run bs).store.mgr t = false := by
    have hstep : uy.snapshot.seesEffect s'.store.mgr t = false := by
      cases hmove.remains huy with
      | held hold _ hs₀ =>
        have hsound := hfirst.sound u _ hold
        obtain hs₀ | ⟨hs₀,-⟩ := hs₀
        · rw [hs₀,hsound.stable (hmove.evolves hfirst).1]
          exact hsound.hidden hin (by rw [(hfirst.xid u _ hold).2]; exact hne)
        · have hcap := Snapshot.sound_capture hfirst.mgr (hfirst.status hold)
          rw [hs₀,hcap.stable (hmove.evolves hfirst).1]
          exact hcap.hidden hin hne
      | new ha => cases ha
    rw [hsnap,(hmid.sound u uy huy).stable (run_evolves hmid hvbs)]
    exact hstep
  have hunseen : (s'.run bs).unseen ux t = true := by
    refine unseen_iff.mpr ⟨?_,hlast.mgr.statusOf hstatus,hhidden⟩
    rw [(hlast.xid u ux hux).1]
    exact hne
  have hchanged := hlast.first u ux hux key huw
  rw [changedSince_iff.mpr ⟨t,hoccurs,hunseen⟩] at hchanged
  cases hchanged

end System
end System

section Samples

/-- Two transactions put a key one after the other. -/
theorem no_lost_update_sample :
    let as : List (Action String ℕ) := [.begin .snapshotIsolation,.capture 1,.put 1 "k" 1]
    let bs : List (Action String ℕ) := [.begin .snapshotIsolation,.capture 2,.put 2 "k" 2]
    .capture 2 ∈ bs ∧ ((({} : System String ℕ).run (as ++ .commit 1 :: bs)).txs[2]?).isSome := by
  intro as bs
  have hheeds : ({} : System String ℕ).Heeds (as ++ .commit 1 :: bs) := by
    unfold System.Heeds
    decide +kernel
  have hv : System.Unswept (as ++ .commit 1 :: bs) := by simp [System.Unswept,as,bs]
  obtain ⟨tx,htx⟩ : ∃ tx, (({} : System String ℕ).run as).txs[1]? = some tx :=
    Option.isSome_iff_exists.mp (by decide +kernel)
  obtain ⟨ux,hux⟩ : ∃ ux, (({} : System String ℕ).run (as ++ .commit 1 :: bs)).txs[2]? = some ux :=
    Option.isSome_iff_exists.mp (by decide +kernel)
  have htw : (((({} : System String ℕ).run as).txs[1]?).map (fun tx => (tx.wrote["k"]?).isSome)) = some true := by
    decide +kernel
  have huw : (((({} : System String ℕ).run (as ++ .commit 1 :: bs)).txs[2]?).map
      (fun tx => ((tx.wrote["k"]?).isSome,tx.level.refreshesSnapshotPerStatement))) = some (true,false) := by decide +kernel
  have hok : (((({} : System String ℕ).run as).txs[1]?).map
      (fun tx => ((({} : System String ℕ).run as).commitTx tx).1.toBool)) = some true := by decide +kernel
  rw [htx] at htw hok
  rw [hux] at huw
  have hok' : ((({} : System String ℕ).run as).commitTx tx).1 = .ok () := by
    cases hr : ((({} : System String ℕ).run as).commitTx tx).1 with
    | ok u => rfl
    | error err => simp [hr,Except.toBool] at hok
  obtain ⟨huw,hl⟩ := Prod.mk.inj (Option.some.inj huw)
  exact ⟨System.no_lost_update as bs 1 2 hv hheeds "k" tx ux htx (Option.some.inj htw) hok' hux huw hl,by rw [hux]; rfl⟩

/-- A reader begins; another transaction commits a value of the key and one after it aborts its own:
the first one overwrites the committed value and commits. -/
theorem aborted_put_hides_commit :
    let as : List (Action String ℕ) := [.begin .snapshotIsolation,.capture 1,.begin .snapshotIsolation,.capture 2,.put 2 "k" 2]
    let bs : List (Action String ℕ) := [.begin .snapshotIsolation,.capture 3,.put 3 "k" 3,.abort 3,.put 1 "k" 1]
    let s := ({} : System String ℕ).run as
    let s' := ({} : System String ℕ).run (as ++ .commit 2 :: bs)
    s.txs[2]?.map (fun tx => ((tx.wrote["k"]?).isSome,(s.commitTx tx).1.toBool)) = some (true,true) ∧
      s'.txs[1]?.map (fun tx => ((tx.wrote["k"]?).isSome,(s'.commitTx tx).1.toBool)) = some (true,true) ∧
        .capture 1 ∉ bs :=
  ⟨by decide +kernel,by decide +kernel,by simp⟩

end Samples
end Drevo.Mvcc
