import Drevo.Mvcc.Serial

/-! Serializable transactions in any order. Where no delete meets what an aborted transaction left,
and no commit goes through after somebody has changed what the transaction read or deleted, the
transactions that committed are explained by running them one after the other. -/
set_option linter.unusedSectionVars false

namespace Drevo.Mvcc
open Lib Std

section System
variable {K V : Type} [Ord K] [TransOrd K] [LawfulEqOrd K] [DecidableEq K]

namespace Journal

/-- The map after these transactions, one after the other. -/
def contents (j : Journal K V) (xs : List ℕ) : K → Option V :=
  xs.foldl (fun m x => Event.replay m (j.eventsOf x)) (fun _ => none)

/-- The commit goes through although a transaction that is not seen has changed a key that was read
or deleted: something else stands at the end of the chain, or the key is not in the read set. -/
def stale (j : Journal K V) : Action K V → Bool
  | .commit x =>
    match j.sys.txs[x]? with
    | none => false
    | some tx =>
      (tx.reads.findSome? (fun key => j.sys.store.readConflict (j.sys.store.chain key) x tx.snapshot)).isNone &&
        (j.eventsOf x).any (fun e => e.depends && j.sys.changedSince tx e.key)
  | _ => false

theorem contents_append (j : Journal K V) (xs : List ℕ) (x : ℕ) :
    j.contents (xs ++ [x]) = Event.replay (j.contents xs) (j.eventsOf x) := by
  simp only [contents,List.foldl_append,List.foldl_cons,List.foldl_nil]

theorem contents_congr {j j' : Journal K V} {xs : List ℕ} (h : ∀ x ∈ xs, j'.eventsOf x = j.eventsOf x) :
    j'.contents xs = j.contents xs := by
  induction xs using List.reverseRecOn with
  | nil => rfl
  | append_singleton xs x ih =>
    rw [contents_append,contents_append,ih (fun y hy => h y (by simp [hy])),h x (by simp)]

end Journal

def Action.caller : Action K V → Option ℕ
  | .capture x => some x
  | .get x _ => some x
  | .put x _ _ => some x
  | .delete x _ => some x
  | _ => none

namespace System
section Steps
variable {s : System K V}

/-- The other transactions stay as they are, if they do not end. -/
theorem step_others {a : Action K V} {y : ℕ} {ty : Transaction K V} (ha : a.caller ≠ some y)
    (hty : (s.step a).txs[y]? = some ty) : s.txs[y]? = some ty := by
  have hinsert : ∀ {x : ℕ} {t : Transaction K V}, x ≠ y → (s.txs.insert x t)[y]? = some ty → s.txs[y]? = some ty := by
    intro x t hxy h
    rwa [Map.get_insert,if_neg hxy] at h
  have herase : ∀ {x : ℕ}, (s.txs.erase x)[y]? = some ty → s.txs[y]? = some ty := by
    intro x h
    rw [Map.get_erase] at h
    split_ifs at h
    exact h
  cases a with
  | begin level => exact hty
  | beginSnapshot my => exact hty
  | releaseSnapshot xmin => exact hty
  | readHorizon c => exact hty
  | vacuum c =>
    simp only [step] at hty
    split at hty <;> exact hty
  | capture x =>
    have hxy : x ≠ y := fun hxy => ha (by rw [← hxy]; rfl)
    simp only [step] at hty
    split at hty
    · exact hty
    · exact hinsert hxy hty
  | get x key =>
    have hxy : x ≠ y := fun hxy => ha (by rw [← hxy]; rfl)
    simp only [step] at hty
    split at hty
    · exact hty
    · exact hinsert hxy hty
  | put x key value =>
    have hxy : x ≠ y := fun hxy => ha (by rw [← hxy]; rfl)
    simp only [step] at hty
    split at hty
    · exact hty
    · split at hty
      · exact hinsert hxy hty
      · exact hinsert hxy hty
  | delete x key =>
    have hxy : x ≠ y := fun hxy => ha (by rw [← hxy]; rfl)
    simp only [step] at hty
    split at hty
    · exact hty
    · split at hty
      · exact hinsert hxy hty
      · exact hinsert hxy hty
  | commit x =>
    simp only [step] at hty
    split at hty
    · exact hty
    · split at hty
      · exact herase hty
      · exact herase hty
  | abort x =>
    simp only [step] at hty
    split at hty
    · exact hty
    · split at hty
      · exact herase hty
      · exact herase hty

theorem changedSince_mono (h : Inv s) {a : Action K V} {s' : System K V} (hmv : Moves s a s') {y : ℕ} {ty : Transaction K V}
    (hty : s.txs[y]? = some ty) {k : K} (hch : s.changedSince ty k = true) : s'.changedSince ty k = true := by
  obtain ⟨z,ho,hu⟩ := changedSince_iff.mp hch
  obtain ⟨hne,hst,hsee⟩ := unseen_iff.mp hu
  obtain ⟨he,-⟩ := hmv.evolves h.basic
  refine changedSince_iff.mpr ⟨z,hmv.occurs h.basic (committed_ne hst) ho,unseen_iff.mpr ⟨hne,?_,?_⟩⟩
  · have hlt := (h.chains k).occurs_lt ho
    rw [statusOf_evolves he hlt ?_]
    · exact hst
    · rw [committed_status hst]
      simp
  · rw [(h.txs y ty hty).sound.stable he]
    exact hsee

/-- What changes the committed value of a key is not seen by the others. -/
theorem latest_unchanged (h : Inv s) {a : Action K V} {s' : System K V} (hmv : Moves s a s') {y : ℕ} {ty : Transaction K V}
    (hty : s.txs[y]? = some ty) (hty' : s'.txs[y]? = some ty) {k : K} (hch : s'.changedSince ty k = false) :
    s'.latest k = s.latest k := by
  have hocc : ∀ z, z ≠ invalidXid → Occurs z (s.store.chain k) → Occurs z (s'.store.chain k) :=
    fun z hz ho => hmv.occurs h.basic hz ho
  have hevolves := (hmv.evolves h.basic).1
  cases hmv with
  | idle _ _ _ _ _ _ hl => rw [hl]
  | began level => rfl
  | captured => rfl
  | turned => rfl
  | wrote => rfl
  | @ended x tx st _ htx _ hst hf _ _ ht hl =>
    rw [hl]
    split_ifs with hcom
    · have hxy : x ≠ y := by
        rintro rfl
        rw [ht] at hty'
        simp at hty'
      cases hw : tx.wrote[k]? with
      | none => simp only [committing,hw,Option.getD_none]
      | some w =>
        have hin := (h.txs x tx htx).status
        have hne := h.mgr.ne_invalid hin
        have ho := h.basic.wrote x tx htx k (by rw [hw]; rfl)
        have hty₀ := h.txs y ty hty
        obtain ⟨-,hmgr⟩ := Registry.finish_ok hf
        have hyes : s'.changedSince ty k = true := by
          refine changedSince_iff.mpr ⟨x,hocc x hne ho,unseen_iff.mpr ⟨?_,?_,?_⟩⟩
          · rw [hty₀.xid]
            exact hxy
          · subst hcom
            rw [hmgr]
            exact Registry.statusOf_of hne (by simp)
          · rw [hty₀.sound.stable hevolves]
            exact hty₀.sound.hidden hin (by rw [hty₀.mine]; exact hxy)
        rw [hyes] at hch
        cases hch
    · rfl

theorem account_others (h : Inv s) {a : Action K V} {s' : System K V} (h' : Inv s') (hmv : Moves s a s') {y : ℕ} {ty : Transaction K V}
    (hty : s.txs[y]? = some ty) (hty' : s'.txs[y]? = some ty) (hl : ty.level.refreshesSnapshotPerStatement = false)
    {es : List (Event K V)} {k : K} (hacc : Account s ty es k) : Account s' ty es k := by
  refine hacc.stays rfl rfl ?_ (latest_unchanged h hmv hty hty') ?_
  · intro hch
    rw [Bool.eq_false_iff] at hch ⊢
    exact fun hyes => hch (changedSince_mono h hmv hty hyes)
  · rw [(h.txs y ty hty).view hl,(h'.txs y ty hty').view hl]

theorem event_open {a : Action K V} {x : ℕ} {e : Event K V} (h : s.event a = some (x,e)) :
    a.caller = some x ∧ (s.txs[x]?).isSome := by
  cases a with
  | get y key =>
    simp only [event,Option.map_eq_some_iff,Prod.mk.injEq] at h
    obtain ⟨tx,htx,rfl,-⟩ := h
    exact ⟨rfl,by rw [htx]; rfl⟩
  | put y key value =>
    simp only [event] at h
    split at h
    · cases h
    · rename_i tx htx
      split at h
      · obtain ⟨rfl,-⟩ := Prod.mk.inj (Option.some.inj h)
        exact ⟨rfl,by rw [htx]; rfl⟩
      · cases h
  | delete y key =>
    simp only [event] at h
    split at h
    · cases h
    · rename_i tx htx
      split at h
      · obtain ⟨rfl,-⟩ := Prod.mk.inj (Option.some.inj h)
        exact ⟨rfl,by rw [htx]; rfl⟩
      · cases h
  | _ => cases h

theorem committer_passes (h : Inv s) {a : Action K V} {x : ℕ} (hc : s.committer a = some x) :
    a = .commit x ∧ ∃ tx, s.txs[x]? = some tx ∧ (s.commitTx tx).1 = .ok () ∧ (tx.level = .serializable →
      tx.reads.findSome? (fun key => s.store.readConflict (s.store.chain key) x tx.snapshot) = none) := by
  cases a with
  | commit y =>
    simp only [committer] at hc
    split at hc
    · cases hc
    · rename_i tx htx
      split_ifs at hc with hok
      obtain rfl := Option.some.inj hc
      have hpass : (s.commitTx tx).1 = .ok () := by
        cases hres : (s.commitTx tx).1 with
        | ok u => rfl
        | error err => simp [hres,Except.toBool] at hok
      refine ⟨rfl,tx,htx,hpass,?_⟩
      intro hl
      have hx := (h.txs y tx htx).xid
      cases hreads : tx.reads.findSome? (fun key => s.store.readConflict (s.store.chain key) y tx.snapshot) with
      | none => rfl
      | some winner =>
        simp only [commitTx,hl,IsolationLevel.validatesReadSet,if_true,VersionedStore.commitSerializable,hx,hreads] at hpass
        split at hpass <;> cases hpass
  | _ => cases hc

end Steps
end System

namespace Journal
variable {j : Journal K V}

/-- Run one after the other, the transactions are told what they were told. -/
def Explains (j : Journal K V) (xs : List ℕ) : Prop :=
  ∀ before x after, xs = before ++ x :: after → Event.Agrees (j.contents before) (j.eventsOf x)

theorem explains_append {xs : List ℕ} {x : ℕ} (h : j.Explains xs) (hx : Event.Agrees (j.contents xs) (j.eventsOf x)) :
    j.Explains (xs ++ [x]) := by
  intro before y after he
  obtain rfl | ⟨after',z,rfl⟩ := List.eq_nil_or_concat after
  · obtain ⟨rfl,hxy⟩ := List.append_inj' he rfl
    obtain rfl : x = y := by simpa using hxy
    exact hx
  · rw [List.concat_eq_append,← List.cons_append,← List.append_assoc] at he
    exact h before y after' (List.append_inj' he rfl).1

theorem explains_congr {j' : Journal K V} {xs : List ℕ} (h : j.Explains xs) (he : ∀ x ∈ xs, j'.eventsOf x = j.eventsOf x) :
    j'.Explains xs := by
  intro before x after hxs
  subst hxs
  rw [contents_congr (fun y hy => he y (by simp [hy])),he x (by simp)]
  exact h before x after rfl

structure Inv (j : Journal K V) : Prop where
  sys : j.sys.Inv
  levels : ∀ (x : ℕ) (level : IsolationLevel), j.sys.begun[x]? = some level → level = .serializable
  told : ∀ p ∈ j.history, p.1 < j.sys.store.mgr.next ∧ j.sys.begun[p.1]? = none
  accounts : ∀ (x : ℕ) (tx : Transaction K V), j.sys.txs[x]? = some tx → tx.level = .serializable ∧
    ∀ k, j.sys.Account tx (j.eventsOf x) k
  done : ∀ x ∈ j.commits, j.sys.txs[x]? = none ∧ x < j.sys.store.mgr.next ∧ j.sys.begun[x]? = none
  latest : j.sys.latest = j.contents j.commits
  explained : j.Explains j.commits

theorem eventsOf_others {a : Action K V} {y : ℕ} (h : a.caller ≠ some y ∨ j.sys.txs[y]? = none) :
    (j.step a).eventsOf y = j.eventsOf y := by
  rw [eventsOf_step]
  cases he : j.sys.event a with
  | none => simp
  | some p =>
    obtain ⟨x,e⟩ := p
    obtain ⟨hcaller,hopen⟩ := System.event_open he
    have hxy : x ≠ y := by
      rintro rfl
      obtain hne | hnone := h
      · exact hne hcaller
      · rw [hnone] at hopen
        cases hopen
    simp [hxy]

theorem eventsOf_caller {a : Action K V} {y : ℕ} (h : a.caller = some y) :
    (j.step a).eventsOf y = j.eventsOf y ++ (j.sys.event a).toList.map Prod.snd := by
  rw [eventsOf_step]
  cases he : j.sys.event a with
  | none => simp
  | some p =>
    obtain ⟨x,e⟩ := p
    obtain ⟨hcaller,-⟩ := System.event_open he
    obtain rfl := Option.some.inj (hcaller.symm.trans h)
    simp

theorem Inv.new (h : Inv j) {x : ℕ} {level : IsolationLevel} (hb : j.sys.begun[x]? = some level) : j.eventsOf x = [] := by
  simp only [eventsOf,List.map_eq_nil_iff,List.filter_eq_nil_iff,decide_eq_true_eq]
  rintro p hp rfl
  have hnone := (h.told p hp).2
  rw [hb] at hnone
  cases hnone

theorem Inv.accounts_call (h : Inv j) {y : ℕ} {tx : Transaction K V} (htx : j.sys.txs[y]? = some tx)
    {a : Action K V} (hcaller : a.caller = some y) (hm : j.sys.misleads a = false) (hcap : a ≠ .capture y) :
    ∃ tx', (j.sys.step a).txs[y]? = some tx' ∧
      ∀ k, (j.sys.step a).Account tx' (j.eventsOf y ++ (j.sys.event a).toList.map Prod.snd) k := by
  obtain ⟨hl,hacc⟩ := h.accounts y tx htx
  have hbefore : (tx.beforeStatement j.sys).snapshot = tx.snapshot := by
    rw [System.before_stable (by rw [hl]; rfl)]
  cases a with
  | capture x =>
    obtain rfl := Option.some.inj hcaller
    exact absurd rfl hcap
  | get x key =>
    obtain rfl := Option.some.inj hcaller
    obtain ⟨tx',htx',-,hacc'⟩ := System.account_get h.sys htx hbefore key hacc
    have hget : (tx.get j.sys key).1 = j.sys.store.get key tx.snapshot := by
      rw [← hbefore]
      simp only [Transaction.get]
      split_ifs <;> rfl
    refine ⟨tx',htx',?_⟩
    simpa only [System.event,htx,Option.map_some,hget,Option.toList_some,List.map_cons,List.map_nil] using hacc'
  | put x key value =>
    obtain rfl := Option.some.inj hcaller
    obtain ⟨tx',htx',-,hacc'⟩ := System.account_put h.sys htx hbefore key value hacc
    exact ⟨tx',htx',hacc'⟩
  | delete x key =>
    obtain rfl := Option.some.inj hcaller
    obtain ⟨tx',htx',-,hacc'⟩ := System.account_delete h.sys htx hbefore key hm hacc
    exact ⟨tx',htx',hacc'⟩
  | _ => cases hcaller

theorem step_absent {s : System K V} {y : ℕ} {a : Action K V} (hcaller : a.caller = some y) (hcap : a ≠ .capture y)
    (htx : s.txs[y]? = none) : s.step a = s := by
  cases a with
  | capture x =>
    obtain rfl := Option.some.inj hcaller
    exact absurd rfl hcap
  | get x key =>
    obtain rfl := Option.some.inj hcaller
    simp only [System.step,htx]
  | put x key value =>
    obtain rfl := Option.some.inj hcaller
    simp only [System.step,htx]
  | delete x key =>
    obtain rfl := Option.some.inj hcaller
    simp only [System.step,htx]
  | _ => cases hcaller

theorem Inv.accounts_step (h : Inv j) {a : Action K V} (hv : ∀ c, a ≠ .vacuum c) (hm : j.sys.misleads a = false)
    (y : ℕ) (ty : Transaction K V) (hty : (j.sys.step a).txs[y]? = some ty) :
    ty.level = .serializable ∧ ∀ k, (j.sys.step a).Account ty ((j.step a).eventsOf y) k := by
  have hinv := System.straight_inv h.sys hv hm
  have hmv := System.step_moves h.sys.basic a hv
  by_cases hcap : a = .capture y ∧ (j.sys.begun[y]?).isSome
  · -- it gets its snapshot
    obtain ⟨rfl,hb⟩ := hcap
    obtain ⟨level,hb⟩ := Option.isSome_iff_exists.mp hb
    have hnone := (h.sys.begun y level hb).2
    rw [eventsOf_others (Or.inr hnone),h.new hb]
    rw [System.step_capture hb] at hty hinv ⊢
    obtain rfl : j.sys.opened y level = ty := by simpa using hty
    have hl := h.levels y level hb
    refine ⟨hl,fun k => System.account_empty rfl ((hinv.txs y _ hty).view ?_ k)⟩
    rw [show (j.sys.opened y level).level = level from rfl,hl]
    rfl
  by_cases hcaller : a.caller = some y ∧ a ≠ .capture y
  · -- its own call
    obtain ⟨hcaller,hne⟩ := hcaller
    cases htx : j.sys.txs[y]? with
    | none =>
      rw [step_absent hcaller hne htx,htx] at hty
      cases hty
    | some tx =>
      obtain ⟨tx',htx',hacc⟩ := h.accounts_call htx hcaller hm hne
      obtain rfl := Option.some.inj (htx'.symm.trans hty)
      rw [eventsOf_caller hcaller]
      refine ⟨?_,hacc⟩
      cases hmv.remains hty with
      | @held tx₀ htx₀ hl _ => rw [hl,(h.accounts y tx₀ htx₀).1]
      | new ha _ _ _ => exact absurd ha hne
  · have hold : j.sys.txs[y]? = some ty := by
      by_cases hy : a.caller = some y
      · have hcapture : a = .capture y := by
          by_contra hne
          exact hcaller ⟨hy,hne⟩
        subst hcapture
        have hnone : j.sys.begun[y]? = none := by
          rw [← Option.not_isSome_iff_eq_none]
          exact fun hb => hcap ⟨rfl,hb⟩
        simpa only [System.step,hnone] using hty
      · exact System.step_others hy hty
    have htell : (j.step a).eventsOf y = j.eventsOf y := by
      rw [eventsOf_step]
      cases he : j.sys.event a with
      | none => simp
      | some p =>
        obtain ⟨x,e⟩ := p
        have hcall := (System.event_open he).1
        have hxy : x ≠ y := by
          rintro rfl
          refine hcaller ⟨hcall,?_⟩
          rintro rfl
          cases he
        simp [hxy]
    obtain ⟨hl,hacc⟩ := h.accounts y ty hold
    rw [htell]
    refine ⟨hl,fun k => System.account_others h.sys hinv hmv hold hty ?_ (hacc k)⟩
    rw [hl]
    rfl

theorem step_levels {s : System K V} {a : Action K V} {x : ℕ} {level : IsolationLevel}
    (hb : (s.step a).begun[x]? = some level) : s.begun[x]? = some level ∨ a = .begin level := by
  cases a with
  | begin l =>
    simp only [System.step,Map.get_insert] at hb
    split_ifs at hb
    · exact Or.inr (by rw [Option.some.inj hb])
    · exact Or.inl hb
  | capture y =>
    left
    simp only [System.step] at hb
    split at hb
    · exact hb
    · rw [Map.get_erase] at hb
      split_ifs at hb
      exact hb
  | _ =>
    left
    simp only [System.step] at hb
    repeat' split at hb
    all_goals exact hb

theorem latest_committer {s : System K V} (h : System.Basic s) {a : Action K V} (hv : ∀ c, a ≠ .vacuum c) (hc : s.committer a = none) :
    (s.step a).latest = s.latest := by
  obtain ⟨s',hs'⟩ : ∃ s', s.step a = s' := ⟨_,rfl⟩
  have hmv := System.step_moves h a hv
  rw [hs'] at hmv ⊢
  cases hmv with
  | idle _ _ _ _ _ _ hl => exact hl
  | began level => rfl
  | captured => rfl
  | turned => rfl
  | wrote => rfl
  | @ended x tx st _ htx ha _ _ _ _ _ hl =>
    rw [hl]
    split_ifs with hst
    · obtain ⟨rfl,hok⟩ | ⟨-,hab⟩ := ha
      · simp only [System.committer,htx,hok.mpr hst] at hc
        cases hc
      · rw [hst] at hab
        cases hab
    · rfl

theorem step_commit {s : System K V} {x : ℕ} {tx : Transaction K V} (htx : s.txs[x]? = some tx) (hok : (s.commitTx tx).1 = .ok ()) :
    s.step (.commit x) = { s with store := (s.commitTx tx).2, txs := s.txs.erase x, latest := s.committing tx } := by
  have hpair : s.commitTx tx = (.ok (),(s.commitTx tx).2) := by rw [← hok]
  simp only [System.step,htx]
  rw [hpair]
  rfl

theorem Inv.commit (h : Inv j) {x : ℕ} {tx : Transaction K V} (htx : j.sys.txs[x]? = some tx)
    (hdep : ∀ e ∈ j.eventsOf x, e.depends = true → j.sys.changedSince tx e.key = false) :
    Event.Agrees j.sys.latest (j.eventsOf x) ∧ j.sys.committing tx = Event.replay j.sys.latest (j.eventsOf x) := by
  have hacc := (h.accounts x tx htx).2
  have hcase : ∀ k, j.sys.changedSince tx k = false ∨ ∀ e ∈ Event.about k (j.eventsOf x), e.depends = false := by
    intro k
    by_contra hno
    push Not at hno
    obtain ⟨hch,e,he,hd⟩ := hno
    simp only [Event.about,List.mem_filter,decide_eq_true_eq] at he
    exact hch (he.2 ▸ hdep e he.1 (by simpa using hd))
  refine ⟨Event.agrees_of_tells ?_,?_⟩
  · intro k
    obtain hu | hputs := hcase k
    · exact ((hacc k).told hu).1
    · exact Event.tells_puts hputs
  · funext k
    rw [Event.replay_at]
    obtain hu | hputs := hcase k
    · exact ((hacc k).told hu).2.2
    · exact (hacc k).blind hputs _

theorem Inv.step (h : Inv j) {a : Action K V} (hv : ∀ c, a ≠ .vacuum c) (hl : ∀ level, a = .begin level → level = .serializable)
    (hm : j.sys.misleads a = false) (hs : j.stale a = false) : Inv (j.step a) := by
  have hmv := System.step_moves h.sys.basic a hv
  have hfixed : ∀ y ∈ j.commits, (j.step a).eventsOf y = j.eventsOf y :=
    fun y hy => eventsOf_others (Or.inr (h.done y hy).1)
  have hold : ∀ y ∈ j.commits, (j.sys.step a).txs[y]? = none ∧ y < (j.sys.step a).store.mgr.next ∧ (j.sys.step a).begun[y]? = none := by
    intro y hy
    obtain ⟨hnone,hlt,hbegun⟩ := h.done y hy
    refine ⟨?_,System.step_begun a hlt hbegun⟩
    cases hty : (j.sys.step a).txs[y]? with
    | none => rfl
    | some ty =>
      cases hmv.remains hty with
      | held htx => rw [hnone] at htx; cases htx
      | new _ hb => rw [hbegun] at hb; cases hb
  have hopen : ∀ x tx, j.sys.txs[x]? = some tx → x < j.sys.store.mgr.next ∧ j.sys.begun[x]? = none := by
    intro x tx htx
    refine ⟨(h.sys.mgr.ids x _ (h.sys.txs x tx htx).status).2,?_⟩
    cases hb : j.sys.begun[x]? with
    | none => rfl
    | some level =>
      have hnone := (h.sys.begun x level hb).2
      rw [htx] at hnone
      cases hnone
  have hlevels : ∀ (x : ℕ) (level : IsolationLevel), (j.sys.step a).begun[x]? = some level → level = .serializable := by
    intro x level hb
    obtain hb | ha := step_levels hb
    · exact h.levels x level hb
    · exact hl level ha
  have htold : ∀ p ∈ (j.step a).history, p.1 < (j.sys.step a).store.mgr.next ∧ (j.sys.step a).begun[p.1]? = none := by
    intro p hp
    have hknown : p.1 < j.sys.store.mgr.next ∧ j.sys.begun[p.1]? = none := by
      obtain hp | hp := List.mem_append.mp hp
      · exact h.told p hp
      · have hev : j.sys.event a = some p := by simpa using hp
        obtain ⟨tx,htx⟩ := Option.isSome_iff_exists.mp (System.event_open hev).2
        exact hopen p.1 tx htx
    exact System.step_begun a hknown.1 hknown.2
  cases hc : j.sys.committer a with
  | none =>
    have hcommits : (j.step a).commits = j.commits := by simp [Journal.step,hc]
    refine ⟨System.straight_inv h.sys hv hm,hlevels,htold,h.accounts_step hv hm,?_,?_,?_⟩
    · rw [hcommits]
      exact hold
    · rw [hcommits,contents_congr hfixed,← h.latest]
      exact latest_committer h.sys.basic hv hc
    · rw [hcommits]
      exact explains_congr h.explained hfixed
  | some x =>
    obtain ⟨rfl,tx,htx,hok,hpass⟩ := System.committer_passes h.sys hc
    have hcommits : (j.step (.commit x)).commits = j.commits ++ [x] := by simp [Journal.step,hc]
    have hevents : (j.step (.commit x)).eventsOf x = j.eventsOf x := eventsOf_others (Or.inl (by simp [Action.caller]))
    have hdep : ∀ e ∈ j.eventsOf x, e.depends = true → j.sys.changedSince tx e.key = false := by
      intro e he hd
      rw [Bool.eq_false_iff]
      intro hch
      have hno : j.stale (.commit x) = true := by
        simp only [stale,htx,hpass (h.accounts x tx htx).1,Option.isNone_none,Bool.true_and,List.any_eq_true,Bool.and_eq_true]
        exact ⟨e,he,hd,hch⟩
      rw [hno] at hs
      cases hs
    obtain ⟨hagrees,hcommitting⟩ := h.commit htx hdep
    rw [h.latest] at hagrees hcommitting
    refine ⟨System.straight_inv h.sys hv hm,hlevels,htold,h.accounts_step hv hm,?_,?_,?_⟩
    · intro y hy
      rw [hcommits] at hy
      obtain hy | hy := List.mem_append.mp hy
      · exact hold y hy
      · obtain rfl : y = x := by simpa using hy
        obtain ⟨hlt,hb⟩ := hopen y tx htx
        refine ⟨?_,System.step_begun (.commit y) hlt hb⟩
        change (j.sys.step (.commit y)).txs[y]? = none
        rw [step_commit htx hok]
        simp
    · rw [hcommits,contents_append,contents_congr hfixed,hevents,← hcommitting]
      change (j.sys.step (.commit x)).latest = _
      rw [step_commit htx hok]
    · rw [hcommits]
      refine explains_append (explains_congr h.explained hfixed) ?_
      rw [contents_congr hfixed,hevents]
      exact hagrees

theorem empty_inv : Inv ({} : Journal K V) where
  sys := System.empty_inv
  levels := by simp
  told := by simp
  accounts := by simp
  done := by simp
  latest := rfl
  explained := by
    intro before x after he
    simp at he

theorem run_inv (h : Inv j) {as : List (Action K V)} (hv : System.Unswept as) (hl : ∀ level, .begin level ∈ as → level = .serializable)
    (hs : ∀ t ∈ j.trace as, t.1.sys.misleads t.2 = false ∧ t.1.stale t.2 = false) : Inv (j.run as) := by
  induction as generalizing j with
  | nil => exact h
  | cons a as ih =>
    obtain ⟨hm,hst⟩ := hs (j,a) (by simp [trace])
    have hstep := h.step (hv a (by simp)) (fun level ha => hl level (by simp [ha])) hm hst
    exact ih hstep (fun b hb => hv b (by simp [hb])) (fun level hb => hl level (by simp [hb]))
      (fun t ht => hs t (by simp [trace,ht]))

/-- The transactions that committed are told what a map would tell them that they update one after
the other, in the order of their commits, and the entries of the map are there at the end. -/
theorem serializable (as : List (Action K V)) (hv : System.Unswept as) (hl : ∀ level, .begin level ∈ as → level = .serializable)
    (hs : ∀ t ∈ ({} : Journal K V).trace as, t.1.sys.misleads t.2 = false ∧ t.1.stale t.2 = false) :
    let j := ({} : Journal K V).run as
    j.Explains j.commits ∧ ∀ my, my = invalidXid ∨ j.sys.store.mgr.next ≤ my → ∀ k,
      j.sys.store.get k (j.sys.store.mgr.snapshot my) = j.contents j.commits k := by
  intro j
  have h : Inv j := run_inv empty_inv hv hl hs
  refine ⟨h.explained,?_⟩
  intro my hmy k
  rw [System.get_fresh h.sys hmy k,h.latest]

end Journal
end System

section Samples

/-- Two transactions that read and write each other's keys: the one that commits last is refused. -/
def crossing : List (Action String ℕ) := [.begin .serializable,.capture 1,.put 1 "k" 1,.put 1 "m" 1,.commit 1,
  .begin .serializable,.begin .serializable,.capture 2,.capture 3,.get 2 "k",.get 3 "m",.put 2 "m" 2,.put 3 "k" 3,
  .commit 2,.commit 3,.begin .serializable,.capture 4,.delete 4 "m",.commit 4]

theorem serializable_sample :
    let j := ({} : Journal String ℕ).run crossing
    j.commits = [1,2,4] ∧ j.Explains [1,2,4] := by
  intro j
  have hcommits : j.commits = [1,2,4] := by decide +kernel
  have hserial := (Journal.serializable crossing (by unfold crossing System.Unswept; simp) (by unfold crossing; simp) (by decide +kernel)).1
  exact ⟨hcommits,hcommits ▸ hserial⟩

/-- A reader's key is changed by a commit behind its back and then by a writer that is still under
way: the check of its read set finds that one at the end of the chain and lets the reader commit. -/
theorem open_put_hides_commit :
    let j := ({} : Journal String ℕ).run [.begin .serializable,.capture 1,.put 1 "k" 1,.commit 1,
      .begin .serializable,.capture 2,.get 2 "k",.begin .serializable,.capture 3,.put 3 "k" 2,.commit 3,
      .begin .serializable,.capture 4,.put 4 "k" 3,.commit 2]
    j.commits = [1,3,2] ∧ j.eventsOf 2 = [.get "k" (some 1)] ∧ j.contents [1,3] "k" = some 2 ∧ ¬ j.Explains j.commits := by
  intro j
  have hcommits : j.commits = [1,3,2] := by decide +kernel
  have hevents : j.eventsOf 2 = [.get "k" (some 1)] := by decide +kernel
  have hcontents : j.contents [1,3] "k" = some 2 := by decide +kernel
  refine ⟨hcommits,hevents,hcontents,?_⟩
  intro h
  have hlast := h [1,3] 2 [] (by rw [hcommits]; rfl)
  rw [hevents] at hlast
  have hright : some 1 = j.contents [1,3] "k" := hlast.1
  rw [hcontents] at hright
  cases hright

end Samples
end Drevo.Mvcc
