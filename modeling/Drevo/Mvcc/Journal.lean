import Drevo.Mvcc.Overlap

/-! What the transactions are told, and what a plain map would tell them. As long as nothing that a
transaction has read or deleted is changed by others behind its back, its own account of a key is
right on the value that was committed last. -/
set_option linter.unusedSectionVars false

namespace Drevo.Mvcc
open Lib Std

/-! ## Events on a plain map -/

/-- What a call returned. -/
inductive Event (K V : Type) where
  | get (key : K) (value : Option V)
  | put (key : K) (value : V)
  | delete (key : K) (found : Bool)
  deriving DecidableEq

namespace Event
variable {K V : Type}

def key : Event K V → K
  | .get key _ => key
  | .put key _ => key
  | .delete key _ => key

/-- The event says something about what it found. -/
def depends : Event K V → Bool
  | .put _ _ => false
  | _ => true

/-- The value of its key afterwards. -/
def leaves (m : Option V) : Event K V → Option V
  | .get _ _ => m
  | .put _ value => some value
  | .delete _ _ => none

/-- It returned what it should on that value of its key. -/
def Right (m : Option V) : Event K V → Prop
  | .get _ value => value = m
  | .put _ _ => True
  | .delete _ found => found = m.isSome

/-- Events of one key, one after the other. -/
def Tells (m : Option V) : List (Event K V) → Prop
  | [] => True
  | e :: es => e.Right m ∧ Tells (e.leaves m) es

theorem tells_append {m : Option V} {as bs : List (Event K V)} :
    Tells m (as ++ bs) ↔ Tells m as ∧ Tells (as.foldl leaves m) bs := by
  induction as generalizing m with
  | nil => simp [Tells]
  | cons e as ih => simp only [List.cons_append,Tells,List.foldl_cons,ih,and_assoc]

theorem tells_puts {m : Option V} {es : List (Event K V)} (h : ∀ e ∈ es, e.depends = false) : Tells m es := by
  induction es generalizing m with
  | nil => trivial
  | cons e es ih =>
    refine ⟨?_,ih (fun e he => h e (by simp [he]))⟩
    cases e with
    | put key value => trivial
    | get key value => cases h _ (List.mem_cons_self ..)
    | delete key found => cases h _ (List.mem_cons_self ..)

section Map
variable [DecidableEq K]

/-- The events of one key. -/
def about (k : K) (es : List (Event K V)) : List (Event K V) := es.filter (fun e => e.key = k)

theorem about_append (k : K) (as bs : List (Event K V)) : about k (as ++ bs) = about k as ++ about k bs := by
  simp only [about,List.filter_append]

def apply (m : K → Option V) (e : Event K V) : K → Option V := Function.update m e.key (e.leaves (m e.key))

def replay (m : K → Option V) (es : List (Event K V)) : K → Option V := es.foldl apply m

/-- Each event returned what it should on the map. -/
def Agrees (m : K → Option V) : List (Event K V) → Prop
  | [] => True
  | e :: es => e.Right (m e.key) ∧ Agrees (apply m e) es

theorem apply_at (m : K → Option V) (e : Event K V) (k : K) :
    apply m e k = (about k [e]).foldl leaves (m k) := by
  by_cases hk : e.key = k
  · subst hk
    simp [apply,about]
  · simp [apply,about,hk,Ne.symm hk]

theorem replay_at (m : K → Option V) (es : List (Event K V)) (k : K) :
    replay m es k = (about k es).foldl leaves (m k) := by
  induction es generalizing m with
  | nil => rfl
  | cons e es ih =>
    have hsplit : about k (e :: es) = about k [e] ++ about k es := about_append k [e] es
    rw [hsplit,List.foldl_append,← apply_at]
    exact ih (apply m e)

theorem agrees_of_tells {m : K → Option V} {es : List (Event K V)} (h : ∀ k, Tells (m k) (about k es)) : Agrees m es := by
  induction es generalizing m with
  | nil => trivial
  | cons e es ih =>
    have hsplit : ∀ k, about k (e :: es) = about k [e] ++ about k es := fun k => about_append k [e] es
    refine ⟨?_,ih ?_⟩
    · have hkey := h e.key
      rw [hsplit,tells_append] at hkey
      simpa [about,Tells] using hkey.1
    · intro k
      have hk := h k
      rw [hsplit,tells_append,← apply_at] at hk
      exact hk.2

end Map
end Event

/-! ## The journal of a run -/

section System
variable {K V : Type} [Ord K] [TransOrd K] [LawfulEqOrd K] [DecidableEq K]

namespace System

/-- What the section tells a transaction; a write that is refused tells it nothing. -/
def event (s : System K V) : Action K V → Option (ℕ × Event K V)
  | .get x key => s.txs[x]?.map (fun tx => (x,.get key (tx.get s key).1))
  | .put x key value =>
    match s.txs[x]? with
    | none => none
    | some tx =>
      match (s.store.putChecked tx.xid (tx.beforeStatement s).snapshot key value).1 with
      | .ok () => some (x,.put key value)
      | .error _ => none
  | .delete x key =>
    match s.txs[x]? with
    | none => none
    | some tx =>
      match (s.store.deleteChecked tx.xid (tx.beforeStatement s).snapshot key).1 with
      | .ok found => some (x,.delete key found)
      | .error _ => none
  | _ => none

/-- The transaction that commits. -/
def committer (s : System K V) : Action K V → Option ℕ
  | .commit x =>
    match s.txs[x]? with
    | none => none
    | some tx => if (s.commitTx tx).1.toBool then some x else none
  | _ => none

/-- The delete meets no conflict on a chain with a live version of an aborted transaction, or with a
committed version that an aborted transaction has marked. -/
def misleads (s : System K V) : Action K V → Bool
  | .delete x key =>
    match s.txs[x]? with
    | none => false
    | some tx =>
      (s.store.conflictingWriter (s.store.chain key) tx.xid (tx.beforeStatement s).snapshot).isNone &&
        (s.store.chain key).any (fun v =>
          if v.isLive then s.store.mgr.statusOf v.xmin = .aborted
          else s.store.mgr.statusOf v.xmin = .committed && s.store.mgr.statusOf v.xmax = .aborted)
  | _ => false

theorem misses_of_misleads {s : System K V} (h : Inv s) {a : Action K V} (hm : s.misleads a = false) : s.misses a = false := by
  cases a with
  | delete x key =>
    cases htx : s.txs[x]? with
    | none => simp [misses,htx]
    | some tx =>
      cases hch : s.store.chain key with
      | nil => simp [misses,htx,hch]
      | cons head rest =>
        cases hc : s.store.conflictingWriter (s.store.chain key) tx.xid (tx.beforeStatement s).snapshot with
        | some winner =>
          rw [hch] at hc
          simp [misses,htx,hch,hc]
        | none =>
          simp only [misleads,htx,hc,Option.isNone_none,Bool.true_and,List.any_eq_false] at hm
          rw [hch] at hm
          have hhead := hm head (by simp)
          simp only [misses,htx,hch]
          cases hlive : head.isLive with
          | false => simp
          | true =>
            simp only [hlive,if_true,decide_eq_true_eq] at hhead
            simp only [hhead,decide_false,Bool.false_or,Bool.true_and,Bool.and_eq_false_iff]
            right
            rw [List.any_eq_false]
            intro v hv
            have hdead : v.isLive = false := (h.chains key).retired v (by rw [hch]; exact hv)
            have hno := hm v (by simp [hv])
            rwa [hdead,if_neg Bool.false_ne_true] at hno
  | _ => rfl

end System

/-- A run with what it told each transaction and the order of the commits. -/
structure Journal (K V : Type) [Ord K] where
  sys : System K V := {}
  history : List (ℕ × Event K V) := []
  commits : List ℕ := []

namespace Journal

/-- What the transaction was told. -/
def eventsOf (j : Journal K V) (x : ℕ) : List (Event K V) := (j.history.filter (fun p => p.1 = x)).map Prod.snd

def step (j : Journal K V) (a : Action K V) : Journal K V where
  sys := j.sys.step a
  history := j.history ++ (j.sys.event a).toList
  commits := j.commits ++ (j.sys.committer a).toList

def run (j : Journal K V) (as : List (Action K V)) : Journal K V := as.foldl step j

/-- The sections of a run, each with the journal it found. -/
def trace (j : Journal K V) : List (Action K V) → List (Journal K V × Action K V)
  | [] => []
  | a :: as => (j,a) :: (j.step a).trace as

theorem run_sys (j : Journal K V) (as : List (Action K V)) : (j.run as).sys = j.sys.run as := by
  induction as generalizing j with
  | nil => rfl
  | cons a as ih => exact ih (j.step a)

theorem eventsOf_step (j : Journal K V) (a : Action K V) (x : ℕ) : (j.step a).eventsOf x =
    j.eventsOf x ++ ((j.sys.event a).toList.filter (fun p => p.1 = x)).map Prod.snd := by
  simp only [eventsOf,step,List.filter_append,List.map_append]

end Journal

/-! ## The account of a transaction -/

namespace System
section Accounts
variable {s : System K V}

theorem Inv.basic (h : Inv s) : Basic s where
  mgr := h.mgr
  chains := h.chains
  begun := h.begun
  xid x tx htx := ⟨(h.txs x tx htx).xid,(h.txs x tx htx).mine⟩
  sound x tx htx := (h.txs x tx htx).sound
  wrote x tx htx k hk := by
    obtain ⟨w,hw⟩ := Option.isSome_iff_exists.mp hk
    have hwr := (h.txs x tx htx).wrote k w hw
    cases w with
    | some value => exact ⟨_,List.mem_of_mem_head? (Option.mem_def.mpr hwr),Or.inl rfl⟩
    | none =>
      obtain ⟨head,hhead,hxmax,-⟩ := hwr
      exact ⟨head,List.mem_of_mem_head? (Option.mem_def.mpr hhead),Or.inr hxmax⟩
  owned := h.owned

theorem sees_cases {snap : Snapshot} {r : Registry} {y : ℕ} (h : snap.seesEffect r y = true) :
    y = snap.myXid ∨ r.statusOf y = .committed := by
  unfold Snapshot.seesEffect at h
  split_ifs at h with h₀ h₁ h₂ h₃
  · exact Or.inl h₁
  · exact Or.inr (by simpa using h)

theorem sees_mine {snap : Snapshot} {r : Registry} {y : ℕ} (hy : y ≠ invalidXid) (h : y = snap.myXid) :
    snap.seesEffect r y = true := by
  simp [Snapshot.seesEffect,h ▸ hy,h]

theorem status_inProgress {r : Registry} {y : ℕ} (h : r.statusOf y = .inProgress) : r.status[y]? = some .inProgress := by
  unfold Registry.statusOf at h
  split_ifs at h
  cases hs : r.status[y]? with
  | none => simp [hs] at h
  | some st => simpa [hs] using h

theorem retired_hidden (h : Inv s) {x : ℕ} {tx : Transaction K V} (ht : TxInv s x tx) {key : K}
    (hc : s.store.conflictingWriter (s.store.chain key) x tx.snapshot = none) (hu : s.changedSince tx key = false)
    (hm : ∀ v ∈ s.store.chain key, v.isLive = false → s.store.mgr.statusOf v.xmin = .committed →
      s.store.mgr.statusOf v.xmax ≠ .aborted)
    {v : Version V} (hv : v ∈ s.store.chain key) (hdead : v.isLive = false) : v.isVisible tx.snapshot s.store.mgr = false := by
  have hne : v.xmax ≠ invalidXid := by simpa [Version.isLive] using hdead
  rw [Bool.eq_false_iff]
  intro hvis
  simp only [Version.isVisible,Bool.and_eq_true,Bool.not_eq_true'] at hvis
  obtain ⟨hmin,hmax⟩ := hvis
  have hmine : v.xmax ≠ x := by
    intro hx
    rw [sees_mine hne (hx.trans ht.mine.symm)] at hmax
    cases hmax
  obtain hown | hcom := sees_cases hmin
  · rw [ht.mine] at hown
    obtain hz | hself := (h.chains key).own v hv (hown ▸ ht.status)
    · exact hne hz
    · exact hmine (hself.trans hown)
  · cases hst : s.store.mgr.statusOf v.xmax with
    | aborted => exact hm v hv hdead hcom hst
    | inProgress => exact hmine (unopposed h ht hc (status_inProgress hst) ⟨v,hv,Or.inr rfl⟩)
    | committed =>
      have hyes : s.changedSince tx key = true := by
        refine changedSince_iff.mpr ⟨v.xmax,⟨v,hv,Or.inr rfl⟩,unseen_iff.mpr ⟨?_,hst,hmax⟩⟩
        rw [ht.xid]
        exact hmine
      rw [hyes] at hu
      cases hu

theorem live_visible (h : Inv s) {x : ℕ} {tx : Transaction K V} (ht : TxInv s x tx) {key : K}
    (hc : s.store.conflictingWriter (s.store.chain key) x tx.snapshot = none) {head : Version V} {rest : List (Version V)}
    (hch : s.store.chain key = head :: rest) (hlive : head.isLive = true) (hm : s.store.mgr.statusOf head.xmin ≠ .aborted) :
    head.isVisible tx.snapshot s.store.mgr = true := by
  have hz : head.xmax = invalidXid := by simpa [Version.isLive] using hlive
  have hne : head.xmin ≠ invalidXid := by
    have hknown := ((h.chains key).known head (by simp [hch])).1
    unfold invalidXid
    omega
  have hdec : head.decider = head.xmin := by rw [Version.decider,if_pos hlive]
  have hsee : tx.snapshot.seesEffect s.store.mgr head.xmin = true := by
    by_contra hsee
    rw [Bool.not_eq_true] at hsee
    have hx : head.xmin ≠ x := by
      intro hx
      rw [sees_mine hne (hx.trans ht.mine.symm)] at hsee
      cases hsee
    simp [VersionedStore.conflictingWriter,hch,hdec,hne,hx,hsee,hm] at hc
  simp [Version.isVisible,hsee,hz,Snapshot.seesEffect_zero]

/-- The transaction's events of a key are right on the value committed last and end in what it reads,
if nobody else changed the key since its snapshot; puts stand for themselves. -/
structure Account (s : System K V) (tx : Transaction K V) (es : List (Event K V)) (k : K) : Prop where
  blind : (∀ e ∈ Event.about k es, e.depends = false) → ∀ m : Option V,
    (tx.wrote[k]?).getD m = (Event.about k es).foldl Event.leaves m
  told : s.changedSince tx k = false → Event.Tells (s.latest k) (Event.about k es) ∧
    s.store.get k tx.snapshot = (Event.about k es).foldl Event.leaves (s.latest k) ∧
      (tx.wrote[k]?).getD (s.latest k) = (Event.about k es).foldl Event.leaves (s.latest k)

theorem account_empty {tx : Transaction K V} (hw : tx.wrote = ∅) {k : K} (hg : s.store.get k tx.snapshot = s.latest k) :
    Account s tx [] k := by
  have hnone : tx.wrote[k]? = none := by simp [hw]
  exact ⟨fun _ m => by rw [hnone]; rfl,fun _ => ⟨trivial,hg,by rw [hnone]; rfl⟩⟩

theorem about_other {k : K} {es : List (Event K V)} {e : Event K V} (hk : e.key ≠ k) :
    Event.about k (es ++ [e]) = Event.about k es := by
  rw [Event.about_append]
  simp [Event.about,hk]

theorem about_same {es : List (Event K V)} {e : Event K V} :
    Event.about e.key (es ++ [e]) = Event.about e.key es ++ [e] := by
  rw [Event.about_append]
  simp [Event.about]

theorem Account.told_event {s' : System K V} {tx tx' : Transaction K V} {es : List (Event K V)} {e : Event K V}
    (h : Account s tx es e.key) (hl : s'.latest e.key = s.latest e.key)
    (hu : s'.changedSince tx' e.key = false → s.changedSince tx e.key = false)
    (hright : s.changedSince tx e.key = false → e.Right (s.store.get e.key tx.snapshot))
    (hget : s.changedSince tx e.key = false → s'.store.get e.key tx'.snapshot = e.leaves (s.store.get e.key tx.snapshot))
    (hw : s.changedSince tx e.key = false → (tx'.wrote[e.key]?).getD (s.latest e.key) = e.leaves (s.store.get e.key tx.snapshot))
    (hblind : e.depends = false → ∀ m, (tx'.wrote[e.key]?).getD m = e.leaves m ∧ e.leaves m = e.leaves none) :
    Account s' tx' (es ++ [e]) e.key := by
  refine ⟨?_,?_⟩
  · intro hputs m
    rw [about_same] at hputs ⊢
    rw [List.foldl_append,List.foldl_cons,List.foldl_nil]
    obtain ⟨hm,hany⟩ := hblind (hputs e (by simp)) m
    rw [hm,hany]
    exact ((hblind (hputs e (by simp)) _).2).symm
  · intro hu'
    obtain ⟨htells,hg,-⟩ := h.told (hu hu')
    rw [about_same,Event.tells_append,List.foldl_append,List.foldl_cons,List.foldl_nil,hl,← hg]
    exact ⟨⟨htells,hright (hu hu'),trivial⟩,hget (hu hu'),hw (hu hu')⟩

theorem Account.stays {r : System K V} {tx tx' : Transaction K V} {es es' : List (Event K V)} {k : K} (h : Account s tx es k)
    (hes : Event.about k es' = Event.about k es) (hw : tx'.wrote[k]? = tx.wrote[k]?)
    (hu : r.changedSince tx' k = false → s.changedSince tx k = false)
    (hl : r.changedSince tx' k = false → r.latest k = s.latest k)
    (hg : r.store.get k tx'.snapshot = s.store.get k tx.snapshot) : Account r tx' es' k := by
  refine ⟨?_,?_⟩
  · rw [hes,hw]
    exact h.blind
  · intro hu'
    rw [hes,hw,hg,hl hu']
    exact h.told (hu hu')

/-! ## What a transaction does itself -/

theorem changedSince_congr {r : System K V} {tx tx' : Transaction K V} {k : K} (hs : r.store.mgr = s.store.mgr)
    (hc : r.store.chain k = s.store.chain k) (hx : tx'.xid = tx.xid) (hsnap : tx'.snapshot = tx.snapshot) :
    r.changedSince tx' k = s.changedSince tx k := by
  simp only [changedSince,unseen,hs,hc,hx,hsnap]

theorem get_congr {s' : System K V} {snap snap' : Snapshot} {k : K} (hs : s'.store.mgr = s.store.mgr)
    (hc : s'.store.chain k = s.store.chain k) (hsnap : snap' = snap) : s'.store.get k snap' = s.store.get k snap := by
  simp only [VersionedStore.get,VersionedStore.resolve,hs,hc,hsnap]

theorem Account.turned {tx tx' : Transaction K V} {es : List (Event K V)} {x : ℕ} {k : K} (h : Account s tx es k)
    (hx : tx'.xid = tx.xid) (hsnap : tx'.snapshot = tx.snapshot) (hw : tx'.wrote = tx.wrote) :
    Account { s with txs := s.txs.insert x tx' } tx' es k :=
  h.stays (r := { s with txs := s.txs.insert x tx' }) rfl (by rw [hw]) (fun hu => by rwa [changedSince_congr rfl rfl hx hsnap] at hu)
    (fun _ => rfl) (get_congr rfl rfl hsnap)

theorem account_get (h : Inv s) {x : ℕ} {tx : Transaction K V} (htx : s.txs[x]? = some tx)
    (hsnap : (tx.beforeStatement s).snapshot = tx.snapshot) (key : K) {es : List (Event K V)} (hacc : ∀ k, Account s tx es k) :
    ∃ tx', (s.step (.get x key)).txs[x]? = some tx' ∧ tx'.snapshot = tx.snapshot ∧
      ∀ k, Account (s.step (.get x key)) tx' (es ++ [.get key (s.store.get key tx.snapshot)]) k := by
  have hkeep : (tx.get s key).2.snapshot = tx.snapshot ∧ (tx.get s key).2.wrote = tx.wrote ∧ (tx.get s key).2.xid = tx.xid := by
    have ht := turns_before h.basic htx
    simp only [Transaction.get]
    split_ifs
    · exact ⟨hsnap,ht.wrote,ht.xid.trans (h.txs x tx htx).xid.symm⟩
    · exact ⟨hsnap,ht.wrote,ht.xid.trans (h.txs x tx htx).xid.symm⟩
  obtain ⟨hs,hw,hx⟩ := hkeep
  have hstep : s.step (.get x key) = { s with txs := s.txs.insert x (tx.get s key).2 } := by simp only [step,htx]
  rw [hstep]
  refine ⟨_,by simp,hs,?_⟩
  intro k
  have hturned := (hacc k).turned (x := x) hx hs hw
  by_cases hk : key = k
  · subst hk
    refine Account.told_event (e := .get key (s.store.get key tx.snapshot)) (hacc key) rfl ?_ (fun _ => rfl) ?_ ?_ ?_
    · exact fun hu => by rwa [changedSince_congr rfl rfl hx hs] at hu
    · exact fun _ => get_congr rfl rfl hs
    · intro hu
      obtain ⟨-,hg,hgetD⟩ := (hacc key).told hu
      change ((tx.get s key).2.wrote[key]?).getD (s.latest key) = s.store.get key tx.snapshot
      rw [hw,hgetD,hg]
    · intro hd
      cases hd
  · refine hturned.stays (about_other (e := .get key _) hk) rfl id (fun _ => rfl) rfl

/-- A write that goes through changes the account of its key only. -/
theorem account_wrote (h : Inv s) {x : ℕ} {tx : Transaction K V} (htx : s.txs[x]? = some tx)
    (hsnap : (tx.beforeStatement s).snapshot = tx.snapshot) {key : K} {chain : List (Version V)} {w : Option V} {e : Event K V}
    (he : e.key = key) (hc : s.store.conflictingWriter (s.store.chain key) x tx.snapshot = none)
    (hch : Overwrites x (s.store.chain key) chain w) (hleaves : ∀ m, e.leaves m = w)
    (hright : s.changedSince tx key = false → e.Right (s.store.get key tx.snapshot))
    (hget : s.changedSince tx key = false → (chain.find? (fun v => v.isVisible tx.snapshot s.store.mgr)).map Version.value = w)
    {es : List (Event K V)} (hacc : ∀ k, Account s tx es k) :
    ∃ tx', (s.wroteTo x (tx.beforeStatement s) key chain w).txs[x]? = some tx' ∧ tx'.snapshot = tx.snapshot ∧
      ∀ k, Account (s.wroteTo x (tx.beforeStatement s) key chain w) tx' (es ++ [e]) k := by
  have ht := turns_before h.basic htx
  have hx : (tx.beforeStatement s).xid = tx.xid := ht.xid.trans (h.txs x tx htx).xid.symm
  have hchain : ∀ k, (s.wroteTo x (tx.beforeStatement s) key chain w).store.chain k = if key = k then chain else s.store.chain k :=
    fun k => chain_insert s.store key k chain
  have hmono : ∀ {y : ℕ}, y ≠ invalidXid → Occurs y (s.store.chain key) → Occurs y chain :=
    fun hy ho => (h.basic.overwritten htx ht (hsnap.symm ▸ hc) hch).2.2.1 _ hy ho
  refine ⟨_,ExtTreeMap.getElem?_insert_self,hsnap,?_⟩
  intro k
  by_cases hk : key = k
  · subst hk
    subst he
    refine Account.told_event (hacc e.key) rfl ?_ hright ?_ ?_ ?_
    · intro hu
      rw [Bool.eq_false_iff] at hu ⊢
      intro hyes
      obtain ⟨y,ho,hy⟩ := changedSince_iff.mp hyes
      obtain ⟨hne,hst,hsee⟩ := unseen_iff.mp hy
      refine hu (changedSince_iff.mpr ⟨y,?_,unseen_iff.mpr ⟨?_,hst,?_⟩⟩)
      · rw [hchain,if_pos rfl]
        exact hmono (committed_ne hst) ho
      · exact fun hyx => hne (hyx.trans hx)
      · change (tx.beforeStatement s).snapshot.seesEffect s.store.mgr y = false
        rw [hsnap,hsee]
    · intro hu
      rw [hleaves]
      refine Eq.trans ?_ (hget hu)
      simp only [VersionedStore.get,VersionedStore.resolve,hchain]
      change (chain.find? (fun v => v.isVisible (tx.beforeStatement s).snapshot s.store.mgr)).map Version.value = _
      rw [hsnap]
    · intro _
      rw [hleaves]
      simp [Transaction.wroteTo]
    · intro _ m
      rw [hleaves,hleaves]
      simp [Transaction.wroteTo]
  · have hsame : (s.wroteTo x (tx.beforeStatement s) key chain w).store.chain k = s.store.chain k := by rw [hchain,if_neg hk]
    refine (hacc k).stays (about_other (by rw [he]; exact hk)) ?_ ?_ (fun _ => rfl) (get_congr rfl hsame hsnap)
    · simp only [Transaction.wroteTo,Map.get_insert,if_neg hk,ht.wrote]
    · intro hu
      have hcongr := changedSince_congr (s := s) (r := s.wroteTo x (tx.beforeStatement s) key chain w) rfl hsame hx hsnap
      exact hcongr.symm.trans hu

theorem account_put (h : Inv s) {x : ℕ} {tx : Transaction K V} (htx : s.txs[x]? = some tx)
    (hsnap : (tx.beforeStatement s).snapshot = tx.snapshot) (key : K) (value : V) {es : List (Event K V)}
    (hacc : ∀ k, Account s tx es k) :
    ∃ tx', (s.step (.put x key value)).txs[x]? = some tx' ∧ tx'.snapshot = tx.snapshot ∧
      ∀ k, Account (s.step (.put x key value)) tx' (es ++ ((s.event (.put x key value)).toList.map Prod.snd)) k := by
  have ht := turns_before h.basic htx
  have htx₀ := h.txs x tx htx
  simp only [step,event,htx,VersionedStore.putChecked,ht.xid,htx₀.xid,hsnap]
  cases hc : s.store.conflictingWriter (s.store.chain key) x tx.snapshot with
  | some winner =>
    refine ⟨_,by simp,hsnap,?_⟩
    intro k
    simp only [Option.toList_none,List.map_nil,List.append_nil]
    exact (hacc k).turned (ht.xid.trans htx₀.xid.symm) hsnap ht.wrote
  | none =>
    refine account_wrote h htx hsnap (e := .put key value) rfl hc (w := some value) rfl (fun _ => rfl) (fun _ => trivial) ?_ hacc
    intro _
    have hne := h.mgr.ne_invalid htx₀.status
    simp [pushed,Version.isVisible,sees_mine hne htx₀.mine.symm,Snapshot.seesEffect_zero]

theorem account_delete (h : Inv s) {x : ℕ} {tx : Transaction K V} (htx : s.txs[x]? = some tx)
    (hsnap : (tx.beforeStatement s).snapshot = tx.snapshot) (key : K) (hm : s.misleads (.delete x key) = false)
    {es : List (Event K V)} (hacc : ∀ k, Account s tx es k) :
    ∃ tx', (s.step (.delete x key)).txs[x]? = some tx' ∧ tx'.snapshot = tx.snapshot ∧
      ∀ k, Account (s.step (.delete x key)) tx' (es ++ ((s.event (.delete x key)).toList.map Prod.snd)) k := by
  have ht := turns_before h.basic htx
  have htx₀ := h.txs x tx htx
  have hxid : (tx.beforeStatement s).xid = tx.xid := ht.xid.trans htx₀.xid.symm
  simp only [misleads,htx,hsnap,htx₀.xid] at hm
  simp only [step,event,htx,VersionedStore.deleteChecked,ht.xid,htx₀.xid,hsnap]
  cases hc : s.store.conflictingWriter (s.store.chain key) x tx.snapshot with
  | some winner =>
    refine ⟨_,by simp,hsnap,?_⟩
    intro k
    simp only [Option.toList_none,List.map_nil,List.append_nil]
    exact (hacc k).turned hxid hsnap ht.wrote
  | none =>
    rw [hc] at hm
    simp only [Option.isNone_none,Bool.true_and,List.any_eq_false] at hm
    have hdead : ∀ v ∈ s.store.chain key, v.isLive = false → s.store.mgr.statusOf v.xmin = .committed →
        s.store.mgr.statusOf v.xmax ≠ .aborted := by
      intro v hv hl hmin hmax
      have hno := hm v hv
      simp [hl,hmin,hmax] at hno
    obtain ⟨hr,hall⟩ | ⟨head,rest,hch,hlive,hr⟩ := retire_cases (h.chains key).retired (x := x)
    · -- nothing to retire: nothing is read either
      rw [hr]
      refine ⟨_,by simp,hsnap,?_⟩
      intro k
      have hturned := (hacc k).turned (x := x) hxid hsnap ht.wrote
      have hnone : s.changedSince tx key = false → s.store.get key tx.snapshot = none := by
        intro hu
        simp only [VersionedStore.get,VersionedStore.resolve,Option.map_eq_none_iff,List.find?_eq_none]
        intro v hv
        rw [retired_hidden h htx₀ hc hu hdead hv (hall v hv)]
        decide
      by_cases hk : key = k
      · subst hk
        refine Account.told_event (e := .delete key false) (hacc key) rfl ?_ ?_ ?_ ?_ ?_
        · exact fun hu => by rwa [changedSince_congr rfl rfl hxid hsnap] at hu
        · intro hu
          change false = (s.store.get key tx.snapshot).isSome
          rw [hnone hu]
          rfl
        · intro hu
          change ({ s with txs := s.txs.insert x (tx.beforeStatement s) } : System K V).store.get key
            (tx.beforeStatement s).snapshot = none
          rw [hsnap]
          exact hnone hu
        · intro hu
          obtain ⟨-,hg,hgetD⟩ := (hacc key).told hu
          change ((tx.beforeStatement s).wrote[key]?).getD (s.latest key) = none
          rw [ht.wrote,hgetD,← hg,hnone hu]
        · intro hd
          cases hd
      · exact hturned.stays (about_other (e := .delete key false) hk) rfl id (fun _ => rfl) rfl
    · rw [hr]
      have hhead : s.store.mgr.statusOf head.xmin ≠ .aborted := by
        intro hab
        have hno := hm head (by simp [hch])
        simp [hlive,hab] at hno
      have hvis := live_visible h htx₀ hc hch hlive hhead
      refine account_wrote h htx hsnap (e := .delete key true) rfl hc (w := none) hr (fun _ => rfl) ?_ ?_ hacc
      · intro _
        change true = (s.store.get key tx.snapshot).isSome
        simp [VersionedStore.get,VersionedStore.resolve,hch,hvis]
      · intro hu
        have hne := h.mgr.ne_invalid htx₀.status
        rw [Option.map_eq_none_iff,List.find?_eq_none]
        intro v hv
        obtain rfl | hv := List.mem_cons.mp hv
        · simp [Version.isVisible,sees_mine hne htx₀.mine.symm]
        · have hd : v.isLive = false := (h.chains key).retired v (by rw [hch]; exact hv)
          rw [retired_hidden h htx₀ hc hu hdead (by simp [hch,hv]) hd]
          decide

end Accounts
end System
end System
end Drevo.Mvcc
