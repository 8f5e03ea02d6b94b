import Drevo.Mvcc.Journal

/-! Transactions that run one after the other, with vacuums between them. Where no delete meets what
an aborted transaction left, the store answers as a map does that the committed ones update. -/
set_option linter.unusedSectionVars false

namespace Drevo.Mvcc
open Lib Std

/-! ## The plain map -/

inductive Op (K V : Type) where
  | get (key : K)
  | put (key : K) (value : V)
  | delete (key : K)

/-- A transaction with all it does; if it does not commit it is aborted or dropped. -/
structure Session (K V : Type) where
  level : IsolationLevel
  ops : List (Op K V)
  commits : Bool

inductive Item (K V : Type) where
  | session (s : Session K V)
  | vacuum

section Plain
variable {K V : Type} [DecidableEq K]

/-- What a map answers. -/
def Op.event (m : K → Option V) : Op K V → Event K V
  | .get key => .get key (m key)
  | .put key value => .put key value
  | .delete key => .delete key (m key).isSome

/-- What a map answers to one call after the other. -/
def Op.answers (m : K → Option V) : List (Op K V) → List (Event K V)
  | [] => []
  | op :: ops => op.event m :: answers (Event.apply m (op.event m)) ops

/-- A map that is updated by the committed transactions only, with what it told each and the order
of the commits. -/
structure Plain (K V : Type) where
  next : ℕ := 1
  map : K → Option V := fun _ => none
  history : List (ℕ × Event K V) := []
  commits : List ℕ := []

def Plain.step (p : Plain K V) : Item K V → Plain K V
  | .session s =>
    let es := Op.answers p.map s.ops
    { next := p.next+1
      map := if s.commits then Event.replay p.map es else p.map
      history := p.history ++ es.map (fun e => (p.next,e))
      commits := if s.commits then p.commits ++ [p.next] else p.commits }
  | .vacuum => p

def Plain.run (p : Plain K V) (items : List (Item K V)) : Plain K V := items.foldl step p

theorem answers_append (m : K → Option V) (ops : List (Op K V)) (op : Op K V) :
    Op.answers m (ops ++ [op]) = Op.answers m ops ++ [op.event (Event.replay m (Op.answers m ops))] := by
  induction ops generalizing m with
  | nil => rfl
  | cons o ops ih =>
    have hrest := ih (Event.apply m (o.event m))
    simp only [List.cons_append,Op.answers,hrest]
    rfl

theorem Event.tells_last {m : K → Option V} {es : List (Event K V)} {e : Event K V}
    (h : Tells (m e.key) (about e.key (es ++ [e]))) : e.Right (replay m es e.key) := by
  rw [about_append,tells_append] at h
  have hlast := h.2
  simp only [about,List.filter_cons,List.filter_nil,decide_true,if_true,Tells] at hlast
  rw [replay_at]
  exact hlast.1

end Plain

/-! ## The same on the store -/

section System
variable {K V : Type} [Ord K] [TransOrd K] [LawfulEqOrd K] [DecidableEq K]

def Op.action (x : ℕ) : Op K V → Action K V
  | .get key => .get x key
  | .put key value => .put x key value
  | .delete key => .delete x key

/-- The sections of an item; a transaction gets the id `x`. -/
def Item.actions (x : ℕ) : Item K V → List (Action K V)
  | .session s => [.begin s.level,.capture x] ++ s.ops.map (Op.action x) ++ [if s.commits then .commit x else .abort x]
  | .vacuum => [.readHorizon 0,.vacuum 0]

/-- The sections of all the items, the ids being given out from `x` on. -/
def Item.sections : ℕ → List (Item K V) → List (Action K V)
  | _,[] => []
  | x,.session s :: items => (Item.session s).actions x ++ sections (x+1) items
  | x,.vacuum :: items => Item.vacuum.actions x ++ sections x items

theorem sections_cons (p : Plain K V) (item : Item K V) (items : List (Item K V)) :
    Item.sections p.next (item :: items) = item.actions p.next ++ Item.sections (p.step item).next items := by
  cases item <;> rfl

namespace VersionedStore
variable {s : VersionedStore K V} {snap : Snapshot}

theorem mem_scanVisible {k : K} {v : V} : (k,v) ∈ s.scanVisible snap ↔ s.get k snap = some v := by
  simp only [scanVisible,List.mem_filterMap,Option.map_eq_some_iff,Prod.mk.injEq,get,resolve,chain]
  constructor
  · rintro ⟨⟨k',chain⟩,hmem,w,hw,rfl,rfl⟩
    rw [ExtTreeMap.mem_toList_iff_getElem?_eq_some.mp hmem]
    exact ⟨w,hw,rfl⟩
  · rintro ⟨w,hw,rfl⟩
    cases hc : s.chains[k]? with
    | none => simp [hc] at hw
    | some chain =>
      rw [hc] at hw
      exact ⟨(k,chain),ExtTreeMap.mem_toList_iff_getElem?_eq_some.mpr hc,w,hw,rfl,rfl⟩

theorem scanVisible_nodup (s : VersionedStore K V) (snap : Snapshot) : ((s.scanVisible snap).map Prod.fst).Nodup := by
  rw [List.Nodup,List.pairwise_map,scanVisible,List.pairwise_filterMap]
  refine ExtTreeMap.distinct_keys_toList.imp ?_
  intro p q hpq a ha b hb
  simp only [Option.map_eq_some_iff] at ha hb
  obtain ⟨v,-,rfl⟩ := ha
  obtain ⟨w,-,rfl⟩ := hb
  exact fun he => hpq (by simpa using he)

end VersionedStore

namespace System
section Alone
variable {s : System K V}

theorem get_fresh (h : Inv s) {my : ℕ} (hmy : my = invalidXid ∨ s.store.mgr.next ≤ my) (k : K) :
    s.store.get k (s.store.mgr.snapshot my) = s.latest k := by
  have hsee : ∀ y, y < s.store.mgr.next → (s.store.mgr.snapshot my).seesEffect s.store.mgr y = decide (s.store.mgr.statusOf y = .committed) := by
    intro y hy
    by_cases hyz : y = invalidXid
    · subst hyz
      rw [Snapshot.seesEffect_zero,Registry.statusOf_zero]
      rfl
    · refine Snapshot.seesEffect_capture h.mgr ?_ hy
      rintro rfl
      obtain hz | hn := hmy
      · exact hyz hz
      · omega
  rw [← h.latest k]
  refine congrArg (Option.map Version.value) (List.find?_congr ?_)
  intro v hv
  obtain ⟨-,hmin,hmax⟩ := (h.chains k).known v hv
  simp only [Version.isVisible,Version.isCurrent,hsee _ hmin,hsee _ hmax]

theorem decider_seen (h : Inv s) {x : ℕ} (hidle : ∀ y, s.store.mgr.status[y]? = some .inProgress → y = x) {k : K}
    {head : Version V} (hhead : (s.store.chain k).head? = some head) (hx : head.decider ≠ x)
    (hsee : (s.store.mgr.snapshot x).seesEffect s.store.mgr head.decider = false) : s.store.mgr.statusOf head.decider = .aborted := by
  have hknown := (h.chains k).known head (List.mem_of_mem_head? (Option.mem_def.mpr hhead))
  have hlt : head.decider < s.store.mgr.next := by
    unfold Version.decider
    split_ifs
    · exact hknown.2.1
    · exact hknown.2.2
  rw [Snapshot.seesEffect_capture h.mgr hx hlt,decide_eq_false_iff_not] at hsee
  cases hst : s.store.mgr.statusOf head.decider with
  | aborted => rfl
  | committed => exact absurd hst hsee
  | inProgress => exact absurd (hidle _ (status_inProgress hst)) hx

theorem conflict_alone (h : Inv s) {x : ℕ} (hidle : ∀ y, s.store.mgr.status[y]? = some .inProgress → y = x) (k : K) :
    s.store.conflictingWriter (s.store.chain k) x (s.store.mgr.snapshot x) = none := by
  unfold VersionedStore.conflictingWriter
  cases hhead : (s.store.chain k).head? with
  | none => rfl
  | some head =>
    simp only [Bool.or_eq_true,decide_eq_true_eq]
    split_ifs with hown hsee hab
    · rfl
    · rfl
    · rfl
    · exact absurd (decider_seen h hidle hhead (fun hx => hown (Or.inr hx)) (by simpa using hsee)) hab

theorem readConflict_alone (h : Inv s) {x : ℕ} (hidle : ∀ y, s.store.mgr.status[y]? = some .inProgress → y = x) (k : K) :
    s.store.readConflict (s.store.chain k) x (s.store.mgr.snapshot x) = none := by
  unfold VersionedStore.readConflict
  cases hhead : (s.store.chain k).head? with
  | none => rfl
  | some head =>
    simp only [Bool.or_eq_true,decide_eq_true_eq]
    split_ifs with hown hsee hcom
    · rfl
    · rfl
    · rw [decider_seen h hidle hhead (fun hx => hown (Or.inr hx)) (by simpa using hsee)] at hcom
      cases hcom
    · rfl

theorem commit_alone (h : Inv s) {x : ℕ} (hidle : ∀ y, s.store.mgr.status[y]? = some .inProgress → y = x)
    {tx : Transaction K V} (htx : s.txs[x]? = some tx) (hsnap : tx.snapshot = s.store.mgr.snapshot x) :
    (s.commitTx tx).1 = .ok () := by
  have hin := (h.txs x tx htx).status
  have hcommit : s.store.mgr.commit x = .ok _ := Registry.finish_of hin .committed
  have hreads : tx.reads.findSome? (fun key => s.store.readConflict (s.store.chain key) x (s.store.mgr.snapshot x)) = none := by
    rw [List.findSome?_eq_none_iff]
    exact fun key _ => readConflict_alone h hidle key
  simp only [commitTx,VersionedStore.commitSerializable,(h.txs x tx htx).xid,hsnap,hreads,hcommit]
  split_ifs <;> rfl

/-- No delete of the run meets what an aborted transaction left. -/
def Straight (s : System K V) (as : List (Action K V)) : Prop := ∀ t ∈ s.trace as, t.1.misleads t.2 = false

theorem straight_cons {a : Action K V} {as : List (Action K V)} :
    s.Straight (a :: as) ↔ s.misleads a = false ∧ (s.step a).Straight as := by simp [Straight,trace]

theorem straight_append {as bs : List (Action K V)} : s.Straight (as ++ bs) ↔ s.Straight as ∧ (s.run as).Straight bs := by
  induction as generalizing s with
  | nil => simp [Straight,trace,run]
  | cons a as ih =>
    rw [List.cons_append,straight_cons,straight_cons,ih,and_assoc]
    rfl

theorem step_op (s : System K V) (op : Op K V) (x : ℕ) :
    (s.step (op.action x)).store.mgr = s.store.mgr ∧ (s.step (op.action x)).latest = s.latest := by
  cases op with
  | get key =>
    simp only [Op.action,step]
    split <;> exact ⟨rfl,rfl⟩
  | put key value =>
    simp only [Op.action,step]
    split
    · exact ⟨rfl,rfl⟩
    · rename_i tx htx
      have hmgr := putChecked_mgr s.store (tx.beforeStatement s).xid (tx.beforeStatement s).snapshot key value
      split
      · rename_i heq
        rw [heq] at hmgr
        exact ⟨hmgr,rfl⟩
      · rename_i heq
        rw [heq] at hmgr
        exact ⟨hmgr,rfl⟩
  | delete key =>
    simp only [Op.action,step]
    split
    · exact ⟨rfl,rfl⟩
    · rename_i tx htx
      have hmgr := deleteChecked_mgr s.store (tx.beforeStatement s).xid (tx.beforeStatement s).snapshot key
      split
      · rename_i heq
        rw [heq] at hmgr
        exact ⟨hmgr,rfl⟩
      · rename_i heq
        rw [heq] at hmgr
        exact ⟨hmgr,rfl⟩

theorem step_capture {x : ℕ} {level : IsolationLevel} (h : s.begun[x]? = some level) :
    s.step (.capture x) = { s with begun := s.begun.erase x, txs := s.txs.insert x (s.opened x level) } := by
  simp only [step,h]
  rfl

theorem straight_inv (h : Inv s) {a : Action K V} (hv : ∀ c, a ≠ .vacuum c) (hm : s.misleads a = false) : Inv (s.step a) := by
  refine step_inv h a ?_ (misses_of_misleads h hm)
  cases a with
  | vacuum c => exact absurd rfl (hv c)
  | _ => rfl

end Alone
end System

namespace Journal
variable {j : Journal K V} {p : Plain K V}

/-- No transaction is under way, and the store stands for the map. -/
structure Refines (j : Journal K V) (p : Plain K V) : Prop where
  inv : j.sys.Inv
  idle : ∀ y : ℕ, j.sys.store.mgr.status[y]? ≠ some .inProgress
  next : j.sys.store.mgr.next = p.next
  latest : j.sys.latest = p.map
  history : j.history = p.history
  commits : j.commits = p.commits

/-- The next transaction is under way, and has been told `es`. -/
structure Alone (j : Journal K V) (p : Plain K V) (es : List (Event K V)) : Prop where
  inv : j.sys.Inv
  idle : ∀ y, j.sys.store.mgr.status[y]? = some .inProgress → y = p.next
  next : j.sys.store.mgr.next = p.next+1
  latest : j.sys.latest = p.map
  history : j.history = p.history ++ es.map (fun e => (p.next,e))
  commits : j.commits = p.commits
  open_ : ∃ tx, j.sys.txs[p.next]? = some tx ∧ tx.snapshot = j.sys.store.mgr.snapshot p.next ∧ ∀ k, j.sys.Account tx es k

theorem Refines.begins (h : Refines j p) (level : IsolationLevel) :
    Alone (j.run [.begin level,.capture p.next]) p [] := by
  have hb := System.begin_inv h.inv level
  have hbegun : (j.sys.step (.begin level)).begun[p.next]? = some level := by simp [System.step,Registry.begin,h.next]
  have hstatus : ∀ y, (j.sys.step (.begin level)).store.mgr.status[y]? = some .inProgress → y = p.next := by
    intro y hy
    simp only [System.step,Registry.begin,Map.get_insert,h.next] at hy
    split_ifs at hy with hpy
    · exact hpy.symm
    · exact absurd hy (h.idle y)
  have hmiss : ∀ k, ¬ Occurs p.next ((j.sys.step (.begin level)).store.chain k) := by
    intro k ho
    have hlt := (h.inv.chains k).occurs_lt ho
    rw [h.next] at hlt
    omega
  have hcap := System.capture_inv hb p.next
  have hstep := System.step_capture hbegun
  have hrun : (j.run [.begin level,.capture p.next]).sys = (j.sys.step (.begin level)).step (.capture p.next) := rfl
  refine ⟨by rw [hrun]; exact hcap,?_,?_,?_,?_,?_,?_⟩
  · rw [hrun,hstep]
    exact hstatus
  · rw [hrun,hstep]
    change j.sys.store.mgr.next+1 = p.next+1
    rw [h.next]
  · rw [hrun,hstep]
    exact h.latest
  · have hhistory : (j.run [.begin level,.capture p.next]).history = (j.history ++ []) ++ [] := rfl
    rw [hhistory,h.history]
    simp
  · have hcommits : (j.run [.begin level,.capture p.next]).commits = (j.commits ++ []) ++ [] := rfl
    rw [hcommits,h.commits]
    simp
  · rw [hrun,hstep]
    refine ⟨_,ExtTreeMap.getElem?_insert_self,rfl,?_⟩
    intro k
    exact System.account_empty rfl (System.get_capture hb hmiss k)

/-- Every call is answered as the map would. -/
theorem Alone.step {es : List (Event K V)} (h : Alone j p es) (op : Op K V) (hm : j.sys.misleads (op.action p.next) = false) :
    Alone (j.step (op.action p.next)) p (es ++ [op.event (Event.replay p.map es)]) := by
  obtain ⟨tx,htx,hsnap,hacc⟩ := h.open_
  have hx : tx.xid = p.next := (h.inv.txs _ tx htx).xid
  have hbefore : (tx.beforeStatement j.sys).snapshot = tx.snapshot := by
    unfold Transaction.beforeStatement
    split_ifs
    · rw [hsnap,hx]
    · rfl
  have hconf : ∀ key, j.sys.store.conflictingWriter (j.sys.store.chain key) p.next tx.snapshot = none :=
    fun key => hsnap ▸ System.conflict_alone h.inv h.idle key
  have hsees : ∀ k, j.sys.store.get k tx.snapshot = Event.replay p.map es k := by
    intro k
    have hun := System.changedSince_capture h.inv.basic (by rw [hx]; exact hsnap) k
    rw [((hacc k).told hun).2.1,Event.replay_at,h.latest]
  have hinv : (j.sys.step (op.action p.next)).Inv := by
    refine System.straight_inv h.inv ?_ hm
    intro c
    cases op <;> simp [Op.action]
  obtain ⟨hmgr,hlatest⟩ := System.step_op j.sys op p.next
  -- what the call tells, and the account with it
  have hevent : j.sys.event (op.action p.next) = some (p.next,op.event (Event.replay p.map es)) ∧
      ∃ tx', (j.sys.step (op.action p.next)).txs[p.next]? = some tx' ∧ tx'.snapshot = tx.snapshot ∧
        ∀ k, (j.sys.step (op.action p.next)).Account tx' (es ++ [op.event (Event.replay p.map es)]) k := by
    cases op with
    | get key =>
      have hget : (tx.get j.sys key).1 = Event.replay p.map es key := by
        rw [← hsees key,← hbefore]
        simp only [Transaction.get]
        split_ifs <;> rfl
      refine ⟨?_,?_⟩
      · simp only [Op.action,System.event,htx,Option.map_some,hget,Op.event]
      · have hget' := System.account_get h.inv htx hbefore key hacc
        rwa [hsees key] at hget'
    | put key value =>
      have hev : j.sys.event (.put p.next key value) = some (p.next,.put key value) := by
        simp only [System.event,htx,VersionedStore.putChecked,hx,hbefore,hconf]
      have hput := System.account_put h.inv htx hbefore key value hacc
      rw [hev] at hput
      exact ⟨hev,hput⟩
    | delete key =>
      have hev : ∃ found, j.sys.event (.delete p.next key) = some (p.next,.delete key found) := by
        simp only [System.event,htx,VersionedStore.deleteChecked,hx,hbefore,hconf]
        cases retire p.next (j.sys.store.chain key) with
        | none => exact ⟨false,rfl⟩
        | some chain => exact ⟨true,rfl⟩
      obtain ⟨found,hev⟩ := hev
      have hdel := System.account_delete h.inv htx hbefore key hm hacc
      rw [hev] at hdel
      obtain ⟨tx',htx',hsnap',hacc'⟩ := hdel
      have hun : (j.sys.step (.delete p.next key)).changedSince tx' key = false := by
        refine System.changedSince_capture hinv.basic ?_ key
        rw [(hinv.txs _ tx' htx').xid,hsnap',hsnap]
        exact congrArg (fun r => Registry.snapshot r p.next) hmgr.symm
      have hright : found = (Event.replay p.map es key).isSome := by
        have htells := ((hacc' key).told hun).1
        have hlat : (j.sys.step (.delete p.next key)).latest = p.map := hlatest.trans h.latest
        rw [hlat] at htells
        exact Event.tells_last (e := .delete key found) htells
      subst hright
      exact ⟨hev,tx',htx',hsnap',hacc'⟩
  obtain ⟨hev,tx',htx',hsnap',hacc'⟩ := hevent
  refine ⟨hinv,?_,?_,hlatest.trans h.latest,?_,?_,tx',htx',?_,hacc'⟩
  · intro y hy
    exact h.idle y (hmgr ▸ hy)
  · exact (congrArg Registry.next hmgr).trans h.next
  · simp only [Journal.step,hev,Option.toList_some,h.history,List.map_append,List.append_assoc,List.map_cons,List.map_nil]
  · have hnone : j.sys.committer (op.action p.next) = none := by cases op <;> rfl
    simp only [Journal.step,hnone,Option.toList_none,List.append_nil,h.commits]
  · rw [hsnap',hsnap]
    exact congrArg (fun r => Registry.snapshot r p.next) hmgr.symm

theorem Alone.ops {es : List (Event K V)} (h : Alone j p es) {done : List (Op K V)} (hes : es = Op.answers p.map done)
    (ops : List (Op K V)) (hm : j.sys.Straight (ops.map (Op.action p.next))) :
    Alone (j.run (ops.map (Op.action p.next))) p (Op.answers p.map (done ++ ops)) := by
  induction ops generalizing j es done with
  | nil =>
    subst hes
    rw [List.append_nil]
    exact h
  | cons op ops ih =>
    rw [List.map_cons,System.straight_cons] at hm
    have hstep := h.step op hm.1
    rw [hes,← answers_append] at hstep
    have hrest := ih hstep rfl hm.2
    rwa [List.append_assoc] at hrest

theorem Alone.ended {es : List (Event K V)} (h : Alone j p es) {j' : Journal K V} {st : XidStatus} (hst : st ≠ .inProgress)
    (hinv : j'.sys.Inv) (hmgr : j'.sys.store.mgr = { j.sys.store.mgr with status := j.sys.store.mgr.status.insert p.next st })
    {q : Plain K V} (hn : q.next = p.next+1) (hq : q.history = p.history ++ es.map (fun e => (p.next,e)))
    (hh : j'.history = j.history) (hl : j'.sys.latest = q.map) (hc : j'.commits = q.commits) : Refines j' q := by
  refine ⟨hinv,?_,?_,hl,?_,hc⟩
  · intro y hy
    simp only [hmgr,Map.get_insert] at hy
    split_ifs at hy with hpy
    · exact hst (Option.some.inj hy)
    · exact hpy (h.idle y hy).symm
  · rw [hmgr,hn]
    exact h.next
  · rw [hh,hq,h.history]

theorem Alone.commit {es : List (Event K V)} (h : Alone j p es) {q : Plain K V} (hn : q.next = p.next+1)
    (hq : q.history = p.history ++ es.map (fun e => (p.next,e))) (hmap : q.map = Event.replay p.map es)
    (hc : q.commits = p.commits ++ [p.next]) : Refines (j.step (.commit p.next)) q := by
  obtain ⟨tx,htx,hsnap,hacc⟩ := h.open_
  obtain ⟨st,mgr,hst,hf,hstore,hok⟩ := System.commitTx_cases h.inv.basic htx
  have hcommit := System.commit_alone h.inv h.idle htx hsnap
  obtain rfl := hok.mp hcommit
  rw [Registry.finish_of (h.inv.txs _ tx htx).status] at hf
  obtain rfl := Except.ok.inj hf
  have hpair : j.sys.commitTx tx = (.ok (),(j.sys.commitTx tx).2) := by rw [← hcommit]
  have hstep : j.sys.step (.commit p.next) =
      { j.sys with store := (j.sys.commitTx tx).2, txs := j.sys.txs.erase p.next, latest := j.sys.committing tx } := by
    simp only [System.step,htx]
    rw [hpair]
    rfl
  have hcom : j.sys.committer (.commit p.next) = some p.next := by
    simp only [System.committer,htx,hcommit]
    rfl
  refine h.ended (show XidStatus.committed ≠ .inProgress by decide) (System.commit_inv h.inv p.next) ?_ hn hq ?_ ?_ ?_
  · change (j.sys.step (.commit p.next)).store.mgr = _
    rw [hstep,hstore]
  · simp [Journal.step,System.event]
  · change (j.sys.step (.commit p.next)).latest = _
    rw [hstep,hmap]
    funext k
    have hun := System.changedSince_capture h.inv.basic (by rw [(h.inv.txs _ tx htx).xid]; exact hsnap) k
    change (tx.wrote[k]?).getD (j.sys.latest k) = _
    rw [((hacc k).told hun).2.2,Event.replay_at,h.latest]
  · simp only [Journal.step,hcom,Option.toList_some,h.commits,hc]

theorem Alone.abort {es : List (Event K V)} (h : Alone j p es) {q : Plain K V} (hn : q.next = p.next+1)
    (hq : q.history = p.history ++ es.map (fun e => (p.next,e))) (hmap : q.map = p.map)
    (hc : q.commits = p.commits) : Refines (j.step (.abort p.next)) q := by
  obtain ⟨tx,htx,-,-⟩ := h.open_
  have htx₀ := h.inv.txs _ tx htx
  have hstep : j.sys.step (.abort p.next) = { j.sys with
      store := { j.sys.store with
        mgr := { j.sys.store.mgr with status := j.sys.store.mgr.status.insert p.next .aborted } }
      txs := j.sys.txs.erase p.next } := by
    simp only [System.step,htx,htx₀.xid,Registry.abort,Registry.finish_of htx₀.status .aborted]
  refine h.ended (show XidStatus.aborted ≠ .inProgress by decide) (System.abort_inv h.inv p.next) ?_ hn hq ?_ ?_ ?_
  · change (j.sys.step (.abort p.next)).store.mgr = _
    rw [hstep]
  · simp [Journal.step,System.event]
  · change (j.sys.step (.abort p.next)).latest = _
    rw [hstep,hmap]
    exact h.latest
  · simp [Journal.step,System.committer,h.commits,hc]

theorem run_append (j : Journal K V) (as bs : List (Action K V)) : j.run (as ++ bs) = (j.run as).run bs := List.foldl_append

theorem Refines.session (h : Refines j p) (s : Session K V) (hm : j.sys.Straight ((Item.session s).actions p.next)) :
    Refines (j.run ((Item.session s).actions p.next)) (p.step (.session s)) := by
  simp only [Item.actions,List.append_assoc] at hm ⊢
  rw [System.straight_append,← run_sys,System.straight_append] at hm
  have hops := (h.begins s.level).ops (show [] = Op.answers p.map [] from rfl) s.ops hm.2.1
  rw [run_append,run_append]
  cases hc : s.commits with
  | true => exact hops.commit rfl rfl (by simp [Plain.step,hc]) (by simp [Plain.step,hc])
  | false => exact hops.abort rfl rfl (by simp [Plain.step,hc]) (by simp [Plain.step,hc])

/-- A vacuum between two transactions. -/
theorem Refines.vacuum (h : Refines j p) : Refines (j.run (Item.vacuum.actions p.next)) p := by
  have hread := System.readHorizon_inv h.inv 0
  have hnone : ∀ q, q ∉ j.sys.txs.toList := by
    intro q hq
    exact h.idle q.1 (h.inv.txs q.1 q.2 (ExtTreeMap.mem_toList_iff_getElem?_eq_some.mp hq)).status
  have hstrands : (j.sys.step (.readHorizon 0)).strands (.vacuum 0) = false := by
    have htxs : (j.sys.step (.readHorizon 0)).txs = j.sys.txs := rfl
    simp only [System.strands,htxs,List.eq_nil_iff_forall_not_mem.mpr hnone,List.any_nil]
    split <;> rfl
  have hinv := System.vacuum_inv hread 0 hstrands
  have hstep : (j.sys.step (.readHorizon 0)).step (.vacuum 0) =
      { j.sys.step (.readHorizon 0) with
        store := (j.sys.store.vacuum j.sys.store.mgr.gcHorizon).2
        collectors := (j.sys.step (.readHorizon 0)).collectors.erase 0 } := by
    simp [System.step]
  have hrun : (j.run (Item.vacuum.actions p.next)).sys = (j.sys.step (.readHorizon 0)).step (.vacuum 0) := rfl
  have hmgr : (j.run (Item.vacuum.actions p.next)).sys.store.mgr = j.sys.store.mgr := by
    rw [hrun,hstep]
    rfl
  refine ⟨by rw [hrun]; exact hinv,?_,?_,?_,?_,?_⟩
  · rw [hmgr]
    exact h.idle
  · rw [hmgr]
    exact h.next
  · rw [hrun,hstep]
    exact h.latest
  · have hhistory : (j.run (Item.vacuum.actions p.next)).history = (j.history ++ []) ++ [] := rfl
    rw [hhistory,h.history]
    simp
  · have hcommits : (j.run (Item.vacuum.actions p.next)).commits = (j.commits ++ []) ++ [] := rfl
    rw [hcommits,h.commits]
    simp

theorem Refines.run (h : Refines j p) (items : List (Item K V)) (hm : j.sys.Straight (Item.sections p.next items)) :
    Refines (j.run (Item.sections p.next items)) (p.run items) := by
  induction items generalizing j p with
  | nil => exact h
  | cons item items ih =>
    rw [sections_cons] at hm ⊢
    rw [System.straight_append,← run_sys] at hm
    rw [run_append]
    refine ih ?_ hm.2
    cases item with
    | session s => exact h.session s hm.1
    | vacuum => exact h.vacuum

theorem empty_refines : Refines ({} : Journal K V) {} := ⟨System.empty_inv,by simp,rfl,rfl,rfl,rfl⟩

/-- Transactions one after the other, with vacuums between them, are told what a map tells them that
the committed ones update, and a new reader finds the entries of the map. -/
theorem serial_refines (items : List (Item K V)) (hm : ({} : System K V).Straight (Item.sections 1 items)) :
    let j := ({} : Journal K V).run (Item.sections 1 items)
    let p := ({} : Plain K V).run items
    j.history = p.history ∧ j.commits = p.commits ∧
      ∀ my, my = invalidXid ∨ j.sys.store.mgr.next ≤ my →
        (∀ k, j.sys.store.get k (j.sys.store.mgr.snapshot my) = p.map k) ∧
        ((j.sys.store.scanVisible (j.sys.store.mgr.snapshot my)).map Prod.fst).Nodup ∧
        ∀ k v, (k,v) ∈ j.sys.store.scanVisible (j.sys.store.mgr.snapshot my) ↔ p.map k = some v := by
  intro j p
  have h : Refines j p := empty_refines.run items hm
  refine ⟨h.history,h.commits,?_⟩
  intro my hmy
  have hget : ∀ k, j.sys.store.get k (j.sys.store.mgr.snapshot my) = p.map k := by
    intro k
    rw [System.get_fresh h.inv hmy k,h.latest]
  refine ⟨hget,VersionedStore.scanVisible_nodup _ _,?_⟩
  intro k v
  rw [VersionedStore.mem_scanVisible,hget]

end Journal
end System

section Samples

/-- A value is put, put again by a transaction that is dropped, vacuumed and read; another is put and
deleted. -/
def droppedPut : List (Item String ℕ) := [.session ⟨.serializable,[.put "k" 1],true⟩,
  .session ⟨.readCommitted,[.get "k",.put "k" 2,.get "k"],false⟩,.vacuum,
  .session ⟨.snapshotIsolation,[.get "k",.put "m" 3,.delete "m",.get "m"],true⟩]

theorem serial_refines_sample : (({} : Journal String ℕ).run (Item.sections 1 droppedPut)).history =
    [(1,.put "k" 1),(2,.get "k" (some 1)),(2,.put "k" 2),(2,.get "k" (some 2)),
      (3,.get "k" (some 1)),(3,.put "m" 3),(3,.delete "m" true),(3,.get "m" none)] := by
  have hm : ({} : System String ℕ).Straight (Item.sections 1 droppedPut) := by
    unfold System.Straight
    decide +kernel
  exact (Journal.serial_refines droppedPut hm).1.trans (by decide +kernel)

/-- A delete retires the version that a dropped transaction left, and the value is still there; the
next delete finds a version that a dropped transaction has retired, and says that there is none. -/
theorem dropped_put_outlives_delete :
    let items : List (Item String ℕ) := [.session ⟨.serializable,[.put "k" 1],true⟩,
      .session ⟨.serializable,[.put "k" 2],false⟩,.session ⟨.serializable,[.delete "k",.get "k",.delete "k"],true⟩]
    let j := ({} : Journal String ℕ).run (Item.sections 1 items)
    j.history = [(1,.put "k" 1),(2,.put "k" 2),(3,.delete "k" true),(3,.get "k" (some 1)),(3,.delete "k" false)] ∧
      (({} : Plain String ℕ).run items).history =
        [(1,.put "k" 1),(2,.put "k" 2),(3,.delete "k" true),(3,.get "k" none),(3,.delete "k" false)] ∧
      j.sys.store.scanVisible (j.sys.store.mgr.snapshot invalidXid) = [("k",1)] ∧
      (({} : Plain String ℕ).run items).map "k" = none := by
  decide +kernel

end Samples
end Drevo.Mvcc
