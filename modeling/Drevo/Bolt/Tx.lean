import Drevo.Bolt.Auth

/-! The life of a session's transactions. The books of a session, the transactions it began and
how each ended, balance in every state: what was begun has ended once or is the one it holds
open. A `RESET` forgets the open transaction but not that an earlier one was prepared. -/
namespace Drevo.Bolt
open Lib

/-- The states outside any explicit transaction. -/
def State.outside : State → Bool
  | .connected => true
  | .authentication => true
  | .ready => true
  | .streaming => true
  | _ => false

namespace Session

/-- The transaction is open on its database. -/
def opened (s : Session) (t : Tx) : Bool := (s.services t.service).registered t.id

/-- The transaction has ended. -/
def Ended (s : Session) (t : Tx) : Prop := t ∈ s.ended.map Prod.fst

/-- The books balance. -/
structure Tracked (s : Session) : Prop where
  fresh : ∀ t ∈ s.begun, t.id ≤ (s.services t.service).engine.nextRegTx
  distinct : s.begun.Nodup
  once : (s.ended.map Prod.fst).Nodup
  known : ∀ t, s.Ended t → t ∈ s.begun
  closed : ∀ t, s.Ended t → s.opened t = false
  held : ∀ t ∈ s.begun, s.Ended t ∨ (s.nativeTx.map ActiveTx.tx = some t ∧ s.opened t = true)
  latest : ∀ a, s.nativeTx = some a → s.begun.getLast? = some a.tx
  prepared : ∀ gid, s.preparedGid = some gid → s.nativeTx = none ∧
    ∃ t, s.begun.getLast? = some t ∧ (t,Fate.prepared gid) ∈ s.ended
  expired : s.timedOut.isSome = true → s.nativeTx = none

/-- The parts of a session the books are about. -/
structure SameBooks (s s' : Session) : Prop where
  services : s'.services = s.services
  begun : s'.begun = s.begun
  ended : s'.ended = s.ended
  nativeTx : s'.nativeTx = s.nativeTx
  timedOut : s'.timedOut = s.timedOut ∨ s'.timedOut = none

theorem Tracked.congr {s s' : Session} (h : s.Tracked) (hs : SameBooks s s')
    (hp : s'.preparedGid = s.preparedGid ∨ s'.preparedGid = none) : s'.Tracked := by
  obtain ⟨hsv,hb,he,hn,hx⟩ := hs
  have hopen : s'.opened = s.opened := by
    funext t
    rw [opened,hsv,opened]
  have hended : s'.Ended = s.Ended := by
    funext t
    rw [Ended,he,Ended]
  refine ⟨?_,?_,?_,?_,?_,?_,?_,?_,?_⟩
  · rw [hb,hsv]
    exact h.fresh
  · rw [hb]
    exact h.distinct
  · rw [he]
    exact h.once
  · rw [hended,hb]
    exact h.known
  · rw [hended,hopen]
    exact h.closed
  · rw [hended,hopen,hb,hn]
    exact h.held
  · rw [hb,hn]
    exact h.latest
  · intro gid hgid
    rcases hp with hp | hp
    · rw [hp] at hgid
      rw [hb,hn,he]
      exact h.prepared gid hgid
    · rw [hp] at hgid
      cases hgid
  · intro hout
    rw [hn]
    rcases hx with hx | hx
    · exact h.expired (hx ▸ hout)
    · rw [hx] at hout
      cases hout

theorem Tracked.mem_begun {s : Session} (h : s.Tracked) {a : ActiveTx} (ha : s.nativeTx = some a) :
    a.tx ∈ s.begun := List.mem_of_getLast? (h.latest a ha)

/-! ## Calls on the open transaction -/

section Call
variable {α : Type} {s : Session} {a : ActiveTx} (f : Service → α × Service) (fate : α → Fate)

theorem call_opened_self (t : Tx) :
    (s.call t f fate).2.opened t = (f (s.services t.service)).2.registered t.id := by
  simp [call,opened]

theorem call_opened_other {t u : Tx} (hf : ∀ d : Service, d.About (f d).2 t.id) (hu : u ≠ t) :
    (s.call t f fate).2.opened u = s.opened u := by
  simp only [call,opened]
  by_cases hs : u.service = t.service
  · have hid : u.id ≠ t.id := by
      intro hid
      apply hu
      cases u
      cases t
      simp_all
    rw [hs,Function.update_self]
    exact (hf _).other u.id hid
  · rw [Function.update_of_ne hs]

theorem call_next {t : Tx} (hf : ∀ d : Service, d.About (f d).2 t.id) (service : ℕ) :
    ((s.call t f fate).2.services service).engine.nextRegTx = (s.services service).engine.nextRegTx := by
  simp only [call]
  by_cases hs : service = t.service
  · rw [hs,Function.update_self]
    exact (hf _).next
  · rw [Function.update_of_ne hs]

theorem call_ended (t : Tx) : (s.call t f fate).2.ended =
    if s.opened t = true ∧ (f (s.services t.service)).2.registered t.id = false
    then s.ended ++ [(t,fate (s.call t f fate).1)] else s.ended := by
  simp only [call,opened,Bool.and_eq_true,Bool.not_eq_eq_eq_not,Bool.not_true]

theorem Tracked.call (h : s.Tracked) (ha : s.nativeTx = some a) (hf : ∀ d : Service, d.About (f d).2 a.tx.id) :
    (s.call a.tx f fate).2.Tracked := by
  have hself := call_opened_self (s := s) f fate a.tx
  have hother := fun u hu => call_opened_other (s := s) f fate (t := a.tx) (u := u) hf hu
  have hended := call_ended (s := s) f fate a.tx
  have hgone : ∀ t, s.Ended t → (s.call a.tx f fate).2.opened t = false := by
    intro t ht
    by_cases hta : t = a.tx
    · subst hta
      rw [hself,← Bool.not_eq_true]
      intro hr
      have := h.closed _ ht
      rw [opened,(hf _).own hr] at this
      cases this
    · rw [hother t hta]
      exact h.closed t ht
  by_cases hc : s.opened a.tx = true ∧ (f (s.services a.tx.service)).2.registered a.tx.id = false
  · rw [if_pos hc] at hended
    have hmem : ∀ t, (s.call a.tx f fate).2.Ended t ↔ s.Ended t ∨ t = a.tx := by
      intro t
      simp only [Ended,hended,List.map_append,List.mem_append,List.map_cons,List.map_nil,List.mem_singleton]
    have hnew : ¬ s.Ended a.tx := by
      intro he
      have := h.closed _ he
      rw [hc.1] at this
      cases this
    refine ⟨?_,h.distinct,?_,?_,?_,?_,h.latest,?_,h.expired⟩
    · intro t ht
      rw [call_next f fate hf]
      exact h.fresh t ht
    · rw [hended,List.map_append]
      exact List.Nodup.append h.once (List.nodup_singleton _) (by simpa [Ended] using hnew)
    · intro t ht
      rcases (hmem t).mp ht with ht | rfl
      · exact h.known t ht
      · exact h.mem_begun ha
    · intro t ht
      rcases (hmem t).mp ht with ht | rfl
      · exact hgone t ht
      · rw [hself]
        exact hc.2
    · intro t ht
      rw [hmem]
      rcases h.held t ht with he | ⟨hn,-⟩
      · exact .inl (.inl he)
      · rw [ha] at hn
        exact .inl (.inr (Option.some.inj hn).symm)
    · intro gid hgid
      rw [(h.prepared gid hgid).1] at ha
      cases ha
  · rw [if_neg hc] at hended
    have hmem : ∀ t, (s.call a.tx f fate).2.Ended t ↔ s.Ended t := fun t => by rw [Ended,hended,Ended]
    refine ⟨?_,h.distinct,?_,?_,?_,?_,h.latest,?_,h.expired⟩
    · intro t ht
      rw [call_next f fate hf]
      exact h.fresh t ht
    · rw [hended]
      exact h.once
    · exact fun t ht => h.known t ((hmem t).mp ht)
    · exact fun t ht => hgone t ((hmem t).mp ht)
    · intro t ht
      rcases h.held t ht with he | ⟨hn,ho⟩
      · exact .inl ((hmem t).mpr he)
      · right
        refine ⟨hn,?_⟩
        rw [ha] at hn
        obtain rfl := Option.some.inj hn
        rw [hself,← Bool.not_eq_false]
        exact fun hr => hc ⟨ho,hr⟩
    · intro gid hgid
      rw [(h.prepared gid hgid).1] at ha
      cases ha

theorem Tracked.close (h : s.Tracked) (ha : s.nativeTx = some a) (hf : ∀ d : Service, d.Closes (f d).2 a.tx.id) :
    ({ s with nativeTx := none }.call a.tx f fate).2.Tracked := by
  have ht := h.call f fate ha (fun d => (hf d).toAbout)
  have hclosed : (s.call a.tx f fate).2.opened a.tx = false := by
    rw [call_opened_self]
    exact (hf _).closed
  refine ⟨ht.fresh,ht.distinct,ht.once,ht.known,ht.closed,?_,nofun,?_,fun _ => rfl⟩
  · intro t hb
    rcases ht.held t hb with he | ⟨hn,ho⟩
    · exact .inl he
    · have hta : a.tx = t := by
        change s.nativeTx.map ActiveTx.tx = some t at hn
        rw [ha] at hn
        exact Option.some.inj hn
      rw [← hta,hclosed] at ho
      cases ho
  · intro gid hgid
    rw [(h.prepared gid hgid).1] at ha
    cases ha

end Call

theorem Tracked.rollBackOwnTx {s : Session} (h : s.Tracked) :
    s.rollBackOwnTx.Tracked ∧ s.rollBackOwnTx.nativeTx = none ∧ s.rollBackOwnTx.preparedGid = s.preparedGid := by
  unfold Session.rollBackOwnTx
  cases ha : s.nativeTx with
  | none => exact ⟨h,ha,rfl⟩
  | some a => exact ⟨h.close _ _ ha (fun d => d.rollbackTx_closes a.tx.id),rfl,rfl⟩

theorem Tracked.expire {s : Session} (h : s.Tracked) (deadline : Deadline) :
    { s.rollBackOwnTx with timedOut := some deadline }.Tracked := by
  obtain ⟨ht,hn,-⟩ := h.rollBackOwnTx
  exact ⟨ht.fresh,ht.distinct,ht.once,ht.known,ht.closed,ht.held,ht.latest,ht.prepared,fun _ => hn⟩

theorem Tracked.checkTxDeadline {s s' : Session} {env : Env} {failure : Option (List ServerMessage)} (h : s.Tracked)
    (hd : s.checkTxDeadline env = (failure,s')) :
    s'.Tracked ∧ (failure = none → s' = s) := by
  simp only [Session.checkTxDeadline] at hd
  cases hx : (s.nativeTx.bind ActiveTx.deadline).filter (fun d => d.expired env.now) with
  | some deadline =>
    rw [hx] at hd
    obtain ⟨rfl,rfl⟩ := Prod.mk.inj hd
    exact ⟨h.rollBackOwnTx.1.congr ⟨rfl,rfl,rfl,rfl,.inr rfl⟩ (.inl rfl),by simp⟩
  | none =>
    rw [hx] at hd
    simp only at hd
    cases ht : s.timedOut with
    | none =>
      rw [ht] at hd
      obtain ⟨rfl,rfl⟩ := Prod.mk.inj hd
      exact ⟨h,fun _ => rfl⟩
    | some deadline =>
      rw [ht] at hd
      obtain ⟨rfl,rfl⟩ := Prod.mk.inj hd
      exact ⟨h.congr ⟨rfl,rfl,rfl,rfl,.inr rfl⟩ (.inl rfl),by simp⟩

/-! ## Handlers -/

/-- The books balance, and outside a transaction the session holds none and remembers none as
prepared. -/
structure Balanced (s : Session) : Prop extends Tracked s where
  outside : s.state.outside = true → s.nativeTx = none ∧ s.preparedGid = none

theorem Tracked.fail {s : Session} (h : s.Tracked) (code message : String) : (s.fail code message).2.Balanced :=
  ⟨h.congr ⟨rfl,rfl,rfl,rfl,.inl rfl⟩ (.inl rfl),nofun⟩

theorem Balanced.congr {s s' : Session} (h : s.Balanced) (hs : SameBooks s s') (hp : s'.preparedGid = s.preparedGid)
    (ho : s'.state.outside = true → s.state.outside = true) : s'.Balanced := by
  refine ⟨h.toTracked.congr hs (.inl hp),fun ho' => ?_⟩
  rw [hs.nativeTx,hp]
  exact h.outside (ho ho')

theorem Tracked.checked {s s' : Session} {env : Env} {failure : List ServerMessage} (h : s.Tracked)
    (hd : s.checkTxDeadline env = (some failure,s')) : s'.Balanced := by
  refine ⟨(h.checkTxDeadline hd).1,fun ho => ?_⟩
  rw [checkTxDeadline_state hd] at ho
  cases ho

theorem handleGoodbye_balanced {s : Session} (h : s.Tracked) : s.handleGoodbye.2.Balanced :=
  ⟨h.rollBackOwnTx.1.congr ⟨rfl,rfl,rfl,rfl,.inl rfl⟩ (.inl rfl),nofun⟩

theorem handleReset_balanced {s : Session} (h : s.Tracked) (hp : s.preparedGid = none) : s.handleReset.2.Balanced := by
  have h' : { s with pending := none }.Tracked := h.congr ⟨rfl,rfl,rfl,rfl,.inl rfl⟩ (.inl rfl)
  obtain ⟨ht,hn,hg⟩ := h'.rollBackOwnTx
  exact ⟨ht.congr ⟨rfl,rfl,rfl,rfl,.inr rfl⟩ (.inl rfl),fun _ => ⟨hn,hg.trans hp⟩⟩

theorem Balanced.logIn {s s' : Session} {env : Env} {auth : Dict} {r : Except (List ServerMessage) Unit}
    (h : s.Balanced) (hl : s.logIn env auth = (r,s')) :
    s'.Balanced ∧ SameBooks s s' ∧ s'.preparedGid = s.preparedGid := by
  have hst := logIn_state hl
  have hsame : SameBooks s s' ∧ s'.preparedGid = s.preparedGid := by
    simp only [Session.logIn] at hl
    split_ifs at hl
    · split at hl <;> (obtain ⟨rfl,rfl⟩ := Prod.mk.inj hl; exact ⟨⟨rfl,rfl,rfl,rfl,.inl rfl⟩,rfl⟩)
    · split at hl <;> (obtain ⟨rfl,rfl⟩ := Prod.mk.inj hl; exact ⟨⟨rfl,rfl,rfl,rfl,.inl rfl⟩,rfl⟩)
    · obtain ⟨rfl,rfl⟩ := Prod.mk.inj hl
      exact ⟨⟨rfl,rfl,rfl,rfl,.inl rfl⟩,rfl⟩
  refine ⟨h.congr hsame.1 hsame.2 ?_,hsame⟩
  intro ho
  rw [hst] at ho
  split_ifs at ho
  · exact ho
  · cases ho

theorem handleLogon_balanced {s : Session} (h : s.Balanced) (hs : s.state.outside = true) (env : Env) (auth : Dict) :
    (s.handleLogon env auth).2.Balanced := by
  unfold handleLogon
  split
  · rename_i hl
    exact (h.logIn hl).1
  · rename_i s' hl
    obtain ⟨hb,hsame,hp⟩ := h.logIn hl
    refine ⟨hb.toTracked.congr ⟨rfl,rfl,rfl,rfl,.inl rfl⟩ (.inl rfl),fun _ => ?_⟩
    exact ⟨hsame.nativeTx.trans (h.outside hs).1,hp.trans (h.outside hs).2⟩

theorem handleHello_balanced {s : Session} (h : s.Balanced) (env : Env) (extra : Dict) :
    (s.handleHello env extra).2.Balanced := by
  simp only [handleHello]
  by_cases hc : s.state ≠ .connected
  · rw [if_pos hc]
    exact h.toTracked.fail _ _
  rw [if_neg hc]
  have hs : s.state.outside = true := by
    rw [not_not.mp hc]
    rfl
  by_cases hv : s.logsInWithLogon = true
  · rw [if_pos hv]
    exact h.congr ⟨rfl,rfl,rfl,rfl,.inl rfl⟩ rfl (fun _ => hs)
  rw [if_neg hv]
  split
  · rename_i hl
    exact (h.logIn hl).1
  · rename_i s' hl
    obtain ⟨hb,hsame,hp⟩ := h.logIn hl
    refine ⟨hb.toTracked.congr ⟨rfl,rfl,rfl,rfl,.inl rfl⟩ (.inl rfl),fun _ => ?_⟩
    exact ⟨hsame.nativeTx.trans (h.outside hs).1,hp.trans (h.outside hs).2⟩

theorem handleLogoff_balanced {s : Session} (h : s.Balanced) : s.handleLogoff.2.Balanced := by
  unfold handleLogoff
  split_ifs with hv hr
  · exact h.toTracked.fail _ _
  · exact h.toTracked.fail _ _
  · refine h.congr ⟨rfl,rfl,rfl,rfl,.inl rfl⟩ rfl (fun _ => ?_)
    rw [not_not.mp hr]
    rfl

theorem handleTelemetry_balanced {s : Session} (h : s.Balanced) : s.handleTelemetry.2.Balanced := by
  unfold handleTelemetry
  split_ifs
  · exact h.toTracked.fail _ _
  · exact h

theorem takeRows_balanced {s : Session} (h : s.Balanced) (sends : Bool) (n : Int64) (rows : List (List Value))
    (drained : State) (hd : drained.outside = true → s.state.outside = true) :
    (s.takeRows sends n rows drained).2.Balanced := by
  simp only [takeRows]
  by_cases hx : (drain n 0 rows).2.2 = true
  · rw [if_pos hx]
    exact h.congr ⟨rfl,rfl,rfl,rfl,.inl rfl⟩ rfl hd
  · rw [if_neg hx]
    exact h.congr ⟨rfl,rfl,rfl,rfl,.inl rfl⟩ rfl id

theorem handleStream_balanced {s : Session} (h : s.Balanced) (name : String) (sends : Bool) (extra : Dict) :
    (s.handleStream name sends extra).2.Balanced := by
  unfold handleStream
  split
  · rename_i hs _
    exact takeRows_balanced h sends _ _ _ (fun _ => by rw [hs]; rfl)
  · exact takeRows_balanced h sends _ _ _ nofun
  · have ht : { s with pending := none }.Tracked := h.toTracked.congr ⟨rfl,rfl,rfl,rfl,.inl rfl⟩ (.inl rfl)
    exact ht.fail _ _

theorem stream_balanced {s : Session} (h : s.Tracked) (inTx : Bool) (result : ResultSet)
    (ho : inTx = false → s.nativeTx = none ∧ s.preparedGid = none) : (s.stream inTx result).2.Balanced := by
  refine ⟨h.congr ⟨rfl,rfl,rfl,rfl,.inl rfl⟩ (.inl rfl),fun hs => ?_⟩
  cases inTx with
  | false => exact ho rfl
  | true => cases hs

theorem handleSecurityCommand_balanced {s : Session} (h : s.Tracked) (env : Env)
    (parsed : Except String SecurityCommand) (inTx : Bool)
    (ho : inTx = false → s.nativeTx = none ∧ s.preparedGid = none) :
    (s.handleSecurityCommand env parsed inTx).2.Balanced := by
  unfold handleSecurityCommand
  split_ifs with hi
  · exact h.fail _ _
  have ho' := ho (Bool.eq_false_iff.mpr hi)
  split
  · exact h.fail _ _
  split
  · exact h.fail _ _
  · simp only
    apply stream_balanced
    · exact h.congr ⟨rfl,rfl,rfl,rfl,.inl rfl⟩ (.inl rfl)
    · exact fun _ => ho'
  · exact stream_balanced h false _ (fun _ => ho')

theorem handleRollback_balanced {s : Session} (h : s.Balanced) : s.handleRollback.2.Balanced := by
  unfold handleRollback
  split_ifs with hs hp ht
  · exact h.toTracked.fail _ _
  · obtain ⟨gid,hgid⟩ := Option.isSome_iff_exists.mp hp
    exact ⟨h.toTracked.congr ⟨rfl,rfl,rfl,rfl,.inl rfl⟩ (.inr rfl),fun _ => ⟨(h.prepared gid hgid).1,rfl⟩⟩
  · refine ⟨h.toTracked.congr ⟨rfl,rfl,rfl,rfl,.inr rfl⟩ (.inl rfl),fun _ => ⟨h.expired ht,?_⟩⟩
    simpa using hp
  cases ha : s.nativeTx with
  | none => exact h.toTracked.fail _ _
  | some a =>
    have hc := h.toTracked.close _ (fun _ => .rolledBack) ha (fun d => d.rollbackTx_closes a.tx.id)
    have hg : s.preparedGid = none := by simpa using hp
    exact ⟨hc.congr ⟨rfl,rfl,rfl,rfl,.inl rfl⟩ (.inl rfl),fun _ => ⟨rfl,hg⟩⟩

/-- Opening a transaction when none is open. -/
theorem Tracked.begin {s : Session} (h : s.Tracked) (hn : s.nativeTx = none) (hp : s.preparedGid = none)
    (service : ℕ) (isolation : Option Isolation) (database : String) (deadline : Option Deadline) :
    let r := (s.services service).beginTxWith isolation
    Tracked { s with
      services := Function.update s.services service r.2
      nativeTx := some ⟨⟨service,r.1⟩,database,deadline⟩
      begun := s.begun ++ [⟨service,r.1⟩]
      timedOut := none
      state := .txReady } := by
  intro r
  have hnext : ∀ i, (s.services i).engine.nextRegTx ≤ (Function.update s.services service r.2 i).engine.nextRegTx := by
    intro i
    by_cases hi : i = service
    · subst hi
      rw [Function.update_self]
      exact Nat.le_succ _
    · rw [Function.update_of_ne hi]
  have hnew : (⟨service,r.1⟩ : Tx) ∉ s.begun := by
    intro hb
    have := h.fresh _ hb
    exact absurd this (Nat.not_succ_le_self _)
  have hopen : ∀ t ∈ s.begun, (Function.update s.services service r.2 t.service).registered t.id = s.opened t := by
    intro t ht
    by_cases hi : t.service = service
    · have hid : (s.services service).engine.nextRegTx+1 ≠ t.id := by
        have := h.fresh t ht
        rw [hi] at this
        omega
      rw [hi,Function.update_self,opened,hi]
      simp only [r,Service.registered,Service.beginTxWith,Engine.txBegin_contains,hid,decide_false,Bool.false_or]
    · rw [Function.update_of_ne hi]
      rfl
  have hself : (Function.update s.services service r.2 service).registered r.1 = true := by
    rw [Function.update_self]
    simp [r,Service.registered,Service.beginTxWith,Engine.txBegin]
  refine ⟨?_,?_,h.once,?_,?_,?_,?_,?_,by simp⟩
  · intro t ht
    rcases List.mem_append.mp ht with ht | ht
    · exact (h.fresh t ht).trans (hnext t.service)
    · obtain rfl := List.mem_singleton.mp ht
      change r.1 ≤ (Function.update s.services service r.2 service).engine.nextRegTx
      rw [Function.update_self]
      exact le_rfl
  · exact List.Nodup.append h.distinct (List.nodup_singleton _) (by simpa using hnew)
  · exact fun t ht => List.mem_append_left _ (h.known t ht)
  · intro t ht
    exact (hopen t (h.known t ht)).trans (h.closed t ht)
  · intro t ht
    rcases List.mem_append.mp ht with ht | ht
    · rcases h.held t ht with he | ⟨hm,-⟩
      · exact .inl he
      · rw [hn] at hm
        cases hm
    · obtain rfl := List.mem_singleton.mp ht
      exact .inr ⟨rfl,hself⟩
  · intro a ha
    obtain rfl := Option.some.inj ha
    exact List.getLast?_concat
  · intro gid hgid
    change s.preparedGid = some gid at hgid
    rw [hp] at hgid
    cases hgid

theorem handleBegin_balanced {s : Session} (h : s.Balanced) (env : Env) (extra : Dict) :
    (s.handleBegin env extra).2.Balanced := by
  unfold handleBegin
  split_ifs with hc hr
  · exact h.toTracked.fail _ _
  · exact h.toTracked.fail _ _
  obtain ⟨hn,hp⟩ := h.outside (by rw [not_not.mp hr]; rfl)
  split
  · exact h.toTracked.fail _ _
  split
  · exact h.toTracked.fail _ _
  split
  · exact h.toTracked.fail _ _
  · exact ⟨h.toTracked.begin hn hp _ _ _ _,nofun⟩

variable [JsonText]

theorem handleCommit_balanced {s : Session} (h : s.Balanced) (env : Env) : (s.handleCommit env).2.Balanced := by
  unfold handleCommit
  split_ifs with hs hp
  · exact h.toTracked.fail _ _
  · obtain ⟨gid,hgid⟩ := Option.isSome_iff_exists.mp hp
    exact ⟨h.toTracked.congr ⟨rfl,rfl,rfl,rfl,.inl rfl⟩ (.inr rfl),fun _ => ⟨(h.prepared gid hgid).1,rfl⟩⟩
  have hg : s.preparedGid = none := by simpa using hp
  rcases hd : s.checkTxDeadline env with ⟨_ | failure,s'⟩
  · obtain rfl := (h.toTracked.checkTxDeadline hd).2 rfl
    simp only
    cases ha : s'.nativeTx with
    | none => exact h.toTracked.fail _ _
    | some a =>
      simp only
      by_cases ht : (s'.services a.tx.service).txTerminated a.tx.id = true
      · rw [if_pos ht]
        exact (h.toTracked.close _ _ ha (fun d => d.rollbackTx_closes a.tx.id)).fail _ _
      rw [if_neg ht]
      have hc := h.toTracked.close (fun d => d.commitTx a.tx.id env.before env.io)
        (fun r => if r.isOk then .committed else .rolledBack) ha (fun d => (d.commitTx_closes a.tx.id env.before env.io).1)
      split
      · rename_i s₁ hcall
        have h₁ : s₁ = _ := (congrArg Prod.snd hcall).symm
        subst h₁
        exact ⟨hc.congr ⟨rfl,rfl,rfl,rfl,.inl rfl⟩ (.inl rfl),fun _ => ⟨rfl,hg⟩⟩
      · rename_i e s₁ hcall
        have h₁ : s₁ = _ := (congrArg Prod.snd hcall).symm
        subst h₁
        exact hc.fail _ _
  · exact h.toTracked.checked hd

/-- Preparing the open transaction: on success the books have it as prepared. -/
theorem handlePrepare_balanced {s : Session} (h : s.Tracked) (env : Env) (gidExpr : Expression) (params : Dict) :
    (s.handlePrepare env gidExpr params true).2.Balanced := by
  simp only [handlePrepare]
  split
  · exact h.fail _ _
  rename_i gid _
  by_cases hm : (!env.mayPrepare) = true
  · rw [if_pos hm]
    exact h.fail _ _
  rw [if_neg hm]
  rcases hd : s.checkTxDeadline env with ⟨_ | failure,s'⟩
  · obtain rfl := (h.checkTxDeadline hd).2 rfl
    simp only
    cases ha : s'.nativeTx with
    | none => exact h.fail _ _
    | some a =>
      simp only
      by_cases ht : (s'.services a.tx.service).txTerminated a.tx.id = true
      · rw [if_pos ht]
        exact (h.close _ _ ha (fun d => d.rollbackTx_closes a.tx.id)).fail _ _
      rw [if_neg ht]
      have hcloses := fun d : Service => d.prepareTx_closes a.tx.id gid env.before env.wallClock env.io
      have hc := h.close (fun d => d.prepareTx a.tx.id gid env.before env.wallClock env.io)
        (fun r => if r.isOk then .prepared gid else .rolledBack) ha (fun d => (hcloses d).1)
      split
      · rename_i s₁ hcall
        have hok := congrArg Prod.fst hcall
        have h₁ : s₁ = _ := (congrArg Prod.snd hcall).symm
        subst h₁
        have hopen : s'.opened a.tx = true := (hcloses (s'.services a.tx.service)).2 hok
        have hended : (a.tx,Fate.prepared gid) ∈ ({ s' with nativeTx := none }.call a.tx
            (fun d => d.prepareTx a.tx.id gid env.before env.wallClock env.io)
            (fun r => if r.isOk then .prepared gid else .rolledBack)).2.ended := by
          rw [call_ended,if_pos ⟨hopen,(hcloses _).1.closed⟩,hok]
          exact List.mem_append_right _ (List.mem_singleton.mpr rfl)
        refine ⟨⟨hc.fresh,hc.distinct,hc.once,hc.known,hc.closed,hc.held,hc.latest,?_,hc.expired⟩,by rintro ⟨⟩⟩
        intro gid' hgid
        obtain rfl := Option.some.inj hgid
        exact ⟨rfl,a.tx,h.latest a ha,hended⟩
      · rename_i e s₁ hcall
        have h₁ : s₁ = _ := (congrArg Prod.snd hcall).symm
        subst h₁
        exact hc.fail _ _
  · exact h.checked hd

theorem executeInTx_balanced {s : Session} (h : s.Tracked) (env : Env) : (s.executeInTx env).2.Balanced := by
  unfold executeInTx
  cases ha : s.nativeTx with
  | none => exact h.fail _ _
  | some a =>
    have hc := h.call (fun d => d.executeInTx a.tx.id env.statement.1 env.statement.2) (fun _ => .rolledBack) ha
      (fun d => d.executeInTx_about a.tx.id env.statement.1 env.statement.2)
    simp only
    split
    · rename_i result s₁ hcall
      have h₁ : s₁ = _ := (congrArg Prod.snd hcall).symm
      subst h₁
      exact stream_balanced hc true result nofun
    · rename_i e s₁ hcall
      have h₁ : s₁ = _ := (congrArg Prod.snd hcall).symm
      subst h₁
      split_ifs
      · exact hc.rollBackOwnTx.1.fail _ _
      · exact hc.fail _ _

omit [JsonText] in
/-- What others do to the databases: ids are not given out again, and the open transaction of
the session is left alone. -/
theorem Tracked.world {s : Session} (h : s.Tracked) {service : ℕ} {d : Service}
    (hnext : (s.services service).engine.nextRegTx ≤ d.engine.nextRegTx)
    (hold : ∀ id ≤ (s.services service).engine.nextRegTx, d.registered id = true →
      (s.services service).registered id = true)
    (hown : ∀ a, s.nativeTx = some a → a.tx.service = service → d.registered a.tx.id = s.opened a.tx) :
    { s with services := Function.update s.services service d }.Tracked := by
  have hgone : ∀ t ∈ s.begun, s.opened t = false → (Function.update s.services service d t.service).registered t.id = false := by
    intro t ht hc
    by_cases hi : t.service = service
    · rw [hi,Function.update_self,← Bool.not_eq_true]
      intro hr
      have := hold t.id (hi ▸ h.fresh t ht) hr
      rw [opened,hi,this] at hc
      cases hc
    · rw [Function.update_of_ne hi]
      exact hc
  refine ⟨?_,h.distinct,h.once,h.known,?_,?_,h.latest,h.prepared,h.expired⟩
  · intro t ht
    change t.id ≤ (Function.update s.services service d t.service).engine.nextRegTx
    by_cases hi : t.service = service
    · rw [hi,Function.update_self]
      exact (hi ▸ h.fresh t ht).trans hnext
    · rw [Function.update_of_ne hi]
      exact h.fresh t ht
  · exact fun t ht => hgone t (h.known t ht) (h.closed t ht)
  · intro t ht
    rcases h.held t ht with he | ⟨hn,ho⟩
    · exact .inl he
    · refine .inr ⟨hn,?_⟩
      obtain ⟨a,ha,rfl⟩ := Option.map_eq_some_iff.mp hn
      change (Function.update s.services service d a.tx.service).registered a.tx.id = true
      by_cases hi : a.tx.service = service
      · rw [hi,Function.update_self,hown a ha hi]
        exact ho
      · rw [Function.update_of_ne hi]
        exact ho

theorem executeAutocommit_balanced {s : Session} (h : s.Tracked) (hn : s.nativeTx = none) (hp : s.preparedGid = none)
    (env : Env) (extra : Dict) : (s.executeAutocommit env extra).2.Balanced := by
  unfold executeAutocommit
  split
  · exact h.fail _ _
  rename_i service _
  obtain ⟨hnext,hold⟩ := Engine.run_txs (s.services service).engine env.autocommit.1
  have hw : Tracked { s with
      services := Function.update s.services service ((s.services service).runActions env.autocommit.1) } := by
    refine h.world hnext hold ?_
    intro a ha
    rw [hn] at ha
    cases ha
  simp only
  split
  · exact stream_balanced hw false _ (fun _ => ⟨hn,hp⟩)
  · split_ifs
    · exact hw.rollBackOwnTx.1.fail _ _
    · exact hw.fail _ _

theorem runQuery_balanced {s : Session} (h : s.Tracked) (env : Env) (query : String) (parameters extra : Dict)
    (inTx : Bool) (ho : inTx = false → s.nativeTx = none ∧ s.preparedGid = none) :
    (s.runQuery env query parameters extra inTx).2.Balanced := by
  simp only [runQuery]
  split
  · exact h.fail _ _
  have ht : { s with executed := s.executed ++ [query] }.Tracked := h.congr ⟨rfl,rfl,rfl,rfl,.inl rfl⟩ (.inl rfl)
  split
  · exact handleSecurityCommand_balanced ht env _ inTx ho
  split
  · exact h.fail _ _
  split
  · exact handlePrepare_balanced ht env _ _
  · exact executeInTx_balanced ht env
  · exact executeAutocommit_balanced ht (ho rfl).1 (ho rfl).2 env extra

theorem handleRun_balanced {s : Session} (h : s.Balanced) (env : Env) (query : String) (parameters extra : Dict) :
    (s.handleRun env query parameters extra).2.Balanced := by
  simp only [handleRun]
  by_cases hs : s.state ≠ .ready ∧ s.state ≠ .txReady
  · rw [if_pos hs]
    exact h.toTracked.fail _ _
  rw [if_neg hs]
  split_ifs with hc ht
  · exact h.toTracked.fail _ _
  · rcases hd : s.checkTxDeadline env with ⟨_ | failure,s'⟩
    · obtain rfl := (h.toTracked.checkTxDeadline hd).2 rfl
      refine runQuery_balanced h.toTracked env query parameters extra _ ?_
      intro hf
      rw [ht] at hf
      cases hf
    · exact h.toTracked.checked hd
  · split
    · exact h.toTracked.fail _ _
    · refine runQuery_balanced h.toTracked env query parameters extra _ (fun _ => h.outside ?_)
      have hready : s.state = .ready := by
        by_contra hr
        exact hs ⟨hr,by simpa using ht⟩
      rw [hready]
      rfl

theorem dispatch_balanced {s : Session} (h : s.Balanced) (env : Env) (msg : ClientMessage)
    (hr : msg = .reset → s.state = .defunct ∨ s.preparedGid = none) : (s.dispatch env msg).2.Balanced := by
  have hopen : s.state ≠ .defunct → (s.dispatchOpen env msg).2.Balanced := by
    intro hs
    cases msg with
    | hello extra => exact handleHello_balanced h env extra
    | goodbye => exact handleGoodbye_balanced h.toTracked
    | reset => exact handleReset_balanced h.toTracked ((hr rfl).resolve_left hs)
    | run query parameters extra => exact handleRun_balanced h env query parameters extra
    | begin extra => exact handleBegin_balanced h env extra
    | commit => exact handleCommit_balanced h env
    | rollback => exact handleRollback_balanced h
    | discard extra => exact handleStream_balanced h _ _ extra
    | pull extra => exact handleStream_balanced h _ _ extra
    | logon auth => exact h.toTracked.fail _ _
    | logoff => exact handleLogoff_balanced h
    | telemetry api => exact handleTelemetry_balanced h
  unfold dispatch
  cases hs : s.state with
  | defunct => exact h
  | authentication =>
    have hout : s.state.outside = true := by
      rw [hs]
      rfl
    cases msg with
    | logon auth => exact handleLogon_balanced h hout env auth
    | goodbye => exact handleGoodbye_balanced h.toTracked
    | _ => exact h.congr ⟨rfl,rfl,rfl,rfl,.inl rfl⟩ rfl nofun
  | failed =>
    cases msg with
    | reset => exact handleReset_balanced h.toTracked ((hr rfl).resolve_left (by rw [hs]; nofun))
    | goodbye => exact handleGoodbye_balanced h.toTracked
    | _ => exact h
  | _ => exact hopen (by rw [hs]; nofun)

omit [JsonText] in
theorem onQuiet_balanced {s : Session} (h : s.Balanced) (now : ℕ) : (s.onQuiet now).2.Balanced := by
  unfold onQuiet
  split
  · exact h
  rename_i a ha
  split
  · refine ⟨h.toTracked.expire _,fun ho => ?_⟩
    have ho' : s.state.outside = true := by
      rw [← rollBackOwnTx_state s]
      exact ho
    rw [(h.outside ho').1] at ha
    cases ha
  split_ifs
  · exact ⟨h.rollBackOwnTx.1.congr ⟨rfl,rfl,rfl,rfl,.inl rfl⟩ (.inl rfl),nofun⟩
  · exact h

theorem step_balanced {s : Session} (h : s.Balanced) (e : Event)
    (hr : ∀ env, e = .message env .reset → s.state = .defunct ∨ s.preparedGid = none) : (s.step e).Balanced := by
  cases e with
  | message env msg =>
    have hd := dispatch_balanced h env msg (fun hm => hr env (hm ▸ rfl))
    exact hd.congr ⟨rfl,rfl,rfl,rfl,.inl rfl⟩ rfl id
  | quiet now => exact onQuiet_balanced h now
  | elsewhere service a =>
    simp only [step]
    by_cases ho : s.owns service a = true
    · rw [if_pos ho]
      exact h
    rw [if_neg ho]
    have hstep := Engine.step_txs (s.services service).engine a
    refine ⟨h.toTracked.world hstep.next hstep.old ?_,h.outside⟩
    intro active hactive hi
    have hne : a.tx ≠ some active.tx.id := by
      intro heq
      apply ho
      subst hi
      simp [owns,hactive,heq]
    rw [opened,hi]
    exact hstep.kept _ (hi ▸ h.fresh _ (h.mem_begun hactive)) hne
  | terminate service id =>
    have hengine : ((s.services service).terminate id).engine = (s.services service).engine := by
      unfold Service.terminate
      split_ifs <;> rfl
    refine ⟨h.toTracked.world (by rw [hengine]) (fun i _ hi => ?_) ?_,h.outside⟩
    · rwa [Service.registered,hengine] at hi
    · intro active _ hi
      rw [opened,hi,Service.registered,hengine]
      rfl

/-! ## The life of a transaction -/

/-- No `RESET` is handled while the session remembers a transaction as prepared. -/
def ResetsUnprepared (s : Session) (es : List Event) : Prop :=
  ∀ bs env, bs ++ [.message env .reset] <+: es → (s.run bs).state = .defunct ∨ (s.run bs).preparedGid = none

theorem run_balanced {s : Session} {es : List Event} (hs : s.Balanced) (h : s.ResetsUnprepared es) (bs : List Event)
    (hp : bs <+: es) : (s.run bs).Balanced := by
  induction bs using List.reverseRecOn with
  | nil => exact hs
  | append_singleton bs e ih =>
    rw [run_snoc]
    refine step_balanced (ih ((List.prefix_append bs [e]).trans hp)) e ?_
    rintro env rfl
    exact h bs env hp

/-- What holds of a session's transactions in one state. A `COMMIT` succeeds only if it commits
the transaction of the last `BEGIN` or that one was prepared; outside a transaction none is
open; a transaction ends at most once, and once the session is dropped exactly once; a `BEGIN`
opens one only when none is open. -/
structure Lifecycle (s : Session) : Prop where
  commits : ∀ env md, ServerMessage.success md ∈ (s.handle env .commit).1 → ∃ t, s.begun.getLast? = some t ∧
    ((∃ gid, (t,Fate.prepared gid) ∈ s.ended) ∨
      (¬ s.Ended t ∧ (t,Fate.committed) ∈ (s.handle env .commit).2.ended))
  outside : s.state = .ready ∨ s.state = .streaming → s.nativeTx = none ∧ ∀ t ∈ s.begun, s.opened t = false
  once : ∀ t, (s.ended.map Prod.fst).count t ≤ 1
  dropped : ∀ t ∈ s.begun, (s.drop.ended.map Prod.fst).count t = 1 ∧ s.drop.opened t = false
  begins : ∀ env extra, (s.handle env (.begin extra)).2.begun ≠ s.begun →
    s.nativeTx = none ∧ ∀ t ∈ s.begun, s.opened t = false

omit [JsonText] in
theorem Tracked.all_closed {s : Session} (h : s.Tracked) (hn : s.nativeTx = none) :
    ∀ t ∈ s.begun, s.Ended t ∧ s.opened t = false := by
  intro t ht
  rcases h.held t ht with he | ⟨hm,-⟩
  · exact ⟨he,h.closed t he⟩
  · rw [hn] at hm
    cases hm

omit [JsonText] in
theorem fail_success {s : Session} {code message : String} {md : Dict} :
    ServerMessage.success md ∉ (s.fail code message).1 := by
  simp [fail]

omit [JsonText] in
theorem checkTxDeadline_success {s s' : Session} {env : Env} {failure : List ServerMessage} {md : Dict}
    (hd : s.checkTxDeadline env = (some failure,s')) : ServerMessage.success md ∉ failure := by
  simp only [checkTxDeadline] at hd
  split at hd
  · cases hd
  · obtain ⟨hf,-⟩ := Prod.mk.inj hd
    obtain rfl := Option.some.inj hf
    exact fail_success

theorem handleCommit_success {s : Session} (h : s.Balanced) (env : Env) {md : Dict}
    (hok : ServerMessage.success md ∈ (s.handleCommit env).1) : ∃ t, s.begun.getLast? = some t ∧
      ((∃ gid, (t,Fate.prepared gid) ∈ s.ended) ∨ (¬ s.Ended t ∧ (t,Fate.committed) ∈ (s.handleCommit env).2.ended)) := by
  unfold handleCommit at hok ⊢
  by_cases hs : s.state ≠ .txReady
  · rw [if_pos hs] at hok
    exact absurd hok fail_success
  rw [if_neg hs] at hok ⊢
  by_cases hp : s.preparedGid.isSome = true
  · obtain ⟨gid,hgid⟩ := Option.isSome_iff_exists.mp hp
    obtain ⟨-,t,hlast,hended⟩ := h.prepared gid hgid
    exact ⟨t,hlast,.inl ⟨gid,hended⟩⟩
  rw [if_neg hp] at hok ⊢
  rcases hd : s.checkTxDeadline env with ⟨_ | failure,s'⟩
  · obtain rfl := (h.toTracked.checkTxDeadline hd).2 rfl
    rw [hd] at hok
    simp only at hok ⊢
    cases ha : s'.nativeTx with
    | none =>
      rw [ha] at hok
      exact absurd hok fail_success
    | some a =>
      rw [ha] at hok
      simp only at hok ⊢
      by_cases ht : (s'.services a.tx.service).txTerminated a.tx.id = true
      · rw [if_pos ht] at hok
        exact absurd hok fail_success
      rw [if_neg ht] at hok ⊢
      obtain ⟨hcloses,hopened⟩ := (s'.services a.tx.service).commitTx_closes a.tx.id env.before env.io
      refine ⟨a.tx,h.latest a ha,.inr ?_⟩
      split at hok
      · rename_i s₁ hcall
        have hres := congrArg Prod.fst hcall
        have hopen : s'.opened a.tx = true := hopened hres
        refine ⟨fun he => ?_,?_⟩
        · rw [h.closed _ he] at hopen
          cases hopen
        · have hended := call_ended (s := { s' with nativeTx := none })
            (fun d => d.commitTx a.tx.id env.before env.io) (fun r => if r.isOk then .committed else .rolledBack) a.tx
          rw [if_pos ⟨hopen,hcloses.closed⟩,hcall] at hended
          change (a.tx,Fate.committed) ∈ s₁.ended
          rw [hended]
          exact List.mem_append_right _ (List.mem_singleton.mpr rfl)
      · exact absurd hok fail_success
  · rw [hd] at hok
    exact absurd hok (checkTxDeadline_success hd)

theorem dispatch_commit_success {s : Session} {env : Env} {md : Dict}
    (hok : ServerMessage.success md ∈ (s.dispatch env .commit).1) : s.dispatch env .commit = s.handleCommit env := by
  unfold dispatch at hok ⊢
  cases hs : s.state with
  | defunct => simp [hs] at hok
  | authentication => simp [hs,dispatchAuthentication] at hok
  | failed => simp [hs,dispatchFailed] at hok
  | _ => rfl

theorem begin_ready {s : Session} {env : Env} {extra : Dict}
    (hne : (s.dispatch env (.begin extra)).2.begun ≠ s.begun) : s.state = .ready := by
  by_contra hr
  apply hne
  have hbegin : (s.handleBegin env extra).2.begun = s.begun := by
    unfold handleBegin
    split_ifs
    · rfl
    · rfl
  unfold dispatch
  cases hs : s.state with
  | defunct => rfl
  | authentication => rfl
  | failed => rfl
  | _ => exact hbegin

theorem Balanced.lifecycle {s : Session} (h : s.Balanced) : s.Lifecycle where
  commits env md hok := by
    change ServerMessage.success md ∈ (s.dispatch env .commit).1 at hok
    change ∃ t, s.begun.getLast? = some t ∧ ((∃ gid, (t,Fate.prepared gid) ∈ s.ended) ∨
      (¬ s.Ended t ∧ (t,Fate.committed) ∈ (s.dispatch env .commit).2.ended))
    have heq := dispatch_commit_success hok
    rw [heq] at hok ⊢
    exact handleCommit_success h env hok
  outside hs := by
    have hn := (h.outside (by rcases hs with hs | hs <;> (rw [hs]; rfl))).1
    exact ⟨hn,fun t ht => (h.toTracked.all_closed hn t ht).2⟩
  once t := List.nodup_iff_count_le_one.mp h.once t
  dropped t ht := by
    obtain ⟨hd,hn,-⟩ := h.toTracked.rollBackOwnTx
    have hb : t ∈ s.rollBackOwnTx.begun := by
      rw [rollBackOwnTx_begun]
      exact ht
    obtain ⟨he,ho⟩ := hd.all_closed hn t hb
    exact ⟨List.count_eq_one_of_mem hd.once he,ho⟩
  begins env extra hne := by
    have hn := (h.outside (by rw [begin_ready hne]; rfl)).1
    exact ⟨hn,fun t ht => (h.toTracked.all_closed hn t ht).2⟩

/-- In a run in which no `RESET` is handled while a transaction is remembered as prepared, the
session's transactions live as they should in every state. -/
theorem transactions_live (service : ℕ) (serverAgent connectionId : String) (authenticator requiresLogin : Bool)
    (resolver : DbResolver) (idleTimeout : Option ℕ) (idleSince : ℕ) (version : BoltVersion)
    (services : ℕ → Service) (es : List Event)
    (h : (build service serverAgent connectionId authenticator requiresLogin resolver idleTimeout idleSince
      version services).ResetsUnprepared es) (bs : List Event) (hp : bs <+: es) :
    ((build service serverAgent connectionId authenticator requiresLogin resolver idleTimeout idleSince
      version services).run bs).Lifecycle := by
  have hstart : (build service serverAgent connectionId authenticator requiresLogin resolver idleTimeout idleSince
      version services).Balanced := by
    refine ⟨⟨?_,?_,?_,?_,?_,?_,?_,?_,?_⟩,fun _ => ⟨rfl,rfl⟩⟩ <;> simp [build,Ended]
  exact (run_balanced hstart h bs hp).lifecycle

theorem ResetsUnprepared.nil (s : Session) : s.ResetsUnprepared [] := by
  intro bs env hp
  simp at hp

theorem ResetsUnprepared.cons {s : Session} {e : Event} {es : List Event}
    (he : ∀ env, e = .message env .reset → s.state = .defunct ∨ s.preparedGid = none)
    (h : (s.step e).ResetsUnprepared es) : s.ResetsUnprepared (e :: es) := by
  intro bs env hp
  cases bs with
  | nil =>
    obtain ⟨heq,-⟩ := List.cons_prefix_cons.mp hp
    exact he env heq.symm
  | cons b bs =>
    obtain ⟨rfl,hrest⟩ := List.cons_prefix_cons.mp hp
    exact h bs env hrest

theorem ResetsUnprepared.message {s : Session} {env : Env} {msg : ClientMessage} {es : List Event} (hm : msg ≠ .reset)
    (h : (s.step (.message env msg)).ResetsUnprepared es) : s.ResetsUnprepared (.message env msg :: es) := by
  refine .cons (fun env' heq => ?_) h
  exact absurd (Event.message.inj heq).2 hm

end Session

section Sample
attribute [local instance] Json.compactText

namespace Session

/-- Surroundings in which every query prepares the open transaction as `g`. -/
def prepareAll : Env := { denyAll with parse := fun _ => .ok ⟨[[.call ["drevo","tx","prepare"] [.string "g"]]]⟩ }

def sample : Session := build 0 "Neo4j/5.26.0" "bolt-1" false false .single none 0 ⟨4,4⟩ (fun _ => {})

/-- A transaction is begun, prepared and acknowledged, and the session is reset. -/
def preparedThenReset : List Event :=
  [.message prepareAll (.hello []),.message prepareAll (.begin []),
   .message prepareAll (.run "CALL drevo.tx.prepare('g')" [] []),.message prepareAll (.pull []),
   .message prepareAll .commit,.message prepareAll .reset]

theorem transactions_live_sample :
    (sample.run preparedThenReset).ended = [(⟨0,1⟩,.prepared "g")] ∧ (sample.run preparedThenReset).Lifecycle := by
  refine ⟨by decide +kernel,transactions_live 0 "Neo4j/5.26.0" "bolt-1" false false .single none 0 ⟨4,4⟩ (fun _ => {})
    preparedThenReset ?_ preparedThenReset List.prefix_rfl⟩
  refine .message nofun (.message nofun (.message nofun (.message nofun (.message nofun (.cons ?_ (.nil _))))))
  exact fun _ _ => .inr (by decide +kernel)

/-- A transaction is begun and prepared, the session is reset, and another transaction begun. -/
def resetWhilePrepared : List Event :=
  [.message prepareAll (.hello []),.message prepareAll (.begin []),
   .message prepareAll (.run "CALL drevo.tx.prepare('g')" [] []),.message prepareAll .reset,
   .message prepareAll (.begin [])]

/-- The `COMMIT` of the second transaction succeeds and commits nothing: the session is ready
with that transaction open, and the next `BEGIN` replaces it. -/
theorem reset_keeps_prepared :
    let s := sample.run resetWhilePrepared
    let s' := (s.handle prepareAll .commit).2
    (s.handle prepareAll .commit).1 = [.success []] ∧ s'.state = .ready ∧
      s'.nativeTx.map ActiveTx.tx = some ⟨0,2⟩ ∧ s'.opened ⟨0,2⟩ = true ∧ s'.ended = [(⟨0,1⟩,.prepared "g")] ∧
      (s'.handle prepareAll (.begin [])).2.nativeTx.map ActiveTx.tx = some ⟨0,3⟩ ∧ ¬ s.Lifecycle ∧ ¬ s'.Lifecycle := by
  intro s s'
  have hreply : (s.handle prepareAll .commit).1 = [.success []] := rfl
  have hlast : s.begun = [⟨0,1⟩,⟨0,2⟩] := by decide +kernel
  have hended : s.ended = [(⟨0,1⟩,.prepared "g")] := by decide +kernel
  have hended' : s'.ended = [(⟨0,1⟩,.prepared "g")] := by decide +kernel
  have hready : s'.state = .ready := by decide +kernel
  have hheld : s'.nativeTx.map ActiveTx.tx = some ⟨0,2⟩ := by decide +kernel
  refine ⟨hreply,hready,hheld,by decide +kernel,hended',by decide +kernel,fun h => ?_,fun h => ?_⟩
  · obtain ⟨t,ht,hfate⟩ := h.commits prepareAll [] (by rw [hreply]; simp)
    rw [hlast] at ht
    obtain rfl := Option.some.inj ht
    rcases hfate with ⟨gid,hgid⟩ | ⟨-,hc⟩
    · rw [hended] at hgid
      simp at hgid
    · change _ ∈ s'.ended at hc
      rw [hended'] at hc
      simp at hc
  · rw [(h.outside (.inl hready)).1] at hheld
    cases hheld

end Session
end Sample
end Drevo.Bolt
