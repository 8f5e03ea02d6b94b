import Drevo.Bolt.Session

/-! The authentication gate: which states a session reaches without a login. A `RESET` makes
a session ready whatever it was before, so the gate holds as long as none is handled before
the session was greeted. -/
namespace Drevo.Bolt

def State.active : State → Bool
  | .ready => true
  | .streaming => true
  | .txReady => true
  | .txStreaming => true
  | _ => false

/-- A handler that neither logs in nor resets keeps the state, fails, or moves among the active
states. -/
def State.Moves (a b : State) : Prop := b = a ∨ b = .failed ∨ (a.active = true ∧ b.active = true)

namespace Session

/-! ## The states a handler leaves -/

@[simp] theorem fail_state (s : Session) (code message : String) : (s.fail code message).2.state = .failed := rfl

@[simp] theorem execFail_state (s : Session) (e : ExecError) : (s.execFail e).2.state = .failed := rfl

@[simp] theorem rollbackTx_state (s : Session) (t : Tx) : (s.rollbackTx t).state = s.state := rfl

@[simp] theorem rollBackOwnTx_state (s : Session) : s.rollBackOwnTx.state = s.state := by
  unfold rollBackOwnTx
  split <;> rfl

theorem checkTxDeadline_state {s s' : Session} {env : Env} {failure : Option (List ServerMessage)}
    (h : s.checkTxDeadline env = (failure,s')) : s'.state = if failure.isSome then .failed else s.state := by
  simp only [checkTxDeadline] at h
  split at h
  · obtain ⟨rfl,rfl⟩ := Prod.mk.inj h
    split <;> simp
  · obtain ⟨rfl,rfl⟩ := Prod.mk.inj h
    simp

theorem handleBegin_moves (s : Session) (env : Env) (extra : Dict) :
    s.state.Moves (s.handleBegin env extra).2.state := by
  unfold handleBegin
  split_ifs with hc hr
  · exact .inr (.inl rfl)
  · exact .inr (.inl rfl)
  split
  · exact .inr (.inl rfl)
  split
  · exact .inr (.inl rfl)
  split
  · exact .inr (.inl rfl)
  · refine .inr (.inr ⟨?_,rfl⟩)
    rw [not_not.mp hr]
    rfl

theorem handleRollback_moves (s : Session) : s.state.Moves s.handleRollback.2.state := by
  unfold handleRollback
  split_ifs with hs hp ht
  · exact .inr (.inl rfl)
  all_goals rw [not_not.mp hs]
  · exact .inr (.inr ⟨rfl,rfl⟩)
  · exact .inr (.inr ⟨rfl,rfl⟩)
  split
  · exact .inr (.inl rfl)
  · exact .inr (.inr ⟨rfl,rfl⟩)

theorem takeRows_state (s : Session) (sends : Bool) (n : Int64) (rows : List (List Value)) (drained : State) :
    (s.takeRows sends n rows drained).2.state = s.state ∨ (s.takeRows sends n rows drained).2.state = drained := by
  simp only [takeRows]
  by_cases h : (drain n 0 rows).2.2 = true
  · rw [if_pos h]
    exact .inr rfl
  · rw [if_neg h]
    exact .inl rfl

theorem handleStream_moves (s : Session) (name : String) (sends : Bool) (extra : Dict) :
    s.state.Moves (s.handleStream name sends extra).2.state := by
  have hmoves : ∀ rows drained, s.state.active = true → drained.active = true →
      s.state.Moves (s.takeRows sends (extractN extra) rows drained).2.state := by
    intro rows drained hs hd
    rcases takeRows_state s sends (extractN extra) rows drained with h | h
    · exact .inl h
    · rw [h]
      exact .inr (.inr ⟨hs,hd⟩)
  unfold handleStream
  split
  · rename_i hs _
    exact hmoves _ _ (by rw [hs]; rfl) rfl
  · rename_i hs _
    exact hmoves _ _ (by rw [hs]; rfl) rfl
  · exact .inr (.inl rfl)

theorem handleTelemetry_moves (s : Session) : s.state.Moves s.handleTelemetry.2.state := by
  unfold handleTelemetry
  split_ifs
  · exact .inr (.inl rfl)
  · exact .inl rfl

variable [JsonText]

theorem handleCommit_moves (s : Session) (env : Env) : s.state.Moves (s.handleCommit env).2.state := by
  unfold handleCommit
  split_ifs with hs hp
  · exact .inr (.inl rfl)
  · rw [not_not.mp hs]
    exact .inr (.inr ⟨rfl,rfl⟩)
  split
  · rename_i hd
    exact .inr (.inl (checkTxDeadline_state hd))
  split
  · exact .inr (.inl rfl)
  simp only
  split_ifs
  · exact .inr (.inl rfl)
  split
  · rw [not_not.mp hs]
    exact .inr (.inr ⟨rfl,rfl⟩)
  · exact .inr (.inl rfl)

/-- A handler of a `RUN` in an active state fails or streams. -/
def Streams (r : List ServerMessage × Session) : Prop := r.2.state = .failed ∨ r.2.state.active = true

theorem handlePrepare_streams (s : Session) (env : Env) (gid : Expression) (params : Dict) (inTx : Bool) :
    Streams (s.handlePrepare env gid params inTx) := by
  simp only [handlePrepare]
  split
  · exact .inl rfl
  by_cases hm : (!env.mayPrepare) = true
  · rw [if_pos hm]
    exact .inl rfl
  rw [if_neg hm]
  split
  · rename_i hd
    exact .inl (checkTxDeadline_state hd)
  rename_i s' _
  cases s'.nativeTx with
  | none => exact .inl rfl
  | some a =>
  simp only
  by_cases ht : (s'.services a.tx.service).txTerminated a.tx.id = true
  · rw [if_pos ht]
    exact .inl rfl
  rw [if_neg ht]
  split
  · right
    cases inTx <;> rfl
  · exact .inl rfl

omit [JsonText] in
theorem handleSecurityCommand_streams (s : Session) (env : Env) (parsed : Except String SecurityCommand)
    (inTx : Bool) : Streams (s.handleSecurityCommand env parsed inTx) := by
  unfold handleSecurityCommand
  split_ifs
  · exact .inl rfl
  split
  · exact .inl rfl
  split
  · exact .inl rfl
  · exact .inr rfl
  · exact .inr rfl

theorem executeInTx_streams (s : Session) (env : Env) : Streams (s.executeInTx env) := by
  unfold executeInTx
  split
  · exact .inl rfl
  split
  · exact .inr rfl
  · exact .inl rfl

theorem executeAutocommit_streams (s : Session) (env : Env) (extra : Dict) :
    Streams (s.executeAutocommit env extra) := by
  unfold executeAutocommit
  split
  · exact .inl rfl
  simp only
  split
  · exact .inr rfl
  · exact .inl rfl

theorem runQuery_streams (s : Session) (env : Env) (query : String) (parameters extra : Dict) (inTx : Bool) :
    Streams (s.runQuery env query parameters extra inTx) := by
  unfold runQuery
  split
  · exact .inl rfl
  simp only
  split
  · exact handleSecurityCommand_streams _ env _ inTx
  split
  · exact .inl rfl
  split
  · exact handlePrepare_streams _ env _ _ _
  · exact executeInTx_streams _ env
  · exact executeAutocommit_streams _ env extra

theorem handleRun_moves (s : Session) (env : Env) (query : String) (parameters extra : Dict) :
    s.state.Moves (s.handleRun env query parameters extra).2.state := by
  simp only [handleRun]
  by_cases hs : s.state ≠ .ready ∧ s.state ≠ .txReady
  · rw [if_pos hs]
    exact .inr (.inl rfl)
  rw [if_neg hs]
  have hactive : s.state.active = true := by
    rcases not_and_or.mp hs with h | h
    · rw [not_not.mp h]
      rfl
    · rw [not_not.mp h]
      rfl
  have hmoves : ∀ r : List ServerMessage × Session, Streams r → s.state.Moves r.2.state := by
    intro r hr
    rcases hr with h | h
    · exact .inr (.inl h)
    · exact .inr (.inr ⟨hactive,h⟩)
  split_ifs
  · exact .inr (.inl rfl)
  · split
    · rename_i hd
      exact .inr (.inl (checkTxDeadline_state hd))
    · exact hmoves _ (runQuery_streams _ env query parameters extra _)
  · split
    · exact .inr (.inl rfl)
    · exact hmoves _ (runQuery_streams _ env query parameters extra _)

/-! ## Logins -/

omit [JsonText] in
/-- The message is a login that was accepted: in `HELLO` up to 5.0, in `LOGON` from 5.1. -/
def logsIn (s : Session) (env : Env) : ClientMessage → Bool
  | .hello extra => s.state = .connected && !s.logsInWithLogon && (s.logIn env extra).1.isOk
  | .logon auth => s.state = .authentication && (s.logIn env auth).1.isOk
  | _ => false

omit [JsonText] in
/-- The message is a `LOGOFF` that was accepted. -/
def logsOff (s : Session) : ClientMessage → Bool
  | .logoff => s.logsInWithLogon && s.state = .ready
  | _ => false

/-- The client is logged in after these events: some login was accepted, and no `LOGOFF`
after it. -/
def LoggedIn (s : Session) (es : List Event) : Prop :=
  ∃ bs env msg cs, es = bs ++ .message env msg :: cs ∧ (s.run bs).logsIn env msg = true ∧
    ∀ ds env' msg', ds ++ [.message env' msg'] <+: cs →
      (s.run (bs ++ .message env msg :: ds)).logsOff msg' = false

/-- A `HELLO` was handled in the state `Connected`. -/
def Greeted (s : Session) (es : List Event) : Prop :=
  ∃ bs env extra cs, es = bs ++ .message env (.hello extra) :: cs ∧ (s.run bs).state = .connected

/-- Nothing is run for a client that is not logged in: no active state is reached, no query is
taken up and no transaction opened. -/
structure Gated (s : Session) (es : List Event) : Prop where
  states : ∀ bs, bs <+: es → (s.run bs).state.active = true → s.LoggedIn bs
  runs : ∀ bs e, bs ++ [e] <+: es → (s.run (bs ++ [e])).executed ≠ (s.run bs).executed → s.LoggedIn bs
  begins : ∀ bs e, bs ++ [e] <+: es → (s.run (bs ++ [e])).begun ≠ (s.run bs).begun → s.LoggedIn bs

/-- Every `RESET` that is handled comes after a `HELLO` handled in `Connected`. -/
def ResetsGreeted (s : Session) (es : List Event) : Prop :=
  ∀ bs env, bs ++ [.message env .reset] <+: es → (s.run bs).state = .defunct ∨ s.Greeted bs

theorem LoggedIn.now {s : Session} {es : List Event} {env : Env} {msg : ClientMessage}
    (h : (s.run es).logsIn env msg = true) : s.LoggedIn (es ++ [.message env msg]) := by
  refine ⟨es,env,msg,[],rfl,h,?_⟩
  intro ds env' msg' hp
  simp at hp

theorem LoggedIn.snoc {s : Session} {es : List Event} {e : Event} (h : s.LoggedIn es)
    (hoff : ∀ env msg, e = .message env msg → (s.run es).logsOff msg = false) : s.LoggedIn (es ++ [e]) := by
  obtain ⟨bs,env,msg,cs,rfl,hin,hkeep⟩ := h
  refine ⟨bs,env,msg,cs ++ [e],by simp,hin,?_⟩
  intro ds env' msg' hp
  rcases List.prefix_concat_iff.mp hp with heq | hp
  · obtain ⟨rfl,he⟩ := List.append_inj' heq rfl
    exact hoff env' msg' (List.singleton_inj.mp he).symm
  · exact hkeep ds env' msg' hp

theorem Greeted.snoc {s : Session} {es : List Event} (e : Event) (h : s.Greeted es) : s.Greeted (es ++ [e]) := by
  obtain ⟨bs,env,extra,cs,rfl,hs⟩ := h
  exact ⟨bs,env,extra,cs ++ [e],by simp,hs⟩

theorem Greeted.of_snoc {s : Session} {es : List Event} {e : Event} (h : s.Greeted (es ++ [e])) :
    s.Greeted es ∨ ∃ env extra, e = .message env (.hello extra) ∧ (s.run es).state = .connected := by
  obtain ⟨bs,env,extra,cs,heq,hs⟩ := h
  rcases List.eq_nil_or_concat cs with rfl | ⟨cs,c,rfl⟩
  · obtain ⟨rfl,he⟩ := List.append_inj' heq rfl
    exact .inr ⟨env,extra,List.singleton_inj.mp he,hs⟩
  · refine .inl ⟨bs,env,extra,cs,?_,hs⟩
    have : es ++ [e] = (bs ++ .message env (.hello extra) :: cs) ++ [c] := by simpa using heq
    exact (List.append_inj' this rfl).1

/-! ## One message -/

omit [JsonText] in
theorem logIn_state {s s' : Session} {env : Env} {auth : Dict} {r : Except (List ServerMessage) Unit}
    (h : s.logIn env auth = (r,s')) : s'.state = if r.isOk then s.state else .defunct := by
  simp only [logIn] at h
  split_ifs at h
  · split at h <;> (obtain ⟨rfl,rfl⟩ := Prod.mk.inj h; rfl)
  · split at h <;> (obtain ⟨rfl,rfl⟩ := Prod.mk.inj h; rfl)
  · obtain ⟨rfl,rfl⟩ := Prod.mk.inj h
    rfl

/-- Where a message can lead. -/
structure Leads (s : Session) (env : Env) (msg : ClientMessage) (b : State) : Prop where
  active : b.active = true → (s.state.active = true ∧ s.logsOff msg = false) ∨ s.logsIn env msg = true ∨
    (msg = .reset ∧ (s.state = .failed ∨ s.state = .connected))
  failed : b = .failed → s.state = .failed ∨ (s.state = .connected ∧ ∀ extra, msg ≠ .hello extra) ∨
    (s.state.active = true ∧ s.logsOff msg = false)
  connected : b = .connected → s.state = .connected ∧ ∀ extra, msg ≠ .hello extra
  authentication : b = .authentication →
    (s.state = .connected ∧ ∃ extra, msg = .hello extra) ∨ s.logsOff msg = true

omit [JsonText] in
theorem Leads.of_moves {s : Session} {env : Env} {msg : ClientMessage} {b : State}
    (hs : s.state = .connected ∨ s.state.active = true) (hm : s.state.Moves b)
    (hello : ∀ extra, msg ≠ .hello extra) (hoff : s.logsOff msg = false) : Leads s env msg b := by
  refine ⟨fun hb => ?_,fun hb => ?_,fun hb => ?_,fun hb => ?_⟩
  · rcases hm with rfl | rfl | ⟨ha,-⟩
    · exact .inl ⟨hb,hoff⟩
    · cases hb
    · exact .inl ⟨ha,hoff⟩
  · rcases hs with hs | hs
    · exact .inr (.inl ⟨hs,hello⟩)
    · exact .inr (.inr ⟨hs,hoff⟩)
  · subst hb
    rcases hm with h | h | ⟨-,h⟩
    · exact ⟨h.symm,hello⟩
    · cases h
    · cases h
  · subst hb
    rcases hm with h | h | ⟨-,h⟩
    · rw [← h] at hs
      rcases hs with hs | hs <;> cases hs
    · cases h
    · cases h

omit [JsonText] in
theorem Leads.of_defunct {s : Session} {env : Env} {msg : ClientMessage} : Leads s env msg .defunct :=
  ⟨nofun,nofun,nofun,nofun⟩

omit [JsonText] in
theorem Leads.of_login {s : Session} {env : Env} {msg : ClientMessage} (h : s.logsIn env msg = true) :
    Leads s env msg .ready := ⟨fun _ => .inr (.inl h),nofun,nofun,nofun⟩

omit [JsonText] in
theorem Leads.of_reset {s : Session} {env : Env} (hs : s.state = .failed ∨ s.state = .connected ∨ s.state.active = true) :
    Leads s env .reset .ready := by
  refine ⟨fun _ => ?_,nofun,nofun,nofun⟩
  rcases hs with hs | hs | hs
  · exact .inr (.inr ⟨rfl,.inl hs⟩)
  · exact .inr (.inr ⟨rfl,.inr hs⟩)
  · exact .inl ⟨hs,rfl⟩

omit [JsonText] in
theorem handleLogon_leads {s : Session} (env : Env) (auth : Dict) (hs : s.state = .authentication) :
    Leads s env (.logon auth) (s.handleLogon env auth).2.state := by
  unfold handleLogon
  rcases hl : s.logIn env auth with ⟨r,s'⟩
  have hst := logIn_state hl
  cases r with
  | error failure => exact (show s'.state = .defunct from hst) ▸ .of_defunct
  | ok u =>
    apply Leads.of_login
    simp [logsIn,hs,hl,Except.isOk,Except.toBool]

omit [JsonText] in
theorem handleHello_leads {s : Session} (env : Env) (extra : Dict) (hs : s.state = .connected ∨ s.state.active = true) :
    Leads s env (.hello extra) (s.handleHello env extra).2.state := by
  simp only [handleHello]
  by_cases hc : s.state ≠ .connected
  · rw [if_pos hc]
    have ha := hs.resolve_left hc
    exact ⟨nofun,fun _ => .inr (.inr ⟨ha,rfl⟩),nofun,nofun⟩
  rw [if_neg hc]
  by_cases hv : s.logsInWithLogon = true
  · rw [if_pos hv]
    exact ⟨nofun,nofun,nofun,fun _ => .inl ⟨not_not.mp hc,extra,rfl⟩⟩
  rw [if_neg hv]
  rcases hl : s.logIn env extra with ⟨r,s'⟩
  have hst := logIn_state hl
  cases r with
  | error failure => exact (show s'.state = .defunct from hst) ▸ .of_defunct
  | ok u =>
    apply Leads.of_login
    simp [logsIn,not_not.mp hc,hv,hl,Except.isOk,Except.toBool]

omit [JsonText] in
theorem handleLogoff_leads {s : Session} (env : Env) (hs : s.state = .connected ∨ s.state.active = true) :
    Leads s env .logoff s.handleLogoff.2.state := by
  unfold handleLogoff
  split_ifs with hv hr
  · refine .of_moves hs (.inr (.inl rfl)) nofun ?_
    simp only [Bool.not_eq_eq_eq_not,Bool.not_true] at hv
    simp [logsOff,hv]
  · exact .of_moves hs (.inr (.inl rfl)) nofun (by simp [logsOff,hr])
  · refine ⟨nofun,nofun,nofun,fun _ => .inr ?_⟩
    simp only [Bool.not_eq_eq_eq_not,Bool.not_true,Bool.not_eq_false] at hv
    simp [logsOff,hv,not_not.mp hr]

theorem dispatch_open {s : Session} (env : Env) (msg : ClientMessage)
    (hs : s.state = .connected ∨ s.state.active = true) : s.dispatch env msg = s.dispatchOpen env msg := by
  unfold dispatch
  cases hst : s.state with
  | authentication => simp [hst,State.active] at hs
  | failed => simp [hst,State.active] at hs
  | defunct => simp [hst,State.active] at hs
  | _ => rfl

theorem dispatchOpen_leads {s : Session} (env : Env) (msg : ClientMessage)
    (hs : s.state = .connected ∨ s.state.active = true) : Leads s env msg (s.dispatchOpen env msg).2.state := by
  cases msg with
  | hello extra => exact handleHello_leads env extra hs
  | goodbye => exact .of_defunct
  | reset => exact .of_reset (.inr hs)
  | run query parameters extra => exact .of_moves hs (handleRun_moves s env query parameters extra) nofun rfl
  | begin extra => exact .of_moves hs (handleBegin_moves s env extra) nofun rfl
  | commit => exact .of_moves hs (handleCommit_moves s env) nofun rfl
  | rollback => exact .of_moves hs (handleRollback_moves s) nofun rfl
  | discard extra => exact .of_moves hs (handleStream_moves s _ _ extra) nofun rfl
  | pull extra => exact .of_moves hs (handleStream_moves s _ _ extra) nofun rfl
  | logon auth => exact .of_moves hs (.inr (.inl rfl)) nofun rfl
  | logoff => exact handleLogoff_leads env hs
  | telemetry api => exact .of_moves hs (handleTelemetry_moves s) nofun rfl

theorem dispatch_leads (s : Session) (env : Env) (msg : ClientMessage) :
    Leads s env msg (s.dispatch env msg).2.state := by
  by_cases hopen : s.state = .connected ∨ s.state.active = true
  · rw [dispatch_open env msg hopen]
    exact dispatchOpen_leads env msg hopen
  cases hs : s.state with
  | connected => exact absurd (.inl hs) hopen
  | ready => exact absurd (.inr (by rw [hs]; rfl)) hopen
  | streaming => exact absurd (.inr (by rw [hs]; rfl)) hopen
  | txReady => exact absurd (.inr (by rw [hs]; rfl)) hopen
  | txStreaming => exact absurd (.inr (by rw [hs]; rfl)) hopen
  | defunct =>
    simp only [dispatch,hs]
    exact .of_defunct
  | authentication =>
    simp only [dispatch,hs]
    cases msg with
    | logon auth => exact handleLogon_leads env auth hs
    | _ => exact .of_defunct
  | failed =>
    have hstay : Leads s env msg s.state := hs ▸ ⟨nofun,fun _ => .inl hs,nofun,nofun⟩
    simp only [dispatch,hs]
    cases msg with
    | reset => exact .of_reset (.inl hs)
    | goodbye => exact .of_defunct
    | _ => exact hstay

/-! ## What an inactive session does -/

omit [JsonText] in
@[simp] theorem rollBackOwnTx_begun (s : Session) : s.rollBackOwnTx.begun = s.begun := by
  unfold rollBackOwnTx
  split <;> rfl

omit [JsonText] in
@[simp] theorem rollBackOwnTx_executed (s : Session) : s.rollBackOwnTx.executed = s.executed := by
  unfold rollBackOwnTx
  split <;> rfl

/-- The session neither opened a transaction nor took up a query. -/
structure Idle (s s' : Session) : Prop where
  begun : s'.begun = s.begun
  executed : s'.executed = s.executed

omit [JsonText] in
theorem logIn_idle {s s' : Session} {env : Env} {auth : Dict} {r : Except (List ServerMessage) Unit}
    (h : s.logIn env auth = (r,s')) : Idle s s' := by
  simp only [logIn] at h
  split_ifs at h
  · split at h <;> (obtain ⟨rfl,rfl⟩ := Prod.mk.inj h; exact ⟨rfl,rfl⟩)
  · split at h <;> (obtain ⟨rfl,rfl⟩ := Prod.mk.inj h; exact ⟨rfl,rfl⟩)
  · obtain ⟨rfl,rfl⟩ := Prod.mk.inj h
    exact ⟨rfl,rfl⟩

omit [JsonText] in
theorem handleHello_idle (s : Session) (env : Env) (extra : Dict) : Idle s (s.handleHello env extra).2 := by
  simp only [handleHello]
  split_ifs
  · exact ⟨rfl,rfl⟩
  · exact ⟨rfl,rfl⟩
  split
  · rename_i h
    exact logIn_idle h
  · rename_i h
    exact ⟨(logIn_idle h).begun,(logIn_idle h).executed⟩

omit [JsonText] in
theorem handleLogon_idle (s : Session) (env : Env) (auth : Dict) : Idle s (s.handleLogon env auth).2 := by
  unfold handleLogon
  split
  · rename_i h
    exact logIn_idle h
  · rename_i h
    exact ⟨(logIn_idle h).begun,(logIn_idle h).executed⟩

omit [JsonText] in
theorem handleGoodbye_idle (s : Session) : Idle s s.handleGoodbye.2 :=
  ⟨rollBackOwnTx_begun s,rollBackOwnTx_executed s⟩

omit [JsonText] in
theorem handleReset_idle (s : Session) : Idle s s.handleReset.2 :=
  ⟨rollBackOwnTx_begun { s with pending := none },rollBackOwnTx_executed { s with pending := none }⟩

theorem dispatchOpen_idle {s : Session} (env : Env) (msg : ClientMessage) (hs : s.state = .connected) :
    Idle s (s.dispatchOpen env msg).2 := by
  have hfail : ∀ code message, Idle s (s.fail code message).2 := fun _ _ => ⟨rfl,rfl⟩
  cases msg with
  | hello extra => exact handleHello_idle s env extra
  | goodbye => exact handleGoodbye_idle s
  | reset => exact handleReset_idle s
  | run query parameters extra =>
    simp only [dispatchOpen,handleRun,hs]
    exact hfail _ _
  | begin extra =>
    simp only [dispatchOpen,handleBegin,hs]
    split_ifs with hp hr
    · exact hfail _ _
    · exact hfail _ _
    · exact absurd nofun hr
  | commit =>
    simp only [dispatchOpen,handleCommit,hs]
    exact hfail _ _
  | rollback =>
    simp only [dispatchOpen,handleRollback,hs]
    exact hfail _ _
  | discard extra =>
    simp only [dispatchOpen,handleDiscard,handleStream,hs]
    exact ⟨rfl,rfl⟩
  | pull extra =>
    simp only [dispatchOpen,handlePull,handleStream,hs]
    exact ⟨rfl,rfl⟩
  | logon auth => exact hfail _ _
  | logoff =>
    simp only [dispatchOpen,handleLogoff,hs]
    split_ifs
    · exact hfail _ _
    · exact hfail _ _
    · exact ⟨rfl,rfl⟩
  | telemetry api =>
    simp only [dispatchOpen,handleTelemetry]
    split_ifs
    · exact hfail _ _
    · exact ⟨rfl,rfl⟩

theorem dispatch_idle {s : Session} (env : Env) (msg : ClientMessage) (hs : s.state.active = false) :
    Idle s (s.dispatch env msg).2 := by
  cases hst : s.state with
  | connected =>
    rw [dispatch_open env msg (.inl hst)]
    exact dispatchOpen_idle env msg hst
  | authentication =>
    simp only [dispatch,hst]
    cases msg with
    | logon auth => exact handleLogon_idle s env auth
    | goodbye => exact handleGoodbye_idle s
    | _ => exact ⟨rfl,rfl⟩
  | failed =>
    simp only [dispatch,hst]
    cases msg with
    | reset => exact handleReset_idle s
    | goodbye => exact handleGoodbye_idle s
    | _ => exact ⟨rfl,rfl⟩
  | defunct =>
    simp only [dispatch,hst]
    exact ⟨rfl,rfl⟩
  | _ => simp [hst,State.active] at hs

/-! ## Runs -/

theorem step_message (s : Session) (env : Env) (msg : ClientMessage) :
    (s.step (.message env msg)).state = (s.dispatch env msg).2.state := rfl

omit [JsonText] in
theorem onQuiet_state (s : Session) (now : ℕ) :
    ((s.onQuiet now).2.state = s.state ∨ (s.onQuiet now).2.state = .defunct) ∧ Idle s (s.onQuiet now).2 := by
  unfold onQuiet
  split
  · exact ⟨.inl rfl,rfl,rfl⟩
  split
  · exact ⟨.inl (rollBackOwnTx_state s),rollBackOwnTx_begun s,rollBackOwnTx_executed s⟩
  split_ifs
  · exact ⟨.inr rfl,rollBackOwnTx_begun s,rollBackOwnTx_executed s⟩
  · exact ⟨.inl rfl,rfl,rfl⟩

theorem step_cases (s : Session) (e : Event) :
    (∃ env msg, e = .message env msg) ∨
    (((s.step e).state = s.state ∨ (s.step e).state = .defunct) ∧ Idle s (s.step e) ∧
      ∀ env msg, e ≠ .message env msg) := by
  cases e with
  | message env msg => exact .inl ⟨env,msg,rfl⟩
  | quiet now =>
    obtain ⟨hs,hi⟩ := onQuiet_state s now
    exact .inr ⟨hs,hi,by simp⟩
  | elsewhere service a =>
    right
    simp only [step]
    by_cases ho : s.owns service a = true
    · rw [if_pos ho]
      exact ⟨.inl rfl,⟨rfl,rfl⟩,by simp⟩
    · rw [if_neg ho]
      exact ⟨.inl rfl,⟨rfl,rfl⟩,by simp⟩
  | terminate service id => exact .inr ⟨.inl rfl,⟨rfl,rfl⟩,by simp⟩

theorem LoggedIn.of_snoc {s : Session} {es : List Event} {e : Event} (h : s.LoggedIn (es ++ [e])) :
    s.LoggedIn es ∨ ∃ env msg, e = .message env msg ∧ (s.run es).logsIn env msg = true := by
  obtain ⟨bs,env,msg,cs,heq,hin,hkeep⟩ := h
  rcases List.eq_nil_or_concat cs with rfl | ⟨cs,c,rfl⟩
  · obtain ⟨rfl,he⟩ := List.append_inj' heq rfl
    exact .inr ⟨env,msg,List.singleton_inj.mp he,hin⟩
  · left
    have heq' : es ++ [e] = (bs ++ .message env msg :: cs) ++ [c] := by simpa using heq
    refine ⟨bs,env,msg,cs,(List.append_inj' heq' rfl).1,hin,?_⟩
    intro ds env' msg' hp
    refine hkeep ds env' msg' (hp.trans ?_)
    rw [List.concat_eq_append]
    exact List.prefix_append cs [c]

/-- What the gate rests on: after a greeting a failed session had been logged in. -/
structure Guarded (s : Session) (es : List Event) : Prop where
  active : (s.run es).state.active = true → s.LoggedIn es
  failed : (s.run es).state = .failed → s.LoggedIn es ∨ ¬ s.Greeted es
  connected : (s.run es).state = .connected → ¬ s.Greeted es

theorem Guarded.nil {s : Session} (hs : s.state = .connected) : s.Guarded [] := by
  have hg : ¬ s.Greeted [] := by
    rintro ⟨bs,env,extra,cs,h,-⟩
    simp at h
  exact ⟨fun h => by simp [hs,State.active] at h,fun _ => .inr hg,fun _ => hg⟩

theorem Guarded.message {s : Session} {es : List Event} {env : Env} {msg : ClientMessage} (h : s.Guarded es)
    (hreset : msg = .reset → (s.run es).state = .defunct ∨ s.Greeted es) :
    s.Guarded (es ++ [.message env msg]) := by
  have hleads := dispatch_leads (s.run es) env msg
  have hstate : (s.run (es ++ [.message env msg])).state = ((s.run es).dispatch env msg).2.state := by
    rw [run_snoc]
    rfl
  have hkeep : s.LoggedIn es → (s.run es).logsOff msg = false → s.LoggedIn (es ++ [.message env msg]) := by
    intro hl hoff
    refine hl.snoc ?_
    rintro env' msg' heq
    obtain ⟨-,rfl⟩ := Event.message.inj heq
    exact hoff
  have hfresh : ¬ s.Greeted es → ((s.run es).state = .connected → ∀ extra, msg ≠ .hello extra) →
      ¬ s.Greeted (es ++ [.message env msg]) := by
    intro hg hhello hg'
    rcases hg'.of_snoc with hg' | ⟨env',extra,heq,hs⟩
    · exact hg hg'
    · obtain ⟨-,rfl⟩ := Event.message.inj heq
      exact hhello hs extra rfl
  rw [← hstate] at hleads
  refine ⟨fun hb => ?_,fun hb => ?_,fun hb => ?_⟩
  · rcases hleads.active hb with ⟨ha,hoff⟩ | hin | ⟨rfl,hs⟩
    · exact hkeep (h.active ha) hoff
    · exact .now hin
    · -- the session was greeted, so it is not connected any more and a failure came after a login
      refine hkeep ?_ rfl
      rcases hs with hs | hs
      · have hg := (hreset rfl).resolve_left (by rw [hs]; nofun)
        exact (h.failed hs).resolve_right (fun hn => hn hg)
      · have hg := (hreset rfl).resolve_left (by rw [hs]; nofun)
        exact absurd hg (h.connected hs)
  · rcases hleads.failed hb with hs | ⟨hs,hello⟩ | ⟨ha,hoff⟩
    · rcases h.failed hs with hl | hg
      · refine .inl (hkeep hl ?_)
        cases msg <;> simp [logsOff,hs]
      · exact .inr (hfresh hg (fun hc => by rw [hs] at hc; cases hc))
    · exact .inr (hfresh (h.connected hs) (fun _ => hello))
    · exact .inl (hkeep (h.active ha) hoff)
  · obtain ⟨hs,hello⟩ := hleads.connected hb
    exact hfresh (h.connected hs) (fun _ => hello)

theorem Guarded.other {s : Session} {es : List Event} {e : Event} (h : s.Guarded es)
    (hs : (s.run (es ++ [e])).state = (s.run es).state ∨ (s.run (es ++ [e])).state = .defunct)
    (he : ∀ env msg, e ≠ .message env msg) : s.Guarded (es ++ [e]) := by
  have hl : s.LoggedIn es → s.LoggedIn (es ++ [e]) := fun hl => hl.snoc (fun env msg heq => absurd heq (he env msg))
  have hg : ¬ s.Greeted es → ¬ s.Greeted (es ++ [e]) := by
    intro hg hg'
    rcases hg'.of_snoc with hg' | ⟨env,extra,heq,-⟩
    · exact hg hg'
    · exact he _ _ heq
  rcases hs with hs | hs
  · exact ⟨fun hb => hl (h.active (hs ▸ hb)),fun hb => (h.failed (hs ▸ hb)).imp hl hg,fun hb => hg (h.connected (hs ▸ hb))⟩
  · constructor
    · intro hb
      rw [hs] at hb
      cases hb
    · intro hb
      rw [hs] at hb
      cases hb
    · intro hb
      rw [hs] at hb
      cases hb

theorem guarded_of_resetsGreeted {s : Session} {es : List Event} (hs : s.state = .connected) (h : s.ResetsGreeted es)
    (bs : List Event) (hp : bs <+: es) : s.Guarded bs := by
  induction bs using List.reverseRecOn with
  | nil => exact .nil hs
  | append_singleton bs e ih =>
    have hg := ih ((List.prefix_append bs [e]).trans hp)
    rcases step_cases (s.run bs) e with ⟨env,msg,rfl⟩ | ⟨hstate,-,he⟩
    · exact hg.message (fun hr => h bs env (hr ▸ hp))
    · rw [← run_snoc] at hstate
      exact hg.other hstate he

/-- A session that was not greeted is connected, failed or closed, as long as the gate held. -/
theorem ungreeted_of_gated {s : Session} {es : List Event} (hs : s.state = .connected) (h : s.Gated es)
    (bs : List Event) (hp : bs <+: es) (hg : ¬ s.Greeted bs) :
    ((s.run bs).state = .connected ∨ (s.run bs).state = .failed ∨ (s.run bs).state = .defunct) ∧ ¬ s.LoggedIn bs := by
  induction bs using List.reverseRecOn with
  | nil =>
    refine ⟨.inl hs,?_⟩
    rintro ⟨cs,env,msg,ds,heq,-⟩
    simp at heq
  | append_singleton bs e ih =>
    obtain ⟨hstate,hnl⟩ := ih ((List.prefix_append bs [e]).trans hp) (fun h' => hg (h'.snoc e))
    have hlogin : ∀ env msg, e = .message env msg → (s.run bs).logsIn env msg = false := by
      rintro env msg rfl
      by_contra hin
      rw [Bool.not_eq_false] at hin
      cases msg with
      | hello extra =>
        simp only [logsIn,Bool.and_eq_true,decide_eq_true_eq] at hin
        exact hg ⟨bs,env,extra,[],rfl,hin.1.1⟩
      | logon auth =>
        simp only [logsIn,Bool.and_eq_true,decide_eq_true_eq] at hin
        rw [hin.1] at hstate
        rcases hstate with h' | h' | h' <;> cases h'
      | _ => cases hin
    have hnl' : ¬ s.LoggedIn (bs ++ [e]) := by
      intro hl
      rcases hl.of_snoc with hl | ⟨env,msg,heq,hin⟩
      · exact hnl hl
      · rw [hlogin env msg heq] at hin
        cases hin
    refine ⟨?_,hnl'⟩
    have hinactive : (s.run (bs ++ [e])).state.active = false := by
      by_contra ha
      exact hnl' (h.states _ hp (by rwa [Bool.not_eq_false] at ha))
    rcases step_cases (s.run bs) e with ⟨env,msg,rfl⟩ | ⟨hsame,-,-⟩
    · have hleads := dispatch_leads (s.run bs) env msg
      rw [← step_message,← run_snoc] at hleads
      cases hb : (s.run (bs ++ [.message env msg])).state with
      | connected => exact .inl rfl
      | failed => exact .inr (.inl rfl)
      | defunct => exact .inr (.inr rfl)
      | authentication =>
        rcases hleads.authentication hb with ⟨hc,extra,rfl⟩ | hoff
        · exact absurd ⟨bs,env,extra,[],rfl,hc⟩ hg
        · cases msg with
          | logoff =>
            simp only [logsOff,Bool.and_eq_true,decide_eq_true_eq] at hoff
            rw [hoff.2] at hstate
            rcases hstate with h' | h' | h' <;> cases h'
          | _ => cases hoff
      | _ => simp [hb,State.active] at hinactive
    · rw [← run_snoc] at hsame
      rcases hsame with hsame | hsame
      · rw [hsame]
        exact hstate
      · exact .inr (.inr hsame)

/-- Nothing is run for a client that is not logged in, exactly when no `RESET` is handled before
the session was greeted. -/
theorem gated_iff_resetsGreeted (service : ℕ) (serverAgent connectionId : String) (authenticator requiresLogin : Bool)
    (resolver : DbResolver) (idleTimeout : Option ℕ) (idleSince : ℕ) (version : BoltVersion)
    (services : ℕ → Service) (es : List Event) :
    let s := build service serverAgent connectionId authenticator requiresLogin resolver idleTimeout idleSince
      version services
    s.Gated es ↔ s.ResetsGreeted es := by
  intro s
  have hs : s.state = .connected := rfl
  constructor
  · intro h bs env hp
    by_contra hno
    obtain ⟨hlive,hg⟩ := not_or.mp hno
    obtain ⟨hstate,hnl⟩ := ungreeted_of_gated hs h bs ((List.prefix_append bs _).trans hp) hg
    have hready : (s.run (bs ++ [.message env .reset])).state = .ready := by
      rw [run_snoc,step_message]
      rcases hstate with hst | hst | hst
      · rw [dispatch_open env .reset (.inl hst)]
        rfl
      · simp only [dispatch,hst]
        rfl
      · exact absurd hst hlive
    rcases (h.states _ hp (by rw [hready]; rfl)).of_snoc with hl | ⟨env',msg,heq,hin⟩
    · exact hnl hl
    · obtain ⟨-,rfl⟩ := Event.message.inj heq
      cases hin
  · intro h
    have hquiet : ∀ bs e, bs ++ [e] <+: es → ¬ s.LoggedIn bs → Idle (s.run bs) (s.run (bs ++ [e])) := by
      intro bs e hp hnl
      have hg := guarded_of_resetsGreeted hs h bs ((List.prefix_append bs _).trans hp)
      have hinactive : (s.run bs).state.active = false := by
        by_contra ha
        exact hnl (hg.active (by rwa [Bool.not_eq_false] at ha))
      rw [run_snoc]
      rcases step_cases (s.run bs) e with ⟨env,msg,rfl⟩ | ⟨-,hidle,-⟩
      · have hidle := dispatch_idle env msg hinactive
        exact ⟨hidle.begun,hidle.executed⟩
      · exact hidle
    refine ⟨fun bs hp => (guarded_of_resetsGreeted hs h bs hp).active,fun bs e hp hne => ?_,fun bs e hp hne => ?_⟩
    · by_contra hnl
      exact hne (hquiet bs e hp hnl).executed
    · by_contra hnl
      exact hne (hquiet bs e hp hnl).begun

end Session

section Sample
attribute [local instance] Json.compactText

namespace Session

/-- Surroundings in which no credentials are good and every query is empty. -/
def denyAll : Env where
  now := 0
  later := 0
  wallClock := 0
  debug _ := ""
  quote s := s
  authenticate _ := .denied "invalid credentials"
  login _ _ _ := .error ⟨Codes.unauthorized,"login refused"⟩
  database _ := none
  mayPrepare := true
  params d := .ok d
  securityParse _ := none
  securityResult := .ok ⟨[],[]⟩
  parse _ := .ok ⟨[]⟩
  statement := ([],.ok ⟨[],[]⟩)
  autocommit := ([],.ok ⟨[],[]⟩)
  before := ([],none)
  io := true
  ioError := ""

/-- A client that never logs in sends `RESET` and then `BEGIN` to a server that accepts no
credentials: the session is ready after the first and in a transaction after the second. -/
theorem reset_bypasses_login :
    let s := build 0 "Neo4j/5.26.0" "bolt-1" true false .single none 0 ⟨5,4⟩ (fun _ => {})
    let es : List Event := [.message denyAll .reset,.message denyAll (.begin [])]
    ¬ s.LoggedIn es ∧ (s.run es).state = .txReady ∧ (s.run es).begun = [⟨0,1⟩] ∧ ¬ s.Gated es := by
  intro s es
  have hnot : ∀ bs, bs <+: es → ¬ s.LoggedIn bs := by
    rintro bs hp ⟨cs,env,msg,ds,rfl,hin,-⟩
    have hmem : Event.message env msg ∈ es := hp.subset (by simp)
    rcases List.mem_cons.mp hmem with h | h
    · obtain ⟨-,rfl⟩ := Event.message.inj h
      cases hin
    · obtain ⟨-,rfl⟩ := Event.message.inj (List.mem_singleton.mp h)
      cases hin
  have hstate : (s.run es).state = .txReady := rfl
  have hbegun : (s.run es).begun = [⟨0,1⟩] := rfl
  refine ⟨hnot es List.prefix_rfl,hstate,hbegun,fun hg => ?_⟩
  exact hnot es List.prefix_rfl (hg.states es List.prefix_rfl (by rw [hstate]; rfl))

end Session
end Sample
end Drevo.Bolt
