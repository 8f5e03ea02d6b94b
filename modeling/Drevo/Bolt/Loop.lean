import Drevo.Bolt.Chunked
import Drevo.Bolt.Auth

/-! The loop that serves a connection: a message is read, decoded and handled, and its answers are
written. After a failure the client is owed `IGNORED` until it resets. -/
namespace Drevo.Bolt
open Lib

/-! ## Decoding a request -/

def tagHello : UInt8 := 0x01
def tagGoodbye : UInt8 := 0x02
def tagReset : UInt8 := 0x0F
def tagRun : UInt8 := 0x10
def tagBegin : UInt8 := 0x11
def tagCommit : UInt8 := 0x12
def tagRollback : UInt8 := 0x13
def tagDiscard : UInt8 := 0x2F
def tagPull : UInt8 := 0x3F
def tagLogon : UInt8 := 0x6A
def tagLogoff : UInt8 := 0x6B
def tagTelemetry : UInt8 := 0x54

/-- The text of an error of the reader. -/
def ioError (text : String) : String := "io error: " ++ text

def hexDigit (n : ℕ) : Char := "0123456789ABCDEF".toList.getD n '?'

/-- A byte as two digits. -/
def hexByte (b : UInt8) : String := String.ofList [hexDigit (b.toNat/16),hexDigit (b.toNat%16)]

def requireArity (fields : List Value) (expected : ℕ) (name : String) : Except String Unit :=
  if fields.length ≠ expected then .error (ioError s!"{name}: expected {expected} field(s), got {fields.length}") else .ok ()

def takeDictField (debug : Value → String) (fields : List Value) (idx : ℕ) (label : String) : Except String Dict :=
  match fields[idx]? with
  | some (.dictionary m) => .ok m
  | some other => .error (ioError s!"{label}: expected Dictionary, got {debug other}")
  | none => .error (ioError s!"{label}: missing field at index {idx}")

def takeStringField (debug : Value → String) (fields : List Value) (idx : ℕ) (label : String) : Except String String :=
  match fields[idx]? with
  | some (.string s) => .ok s
  | some other => .error (ioError s!"{label}: expected String, got {debug other}")
  | none => .error (ioError s!"{label}: missing field at index {idx}")

def decodeClient (debug : Value → String) : Value → Except String ClientMessage
  | .struct tag fields =>
    if tag = tagHello then (takeDictField debug fields 0 "HELLO.extra").map .hello
    else if tag = tagGoodbye then (requireArity fields 0 "GOODBYE").map (fun _ => .goodbye)
    else if tag = tagReset then (requireArity fields 0 "RESET").map (fun _ => .reset)
    else if tag = tagRun then do
      requireArity fields 3 "RUN"
      let query ← takeStringField debug fields 0 "RUN.query"
      let parameters ← takeDictField debug fields 1 "RUN.parameters"
      let extra ← takeDictField debug fields 2 "RUN.extra"
      return .run query parameters extra
    else if tag = tagBegin then (takeDictField debug fields 0 "BEGIN.extra").map .begin
    else if tag = tagCommit then (requireArity fields 0 "COMMIT").map (fun _ => .commit)
    else if tag = tagRollback then (requireArity fields 0 "ROLLBACK").map (fun _ => .rollback)
    else if tag = tagDiscard then (takeDictField debug fields 0 "DISCARD.extra").map .discard
    else if tag = tagPull then (takeDictField debug fields 0 "PULL.extra").map .pull
    else if tag = tagLogon then do
      requireArity fields 1 "LOGON"
      return .logon (← takeDictField debug fields 0 "LOGON.auth")
    else if tag = tagLogoff then (requireArity fields 0 "LOGOFF").map (fun _ => .logoff)
    else if tag = tagTelemetry then do
      requireArity fields 1 "TELEMETRY"
      return .telemetry (fields.getD 0 .null)
    else .error s!"unknown PackStream marker: 0x{hexByte tag}"
  | other => .error (ioError s!"expected PackStream Structure for Bolt message, got {debug other}")

/-! ## The loop -/

/-- What the connection comes to next: a message to be read, or what others do to the databases. -/
inductive Turn where
  | message (env : Env)
  | elsewhere (service : ℕ) (a : Action)
  | terminate (service id : ℕ)

/-- A request as it was answered; `msg` is `none` where the value is no request. -/
structure Exchange where
  before : Session
  msg : Option ClientMessage
  answer : List ServerMessage
  after : Session

/-- Why the loop reads no further. -/
inductive Ending where
  | waiting
  | closed
  | bolt (e : BoltError)
  | trailing

section
variable [JsonText]

/-- The session answers a request. -/
def Session.exchange (s : Session) (env : Env) (msg : ClientMessage) : Exchange :=
  { before := s, msg := some msg, answer := (s.handle env msg).1, after := (s.handle env msg).2 }

omit [JsonText] in
/-- The loop answers what is no request; the session is not told. -/
def Session.malformed (s : Session) (text : String) : Exchange :=
  { before := s, msg := none, answer := [.failure (failureMetadata Codes.protocolViolation text)], after := s }

def runSessionSyncInner (s : Session) : List Turn → List UInt8 → List Exchange × Ending
  | [],_ => ([],.waiting)
  | .elsewhere service a :: turns,input => runSessionSyncInner (s.step (.elsewhere service a)) turns input
  | .terminate service id :: turns,input => runSessionSyncInner (s.step (.terminate service id)) turns input
  | .message env :: turns,input =>
    match readMessage input with
    | .error .eof => ([],.closed)
    | .error e => ([],.bolt e)
    | .ok (payload,input) =>
      match decode payload with
      | .error e => ([],.bolt e)
      | .ok (_,_ :: _) => ([],.trailing)
      | .ok (value,[]) =>
        match decodeClient env.debug value with
        | .error text =>
          let r := runSessionSyncInner s turns input
          (s.malformed text :: r.1,r.2)
        | .ok msg =>
          let x := s.exchange env msg
          if x.after.state = .defunct then ([x],.closed)
          else
            let r := runSessionSyncInner x.after turns input
            (x :: r.1,r.2)

/-! ## What the client is owed -/

def ServerMessage.isFailure : ServerMessage → Bool
  | .failure _ => true
  | _ => false

namespace Exchange

def fails (x : Exchange) : Bool := x.answer.any ServerMessage.isFailure

/-- The request is a `RESET` or a `GOODBYE`. -/
def clears (x : Exchange) : Bool :=
  match x.msg with
  | some .reset => true
  | some .goodbye => true
  | _ => false

/-- Records, and one closing message; a `GOODBYE` is not answered. -/
def Answered (x : Exchange) : Prop :=
  match x.msg with
  | some .goodbye => x.answer = []
  | _ => ∃ (rows : List (List Value)) (last : ServerMessage), x.answer = rows.map .record ++ [last] ∧ ∀ row, last ≠ .record row

/-- The request is ignored: nothing changes. -/
def Ignored (x : Exchange) : Prop :=
  x.answer = [.ignored] ∧ x.after.nativeTx = x.before.nativeTx ∧ x.after.services = x.before.services

end Exchange

/-- After a failure was written, `owed`, everything is ignored until the client resets. -/
def IgnoresAfter (owed : Bool) : List Exchange → Prop
  | [] => True
  | x :: xs => (owed = true → x.clears = false → x.Ignored) ∧ IgnoresAfter (x.fails || (owed && !x.clears)) xs

/-- The failure discipline: every request has its answer, and after a failure the session does nothing. -/
def Disciplined (xs : List Exchange) : Prop := (∀ x ∈ xs, x.Answered) ∧ IgnoresAfter false xs

/-- What is no request comes where nothing has failed, and the client resets right after it. -/
def WellPlaced : List Exchange → Prop
  | [] => True
  | x :: xs => (x.msg = none → x.before.state ≠ .failed ∧ ∀ y ∈ xs.head?, y.clears = true) ∧ WellPlaced xs

/-! ## What a handler replies -/

/-- A handler answers with records and a success, and has not failed, or with one failure, and has. -/
inductive Replies (r : List ServerMessage × Session) : Prop where
  | ok (rows : List (List Value)) (md : Dict) : r.1 = rows.map .record ++ [.success md] → r.2.state ≠ .failed → Replies r
  | failed (md : Dict) : r.1 = [.failure md] → (r.2.state = .failed ∨ r.2.state = .defunct) → Replies r

omit [JsonText] in
theorem Replies.success {s : Session} {md : Dict} (h : s.state ≠ .failed) : Replies ([.success md],s) := .ok [] md rfl h

namespace Session

omit [JsonText] in
theorem fail_replies (s : Session) (code message : String) : Replies (s.fail code message) := .failed _ rfl (.inl rfl)

omit [JsonText] in
theorem execFail_replies (s : Session) (e : ExecError) : Replies (s.execFail e) := s.fail_replies _ _

omit [JsonText] in
theorem checkTxDeadline_replies {s s' : Session} {env : Env} {failure : List ServerMessage}
    (h : s.checkTxDeadline env = (some failure,s')) : Replies (failure,s') := by
  unfold checkTxDeadline at h
  dsimp only at h
  split at h
  · cases h
  · obtain ⟨h₁,rfl⟩ := Prod.mk.inj h
    obtain rfl := Option.some.inj h₁
    exact execFail_replies _ _

omit [JsonText] in
theorem logIn_replies {s s' : Session} {env : Env} {auth : Dict} {failure : List ServerMessage}
    (h : s.logIn env auth = (.error failure,s')) : Replies (failure,s') := by
  unfold logIn at h
  simp only at h
  split_ifs at h
  · split at h
    · obtain ⟨h₁,rfl⟩ := Prod.mk.inj h
      obtain rfl := Except.error.inj h₁
      exact .failed _ rfl (.inr rfl)
    · cases h
  · split at h
    · cases h
    · obtain ⟨h₁,rfl⟩ := Prod.mk.inj h
      obtain rfl := Except.error.inj h₁
      exact .failed _ rfl (.inr rfl)
  · cases h

omit [JsonText] in
theorem handleHello_replies (s : Session) (env : Env) (extra : Dict) : Replies (s.handleHello env extra) := by
  unfold handleHello
  simp only
  split_ifs
  · exact fail_replies _ _ _
  · exact .success (by simp)
  · split
    · rename_i h
      exact logIn_replies h
    · exact .success (by simp)

omit [JsonText] in
theorem handleLogon_replies (s : Session) (env : Env) (auth : Dict) : Replies (s.handleLogon env auth) := by
  unfold handleLogon
  split
  · rename_i h
    exact logIn_replies h
  · exact .success (by simp)

omit [JsonText] in
theorem handleLogoff_replies (s : Session) : Replies s.handleLogoff := by
  unfold handleLogoff
  split_ifs
  · exact fail_replies _ _ _
  · exact fail_replies _ _ _
  · exact .success (by simp)

omit [JsonText] in
theorem handleTelemetry_replies {s : Session} (hs : s.state ≠ .failed) : Replies s.handleTelemetry := by
  unfold handleTelemetry
  split_ifs
  · exact fail_replies _ _ _
  · exact .success hs

omit [JsonText] in
theorem handleBegin_replies (s : Session) (env : Env) (extra : Dict) : Replies (s.handleBegin env extra) := by
  unfold handleBegin
  split_ifs
  · exact fail_replies _ _ _
  · exact fail_replies _ _ _
  split
  · exact fail_replies _ _ _
  split
  · exact fail_replies _ _ _
  split
  · exact fail_replies _ _ _
  · exact .success (by simp)

omit [JsonText] in
theorem handleRollback_replies (s : Session) : Replies s.handleRollback := by
  unfold handleRollback
  split_ifs
  · exact fail_replies _ _ _
  · exact .success (by simp)
  · exact .success (by simp)
  split
  · exact fail_replies _ _ _
  · exact .success (by simp)

theorem handleCommit_replies (s : Session) (env : Env) : Replies (s.handleCommit env) := by
  unfold handleCommit
  split_ifs
  · exact fail_replies _ _ _
  · exact .success (by simp)
  split
  · rename_i h
    exact checkTxDeadline_replies h
  split
  · exact fail_replies _ _ _
  simp only
  split_ifs
  · exact fail_replies _ _ _
  split
  · exact .success (by simp)
  · exact fail_replies _ _ _

omit [JsonText] in
theorem stream_replies (s : Session) (inTx : Bool) (result : ResultSet) : Replies (s.stream inTx result) := by
  refine .ok [] _ rfl ?_
  cases inTx <;> simp [stream]

theorem handlePrepare_replies (s : Session) (env : Env) (gid : Expression) (params : Dict) (inTx : Bool) :
    Replies (s.handlePrepare env gid params inTx) := by
  simp only [handlePrepare]
  split
  · exact fail_replies _ _ _
  by_cases hm : (!env.mayPrepare) = true
  · rw [if_pos hm]
    exact fail_replies _ _ _
  rw [if_neg hm]
  split
  · rename_i h
    exact checkTxDeadline_replies h
  rename_i s' _
  cases s'.nativeTx with
  | none => exact fail_replies _ _ _
  | some a =>
  simp only
  by_cases ht : (s'.services a.tx.service).txTerminated a.tx.id = true
  · rw [if_pos ht]
    exact fail_replies _ _ _
  rw [if_neg ht]
  split
  · refine .success ?_
    cases inTx <;> simp
  · exact fail_replies _ _ _

omit [JsonText] in
theorem handleSecurityCommand_replies (s : Session) (env : Env) (parsed : Except String SecurityCommand) (inTx : Bool) :
    Replies (s.handleSecurityCommand env parsed inTx) := by
  unfold handleSecurityCommand
  split_ifs
  · exact fail_replies _ _ _
  split
  · exact fail_replies _ _ _
  split
  · exact fail_replies _ _ _
  · exact stream_replies _ _ _
  · exact stream_replies _ _ _

theorem executeInTx_replies (s : Session) (env : Env) : Replies (s.executeInTx env) := by
  unfold executeInTx
  split
  · exact fail_replies _ _ _
  split
  · exact stream_replies _ _ _
  · exact execFail_replies _ _

theorem executeAutocommit_replies (s : Session) (env : Env) (extra : Dict) : Replies (s.executeAutocommit env extra) := by
  unfold executeAutocommit
  split
  · exact fail_replies _ _ _
  simp only
  split
  · exact stream_replies _ _ _
  · exact execFail_replies _ _

theorem runQuery_replies (s : Session) (env : Env) (query : String) (parameters extra : Dict) (inTx : Bool) :
    Replies (s.runQuery env query parameters extra inTx) := by
  unfold runQuery
  split
  · exact fail_replies _ _ _
  simp only
  split
  · exact handleSecurityCommand_replies _ env _ inTx
  split
  · exact fail_replies _ _ _
  split
  · exact handlePrepare_replies _ env _ _ _
  · exact executeInTx_replies _ env
  · exact executeAutocommit_replies _ env extra

theorem handleRun_replies (s : Session) (env : Env) (query : String) (parameters extra : Dict) :
    Replies (s.handleRun env query parameters extra) := by
  simp only [handleRun]
  split_ifs
  · exact fail_replies _ _ _
  · exact fail_replies _ _ _
  · split
    · rename_i h
      exact checkTxDeadline_replies h
    · exact runQuery_replies _ env query parameters extra _
  · split
    · exact fail_replies _ _ _
    · exact runQuery_replies _ env query parameters extra _

omit [JsonText] in
theorem handleStream_replies (s : Session) (name : String) (sends : Bool) (extra : Dict) : Replies (s.handleStream name sends extra) := by
  have hrows : ∀ rows drained, s.state ≠ .failed → drained ≠ .failed → Replies (s.takeRows sends (extractN extra) rows drained) := by
    intro rows drained hs hd
    simp only [takeRows]
    have hrecords : (if sends = true then (drain (extractN extra) 0 rows).1.map ServerMessage.record else []) =
        (if sends = true then (drain (extractN extra) 0 rows).1 else []).map ServerMessage.record := by
      split_ifs <;> rfl
    rw [hrecords]
    by_cases hover : (drain (extractN extra) 0 rows).2.2 = true
    · rw [if_pos hover]
      exact .ok _ _ rfl hd
    · rw [if_neg hover]
      exact .ok _ _ rfl hs
  unfold handleStream
  split
  · rename_i hs _
    exact hrows _ _ (by simp [hs]) (by decide)
  · rename_i hs _
    exact hrows _ _ (by simp [hs]) (by decide)
  · exact fail_replies _ _ _

theorem dispatchOpen_replies {s : Session} (env : Env) {msg : ClientMessage} (hm : msg ≠ .goodbye) (hs : s.state ≠ .failed) :
    Replies (s.dispatchOpen env msg) := by
  cases msg with
  | goodbye => exact absurd rfl hm
  | hello extra => exact s.handleHello_replies env extra
  | reset => exact .success (by simp)
  | run query parameters extra => exact s.handleRun_replies env query parameters extra
  | pull extra => exact s.handleStream_replies _ _ extra
  | discard extra => exact s.handleStream_replies _ _ extra
  | begin extra => exact s.handleBegin_replies env extra
  | commit => exact s.handleCommit_replies env
  | rollback => exact s.handleRollback_replies
  | logon auth => exact s.fail_replies _ _
  | logoff => exact s.handleLogoff_replies
  | telemetry api => exact handleTelemetry_replies hs

omit [JsonText] in
theorem dispatchAuthentication_replies (s : Session) (env : Env) {msg : ClientMessage} (hm : msg ≠ .goodbye) :
    Replies (s.dispatchAuthentication env msg) := by
  cases msg with
  | goodbye => exact absurd rfl hm
  | logon auth => exact s.handleLogon_replies env auth
  | _ => exact .failed _ rfl (.inr rfl)

theorem handle_replies {s : Session} (env : Env) {msg : ClientMessage} (hm : msg ≠ .goodbye) (hs : s.state ≠ .failed)
    (hd : s.state ≠ .defunct) : Replies (s.handle env msg) := by
  have hdispatch : Replies (s.dispatch env msg) := by
    unfold dispatch
    split
    · contradiction
    · exact s.dispatchAuthentication_replies env hm
    · contradiction
    · exact dispatchOpen_replies env hm hs
  cases hdispatch with
  | ok rows md h₁ h₂ => exact .ok rows md h₁ h₂
  | failed md h₁ h₂ => exact .failed md h₁ h₂

theorem handle_goodbye {s : Session} (env : Env) (hd : s.state ≠ .defunct) :
    (s.handle env .goodbye).1 = [] ∧ (s.handle env .goodbye).2.state = .defunct := by
  unfold handle dispatch
  split
  · contradiction
  all_goals exact ⟨rfl,rfl⟩

theorem handle_reset {s : Session} (env : Env) (hs : s.state = .failed) :
    (s.handle env .reset).1 = [.success []] ∧ (s.handle env .reset).2.state = .ready := by
  simp only [handle,dispatch,hs]
  exact ⟨rfl,rfl⟩

theorem handle_failed {s : Session} (env : Env) {msg : ClientMessage} (hs : s.state = .failed) (hr : msg ≠ .reset)
    (hg : msg ≠ .goodbye) : s.handle env msg = ([.ignored],{ s with idleSince := env.later }) := by
  have hdispatch : s.dispatch env msg = ([.ignored],s) := by
    simp only [dispatch,hs]
    cases msg with
    | reset => exact absurd rfl hr
    | goodbye => exact absurd rfl hg
    | _ => rfl
  rw [handle,hdispatch]

/-! ## One exchange -/

theorem exchange_clears {s : Session} {env : Env} {msg : ClientMessage} :
    (s.exchange env msg).clears = true ↔ msg = .reset ∨ msg = .goodbye := by
  cases msg <;> simp [exchange,Exchange.clears]

omit [JsonText] in
theorem answered_of_ne {x : Exchange} (hm : x.msg ≠ some .goodbye) (rows : List (List Value)) (last : ServerMessage)
    (h : x.answer = rows.map .record ++ [last]) (hlast : ∀ row, last ≠ .record row) : x.Answered := by
  unfold Exchange.Answered
  split
  · contradiction
  · exact ⟨rows,last,h,hlast⟩

theorem exchange_answered {s : Session} (env : Env) (msg : ClientMessage) (hd : s.state ≠ .defunct) :
    (s.exchange env msg).Answered := by
  by_cases hg : msg = .goodbye
  · subst hg
    exact (handle_goodbye env hd).1
  have hm : (s.exchange env msg).msg ≠ some .goodbye := fun h => hg (Option.some.inj h)
  by_cases hs : s.state = .failed
  · by_cases hr : msg = .reset
    · subst hr
      exact answered_of_ne hm [] _ (handle_reset env hs).1 (by simp)
    · refine answered_of_ne hm [] .ignored ?_ (by simp)
      simp [exchange,handle_failed env hs hr hg]
  · cases handle_replies env hg hs hd with
    | ok rows md h _ => exact answered_of_ne hm rows _ h (by simp)
    | failed md h _ => exact answered_of_ne hm [] _ h (by simp)

omit [JsonText] in
theorem malformed_answered (s : Session) (text : String) : (s.malformed text).Answered :=
  answered_of_ne (by simp [malformed]) [] _ rfl (by simp)

theorem exchange_ignored {s : Session} (env : Env) (msg : ClientMessage) (hs : s.state = .failed)
    (hc : (s.exchange env msg).clears = false) : (s.exchange env msg).Ignored := by
  rw [← Bool.not_eq_true,exchange_clears] at hc
  obtain ⟨hr,hg⟩ := not_or.mp hc
  have h := handle_failed env hs hr hg
  simp [Exchange.Ignored,exchange,h]

theorem exchange_not_ignored {s : Session} (env : Env) (msg : ClientMessage) (hs : s.state ≠ .failed) (hd : s.state ≠ .defunct)
    (hc : (s.exchange env msg).clears = false) : ¬ (s.exchange env msg).Ignored := by
  rintro ⟨hi,-⟩
  rw [← Bool.not_eq_true,exchange_clears] at hc
  obtain ⟨-,hg⟩ := not_or.mp hc
  replace hi : (s.handle env msg).1 = [.ignored] := hi
  cases handle_replies env hg hs hd with
  | ok rows md h _ =>
    have hlast := congrArg List.getLast? (h.symm.trans hi)
    simp at hlast
  | failed md h _ =>
    have hone := h.symm.trans hi
    simp at hone

theorem exchange_owed {s : Session} (env : Env) (msg : ClientMessage) (owed : Bool) (hd : s.state ≠ .defunct)
    (ho : s.state = .failed ↔ owed = true) (hopen : (s.exchange env msg).after.state ≠ .defunct) :
    (s.exchange env msg).after.state = .failed ↔ ((s.exchange env msg).fails || (owed && !(s.exchange env msg).clears)) = true := by
  have hg : msg ≠ .goodbye := by
    rintro rfl
    exact hopen (handle_goodbye env hd).2
  by_cases hs : s.state = .failed
  · obtain rfl : owed = true := ho.mp hs
    by_cases hr : msg = .reset
    · subst hr
      obtain ⟨h₁,h₂⟩ := handle_reset env hs
      simp [exchange,Exchange.fails,Exchange.clears,h₁,h₂,ServerMessage.isFailure]
    · have hc : (s.exchange env msg).clears = false := by
        rw [← Bool.not_eq_true,exchange_clears]
        exact not_or.mpr ⟨hr,hg⟩
      rw [hc]
      simp [exchange,handle_failed env hs hr hg,hs]
  · obtain rfl : owed = false := by
      rw [← Bool.not_eq_true]
      exact fun h => hs (ho.mpr h)
    simp only [Bool.false_and,Bool.or_false]
    cases handle_replies env hg hs hd with
    | ok rows md h₁ h₂ => simp [exchange,Exchange.fails,h₁,h₂,ServerMessage.isFailure]
    | failed md h₁ h₂ =>
      have hfailed : (s.handle env msg).2.state = .failed := h₂.resolve_right hopen
      simp [exchange,Exchange.fails,h₁,hfailed,ServerMessage.isFailure]

/-! ## A whole connection -/

omit [JsonText] in
theorem malformed_fails (s : Session) (text : String) : (s.malformed text).fails = true := rfl

theorem step_elsewhere_state (s : Session) (service : ℕ) (a : Action) : (s.step (.elsewhere service a)).state = s.state := by
  simp only [step]
  split_ifs <;> rfl

end Session

open Session

/-- A message ends the connection, is no request, or is handled, which may be the last of the connection. -/
theorem runSessionSyncInner_message (s : Session) (env : Env) (turns : List Turn) (input : List UInt8) :
    (runSessionSyncInner s (.message env :: turns) input).1 = [] ∨
    (∃ text rest, (runSessionSyncInner s (.message env :: turns) input).1 =
      s.malformed text :: (runSessionSyncInner s turns rest).1) ∨
    (∃ msg, (runSessionSyncInner s (.message env :: turns) input).1 = [s.exchange env msg]) ∨
    ∃ msg rest, (s.exchange env msg).after.state ≠ .defunct ∧ (runSessionSyncInner s (.message env :: turns) input).1 =
      s.exchange env msg :: (runSessionSyncInner (s.exchange env msg).after turns rest).1 := by
  rw [runSessionSyncInner]
  split
  · exact Or.inl rfl
  · exact Or.inl rfl
  split
  · exact Or.inl rfl
  · exact Or.inl rfl
  split
  · rename_i text _
    exact Or.inr (Or.inl ⟨text,_,rfl⟩)
  · rename_i msg _
    dsimp only
    split_ifs with hclosed
    · exact Or.inr (Or.inr (Or.inl ⟨msg,rfl⟩))
    · exact Or.inr (Or.inr (Or.inr ⟨msg,_,hclosed,rfl⟩))

theorem runSessionSyncInner_answered (turns : List Turn) : ∀ (s : Session) (input : List UInt8), s.state ≠ .defunct →
    ∀ x ∈ (runSessionSyncInner s turns input).1, x.Answered := by
  induction turns with
  | nil => exact fun _ _ _ _ hx => absurd hx List.not_mem_nil
  | cons turn turns ih =>
    intro s input hd
    cases turn with
    | elsewhere service a => exact ih _ input (by rwa [step_elsewhere_state])
    | terminate service id => exact ih _ input hd
    | message env =>
      obtain h | ⟨text,rest,h⟩ | ⟨msg,h⟩ | ⟨msg,rest,hclosed,h⟩ := runSessionSyncInner_message s env turns input <;> rw [h]
      · simp
      · exact List.forall_mem_cons.mpr ⟨s.malformed_answered text,ih s rest hd⟩
      · simpa using exchange_answered env msg hd
      · exact List.forall_mem_cons.mpr ⟨exchange_answered env msg hd,ih _ rest hclosed⟩

theorem runSessionSyncInner_head (turns : List Turn) : ∀ (s : Session) (input : List UInt8), s.state ≠ .failed → s.state ≠ .defunct →
    ∀ x ∈ (runSessionSyncInner s turns input).1.head?, x.clears = false → ¬ x.Ignored := by
  induction turns with
  | nil => exact fun _ _ _ _ _ hx => absurd hx (Option.not_mem_none _)
  | cons turn turns ih =>
    intro s input hs hd
    cases turn with
    | elsewhere service a => exact ih _ input (by rwa [step_elsewhere_state]) (by rwa [step_elsewhere_state])
    | terminate service id => exact ih _ input hs hd
    | message env =>
      obtain h | ⟨text,rest,h⟩ | ⟨msg,h⟩ | ⟨msg,rest,-,h⟩ := runSessionSyncInner_message s env turns input <;> rw [h]
      · simp
      · simp [Session.malformed,Exchange.Ignored]
      · simpa using exchange_not_ignored env msg hs hd
      · simpa using exchange_not_ignored env msg hs hd

omit [JsonText] in
theorem ignoresAfter_true {xs : List Exchange} (h : ∀ x ∈ xs.head?, x.clears = false → ¬ x.Ignored) :
    IgnoresAfter true xs ↔ (∀ x ∈ xs.head?, x.clears = true) ∧ IgnoresAfter false xs := by
  cases xs with
  | nil => simp [IgnoresAfter]
  | cons x xs =>
    cases hc : x.clears with
    | true => simp [IgnoresAfter,hc]
    | false =>
      have hx : ¬ x.Ignored := h x rfl hc
      simp [IgnoresAfter,hc,hx]

theorem ignoresAfter_iff (turns : List Turn) : ∀ (s : Session) (input : List UInt8) (owed : Bool), s.state ≠ .defunct →
    (s.state = .failed ↔ owed = true) →
    (IgnoresAfter owed (runSessionSyncInner s turns input).1 ↔ WellPlaced (runSessionSyncInner s turns input).1) := by
  induction turns with
  | nil => exact fun _ _ _ _ _ => Iff.rfl
  | cons turn turns ih =>
    intro s input owed hd ho
    cases turn with
    | elsewhere service a => exact ih _ input owed (by rwa [step_elsewhere_state]) (by rwa [step_elsewhere_state])
    | terminate service id => exact ih _ input owed hd ho
    | message env =>
      have hignored : ∀ msg, owed = true → (s.exchange env msg).clears = false → (s.exchange env msg).Ignored :=
        fun msg h hc => exchange_ignored env msg (ho.mpr h) hc
      have hmsg : ∀ msg, (s.exchange env msg).msg ≠ none := fun msg => Option.some_ne_none msg
      obtain h | ⟨text,rest,h⟩ | ⟨msg,h⟩ | ⟨msg,rest,hclosed,h⟩ := runSessionSyncInner_message s env turns input <;> rw [h]
      · exact Iff.rfl
      · have hx : ¬ (s.malformed text).Ignored := by simp [Session.malformed,Exchange.Ignored]
        have hc : (s.malformed text).clears = false := rfl
        have hbefore : (s.malformed text).before = s := rfl
        have hnone : (s.malformed text).msg = none := rfl
        simp only [IgnoresAfter,WellPlaced,hx,hc,hbefore,hnone,malformed_fails,Bool.true_or]
        cases owed with
        | true =>
          have hs : s.state = .failed := ho.mpr rfl
          simp [hs]
        | false =>
          have hs : s.state ≠ .failed := fun h => by simp [ho] at h
          have hhead := fun rest => ignoresAfter_true (runSessionSyncInner_head turns s rest hs hd)
          simp [hs,hhead,ih s _ false hd ho]
      · simpa [IgnoresAfter,WellPlaced,hmsg] using hignored msg
      · have hrest := ih _ rest _ hclosed (exchange_owed env msg owed hd ho hclosed)
        simp only [IgnoresAfter,WellPlaced,hmsg,hrest]
        have hone := hignored msg
        tauto

/-- A connection keeps to the failure discipline exactly if what is no request never comes to a failed session, and is
followed by `RESET` or `GOODBYE`. -/
theorem disciplined_iff_wellPlaced (service : ℕ) (serverAgent connectionId : String) (authenticator requiresLogin : Bool)
    (resolver : DbResolver) (idleTimeout : Option ℕ) (idleSince : ℕ) (version : BoltVersion) (services : ℕ → Service)
    (turns : List Turn) (input : List UInt8) :
    let s := build service serverAgent connectionId authenticator requiresLogin resolver idleTimeout idleSince version services
    Disciplined (runSessionSyncInner s turns input).1 ↔ WellPlaced (runSessionSyncInner s turns input).1 := by
  intro s
  have hd : s.state ≠ .defunct := by simp [s,build]
  have ho : s.state = .failed ↔ false = true := by simp [s,build]
  rw [Disciplined,ignoresAfter_iff turns s input false hd ho]
  exact and_iff_right (runSessionSyncInner_answered turns s input hd)

end

section Sample
open Session
attribute [local instance] Json.compactText

/-- A greeted client sends a message with an unknown tag and pipelines `BEGIN` behind it: after the failure that answers the
first, the second opens a transaction. -/
theorem unknown_tag_begins :
    let s := build 0 "Neo4j/5.26.0" "bolt-1" false false .single none 0 ⟨4,4⟩ (fun _ => {})
    let turns := List.replicate 3 (Turn.message denyAll)
    let input := [[0xB1,0x01,0xA0],[0xB0,0x55],[0xB1,0x11,0xA0]].flatMap writeMessage
    let xs := (runSessionSyncInner s turns input).1
    xs.map Exchange.fails = [false,true,false] ∧ xs.map (fun x => x.after.begun) = [[],[],[⟨0,1⟩]] ∧ ¬ Disciplined xs := by
  intro s turns input xs
  have hxs : xs = [s.exchange denyAll (.hello []),
      (s.exchange denyAll (.hello [])).after.malformed "unknown PackStream marker: 0x55",
      (s.exchange denyAll (.hello [])).after.exchange denyAll (.begin [])] := by
    simp only [xs,turns,input,List.replicate,List.flatMap_cons,List.flatMap_nil,runSessionSyncInner,readMessage_writeMessage]
    rfl
  have hfails : xs.map Exchange.fails = [false,true,false] := by
    rw [hxs]
    rfl
  have hbegun : xs.map (fun x => x.after.begun) = [[],[],[⟨0,1⟩]] := by
    rw [hxs]
    rfl
  refine ⟨hfails,hbegun,?_⟩
  rw [hxs]
  rintro ⟨-,-,-,hlast,-⟩
  have hignored := (hlast rfl rfl).1
  cases hignored

end Sample

end Drevo.Bolt
