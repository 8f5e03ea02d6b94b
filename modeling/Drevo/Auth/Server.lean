import Drevo.Auth.Manager

/-! The calls that a manager serves at the same time. Failures, sessions and catalog are under locks
of their own, and a password is verified under none: a call is cut where it lets go of one. -/
namespace Drevo.Auth
open Lib Std

/-- A logged-in user. -/
structure Principal where
  name : String
  passwordChangeRequired : Bool
  deriving DecidableEq

/-- Why a login was refused. -/
inductive LoginError where
  | invalidCredentials | invalidToken | suspended
  | locked (retryAfterMs : ℤ)
  deriving DecidableEq

inductive Answer where
  | refused (e : LoginError)
  | resumed (p : Principal)
  | session (token : Option String)
  | managed (e : Option ManageError)
  deriving DecidableEq

/-- A call, by what it has done so far. -/
inductive Call where
  /-- A login that found the user not locked at its reading of the clock. -/
  | checked (name password : String) (now : I64)
  /-- It has read the user's record. -/
  | found (name password : String) (now : I64) (user : User)
  | wrong (name : String) (now : I64)
  | right (name : String) (user : User)
  /-- The login has returned, and a token may be asked for. -/
  | loggedIn (p : Principal)
  /-- `issue_session` found the user active. -/
  | admitted (name : String)
  /-- The catalog is changed, the user's sessions are still there. -/
  | changed (name : String) (drops : Bool)
  /-- The sessions of a dropped user are revoked, the failures are still there. -/
  | revoked (name : String)
  | done (answer : Answer)
  deriving DecidableEq

namespace AuthManager

/-! ## Under the lock of the failures -/

/-- For how long the user is locked. -/
def lockLeft (m : AuthManager) (name : String) (now : I64) : Option ℤ :=
  match m.failures[name]? with
  | none => none
  | some f => if now.1 < f.lockedUntilMs.1 then some (f.lockedUntilMs.1-now.1) else none

def recordFailure (m : AuthManager) (name : String) (now : I64) : AuthManager :=
  if m.lockout.maxFailedAttempts = 0 then m
  else
    let f := (m.failures[name]?).getD {}
    if m.lockout.maxFailedAttempts ≤ f.count+1 then
      let lockMs := I64.saturate m.lockout.lockForMs
      { m with failures := m.failures.insert name { count := 0, lockedUntilMs := now.saturatingAdd lockMs } }
    else { m with failures := m.failures.insert name { f with count := f.count+1 } }

/-! ## Under the lock of the sessions -/

def isActive (m : AuthManager) (name : String) : Bool := m.catalog.users[name]?.any (fun u => u.status = .active)

def insertSession (m : AuthManager) (name token : String) (now : I64) : AuthManager :=
  let session := { number := m.nextSession+1, user := name, createdMs := now.1, lastUsedMs := now.1 }
  { m with sessions := m.sessions.insert token session, nextSession := m.nextSession+1 }

def resume (m : AuthManager) (token : String) (now : I64) : Except LoginError Principal × AuthManager :=
  match m.sessions[token]? with
  | none => (.error .invalidToken,m)
  | some session =>
    let expired : Bool := m.sessionPolicy.idleMs < now.1-session.lastUsedMs || m.sessionPolicy.lifetimeMs < now.1-session.createdMs
    match m.catalog.users[session.user]? with
    | none => (.error .invalidToken,{ m with sessions := m.sessions.erase token })
    | some user =>
      if !expired && user.status = .active then
        (.ok { name := user.name, passwordChangeRequired := user.passwordChangeRequired },
          { m with sessions := m.sessions.insert token { session with lastUsedMs := now.1 } })
      else (.error .invalidToken,{ m with sessions := m.sessions.erase token })

end AuthManager

/-! ## The sections of a call -/
namespace Call
variable [PasswordHash]

def lookup (m : AuthManager) : Call → Option Call
  | .checked name password now =>
    match m.catalog.users[name]? with
    | none => some (.done (.refused .invalidCredentials))
    | some user => some (.found name password now user)
  | _ => none

def verify : Call → Option Call
  | .found name password now user =>
    if PasswordHash.verifyPassword password user.passwordHash then some (.right name user) else some (.wrong name now)
  | _ => none

/-- A failure is recorded, or the failures are cleared. -/
def settle (m : AuthManager) : Call → Option (Call × AuthManager)
  | .wrong name now => some (.done (.refused .invalidCredentials),m.recordFailure name now)
  | .right name user =>
    if user.status = .suspended then some (.done (.refused .suspended),m.forgetFailures name)
    else
      let p := { name := user.name, passwordChangeRequired := user.passwordChangeRequired }
      some (.loggedIn p,m.forgetFailures name)
  | _ => none

def probe (m : AuthManager) : Call → Option Call
  | .loggedIn p => if m.isActive p.name then some (.admitted p.name) else some (.done (.session none))
  | _ => none

def issue (m : AuthManager) (token : String) (now : I64) : Call → Option (Call × AuthManager)
  | .admitted name => some (.done (.session (some token)),m.insertSession name token now)
  | _ => none

def revoke (m : AuthManager) : Call → Option (Call × AuthManager)
  | .changed name true => some (.revoked name,(m.revokeSessionsOf name).2)
  | .changed name false => some (.done (.managed none),(m.revokeSessionsOf name).2)
  | _ => none

def forget (m : AuthManager) : Call → Option (Call × AuthManager)
  | .revoked name => some (.done (.managed none),m.forgetFailures name)
  | _ => none

end Call

/-! ## Runs -/

/-- The manager, the time, and every call that was ever made. -/
structure Server where
  manager : AuthManager
  clock : I64
  calls : List Call := []

inductive Act where
  | tick (now : I64)
  | login (name password : String)
  | lookup (i : ℕ)
  | verify (i : ℕ)
  | settle (i : ℕ)
  | probe (i : ℕ)
  | issue (i : ℕ) (token : String)
  | resume (token : String)
  | createUser (new : NewUser) (env : Env)
  | alterUser (name : String) (alter : AlterUser) (env : Env)
  | changeOwnPassword (name current new : String) (env : Env)
  | dropUser (name : String) (ifExists : Bool) (env : Env)
  | revoke (i : ℕ)
  | forget (i : ℕ)

namespace Server

/-- A new call, begun with its first section. -/
def «open» (s : Server) (c : Call) (m : AuthManager) : Server := { s with manager := m, calls := s.calls ++ [c] }

/-- The next section of a call that is under way. -/
def proceed (s : Server) (i : ℕ) (f : Call → Option (Call × AuthManager)) : Option Server :=
  match s.calls[i]? with
  | none => none
  | some c => (f c).map (fun q => { s with manager := q.2, calls := s.calls.set i q.1 })

/-- What is left to do after a change of the catalog. -/
def afterChange (r : Except ManageError Unit) (rest : Call) : Call :=
  match r with
  | .error e => .done (.managed (some e))
  | .ok () => rest

def answerOf (r : Except LoginError Principal) : Answer :=
  match r with
  | .error e => .refused e
  | .ok p => .resumed p

variable [PasswordHash]

def step (s : Server) : Act → Option Server
  | .tick now => some { s with clock := now }
  | .login name password =>
    match s.manager.lockLeft name s.clock with
    | some left => some (s.open (.done (.refused (.locked left))) s.manager)
    | none => some (s.open (.checked name password s.clock) s.manager)
  | .lookup i => s.proceed i (fun c => (c.lookup s.manager).map (fun c => (c,s.manager)))
  | .verify i => s.proceed i (fun c => c.verify.map (fun c => (c,s.manager)))
  | .settle i => s.proceed i (fun c => c.settle s.manager)
  | .probe i => s.proceed i (fun c => (c.probe s.manager).map (fun c => (c,s.manager)))
  | .issue i token => s.proceed i (fun c => c.issue s.manager token s.clock)
  | .resume token =>
    let r := s.manager.resume token s.clock
    some (s.open (.done (answerOf r.1)) r.2)
  | .createUser new env =>
    let r := s.manager.createUser new env
    some (s.open (afterChange r.1 (.done (.managed none))) r.2)
  | .alterUser name alter env =>
    let r := s.manager.alterRecord name alter env
    let rest := if alter.endsSessions then Call.changed name false else .done (.managed none)
    some (s.open (afterChange r.1 rest) r.2)
  | .changeOwnPassword name current new env =>
    let r := s.manager.changePassword name current new env
    some (s.open (afterChange r.1 (.changed name false)) r.2)
  | .dropUser name ifExists env =>
    let r := s.manager.dropRecord name ifExists env
    some (s.open (afterChange r.1 (.changed name true)) r.2)
  | .revoke i => s.proceed i (fun c => c.revoke s.manager)
  | .forget i => s.proceed i (fun c => c.forget s.manager)

theorem login_cases {s s' : Server} {name password : String} (h : s.step (.login name password) = some s') :
    (∃ left, s' = s.open (.done (.refused (.locked left))) s.manager) ∨
      s.manager.lockLeft name s.clock = none ∧ s' = s.open (.checked name password s.clock) s.manager := by
  simp only [step] at h
  split at h
  · rename_i left _
    exact .inl ⟨left,(Option.some.inj h).symm⟩
  · rename_i hleft
    exact .inr ⟨hleft,(Option.some.inj h).symm⟩

omit [PasswordHash] in
theorem proceed_cases {s s' : Server} {i : ℕ} {f : Call → Option (Call × AuthManager)} (h : s.proceed i f = some s') :
    ∃ c q, s.calls[i]? = some c ∧ f c = some q ∧ s' = { s with manager := q.2, calls := s.calls.set i q.1 } := by
  unfold proceed at h
  cases hc : s.calls[i]? with
  | none =>
    rw [hc] at h
    cases h
  | some c =>
    rw [hc] at h
    obtain ⟨q,hq,rfl⟩ := Option.map_eq_some_iff.mp h
    exact ⟨c,q,rfl,hq,rfl⟩

end Server

end Drevo.Auth
