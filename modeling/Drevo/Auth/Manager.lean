import Drevo.Auth.Catalog
import Drevo.Lib.I64

/-! The manager of users and roles. Every change is an edit of a copy of the catalog, which is kept
once the store has taken it. -/
namespace Drevo.Auth
open Lib Std

/-- Passwords are hashed with a salt, and checked against a hash. -/
class PasswordHash where
  hashPassword : String → String → Except String String
  verifyPassword : String → String → Bool

structure LockoutPolicy where
  maxFailedAttempts : ℕ := 3
  lockForMs : ℕ := 5000

structure SessionPolicy where
  idleMs : ℕ := 1800000
  lifetimeMs : ℕ := 43200000

structure Failures where
  count : ℕ := 0
  lockedUntilMs : I64 := I64.saturate 0
  deriving DecidableEq

structure Session where
  number : ℕ
  user : String
  createdMs : ℤ
  lastUsedMs : ℤ
  deriving DecidableEq

/-- The users of one server; `stored` is what the store holds. -/
structure AuthManager where
  stored : Option Catalog
  catalog : Catalog
  generation : ℕ := 0
  minLength : ℕ := 8
  lockout : LockoutPolicy := {}
  sessionPolicy : SessionPolicy := {}
  failures : Map String Failures := ∅
  sessions : Map String Session := ∅
  nextSession : ℕ := 0

structure NewUser where
  name : String
  password : String
  changeRequired : Bool := true
  status : UserStatus := .active
  ifNotExists : Bool := false

/-- What is left unset stays as it is. -/
structure AlterUser where
  password : Option String := none
  changeRequired : Option Bool := none
  status : Option UserStatus := none

def AlterUser.endsSessions (alter : AlterUser) : Bool := alter.password.isSome || alter.status = some .suspended

inductive Bootstrap where
  | disabled | generated
  | admin (user password : String)
  deriving DecidableEq

inductive BootstrapOutcome where
  | disabled | alreadyInitialised | created
  | generated (user password : String)
  deriving DecidableEq

/-- What a call finds around it: the time, the salt of the next hash, and how the store answers. -/
structure Env where
  nowMs : ℤ := 0
  salt : String := ""
  save : Option StoreError := none

/-- The edit of a copy: the new catalog, and whether it is a change. -/
abbrev Edit := Catalog → Except ManageError (Catalog × Bool)

namespace AuthManager

/-! ## Opening -/

/-- A catalog from before the roles: its users could do everything. -/
def upgrade (c : Catalog) : Catalog :=
  { c with users := c.users.map (fun _ u => { u with roles := insert adminRole u.roles }), formatVersion := catalogFormat }

def «open» (loaded : Except StoreError (Option Catalog)) (save : Option StoreError) : Except ManageError AuthManager :=
  match loaded with
  | .error e => .error (.store e)
  | .ok stored =>
    let catalog := stored.getD {}
    if catalog.formatVersion < catalogFormat then
      match save with
      | some e => .error (.store e)
      | none => .ok { stored := some (upgrade catalog), catalog := upgrade catalog }
    else .ok { stored := stored, catalog := catalog }

def withLockout (m : AuthManager) (lockout : LockoutPolicy) : AuthManager := { m with lockout := lockout }

def withSessions (m : AuthManager) (sessions : SessionPolicy) : AuthManager := { m with sessionPolicy := sessions }

def withPolicy (m : AuthManager) (minLength : ℕ) : AuthManager := { m with minLength := minLength }

/-! ## Changes -/

def change (m : AuthManager) (edit : Edit) (save : Option StoreError) : Except ManageError Unit × AuthManager :=
  match edit m.catalog with
  | .error e => (.error e,m)
  | .ok (_,false) => (.ok (),m)
  | .ok (next,true) =>
    match save with
    | some e => (.error (.store e),m)
    | none => (.ok (),{ m with stored := some next, catalog := next, generation := m.generation+1 })

def checkPolicy (m : AuthManager) (password : String) : Except ManageError Unit :=
  if password.length < m.minLength then .error (.weakPassword m.minLength) else .ok ()

def revokeSessionsOf (m : AuthManager) (name : String) : ℕ × AuthManager :=
  let kept := m.sessions.filter (fun _ s => s.user ≠ name)
  (m.sessions.size-kept.size,{ m with sessions := kept })

def forgetFailures (m : AuthManager) (name : String) : AuthManager := { m with failures := m.failures.erase name }

section Users
variable [PasswordHash]

def hash (password salt : String) : Except ManageError String :=
  (PasswordHash.hashPassword password salt).mapError .hash

def createUser (m : AuthManager) (new : NewUser) (env : Env) : Except ManageError Unit × AuthManager :=
  match validateName new.name with
  | .error e => (.error e,m)
  | .ok () => m.change (fun c =>
      if new.name ∈ c.users then if new.ifNotExists then .ok (c,false) else .error (.userExists new.name)
      else do
        m.checkPolicy new.password
        let passwordHash ← hash new.password env.salt
        let user : User :=
          { name := new.name, passwordHash := passwordHash, status := new.status,
            passwordChangeRequired := new.changeRequired, createdAtMs := env.nowMs, passwordChangedAtMs := env.nowMs }
        .ok ({ c with users := c.users.insert new.name user },true)) env.save

/-- The new password of a user who is altered. -/
def alterPassword (m : AuthManager) (user : User) (password : Option String) (env : Env) : Except ManageError User :=
  match password with
  | none => .ok user
  | some password => do
    m.checkPolicy password
    if PasswordHash.verifyPassword password user.passwordHash then throw .samePassword
    let passwordHash ← hash password env.salt
    .ok { user with passwordHash := passwordHash, passwordChangedAtMs := env.nowMs }

/-- The first half of `alterUser`: the catalog is changed. -/
def alterRecord (m : AuthManager) (name : String) (alter : AlterUser) (env : Env) : Except ManageError Unit × AuthManager :=
  m.change (fun c =>
    match c.users[name]? with
    | none => .error (.userNotFound name)
    | some user => do
      let user ← m.alterPassword user alter.password env
      let required := alter.changeRequired.getD user.passwordChangeRequired
      let user := { user with passwordChangeRequired := required, status := alter.status.getD user.status }
      .ok ({ c with users := c.users.insert name user },true)) env.save

def alterUser (m : AuthManager) (name : String) (alter : AlterUser) (env : Env) : Except ManageError Unit × AuthManager :=
  match m.alterRecord name alter env with
  | (.error e,m) => (.error e,m)
  | (.ok (),m) => (.ok (),if alter.endsSessions then (m.revokeSessionsOf name).2 else m)

omit [PasswordHash] in
/-- The first part of `dropUser`. -/
def dropRecord (m : AuthManager) (name : String) (ifExists : Bool) (env : Env) : Except ManageError Unit × AuthManager :=
  m.change (fun c =>
    if name ∈ c.users then .ok ({ c with users := c.users.erase name },true)
    else if ifExists then .ok (c,false)
    else .error (.userNotFound name)) env.save

omit [PasswordHash] in
def dropUser (m : AuthManager) (name : String) (ifExists : Bool) (env : Env) : Except ManageError Unit × AuthManager :=
  match m.dropRecord name ifExists env with
  | (.error e,m) => (.error e,m)
  | (.ok (),m) => (.ok (),(m.revokeSessionsOf name).2.forgetFailures name)

/-- The first half of `changeOwnPassword`. -/
def changePassword (m : AuthManager) (name current new : String) (env : Env) : Except ManageError Unit × AuthManager :=
  m.change (fun c =>
    match c.users[name]?.filter (fun u => PasswordHash.verifyPassword current u.passwordHash) with
    | none => .error .wrongCurrentPassword
    | some user => do
      if new = current then throw .samePassword
      m.checkPolicy new
      let passwordHash ← hash new env.salt
      let user := { user with passwordHash := passwordHash, passwordChangedAtMs := env.nowMs, passwordChangeRequired := false }
      .ok ({ c with users := c.users.insert name user },true)) env.save

def changeOwnPassword (m : AuthManager) (name current new : String) (env : Env) : Except ManageError Unit × AuthManager :=
  match m.changePassword name current new env with
  | (.error e,m) => (.error e,m)
  | (.ok (),m) => (.ok (),(m.revokeSessionsOf name).2)

end Users

/-! ## Roles -/

def createRole (m : AuthManager) (name : String) (ifNotExists : Bool) (copyOf : Option String) (env : Env) :
    Except ManageError Unit × AuthManager :=
  match validateRoleName name with
  | .error e => (.error e,m)
  | .ok () => m.change (fun c =>
      if name ∈ c.roles then if ifNotExists then .ok (c,false) else .error (.roleExists name)
      else
        match copyOf with
        | none => .ok ({ c with roles := c.roles.insert name {} },true)
        | some source =>
          match c.roles[source]? with
          | none => .error (.roleNotFound source)
          | some role => .ok ({ c with roles := c.roles.insert name role },true)) env.save

def dropRole (m : AuthManager) (name : String) (ifExists : Bool) (env : Env) : Except ManageError Unit × AuthManager :=
  match refusePublic name "dropped" with
  | .error e => (.error e,m)
  | .ok () => m.change (fun c =>
      if name ∈ c.roles then
        .ok ({ c with roles := c.roles.erase name, users := c.users.map (fun _ u => { u with roles := u.roles.erase name }) },true)
      else if ifExists then .ok (c,false)
      else .error (.roleNotFound name)) env.save

/-- A user whose role is renamed. -/
def renameHeld (fromName toName : String) (u : User) : User :=
  if fromName ∈ u.roles then { u with roles := insert toName (u.roles.erase fromName) } else u

def renameRole (m : AuthManager) (fromName toName : String) (ifExists : Bool) (env : Env) : Except ManageError Unit × AuthManager :=
  match (do refusePublic fromName "renamed"; refusePublic toName "renamed"; validateRoleName toName) with
  | .error e => (.error e,m)
  | .ok () => m.change (fun c =>
      match c.roles[fromName]? with
      | none => if ifExists then .ok (c,false) else .error (.roleNotFound fromName)
      | some role =>
        if toName ∈ c.roles then .error (.roleExists toName)
        else .ok ({ c with roles := (c.roles.erase fromName).insert toName role,
                           users := c.users.map (fun _ u => renameHeld fromName toName u) },true)) env.save

def grantRole (m : AuthManager) (role user : String) (env : Env) : Except ManageError Unit × AuthManager :=
  match refusePublic role "granted" with
  | .error e => (.error e,m)
  | .ok () => m.change (fun c =>
      if role ∉ c.roles then .error (.roleNotFound role)
      else
        match c.users[user]? with
        | none => .error (.userNotFound user)
        | some u => .ok ({ c with users := c.users.insert user { u with roles := insert role u.roles } },role ∉ u.roles)) env.save

def revokeRole (m : AuthManager) (role user : String) (env : Env) : Except ManageError Unit × AuthManager :=
  match refusePublic role "revoked" with
  | .error e => (.error e,m)
  | .ok () => m.change (fun c =>
      match c.users[user]? with
      | none => .error (.userNotFound user)
      | some u => .ok ({ c with users := c.users.insert user { u with roles := u.roles.erase role } },role ∈ u.roles)) env.save

/-- One privilege more, and whether it is new. -/
def giveOne (access : Access) (acc : Finset HeldPrivilege × Bool) (p : Privilege) : Finset HeldPrivilege × Bool :=
  (insert { access := access, privilege := p } acc.1,acc.2 || ({ access := access, privilege := p } : HeldPrivilege) ∉ acc.1)

def grant (m : AuthManager) (access : Access) (privileges : List Privilege) (role : String) (env : Env) :
    Except ManageError Unit × AuthManager :=
  m.change (fun c =>
    match c.roles[role]? with
    | none => .error (.roleNotFound role)
    | some r =>
      let given := privileges.foldl (giveOne access) (r.privileges,false)
      .ok ({ c with roles := c.roles.insert role { privileges := given.1 } },given.2)) env.save

def revoke (m : AuthManager) (access : Option Access) (privileges : List Privilege) (role : String) (env : Env) :
    Except ManageError Unit × AuthManager :=
  m.change (fun c =>
    match c.roles[role]? with
    | none => .error (.roleNotFound role)
    | some r =>
      let kept := r.privileges.filter (fun held => ¬(held.privilege ∈ privileges ∧ access.all (fun a => a = held.access)))
      .ok ({ c with roles := c.roles.insert role { privileges := kept } },kept.card ≠ r.privileges.card)) env.save

def makeAdmin (m : AuthManager) (user : String) (save : Option StoreError) : Except ManageError Unit × AuthManager :=
  m.change (fun c =>
    if adminRole ∉ c.roles then .ok (c,false)
    else
      match c.users[user]? with
      | none => .ok (c,false)
      | some u => .ok ({ c with users := c.users.insert user { u with roles := insert adminRole u.roles } },adminRole ∉ u.roles)) save

/-! ## The first user -/

variable [PasswordHash]

/-- The user is created, then made an administrator, each with a save of its own. -/
def bootstrapUser (m : AuthManager) (new : NewUser) (env : Env) (save : Option StoreError) (outcome : BootstrapOutcome) :
    Except ManageError BootstrapOutcome × AuthManager :=
  match m.createUser new env with
  | (.error e,m) => (.error e,m)
  | (.ok (),m) =>
    match m.makeAdmin new.name save with
    | (.error e,m) => (.error e,m)
    | (.ok (),m) => (.ok outcome,m)

def bootstrap (m : AuthManager) (spec : Bootstrap) (password : String) (env : Env) (save : Option StoreError) :
    Except ManageError BootstrapOutcome × AuthManager :=
  if spec = .disabled then (.ok .disabled,m)
  else if !m.catalog.users.isEmpty then (.ok .alreadyInitialised,m)
  else
    match spec with
    | .disabled => (.ok .disabled,m)
    | .admin user password => m.bootstrapUser { name := user, password := password, changeRequired := false } env save .created
    | .generated => m.bootstrapUser { name := "neo4j", password := password } env save (.generated "neo4j" password)

end AuthManager

end Drevo.Auth
