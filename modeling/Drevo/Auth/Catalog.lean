import Drevo.Auth.Privileges
import Drevo.Lib.Index

/-! The security catalog: every user with a password hash and the roles given, every role with its
privileges, and the names that users and roles may have. -/
namespace Drevo.Auth
open Lib Std

deriving instance DecidableEq for Privilege

/-- The role every user has. -/
def publicRole : String := "PUBLIC"

def adminRole : String := "admin"

inductive UserStatus where
  | active | suspended
  deriving DecidableEq

/-- A stored user, with the roles given besides `PUBLIC`. -/
structure User where
  name : String
  passwordHash : String
  status : UserStatus := .active
  passwordChangeRequired : Bool := false
  createdAtMs : ℤ := 0
  passwordChangedAtMs : ℤ := 0
  roles : Finset String := ∅
  deriving DecidableEq

structure HeldPrivilege where
  access : Access
  privilege : Privilege
  deriving DecidableEq

structure Role where
  privileges : Finset HeldPrivilege := ∅
  deriving DecidableEq

/-! ## Built-in roles -/

def builtinRoleNames : List String := [publicRole,"reader","editor","publisher","architect",adminRole]

def graphPrivilege (action : Action) (segment : Segment) (resource : Resource) : Privilege :=
  { action := action, target := some .all, segment := segment, resource := resource }

def databasePrivilege (action : Action) (target : Target) (segment : Segment) : Privilege :=
  { action := action, target := some target, segment := segment, resource := .database }

def dbmsPrivilege (action : Action) (segment : Segment) : Privilege :=
  { action := action, target := none, segment := segment, resource := .database }

/-- The privileges a built-in role starts with; each role holds what the one before it holds. -/
def builtinPrivileges (role : String) : Option (List Privilege) :=
  let everyone := [databasePrivilege .access .home .database,dbmsPrivilege .executeProcedure (.procedure .all),
    dbmsPrivilege .executeFunction (.function .all)]
  let reader := [databasePrivilege .access .all .database,graphPrivilege .match_ (.node .all) .allProperties,
    graphPrivilege .match_ (.relationship .all) .allProperties]
  let editor := reader ++ [graphPrivilege .write .graph .graph]
  let publisher := editor ++ [databasePrivilege .nameManagement .all .database]
  let architect := publisher ++ [databasePrivilege .indexManagement .all .database,
    databasePrivilege .constraintManagement .all .database]
  let admin := architect ++ [databasePrivilege .start .all .database,databasePrivilege .stop .all .database,
    databasePrivilege .transactionManagement .all (.user .all),dbmsPrivilege .allDbms .database]
  if role = publicRole then some everyone
  else if role = "reader" then some reader
  else if role = "editor" then some editor
  else if role = "publisher" then some publisher
  else if role = "architect" then some architect
  else if role = adminRole then some admin
  else none

def builtinRole (name : String) : Role :=
  { privileges := (((builtinPrivileges name).getD []).map (fun p => { access := .grant, privilege := p })).toFinset }

def builtinRoles : Map String Role :=
  builtinRoleNames.foldl (fun roles name => roles.insert name (builtinRole name)) ∅

/-! ## The catalog -/

/-- The format this version writes; format 1 had no roles. -/
def catalogFormat : ℕ := 2

structure Catalog where
  formatVersion : ℕ := catalogFormat
  users : Map String User := ∅
  roles : Map String Role := builtinRoles

/-- Every role that a user holds exists, and `PUBLIC` is there without being given to anybody. -/
structure Catalog.Sound (c : Catalog) : Prop where
  held : ∀ (n : String) (u : User), c.users[n]? = some u → ∀ r ∈ u.roles, r ∈ c.roles
  everyone : publicRole ∈ c.roles
  implicit : ∀ (n : String) (u : User), c.users[n]? = some u → publicRole ∉ u.roles

/-- Somebody holds `admin`, and there is such a role. -/
def Catalog.HasAdmin (c : Catalog) : Prop := adminRole ∈ c.roles ∧ ∃ (n : String) (u : User), c.users[n]? = some u ∧ adminRole ∈ u.roles

inductive StoreError where
  | io (path message : String)
  | corrupt (path reason : String)
  | unsupportedVersion (found supported : ℕ)
  deriving DecidableEq

/-- Why a change was refused. -/
inductive ManageError where
  | invalidName (name reason : String)
  | weakPassword (minLength : ℕ)
  | userExists (name : String)
  | userNotFound (name : String)
  | samePassword
  | wrongCurrentPassword
  | hash (message : String)
  | invalidRoleName (name reason : String)
  | roleExists (name : String)
  | roleNotFound (name : String)
  | publicRole (action : String)
  | store (e : StoreError)
  deriving DecidableEq

/-! ## Names -/

def maxNameLen : ℕ := 65

def maxRoleNameLen : ℕ := 65

def validateName (name : String) : Except ManageError Unit :=
  if name = "" then .error (.invalidName name "it is empty")
  else if maxNameLen < name.length then .error (.invalidName name "it is longer than 65 characters")
  else if !name.toList.all (fun c => c.isAlphanum || c = '_' || c = '-' || c = '.' || c = '@') then
    .error (.invalidName name "only letters, digits, '_', '-', '.' and '@' are allowed")
  else .ok ()

def validateRoleName (name : String) : Except ManageError Unit :=
  if name = "" then .error (.invalidRoleName name "it is empty")
  else if maxRoleNameLen < name.length then .error (.invalidRoleName name "it is longer than 65 characters")
  else if !name.toList.head?.any Char.isAlpha then .error (.invalidRoleName name "it must start with a letter")
  else if !name.toList.all (fun c => c.isAlphanum || c = '_') then
    .error (.invalidRoleName name "only letters, digits and '_' are allowed")
  else .ok ()

def refusePublic (role action : String) : Except ManageError Unit :=
  if role = publicRole then .error (.publicRole action) else .ok ()

namespace Catalog

theorem fresh_sound : ({} : Catalog).Sound where
  held n u h := by simp at h
  everyone := by decide +kernel
  implicit n u h := by simp at h

theorem Sound.put {c : Catalog} (h : c.Sound) {name : String} {user : User} (hr : ∀ r ∈ user.roles, r ∈ c.roles)
    (hp : publicRole ∉ user.roles) : { c with users := c.users.insert name user }.Sound where
  held n u hu := by
    rw [Map.get_insert] at hu
    split_ifs at hu with hn
    · obtain rfl := Option.some.inj hu
      exact hr
    · exact h.held n u hu
  everyone := h.everyone
  implicit n u hu := by
    rw [Map.get_insert] at hu
    split_ifs at hu with hn
    · obtain rfl := Option.some.inj hu
      exact hp
    · exact h.implicit n u hu

theorem Sound.alter {c : Catalog} (h : c.Sound) {name : String} {user user' : User} (hu : c.users[name]? = some user)
    (hr : user'.roles ⊆ user.roles) : { c with users := c.users.insert name user' }.Sound :=
  h.put (fun r hr' => h.held name user hu r (hr hr')) (fun hp => h.implicit name user hu (hr hp))

theorem Sound.give {c : Catalog} (h : c.Sound) {name role : String} {user : User} (hu : c.users[name]? = some user)
    (hr : role ∈ c.roles) (hp : role ≠ publicRole) :
    { c with users := c.users.insert name { user with roles := insert role user.roles } }.Sound := by
  refine h.put ?_ ?_
  · intro r hmem
    obtain rfl | hmem := Finset.mem_insert.mp hmem
    · exact hr
    · exact h.held name user hu r hmem
  · intro hmem
    obtain heq | hmem := Finset.mem_insert.mp hmem
    · exact hp heq.symm
    · exact h.implicit name user hu hmem

theorem Sound.drop {c : Catalog} (h : c.Sound) (name : String) : { c with users := c.users.erase name }.Sound where
  held n u hu := by
    rw [Map.get_erase] at hu
    split_ifs at hu with hn
    exact h.held n u hu
  everyone := h.everyone
  implicit n u hu := by
    rw [Map.get_erase] at hu
    split_ifs at hu with hn
    exact h.implicit n u hu

theorem Sound.define {c : Catalog} (h : c.Sound) (name : String) (role : Role) :
    { c with roles := c.roles.insert name role }.Sound where
  held n u hu r hr := ExtTreeMap.mem_insert.mpr (.inr (h.held n u hu r hr))
  everyone := ExtTreeMap.mem_insert.mpr (.inr h.everyone)
  implicit := h.implicit

theorem rework_sound {c : Catalog} {version : ℕ} {f : User → User} {roles : Map String Role}
    (hheld : ∀ (n : String) (u : User), c.users[n]? = some u → ∀ r ∈ (f u).roles, r ∈ roles) (heveryone : publicRole ∈ roles)
    (himplicit : ∀ (n : String) (u : User), c.users[n]? = some u → publicRole ∉ (f u).roles) :
    ({ formatVersion := version, users := c.users.map (fun _ u => f u), roles := roles } : Catalog).Sound where
  held n u hu r hr := by
    rw [ExtTreeMap.getElem?_map,Option.map_eq_some_iff] at hu
    obtain ⟨v,hv,rfl⟩ := hu
    exact hheld n v hv r hr
  everyone := heveryone
  implicit n u hu := by
    rw [ExtTreeMap.getElem?_map,Option.map_eq_some_iff] at hu
    obtain ⟨v,hv,rfl⟩ := hu
    exact himplicit n v hv

end Catalog

end Drevo.Auth
