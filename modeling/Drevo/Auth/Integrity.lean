import Drevo.Auth.Manager

/-! What the catalog keeps over every run of the manager's operations, however the store answers
each save. -/
namespace Drevo.Auth
open Lib Std

/-- An operation; `bootstrap` saves twice, and may need a password that it generates. -/
inductive Op where
  | bootstrap (spec : Bootstrap) (password : String) (save : Option StoreError)
  | createUser (new : NewUser)
  | alterUser (name : String) (alter : AlterUser)
  | dropUser (name : String) (ifExists : Bool)
  | changeOwnPassword (name current new : String)
  | createRole (name : String) (ifNotExists : Bool) (copyOf : Option String)
  | dropRole (name : String) (ifExists : Bool)
  | renameRole (fromName toName : String) (ifExists : Bool)
  | grantRole (role user : String)
  | revokeRole (role user : String)
  | grant (access : Access) (privileges : List Privilege) (role : String)
  | revoke (access : Option Access) (privileges : List Privilege) (role : String)

/-- An operation with what it finds around it. -/
structure ManagerCall where
  op : Op
  env : Env := {}

/-- What every operation's result keeps to: where it is an error the catalog is as it was, the store
holds the catalog, and the catalog stays sound. -/
structure Careful {α : Type} (m : AuthManager) (r : Except ManageError α × AuthManager) : Prop where
  refused : ∀ e, r.1 = .error e → r.2.catalog = m.catalog
  current : m.catalog = m.stored.getD {} → r.2.catalog = r.2.stored.getD {}
  sound : m.catalog.Sound → r.2.catalog.Sound

namespace Careful

variable {α β : Type} {m : AuthManager}

theorem refl (e : ManageError) : Careful m ((.error e : Except ManageError α),m) where
  refused _ _ := rfl
  current h := h
  sound h := h

theorem after {r : Except ManageError Unit × AuthManager} (h : Careful m r) {f : AuthManager → AuthManager}
    (hc : ∀ m, (f m).catalog = m.catalog) (hs : ∀ m, (f m).stored = m.stored) :
    Careful m (match r with | (.error e,m) => (.error e,m) | (.ok (),m) => ((.ok () : Except ManageError Unit),f m)) := by
  obtain ⟨r,m'⟩ := r
  cases r with
  | error e => exact ⟨h.refused,h.current,h.sound⟩
  | ok u =>
    refine ⟨fun e he => (by cases he),fun hm => ?_,fun hm => ?_⟩
    · exact (hc m').trans ((h.current hm).trans (by rw [hs]))
    · exact (congrArg Catalog.Sound (hc m')).mpr (h.sound hm)

theorem map {r : Except ManageError α × AuthManager} (h : Careful m r) (f : α → β) : Careful m (r.1.map f,r.2) := by
  obtain ⟨r,m'⟩ := r
  cases r with
  | error e => exact ⟨fun _ _ => h.refused e rfl,h.current,h.sound⟩
  | ok a => exact ⟨fun _ he => (by cases he),h.current,h.sound⟩

end Careful

namespace AuthManager

/-! ## One change -/

theorem change_cases (m : AuthManager) (edit : Edit) (save : Option StoreError) :
    (∃ e, m.change edit save = (.error e,m)) ∨ m.change edit save = (.ok (),m) ∨
      ∃ next, edit m.catalog = .ok (next,true) ∧ save = none ∧ m.change edit save =
        (.ok (),{ m with stored := some next, catalog := next, generation := m.generation+1 }) := by
  unfold change
  cases edit m.catalog with
  | error e => exact .inl ⟨e,rfl⟩
  | ok q =>
    obtain ⟨next,changed⟩ := q
    cases changed with
    | false => exact .inr (.inl rfl)
    | true =>
      cases save with
      | some e => exact .inl ⟨.store e,rfl⟩
      | none => exact .inr (.inr ⟨next,rfl,rfl,rfl⟩)

theorem change_careful {m : AuthManager} {edit : Edit} (hedit : ∀ c next, c.Sound → edit c = .ok (next,true) → next.Sound)
    (save : Option StoreError) : Careful m (m.change edit save) := by
  obtain ⟨e,h⟩ | h | ⟨next,hn,-,h⟩ := m.change_cases edit save
  · rw [h]
    exact .refl e
  · rw [h]
    exact ⟨fun _ he => (by cases he),id,id⟩
  · rw [h]
    exact ⟨fun _ he => (by cases he),fun _ => rfl,fun hs => hedit _ _ hs hn⟩

theorem guarded_careful {m : AuthManager} {check : Except ManageError Unit} {edit : Edit} {save : Option StoreError}
    (hedit : check = .ok () → ∀ c next, c.Sound → edit c = .ok (next,true) → next.Sound) :
    Careful m (match check with | .error e => (.error e,m) | .ok () => m.change edit save) := by
  cases check with
  | error e => exact .refl e
  | ok u => exact change_careful (hedit rfl) save

@[simp] theorem revokeSessionsOf_catalog (m : AuthManager) (name : String) : (m.revokeSessionsOf name).2.catalog = m.catalog := rfl

@[simp] theorem revokeSessionsOf_stored (m : AuthManager) (name : String) : (m.revokeSessionsOf name).2.stored = m.stored := rfl

theorem refusePublic_ok {role action : String} (h : refusePublic role action = .ok ()) : role ≠ publicRole := by
  unfold refusePublic at h
  split_ifs at h with hp
  exact hp

/-! ## Users -/

section Users
variable [PasswordHash]

theorem createUser_careful (m : AuthManager) (new : NewUser) (env : Env) : Careful m (m.createUser new env) := by
  unfold createUser
  refine guarded_careful (fun _ c next hs h => ?_)
  split_ifs at h
  · cases h
  · cases hp : m.checkPolicy new.password with
    | error e => simp [hp,bind,Except.bind] at h
    | ok u =>
      cases hh : hash new.password env.salt with
      | error e => simp [hp,hh,bind,Except.bind] at h
      | ok passwordHash =>
        simp only [hp,hh,bind,Except.bind,Except.ok.injEq,Prod.mk.injEq,and_true] at h
        rw [← h]
        exact hs.put (by simp) (by simp)

theorem alterPassword_roles {m : AuthManager} {user user' : User} {password : Option String} {env : Env}
    (h : m.alterPassword user password env = .ok user') : user'.roles = user.roles := by
  unfold alterPassword at h
  cases password with
  | none =>
    obtain rfl := Except.ok.inj h
    rfl
  | some password =>
    simp only [bind,Except.bind,throw,throwThe,MonadExceptOf.throw] at h
    repeat' split at h
    all_goals first | cases h; done | (obtain rfl := Except.ok.inj h; rfl)

theorem alterRecord_careful (m : AuthManager) (name : String) (alter : AlterUser) (env : Env) :
    Careful m (m.alterRecord name alter env) := by
  refine change_careful (fun c next hs h => ?_) _
  dsimp only at h
  split at h
  · cases h
  · rename_i user hu
    cases ha : m.alterPassword user alter.password env with
    | error e => simp [ha,bind,Except.bind] at h
    | ok user' =>
      simp only [ha,bind,Except.bind,Except.ok.injEq,Prod.mk.injEq,and_true] at h
      rw [← h]
      exact hs.alter hu (alterPassword_roles ha).subset

theorem alterUser_careful (m : AuthManager) (name : String) (alter : AlterUser) (env : Env) :
    Careful m (m.alterUser name alter env) := by
  refine (m.alterRecord_careful name alter env).after (fun m => ?_) (fun m => ?_)
  · split_ifs <;> rfl
  · split_ifs <;> rfl

omit [PasswordHash] in
theorem dropRecord_careful (m : AuthManager) (name : String) (ifExists : Bool) (env : Env) :
    Careful m (m.dropRecord name ifExists env) := by
  refine change_careful (fun c next hs h => ?_) _
  split_ifs at h
  · obtain ⟨rfl,-⟩ := Prod.mk.inj (Except.ok.inj h)
    exact hs.drop name
  · cases h

omit [PasswordHash] in
theorem dropUser_careful (m : AuthManager) (name : String) (ifExists : Bool) (env : Env) :
    Careful m (m.dropUser name ifExists env) := by
  exact (m.dropRecord_careful name ifExists env).after (fun m => rfl) (fun m => rfl)

theorem changePassword_careful (m : AuthManager) (name current new : String) (env : Env) :
    Careful m (m.changePassword name current new env) := by
  refine change_careful (fun c next hs h => ?_) _
  dsimp only at h
  split at h
  · cases h
  · rename_i user hu
    obtain ⟨hu,-⟩ := Option.filter_eq_some_iff.mp hu
    simp only [bind,Except.bind,throw,throwThe,MonadExceptOf.throw] at h
    repeat' split at h
    all_goals try cases h; done
    obtain ⟨rfl,-⟩ := Prod.mk.inj (Except.ok.inj h)
    exact hs.alter hu (Finset.Subset.refl _)

theorem changeOwnPassword_careful (m : AuthManager) (name current new : String) (env : Env) :
    Careful m (m.changeOwnPassword name current new env) := by
  exact (m.changePassword_careful name current new env).after (fun m => rfl) (fun m => rfl)

end Users

/-! ## Roles -/

theorem createRole_careful (m : AuthManager) (name : String) (ifNotExists : Bool) (copyOf : Option String) (env : Env) :
    Careful m (m.createRole name ifNotExists copyOf env) := by
  unfold createRole
  refine guarded_careful (fun _ c next hs h => ?_)
  split_ifs at h
  · cases h
  · split at h
    · obtain ⟨rfl,-⟩ := Prod.mk.inj (Except.ok.inj h)
      exact hs.define name {}
    · split at h
      · cases h
      · obtain ⟨rfl,-⟩ := Prod.mk.inj (Except.ok.inj h)
        exact hs.define name _

theorem dropRole_careful (m : AuthManager) (name : String) (ifExists : Bool) (env : Env) :
    Careful m (m.dropRole name ifExists env) := by
  unfold dropRole
  refine guarded_careful (fun hp c next hs h => ?_)
  have hne := refusePublic_ok hp
  split_ifs at h
  · obtain ⟨rfl,-⟩ := Prod.mk.inj (Except.ok.inj h)
    refine Catalog.rework_sound ?_ ?_ ?_
    · intro n u hu r hr
      obtain ⟨hr,hmem⟩ := Finset.mem_erase.mp hr
      exact ExtTreeMap.mem_erase.mpr ⟨by simpa using Ne.symm hr,hs.held n u hu r hmem⟩
    · exact ExtTreeMap.mem_erase.mpr ⟨by simpa using hne,hs.everyone⟩
    · exact fun n u hu hmem => hs.implicit n u hu (Finset.mem_of_mem_erase hmem)
  · cases h

theorem renameHeld_roles (fromName toName : String) (u : User) :
    ∀ r ∈ (renameHeld fromName toName u).roles, r = toName ∨ (r ∈ u.roles ∧ r ≠ fromName) := by
  intro r hr
  unfold renameHeld at hr
  split_ifs at hr with hmem
  · obtain rfl | hr := Finset.mem_insert.mp hr
    · exact .inl rfl
    · exact .inr ⟨Finset.mem_of_mem_erase hr,Finset.ne_of_mem_erase hr⟩
  · exact .inr ⟨hr,fun h => hmem (h ▸ hr)⟩

theorem renameRole_careful (m : AuthManager) (fromName toName : String) (ifExists : Bool) (env : Env) :
    Careful m (m.renameRole fromName toName ifExists env) := by
  unfold renameRole
  refine guarded_careful (fun hp c next hs h => ?_)
  have hfrom : fromName ≠ publicRole := by
    refine @refusePublic_ok fromName "renamed" ?_
    cases hf : refusePublic fromName "renamed" with
    | error e => simp [hf,bind,Except.bind] at hp
    | ok u => rfl
  have hto : toName ≠ publicRole := by
    refine @refusePublic_ok toName "renamed" ?_
    cases hf : refusePublic fromName "renamed" with
    | error e => simp [hf,bind,Except.bind] at hp
    | ok u =>
      cases ht : refusePublic toName "renamed" with
      | error e => simp [hf,ht,bind,Except.bind] at hp
      | ok u => rfl
  split at h
  · split_ifs at h
    cases h
  · split_ifs at h
    obtain ⟨rfl,-⟩ := Prod.mk.inj (Except.ok.inj h)
    refine Catalog.rework_sound ?_ ?_ ?_
    · intro n u hu r hr
      rw [ExtTreeMap.mem_insert,ExtTreeMap.mem_erase]
      obtain rfl | ⟨hr,hne⟩ := renameHeld_roles fromName toName u r hr
      · exact .inl (by simp)
      · exact .inr ⟨by simpa using Ne.symm hne,hs.held n u hu r hr⟩
    · rw [ExtTreeMap.mem_insert,ExtTreeMap.mem_erase]
      exact .inr ⟨by simpa using hfrom,hs.everyone⟩
    · intro n u hu hr
      obtain hr | ⟨hr,-⟩ := renameHeld_roles fromName toName u _ hr
      · exact hto hr.symm
      · exact hs.implicit n u hu hr

theorem grantRole_careful (m : AuthManager) (role user : String) (env : Env) : Careful m (m.grantRole role user env) := by
  unfold grantRole
  refine guarded_careful (fun hp c next hs h => ?_)
  have hne := refusePublic_ok hp
  split_ifs at h with hr
  split at h
  · cases h
  · rename_i u hu
    obtain ⟨rfl,-⟩ := Prod.mk.inj (Except.ok.inj h)
    exact hs.give hu hr hne

theorem revokeRole_careful (m : AuthManager) (role user : String) (env : Env) : Careful m (m.revokeRole role user env) := by
  unfold revokeRole
  refine guarded_careful (fun _ c next hs h => ?_)
  split at h
  · cases h
  · rename_i u hu
    obtain ⟨rfl,-⟩ := Prod.mk.inj (Except.ok.inj h)
    exact hs.alter hu (Finset.erase_subset _ _)

theorem grant_careful (m : AuthManager) (access : Access) (privileges : List Privilege) (role : String) (env : Env) :
    Careful m (m.grant access privileges role env) := by
  refine change_careful (fun c next hs h => ?_) _
  dsimp only at h
  split at h
  · cases h
  · obtain ⟨rfl,-⟩ := Prod.mk.inj (Except.ok.inj h)
    exact hs.define role _

theorem revoke_careful (m : AuthManager) (access : Option Access) (privileges : List Privilege) (role : String) (env : Env) :
    Careful m (m.revoke access privileges role env) := by
  refine change_careful (fun c next hs h => ?_) _
  dsimp only at h
  split at h
  · cases h
  · obtain ⟨rfl,-⟩ := Prod.mk.inj (Except.ok.inj h)
    exact hs.define role _

theorem makeAdmin_careful (m : AuthManager) (user : String) (save : Option StoreError) : Careful m (m.makeAdmin user save) := by
  refine change_careful (fun c next hs h => ?_) _
  split_ifs at h with hr
  · split at h
    · cases h
    · rename_i u hu
      obtain ⟨rfl,-⟩ := Prod.mk.inj (Except.ok.inj h)
      exact hs.give hu hr (by decide)
  · cases h

/-! ## The first user -/

variable [PasswordHash]

/-- The user passes every check, and the store takes the catalog with the user in it. -/
structure Registers (m : AuthManager) (new : NewUser) (env : Env) : Prop where
  name : validateName new.name = .ok ()
  policy : m.checkPolicy new.password = .ok ()
  hashed : ∃ passwordHash, hash new.password env.salt = .ok passwordHash
  saved : env.save = none

theorem createUser_first {m : AuthManager} (hempty : m.catalog.users.isEmpty) (new : NewUser) (env : Env) :
    (∃ e, m.createUser new env = (.error e,m)) ∨
      (m.Registers new env ∧ ∃ user : User, user.roles = ∅ ∧ m.createUser new env =
        (.ok (),{ m with stored := some { m.catalog with users := m.catalog.users.insert new.name user },
                         catalog := { m.catalog with users := m.catalog.users.insert new.name user },
                         generation := m.generation+1 })) := by
  have habsent : new.name ∉ m.catalog.users := by simp [ExtTreeMap.isEmpty_iff.mp hempty]
  unfold createUser
  cases hn : validateName new.name with
  | error e => exact .inl ⟨e,rfl⟩
  | ok u =>
    simp only [change,if_neg habsent,bind,Except.bind]
    cases hp : m.checkPolicy new.password with
    | error e => exact .inl ⟨e,rfl⟩
    | ok u =>
      cases hh : hash new.password env.salt with
      | error e => exact .inl ⟨e,rfl⟩
      | ok passwordHash =>
        cases hs : env.save with
        | some e => exact .inl ⟨.store e,rfl⟩
        | none => exact .inr ⟨⟨hn,hp,⟨passwordHash,hh⟩,hs⟩,_,rfl,rfl⟩

omit [PasswordHash] in
theorem makeAdmin_first {m : AuthManager} {name : String} {user : User} (hu : m.catalog.users[name]? = some user)
    (hr : user.roles = ∅) (hrole : adminRole ∈ m.catalog.roles) :
    (m.makeAdmin name none).1 = .ok () ∧ (m.makeAdmin name none).2.catalog.HasAdmin := by
  have hnew : adminRole ∉ user.roles := by simp [hr]
  simp only [makeAdmin,change,hrole,not_true,if_false,hu,hnew,not_false_eq_true,decide_true]
  refine ⟨trivial,hrole,name,{ user with roles := insert adminRole user.roles },?_,Finset.mem_insert_self _ _⟩
  rw [Map.get_insert,if_pos rfl]

theorem bootstrapUser_careful (m : AuthManager) {new : NewUser} {env : Env} {save : Option StoreError} (outcome : BootstrapOutcome)
    (hempty : m.catalog.users.isEmpty) (h : m.Registers new env → adminRole ∈ m.catalog.roles ∧ save = none) :
    Careful m (m.bootstrapUser new env save outcome) ∧
      ∀ o, (m.bootstrapUser new env save outcome).1 = .ok o → (m.bootstrapUser new env save outcome).2.catalog.HasAdmin := by
  obtain ⟨e,hc⟩ | ⟨hreg,user,hroles,hc⟩ := createUser_first hempty new env
  · simp only [bootstrapUser,hc]
    exact ⟨.refl e,fun o ho => by cases ho⟩
  · obtain ⟨hrole,rfl⟩ := h hreg
    have hcreated := m.createUser_careful new env
    rw [hc] at hcreated
    simp only [bootstrapUser,hc]
    generalize hm' : ({ m with
      stored := some { m.catalog with users := m.catalog.users.insert new.name user },
      catalog := { m.catalog with users := m.catalog.users.insert new.name user },
      generation := m.generation+1 } : AuthManager) = m' at *
    have hu : m'.catalog.users[new.name]? = some user := by
      subst hm'
      rw [Map.get_insert,if_pos rfl]
    have hrole' : adminRole ∈ m'.catalog.roles := by
      subst hm'
      exact hrole
    have hadmin := m'.makeAdmin_careful new.name none
    obtain ⟨hok,hhas⟩ := makeAdmin_first hu hroles hrole'
    generalize m'.makeAdmin new.name none = q at *
    obtain ⟨r,m''⟩ := q
    obtain rfl : r = .ok () := hok
    refine ⟨⟨fun e he => (by cases he),fun hm => ?_,fun hm => ?_⟩,fun o _ => hhas⟩
    · exact hadmin.current (hcreated.current hm)
    · exact hadmin.sound (hcreated.sound hm)

/-- Whom a bootstrap creates. -/
def Bootstrap.newUser (spec : Bootstrap) (password : String) : Option NewUser :=
  match spec with
  | .disabled => none
  | .admin user password => some { name := user, password := password, changeRequired := false }
  | .generated => some { name := "neo4j", password := password }

theorem bootstrap_careful (m : AuthManager) (spec : Bootstrap) (password : String) (env : Env) (save : Option StoreError)
    (h : m.catalog.users.isEmpty → ∀ new, Bootstrap.newUser spec password = some new → m.Registers new env →
      adminRole ∈ m.catalog.roles ∧ save = none) :
    Careful m (m.bootstrap spec password env save) ∧
      ((spec ≠ .disabled ∧ m.catalog.users.isEmpty) →
        ∀ o, (m.bootstrap spec password env save).1 = .ok o → (m.bootstrap spec password env save).2.catalog.HasAdmin) := by
  unfold bootstrap
  split_ifs with hoff hinit
  · exact ⟨⟨fun e he => (by cases he),id,id⟩,fun hne => absurd hoff hne.1⟩
  · refine ⟨⟨fun e he => (by cases he),id,id⟩,fun hne => ?_⟩
    rw [hne.2] at hinit
    cases hinit
  · have hempty : m.catalog.users.isEmpty := by simpa using hinit
    cases spec with
    | disabled => exact absurd rfl hoff
    | admin user password =>
      obtain ⟨hc,ha⟩ := m.bootstrapUser_careful .created hempty (h hempty _ rfl)
      exact ⟨hc,fun _ => ha⟩
    | generated =>
      obtain ⟨hc,ha⟩ := m.bootstrapUser_careful (.generated "neo4j" password) hempty (h hempty _ rfl)
      exact ⟨hc,fun _ => ha⟩

/-! ## Runs -/

def plain (r : Except ManageError Unit × AuthManager) : Except ManageError (Option BootstrapOutcome) × AuthManager :=
  (r.1.map (fun _ => none),r.2)

def apply (m : AuthManager) (c : ManagerCall) : Except ManageError (Option BootstrapOutcome) × AuthManager :=
  match c.op with
  | .bootstrap spec password save => ((m.bootstrap spec password c.env save).1.map some,(m.bootstrap spec password c.env save).2)
  | .createUser new => plain (m.createUser new c.env)
  | .alterUser name alter => plain (m.alterUser name alter c.env)
  | .dropUser name ifExists => plain (m.dropUser name ifExists c.env)
  | .changeOwnPassword name current new => plain (m.changeOwnPassword name current new c.env)
  | .createRole name ifNotExists copyOf => plain (m.createRole name ifNotExists copyOf c.env)
  | .dropRole name ifExists => plain (m.dropRole name ifExists c.env)
  | .renameRole fromName toName ifExists => plain (m.renameRole fromName toName ifExists c.env)
  | .grantRole role user => plain (m.grantRole role user c.env)
  | .revokeRole role user => plain (m.revokeRole role user c.env)
  | .grant access privileges role => plain (m.grant access privileges role c.env)
  | .revoke access privileges role => plain (m.revoke access privileges role c.env)

def run (m : AuthManager) (calls : List ManagerCall) : AuthManager := calls.foldl (fun m c => (m.apply c).2) m

/-- A first user that is registered can also be made an administrator. -/
def Finishes (m : AuthManager) (c : ManagerCall) : Prop :=
  ∀ spec password save new, c.op = .bootstrap spec password save → m.catalog.users.isEmpty →
    Bootstrap.newUser spec password = some new → m.Registers new c.env → adminRole ∈ m.catalog.roles ∧ save = none

theorem apply_careful {m : AuthManager} {c : ManagerCall} (h : m.Finishes c) : Careful m (m.apply c) := by
  obtain ⟨op,env⟩ := c
  cases op with
  | bootstrap spec password save =>
    obtain ⟨hc,-⟩ := m.bootstrap_careful spec password env save
      (fun hempty new hnew hreg => h spec password save new rfl hempty hnew hreg)
    exact hc.map some
  | createUser new => exact (m.createUser_careful new env).map _
  | alterUser name alter => exact (m.alterUser_careful name alter env).map _
  | dropUser name ifExists => exact (m.dropUser_careful name ifExists env).map _
  | changeOwnPassword name current new => exact (m.changeOwnPassword_careful name current new env).map _
  | createRole name ifNotExists copyOf => exact (m.createRole_careful name ifNotExists copyOf env).map _
  | dropRole name ifExists => exact (m.dropRole_careful name ifExists env).map _
  | renameRole fromName toName ifExists => exact (m.renameRole_careful fromName toName ifExists env).map _
  | grantRole role user => exact (m.grantRole_careful role user env).map _
  | revokeRole role user => exact (m.revokeRole_careful role user env).map _
  | grant access privileges role => exact (m.grant_careful access privileges role env).map _
  | revoke access privileges role => exact (m.revoke_careful access privileges role env).map _

theorem apply_bootstrap {m : AuthManager} {c : ManagerCall} {spec : Bootstrap} {password : String} {save : Option StoreError}
    (h : m.Finishes c) (hc : c.op = .bootstrap spec password save) (hspec : spec ≠ .disabled) (hempty : m.catalog.users.isEmpty) :
    (∃ e, (m.apply c).1 = .error e) ∨ (m.apply c).2.catalog.HasAdmin := by
  obtain ⟨-,ha⟩ := m.bootstrap_careful spec password c.env save
    (fun hempty new hnew hreg => h spec password save new hc hempty hnew hreg)
  have hadmin := ha ⟨hspec,hempty⟩
  unfold apply
  rw [hc]
  dsimp only
  generalize m.bootstrap spec password c.env save = q at hadmin ⊢
  obtain ⟨r,m'⟩ := q
  cases r with
  | error e => exact .inl ⟨e,rfl⟩
  | ok o => exact .inr (hadmin o rfl)

theorem bootstrap_founds {m : AuthManager} {spec : Bootstrap} {password : String} {env : Env} {save : Option StoreError}
    {o : BootstrapOutcome} (h : (m.bootstrap spec password env save).1 = .ok o) (ho : o ≠ .disabled) (ho' : o ≠ .alreadyInitialised) :
    spec ≠ .disabled ∧ m.catalog.users.isEmpty := by
  unfold bootstrap at h
  split_ifs at h with hoff hinit
  · exact absurd (Except.ok.inj h).symm ho
  · exact absurd (Except.ok.inj h).symm ho'
  · exact ⟨hoff,by simpa using hinit⟩

/-- What a store may hold: a catalog of the manager's own, or one from before the roles. -/
def Readable (c : Catalog) : Prop :=
  if c.formatVersion < catalogFormat then c.roles = builtinRoles ∧ ∀ (n : String) (u : User), c.users[n]? = some u → u.roles = ∅
  else c.Sound

/-- A manager just opened, with whatever policies. -/
def Started (m : AuthManager) : Prop :=
  ∃ stored save m₀ minLength lockout sessions, (∀ c, stored = some c → Readable c) ∧ «open» (.ok stored) save = .ok m₀ ∧
    m = ((m₀.withPolicy minLength).withLockout lockout).withSessions sessions

/-- The claim about a run: what is refused changes nothing, the catalog is what the store accepted last
and sound, and a bootstrap that founds a catalog, or is tried again, leaves an administrator. -/
structure Orderly (m : AuthManager) (calls : List ManagerCall) : Prop where
  refused : ∀ before call after e, calls = before ++ call :: after → ((m.run before).apply call).1 = .error e →
    ((m.run before).apply call).2.catalog = (m.run before).catalog
  current : ∀ before after, calls = before ++ after → (m.run before).catalog = (m.run before).stored.getD {}
  sound : ∀ before after, calls = before ++ after → (m.run before).catalog.Sound
  founded : ∀ before call after o, calls = before ++ call :: after → ((m.run before).apply call).1 = .ok (some o) →
    o ≠ .disabled → o ≠ .alreadyInitialised → ((m.run before).apply call).2.catalog.HasAdmin
  retried : ∀ before call again after spec password save spec' password' save' e, calls = before ++ call :: again :: after →
    call.op = .bootstrap spec password save → (m.run before).catalog.users.isEmpty → ((m.run before).apply call).1 = .error e →
    again.op = .bootstrap spec' password' save' → spec' ≠ .disabled →
    (∃ e', ((m.run (before ++ [call])).apply again).1 = .error e') ∨ ((m.run (before ++ [call])).apply again).2.catalog.HasAdmin

omit [PasswordHash] in
theorem Started.intact {m : AuthManager} (h : m.Started) : m.catalog = m.stored.getD {} ∧ m.catalog.Sound := by
  obtain ⟨stored,save,m₀,minLength,lockout,sessions,hread,hopen,rfl⟩ := h
  show m₀.catalog = m₀.stored.getD {} ∧ m₀.catalog.Sound
  simp only [«open»] at hopen
  split_ifs at hopen with hold
  · cases save with
    | some e => cases hopen
    | none =>
      obtain rfl := Except.ok.inj hopen
      refine ⟨rfl,?_⟩
      cases stored with
      | none => exact absurd hold (by decide)
      | some c =>
        have hr := hread c rfl
        rw [Readable,if_pos (show c.formatVersion < catalogFormat from hold)] at hr
        obtain ⟨hroles,hnone⟩ := hr
        show (upgrade c).Sound
        refine Catalog.rework_sound ?_ ?_ ?_
        · intro n u hu r hr
          rw [hnone n u hu,Finset.mem_insert] at hr
          obtain rfl | hr := hr
          · rw [hroles]
            decide +kernel
          · simp at hr
        · rw [hroles]
          decide +kernel
        · intro n u hu hr
          rw [hnone n u hu,Finset.mem_insert] at hr
          obtain hr | hr := hr
          · exact absurd hr (by decide)
          · simp at hr
  · obtain rfl := Except.ok.inj hopen
    refine ⟨rfl,?_⟩
    cases stored with
    | none => exact Catalog.fresh_sound
    | some c =>
      have hr := hread c rfl
      rw [Readable,if_neg (show ¬c.formatVersion < catalogFormat from hold)] at hr
      exact hr

theorem run_intact {m : AuthManager} (h : m.catalog = m.stored.getD {} ∧ m.catalog.Sound) (calls : List ManagerCall)
    (hf : ∀ before call after, calls = before ++ call :: after → (m.run before).Finishes call) :
    (m.run calls).catalog = (m.run calls).stored.getD {} ∧ (m.run calls).catalog.Sound := by
  induction calls using List.reverseRecOn with
  | nil => exact h
  | append_singleton calls call ih =>
    have hcall := apply_careful (hf calls call [] rfl)
    obtain ⟨hcur,hsound⟩ := ih (fun before c after heq => hf before c (after ++ [call]) (by rw [heq]; simp))
    rw [run,List.foldl_append]
    exact ⟨hcall.current hcur,hcall.sound hsound⟩

/-- A run in which every first user registered can be made an administrator is orderly. -/
theorem run_orderly {m : AuthManager} (h : m.Started) (calls : List ManagerCall)
    (hf : ∀ before call after, calls = before ++ call :: after → (m.run before).Finishes call) : m.Orderly calls where
  refused before call after e heq he := (apply_careful (hf before call after heq)).refused e he
  current before after heq := (run_intact h.intact before (fun b c a hb => hf b c (a ++ after) (by rw [heq,hb]; simp))).1
  sound before after heq := (run_intact h.intact before (fun b c a hb => hf b c (a ++ after) (by rw [heq,hb]; simp))).2
  founded before call after o heq ho hne hne' := by
    obtain ⟨spec,password,save,hop⟩ : ∃ spec password save, call.op = .bootstrap spec password save := by
      unfold apply at ho
      cases hop : call.op with
      | bootstrap spec password save => exact ⟨spec,password,save,rfl⟩
      | _ =>
        rw [hop] at ho
        simp only [plain,Except.map] at ho
        split at ho <;> cases ho
    have hok : ((m.run before).bootstrap spec password call.env save).1 = .ok o := by
      simp only [apply,hop,Except.map] at ho
      split at ho
      · cases ho
      · rename_i heq'
        rw [heq']
        exact congrArg _ (Option.some.inj (Except.ok.inj ho))
    obtain ⟨hspec,hempty⟩ := bootstrap_founds hok hne hne'
    obtain ⟨e,he⟩ | ha := apply_bootstrap (hf before call after heq) hop hspec hempty
    · rw [ho] at he
      cases he
    · exact ha
  retried before call again after spec password save spec' password' save' e heq hop hempty he hop' hspec := by
    have hsame := (apply_careful (hf before call (again :: after) heq)).refused e he
    have hrun : m.run (before ++ [call]) = ((m.run before).apply call).2 := by
      rw [run,List.foldl_append]
      rfl
    refine apply_bootstrap (hf (before ++ [call]) again after (by rw [heq]; simp)) hop' hspec ?_
    rw [hrun,hsame]
    exact hempty

end AuthManager

/-! ## Samples -/
section Samples

/-- A hash that keeps the password, for runs of the samples. -/
local instance keptHash : PasswordHash where
  hashPassword password _ := .ok password
  verifyPassword password passwordHash := password = passwordHash

/-- A manager on an empty store. -/
def freshManager : AuthManager := { stored := none, catalog := {} }

theorem freshManager_started : freshManager.Started :=
  ⟨none,none,freshManager,8,{},{},fun c hc => (by cases hc),rfl,rfl⟩

def annSpec : Bootstrap := .admin "ann" "first-password"

def bootstrapCall (save : Option StoreError) : ManagerCall := { op := .bootstrap annSpec "" save }

theorem run_orderly_sample : freshManager.Orderly [bootstrapCall none] := by
  refine AuthManager.run_orderly freshManager_started _ ?_
  intro before call after heq spec password save new hop hempty hnew hreg
  obtain ⟨rfl,rfl,rfl⟩ : before = [] ∧ call = bootstrapCall none ∧ after = [] := by
    cases before with
    | nil =>
      obtain ⟨rfl,rfl⟩ := List.cons.inj heq
      exact ⟨rfl,rfl,rfl⟩
    | cons c before => simp at heq
  obtain ⟨-,-,rfl⟩ := Op.bootstrap.inj hop
  exact ⟨by decide +kernel,rfl⟩

/-- The store refuses the second save: the bootstrap fails, and its user stays. -/
theorem half_bootstrap_kept : ¬∀ (m : AuthManager) (calls : List ManagerCall), m.Started → m.Orderly calls := by
  intro h
  have hbad := (h freshManager [bootstrapCall (some (.io "users.json" "no space left"))] freshManager_started).refused []
    (bootstrapCall (some (.io "users.json" "no space left"))) [] (.store (.io "users.json" "no space left")) rfl
    (by decide +kernel)
  have hsize := congrArg (fun c => c.users.size) hbad
  exact absurd hsize (by decide +kernel)

end Samples

end Drevo.Auth
