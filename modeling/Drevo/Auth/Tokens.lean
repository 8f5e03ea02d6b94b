import Drevo.Auth.Server

/-! The session tokens. A change of a user's credentials ends the sessions that are there; a token
outlives it exactly where its login read the record before and the token comes after. -/
namespace Drevo.Auth
open Lib Std

/-- Every user is kept under the user's own name. -/
def Catalog.Named (c : Catalog) : Prop := ∀ (n : String) (u : User), c.users[n]? = some u → u.name = n

theorem Catalog.Named.put {c : Catalog} (h : c.Named) {name : String} {user : User} (hu : user.name = name) :
    { c with users := c.users.insert name user }.Named := by
  intro n u hn
  rw [Map.get_insert] at hn
  split_ifs at hn with heq
  · obtain rfl := Option.some.inj hn
    exact hu.trans heq
  · exact h n u hn

theorem Catalog.Named.drop {c : Catalog} (h : c.Named) (name : String) : { c with users := c.users.erase name }.Named := by
  intro n u hn
  rw [Map.get_erase] at hn
  split_ifs at hn
  exact h n u hn

namespace AuthManager

theorem change_named {m : AuthManager} {edit : Edit} (hedit : ∀ c next, c.Named → edit c = .ok (next,true) → next.Named)
    (save : Option StoreError) (h : m.catalog.Named) : (m.change edit save).2.catalog.Named := by
  unfold change
  split
  · exact h
  · exact h
  · rename_i next hnext
    split
    · exact h
    · exact hedit _ _ h hnext

theorem resume_catalog (m : AuthManager) (token : String) (now : I64) : (m.resume token now).2.catalog = m.catalog := by
  unfold resume
  split
  · rfl
  · dsimp only
    split
    · rfl
    · split_ifs <;> rfl

theorem resume_sessions (m : AuthManager) (token : String) (now : I64) {t : String} {session' : Session}
    (h : (m.resume token now).2.sessions[t]? = some session') : ∃ session, m.sessions[t]? = some session ∧ session'.user = session.user := by
  unfold resume at h
  split at h
  · exact ⟨session',h,rfl⟩
  · rename_i session hs
    have herase : (m.sessions.erase token)[t]? = some session' → ∃ session, m.sessions[t]? = some session ∧ session'.user = session.user := by
      intro he
      rw [Map.get_erase] at he
      split_ifs at he
      exact ⟨session',he,rfl⟩
    dsimp only at h
    split at h
    · exact herase h
    · split_ifs at h
      · dsimp only at h
        rw [Map.get_insert] at h
        split_ifs at h with heq
        · obtain rfl := Option.some.inj h
          exact ⟨session,heq ▸ hs,rfl⟩
        · exact ⟨session',h,rfl⟩
      · exact herase h

theorem resume_user {m : AuthManager} (hn : m.catalog.Named) {token : String} {now : I64} {p : Principal}
    (h : (m.resume token now).1 = .ok p) : ∃ session, m.sessions[token]? = some session ∧ p.name = session.user := by
  unfold resume at h
  split at h
  · cases h
  · rename_i session hs
    dsimp only at h
    split at h
    · cases h
    · rename_i user hu
      split_ifs at h
      obtain rfl := Except.ok.inj h
      exact ⟨session,hs,hn _ _ hu⟩

theorem revokeSessionsOf_get {m : AuthManager} {name t : String} {session : Session}
    (h : (m.revokeSessionsOf name).2.sessions[t]? = some session) : m.sessions[t]? = some session ∧ session.user ≠ name := by
  simp only [revokeSessionsOf,ExtTreeMap.getElem?_filter',Option.filter_eq_some_iff,decide_eq_true_eq] at h
  exact h

section Users
variable [PasswordHash]

theorem createUser_named {m : AuthManager} (h : m.catalog.Named) (new : NewUser) (env : Env) : (m.createUser new env).2.catalog.Named := by
  unfold createUser
  split
  · exact h
  · refine change_named (fun c next hc hedit => ?_) _ h
    dsimp only at hedit
    split_ifs at hedit
    · cases hedit
    · cases hp : m.checkPolicy new.password with
      | error e => simp [hp,bind,Except.bind] at hedit
      | ok u =>
        cases hh : hash new.password env.salt with
        | error e => simp [hp,hh,bind,Except.bind] at hedit
        | ok passwordHash =>
          simp only [hp,hh,bind,Except.bind,Except.ok.injEq,Prod.mk.injEq,and_true] at hedit
          rw [← hedit]
          exact hc.put rfl

theorem alterPassword_name {m : AuthManager} {user user' : User} {password : Option String} {env : Env}
    (h : m.alterPassword user password env = .ok user') : user'.name = user.name := by
  unfold alterPassword at h
  cases password with
  | none =>
    obtain rfl := Except.ok.inj h
    rfl
  | some password =>
    simp only [bind,Except.bind,throw,throwThe,MonadExceptOf.throw] at h
    repeat' split at h
    all_goals first | cases h; done | (obtain rfl := Except.ok.inj h; rfl)

theorem alterRecord_named {m : AuthManager} (h : m.catalog.Named) (name : String) (alter : AlterUser) (env : Env) :
    (m.alterRecord name alter env).2.catalog.Named := by
  refine change_named (fun c next hc hedit => ?_) _ h
  dsimp only at hedit
  split at hedit
  · cases hedit
  · rename_i user hu
    cases ha : m.alterPassword user alter.password env with
    | error e => simp [ha,bind,Except.bind] at hedit
    | ok user' =>
      simp only [ha,bind,Except.bind,Except.ok.injEq,Prod.mk.injEq,and_true] at hedit
      rw [← hedit]
      exact hc.put ((alterPassword_name ha).trans (hc name user hu))

theorem changePassword_named {m : AuthManager} (h : m.catalog.Named) (name current new : String) (env : Env) :
    (m.changePassword name current new env).2.catalog.Named := by
  refine change_named (fun c next hc hedit => ?_) _ h
  dsimp only at hedit
  split at hedit
  · cases hedit
  · rename_i user hu
    obtain ⟨hu,-⟩ := Option.filter_eq_some_iff.mp hu
    simp only [bind,Except.bind,throw,throwThe,MonadExceptOf.throw] at hedit
    repeat' split at hedit
    all_goals try cases hedit; done
    obtain ⟨rfl,-⟩ := Prod.mk.inj (Except.ok.inj hedit)
    exact hc.put (hc name user hu)

omit [PasswordHash] in
theorem dropRecord_named {m : AuthManager} (h : m.catalog.Named) (name : String) (ifExists : Bool) (env : Env) :
    (m.dropRecord name ifExists env).2.catalog.Named := by
  refine change_named (fun c next hc hedit => ?_) _ h
  split_ifs at hedit
  · obtain ⟨rfl,-⟩ := Prod.mk.inj (Except.ok.inj hedit)
    exact hc.drop name
  · cases hedit

end Users

end AuthManager

/-! ## The history of the credentials -/

/-- How often the credentials of a user were ended, and which of these times each login, each token and
each change is about. -/
structure Ages where
  /-- How often the user's password was changed, or the user suspended or dropped. -/
  era : String → ℕ := fun _ => 0
  /-- For a login the era of the record it read, for a change the era that it began. -/
  call : ℕ → ℕ := fun _ => 0
  token : String → ℕ := fun _ => 0
  /-- The last era for which sessions were revoked. -/
  revoked : String → ℕ := fun _ => 0
  /-- The last era whose call has returned. -/
  returned : String → ℕ := fun _ => 0

namespace Ages

/-- The credentials of the user are ended by the call `i`. -/
def endEra (A : Ages) (name : String) (i : ℕ) : Ages :=
  { A with era := Function.update A.era name (A.era name+1), call := Function.update A.call i (A.era name+1) }

def raise (f : String → ℕ) (name : String) (n : ℕ) : String → ℕ := Function.update f name (max (f name) n)

theorem le_raise (f : String → ℕ) (name : String) (n : ℕ) (other : String) : f other ≤ raise f name n other := by
  unfold raise
  by_cases h : other = name
  · subst h
    simp
  · simp [h]

theorem raise_le {f g : String → ℕ} {name : String} {n : ℕ} (h : ∀ other, f other ≤ g other) (hn : n ≤ g name) (other : String) :
    raise f name n other ≤ g other := by
  unfold raise
  by_cases hother : other = name
  · subst hother
    simp [h other,hn]
  · simp [hother,h other]

end Ages

namespace Server
variable [PasswordHash]

/-- The history after a step. -/
def agesAfter (s : Server) (a : Act) (A : Ages) : Ages :=
  match a with
  | .lookup i =>
    match s.calls[i]? with
    | some (.checked name _ _) => { A with call := Function.update A.call i (A.era name) }
    | _ => A
  | .issue i token => { A with token := Function.update A.token token (A.call i) }
  | .alterUser name alter env =>
    if (s.manager.alterRecord name alter env).1.isOk && alter.endsSessions then A.endEra name s.calls.length else A
  | .changeOwnPassword name current new env =>
    if (s.manager.changePassword name current new env).1.isOk then A.endEra name s.calls.length else A
  | .dropUser name ifExists env =>
    if (s.manager.dropRecord name ifExists env).1.isOk && decide (name ∈ s.manager.catalog.users) then A.endEra name s.calls.length
    else { A with call := Function.update A.call s.calls.length 0 }
  | .revoke i =>
    match s.calls[i]? with
    | some (.changed name true) => { A with revoked := Ages.raise A.revoked name (A.call i) }
    | some (.changed name false) =>
      { A with revoked := Ages.raise A.revoked name (A.call i), returned := Ages.raise A.returned name (A.call i) }
    | _ => A
  | .forget i =>
    match s.calls[i]? with
    | some (.revoked name) => { A with returned := Ages.raise A.returned name (A.call i) }
    | _ => A
  | _ => A

/-- A token is issued only while no sessions were revoked for an era later than the record that its
login read. -/
def Timely (s : Server) (A : Ages) (a : Act) : Prop :=
  match a with
  | .issue i _ => ∀ name, s.calls[i]? = some (.admitted name) → A.revoked name ≤ A.call i
  | _ => True

/-- No token resumes whose login verified a password that a call has changed, or a user whom one has
suspended or dropped, when that call has returned. -/
def TokensEnd (s : Server) (A : Ages) : Prop :=
  ∀ token p, (s.manager.resume token s.clock).1 = .ok p → A.returned p.name ≤ A.token token

structure TokenInv (s : Server) (A : Ages) : Prop where
  named : s.manager.catalog.Named
  sessions : ∀ (t : String) (session : Session), s.manager.sessions[t]? = some session → A.revoked session.user ≤ A.token t
  returned : ∀ name, A.returned name ≤ A.revoked name
  calls : ∀ (i : ℕ) (name : String), s.calls[i]? = some (.revoked name) → A.call i ≤ A.revoked name

inductive TokenRun (ok : Server → Ages → Act → Prop) (s₀ : Server) : Server → Ages → Prop where
  | start : TokenRun ok s₀ s₀ {}
  | step {s s' A} (a : Act) : TokenRun ok s₀ s A → ok s A a → s.step a = some s' → TokenRun ok s₀ s' (s.agesAfter a A)

omit [PasswordHash] in
theorem TokenInv.ends {s : Server} {A : Ages} (h : s.TokenInv A) : s.TokensEnd A := by
  intro token p hp
  obtain ⟨session,hs,hname⟩ := AuthManager.resume_user h.named hp
  rw [hname]
  exact (h.returned _).trans (h.sessions token session hs)

omit [PasswordHash] in
theorem TokenInv.opened {s : Server} {A A' : Ages} (h : s.TokenInv A) {c : Call} {m : AuthManager} (hn : m.catalog.Named)
    (hs : ∀ (t : String) (session' : Session), m.sessions[t]? = some session' →
      ∃ session, s.manager.sessions[t]? = some session ∧ session'.user = session.user)
    (hc : ∀ name, c ≠ .revoked name) (ht : A'.token = A.token) (hr : A'.revoked = A.revoked) (hret : A'.returned = A.returned)
    (hcall : ∀ i < s.calls.length, A'.call i = A.call i) : (s.open c m).TokenInv A' where
  named := hn
  sessions t session' hget := by
    obtain ⟨session,hold,hu⟩ := hs t session' hget
    rw [ht,hr,hu]
    exact h.sessions t session hold
  returned name := by
    rw [hret,hr]
    exact h.returned name
  calls i name hi := by
    have hi' : (s.calls ++ [c])[i]? = some (.revoked name) := hi
    obtain hlt | hge := lt_or_ge i s.calls.length
    · rw [List.getElem?_append_left hlt] at hi'
      rw [hcall i hlt,hr]
      exact h.calls i name hi'
    · rw [List.getElem?_append_right hge,List.getElem?_singleton] at hi'
      split_ifs at hi'
      exact absurd (Option.some.inj hi') (hc name)

omit [PasswordHash] in
theorem TokenInv.moved {s : Server} {A A' : Ages} (h : s.TokenInv A) {i : ℕ} {c : Call} {m : AuthManager}
    (hcat : m.catalog = s.manager.catalog) (hs : m.sessions = s.manager.sessions) (hc : ∀ name, c ≠ .revoked name)
    (ht : A'.token = A.token) (hr : A'.revoked = A.revoked) (hret : ∀ name, A'.returned name ≤ A.revoked name)
    (hcall : ∀ j, j ≠ i → A'.call j = A.call j) : ({ s with manager := m, calls := s.calls.set i c } : Server).TokenInv A' where
  named := by
    show m.catalog.Named
    rw [hcat]
    exact h.named
  sessions t session hget := by
    rw [ht,hr]
    exact h.sessions t session (hs ▸ hget)
  returned name := by
    rw [hr]
    exact hret name
  calls j name hj := by
    have hj' : (s.calls.set i c)[j]? = some (.revoked name) := hj
    by_cases hij : i = j
    · subst hij
      rw [List.getElem?_set,if_pos rfl] at hj'
      split_ifs at hj'
      exact absurd (Option.some.inj hj') (hc name)
    · rw [List.getElem?_set_ne hij] at hj'
      rw [hcall j (Ne.symm hij),hr]
      exact h.calls j name hj'

omit [PasswordHash] in
theorem change_sessions (m : AuthManager) (edit : Edit) (save : Option StoreError) : (m.change edit save).2.sessions = m.sessions := by
  unfold AuthManager.change
  split
  · rfl
  · rfl
  · split <;> rfl

theorem createUser_sessions (m : AuthManager) (new : NewUser) (env : Env) : (m.createUser new env).2.sessions = m.sessions := by
  unfold AuthManager.createUser
  split
  · rfl
  · exact change_sessions m _ _

omit [PasswordHash] in
theorem afterChange_ne {r : Except ManageError Unit} {rest : Call} (h : ∀ name, rest ≠ .revoked name) (name : String) :
    afterChange r rest ≠ .revoked name := by
  unfold afterChange
  split
  · simp
  · exact h name

omit [PasswordHash] in
theorem endEra_call (A : Ages) (name : String) {i n : ℕ} (h : i < n) : (A.endEra name n).call i = A.call i := by
  simp [Ages.endEra,Nat.ne_of_lt h]

omit [PasswordHash] in
theorem TokenInv.changed {s : Server} {A : Ages} (h : s.TokenInv A) {r : Except ManageError Unit × AuthManager} (rest : Call)
    (hn : r.2.catalog.Named) (hs : r.2.sessions = s.manager.sessions) (hrest : ∀ name, rest ≠ .revoked name) {name : String} (ends : Bool) :
    (s.open (afterChange r.1 rest) r.2).TokenInv (if ends then A.endEra name s.calls.length else A) := by
  refine h.opened hn (fun t session hget => ⟨session,hs ▸ hget,rfl⟩) (afterChange_ne hrest) ?_ ?_ ?_ ?_
  · split_ifs <;> rfl
  · split_ifs <;> rfl
  · split_ifs <;> rfl
  · intro i hi
    split_ifs
    · exact endEra_call A name hi
    · rfl

theorem TokenInv.step {s s' : Server} {A : Ages} {a : Act} (h : s.TokenInv A) (hstep : s.step a = some s') (ht : s.Timely A a) :
    s'.TokenInv (s.agesAfter a A) := by
  cases a with
  | tick now =>
    obtain rfl := Option.some.inj hstep
    exact ⟨h.named,h.sessions,h.returned,h.calls⟩
  | login n password =>
    simp only [Server.step] at hstep
    split at hstep
    · obtain rfl := Option.some.inj hstep
      exact h.opened h.named (fun t session hget => ⟨session,hget,rfl⟩) (by simp) rfl rfl rfl (fun _ _ => rfl)
    · obtain rfl := Option.some.inj hstep
      exact h.opened h.named (fun t session hget => ⟨session,hget,rfl⟩) (by simp) rfl rfl rfl (fun _ _ => rfl)
  | lookup i =>
    obtain ⟨c,q,hi,hq,rfl⟩ := proceed_cases hstep
    obtain ⟨c',hc,rfl⟩ := Option.map_eq_some_iff.mp hq
    cases c with
    | checked n password now =>
      simp only [agesAfter,hi]
      refine h.moved rfl rfl ?_ rfl rfl h.returned (fun j hj => Function.update_of_ne hj _ _)
      intro name
      simp only [Call.lookup] at hc
      split at hc <;> obtain rfl := Option.some.inj hc <;> simp
    | _ => cases hc
  | verify i =>
    obtain ⟨c,q,hi,hq,rfl⟩ := proceed_cases hstep
    obtain ⟨c',hc,rfl⟩ := Option.map_eq_some_iff.mp hq
    refine h.moved rfl rfl ?_ rfl rfl h.returned (fun _ _ => rfl)
    intro name
    cases c with
    | found n password now user =>
      simp only [Call.verify] at hc
      split_ifs at hc <;> obtain rfl := Option.some.inj hc <;> simp
    | _ => cases hc
  | settle i =>
    obtain ⟨c,⟨c',m'⟩,hi,hq,rfl⟩ := proceed_cases hstep
    obtain ⟨hcat,hs,hne⟩ : m'.catalog = s.manager.catalog ∧ m'.sessions = s.manager.sessions ∧ ∀ name, c' ≠ .revoked name := by
      cases c with
      | wrong n now =>
        obtain ⟨rfl,rfl⟩ := Prod.mk.inj (Option.some.inj hq)
        unfold AuthManager.recordFailure
        split_ifs
        · exact ⟨rfl,rfl,by simp⟩
        · dsimp only
          split_ifs
          · exact ⟨rfl,rfl,by simp⟩
          · exact ⟨rfl,rfl,by simp⟩
      | right n user =>
        simp only [Call.settle] at hq
        split_ifs at hq <;> obtain ⟨rfl,rfl⟩ := Prod.mk.inj (Option.some.inj hq) <;> exact ⟨rfl,rfl,by simp⟩
      | _ => cases hq
    exact h.moved hcat hs hne rfl rfl h.returned (fun _ _ => rfl)
  | probe i =>
    obtain ⟨c,q,hi,hq,rfl⟩ := proceed_cases hstep
    obtain ⟨c',hc,rfl⟩ := Option.map_eq_some_iff.mp hq
    refine h.moved rfl rfl ?_ rfl rfl h.returned (fun _ _ => rfl)
    intro name
    cases c with
    | loggedIn p =>
      simp only [Call.probe] at hc
      split_ifs at hc <;> obtain rfl := Option.some.inj hc <;> simp
    | _ => cases hc
  | issue i token =>
    obtain ⟨c,q,hi,hq,rfl⟩ := proceed_cases hstep
    cases c with
    | admitted n =>
      obtain rfl := Option.some.inj hq
      have htimely : A.revoked n ≤ A.call i := ht n hi
      have hmoved := h.moved (c := .done (.session (some token))) (i := i) rfl rfl (by simp) rfl rfl h.returned (fun _ _ => rfl)
      refine ⟨h.named,fun t session hget => ?_,h.returned,hmoved.calls⟩
      have hget' : (s.manager.sessions.insert token _)[t]? = some session := hget
      rw [Map.get_insert] at hget'
      split_ifs at hget' with heq
      · obtain rfl := Option.some.inj hget'
        subst heq
        simpa [agesAfter] using htimely
      · have hsame : (s.agesAfter (.issue i token) A).token t = A.token t := Function.update_of_ne (Ne.symm heq) _ _
        rw [hsame]
        exact h.sessions t session hget'
    | _ => cases hq
  | resume token =>
    obtain rfl := Option.some.inj hstep
    refine h.opened ?_ (fun t session hget => s.manager.resume_sessions token s.clock hget) (by simp) rfl rfl rfl (fun _ _ => rfl)
    rw [AuthManager.resume_catalog]
    exact h.named
  | createUser new env =>
    obtain rfl := Option.some.inj hstep
    refine h.opened (AuthManager.createUser_named h.named new env) (fun t session hget => ⟨session,?_,rfl⟩)
      (afterChange_ne (by simp)) rfl rfl rfl (fun _ _ => rfl)
    rw [createUser_sessions] at hget
    exact hget
  | alterUser n alter env =>
    obtain rfl := Option.some.inj hstep
    exact h.changed _ (AuthManager.alterRecord_named h.named n alter env) (change_sessions _ _ _) (by intro name; split_ifs <;> simp) _
  | changeOwnPassword n current new env =>
    obtain rfl := Option.some.inj hstep
    exact h.changed _ (AuthManager.changePassword_named h.named n current new env) (change_sessions _ _ _) (by simp) _
  | dropUser n ifExists env =>
    obtain rfl := Option.some.inj hstep
    have hn := AuthManager.dropRecord_named h.named n ifExists env
    have hs : (s.manager.dropRecord n ifExists env).2.sessions = s.manager.sessions := change_sessions _ _ _
    simp only [agesAfter]
    split_ifs
    · exact h.changed (.changed n true) hn hs (by simp) true
    · exact h.opened hn (fun t session hget => ⟨session,hs ▸ hget,rfl⟩) (afterChange_ne (by simp)) rfl rfl rfl
        (fun i hi => Function.update_of_ne (Nat.ne_of_lt hi) _ _)
  | revoke i =>
    obtain ⟨c,⟨c',m'⟩,hi,hq,rfl⟩ := proceed_cases hstep
    cases c with
    | changed n drops =>
      have hrevoked : (s.agesAfter (.revoke i) A).revoked = Ages.raise A.revoked n (A.call i) := by
        cases drops <;> simp only [agesAfter,hi]
      have hcall : (s.agesAfter (.revoke i) A).call = A.call := by
        cases drops <;> simp only [agesAfter,hi]
      have htoken : (s.agesAfter (.revoke i) A).token = A.token := by
        cases drops <;> simp only [agesAfter,hi]
      have hreturned : ∀ name, (s.agesAfter (.revoke i) A).returned name ≤ Ages.raise A.revoked n (A.call i) name := by
        cases drops with
        | true =>
          simp only [agesAfter,hi]
          exact fun name => (h.returned name).trans (Ages.le_raise _ _ _ name)
        | false =>
          simp only [agesAfter,hi]
          refine Ages.raise_le (fun name => (h.returned name).trans (Ages.le_raise _ _ _ name)) ?_
          simp [Ages.raise]
      obtain rfl : m' = (s.manager.revokeSessionsOf n).2 := by
        cases drops <;> exact (Prod.mk.inj (Option.some.inj hq)).2.symm
      refine ⟨h.named,fun t session hget => ?_,fun name => ?_,fun j name hj => ?_⟩
      · obtain ⟨hold,hne⟩ := AuthManager.revokeSessionsOf_get hget
        rw [hrevoked,htoken,Ages.raise,Function.update_of_ne hne]
        exact h.sessions t session hold
      · rw [hrevoked]
        exact hreturned name
      · have hj' : (s.calls.set i c')[j]? = some (.revoked name) := hj
        rw [hcall,hrevoked]
        by_cases hij : i = j
        · subst hij
          rw [List.getElem?_set,if_pos rfl] at hj'
          split_ifs at hj'
          obtain rfl := Option.some.inj hj'
          cases drops with
          | true =>
            obtain rfl := Call.revoked.inj (Prod.mk.inj (Option.some.inj hq)).1
            simp [Ages.raise]
          | false => cases (Prod.mk.inj (Option.some.inj hq)).1
        · rw [List.getElem?_set_ne hij] at hj'
          exact (h.calls j name hj').trans (Ages.le_raise _ _ _ name)
    | _ => cases hq
  | forget i =>
    obtain ⟨c,q,hi,hq,rfl⟩ := proceed_cases hstep
    cases c with
    | revoked n =>
      obtain rfl := Option.some.inj hq
      simp only [agesAfter,hi]
      exact h.moved rfl rfl (by simp) rfl rfl (Ages.raise_le h.returned (h.calls i n hi)) (fun _ _ => rfl)
    | _ => cases hq

/-- A server that has begun, with the users under their own names and no token issued. -/
structure Unissued (s : Server) : Prop where
  calls : s.calls = []
  sessions : s.manager.sessions = ∅
  named : s.manager.catalog.Named

end Server

/-! ## Samples -/
section Samples

/-- A hash that keeps the password. -/
local instance openHash : PasswordHash where
  hashPassword password _ := .ok password
  verifyPassword password passwordHash := password = passwordHash

def bobManager : AuthManager :=
  { stored := none, catalog := { users := (∅ : Map String User).insert "bob" { name := "bob", passwordHash := "old-password" } } }

def bobServer : Server := { manager := bobManager, clock := I64.saturate 0 }

theorem bobServer_unissued : bobServer.Unissued where
  calls := rfl
  sessions := rfl
  named n u hu := by
    have hget : ((∅ : Map String User).insert "bob" { name := "bob", passwordHash := "old-password" })[n]? = some u := hu
    rw [Map.get_insert] at hget
    split_ifs at hget with hn
    · obtain rfl := Option.some.inj hget
      exact hn
    · simp at hget

/-- The server and the history after the acts. -/
def attend (s : Server) (A : Ages) : List Act → Option (Server × Ages)
  | [] => some (s,A)
  | a :: as =>
    match s.step a with
    | none => none
    | some s' => attend s' (s.agesAfter a A) as

theorem attend_run {ok : Server → Ages → Act → Prop} (hok : ∀ s A a, ok s A a) {s₀ s s' : Server} {A A' : Ages} {as : List Act}
    (h : Server.TokenRun ok s₀ s A) (hs : attend s A as = some (s',A')) : Server.TokenRun ok s₀ s' A' := by
  induction as generalizing s A with
  | nil =>
    obtain ⟨rfl,rfl⟩ := Prod.mk.inj (Option.some.inj hs)
    exact h
  | cons a as ih =>
    simp only [attend] at hs
    cases hstep : s.step a with
    | none =>
      rw [hstep] at hs
      cases hs
    | some s₁ =>
      rw [hstep] at hs
      exact ih (.step a h (hok s A a) hstep) hs

/-- A login is past all of its checks when the password is changed and the sessions are revoked; its token
comes after that. -/
def lateToken : List Act :=
  [.login "bob" "old-password",.lookup 0,.verify 0,.settle 0,.probe 0,
    .alterUser "bob" { password := some "new-password" } {},.revoke 1,.issue 0 "token-1"]

end Samples

end Drevo.Auth
