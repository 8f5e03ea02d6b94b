import Drevo.Auth.Server
import Drevo.Lib.Lockout

/-! The lockout. The lock is read before a password is verified, and a wrong one is counted after that,
each on its own: the lock bounds the guesses as long as no more logins of a user are under way than
failures are left. -/
namespace Drevo.Auth
open Lib Std

/-- A login of the user past its lock check, neither counted nor cleared. -/
def Call.underWay (name : String) : Call → Bool
  | .checked n _ _ | .found n _ _ _ | .wrong n _ | .right n _ => n = name
  | _ => false

/-- One that has verified a wrong password. -/
def Call.missed (name : String) : Call → Bool
  | .wrong n _ => n = name
  | _ => false

theorem Call.underWay_checked (name n password : String) (now : I64) :
    (Call.checked n password now).underWay name = decide (n = name) := rfl

theorem Call.missed_wrong (name n : String) (now : I64) : (Call.wrong n now).missed name = decide (n = name) := rfl

theorem Call.missed_underWay {name : String} {c : Call} (h : c.missed name = true) : c.underWay name = true := by
  cases c with
  | wrong n now => exact h
  | _ => cases h

namespace AuthManager

def failureCount (m : AuthManager) (name : String) : ℕ := ((m.failures[name]?).getD {}).count

theorem lockLeft_congr {m m' : AuthManager} {name : String} (h : m'.failures[name]? = m.failures[name]?) (now : I64) :
    m'.lockLeft name now = m.lockLeft name now := by
  unfold lockLeft
  rw [h]

theorem failureCount_congr {m m' : AuthManager} {name : String} (h : m'.failures[name]? = m.failures[name]?) :
    m'.failureCount name = m.failureCount name := by
  unfold failureCount
  rw [h]

theorem forgetFailures_get (m : AuthManager) (name n : String) :
    (m.forgetFailures name).failures[n]? = if name = n then none else m.failures[n]? := Map.get_erase _ _ _

theorem lockLeft_none {m : AuthManager} {name : String} (h : m.failures[name]? = none) (now : I64) : m.lockLeft name now = none := by
  unfold lockLeft
  rw [h]

theorem failureCount_none {m : AuthManager} {name : String} (h : m.failures[name]? = none) : m.failureCount name = 0 := by
  unfold failureCount
  rw [h]
  rfl

/-- What is done to the catalog or to the sessions leaves failures and lockout alone. -/
structure SameLock (m m' : AuthManager) : Prop where
  failures : m'.failures = m.failures
  lockout : m'.lockout = m.lockout

theorem SameLock.refl (m : AuthManager) : SameLock m m := ⟨rfl,rfl⟩

theorem change_lock (m : AuthManager) (edit : Edit) (save : Option StoreError) : SameLock m (m.change edit save).2 := by
  unfold change
  split
  · exact .refl m
  · exact .refl m
  · split
    · exact .refl m
    · exact ⟨rfl,rfl⟩

theorem resume_lock (m : AuthManager) (token : String) (now : I64) : SameLock m (m.resume token now).2 := by
  unfold resume
  split
  · exact .refl m
  · dsimp only
    split
    · exact ⟨rfl,rfl⟩
    · split_ifs
      · exact ⟨rfl,rfl⟩
      · exact ⟨rfl,rfl⟩

theorem createUser_lock [PasswordHash] (m : AuthManager) (new : NewUser) (env : Env) : SameLock m (m.createUser new env).2 := by
  unfold createUser
  split
  · exact .refl m
  · exact m.change_lock _ _

theorem alterRecord_lock [PasswordHash] (m : AuthManager) (name : String) (alter : AlterUser) (env : Env) :
    SameLock m (m.alterRecord name alter env).2 := m.change_lock _ _

theorem changePassword_lock [PasswordHash] (m : AuthManager) (name current new : String) (env : Env) :
    SameLock m (m.changePassword name current new env).2 := m.change_lock _ _

theorem dropRecord_lock (m : AuthManager) (name : String) (ifExists : Bool) (env : Env) :
    SameLock m (m.dropRecord name ifExists env).2 := m.change_lock _ _

theorem recordFailure_lockout (m : AuthManager) (name : String) (now : I64) :
    (m.recordFailure name now).lockout = m.lockout := by
  unfold recordFailure
  split_ifs
  · rfl
  · dsimp only
    split_ifs <;> rfl

theorem recordFailure_other {m : AuthManager} {name n : String} (h : name ≠ n) (now : I64) :
    (m.recordFailure name now).failures[n]? = m.failures[n]? := by
  unfold recordFailure
  split_ifs
  · rfl
  · dsimp only
    split_ifs
    · exact (Map.get_insert _ _ _ _).trans (if_neg h)
    · exact (Map.get_insert _ _ _ _).trans (if_neg h)

theorem recordFailure_counts {m : AuthManager} {name : String} (now : I64)
    (h : m.failureCount name+1 < m.lockout.maxFailedAttempts) : (m.recordFailure name now).failureCount name = m.failureCount name+1 ∧
      ∀ t : I64, 0 ≤ t.1 → (((m.recordFailure name now).lockLeft name t).isSome ↔ (m.lockLeft name t).isSome) := by
  have hpos : m.lockout.maxFailedAttempts ≠ 0 := by omega
  have hnot : ¬m.lockout.maxFailedAttempts ≤ ((m.failures[name]?).getD {}).count+1 := by
    unfold failureCount at h
    omega
  have hget : (m.recordFailure name now).failures[name]? =
      some { (m.failures[name]?).getD {} with count := ((m.failures[name]?).getD {}).count+1 } := by
    simp only [recordFailure,if_neg hpos,if_neg hnot]
    rw [Map.get_insert,if_pos rfl]
  refine ⟨?_,fun t ht => ?_⟩
  · simp only [failureCount,hget,Option.getD_some]
  · unfold lockLeft
    rw [hget]
    cases hf : m.failures[name]? with
    | none =>
      have hzero : ({} : Failures).lockedUntilMs.1 = 0 := by decide
      have hno : ¬t.1 < ({} : Failures).lockedUntilMs.1 := by omega
      simp [hno]
    | some f =>
      simp only [Option.getD_some]

theorem recordFailure_locks {m : AuthManager} {name : String} (now : I64) (hpos : m.lockout.maxFailedAttempts ≠ 0)
    (h : m.lockout.maxFailedAttempts ≤ m.failureCount name+1) : (m.recordFailure name now).failureCount name = 0 := by
  have hmax : m.lockout.maxFailedAttempts ≤ ((m.failures[name]?).getD {}).count+1 := h
  simp only [recordFailure,if_neg hpos,if_pos hmax,failureCount]
  rw [Map.get_insert,if_pos rfl]
  rfl

end AuthManager

namespace Server
variable [PasswordHash]

def locked (s : Server) (name : String) : Bool := (s.manager.lockLeft name s.clock).isSome

def underWay (s : Server) (name : String) : ℕ := s.calls.countP (Call.underWay name)

def missed (s : Server) (name : String) : ℕ := s.calls.countP (Call.missed name)

/-- The lockout of a user, with the guesses made. -/
def gate (s : Server) (guesses : ℕ) (name : String) : Gate :=
  { count := s.manager.failureCount name, pending := s.underWay name, missed := s.missed name, guesses := guesses, locked := s.locked name }

/-! ## The history of the guesses -/

/-- The step verifies a wrong password of the user. -/
def guessed (s : Server) (a : Act) (name : String) : Bool :=
  match a with
  | .verify i => (s.calls[i]?.bind Call.verify).any (Call.missed name)
  | _ => false

/-- It clears the failures of the user, who has logged in or is dropped. -/
def cleared (s : Server) (a : Act) (name : String) : Bool :=
  match a with
  | .settle i => s.calls[i]?.any (fun c => match c with | .right n _ => n = name | _ => false)
  | .forget i => s.calls[i]?.any (fun c => match c with | .revoked n => n = name | _ => false)
  | _ => false

/-- It records the failure that locks the user. -/
def locks (s : Server) (a : Act) (name : String) : Bool :=
  match a with
  | .settle i => s.calls[i]?.any (Call.missed name) && s.manager.lockout.maxFailedAttempts ≤ s.manager.failureCount name+1
  | _ => false

omit [PasswordHash] in
theorem cleared_wrong {s : Server} {i : ℕ} {n : String} {now : I64} (h : s.calls[i]? = some (.wrong n now)) (name : String) :
    s.cleared (.settle i) name = false := by
  show s.calls[i]?.any _ = _
  rw [h]
  rfl

omit [PasswordHash] in
theorem cleared_right {s : Server} {i : ℕ} {n : String} {user : User} (h : s.calls[i]? = some (.right n user)) (name : String) :
    s.cleared (.settle i) name = decide (n = name) := by
  show s.calls[i]?.any _ = _
  rw [h]
  rfl

omit [PasswordHash] in
theorem cleared_forget {s : Server} {i : ℕ} {n : String} (h : s.calls[i]? = some (.revoked n)) (name : String) :
    s.cleared (.forget i) name = decide (n = name) := by
  show s.calls[i]?.any _ = _
  rw [h]
  rfl

omit [PasswordHash] in
theorem locks_settle {s : Server} {i : ℕ} {c : Call} (h : s.calls[i]? = some c) (name : String) : s.locks (.settle i) name =
    (c.missed name && decide (s.manager.lockout.maxFailedAttempts ≤ s.manager.failureCount name+1)) := by
  show (s.calls[i]?.any _ && _) = _
  rw [h]
  rfl

/-- Wrong passwords of the user that were verified since the last successful login and since the last
lock ran out. -/
def guessesAfter (s : Server) (a : Act) (s' : Server) (name : String) (guesses : ℕ) : ℕ :=
  if s.guessed a name then guesses+1
  else if s.cleared a name || ((s.locked name || s.locks a name) && !s'.locked name) then 0
  else guesses

/-- A login passes the lock check only while a failure is left for it, and the clock is not put back to
before the end of the lock of a user with a login under way, or before 1970. -/
def Spaced (s : Server) (a : Act) : Prop :=
  match a with
  | .login name _ => s.locked name = false → s.manager.failureCount name+s.underWay name < s.manager.lockout.maxFailedAttempts
  | .tick now => 0 ≤ now.1 ∧ ∀ name, 0 < s.underWay name → s.manager.lockLeft name now = none
  | _ => True

/-! ## One step -/

omit [PasswordHash] in
theorem countP_set (p : Call → Bool) {l : List Call} {i : ℕ} {c : Call} (c' : Call) (h : l[i]? = some c) :
    (l.set i c').countP p+(if p c then 1 else 0) = l.countP p+(if p c' then 1 else 0) := by
  induction l generalizing i with
  | nil => simp at h
  | cons d l ih =>
    cases i with
    | zero =>
      obtain rfl := Option.some.inj h
      simp only [List.set_cons_zero,List.countP_cons]
      omega
    | succ i =>
      simp only [List.set_cons_succ,List.countP_cons]
      have := @ih i (by simpa using h)
      omega

omit [PasswordHash] in
theorem countP_keep {p : Call → Bool} {l : List Call} {i : ℕ} {c c' : Call} (h : l[i]? = some c) (hp : p c' = p c) :
    (l.set i c').countP p = l.countP p := by
  have := countP_set p c' h
  rw [hp] at this
  exact Nat.add_right_cancel this

omit [PasswordHash] in
theorem countP_leave {p : Call → Bool} {l : List Call} {i : ℕ} {c c' : Call} (h : l[i]? = some c) (hp : p c = true)
    (hp' : p c' = false) : l.countP p = (l.set i c').countP p+1 := by
  have := countP_set p c' h
  rw [hp,hp',if_pos rfl,if_neg (by decide)] at this
  exact this.symm

omit [PasswordHash] in
theorem missed_le (s : Server) (name : String) : s.missed name ≤ s.underWay name :=
  List.countP_mono_left (fun _ _ h => Call.missed_underWay h)

theorem guessesAfter_keep {s s' : Server} {a : Act} {name : String} (hlocked : s'.locked name = s.locked name)
    (hg : s.guessed a name = false) (hc : s.cleared a name = false) (hl : s.locks a name = false) (g : ℕ) :
    s.guessesAfter a s' name g = g := by
  unfold guessesAfter
  simp [hg,hc,hl,hlocked]

theorem guessesAfter_clear {s : Server} {a : Act} {name : String} (hg : s.guessed a name = false) (hc : s.cleared a name = true)
    (s' : Server) (g : ℕ) : s.guessesAfter a s' name g = 0 := by
  unfold guessesAfter
  simp [hg,hc]

theorem gate_stay {s : Server} (s' : Server) {a : Act} {name : String} (hf : s'.manager.failures[name]? = s.manager.failures[name]?)
    (hclock : s'.clock = s.clock) (hu : s'.underWay name = s.underWay name) (hw : s'.missed name = s.missed name)
    (hg : s.guessed a name = false) (hc : s.cleared a name = false) (hl : s.locks a name = false) (g : ℕ) :
    s'.gate (s.guessesAfter a s' name g) name = s.gate g name := by
  have hlocked : s'.locked name = s.locked name := by
    unfold locked
    rw [hclock,AuthManager.lockLeft_congr hf]
  unfold gate
  rw [guessesAfter_keep hlocked hg hc hl,hlocked,hu,hw,AuthManager.failureCount_congr hf]

omit [PasswordHash] in
theorem open_underWay (s : Server) (c : Call) (m : AuthManager) (name : String) :
    (s.open c m).underWay name = s.underWay name+(if c.underWay name then 1 else 0) := by
  simp only [underWay,«open»,List.countP_append,List.countP_singleton]

omit [PasswordHash] in
theorem open_missed (s : Server) (c : Call) (m : AuthManager) (name : String) :
    (s.open c m).missed name = s.missed name+(if c.missed name then 1 else 0) := by
  simp only [missed,«open»,List.countP_append,List.countP_singleton]

theorem gate_open {s : Server} {a : Act} {c : Call} {m : AuthManager} (hm : AuthManager.SameLock s.manager m) {name : String}
    (hc : c.underWay name = false) (hg : s.guessed a name = false) (hcl : s.cleared a name = false) (hl : s.locks a name = false)
    (g : ℕ) : (s.open c m).gate (s.guessesAfter a (s.open c m) name g) name = s.gate g name := by
  have hw : c.missed name = false := by
    cases h : c.missed name with
    | false => rfl
    | true =>
      rw [Call.missed_underWay h] at hc
      cases hc
  refine @gate_stay _ s (s.open c m) a name ?_ rfl ?_ ?_ hg hcl hl g
  · exact congrArg (fun f => f[name]?) hm.failures
  · simp [open_underWay,hc]
  · simp [open_missed,hw]

theorem gate_set {s : Server} {a : Act} {i : ℕ} {c : Call} (c' : Call) {m : AuthManager} (hi : s.calls[i]? = some c) {name : String}
    (hm : m.failures[name]? = s.manager.failures[name]?) (hu : c'.underWay name = c.underWay name) (hw : c'.missed name = c.missed name)
    (hg : s.guessed a name = false) (hcl : s.cleared a name = false) (hl : s.locks a name = false) (g : ℕ) :
    ({ s with manager := m, calls := s.calls.set i c' } : Server).gate
      (s.guessesAfter a { s with manager := m, calls := s.calls.set i c' } name g) name = s.gate g name := by
  refine @gate_stay _ s { s with manager := m, calls := s.calls.set i c' } a name hm rfl ?_ ?_ hg hcl hl g
  · exact countP_keep hi hu
  · exact countP_keep hi hw

/-- The verification of a password: a wrong one is a guess. -/
theorem gate_verify {s s' : Server} {i : ℕ} (h : s.step (.verify i) = some s') (m : ℕ) (name : String) (g : ℕ) :
    Gate.Move m (s.gate g name) (s'.gate (s.guessesAfter (.verify i) s' name g) name) := by
  obtain ⟨c,q,hi,hq,rfl⟩ := proceed_cases h
  obtain ⟨c',hv,rfl⟩ := Option.map_eq_some_iff.mp hq
  have hguess : s.guessed (.verify i) name = c'.missed name := by
    show (s.calls[i]?.bind Call.verify).any _ = _
    rw [hi,Option.bind_some,hv]
    rfl
  have hu : c'.underWay name = c.underWay name := by
    cases c with
    | found n password now user =>
      simp only [Call.verify] at hv
      split_ifs at hv
      · obtain rfl := Option.some.inj hv
        rfl
      · obtain rfl := Option.some.inj hv
        rfl
    | _ => cases hv
  have hbefore : c.missed name = false := by
    cases c with
    | found n password now user => rfl
    | _ => cases hv
  cases hmiss : c'.missed name with
  | false =>
    rw [gate_set _ hi rfl hu (hmiss.trans hbefore.symm) (hguess.trans hmiss) rfl rfl g]
    exact .stay _
  | true =>
    have hmissed := countP_set (Call.missed name) c' hi
    rw [hmiss,hbefore,if_pos rfl,if_neg (by decide)] at hmissed
    have hg : s.guessesAfter (.verify i) { s with calls := s.calls.set i c' } name g = g+1 := if_pos (hguess.trans hmiss)
    have hp : ({ s with calls := s.calls.set i c' } : Server).underWay name = s.underWay name := countP_keep hi hu
    have hw : ({ s with calls := s.calls.set i c' } : Server).missed name = s.missed name+1 := hmissed
    have hlt : s.missed name < s.underWay name := by
      have := missed_le { s with calls := s.calls.set i c' } name
      omega
    have hmove := Gate.Move.miss (m := m) (s.gate g name) hlt
    unfold gate at hmove ⊢
    rw [hg,hp,hw]
    exact hmove

/-- A failure is recorded. -/
theorem gate_wrong {s : Server} {i : ℕ} {name : String} {now : I64} (hi : s.calls[i]? = some (.wrong name now))
    (hpos : s.manager.lockout.maxFailedAttempts ≠ 0) (hclock : 0 ≤ s.clock.1) (answer : Answer) (g : ℕ) {s' : Server}
    (hs' : s' = { s with manager := s.manager.recordFailure name now, calls := s.calls.set i (.done answer) }) :
    Gate.Move s.manager.lockout.maxFailedAttempts (s.gate g name) (s'.gate (s.guessesAfter (.settle i) s' name g) name) := by
  have hpend : s.underWay name = s'.underWay name+1 := by
    subst hs'
    exact countP_leave hi (decide_eq_true rfl) rfl
  have hmiss : s.missed name = s'.missed name+1 := by
    subst hs'
    exact countP_leave hi (decide_eq_true rfl) rfl
  have hclear : s.cleared (.settle i) name = false := cleared_wrong hi name
  have hguess : s.guessed (.settle i) name = false := rfl
  have hlocks : s.locks (.settle i) name = decide (s.manager.lockout.maxFailedAttempts ≤ s.manager.failureCount name+1) := by
    rw [locks_settle hi,Call.missed_wrong,decide_eq_true rfl,Bool.true_and]
  by_cases hmax : s.manager.lockout.maxFailedAttempts ≤ s.manager.failureCount name+1
  · have hcount : s'.manager.failureCount name = 0 := by
      subst hs'
      exact AuthManager.recordFailure_locks now hpos hmax
    have hg : s.guessesAfter (.settle i) s' name g = if s'.locked name then g else 0 := by
      simp only [guessesAfter,hguess,hclear,hlocks,hmax]
      cases s'.locked name <;> simp
    unfold gate
    rw [hcount,hpend,hmiss,hg]
    cases hl : s'.locked name with
    | true => exact Gate.Move.lock ⟨s.manager.failureCount name,s'.underWay name,s'.missed name,g,s.locked name⟩ hmax
    | false => exact Gate.Move.lapse ⟨s.manager.failureCount name,s'.underWay name,s'.missed name,g,s.locked name⟩ hmax
  · obtain ⟨hcount,hleft⟩ := AuthManager.recordFailure_counts now (Nat.lt_of_not_le hmax)
    have hlocked : s'.locked name = s.locked name := by
      subst hs'
      exact Bool.eq_iff_iff.mpr (hleft s.clock hclock)
    have hg : s.guessesAfter (.settle i) s' name g = g := by
      simp [guessesAfter,hguess,hclear,hlocks,hmax,hlocked]
    have hcount' : s'.manager.failureCount name = s.manager.failureCount name+1 := by
      subst hs'
      exact hcount
    unfold gate
    rw [hcount',hpend,hmiss,hg,hlocked]
    exact Gate.Move.record ⟨s.manager.failureCount name,s'.underWay name,s'.missed name,g,s.locked name⟩ (Nat.lt_of_not_le hmax)

theorem gate_right {s : Server} {i : ℕ} {name : String} {user : User} (hi : s.calls[i]? = some (.right name user)) {c' : Call}
    (hu : c'.underWay name = false) (hw : c'.missed name = false) (m g : ℕ) {s' : Server}
    (hs' : s' = { s with manager := s.manager.forgetFailures name, calls := s.calls.set i c' }) :
    Gate.Move m (s.gate g name) (s'.gate (s.guessesAfter (.settle i) s' name g) name) := by
  have hpend : s.underWay name = s'.underWay name+1 := by
    subst hs'
    exact countP_leave hi (decide_eq_true rfl) hu
  have hmiss : s'.missed name = s.missed name := by
    subst hs'
    exact countP_keep hi hw
  have hnone : s'.manager.failures[name]? = none := by
    subst hs'
    rw [AuthManager.forgetFailures_get,if_pos rfl]
  have hg : s.guessesAfter (.settle i) s' name g = 0 :=
    guessesAfter_clear rfl ((cleared_right hi name).trans (decide_eq_true rfl)) s' g
  have hlocked : s'.locked name = false := by
    rw [locked,AuthManager.lockLeft_none hnone]
    rfl
  unfold gate
  rw [AuthManager.failureCount_none hnone,hpend,hmiss,hg,hlocked]
  exact Gate.Move.clear ⟨s.manager.failureCount name,s'.underWay name,s.missed name,g,s.locked name⟩

theorem gate_lookup {s s' : Server} {i : ℕ} (h : s.step (.lookup i) = some s') (m : ℕ) (name : String) (g : ℕ) :
    Gate.Move m (s.gate g name) (s'.gate (s.guessesAfter (.lookup i) s' name g) name) := by
  obtain ⟨c,q,hi,hq,rfl⟩ := proceed_cases h
  obtain ⟨c',hv,rfl⟩ := Option.map_eq_some_iff.mp hq
  cases c with
  | checked n password now =>
    simp only [Call.lookup] at hv
    split at hv
    · obtain rfl := Option.some.inj hv
      by_cases hn : n = name
      · -- an unknown user: the login ends without a verification
        have hpend : s.underWay name = ({ s with calls := s.calls.set i (.done (.refused .invalidCredentials)) } : Server).underWay name+1 :=
          countP_leave hi (decide_eq_true hn) rfl
        have hmiss : ({ s with calls := s.calls.set i (.done (.refused .invalidCredentials)) } : Server).missed name = s.missed name :=
          countP_keep hi rfl
        have hg : s.guessesAfter (.lookup i) { s with calls := s.calls.set i (.done (.refused .invalidCredentials)) } name g = g :=
          guessesAfter_keep rfl rfl rfl rfl g
        have hmove := Gate.Move.leave (m := m) ⟨s.manager.failureCount name,
          ({ s with calls := s.calls.set i (.done (.refused .invalidCredentials)) } : Server).underWay name,s.missed name,g,s.locked name⟩
        unfold gate
        rw [hpend,hmiss,hg]
        exact hmove
      · rw [gate_set (.done (.refused .invalidCredentials)) hi rfl (decide_eq_false hn).symm rfl rfl rfl rfl g]
        exact .stay _
    · rename_i user _
      obtain rfl := Option.some.inj hv
      rw [gate_set (.found n password now user) hi rfl rfl rfl rfl rfl rfl g]
      exact .stay _
  | _ => cases hv

theorem gate_settle {s s' : Server} {i : ℕ} (h : s.step (.settle i) = some s') (hpos : s.manager.lockout.maxFailedAttempts ≠ 0)
    (hclock : 0 ≤ s.clock.1) (name : String) (g : ℕ) :
    Gate.Move s.manager.lockout.maxFailedAttempts (s.gate g name) (s'.gate (s.guessesAfter (.settle i) s' name g) name) := by
  obtain ⟨c,⟨c',m'⟩,hi,hq,rfl⟩ := proceed_cases h
  cases c with
  | wrong n now =>
    obtain ⟨rfl,rfl⟩ := Prod.mk.inj (Option.some.inj hq)
    by_cases hn : n = name
    · subst hn
      exact gate_wrong hi hpos hclock _ g rfl
    · rw [gate_set (.done (.refused .invalidCredentials)) hi (AuthManager.recordFailure_other hn now)
        (decide_eq_false hn).symm (decide_eq_false hn).symm rfl
        (cleared_wrong hi name) (by rw [locks_settle hi,Call.missed_wrong,decide_eq_false hn,Bool.false_and]) g]
      exact .stay _
  | right n user =>
    obtain ⟨hm,hu,hw⟩ : m' = s.manager.forgetFailures n ∧ (∀ name, c'.underWay name = false) ∧ ∀ name, c'.missed name = false := by
      simp only [Call.settle] at hq
      split_ifs at hq
      · obtain ⟨rfl,rfl⟩ := Prod.mk.inj (Option.some.inj hq)
        exact ⟨rfl,fun _ => rfl,fun _ => rfl⟩
      · obtain ⟨rfl,rfl⟩ := Prod.mk.inj (Option.some.inj hq)
        exact ⟨rfl,fun _ => rfl,fun _ => rfl⟩
    subst hm
    by_cases hn : n = name
    · subst hn
      exact gate_right hi (hu n) (hw n) _ g rfl
    · have hother : (s.manager.forgetFailures n).failures[name]? = s.manager.failures[name]? := by
        rw [AuthManager.forgetFailures_get,if_neg hn]
      have hsame : c'.underWay name = (Call.right n user).underWay name := (hu name).trans (decide_eq_false hn).symm
      rw [gate_set c' hi hother hsame (hw name) rfl ((cleared_right hi name).trans (decide_eq_false hn)) (locks_settle hi name) g]
      exact .stay _
  | _ => cases hq

theorem gate_forget {s s' : Server} {i : ℕ} (h : s.step (.forget i) = some s') (m : ℕ) (name : String) (g : ℕ) :
    Gate.Move m (s.gate g name) (s'.gate (s.guessesAfter (.forget i) s' name g) name) := by
  obtain ⟨c,⟨c',m'⟩,hi,hq,rfl⟩ := proceed_cases h
  cases c with
  | revoked n =>
    obtain ⟨rfl,rfl⟩ := Prod.mk.inj (Option.some.inj hq)
    by_cases hn : n = name
    · subst hn
      have hnone : (s.manager.forgetFailures n).failures[n]? = none := by
        rw [AuthManager.forgetFailures_get,if_pos rfl]
      have hg : s.guessesAfter (.forget i)
          { s with manager := s.manager.forgetFailures n, calls := s.calls.set i (.done (.managed none)) } n g = 0 :=
        guessesAfter_clear rfl ((cleared_forget hi n).trans (decide_eq_true rfl)) _ g
      have hpend : ({ s with manager := s.manager.forgetFailures n, calls := s.calls.set i (.done (.managed none)) } :
          Server).underWay n = s.underWay n := countP_keep hi rfl
      have hmiss : ({ s with manager := s.manager.forgetFailures n, calls := s.calls.set i (.done (.managed none)) } :
          Server).missed n = s.missed n := countP_keep hi rfl
      have hlocked : ({ s with manager := s.manager.forgetFailures n, calls := s.calls.set i (.done (.managed none)) } :
          Server).locked n = false := by
        rw [locked,AuthManager.lockLeft_none hnone]
        rfl
      have hmove := Gate.Move.forget (m := m) (s.gate g n)
      unfold gate at hmove ⊢
      rw [hpend,hmiss,hg,hlocked,AuthManager.failureCount_none hnone]
      exact hmove
    · have hother : (s.manager.forgetFailures n).failures[name]? = s.manager.failures[name]? := by
        rw [AuthManager.forgetFailures_get,if_neg hn]
      rw [gate_set (.done (.managed none)) hi hother rfl rfl rfl ((cleared_forget hi name).trans (decide_eq_false hn)) rfl g]
      exact .stay _
  | _ => cases hq

theorem gate_tick {s : Server} {now : I64} (hspaced : ∀ name, 0 < s.underWay name → s.manager.lockLeft name now = none)
    (m : ℕ) (name : String) (g : ℕ) : Gate.Move m (s.gate g name)
      (({ s with clock := now } : Server).gate (s.guessesAfter (.tick now) { s with clock := now } name g) name) := by
  have hg : s.guessesAfter (.tick now) { s with clock := now } name g =
      if s.locked name && !({ s with clock := now } : Server).locked name then 0 else g := by
    have hflags : s.guessed (.tick now) name = false ∧ s.cleared (.tick now) name = false ∧ s.locks (.tick now) name = false :=
      ⟨rfl,rfl,rfl⟩
    unfold guessesAfter
    simp [hflags]
  unfold gate
  rw [hg]
  cases hl : ({ s with clock := now } : Server).locked name with
  | true =>
    have hnone : s.underWay name = 0 := by
      by_contra hne
      rw [locked,hspaced name (Nat.pos_of_ne_zero hne)] at hl
      cases hl
    simp only [Bool.not_true,Bool.and_false,Bool.false_eq_true,if_false]
    exact Gate.Move.relock ⟨s.manager.failureCount name,s.underWay name,s.missed name,g,s.locked name⟩ hnone
  | false =>
    cases hl' : s.locked name with
    | true =>
      simp only [Bool.not_false,Bool.and_true,if_true]
      exact Gate.Move.expire ⟨s.manager.failureCount name,s.underWay name,s.missed name,g,true⟩ rfl
    | false => exact .stay _

theorem gate_login {s s' : Server} {n password : String} (h : s.step (.login n password) = some s')
    (hspaced : s.locked n = false → s.manager.failureCount n+s.underWay n < s.manager.lockout.maxFailedAttempts)
    (name : String) (g : ℕ) : Gate.Move s.manager.lockout.maxFailedAttempts (s.gate g name)
      (s'.gate (s.guessesAfter (.login n password) s' name g) name) := by
  obtain ⟨left,rfl⟩ | ⟨hleft,rfl⟩ := login_cases h
  · rw [gate_open (.refl _) rfl rfl rfl rfl g]
    exact .stay _
  · by_cases hn : n = name
    · subst hn
      have hopen : s.locked n = false := by
        rw [locked,hleft]
        rfl
      have hg : s.guessesAfter (.login n password) (s.open (.checked n password s.clock) s.manager) n g = g := by
        have hflags : s.guessed (.login n password) n = false ∧ s.cleared (.login n password) n = false ∧
            s.locks (.login n password) n = false := ⟨rfl,rfl,rfl⟩
        unfold guessesAfter
        simp [hflags,hopen]
      have hmove := Gate.Move.enter (m := s.manager.lockout.maxFailedAttempts) (s.gate g n) hopen (hspaced hopen)
      have hpend : (s.open (.checked n password s.clock) s.manager).underWay n = s.underWay n+1 := by
        simp [open_underWay,Call.underWay_checked]
      have hmiss : (s.open (.checked n password s.clock) s.manager).missed n = s.missed n := by
        exact open_missed ..
      unfold gate at hmove ⊢
      rw [hg,hpend,hmiss]
      exact hmove
    · have hc : (Call.checked n password s.clock).underWay name = false := decide_eq_false hn
      rw [gate_open (.refl _) hc rfl rfl rfl g]
      exact .stay _

theorem gate_proceed {s s' : Server} {a : Act} {i : ℕ} {f : Call → Option (Call × AuthManager)} (h : s.proceed i f = some s')
    (hf : ∀ c q, f c = some q → AuthManager.SameLock s.manager q.2 ∧
      ∀ name, c.underWay name = false ∧ q.1.underWay name = false ∧ c.missed name = false ∧ q.1.missed name = false)
    (ha : ∀ name, s.guessed a name = false ∧ s.cleared a name = false ∧ s.locks a name = false) (m : ℕ) (name : String) (g : ℕ) :
    Gate.Move m (s.gate g name) (s'.gate (s.guessesAfter a s' name g) name) := by
  obtain ⟨c,q,hi,hq,rfl⟩ := proceed_cases h
  obtain ⟨hsame,hcalls⟩ := hf c q hq
  obtain ⟨hu,hu',hw,hw'⟩ := hcalls name
  obtain ⟨hg,hc,hl⟩ := ha name
  rw [gate_set q.1 hi (congrArg (fun f => f[name]?) hsame.failures) (hu'.trans hu.symm) (hw'.trans hw.symm) hg hc hl g]
  exact .stay _

omit [PasswordHash] in
theorem afterChange_underWay {r : Except ManageError Unit} {rest : Call} {name : String} (h : rest.underWay name = false) :
    (afterChange r rest).underWay name = false := by
  unfold afterChange
  split
  · rfl
  · exact h

/-- Every step moves the gate of every user. -/
theorem step_gate {s s' : Server} {a : Act} (h : s.step a = some s') (hspaced : s.Spaced a)
    (hpos : s.manager.lockout.maxFailedAttempts ≠ 0) (hclock : 0 ≤ s.clock.1) (name : String) (g : ℕ) :
    Gate.Move s.manager.lockout.maxFailedAttempts (s.gate g name) (s'.gate (s.guessesAfter a s' name g) name) := by
  cases a with
  | tick now =>
    obtain rfl := Option.some.inj h
    exact gate_tick hspaced.2 _ name g
  | login n password => exact gate_login h hspaced name g
  | lookup i => exact gate_lookup h _ name g
  | verify i => exact gate_verify h _ name g
  | settle i => exact gate_settle h hpos hclock name g
  | forget i => exact gate_forget h _ name g
  | probe i =>
    refine gate_proceed h (fun c q hq => ?_) (fun _ => ⟨rfl,rfl,rfl⟩) _ name g
    obtain ⟨c',hc,rfl⟩ := Option.map_eq_some_iff.mp hq
    cases c with
    | loggedIn p =>
      simp only [Call.probe] at hc
      split_ifs at hc
      · obtain rfl := Option.some.inj hc
        exact ⟨.refl _,fun _ => ⟨rfl,rfl,rfl,rfl⟩⟩
      · obtain rfl := Option.some.inj hc
        exact ⟨.refl _,fun _ => ⟨rfl,rfl,rfl,rfl⟩⟩
    | _ => cases hc
  | issue i token =>
    refine gate_proceed h (fun c q hq => ?_) (fun _ => ⟨rfl,rfl,rfl⟩) _ name g
    cases c with
    | admitted n =>
      obtain rfl := Option.some.inj hq
      exact ⟨⟨rfl,rfl⟩,fun _ => ⟨rfl,rfl,rfl,rfl⟩⟩
    | _ => cases hq
  | revoke i =>
    refine gate_proceed h (fun c q hq => ?_) (fun _ => ⟨rfl,rfl,rfl⟩) _ name g
    cases c with
    | changed n drops =>
      cases drops with
      | true =>
        obtain rfl := Option.some.inj hq
        exact ⟨⟨rfl,rfl⟩,fun _ => ⟨rfl,rfl,rfl,rfl⟩⟩
      | false =>
        obtain rfl := Option.some.inj hq
        exact ⟨⟨rfl,rfl⟩,fun _ => ⟨rfl,rfl,rfl,rfl⟩⟩
    | _ => cases hq
  | resume token =>
    obtain rfl := Option.some.inj h
    rw [gate_open (s.manager.resume_lock token s.clock) rfl rfl rfl rfl g]
    exact .stay _
  | createUser new env =>
    obtain rfl := Option.some.inj h
    rw [gate_open (s.manager.createUser_lock new env) (afterChange_underWay rfl) rfl rfl rfl g]
    exact .stay _
  | alterUser n alter env =>
    obtain rfl := Option.some.inj h
    rw [gate_open (s.manager.alterRecord_lock n alter env) (afterChange_underWay (by split_ifs <;> rfl)) rfl rfl rfl g]
    exact .stay _
  | changeOwnPassword n current new env =>
    obtain rfl := Option.some.inj h
    rw [gate_open (s.manager.changePassword_lock n current new env) (afterChange_underWay rfl) rfl rfl rfl g]
    exact .stay _
  | dropUser n ifExists env =>
    obtain rfl := Option.some.inj h
    rw [gate_open (s.manager.dropRecord_lock n ifExists env) (afterChange_underWay rfl) rfl rfl rfl g]
    exact .stay _

theorem step_lockout {s s' : Server} {a : Act} (h : s.step a = some s') : s'.manager.lockout = s.manager.lockout := by
  have hproceed : ∀ {i : ℕ} {f : Call → Option (Call × AuthManager)}, s.proceed i f = some s' →
      (∀ c q, f c = some q → q.2.lockout = s.manager.lockout) → s'.manager.lockout = s.manager.lockout := by
    intro i f hp hf
    obtain ⟨c,q,-,hq,rfl⟩ := proceed_cases hp
    exact hf c q hq
  have hsame : ∀ {f : Call → Option Call} c q, (f c).map (fun c => (c,s.manager)) = some q → q.2.lockout = s.manager.lockout := by
    intro f c q hq
    obtain ⟨c',-,rfl⟩ := Option.map_eq_some_iff.mp hq
    rfl
  cases a with
  | tick now =>
    obtain rfl := Option.some.inj h
    rfl
  | login n password =>
    obtain ⟨left,rfl⟩ | ⟨-,rfl⟩ := login_cases h
    · rfl
    · rfl
  | lookup i => exact hproceed h hsame
  | verify i => exact hproceed h hsame
  | probe i => exact hproceed h hsame
  | settle i =>
    refine hproceed h (fun c q hq => ?_)
    cases c with
    | wrong n now =>
      obtain rfl := Option.some.inj hq
      exact s.manager.recordFailure_lockout n now
    | right n user =>
      simp only [Call.settle] at hq
      split_ifs at hq
      · obtain rfl := Option.some.inj hq
        rfl
      · obtain rfl := Option.some.inj hq
        rfl
    | _ => cases hq
  | issue i token =>
    refine hproceed h (fun c q hq => ?_)
    cases c with
    | admitted n =>
      obtain rfl := Option.some.inj hq
      rfl
    | _ => cases hq
  | revoke i =>
    refine hproceed h (fun c q hq => ?_)
    cases c with
    | changed n drops =>
      cases drops <;> obtain rfl := Option.some.inj hq <;> rfl
    | _ => cases hq
  | forget i =>
    refine hproceed h (fun c q hq => ?_)
    cases c with
    | revoked n =>
      obtain rfl := Option.some.inj hq
      rfl
    | _ => cases hq
  | resume token =>
    obtain rfl := Option.some.inj h
    exact (s.manager.resume_lock token s.clock).lockout
  | createUser new env =>
    obtain rfl := Option.some.inj h
    exact (s.manager.createUser_lock new env).lockout
  | alterUser n alter env =>
    obtain rfl := Option.some.inj h
    exact (s.manager.alterRecord_lock n alter env).lockout
  | changeOwnPassword n current new env =>
    obtain rfl := Option.some.inj h
    exact (s.manager.changePassword_lock n current new env).lockout
  | dropUser n ifExists env =>
    obtain rfl := Option.some.inj h
    exact (s.manager.dropRecord_lock n ifExists env).lockout

theorem step_clock {s s' : Server} {a : Act} (h : s.step a = some s') (hspaced : s.Spaced a) (hclock : 0 ≤ s.clock.1) :
    0 ≤ s'.clock.1 := by
  have hproceed : ∀ {i : ℕ} {f : Call → Option (Call × AuthManager)}, s.proceed i f = some s' → 0 ≤ s'.clock.1 := by
    intro i f hp
    obtain ⟨c,q,-,hq,rfl⟩ := proceed_cases hp
    exact hclock
  cases a with
  | tick now =>
    obtain rfl := Option.some.inj h
    exact hspaced.1
  | login n password =>
    obtain ⟨left,rfl⟩ | ⟨-,rfl⟩ := login_cases h
    · exact hclock
    · exact hclock
  | lookup i | verify i | settle i | probe i | issue i token | revoke i | forget i => exact hproceed h
  | _ =>
    obtain rfl := Option.some.inj h
    exact hclock

/-! ## Runs -/

/-- A server that has begun, without a failure on record. -/
structure Fresh (s : Server) : Prop where
  calls : s.calls = []
  failures : s.manager.failures = ∅
  clock : 0 ≤ s.clock.1

/-- A run whose steps all meet a condition, with the guesses made at every user's password. -/
inductive GuessRun (ok : Server → Act → Prop) (s₀ : Server) : Server → (String → ℕ) → Prop where
  | start : GuessRun ok s₀ s₀ (fun _ => 0)
  | step {s s' g} (a : Act) : GuessRun ok s₀ s g → ok s a → s.step a = some s' →
      GuessRun ok s₀ s' (fun name => s.guessesAfter a s' name (g name))

/-- The lock holds what it promises: never more guesses than the policy's, and no password is verified
while its user is locked. -/
structure LockHolds (s : Server) (g : String → ℕ) : Prop where
  guesses : ∀ name, g name ≤ s.manager.lockout.maxFailedAttempts
  verified : ∀ (i : ℕ) (c c' : Call), s.calls[i]? = some c → c.verify = some c' → ∀ name, c.underWay name = true → s.locked name = false

theorem GuessRun.inv {s₀ s : Server} {g : String → ℕ} (h : GuessRun Spaced s₀ s g) (hfresh : s₀.Fresh)
    (hpos : 0 < s₀.manager.lockout.maxFailedAttempts) : s.manager.lockout = s₀.manager.lockout ∧ 0 ≤ s.clock.1 ∧
      ∀ name, Gate.Inv s.manager.lockout.maxFailedAttempts (s.gate (g name) name) := by
  induction h with
  | start =>
    refine ⟨rfl,hfresh.clock,fun name => ?_⟩
    have hnone : s₀.manager.failures[name]? = none := by simp [hfresh.failures]
    have hgate : s₀.gate 0 name = { count := 0, pending := 0, missed := 0, guesses := 0, locked := false } := by
      simp [gate,AuthManager.failureCount_none hnone,underWay,missed,hfresh.calls,locked,AuthManager.lockLeft_none hnone]
    rw [hgate]
    exact Gate.fresh_inv _
  | @step s s' g a _ hspaced hstep ih =>
    obtain ⟨hlockout,hclock,hinv⟩ := ih
    have hsame := step_lockout hstep
    refine ⟨hsame.trans hlockout,step_clock hstep hspaced hclock,fun name => ?_⟩
    have hne : s.manager.lockout.maxFailedAttempts ≠ 0 := by
      rw [hlockout]
      omega
    have hmove := step_gate hstep hspaced hne hclock name (g name)
    rw [hsame]
    exact hmove.inv (hinv name) (missed_le _ name)

end Server

/-! ## Samples -/
section Samples

/-- A hash that keeps the password. -/
local instance plainHash : PasswordHash where
  hashPassword password _ := .ok password
  verifyPassword password passwordHash := password = passwordHash

/-- A manager that knows `ann`, and locks at the second failure. -/
def annManager : AuthManager :=
  { stored := none,
    catalog := { users := (∅ : Map String User).insert "ann" { name := "ann", passwordHash := "secret-word" } },
    lockout := { maxFailedAttempts := 2 } }

def annServer : Server := { manager := annManager, clock := I64.saturate 0 }

theorem annServer_fresh : annServer.Fresh := ⟨rfl,rfl,by decide⟩

def serve (s : Server) (g : ℕ) : List Act → Option (Server × ℕ)
  | [] => some (s,g)
  | a :: as =>
    match s.step a with
    | none => none
    | some s' => serve s' (s.guessesAfter a s' "ann" g) as

theorem serve_run {ok : Server → Act → Prop} (hok : ∀ s a, ok s a) {s₀ s s' : Server} {g : String → ℕ} {n : ℕ} {as : List Act}
    (h : Server.GuessRun ok s₀ s g) (hs : serve s (g "ann") as = some (s',n)) : ∃ g', Server.GuessRun ok s₀ s' g' ∧ g' "ann" = n := by
  induction as generalizing s g with
  | nil =>
    obtain ⟨rfl,rfl⟩ := Prod.mk.inj (Option.some.inj hs)
    exact ⟨g,h,rfl⟩
  | cons a as ih =>
    simp only [serve] at hs
    cases hstep : s.step a with
    | none =>
      rw [hstep] at hs
      cases hs
    | some s₁ =>
      rw [hstep] at hs
      exact ih (.step a h (hok s a) hstep) hs

/-- Three logins pass the lock check before the first of them is counted. -/
def overlappingLogins : List Act :=
  [.login "ann" "guess-1",.login "ann" "guess-2",.login "ann" "guess-3",.lookup 0,.lookup 1,.lookup 2,.verify 0,.verify 1,.verify 2]

end Samples

end Drevo.Auth
