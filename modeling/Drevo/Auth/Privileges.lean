import Drevo.Lib.Memo

/-! Privileges, and how a request is decided against those that a user holds. -/
namespace Drevo.Auth

inductive Access where
  | grant | deny
  deriving DecidableEq

inductive Action where
  | traverse | read | match_ | create | delete | setLabel | removeLabel | setProperty | merge | write | allGraph
  | access | start | stop | indexManagement | constraintManagement | nameManagement | transactionManagement | allDatabase
  | userManagement | roleManagement | privilegeManagement | databaseManagement
  | executeProcedure | executeFunction | executeAdminProcedures | allDbms
  deriving DecidableEq

inductive Level where
  | graph | database | dbms
  deriving DecidableEq

namespace Action

def level : Action → Level
  | traverse | read | match_ | create | delete | setLabel | removeLabel | setProperty | merge | write | allGraph => .graph
  | access | start | stop | indexManagement | constraintManagement | nameManagement | transactionManagement
  | allDatabase => .database
  | userManagement | roleManagement | privilegeManagement | databaseManagement | executeProcedure | executeFunction
  | executeAdminProcedures | allDbms => .dbms

/-- The `action` column of the privileges. -/
def name : Action → String
  | traverse => "traverse"
  | read => "read"
  | match_ => "match"
  | create => "create_element"
  | delete => "delete_element"
  | setLabel => "set_label"
  | removeLabel => "remove_label"
  | setProperty => "set_property"
  | merge => "merge"
  | write => "write"
  | allGraph => "graph_actions"
  | access => "access"
  | start => "start_database"
  | stop => "stop_database"
  | indexManagement => "index"
  | constraintManagement => "constraint"
  | nameManagement => "token"
  | transactionManagement => "transaction_management"
  | allDatabase => "database_actions"
  | userManagement => "user_management"
  | roleManagement => "role_management"
  | privilegeManagement => "privilege_management"
  | databaseManagement => "database_management"
  | executeProcedure => "execute"
  | executeFunction => "execute_function"
  | executeAdminProcedures => "execute_admin"
  | allDbms => "dbms_actions"

/-- Every action, in the order in which they are declared. -/
def actions : List Action := [traverse,read,match_,create,delete,setLabel,removeLabel,setProperty,merge,write,allGraph,
  access,start,stop,indexManagement,constraintManagement,nameManagement,transactionManagement,allDatabase,
  userManagement,roleManagement,privilegeManagement,databaseManagement,
  executeProcedure,executeFunction,executeAdminProcedures,allDbms]

theorem mem_actions (a : Action) : a ∈ actions := by
  cases a <;> decide

theorem names_nodup : (actions.map name).Nodup := by decide +kernel

theorem names_plain : ∀ a ∈ actions, '\x00' ∉ a.name.toList := by decide +kernel

theorem name_inj {a a' : Action} (h : a.name = a'.name) : a = a' :=
  List.inj_on_of_nodup_map names_nodup (mem_actions a) (mem_actions a') h

theorem name_plain (a : Action) : '\x00' ∉ a.name.toList := names_plain a (mem_actions a)

end Action

inductive Target where
  | all | home
  | named (name : String)
  deriving DecidableEq

inductive Pattern where
  | all
  | name (name : String)
  deriving DecidableEq

/-- How far a glob is matched: what is left of the pattern and of the name, and after a `*` the pattern
behind it with the place where it is tried. -/
structure GlobState where
  glob : List UInt8
  name : List UInt8
  star : Option (List UInt8 × List UInt8) := none
  behind : ∀ p, star = some p → name.length ≤ p.2.length := by simp

namespace GlobState

/-- The pattern behind the last `*` one place further on. -/
def retry (s : GlobState) : Option GlobState :=
  match s.star with
  | some (rest,_ :: mark) => some { glob := rest, name := mark, star := some (rest,mark), behind := by simp }
  | _ => none

def step (s : GlobState) : Option GlobState :=
  match hn : s.name with
  | [] => none
  | n :: ns =>
    match s.glob with
    | [] => s.retry
    | g :: gs =>
      if g = 63 ∨ g = n then
        some { glob := gs, name := ns, star := s.star, behind := fun p hp => by have hb := s.behind p hp; rw [hn] at hb; exact (Nat.le_succ _).trans hb }
      else if g = 42 then some { glob := gs, name := n :: ns, star := some (gs,n :: ns), behind := by simp }
      else s.retry

/-- The place where the pattern behind a `*` is tried, the name and the pattern: one of them gets
shorter, and none before it longer. -/
def measure (s : GlobState) : ℕ ×ₗ ℕ ×ₗ ℕ :=
  toLex (s.star.elim (s.name.length+1) (fun p => p.2.length),toLex (s.name.length,s.glob.length))

theorem retry_measure {s s' : GlobState} (h : s.retry = some s') : s'.measure < s.measure := by
  unfold retry at h
  split at h
  · rename_i rest _ mark hstar
    obtain rfl := Option.some.inj h
    simp [measure,Prod.Lex.toLex_lt_toLex,hstar]
  · cases h

theorem step_measure {s s' : GlobState} (h : s.step = some s') : s'.measure < s.measure := by
  obtain ⟨glob,name,star,behind⟩ := s
  cases name with
  | nil => cases h
  | cons n ns =>
    cases glob with
    | nil => exact retry_measure h
    | cons g gs =>
      simp only [step] at h
      split_ifs at h with h₁ h₂
      · obtain rfl := Option.some.inj h
        cases star with
        | none => simp [measure,Prod.Lex.toLex_lt_toLex]
        | some p => simp [measure,Prod.Lex.toLex_lt_toLex]
      · obtain rfl := Option.some.inj h
        cases star with
        | none => simp [measure,Prod.Lex.toLex_lt_toLex]
        | some p =>
          obtain hlt | heq := (behind p rfl).lt_or_eq
          · simp only [measure,Prod.Lex.toLex_lt_toLex,Option.elim_some]
            exact Or.inl hlt
          · simp [measure,Prod.Lex.toLex_lt_toLex,← heq]
      · exact retry_measure h

set_option linter.unusedVariables false in
/-- Once the name is used up the rest of the pattern may be `*` only. -/
def run (s : GlobState) : Bool :=
  match h : s.step with
  | none => s.name.isEmpty && s.glob.all (fun c => c = 42)
  | some s' => s'.run
termination_by s.measure
decreasing_by exact step_measure ‹_›

end GlobState
def globMatches (glob name : List UInt8) : Bool := GlobState.run { glob := glob, name := name }

namespace Pattern

def matches_ (p : Pattern) (name : String) : Bool :=
  match p with
  | .all => true
  | .name n => n = name

def matchesGlob (p : Pattern) (name : String) : Bool :=
  match p with
  | .all => true
  | .name glob => globMatches glob.toByteArray.data.toList name.toByteArray.data.toList

end Pattern

inductive Segment where
  | graph
  | node (p : Pattern)
  | relationship (p : Pattern)
  | database
  | user (p : Pattern)
  | procedure (p : Pattern)
  | function (p : Pattern)
  deriving DecidableEq

inductive Resource where
  | graph | database | allProperties
  | property (name : String)
  | allLabels
  | label (name : String)
  deriving DecidableEq

structure Privilege where
  action : Action
  target : Option Target
  segment : Segment
  resource : Resource

/-! ## Decisions -/

/-- What a graph request touches. -/
inductive Element where
  | none
  | node (labels : List String)
  | relationship (type : String)

structure Request where
  action : Action
  database : String
  home : String
  element : Element
  name : Option String

inductive Decision where
  | granted | denied | notGranted
  deriving DecidableEq

def Decision.isAllowed (d : Decision) : Bool := d = .granted

inductive Implied where
  | wholly | byResource
  deriving DecidableEq

def implies (held : Action) (access : Access) (resource : Resource) (wanted : Action) : Option Implied :=
  if held = wanted then some .byResource
  else
    let finds : Bool := access = .grant || resource = .allProperties
    match held with
    | .allGraph => if wanted.level = .graph then some .wholly else none
    | .write =>
      match wanted with
      | .create | .delete | .setLabel | .removeLabel | .setProperty => some .wholly
      | _ => none
    | .match_ =>
      match wanted with
      | .read => some .byResource
      | .traverse => if finds then some .wholly else none
      | _ => none
    | .merge =>
      match wanted with
      | .traverse => if finds then some .wholly else none
      | .match_ | .read | .setProperty => some .byResource
      | .create => some .wholly
      | _ => none
    | .allDatabase => if wanted.level = .database then some .wholly else none
    | .allDbms => if wanted.level = .dbms then some .wholly else none
    | _ => none

def targetCovers (target : Option Target) (r : Request) : Bool :=
  match target with
  | none | some .all => true
  | some .home => r.home ≠ "" && r.database = r.home
  | some (.named name) => name = r.database

def segmentCovers (segment : Segment) (r : Request) : Bool :=
  match segment,r.element with
  | .graph,_ | .database,_ => true
  | .node .all,.node _ => true
  | .node (.name label),.node labels => labels.any (fun l => l = label)
  | .relationship p,.relationship t => p.matches_ t
  | .user p,_ => r.name.all p.matches_
  | .procedure p,_ | .function p,_ => r.name.any p.matchesGlob
  | _,_ => false

def resourceCovers (resource : Resource) (r : Request) : Bool :=
  match resource with
  | .graph | .database | .allProperties | .allLabels => true
  | .property p | .label p => r.name = some p

def covers (access : Access) (p : Privilege) (r : Request) : Bool :=
  match implies p.action access p.resource r.action with
  | none => false
  | some implied =>
    targetCovers p.target r && segmentCovers p.segment r && (implied = .wholly || resourceCovers p.resource r)

/-- A privilege that denies wins over all that grant. -/
def decideFrom (granted : Bool) : List (Access × Privilege) → Request → Decision
  | [],_ => if granted then .granted else .notGranted
  | (access,p) :: held,r =>
    if covers access p r then
      match access with
      | .deny => .denied
      | .grant => decideFrom true held r
    else decideFrom granted held r

def decide_ (held : List (Access × Privilege)) (r : Request) : Decision := decideFrom false held r

end Drevo.Auth
