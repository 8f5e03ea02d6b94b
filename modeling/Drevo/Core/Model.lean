import Drevo.Lib.Index

/-! The records of the graph: nodes, edges, their property maps, the inputs that create
and change them, and the errors a write can return. -/
namespace Drevo
open Lib

/-- A JSON value. A float is held as the shortest decimal text that denotes it, and an
object as its members in key order. -/
inductive Json where
  | null
  | bool (b : Bool)
  | int (i : ℤ)
  | float (text : String)
  | string (s : String)
  | array (items : List Json)
  | object (members : List (String × Json))
  deriving Inhabited

namespace Json

mutual
def beq : Json → Json → Bool
  | .null,.null => true
  | .bool a,.bool b => a == b
  | .int a,.int b => a == b
  | .float a,.float b => a == b
  | .string a,.string b => a == b
  | .array a,.array b => beqList a b
  | .object a,.object b => beqMembers a b
  | _,_ => false
def beqList : List Json → List Json → Bool
  | [],[] => true
  | x :: xs,y :: ys => beq x y && beqList xs ys
  | _,_ => false
def beqMembers : List (String × Json) → List (String × Json) → Bool
  | [],[] => true
  | (k,x) :: xs,(l,y) :: ys => k == l && beq x y && beqMembers xs ys
  | _,_ => false
end

mutual
theorem beq_iff : ∀ a b : Json, beq a b = true ↔ a = b
  | .null,b => by cases b <;> simp [beq]
  | .bool _,b => by cases b <;> simp [beq]
  | .int _,b => by cases b <;> simp [beq]
  | .float _,b => by cases b <;> simp [beq]
  | .string _,b => by cases b <;> simp [beq]
  | .array a,b => by cases b <;> simp [beq,beqList_iff a]
  | .object a,b => by cases b <;> simp [beq,beqMembers_iff a]
theorem beqList_iff : ∀ a b : List Json, beqList a b = true ↔ a = b
  | [],b => by cases b <;> simp [beqList]
  | x :: xs,b => by cases b <;> simp [beqList,beq_iff x,beqList_iff xs]
theorem beqMembers_iff : ∀ a b : List (String × Json), beqMembers a b = true ↔ a = b
  | [],b => by cases b <;> simp [beqMembers]
  | (k,x) :: xs,b => by
    cases b with
    | nil => simp [beqMembers]
    | cons y ys => obtain ⟨l,y⟩ := y; simp [beqMembers,beq_iff x,beqMembers_iff xs]
end

instance : DecidableEq Json := fun a b => decidable_of_iff _ (beq_iff a b)

end Json

/-- The compact JSON text of a value, as the serializer the store is built with writes it. -/
class JsonText where
  text : Json → String

namespace Json

def quote (s : String) : String :=
  let escape : Char → List Char := fun c =>
    if c = '"' then ['\\','"']
    else if c = '\\' then ['\\','\\']
    else if c = '\n' then ['\\','n']
    else [c]
  "\"" ++ String.ofList (s.toList.flatMap escape) ++ "\""

mutual
def compact : Json → String
  | .null => "null"
  | .bool b => if b then "true" else "false"
  | .int i => toString i
  | .float text => text
  | .string s => quote s
  | .array items => "[" ++ ",".intercalate (compactItems items) ++ "]"
  | .object members => "\x7b" ++ ",".intercalate (compactMembers members) ++ "\x7d"
def compactItems : List Json → List String
  | [] => []
  | x :: xs => compact x :: compactItems xs
def compactMembers : List (String × Json) → List String
  | [] => []
  | (k,x) :: xs => (quote k ++ ":" ++ compact x) :: compactMembers xs
end

/-- The compact writer as the serializer, for strings without control characters. -/
@[reducible] def compactText : JsonText := ⟨compact⟩

end Json

/-- Names to values, sorted by name. -/
structure Properties where
  entries : List (String × Json)
  sorted : entries.Pairwise (fun a b => a.1 < b.1)
  deriving DecidableEq

namespace Properties

def new : Properties := ⟨[],List.Pairwise.nil⟩

instance : Inhabited Properties := ⟨new⟩

def get (p : Properties) (key : String) : Option Json := p.entries.lookup key

def single (key : String) (value : Json) : Properties := ⟨[(key,value)],List.pairwise_singleton _ _⟩

end Properties

/-- The sixteen bytes of a UUID. -/
abbrev Uuid := BitVec 128

/-- A single-precision float, by its bits. -/
structure F32 where
  bits : BitVec 32
  deriving DecidableEq, Inhabited

namespace F32

/-- The exponent field is not all ones. -/
def isFinite (x : F32) : Bool := x.bits.extractLsb 30 23 != 0xFF#8

def isNan (x : F32) : Bool := !x.isFinite && x.bits.extractLsb 22 0 != 0#23

def isZero (x : F32) : Bool := x.bits.extractLsb 30 0 == 0#31

/-- The floating-point comparison: a NaN equals nothing, both zeros are equal. -/
def eq (x y : F32) : Bool := !x.isNan && !y.isNan && (x.bits == y.bits || (x.isZero && y.isZero))

/-- The float `1.0`. -/
def one : F32 := ⟨0x3F800000#32⟩

end F32

structure Node where
  id : ℕ
  uuid : Uuid
  kind : String
  title : String
  body : String
  bodyHtml : String
  createdAt : ℤ
  updatedAt : ℤ
  properties : Properties
  deriving DecidableEq

structure NewNode where
  kind : String
  title : String
  body : String
  bodyHtml : String
  properties : Properties

/-- A node with a kind and a title and nothing else. -/
def NewNode.titled (kind title : String) : NewNode := ⟨kind,title,"","",Properties.new⟩

structure NodePatch where
  kind : Option String := none
  title : Option String := none
  body : Option String := none
  bodyHtml : Option String := none
  properties : Option Properties := none

structure Edge where
  id : ℕ
  uuid : Uuid
  fromId : ℕ
  toId : ℕ
  kind : String
  weight : F32
  createdAt : ℤ
  properties : Properties
  deriving DecidableEq

structure NewEdge where
  fromId : ℕ
  toId : ℕ
  kind : String
  weight : F32
  properties : Properties

def NewEdge.plain (fromId toId : ℕ) (kind : String) : NewEdge := ⟨fromId,toId,kind,F32.one,Properties.new⟩

structure EdgePatch where
  kind : Option String := none
  weight : Option F32 := none
  properties : Option Properties := none

/-- Equality of stored edges as the program compares them: weights as floats. -/
def Edge.same (a b : Edge) : Bool :=
  a.id == b.id && a.uuid == b.uuid && a.fromId == b.fromId && a.toId == b.toId &&
    a.kind == b.kind && a.weight.eq b.weight && a.createdAt == b.createdAt &&
    a.properties == b.properties

/-- What a write draws from its surroundings: the wall clock and a fresh UUID. -/
structure Mint where
  now : ℤ
  uuid : Uuid

def NewNode.intoNode (n : NewNode) (id : ℕ) (mint : Mint) : Node where
  id := id
  uuid := mint.uuid
  kind := n.kind
  title := n.title
  body := n.body
  bodyHtml := n.bodyHtml
  createdAt := mint.now
  updatedAt := mint.now
  properties := n.properties

def NewEdge.intoEdge (e : NewEdge) (id : ℕ) (mint : Mint) : Edge where
  id := id
  uuid := mint.uuid
  fromId := e.fromId
  toId := e.toId
  kind := e.kind
  weight := e.weight
  createdAt := mint.now
  properties := e.properties

inductive Direction where
  | outgoing | incoming | both
  deriving DecidableEq

/-- A rule the stored nodes must obey. -/
inductive Constraint where
  | uniqueNodeProperty (kind property : String)
  | uniqueNodeProperties (kind : String) (properties : List String)
  | propertyExists (kind property : String)
  | nodeKey (kind : String) (properties : List String)
  deriving DecidableEq

namespace Constraint

def uniqueTuple : Constraint → Option (String × List String)
  | uniqueNodeProperty kind property => some (kind,[property])
  | uniqueNodeProperties kind properties => some (kind,properties)
  | nodeKey kind properties => some (kind,properties)
  | propertyExists _ _ => none

/-- The label and the properties the constraint requires to be present. -/
def required : Constraint → Option (String × List String)
  | propertyExists kind property => some (kind,[property])
  | nodeKey kind properties => some (kind,properties)
  | _ => none

end Constraint

structure ConstraintViolation where
  kind : String
  message : String
  deriving DecidableEq

inductive CoreError where
  | nodeNotFound (id : ℕ)
  | edgeNotFound (id : ℕ)
  | invalidWeight (weight : F32)
  | idCollision (message : String)
  | io
  | readOnly
  | backend (message : String)
  | preparedTransactionPending (gids : List String)
  | transactionTooLarge (limit : ℕ)
  | constraintViolation (violation : ConstraintViolation)
  deriving DecidableEq

/-- The key of the reserved property that holds a node's secondary labels. -/
def secondaryLabelsKey : String := "_labels"

def secondaryLabels (node : Node) : List String :=
  match node.properties.get secondaryLabelsKey with
  | some (.array items) => items.filterMap (fun item => match item with | .string s => some s | _ => none)
  | _ => []

def hasLabel (node : Node) (label : String) : Bool :=
  node.kind == label || (secondaryLabels node).any (· == label)

section Keys
variable [JsonText]

/-- The comparable value a node holds for a property: the entry of its property map unless
null, else its own non-empty title or body. -/
def uniqueKey (node : Node) (property : String) : Option String :=
  match node.properties.get property with
  | some .null => none
  | some value => some (JsonText.text value)
  | none =>
    if property = "title" then
      if node.title = "" then none else some (JsonText.text (.string node.title))
    else if property = "body" then
      if node.body = "" then none else some (JsonText.text (.string node.body))
    else none

def tupleSeparator : Char := '\u001f'

/-- The key of a property tuple; none when the node lacks one of the properties. -/
def tupleKeyFrom (node : Node) : List String → ℕ → String → Option String
  | [],_,key => some key
  | property :: rest,i,key =>
    let key := if i > 0 then key.push tupleSeparator else key
    match uniqueKey node property with
    | none => none
    | some value => tupleKeyFrom node rest (i+1) (key ++ value)

def tupleKey (node : Node) (properties : List String) : Option String :=
  tupleKeyFrom node properties 0 ""

theorem uniqueKey_congr {a b : Node} (ht : a.title = b.title) (hb : a.body = b.body)
    (hp : a.properties = b.properties) (property : String) :
    uniqueKey a property = uniqueKey b property := by
  simp only [uniqueKey,ht,hb,hp]

theorem tupleKey_congr {a b : Node} (ht : a.title = b.title) (hb : a.body = b.body)
    (hp : a.properties = b.properties) (properties : List String) :
    tupleKey a properties = tupleKey b properties := by
  have h : ∀ (ps : List String) (i : ℕ) (key : String),
      tupleKeyFrom a ps i key = tupleKeyFrom b ps i key := by
    intro ps
    induction ps with
    | nil => intro i key; rfl
    | cons p ps ih =>
      intro i key
      simp only [tupleKeyFrom,uniqueKey_congr ht hb hp p,ih]
  exact h properties 0 ""

end Keys

theorem hasLabel_congr {a b : Node} (hk : a.kind = b.kind) (hp : a.properties = b.properties)
    (label : String) : hasLabel a label = hasLabel b label := by
  simp only [hasLabel,secondaryLabels,hk,hp]

/-! ## Paths through property maps -/

/-- A property path, which may end in a wildcard that stands for every path below. -/
structure PropertyPath where
  segments : List String
  wildcard : Bool
  nonempty : segments ≠ [] ∨ wildcard = true
  plain : ∀ s ∈ segments, s ≠ ""
  deriving DecidableEq

namespace Json

/-- The value that a path leads to. -/
def descend : Json → List String → Option Json
  | value,[] => some value
  | .object members,segment :: path =>
    match members.lookup segment with
    | some next => next.descend path
    | none => none
  | _,_ :: _ => none

end Json

end Drevo
