import Drevo.Lib.Binary64
import Drevo.Lib.I64

/-! The values of the query language, their equality and their order. -/
namespace Drevo.Cypher
open Lib

/-- Where in the text of a query something stands. -/
structure Span where
  start : ℕ
  stop : ℕ
  line : ℕ
  column : ℕ
  deriving DecidableEq

inductive ExecError where
  | unsupported (feature : String) (span : Span)
  | unboundVariable (name : String) (span : Span)
  | missingParameter (name : String)
  | typeMismatch (expected got : String) (span : Span)
  | invalidFunctionCall (name message : String) (span : Span)
  deriving DecidableEq

/-- Why an evaluation ends without a value. -/
inductive Stop where
  | error (e : ExecError)
  | panic
  deriving DecidableEq

abbrev ExecResult (α : Type) := Except Stop α

def typeMismatch {α : Type} (expected got : String) (span : Span) : ExecResult α := .error (.error (.typeMismatch expected got span))

structure NodeValue (V : Type) where
  id : ℕ
  uuid : List UInt8
  labels : List String
  properties : List (String × V)

structure RelationshipValue (V : Type) where
  id : ℕ
  uuid : List UInt8
  fromId : ℕ
  toId : ℕ
  kind : String
  properties : List (String × V)

structure PathValue (V : Type) where
  nodes : List (NodeValue V)
  relationships : List (RelationshipValue V)

/-- A value; the entries of a map are in the order of their keys. -/
inductive Value where
  | null
  | bool (b : Bool)
  | integer (i : I64)
  | float (f : Binary64)
  | string (s : String)
  | list (items : List Value)
  | map (entries : List (String × Value))
  | node (n : NodeValue Value)
  | relationship (r : RelationshipValue Value)
  | path (p : PathValue Value)
  deriving Inhabited

namespace Value

def typeName : Value → String
  | null => "Null"
  | bool _ => "Boolean"
  | integer _ => "Integer"
  | float _ => "Float"
  | string _ => "String"
  | list _ => "List"
  | map _ => "Map"
  | node _ => "Node"
  | relationship _ => "Relationship"
  | path _ => "Path"

def asNumber : Value → Option Binary64
  | integer i => some (.ofInt i.1)
  | float f => some f
  | _ => none

def isNull : Value → Bool
  | null => true
  | _ => false

end Value

/-- Two paths are equal when they take the same relationships from the same node. -/
def PathValue.same {V : Type} (p q : PathValue V) : Bool :=
  p.relationships.length = q.relationships.length ∧ p.nodes.head?.map NodeValue.id = q.nodes.head?.map NodeValue.id ∧
    ((p.relationships.zip q.relationships).all (fun r => r.1.id = r.2.id)) = true

namespace Value

mutual
/-- Equality of values, with integers rounded to compare them with floats. -/
def eq : Value → Value → Bool
  | null,null => true
  | bool a,bool b => a = b
  | integer a,integer b => a = b
  | float a,float b => a.eq b
  | integer a,float b => (Binary64.ofInt a.1).eq b
  | float a,integer b => (Binary64.ofInt b.1).eq a
  | string a,string b => a = b
  | list a,list b => eqList a b
  | map a,map b => eqEntries a b
  | node a,node b => a.id = b.id
  | relationship a,relationship b => a.id = b.id
  | path a,path b => a.same b
  | _,_ => false
def eqList : List Value → List Value → Bool
  | [],[] => true
  | x :: xs,y :: ys => eq x y && eqList xs ys
  | _,_ => false
def eqEntries : List (String × Value) → List (String × Value) → Bool
  | [],[] => true
  | (k,x) :: xs,(l,y) :: ys => k = l && eq x y && eqEntries xs ys
  | _,_ => false
end

end Value

mutual
/-- The order of values, in which those of different types are equal and null is the last. -/
def compareValues : Value → Value → Ordering
  | .null,.null => .eq
  | .null,_ => .gt
  | _,.null => .lt
  | .bool a,.bool b => compare a b
  | .integer a,.integer b => compare a b
  | .float a,.float b => (a.partialCmp b).getD .eq
  | .integer a,.float b => ((Binary64.ofInt a.1).partialCmp b).getD .eq
  | .float a,.integer b => (a.partialCmp (Binary64.ofInt b.1)).getD .eq
  | .string a,.string b => compare a b
  | .list a,.list b => compareLists a b
  | .node a,.node b => compare a.id b.id
  | .relationship a,.relationship b => compare a.id b.id
  | _,_ => .eq
def compareLists : List Value → List Value → Ordering
  | [],[] => .eq
  | [],_ :: _ => .lt
  | _ :: _,[] => .gt
  | x :: xs,y :: ys => (compareValues x y).then (compareLists xs ys)
end

end Drevo.Cypher
