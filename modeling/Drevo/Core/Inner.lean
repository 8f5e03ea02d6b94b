import Drevo.Core.Model
import Drevo.Lib.Sorted

/-! The in-memory state of the graph with its derived structures: adjacency lists, the title
and kind indexes, the lookups behind uniqueness constraints. -/
namespace Drevo
open Lib

/-- One change of the graph as the log records it. -/
inductive GraphOp where
  | upsertNode (node : Node)
  | deleteNode (id : ℕ)
  | upsertEdge (edge : Edge)
  | deleteEdge (id : ℕ)
  | setEmbedding (id : ℕ) (vector : List F32)
  | deleteEmbedding (id : ℕ)
  deriving DecidableEq

/-- One entry of the write-ahead log. The write set of a prepared transaction holds changes
of the graph only: it is the buffer of a transaction. -/
inductive WalOp where
  | graph (op : GraphOp)
  | prepare (gid : String) (preparedAtMs : ℤ) (ops : List GraphOp)
  | commitPrepared (gid : String)
  | rollbackPrepared (gid : String) (heuristic : Bool)
  deriving DecidableEq

/-- An incident edge seen from one of its ends, with its interned kind. -/
structure AdjEntry where
  edgeId : ℕ
  neighborId : ℕ
  kindId : ℕ
  deriving DecidableEq

def adjSortKey (e : AdjEntry) : ℕ ×ₗ ℕ ×ₗ ℕ := toLex (e.kindId,toLex (e.neighborId,e.edgeId))

theorem adjSortKey_injective : Function.Injective adjSortKey := by
  intro a b h
  obtain ⟨a₁,a₂,a₃⟩ := a
  obtain ⟨b₁,b₂,b₃⟩ := b
  simpa [adjSortKey,and_comm,and_assoc,and_left_comm] using h

/-- Adjacency lists by node id. -/
abbrev Adjacency := Map ℕ (List AdjEntry)

namespace Adjacency

/-- The list of a node, empty when there is none. -/
def list (m : Adjacency) (id : ℕ) : List AdjEntry := m[id]?.getD []

def insertAdjSorted (m : Adjacency) (id : ℕ) (e : AdjEntry) : Adjacency :=
  m.insert id (insertSorted adjSortKey (m.list id) e)

/-- Rewrite the list of `id` if there is one. -/
def modify (m : Adjacency) (id : ℕ) (f : List AdjEntry → List AdjEntry) : Adjacency :=
  match m[id]? with
  | none => m
  | some v => m.insert id (f v)

/-- Give the entries of an edge a new kind and put the list back in order. -/
def rekind (edgeId kindId : ℕ) (v : List AdjEntry) : List AdjEntry :=
  (v.map (fun e => if e.edgeId = edgeId then { e with kindId := kindId } else e)).insertionSort
    (fun a b => adjSortKey a ≤ adjSortKey b)

end Adjacency

abbrev UniqueTuple := String × List String

structure PreparedEntry where
  preparedAtMs : ℤ
  ops : List GraphOp
  deriving DecidableEq

/-- The last ids handed out. -/
structure IdCounters where
  node : ℕ := 0
  edge : ℕ := 0
  deriving DecidableEq

namespace IdCounters

def observeNode (c : IdCounters) (id : ℕ) : IdCounters := { c with node := max c.node id }
def observeEdge (c : IdCounters) (id : ℕ) : IdCounters := { c with edge := max c.edge id }

end IdCounters

structure Inner where
  nodes : Map ℕ Node := ∅
  edges : Map ℕ Edge := ∅
  outAdj : Adjacency := ∅
  inAdj : Adjacency := ∅
  titles : Index String ℕ := ∅
  kindIndex : Index String ℕ := ∅
  kindIds : Map String ℕ := ∅
  embeddings : Map ℕ (List F32) := ∅
  constraints : List Constraint := []
  unique : List (UniqueTuple × Index String ℕ) := []
  ids : IdCounters := {}
  lastUpdatedAt : ℤ := 0
  prepared : Map String PreparedEntry := ∅
  heuristic : Map String Unit := ∅
  commitSeq : ℕ := 0

namespace Inner

def observeUpdatedAt (s : Inner) (ts : ℤ) : Inner := { s with lastUpdatedAt := max s.lastUpdatedAt ts }

def nextUpdatedAt (s : Inner) (now : ℤ) : ℤ := max now (s.lastUpdatedAt+1)

def internKind (s : Inner) (kind : String) : ℕ × Inner :=
  match s.kindIds[kind]? with
  | some id => (id,s)
  | none => (s.kindIds.size,{ s with kindIds := s.kindIds.insert kind s.kindIds.size })

def indexNodeKind (s : Inner) (id : ℕ) (kind : String) : Inner :=
  { s with kindIndex := s.kindIndex.add kind id }

def unindexNodeKind (s : Inner) (id : ℕ) (kind : String) : Inner :=
  { s with kindIndex := s.kindIndex.remove kind id }

def indexTitle (s : Inner) (id : ℕ) (title : String) : Inner :=
  { s with titles := s.titles.add title id }

def unindexTitle (s : Inner) (id : ℕ) (title : String) : Inner :=
  { s with titles := s.titles.remove title id }

/-- The adjacency entries of a node. Under `both` a self-loop, which stands in both lists,
is reported by the outgoing pass only. -/
def incidentEntries (s : Inner) (id : ℕ) (direction : Direction) : List AdjEntry :=
  let out := if direction = .incoming then [] else s.outAdj.list id
  let inn := if direction = .outgoing then []
    else (s.inAdj.list id).filter (fun e => !(direction = .both && e.neighborId = id))
  out ++ inn

def removeEdge (s : Inner) (id : ℕ) : Inner :=
  match s.edges[id]? with
  | none => s
  | some edge =>
    { s with
      edges := s.edges.erase id
      outAdj := s.outAdj.modify edge.fromId (fun v => v.filter (fun e => e.edgeId ≠ id))
      inAdj := s.inAdj.modify edge.toId (fun v => v.filter (fun e => e.edgeId ≠ id)) }

section Constraints
variable [JsonText]

def describeProperties : List String → String
  | [one] => s!"`{one}`"
  | many => "(" ++ ", ".intercalate (many.map (fun p => s!"`{p}`")) ++ ")"

def describeKey (key : String) : String :=
  if key.contains tupleSeparator then
    "(" ++ ", ".intercalate (key.splitOn (String.singleton tupleSeparator)) ++ ")"
  else key

/-- The lookup key of a node under a unique tuple, if the tuple covers it. -/
def coveredKey (node : Node) (tuple : UniqueTuple) : Option String :=
  if hasLabel node tuple.1 then tupleKey node tuple.2 else none

/-- The smallest id of another node filed under the node's key of one unique tuple. -/
def uniqueClash (node : Node) (entry : UniqueTuple × Index String ℕ) : Option ConstraintViolation :=
  match coveredKey node entry.1 with
  | none => none
  | some key =>
    let others := (entry.2.ids key).erase node.id
    if h : others.Nonempty then
      let other := others.min' h
      some
        { kind := entry.1.1
          message := s!"node {other} already has {describeProperties entry.1.2} = {describeKey key} (unique constraint)" }
    else none

def checkUnique (s : Inner) (node : Node) : Except ConstraintViolation Unit :=
  match s.unique.findSome? (uniqueClash node) with
  | some violation => .error violation
  | none => .ok ()

/-- The first property a constraint requires of the node and the node lacks. -/
def missingProperty (node : Node) (c : Constraint) : Option ConstraintViolation :=
  match c.required with
  | none => none
  | some (kind,required) =>
    if hasLabel node kind then
      (required.find? (fun p => (uniqueKey node p).isNone)).map (fun missing =>
        { kind := kind, message := s!"node {node.id} is missing required property `{missing}`" })
    else none

def checkExists (s : Inner) (node : Node) : Except ConstraintViolation Unit :=
  match s.constraints.findSome? (missingProperty node) with
  | some violation => .error violation
  | none => .ok ()

def indexUnique (s : Inner) (node : Node) : Inner :=
  { s with
    unique := s.unique.map (fun entry =>
      match coveredKey node entry.1 with
      | some key => (entry.1,entry.2.add key node.id)
      | none => entry) }

def unindexUnique (s : Inner) (node : Node) : Inner :=
  { s with
    unique := s.unique.map (fun entry =>
      match coveredKey node entry.1 with
      | some key => (entry.1,entry.2.remove key node.id)
      | none => entry) }

def buildUnique (s : Inner) (tuple : UniqueTuple) : Index String ℕ :=
  s.nodes.toList.foldl (fun values p =>
    match coveredKey p.2 tuple with
    | some key => values.add key p.2.id
    | none => values) ∅

def syncUnique (s : Inner) : Inner :=
  let needed := s.constraints.filterMap Constraint.uniqueTuple
  let kept := s.unique.filter (fun entry => needed.contains entry.1)
  { s with
    unique := needed.foldl (fun unique tuple =>
      if unique.any (fun entry => entry.1 = tuple) then unique
      else unique ++ [(tuple,s.buildUnique tuple)]) kept }

/-- A second node with the same value of a unique tuple, in id order. -/
def duplicateValue (tuple : UniqueTuple) : List Node → List String → Option ConstraintViolation
  | [],_ => none
  | node :: rest,seen =>
    match coveredKey node tuple with
    | none => duplicateValue tuple rest seen
    | some key =>
      if key ∈ seen then
        some
          { kind := tuple.1
            message := s!"duplicate value {describeKey key} for unique {describeProperties tuple.2}" }
      else duplicateValue tuple rest (key :: seen)

def validateConstraints (s : Inner) : Except ConstraintViolation Unit :=
  let nodes := s.nodes.toList.map Prod.snd
  match nodes.findSome? (fun node => s.constraints.findSome? (missingProperty node)) with
  | some violation => .error violation
  | none =>
    match (s.constraints.filterMap Constraint.uniqueTuple).findSome?
        (fun tuple => duplicateValue tuple nodes []) with
    | some violation => .error violation
    | none => .ok ()

end Constraints
end Inner
end Drevo
