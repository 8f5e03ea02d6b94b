import Drevo.Core.Model
import Drevo.Lib.Explore

/-! Breadth-first and depth-first search from a node up to a depth, over relationships of one kind or of all. -/
namespace Drevo.Traversal
open Lib

inductive Direction where
  | outgoing | incoming | both
  deriving DecidableEq

/-- A relationship as the traversals read it. -/
structure Edge (K : Type*) where
  id : ℕ
  fromId : ℕ
  toId : ℕ
  kind : String
  weight : K

variable {K ε : Type*}

def neighborIdForEdge (edge : Edge K) (currentId : ℕ) : Direction → ℕ
  | .outgoing => edge.toId
  | .incoming => edge.fromId
  | .both => if edge.fromId = currentId then edge.toId else edge.fromId

/-- Where a search is: the nodes it has seen, those to go on from with their depths, and what it returns. -/
structure SearchState where
  visited : Finset ℕ
  waiting : List (ℕ × ℕ)
  result : List Node

def SearchState.start (startId : ℕ) : SearchState := ⟨{startId},[(startId,0)],[]⟩

/-- Take from the front of a queue. -/
def popFront {α : Type*} : List α → Option (α × List α)
  | [] => none
  | x::rest => some (x,rest)

/-- Take from the end of a stack. -/
def pop {α : Type*} (stack : List α) : Option (α × List α) := stack.getLast?.map (fun x => (x,stack.dropLast))

section Search
variable (getNode : ℕ → Except ε (Option Node)) (edgesOf : ℕ → Direction → Except ε (List (Edge K))) (take : List (ℕ × ℕ) → Option ((ℕ × ℕ) × List (ℕ × ℕ)))
  (maxDepth : ℕ) (direction : Direction) (edgeKind : Option String)

def passes (edge : Edge K) : Bool := edgeKind.all (fun kind => edge.kind = kind)

/-- The relationships of the current node, one after the other. -/
def visitEdges (currentId depth : ℕ) : SearchState → List (Edge K) → Except ε SearchState
  | s,[] => .ok s
  | s,edge::rest =>
    if passes edgeKind edge then
      let neighborId := neighborIdForEdge edge currentId direction
      if neighborId ∈ s.visited then visitEdges currentId depth s rest
      else
        let s := { s with visited := insert neighborId s.visited }
        match getNode neighborId with
        | .error e => .error e
        | .ok none => visitEdges currentId depth s rest
        | .ok (some node) =>
          visitEdges currentId depth { s with result := s.result ++ [node], waiting := s.waiting ++ [(neighborId,depth+1)] } rest
    else visitEdges currentId depth s rest

/-- One round of the loop; none when nothing waits. -/
def SearchState.next (s : SearchState) : Option (Except ε SearchState) :=
  match take s.waiting with
  | none => none
  | some ((currentId,depth),rest) =>
    let s := { s with waiting := rest }
    if maxDepth ≤ depth then some (.ok s)
    else match edgesOf currentId direction with
      | .error e => some (.error e)
      | .ok edges => some (visitEdges getNode direction edgeKind currentId depth s edges)

/-- The rounds of the loop, as many as the fuel lasts. -/
def searchLoop : ℕ → SearchState → Option (Except ε (List Node))
  | 0,_ => none
  | fuel+1,s =>
    match s.next getNode edgesOf take maxDepth direction edgeKind with
    | none => some (.ok s.result)
    | some (.error e) => some (.error e)
    | some (.ok s) => searchLoop fuel s

variable (fuel startId : ℕ)

def search : Option (Except ε (List Node)) :=
  if maxDepth = 0 then some (.ok []) else searchLoop getNode edgesOf take maxDepth direction edgeKind fuel (.start startId)

def bfs : Option (Except ε (List Node)) := search getNode edgesOf popFront maxDepth direction edgeKind fuel startId

def dfs : Option (Except ε (List Node)) := search getNode edgesOf pop maxDepth direction edgeKind fuel startId

end Search

/-! ## The graph searched -/

/-- A finite graph without dangling relationships. -/
structure Graph (K : Type*) where
  nodes : List Node
  edges : List (Edge K)
  whole : ∀ e ∈ edges, e.fromId ∈ nodes.map Node.id ∧ e.toId ∈ nodes.map Node.id

/-- The relationship is one of the node's in the direction. -/
def Direction.Has : Direction → ℕ → Edge K → Prop
  | .outgoing,id,e => e.fromId = id
  | .incoming,id,e => e.toId = id
  | .both,id,e => e.fromId = id ∨ e.toId = id

instance (direction : Direction) (id : ℕ) (e : Edge K) : Decidable (direction.Has id e) :=
  match direction with
  | .outgoing => inferInstanceAs (Decidable (e.fromId = id))
  | .incoming => inferInstanceAs (Decidable (e.toId = id))
  | .both => inferInstanceAs (Decidable (e.fromId = id ∨ e.toId = id))

def plain (id : ℕ) : Node := ⟨id,id,"","","","",0,0,Properties.new⟩

namespace Graph
variable (g : Graph K)

def node (id : ℕ) : Option Node := g.nodes.find? (fun n => n.id = id)

/-- A relationship of a kind that is asked for leads from one node to the other. -/
def Leads (direction : Direction) (edgeKind : Option String) (x y : ℕ) : Prop :=
  ∃ e ∈ g.edges, direction.Has x e ∧ passes edgeKind e ∧ neighborIdForEdge e x direction = y

/-- The store answers with what is in the graph, a node's relationships in any order. -/
structure Serves (getNode : ℕ → Except ε (Option Node)) (edgesOf : ℕ → Direction → Except ε (List (Edge K))) : Prop where
  node : ∀ id, getNode id = .ok (g.node id)
  edges : ∀ id direction, ∃ edges, edgesOf id direction = .ok edges ∧ ∀ e, e ∈ edges ↔ e ∈ g.edges ∧ direction.Has id e

def getNode (id : ℕ) : Except ε (Option Node) := .ok (g.node id)

def edgesOf (id : ℕ) (direction : Direction) : Except ε (List (Edge K)) := .ok (g.edges.filter (fun e => direction.Has id e))

theorem serves : g.Serves (ε := ε) g.getNode g.edgesOf where
  node _ := rfl
  edges id direction := ⟨_,rfl,fun e => by simp⟩

variable {g}

theorem node_id {id : ℕ} {n : Node} (h : g.node id = some n) : n.id = id := by
  simpa using List.find?_some h

theorem node_isSome {id : ℕ} : (g.node id).isSome ↔ id ∈ g.nodes.map Node.id := by
  simp [node]

theorem neighbor_node {e : Edge K} (he : e ∈ g.edges) (id : ℕ) (direction : Direction) :
    ∃ n, g.node (neighborIdForEdge e id direction) = some n := by
  refine Option.isSome_iff_exists.mp (node_isSome.mpr ?_)
  cases direction with
  | outgoing => exact (g.whole e he).2
  | incoming => exact (g.whole e he).1
  | both =>
    show (if _ then _ else _) ∈ _
    split_ifs
    · exact (g.whole e he).2
    · exact (g.whole e he).1

end Graph

end Drevo.Traversal
