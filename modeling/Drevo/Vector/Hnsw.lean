import Mathlib

/-! An index for the nearest vectors: a graph in layers, searched greedily from the top and with a beam below. -/
namespace Drevo.Vector

inductive VectorError where
  | dimensionMismatch (left right : ℕ)
  | empty
  | zeroVector
  deriving DecidableEq

inductive HnswStop where
  | error (e : VectorError)
  | panic
  deriving DecidableEq

abbrev HnswResult (α : Type*) := Except HnswStop α

/-- How far vectors are from each other, where that is defined. -/
structure Metric (V D : Type*) where
  dim : V → ℕ
  distance : V → V → Except VectorError D

structure HnswConfig (V D : Type*) where
  m : ℕ
  efConstruction : ℕ
  metric : Metric V D

/-- An element: `neighbors[layer]` is what it links to on the layer. -/
structure HnswNode (V : Type*) where
  key : ℕ
  vector : V
  neighbors : List (List ℕ)

def HnswNode.level {V : Type*} (n : HnswNode V) : ℕ := n.neighbors.length-1

structure HnswIndex (V D : Type*) where
  config : HnswConfig V D
  nodes : List (HnswNode V)
  entry : Option ℕ
  dim : Option ℕ

/-- A distance and an element, in the order of both. -/
abbrev Candidate (D : Type*) := D ×ₗ ℕ

/-- What a search on a layer has seen, is still to expand and keeps. -/
structure Beam (D : Type*) where
  visited : List ℕ
  candidates : List (Candidate D)
  results : List (Candidate D)

variable {V D : Type*}

/-- The distance of the farthest that is kept. -/
def Beam.farthest (b : Beam D) : WithTop D := b.results.getLast?.elim ⊤ (fun c => ((ofLex c).1 : WithTop D))

namespace HnswIndex

def new (config : HnswConfig V D) : HnswIndex V D := ⟨config,[],none,none⟩

def neighborsOf (ix : HnswIndex V D) (id layer : ℕ) : HnswResult (List ℕ) :=
  match ix.nodes[id]?.bind (fun n => n.neighbors[layer]?) with
  | some links => .ok links
  | none => .error .panic

def distTo (ix : HnswIndex V D) (query : V) (id : ℕ) : HnswResult D :=
  match ix.nodes[id]? with
  | none => .error .panic
  | some n => match ix.config.metric.distance query n.vector with
    | .ok d => .ok d
    | .error e => .error (.error e)

variable [LinearOrder D]

/-! ## Greedy descent -/

/-- One pass over the neighbors of an element: the closest so far, and whether there was a closer one. -/
def scanNeighbors (ix : HnswIndex V D) (query : V) : List ℕ → ℕ × D × Bool → HnswResult (ℕ × D × Bool)
  | [],best => .ok best
  | n :: ns,best => match ix.distTo query n with
    | .error e => .error e
    | .ok d => ix.scanNeighbors query ns (if d < best.2.1 then (n,d,true) else best)

def closer (ix : HnswIndex V D) (query : V) (dist : D) (id : ℕ) : Bool :=
  match ix.distTo query id with
  | .ok d => d < dist
  | .error _ => false

omit [LinearOrder D] in
theorem distTo_lt {ix : HnswIndex V D} {query : V} {id : ℕ} {d : D} (h : ix.distTo query id = .ok d) : id < ix.nodes.length := by
  rw [distTo] at h
  by_contra hlt
  rw [List.getElem?_eq_none (not_lt.mp hlt)] at h
  cases h

theorem scanNeighbors_best {ix : HnswIndex V D} {query : V} {ns : List ℕ} {best r : ℕ × D × Bool} (h : ix.scanNeighbors query ns best = .ok r) :
    r = best ∨ (r.1 ∈ ns ∧ r.2.2 = true ∧ ix.distTo query r.1 = .ok r.2.1 ∧ r.2.1 < best.2.1) := by
  induction ns generalizing best with
  | nil => exact .inl (Except.ok.inj h).symm
  | cons n ns ih =>
    rw [scanNeighbors] at h
    cases hd : ix.distTo query n with
    | error e =>
      rw [hd] at h
      cases h
    | ok d =>
      rw [hd] at h
      dsimp only at h
      obtain hsame | ⟨hmem,himproved,hdist,hlt⟩ := ih h
      · split_ifs at hsame with hless
        · rw [hsame]
          exact .inr ⟨List.mem_cons_self,rfl,hd,hless⟩
        · exact .inl hsame
      · refine .inr ⟨List.mem_cons_of_mem _ hmem,himproved,hdist,?_⟩
        split_ifs at hlt with hless
        · exact hlt.trans hless
        · exact hlt

theorem closer_lt {ix : HnswIndex V D} {query : V} {id : ℕ} {d dist : D} (h : ix.distTo query id = .ok d) (hlt : d < dist) :
    (List.range ix.nodes.length).countP (ix.closer query d) < (List.range ix.nodes.length).countP (ix.closer query dist) := by
  have hmono : ∀ i, ix.closer query d i = true → ix.closer query dist i = true := by
    intro i hi
    unfold closer at hi ⊢
    cases hdist : ix.distTo query i with
    | error e =>
      rw [hdist] at hi
      cases hi
    | ok d' =>
      rw [hdist] at hi
      exact decide_eq_true ((of_decide_eq_true hi).trans hlt)
  have hnot : ix.closer query d id = false := by
    rw [closer,h]
    exact decide_eq_false (lt_irrefl d)
  have his : ix.closer query dist id = true := by
    rw [closer,h]
    exact decide_eq_true hlt
  rw [List.countP_eq_length_filter,List.countP_eq_length_filter]
  have hsub : List.Sublist ((List.range ix.nodes.length).filter (ix.closer query d)) ((List.range ix.nodes.length).filter (ix.closer query dist)) :=
    List.monotone_filter_right _ hmono
  refine lt_of_le_of_ne hsub.length_le (fun heq => ?_)
  have hin : id ∈ (List.range ix.nodes.length).filter (ix.closer query dist) :=
    List.mem_filter.mpr ⟨List.mem_range.mpr (distTo_lt h),his⟩
  rw [← hsub.eq_of_length heq] at hin
  exact Bool.false_ne_true (hnot.symm.trans (List.mem_filter.mp hin).2)

/-- The walk to ever closer neighbors, up to an element without a closer one. -/
def greedyLoop (ix : HnswIndex V D) (query : V) (layer current : ℕ) (dist : D) : HnswResult ℕ :=
  match ix.neighborsOf current layer with
  | .error e => .error e
  | .ok ns => match _hscan : ix.scanNeighbors query ns (current,dist,false) with
    | .error e => .error e
    | .ok (next,d,improved) => if _himproved : improved = true then ix.greedyLoop query layer next d else .ok next
termination_by (List.range ix.nodes.length).countP (ix.closer query dist)
decreasing_by
  obtain hsame | ⟨-,-,hdist,hlt⟩ := scanNeighbors_best _hscan
  · cases hsame
    cases _himproved
  · exact closer_lt hdist hlt

def greedyClosest (ix : HnswIndex V D) (query : V) (start layer : ℕ) : HnswResult ℕ :=
  match ix.distTo query start with
  | .error e => .error e
  | .ok dist => ix.greedyLoop query layer start dist

/-- The greedy descent through so many layers down to above `lowest`. -/
def descend (ix : HnswIndex V D) (query : V) (lowest : ℕ) : ℕ → ℕ → HnswResult ℕ
  | 0,entry => .ok entry
  | gap+1,entry => match ix.greedyClosest query entry (lowest+gap+1) with
    | .error e => .error e
    | .ok closest => ix.descend query lowest gap closest

/-! ## Beam search -/

/-- A neighbor that was not seen is kept if it is closer than the farthest that is kept, or fewer than `ef` are. -/
def visitNeighbor (ix : HnswIndex V D) (query : V) (ef : ℕ) (b : Beam D) (neighbor : ℕ) : HnswResult (Beam D) :=
  if neighbor ∈ b.visited then .ok b
  else match ix.distTo query neighbor with
    | .error e => .error e
    | .ok d =>
      if (d : WithTop D) < b.farthest ∨ b.results.length < ef then
        .ok ⟨neighbor :: b.visited,b.candidates.orderedInsert (· ≤ ·) (toLex (d,neighbor)),
          (b.results.orderedInsert (· ≤ ·) (toLex (d,neighbor))).take ef⟩
      else .ok { b with visited := neighbor :: b.visited }

def visitAll (ix : HnswIndex V D) (query : V) (ef : ℕ) : List ℕ → Beam D → HnswResult (Beam D)
  | [],b => .ok b
  | n :: ns,b => match ix.visitNeighbor query ef b n with
    | .error e => .error e
    | .ok b => ix.visitAll query ef ns b

/-- Every element is seen once, and every candidate was seen. -/
def work (ix : HnswIndex V D) (b : Beam D) : ℕ := 2*(List.range ix.nodes.length).countP (fun i => i ∉ b.visited)+b.candidates.length

theorem visitNeighbor_work {ix : HnswIndex V D} {query : V} {ef n : ℕ} {b b' : Beam D} (h : ix.visitNeighbor query ef b n = .ok b') :
    ix.work b' ≤ ix.work b := by
  unfold visitNeighbor at h
  split_ifs at h with hseen
  · rw [Except.ok.inj h]
  · cases hd : ix.distTo query n with
    | error e =>
      rw [hd] at h
      cases h
    | ok d =>
      rw [hd] at h
      dsimp only at h
      have hfewer : (List.range ix.nodes.length).countP (fun i => i ∉ n :: b.visited) < (List.range ix.nodes.length).countP (fun i => i ∉ b.visited) := by
        rw [List.countP_eq_length_filter,List.countP_eq_length_filter]
        have hsub : List.Sublist ((List.range ix.nodes.length).filter (fun i => i ∉ n :: b.visited))
            ((List.range ix.nodes.length).filter (fun i => i ∉ b.visited)) :=
          List.monotone_filter_right _ (fun i hi => by simp only [decide_eq_true_eq,List.mem_cons,not_or] at hi ⊢; exact hi.2)
        refine lt_of_le_of_ne hsub.length_le (fun heq => ?_)
        have hin : n ∈ (List.range ix.nodes.length).filter (fun i => i ∉ b.visited) :=
          List.mem_filter.mpr ⟨List.mem_range.mpr (distTo_lt hd),decide_eq_true hseen⟩
        rw [← hsub.eq_of_length heq] at hin
        exact absurd List.mem_cons_self (of_decide_eq_true (List.mem_filter.mp hin).2)
      unfold work
      split_ifs at h with hkeep
      · rw [← Except.ok.inj h]
        dsimp only
        rw [List.orderedInsert_length]
        omega
      · rw [← Except.ok.inj h]
        dsimp only
        omega

theorem visitAll_work {ix : HnswIndex V D} {query : V} {ef : ℕ} {ns : List ℕ} {b b' : Beam D} (h : ix.visitAll query ef ns b = .ok b') :
    ix.work b' ≤ ix.work b := by
  induction ns generalizing b with
  | nil => rw [Except.ok.inj h]
  | cons n ns ih =>
    rw [visitAll] at h
    cases hn : ix.visitNeighbor query ef b n with
    | error e =>
      rw [hn] at h
      cases h
    | ok mid =>
      rw [hn] at h
      exact (ih h).trans (visitNeighbor_work hn)

/-- Expands the closest candidate, until it is farther than all that are kept and enough are. -/
def searchLoop (ix : HnswIndex V D) (query : V) (ef layer : ℕ) (b : Beam D) : HnswResult (List (Candidate D)) :=
  match _hwork : b.candidates with
  | [] => .ok b.results
  | c :: rest =>
    if b.farthest < ((ofLex c).1 : WithTop D) ∧ ef ≤ b.results.length then .ok b.results
    else match ix.neighborsOf (ofLex c).2 layer with
      | .error e => .error e
      | .ok ns => match _hvisit : ix.visitAll query ef ns { b with candidates := rest } with
        | .error e => .error e
        | .ok b' => ix.searchLoop query ef layer b'
termination_by ix.work b
decreasing_by
  have hle := visitAll_work _hvisit
  unfold work at hle ⊢
  rw [_hwork,List.length_cons]
  dsimp only at hle
  omega

/-- The elements that a search starts from, each once. -/
def seed (ix : HnswIndex V D) (query : V) : List ℕ → Beam D → HnswResult (Beam D)
  | [],b => .ok b
  | ep :: eps,b =>
    if ep ∈ b.visited then ix.seed query eps b
    else match ix.distTo query ep with
      | .error e => .error e
      | .ok d => ix.seed query eps ⟨ep :: b.visited,b.candidates.orderedInsert (· ≤ ·) (toLex (d,ep)),b.results.orderedInsert (· ≤ ·) (toLex (d,ep))⟩

def searchLayer (ix : HnswIndex V D) (query : V) (entryPoints : List ℕ) (ef layer : ℕ) : HnswResult (List (Candidate D)) :=
  match ix.seed query entryPoints ⟨[],[],[]⟩ with
  | .error e => .error e
  | .ok b => ix.searchLoop query ef layer { b with results := b.results.take ef }

/-! ## Links -/

def selectNeighbors (candidates : List (Candidate D)) (m : ℕ) : List ℕ := (candidates.take m).map (fun c => (ofLex c).2)

/-- Writes the links of an element on a layer. -/
def setLinks (ix : HnswIndex V D) (id layer : ℕ) (links : List ℕ) : HnswIndex V D :=
  { ix with nodes := ix.nodes.modify id (fun n => { n with neighbors := n.neighbors.set layer links }) }

/-- The distances from a vector to elements, in their order. -/
def scoreAll (ix : HnswIndex V D) (base : V) : List ℕ → HnswResult (List (Candidate D))
  | [] => .ok []
  | n :: ns => match ix.distTo base n with
    | .error e => .error e
    | .ok d => match ix.scoreAll base ns with
      | .error e => .error e
      | .ok scored => .ok (toLex (d,n) :: scored)

def prune (ix : HnswIndex V D) (node layer mMax : ℕ) : HnswIndex V D × HnswResult Unit :=
  match ix.nodes[node]?,ix.neighborsOf node layer with
  | some n,.ok links =>
    if links.length ≤ mMax then (ix,.ok ())
    else match ix.scoreAll n.vector links with
      | .error e => (ix,.error e)
      | .ok scored => (ix.setLinks node layer (((scored.insertionSort (· ≤ ·)).take mMax).map (fun c => (ofLex c).2)),.ok ())
  | _,_ => (ix,.error .panic)

/-- A new link is at the end. -/
def pushLink (ix : HnswIndex V D) (id layer target : ℕ) : HnswIndex V D × HnswResult Unit :=
  match ix.neighborsOf id layer with
  | .error e => (ix,.error e)
  | .ok links => (ix.setLinks id layer (links ++ [target]),.ok ())

/-- Goes on with the index unless a step failed; what the step changed stays. -/
def andThen (r : HnswIndex V D × HnswResult Unit) (next : HnswIndex V D → HnswIndex V D × HnswResult Unit) : HnswIndex V D × HnswResult Unit :=
  match r.2 with
  | .error e => (r.1,.error e)
  | .ok () => next r.1

/-- Links the new element and its neighbors both ways, and prunes each of them. -/
def linkAll (newId layer mMax : ℕ) : List ℕ → HnswIndex V D → HnswIndex V D × HnswResult Unit
  | [],ix => (ix,.ok ())
  | n :: ns,ix => andThen (ix.pushLink newId layer n) fun ix => andThen (ix.pushLink n layer newId) fun ix =>
      andThen (ix.prune n layer mMax) (linkAll newId layer mMax ns)

/-- On each layer from below `layers` down, the new element is linked to the closest ones that a search finds. -/
def connect (query : V) (newId : ℕ) : ℕ → ℕ → HnswIndex V D → HnswIndex V D × HnswResult Unit
  | 0,_,ix => (ix,.ok ())
  | layer+1,entry,ix => match ix.searchLayer query [entry] ix.config.efConstruction layer with
    | .error e => (ix,.error e)
    | .ok found =>
      andThen (linkAll newId layer (if layer = 0 then ix.config.m*2 else ix.config.m) (selectNeighbors found ix.config.m) ix)
        (connect query newId layer ((found.head?.map (fun c => (ofLex c).2)).getD entry))

/-- A new element without links on the layers up to its level. -/
def pushNode (ix : HnswIndex V D) (key : ℕ) (vector : V) (level : ℕ) : HnswIndex V D :=
  { ix with nodes := ix.nodes ++ [⟨key,vector,List.replicate (level+1) []⟩] }

/-- A new element becomes part of the graph. -/
def place (ix : HnswIndex V D) (key : ℕ) (vector : V) (level : ℕ) : HnswIndex V D × HnswResult Unit :=
  let newId := ix.nodes.length
  let pushed := ix.pushNode key vector level
  match ix.entry with
  | none => ({ pushed with entry := some newId },.ok ())
  | some entry => match pushed.nodes[entry]? with
    | none => (pushed,.error .panic)
    | some top => match pushed.descend vector level (top.level-level) entry with
      | .error e => (pushed,.error e)
      | .ok entry => andThen (pushed.connect vector newId (min level top.level+1) entry) fun ix =>
          (if top.level < level then { ix with entry := some newId } else ix,.ok ())

def insert (ix : HnswIndex V D) (key : ℕ) (vector : V) (level : ℕ) : HnswIndex V D × HnswResult Unit :=
  let dim := ix.config.metric.dim vector
  if dim = 0 then (ix,.error (.error .empty))
  else match ix.dim with
    | none => { ix with dim := some dim }.place key vector level
    | some d => if d ≠ dim then (ix,.error (.error (.dimensionMismatch d dim))) else ix.place key vector level

structure Neighbor (D : Type*) where
  key : ℕ
  distance : D

/-- The keys of what was found. -/
def named (ix : HnswIndex V D) : List (Candidate D) → HnswResult (List (Neighbor D))
  | [] => .ok []
  | c :: cs => match ix.nodes[(ofLex c).2]? with
    | none => .error .panic
    | some n => match ix.named cs with
      | .error e => .error e
      | .ok rest => .ok (⟨n.key,(ofLex c).1⟩ :: rest)

def searchWithEf (ix : HnswIndex V D) (query : V) (k ef : ℕ) : HnswResult (List (Neighbor D)) :=
  let dim := ix.config.metric.dim query
  if dim = 0 then .error (.error .empty)
  else match ix.dim.filter (· ≠ dim) with
    | some d => .error (.error (.dimensionMismatch d dim))
    | none => match ix.entry with
      | none => .ok []
      | some entry =>
        if k = 0 then .ok []
        else match ix.nodes[entry]? with
          | none => .error .panic
          | some top => match ix.descend query 0 top.level entry with
            | .error e => .error e
            | .ok entry => match ix.searchLayer query [entry] (max ef k) 0 with
              | .error e => .error e
              | .ok found => ix.named (found.take k)

def search (ix : HnswIndex V D) (query : V) (k : ℕ) : HnswResult (List (Neighbor D)) :=
  ix.searchWithEf query k (max ix.config.efConstruction k)

end HnswIndex

end Drevo.Vector
