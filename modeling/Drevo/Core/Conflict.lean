import Drevo.Core.Replay

/-! What a commit touched, and whether two commits could stand side by side. -/
namespace Drevo
open Lib

/-- A record a commit touched. -/
inductive Key where
  | node (id : ℕ)
  | edge (id : ℕ)
  deriving DecidableEq

namespace GraphOp

/-- The record the change writes. An embedding is part of its node. -/
def key : GraphOp → Key
  | .upsertNode node => .node node.id
  | .deleteNode id => .node id
  | .upsertEdge edge => .edge edge.id
  | .deleteEdge id => .edge id
  | .setEmbedding id _ => .node id
  | .deleteEmbedding id => .node id

def isDelete : GraphOp → Bool
  | .deleteNode _ => true
  | .deleteEdge _ => true
  | _ => false

/-- The nodes that must be there for the change: the ends of a relationship it stores. -/
def needs : GraphOp → List ℕ
  | .upsertEdge edge => [edge.fromId,edge.toId]
  | _ => []

/-- Two changes that must not stand side by side: they write one record, or one of them
deletes a node the relationship stored by the other one needs. -/
def Clashes (c op : GraphOp) : Prop :=
  c.key = op.key ∨ (c.isDelete = true ∧ ∃ n ∈ op.needs, c.key = .node n) ∨
    (op.isDelete = true ∧ ∃ n ∈ c.needs, op.key = .node n)

end GraphOp

/-- The records a batch of changes wrote, deleted and depends on. -/
structure ConflictSet where
  writes : Finset Key := ∅
  deletes : Finset Key := ∅
  deps : Finset Key := ∅
  everything : Bool := false
  deriving DecidableEq

namespace ConflictSet

def extend (s other : ConflictSet) : ConflictSet where
  writes := s.writes ∪ other.writes
  deletes := s.deletes ∪ other.deletes
  deps := s.deps ∪ other.deps
  everything := s.everything || other.everything

/-- The set of one change: an upsert writes its record, a delete writes and deletes it, a
written relationship depends on its ends, and an embedding is part of its node. -/
def addOp (s : ConflictSet) : GraphOp → ConflictSet
  | .upsertNode node => { s with writes := insert (.node node.id) s.writes }
  | .deleteNode id =>
    { s with writes := insert (.node id) s.writes, deletes := insert (.node id) s.deletes }
  | .upsertEdge edge =>
    { s with
      writes := insert (.edge edge.id) s.writes
      deps := insert (.node edge.toId) (insert (.node edge.fromId) s.deps) }
  | .deleteEdge id =>
    { s with writes := insert (.edge id) s.writes, deletes := insert (.edge id) s.deletes }
  | .setEmbedding id _ => { s with writes := insert (.node id) s.writes }
  | .deleteEmbedding id => { s with writes := insert (.node id) s.writes }

def fromOps (ops : List GraphOp) : ConflictSet := ops.foldl addOp {}

theorem addOp_writes (s : ConflictSet) (op : GraphOp) : (s.addOp op).writes = insert op.key s.writes := by
  cases op <;> rfl

theorem addOp_deletes (s : ConflictSet) (op : GraphOp) (k : Key) :
    k ∈ (s.addOp op).deletes ↔ k ∈ s.deletes ∨ op.isDelete = true ∧ op.key = k := by
  cases op <;> simp [addOp,GraphOp.isDelete,GraphOp.key,or_comm,eq_comm]

theorem addOp_deps (s : ConflictSet) (op : GraphOp) (k : Key) :
    k ∈ (s.addOp op).deps ↔ k ∈ s.deps ∨ ∃ n ∈ op.needs, k = .node n := by
  cases op with
  | upsertEdge edge => simp [addOp,GraphOp.needs]; tauto
  | _ => simp [addOp,GraphOp.needs]

theorem foldl_addOp_writes (ops : List GraphOp) (s : ConflictSet) (k : Key) :
    k ∈ (ops.foldl addOp s).writes ↔ k ∈ s.writes ∨ ∃ op ∈ ops, op.key = k := by
  induction ops generalizing s with
  | nil => simp
  | cons op ops ih =>
    rw [List.foldl_cons,ih,addOp_writes,Finset.mem_insert,List.exists_mem_cons_iff,eq_comm]
    tauto

theorem foldl_addOp_deletes (ops : List GraphOp) (s : ConflictSet) (k : Key) :
    k ∈ (ops.foldl addOp s).deletes ↔ k ∈ s.deletes ∨ ∃ op ∈ ops, op.isDelete = true ∧ op.key = k := by
  induction ops generalizing s with
  | nil => simp
  | cons op ops ih =>
    rw [List.foldl_cons,ih,addOp_deletes,List.exists_mem_cons_iff,or_assoc]

theorem foldl_addOp_deps (ops : List GraphOp) (s : ConflictSet) (k : Key) :
    k ∈ (ops.foldl addOp s).deps ↔ k ∈ s.deps ∨ ∃ op ∈ ops, ∃ n ∈ op.needs, k = .node n := by
  induction ops generalizing s with
  | nil => simp
  | cons op ops ih =>
    rw [List.foldl_cons,ih,addOp_deps,List.exists_mem_cons_iff,or_assoc]

@[simp] theorem mem_fromOps_writes {ops : List GraphOp} {k : Key} :
    k ∈ (fromOps ops).writes ↔ ∃ op ∈ ops, op.key = k := by
  simp [fromOps,foldl_addOp_writes]

@[simp] theorem mem_fromOps_deletes {ops : List GraphOp} {k : Key} :
    k ∈ (fromOps ops).deletes ↔ ∃ op ∈ ops, op.isDelete = true ∧ op.key = k := by
  simp [fromOps,foldl_addOp_deletes]

@[simp] theorem mem_fromOps_deps {ops : List GraphOp} {k : Key} :
    k ∈ (fromOps ops).deps ↔ ∃ op ∈ ops, ∃ n ∈ op.needs, k = .node n := by
  simp [fromOps,foldl_addOp_deps]

@[simp] theorem fromOps_everything (ops : List GraphOp) : (fromOps ops).everything = false := by
  have h : ∀ (ops : List GraphOp) (s : ConflictSet), (ops.foldl addOp s).everything = s.everything := by
    intro ops
    induction ops with
    | nil => exact fun s => rfl
    | cons op ops ih =>
      intro s
      rw [List.foldl_cons,ih]
      cases op <;> rfl
  exact h ops {}

/-- One node written. -/
def node (id : ℕ) : ConflictSet := fromOps [.deleteEmbedding id]

def deletedNode (id : ℕ) : ConflictSet := fromOps [.deleteNode id]

/-- One relationship written, with the ends it depends on. -/
def edge (id fromId toId : ℕ) : ConflictSet where
  writes := {.edge id}
  deps := {.node toId,.node fromId}

def deletedEdge (id : ℕ) : ConflictSet := fromOps [.deleteEdge id]

/-- A change of the schema, which conflicts with every other commit. -/
def all : ConflictSet := { everything := true }

def isEmpty (s : ConflictSet) : Bool := !s.everything && s.writes = ∅

def intersects (s other : ConflictSet) : Bool :=
  if s.everything then !other.isEmpty
  else if other.everything then !s.isEmpty
  else (s.writes ∩ other.writes).Nonempty || (s.deps ∩ other.deletes).Nonempty ||
    (s.deletes ∩ other.deps).Nonempty

theorem intersects_eq_false {s other : ConflictSet} (hs : s.everything = false)
    (h : s.intersects other = false) (ho : other.everything = false) :
    (∀ k ∈ s.writes, k ∉ other.writes) ∧ (∀ k ∈ s.deps, k ∉ other.deletes) ∧
      ∀ k ∈ s.deletes, k ∉ other.deps := by
  simp only [intersects,hs,ho,Bool.false_eq_true,if_false,Bool.or_eq_false_iff,decide_eq_false_iff_not,
    Finset.not_nonempty_iff_eq_empty,← Finset.disjoint_iff_inter_eq_empty,Finset.disjoint_left] at h
  exact ⟨h.1.1,h.1.2,h.2⟩

theorem not_clashes {cs ops : List GraphOp} (h : (fromOps cs).intersects (fromOps ops) = false) {c op : GraphOp}
    (hc : c ∈ cs) (hop : op ∈ ops) : ¬ c.Clashes op := by
  obtain ⟨hw,hd,hl⟩ := intersects_eq_false (fromOps_everything cs) h (fromOps_everything ops)
  rintro (hkey | ⟨hdel,n,hn,hkey⟩ | ⟨hdel,n,hn,hkey⟩)
  · exact hw _ (mem_fromOps_writes.mpr ⟨c,hc,rfl⟩) (mem_fromOps_writes.mpr ⟨op,hop,hkey.symm⟩)
  · exact hl _ (mem_fromOps_deletes.mpr ⟨c,hc,hdel,rfl⟩) (mem_fromOps_deps.mpr ⟨op,hop,n,hn,hkey⟩)
  · exact hd _ (mem_fromOps_deps.mpr ⟨c,hc,n,hn,hkey⟩) (mem_fromOps_deletes.mpr ⟨op,hop,hdel,rfl⟩)

theorem everything_eq_false {s : ConflictSet} {ops : List GraphOp} (hops : ops ≠ [])
    (h : s.intersects (fromOps ops) = false) : s.everything = false := by
  by_contra hall
  rw [Bool.not_eq_false] at hall
  simp only [intersects,hall,if_true,isEmpty,fromOps_everything,Bool.not_false,
    Bool.true_and,Bool.not_eq_false',decide_eq_true_eq] at h
  obtain ⟨op,hop⟩ := List.exists_mem_of_ne_nil ops hops
  have hkey : op.key ∈ (fromOps ops).writes := mem_fromOps_writes.mpr ⟨op,hop,rfl⟩
  rw [h] at hkey
  simp at hkey

end ConflictSet

inductive ConflictReason where
  | overlap | wouldPass | history
  deriving DecidableEq

/-- The conflict sets of the most recent commits, newest last, each with the commit sequence
it produced. -/
structure CommitHistory where
  recent : List (ℕ × ConflictSet) := []
  capacity : ℕ := 10000

namespace CommitHistory

/-- Remember that commit `seq` touched `set`, and forget what is beyond the capacity. -/
def push (h : CommitHistory) (seq : ℕ) (set : ConflictSet) : CommitHistory :=
  let recent := h.recent ++ [(seq,set)]
  { h with recent := recent.drop (recent.length-h.capacity) }

def covers (h : CommitHistory) (base : ℕ) : Bool :=
  match h.recent.head? with
  | some (oldest,_) => oldest ≤ base+1
  | none => false

/-- Judge a commit of `mine` by a transaction that began at `base` and found the graph changed. -/
def classify (h : CommitHistory) (base : ℕ) (mine : ConflictSet) : ConflictReason :=
  if !h.covers base then .history
  else if (h.recent.reverse.takeWhile (fun p => p.1 > base)).any (fun p => p.2.intersects mine) then
    .overlap
  else .wouldPass

end CommitHistory

namespace Inner

def preparedSet (s : Inner) : ConflictSet :=
  s.prepared.toList.foldl (fun set p => set.extend (.fromOps p.2.ops)) {}

theorem foldl_extend_mem (l : List (String × PreparedEntry)) (set : ConflictSet) (k : Key)
    (h : k ∈ set.deps ∨ ∃ p ∈ l, k ∈ (ConflictSet.fromOps p.2.ops).deps) :
    k ∈ (l.foldl (fun set p => set.extend (.fromOps p.2.ops)) set).deps := by
  induction l generalizing set with
  | nil => simpa using h
  | cons p l ih =>
    apply ih
    rw [List.exists_mem_cons_iff] at h
    simp only [ConflictSet.extend,Finset.mem_union]
    tauto

theorem mem_preparedSet_deps {s : Inner} {gid : String} {entry : PreparedEntry}
    (h : s.prepared[gid]? = some entry) {k : Key} (hk : k ∈ (ConflictSet.fromOps entry.ops).deps) :
    k ∈ s.preparedSet.deps :=
  foldl_extend_mem _ _ _ (Or.inr ⟨(gid,entry),Std.ExtTreeMap.mem_toList_iff_getElem?_eq_some.mpr h,hk⟩)

theorem preparedSet_everything (s : Inner) : s.preparedSet.everything = false := by
  have h : ∀ (l : List (String × PreparedEntry)) (set : ConflictSet), set.everything = false →
      (l.foldl (fun set p => set.extend (.fromOps p.2.ops)) set).everything = false := by
    intro l
    induction l with
    | nil => exact fun set h => h
    | cons p l ih =>
      intro set hset
      apply ih
      simp [ConflictSet.extend,hset]
  exact h _ _ rfl

variable [JsonText]

theorem validateConstraints_nil {s : Inner} (h : s.constraints = []) : s.validateConstraints = .ok () := by
  have hnone : ∀ nodes : List Node, nodes.findSome? (fun _ => (none : Option ConstraintViolation)) = none :=
    fun nodes => List.findSome?_eq_none_iff.mpr (fun _ _ => rfl)
  simp [validateConstraints,h,hnone]

/-- The state with every prepared write set applied. -/
def afterPrepared (s : Inner) : Inner :=
  s.prepared.toList.foldl (fun s p => s.applyOps p.2.ops) s

def breaksPrepared (s : Inner) : Bool :=
  if s.prepared.isEmpty || s.constraints.isEmpty then false
  else
    match s.afterPrepared.validateConstraints with
    | .ok () => false
    | .error _ => true

end Inner
end Drevo
