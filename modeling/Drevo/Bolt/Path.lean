import Drevo.Bolt.Message
import Drevo.Lib.Intern

/-! How the values of a query are packed for the wire, paths among them, and how a client reads a path back. -/
namespace Drevo.Bolt
open Lib

/-! ## Values of a query -/

structure NodeValue (V : Type) where
  id : UInt64
  labels : List String
  properties : List (String × V)

structure RelationshipValue (V : Type) where
  id : UInt64
  fromId : UInt64
  toId : UInt64
  kind : String
  properties : List (String × V)

/-- Nodes and relationships in traversal order, one relationship for each hop. -/
structure PathValue (V : Type) where
  nodes : List (NodeValue V)
  relationships : List (RelationshipValue V)

/-- A runtime value. A float is kept by its bits; a map has its keys in order. -/
inductive CypherValue where
  | null
  | bool (b : Bool)
  | integer (i : Int64)
  | float (bits : BitVec 64)
  | string (s : String)
  | list (items : List CypherValue)
  | map (entries : List (String × CypherValue))
  | node (n : NodeValue CypherValue)
  | relationship (r : RelationshipValue CypherValue)
  | path (p : PathValue CypherValue)

/-! ## Packing -/

def nodeTag : UInt8 := 0x4E
def relationshipTag : UInt8 := 0x52
def unboundRelationshipTag : UInt8 := 0x72
def pathTag : UInt8 := 0x50

/-- A node whose properties are packed. -/
def NodeValue.toPack (n : NodeValue Value) : Value :=
  .struct nodeTag [.integer n.id.toInt64,.list (n.labels.map .string),.dictionary n.properties]

def RelationshipValue.toPack (r : RelationshipValue Value) : Value :=
  .struct relationshipTag
    [.integer r.id.toInt64,.integer r.fromId.toInt64,.integer r.toId.toInt64,.string r.kind,.dictionary r.properties]

/-- A relationship as it stands in a path, without its ends. -/
def RelationshipValue.toUnbound (r : RelationshipValue Value) : Value :=
  .struct unboundRelationshipTag [.integer r.id.toInt64,.string r.kind,.dictionary r.properties]

namespace PathValue

/-- Two numbers for each hop: the place of its relationship, counted from one and negative if the hop goes against its
direction, and the place of the node it leads to. -/
def indices (relIds : List UInt64) : List UInt64 → List (NodeValue Value) → List (RelationshipValue Value) → List Value
  | uniqNodes,source :: target :: nodes,rv :: rels =>
    let relPos := Int64.ofNat ((relIds.idxOf? rv.id).getD 0)+1
    let signed := if rv.fromId = source.id then relPos else -relPos
    let r := Intern.place target.id uniqNodes
    .integer signed :: .integer (Int64.ofNat r.1) :: indices relIds r.2 (target :: nodes) rels
  | _,_,_ => []

/-- A path whose properties are packed: its distinct nodes, its distinct relationships, and the hops. -/
def toPack (p : PathValue Value) : Value :=
  let rels := Intern.fresh RelationshipValue.id [] p.relationships
  let uniqNodes :=
    match p.nodes with
    | [] => []
    | head :: _ => (Intern.place head.id []).2
  .struct pathTag
    [.list ((Intern.fresh NodeValue.id [] p.nodes).map NodeValue.toPack),
      .list (rels.map RelationshipValue.toUnbound),
      .list (indices (rels.map RelationshipValue.id) uniqNodes p.nodes p.relationships)]

end PathValue

mutual

def cypherToPack : CypherValue → Value
  | .null => .null
  | .bool b => .boolean b
  | .integer i => .integer i
  | .float bits => .float bits
  | .string s => .string s
  | .list items => .list (packItems items)
  | .map entries => .dictionary (packEntries entries)
  | .node n => (packNode n).toPack
  | .relationship r => (packRelationship r).toPack
  | .path p => (packPath p).toPack

def packItems : List CypherValue → List Value
  | [] => []
  | item :: items => cypherToPack item :: packItems items

def packEntries : List (String × CypherValue) → List (String × Value)
  | [] => []
  | (k,v) :: entries => (k,cypherToPack v) :: packEntries entries

def packNode : NodeValue CypherValue → NodeValue Value
  | ⟨id,labels,properties⟩ => ⟨id,labels,packEntries properties⟩

def packRelationship : RelationshipValue CypherValue → RelationshipValue Value
  | ⟨id,fromId,toId,kind,properties⟩ => ⟨id,fromId,toId,kind,packEntries properties⟩

def packPath : PathValue CypherValue → PathValue Value
  | ⟨nodes,relationships⟩ => ⟨packNodes nodes,packRelationships relationships⟩

def packNodes : List (NodeValue CypherValue) → List (NodeValue Value)
  | [] => []
  | n :: nodes => packNode n :: packNodes nodes

def packRelationships : List (RelationshipValue CypherValue) → List (RelationshipValue Value)
  | [] => []
  | r :: rels => packRelationship r :: packRelationships rels

end

def cypherPathToPack (p : PathValue CypherValue) : Value := cypherToPack (.path p)

/-- The id in a field as a string. -/
def idString : Value → Value
  | .integer i => .string (toString i.toInt)
  | other => other

mutual

def withElementIds : Value → Value
  | .struct tag fields =>
    if (tag = nodeTag ∨ tag = unboundRelationshipTag) ∧ fields.length = 3 then
      .struct tag (fields ++ (fields.take 1).map idString)
    else if tag = relationshipTag ∧ fields.length = 5 then .struct tag (fields ++ (fields.take 3).map idString)
    else if tag = pathTag then .struct tag (withElementIdsItems fields)
    else .struct tag fields
  | .list items => .list (withElementIdsItems items)
  | .dictionary entries => .dictionary (withElementIdsEntries entries)
  | other => other

def withElementIdsItems : List Value → List Value
  | [] => []
  | v :: items => withElementIds v :: withElementIdsItems items

def withElementIdsEntries : List (String × Value) → List (String × Value)
  | [] => []
  | (k,v) :: entries => (k,withElementIds v) :: withElementIdsEntries entries

end

theorem withElementIds_list (items : List Value) : withElementIds (.list items) = .list (withElementIdsItems items) := rfl

theorem withElementIdsItems_nil : withElementIdsItems [] = [] := rfl

theorem withElementIdsItems_cons (v : Value) (items : List Value) :
    withElementIdsItems (v :: items) = withElementIds v :: withElementIdsItems items := rfl

/-! ## What a client reads -/

/-- A hop as a client reads it: the relationship with its ends, and the node it leads to. -/
structure Hop where
  relationship : Int64
  start : Int64
  finish : Int64
  node : Int64
  deriving DecidableEq

/-- A path as a client reads it, with the lists its hops point into. -/
structure Walk where
  nodes : List Int64
  relationships : List Int64
  first : Int64
  hops : List Hop
  deriving DecidableEq

def leadingId (tag : UInt8) : Value → Option Int64
  | .struct t (.integer i :: _) => if t = tag then some i else none
  | _ => none

def relAt (rels : List Int64) (r : Int64) : Option Int64 := if r.toInt = 0 then none else rels[r.toInt.natAbs-1]?

def nodeAt (nodes : List Int64) (n : Int64) : Option Int64 := if n.toInt < 0 then none else nodes[n.toInt.toNat]?

/-- The hops from a node on. The sign of a relationship's place is its direction. -/
def follow (nodes rels : List Int64) : Int64 → List Value → Option (List Hop)
  | _,[] => some []
  | here,.integer r :: .integer n :: indices =>
    match relAt rels r,nodeAt nodes n with
    | some rel,some there =>
      (follow nodes rels there indices).map
        (List.cons (if 0 < r.toInt then ⟨rel,here,there,there⟩ else ⟨rel,there,here,there⟩))
    | _,_ => none
  | _,_ => none

def readPath : Value → Option Walk
  | .struct tag [.list nodes,.list rels,.list indices] =>
    if tag = pathTag then do
      let nodes ← nodes.mapM (leadingId nodeTag)
      let rels ← rels.mapM (leadingId unboundRelationshipTag)
      let first ← nodes[0]?
      let hops ← follow nodes rels first indices
      pure ⟨nodes,rels,first,hops⟩
    else none
  | _ => none

/-! ## Faithfulness -/

namespace PathValue
variable {V : Type}

/-- A relationship joins two nodes in one direction or the other. -/
def Joins (r : RelationshipValue V) (source target : NodeValue V) : Prop :=
  (r.fromId = source.id ∧ r.toId = target.id) ∨ (r.fromId = target.id ∧ r.toId = source.id)

/-- The path is one: there is a node more than there are relationships, which join the nodes they stand between. No
vector is as long as an `i64` can count. -/
structure Joined (p : PathValue V) : Prop where
  hops : p.nodes.length = p.relationships.length+1
  fits : p.nodes.length < 2^63
  joins : ∀ i r source target, p.relationships[i]? = some r → p.nodes[i]? = some source → p.nodes[i+1]? = some target →
    Joins r source target

def stored (nodes : List (NodeValue V)) (rels : List (RelationshipValue V)) : List Hop :=
  List.zipWith (fun r n => ⟨r.id.toInt64,r.fromId.toInt64,r.toId.toInt64,n.id.toInt64⟩) rels nodes

end PathValue

theorem toInt_ofNat_succ {k : ℕ} (h : k+1 < 2^63) : (Int64.ofNat k+1).toInt = k+1 := by
  have hadd : Int64.ofNat k+1 = Int64.ofNat (k+1) := (Int64.ofNat_add k 1).symm
  rw [hadd,Int64.toInt_ofNat_of_lt h]
  push_cast
  rfl

theorem toInt_neg_ofNat_succ {k : ℕ} (h : k+1 < 2^63) : (-(Int64.ofNat k+1)).toInt = -(k+1) := by
  rw [Int64.toInt_neg,toInt_ofNat_succ h]
  rw [Int.bmod_eq_of_le] <;> omega

namespace PathValue

/-- One hop is read back from its two numbers. -/
theorem follow_cons {nodes rels : List UInt64} {rv : RelationshipValue Value} {source target : NodeValue Value} {i j : ℕ}
    (hi : rels[i]? = some rv.id) (hfit : i+1 < 2^63) (hj : nodes[j]? = some target.id) (hfit' : j < 2^63)
    (hjoins : Joins rv source target) (indices : List Value) :
    follow (nodes.map UInt64.toInt64) (rels.map UInt64.toInt64) source.id.toInt64
        (.integer (if rv.fromId = source.id then Int64.ofNat i+1 else -(Int64.ofNat i+1)) :: .integer (Int64.ofNat j) :: indices) =
      (follow (nodes.map UInt64.toInt64) (rels.map UInt64.toInt64) target.id.toInt64 indices).map
        (List.cons ⟨rv.id.toInt64,rv.fromId.toInt64,rv.toId.toInt64,target.id.toInt64⟩) := by
  have hnode : nodeAt (nodes.map UInt64.toInt64) (Int64.ofNat j) = some target.id.toInt64 := by
    rw [nodeAt,Int64.toInt_ofNat_of_lt hfit',if_neg (by omega),Int.toNat_natCast,List.getElem?_map,hj]
    rfl
  have hrel : (rels.map UInt64.toInt64)[i]? = some rv.id.toInt64 := by
    rw [List.getElem?_map,hi]
    rfl
  by_cases hd : rv.fromId = source.id
  · have hto : rv.toId = target.id := by
      obtain ⟨-,h⟩ | ⟨h,h'⟩ := hjoins
      · exact h
      · rw [h',← hd,h]
    have hat : relAt (rels.map UInt64.toInt64) (Int64.ofNat i+1) = some rv.id.toInt64 := by
      rw [relAt,toInt_ofNat_succ hfit,if_neg (by omega),← hrel]
      congr 1
    rw [if_pos hd,follow,hat,hnode,toInt_ofNat_succ hfit]
    simp only
    rw [if_pos (by omega),hd,hto]
  · obtain ⟨h,-⟩ | ⟨hfrom,hto⟩ := hjoins
    · exact absurd h hd
    have hat : relAt (rels.map UInt64.toInt64) (-(Int64.ofNat i+1)) = some rv.id.toInt64 := by
      rw [relAt,toInt_neg_ofNat_succ hfit,if_neg (by omega),← hrel]
      congr 1
    rw [if_neg hd,follow,hat,hnode,toInt_neg_ofNat_succ hfit]
    simp only
    rw [if_neg (by omega),hfrom,hto]

theorem follow_indices {relIds : List UInt64} (hfitrel : relIds.length < 2^63) (rels : List (RelationshipValue Value)) :
    ∀ (source : NodeValue Value) (nodes : List (NodeValue Value)) (seen : List UInt64), nodes.length = rels.length →
      (∀ (i : ℕ) r a b, rels[i]? = some r → (source :: nodes)[i]? = some a → nodes[i]? = some b → Joins r a b) →
      (∀ r ∈ rels, r.id ∈ relIds) → (seen ++ Intern.fresh id seen (nodes.map NodeValue.id)).length < 2^63 →
      follow ((seen ++ Intern.fresh id seen (nodes.map NodeValue.id)).map UInt64.toInt64) (relIds.map UInt64.toInt64)
        source.id.toInt64 (indices relIds seen (source :: nodes) rels) = some (stored nodes rels) := by
  induction rels with
  | nil =>
    intro source nodes seen hlen _ _ _
    obtain rfl := List.eq_nil_of_length_eq_zero hlen
    rfl
  | cons rv rels ih =>
    intro source nodes seen hlen hjoins hrels hfit
    obtain ⟨target,nodes,rfl⟩ := List.exists_cons_of_length_eq_add_one hlen
    obtain ⟨i,hi⟩ := Option.isSome_iff_exists.mp (List.isSome_idxOf?.mpr (hrels rv List.mem_cons_self))
    obtain ⟨hlt,hkey,-⟩ := List.findIdx?_eq_some_iff_getElem.mp hi
    have hget : relIds[i]? = some rv.id := by rw [List.getElem?_eq_getElem hlt,eq_of_beq hkey]
    rw [List.map_cons,Intern.place_fresh] at hfit ⊢
    have hplace : ((Intern.place target.id seen).2 ++ Intern.fresh id (Intern.place target.id seen).2
        (nodes.map NodeValue.id))[(Intern.place target.id seen).1]? = some target.id := by
      have hget := Intern.place_get target.id seen
      rw [List.getElem?_append_left (List.getElem?_eq_some_iff.mp hget).1,hget]
    have hbound := (List.getElem?_eq_some_iff.mp hplace).1
    rw [indices,hi,Option.getD_some]
    rw [follow_cons hget (by omega) hplace (by omega) (hjoins 0 rv source target rfl rfl rfl)]
    rw [ih target nodes _ (Nat.succ.inj hlen) (fun k => hjoins (k+1)) (fun r h => hrels r (List.mem_cons_of_mem rv h)) hfit]
    rfl

theorem leadingId_nodes (nodes : List (NodeValue Value)) :
    (nodes.map NodeValue.toPack).mapM (leadingId nodeTag) = some (nodes.map (fun n => n.id.toInt64)) := by
  induction nodes with
  | nil => rfl
  | cons n nodes ih =>
    rw [List.map_cons,List.mapM_cons,ih]
    rfl

theorem leadingId_relationships (rels : List (RelationshipValue Value)) :
    (rels.map RelationshipValue.toUnbound).mapM (leadingId unboundRelationshipTag) =
      some (rels.map (fun r => r.id.toInt64)) := by
  induction rels with
  | nil => rfl
  | cons r rels ih =>
    rw [List.map_cons,List.mapM_cons,ih]
    rfl

/-- The ids of a path in the order of their first appearance, and its hops, are what a client reads. -/
theorem readPath_toPack {p : PathValue Value} (h : p.Joined) {head : NodeValue Value} {tail : List (NodeValue Value)}
    (hnodes : p.nodes = head :: tail) :
    readPath p.toPack = some ⟨(Intern.fresh id [] (p.nodes.map NodeValue.id)).map UInt64.toInt64,
      (Intern.fresh id [] (p.relationships.map RelationshipValue.id)).map UInt64.toInt64,head.id.toInt64,
      stored tail p.relationships⟩ := by
  obtain ⟨hhops,hfits,hjoins⟩ := h
  have hn : ((Intern.fresh NodeValue.id [] p.nodes).map NodeValue.toPack).mapM (leadingId nodeTag) =
      some ((Intern.fresh id [] (p.nodes.map NodeValue.id)).map UInt64.toInt64) := by
    rw [leadingId_nodes,← Intern.fresh_map,List.map_map]
    rfl
  have hr : ((Intern.fresh RelationshipValue.id [] p.relationships).map RelationshipValue.toUnbound).mapM
      (leadingId unboundRelationshipTag) =
      some ((Intern.fresh id [] (p.relationships.map RelationshipValue.id)).map UInt64.toInt64) := by
    rw [leadingId_relationships,← Intern.fresh_map,List.map_map]
    rfl
  have hseen : Intern.fresh id [] (p.nodes.map NodeValue.id) =
      (Intern.place head.id []).2 ++ Intern.fresh id (Intern.place head.id []).2 (tail.map NodeValue.id) := by
    rw [← Intern.place_fresh,hnodes]
    rfl
  have hcount := Intern.fresh_length_le id [] (p.nodes.map NodeValue.id)
  have hcount' := Intern.fresh_length_le id [] (p.relationships.map RelationshipValue.id)
  rw [List.length_map] at hcount hcount'
  have hwalk : follow ((Intern.fresh id [] (p.nodes.map NodeValue.id)).map UInt64.toInt64)
      ((Intern.fresh id [] (p.relationships.map RelationshipValue.id)).map UInt64.toInt64) head.id.toInt64
      (indices (Intern.fresh id [] (p.relationships.map RelationshipValue.id)) (Intern.place head.id []).2 (head :: tail)
        p.relationships) = some (stored tail p.relationships) := by
    rw [hseen]
    refine follow_indices (by omega) p.relationships head tail _ ?_ ?_ ?_ ?_
    · rw [hnodes,List.length_cons] at hhops
      omega
    · intro i r a b hr ha hb
      refine hjoins i r a b hr ?_ ?_
      · rw [hnodes,ha]
      · rw [hnodes,List.getElem?_cons_succ,hb]
    · intro r hr
      have hmem := Intern.mem_seen [] (List.mem_map_of_mem (f := RelationshipValue.id) hr)
      rwa [List.nil_append] at hmem
    · rw [← hseen]
      omega
  have hfirst : ((Intern.fresh id [] (p.nodes.map NodeValue.id)).map UInt64.toInt64)[0]? = some head.id.toInt64 := by
    rw [hseen]
    rfl
  rw [toPack,readPath,if_pos rfl,hn,hr]
  simp only [Option.bind_eq_bind,Option.bind_some,hfirst]
  rw [Intern.fresh_map]
  simp only [hnodes] at hwalk ⊢
  rw [hwalk]
  rfl

end PathValue

/-! ## Element ids -/

/-- The second value is the first with the strings of leading ids appended to some of its structures. -/
inductive Extended : Value → Value → Prop
  | same (v : Value) : Extended v v
  | ids (tag : UInt8) (fields : List Value) (ids : List Int64) (more : List Value) : fields = ids.map .integer ++ more →
    Extended (.struct tag fields) (.struct tag (fields ++ ids.map (fun i => .string (toString i.toInt))))
  | fields (tag : UInt8) {fs gs : List Value} : List.Forall₂ Extended fs gs → Extended (.struct tag fs) (.struct tag gs)
  | list {fs gs : List Value} : List.Forall₂ Extended fs gs → Extended (.list fs) (.list gs)

theorem node_extended (n : NodeValue Value) : Extended n.toPack (withElementIds n.toPack) := .ids nodeTag _ [n.id.toInt64] _ rfl

theorem unbound_extended (r : RelationshipValue Value) : Extended r.toUnbound (withElementIds r.toUnbound) :=
  .ids unboundRelationshipTag _ [r.id.toInt64] _ rfl

theorem items_extended {vs : List Value} (h : ∀ v ∈ vs, Extended v (withElementIds v)) :
    List.Forall₂ Extended vs (withElementIdsItems vs) := by
  induction vs with
  | nil => exact .nil
  | cons v vs ih => exact .cons (h v List.mem_cons_self) (ih (fun w hw => h w (List.mem_cons_of_mem v hw)))

theorem indices_unchanged (relIds : List UInt64) (rels : List (RelationshipValue Value)) :
    ∀ (seen : List UInt64) (nodes : List (NodeValue Value)),
      withElementIdsItems (PathValue.indices relIds seen nodes rels) = PathValue.indices relIds seen nodes rels := by
  induction rels with
  | nil =>
    intro seen nodes
    match nodes with
    | [] => rfl
    | [_] => rfl
    | _ :: _ :: _ => rfl
  | cons rv rels ih =>
    intro seen nodes
    match nodes with
    | [] => rfl
    | [_] => rfl
    | source :: target :: nodes =>
      simp only [PathValue.indices,withElementIdsItems_cons,ih]
      rfl

theorem withElementIds_path (fields : List Value) :
    withElementIds (.struct pathTag fields) = .struct pathTag (withElementIdsItems fields) := by
  rw [withElementIds,if_neg (fun h => absurd h.1 (by decide)),if_neg (fun h => absurd h.1 (by decide)),if_pos rfl]

theorem path_extended (p : PathValue Value) : Extended p.toPack (withElementIds p.toPack) := by
  rw [PathValue.toPack,withElementIds_path]
  refine .fields pathTag (.cons (.list (items_extended ?_)) (.cons (.list (items_extended ?_)) (.cons (.list ?_) .nil)))
  · intro v hv
    obtain ⟨n,-,rfl⟩ := List.mem_map.mp hv
    exact node_extended n
  · intro v hv
    obtain ⟨r,-,rfl⟩ := List.mem_map.mp hv
    exact unbound_extended r
  · rw [indices_unchanged]
    exact List.forall₂_same.mpr (fun v _ => .same v)

theorem leadingId_withElementIds {tag : UInt8} {vs : List Value}
    (h : ∀ v ∈ vs, leadingId tag (withElementIds v) = leadingId tag v) :
    (withElementIdsItems vs).mapM (leadingId tag) = vs.mapM (leadingId tag) := by
  induction vs with
  | nil => rfl
  | cons v vs ih =>
    rw [withElementIdsItems_cons,List.mapM_cons,List.mapM_cons,h v List.mem_cons_self,ih (fun w hw => h w (List.mem_cons_of_mem v hw))]

theorem readPath_withElementIds (p : PathValue Value) : readPath (withElementIds p.toPack) = readPath p.toPack := by
  have hn : (withElementIdsItems ((Intern.fresh NodeValue.id [] p.nodes).map NodeValue.toPack)).mapM (leadingId nodeTag) =
      ((Intern.fresh NodeValue.id [] p.nodes).map NodeValue.toPack).mapM (leadingId nodeTag) := by
    refine leadingId_withElementIds (fun v hv => ?_)
    obtain ⟨n,-,rfl⟩ := List.mem_map.mp hv
    rfl
  have hr : (withElementIdsItems ((Intern.fresh RelationshipValue.id [] p.relationships).map
      RelationshipValue.toUnbound)).mapM (leadingId unboundRelationshipTag) =
      ((Intern.fresh RelationshipValue.id [] p.relationships).map RelationshipValue.toUnbound).mapM
        (leadingId unboundRelationshipTag) := by
    refine leadingId_withElementIds (fun v hv => ?_)
    obtain ⟨r,-,rfl⟩ := List.mem_map.mp hv
    rfl
  rw [PathValue.toPack,withElementIds_path]
  simp only [withElementIdsItems_nil,withElementIdsItems_cons,withElementIds_list,readPath,if_true]
  rw [hn,hr,indices_unchanged]

/-! ## The whole path -/

@[simp] theorem packNode_id (n : NodeValue CypherValue) : (packNode n).id = n.id := by
  cases n
  rfl

@[simp] theorem packRelationship_ids (r : RelationshipValue CypherValue) :
    (packRelationship r).id = r.id ∧ (packRelationship r).fromId = r.fromId ∧ (packRelationship r).toId = r.toId := by
  cases r
  exact ⟨rfl,rfl,rfl⟩

theorem packNodes_map (nodes : List (NodeValue CypherValue)) : packNodes nodes = nodes.map packNode := by
  induction nodes with
  | nil => rfl
  | cons n nodes ih => exact congrArg (List.cons (packNode n)) ih

theorem packRelationships_map (rels : List (RelationshipValue CypherValue)) :
    packRelationships rels = rels.map packRelationship := by
  induction rels with
  | nil => rfl
  | cons r rels ih => exact congrArg (List.cons (packRelationship r)) ih

theorem PathValue.Joined.pack {p : PathValue CypherValue} (h : p.Joined) : (packPath p).Joined := by
  obtain ⟨hhops,hfits,hjoins⟩ := h
  obtain ⟨nodes,rels⟩ := p
  have hpack : packPath ⟨nodes,rels⟩ = ⟨nodes.map packNode,rels.map packRelationship⟩ :=
    congrArg₂ PathValue.mk (packNodes_map nodes) (packRelationships_map rels)
  rw [hpack]
  refine ⟨by simpa using hhops,by simpa using hfits,?_⟩
  intro i r source target hr hs ht
  simp only [List.getElem?_map,Option.map_eq_some_iff] at hr hs ht
  obtain ⟨r,hr,rfl⟩ := hr
  obtain ⟨source,hs,rfl⟩ := hs
  obtain ⟨target,ht,rfl⟩ := ht
  have hends := hjoins i r source target hr hs ht
  simpa [PathValue.Joins] using hends

theorem PathValue.stored_nodes {V : Type} (rels : List (RelationshipValue V)) : ∀ nodes : List (NodeValue V),
    nodes.length = rels.length → (stored nodes rels).map Hop.node = nodes.map (fun n => n.id.toInt64) := by
  induction rels with
  | nil =>
    intro nodes h
    rw [List.eq_nil_of_length_eq_zero h]
    rfl
  | cons r rels ih =>
    intro nodes h
    obtain ⟨n,nodes,rfl⟩ := List.exists_cons_of_length_eq_add_one h
    exact congrArg (List.cons n.id.toInt64) (ih nodes (Nat.succ.inj h))

theorem PathValue.stored_relationships {V : Type} (rels : List (RelationshipValue V)) : ∀ nodes : List (NodeValue V),
    nodes.length = rels.length → (stored nodes rels).map (fun hop => (hop.relationship,hop.start,hop.finish)) =
      rels.map (fun r => (r.id.toInt64,r.fromId.toInt64,r.toId.toInt64)) := by
  induction rels with
  | nil =>
    intro nodes h
    rw [List.eq_nil_of_length_eq_zero h]
    rfl
  | cons r rels ih =>
    intro nodes h
    obtain ⟨n,nodes,rfl⟩ := List.exists_cons_of_length_eq_add_one h
    exact congrArg (List.cons (r.id.toInt64,r.fromId.toInt64,r.toId.toInt64)) (ih nodes (Nat.succ.inj h))

/-- The path that a client reads has the nodes and the relationships of the path, these with their stored ends, no node or
relationship is sent twice, and the element ids are strings behind the ids they repeat. -/
theorem path_read_back (p : PathValue CypherValue) (h : p.Joined) :
    ∃ w, readPath (cypherPathToPack p) = some w ∧
      w.first :: w.hops.map Hop.node = p.nodes.map (fun n => n.id.toInt64) ∧
      w.hops.map (fun hop => (hop.relationship,hop.start,hop.finish)) =
        p.relationships.map (fun r => (r.id.toInt64,r.fromId.toInt64,r.toId.toInt64)) ∧
      w.nodes.Nodup ∧ w.relationships.Nodup ∧ readPath (withElementIds (cypherPathToPack p)) = some w ∧
      Extended (cypherPathToPack p) (withElementIds (cypherPathToPack p)) := by
  obtain ⟨nodes,rels⟩ := p
  obtain ⟨head,tail,rfl⟩ := List.exists_cons_of_length_eq_add_one h.hops
  have hlen : tail.length = rels.length := Nat.succ.inj h.hops
  have hnodes : (packPath ⟨head :: tail,rels⟩).nodes = packNode head :: packNodes tail := rfl
  have hread := PathValue.readPath_toPack h.pack hnodes
  have hdistinct : ∀ ids : List UInt64, ((Intern.fresh id [] ids).map UInt64.toInt64).Nodup := by
    intro ids
    have hinj : Function.Injective UInt64.toInt64 := Function.LeftInverse.injective UInt64.toUInt64_toInt64
    have hnodup := Intern.fresh_nodup List.nodup_nil ids
    rw [List.nil_append] at hnodup
    exact hnodup.map hinj
  refine ⟨_,hread,?_,?_,hdistinct _,hdistinct _,(readPath_withElementIds _).trans hread,path_extended _⟩
  · have hnodes := PathValue.stored_nodes (packRelationships rels) (packNodes tail)
      (by rw [packNodes_map,packRelationships_map,List.length_map,List.length_map,hlen])
    show (packNode head).id.toInt64 :: (PathValue.stored (packNodes tail) (packRelationships rels)).map Hop.node = _
    rw [hnodes,packNodes_map,List.map_map,packNode_id]
    simp
  · have hrels := PathValue.stored_relationships (packRelationships rels) (packNodes tail)
      (by rw [packNodes_map,packRelationships_map,List.length_map,List.length_map,hlen])
    refine hrels.trans ?_
    rw [packRelationships_map,List.map_map]
    simp

/-- A path over a relationship and back, and then around a loop. -/
theorem path_read_back_sample :
    let node (id : UInt64) : NodeValue CypherValue := ⟨id,["N"],[("name",.string "n")]⟩
    let rel (id source target : UInt64) : RelationshipValue CypherValue := ⟨id,source,target,"R",[]⟩
    let p : PathValue CypherValue := ⟨[node 4,node 7,node 4,node 4],[rel 9 7 4,rel 9 7 4,rel 2 4 4]⟩
    ∃ w, readPath (cypherPathToPack p) = some w ∧ w.first :: w.hops.map Hop.node = [4,7,4,4] ∧ w.nodes.Nodup := by
  intro node rel p
  have hjoined : p.Joined := by
    refine ⟨rfl,by decide,?_⟩
    intro i r source target hr hs ht
    match i with
    | 0 =>
      obtain rfl := Option.some.inj hr
      obtain rfl := Option.some.inj hs
      obtain rfl := Option.some.inj ht
      exact .inr ⟨rfl,rfl⟩
    | 1 =>
      obtain rfl := Option.some.inj hr
      obtain rfl := Option.some.inj hs
      obtain rfl := Option.some.inj ht
      exact .inl ⟨rfl,rfl⟩
    | 2 =>
      obtain rfl := Option.some.inj hr
      obtain rfl := Option.some.inj hs
      obtain rfl := Option.some.inj ht
      exact .inl ⟨rfl,rfl⟩
    | _ + 3 => cases hr
  obtain ⟨w,hread,hnodes,-,hdistinct,-⟩ := path_read_back p hjoined
  exact ⟨w,hread,hnodes,hdistinct⟩

end Drevo.Bolt
