import Drevo.Core.Model
import Drevo.Lib.I64
import Drevo.Lib.Postings

/-! Text indexes: the three-character windows of the strings at declared property paths, which narrow a search
for a substring, a prefix or a suffix. -/
namespace Drevo
open Lib

/-- The character before a value, and the one after it. -/
def textStart : Char := '\u0002'

def textEnd : Char := '\u0003'

/-- Every three characters in a row. -/
def windows3 : List Char → List String
  | a :: b :: c :: l => String.ofList [a,b,c] :: windows3 (b :: c :: l)
  | _ => []

/-- A list in order, each member once. -/
def sortedDistinct (l : List String) : List String := (l.mergeSort (fun a b => a ≤ b)).dedup

inductive TextMatch where
  | contains | startsWith | endsWith
  deriving DecidableEq

/-- The predicate on strings that a lookup serves. -/
def TextMatch.accepts (op : TextMatch) (needle text : String) : Prop :=
  match op with
  | .contains => needle.toList <:+: text.toList
  | .startsWith => needle.toList <+: text.toList
  | .endsWith => needle.toList <:+ text.toList

/-- A declared text index: a path, for the nodes with a label or for all. -/
structure TextIndexSpec where
  label : Option String
  path : List String
  deriving DecidableEq

def TextIndexSpec.appliesTo (spec : TextIndexSpec) (labels : List String) : Bool :=
  match spec.label with
  | none => true
  | some l => labels.contains l

def TextIndexSpec.covers (spec : TextIndexSpec) (labels path : List String) : Bool :=
  spec.path = path && spec.appliesTo labels

/-- What a path holds on a node: a string, nothing, or a value that no substring test takes. -/
inductive Resolved where
  | text (s : String)
  | absent
  | blocking

def textField (field : String) : Resolved := if field = "" then .absent else .text field

/-- What a value holds at a path below it. -/
def resolveBelow : Json → List String → Resolved
  | .string s,[] => .text s
  | .null,_ => .absent
  | .object members,segment :: path =>
    match members.lookup segment with
    | some next => resolveBelow next path
    | none => .absent
  | _,_ => .blocking

/-- What a node holds at a path; a title or body without a property of that name is the node's own. -/
def resolve (node : Node) : List String → Resolved
  | [] => .absent
  | first :: rest =>
    match node.properties.get first with
    | some value => resolveBelow value rest
    | none =>
      if rest = [] ∧ first = "title" then textField node.title
      else if rest = [] ∧ first = "body" then textField node.body
      else .absent

def paddedTrigrams (text : String) : List String :=
  sortedDistinct (windows3 ([textStart,textStart] ++ text.toList ++ [textEnd,textEnd]))

def queryTrigrams (op : TextMatch) (needle : String) : Option (List String) :=
  if needle = "" then none
  else
    let chars := match op with
      | .contains => needle.toList
      | .startsWith => [textStart,textStart] ++ needle.toList
      | .endsWith => needle.toList ++ [textEnd,textEnd]
    let trigrams := sortedDistinct (windows3 chars)
    if trigrams.isEmpty then none else some trigrams

/-- The postings of one declared index. -/
structure TrigramStore where
  postings : Index String ℕ := ∅
  docs : Map ℕ (List String) := ∅
  blocked : Finset ℕ := ∅

namespace TrigramStore

/-- A node is filed under each of its windows. -/
def shelf : Keyed (List String) String String Unit := .ofList (fun trigrams => trigrams)

def remove (s : TrigramStore) (id : ℕ) : TrigramStore where
  postings := Filing.sets.takeOut shelf s.postings s.docs[id]? id
  docs := s.docs.erase id
  blocked := s.blocked.erase id

def insert (s : TrigramStore) (id : ℕ) (text : String) : TrigramStore :=
  let trigrams := paddedTrigrams text
  { s with
    postings := Filing.sets.putIn shelf s.postings (some trigrams) id
    docs := s.docs.insert id trigrams }

/-- Below this many nodes under its rarest window a search is always narrowed. -/
def commonTrigramFloor : ℕ := 1024

def intersect (s : TrigramStore) (query : List String) : Option (Finset ℕ) :=
  if query.any (fun t => s.postings[t]?.isNone) then some ∅
  else
    match (query.map (fun t => s.postings.ids t)).mergeSort (fun a b => a.card ≤ b.card) with
    | [] => none
    | first :: rest =>
      if commonTrigramFloor ≤ first.card ∧ s.docs.size < first.card*2 then none
      else some (first.filter (fun id => rest.all (fun ids => id ∈ ids)))

def indexNode (spec : TextIndexSpec) (s : TrigramStore) (node : Node) : TrigramStore :=
  let s := s.remove node.id
  if spec.appliesTo (secondaryLabels node ++ [node.kind]) then
    match resolve node spec.path with
    | .text text => s.insert node.id text
    | .absent => s
    | .blocking => { s with blocked := Insert.insert node.id s.blocked }
  else s

end TrigramStore

/-- The nodes that may match, from the first declared index that covers the path and can tell. -/
def textCandidates (specs : List TextIndexSpec) (stores : List TrigramStore) (labels path : List String)
    (op : TextMatch) (needle : String) : Option (Finset ℕ) :=
  (queryTrigrams op needle).bind (fun query =>
    ((specs.zip stores).find? (fun p => p.1.covers labels path && p.2.blocked = ∅)).bind (fun p => p.2.intersect query))

/-! ## What the index holds -/

namespace TrigramStore

variable {spec : TextIndexSpec} {s : TrigramStore} {nodes : Map ℕ Node}

/-- What a declared index reads on a node. -/
def read (spec : TextIndexSpec) (node : Node) : Resolved :=
  if spec.appliesTo (secondaryLabels node ++ [node.kind]) then resolve node spec.path else .absent

def doc (spec : TextIndexSpec) (node : Node) : Option (List String) :=
  match read spec node with
  | .text text => some (paddedTrigrams text)
  | _ => none

structure Holds (spec : TextIndexSpec) (s : TrigramStore) (nodes : Map ℕ Node) : Prop where
  postings : Filing.sets.Shelved shelf s.postings nodes (doc spec)
  docs : Forward s.docs nodes (doc spec)
  blocked : ∀ id, id ∈ s.blocked ↔ ∃ node, nodes[id]? = some node ∧ read spec node = .blocking

theorem holds_empty : Holds spec {} ∅ := ⟨.empty,.empty,by simp⟩

theorem holds_remove (h : s.Holds spec nodes) (id : ℕ) : (s.remove id).Holds spec (nodes.erase id) := by
  refine ⟨h.postings.takeOut h.docs id,h.docs.drop id,?_⟩
  intro i
  simp only [remove,Finset.mem_erase,h.blocked,Map.get_erase]
  by_cases hi : id = i
  · simp [hi]
  · simp [hi,Ne.symm hi]

theorem holds_index (h : s.Holds spec nodes) (node : Node) :
    (indexNode spec s node).Holds spec (nodes.insert node.id node) := by
  have hrem := holds_remove h node.id
  have hfree : (nodes.erase node.id)[node.id]? = none := by simp
  have hpost := hrem.postings.putIn hfree node
  have hdocs := hrem.docs.keepDoc_insert hfree node
  have hblocked : ∀ id, id ∈ (s.remove node.id).blocked ∨ id = node.id ∧ read spec node = .blocking ↔
      ∃ n, ((nodes.erase node.id).insert node.id node)[id]? = some n ∧ read spec n = .blocking := by
    intro id
    rw [hrem.blocked,Map.get_insert]
    by_cases hid : node.id = id
    · subst hid
      simp
    · simp [hid,Ne.symm hid]
  rw [← Map.insert_erase]
  have hread : read spec node = if spec.appliesTo (secondaryLabels node ++ [node.kind]) then resolve node spec.path
      else .absent := rfl
  unfold indexNode
  simp only
  split_ifs with ha
  · rw [if_pos ha] at hread
    cases hres : resolve node spec.path with
    | text text =>
      rw [hres] at hread
      simp only [doc,hread] at hpost hdocs
      refine ⟨hpost,hdocs,fun id => ?_⟩
      rw [← hblocked]
      simp [insert,hread]
    | absent =>
      rw [hres] at hread
      simp only [doc,hread] at hpost hdocs
      refine ⟨hpost,hdocs,fun id => ?_⟩
      rw [← hblocked]
      simp [hread]
    | blocking =>
      rw [hres] at hread
      simp only [doc,hread] at hpost hdocs
      refine ⟨hpost,hdocs,fun id => ?_⟩
      rw [← hblocked,hread,Finset.mem_insert,or_comm]
      simp
  · rw [if_neg ha] at hread
    simp only [doc,hread] at hpost hdocs
    refine ⟨hpost,hdocs,fun id => ?_⟩
    rw [← hblocked]
    simp [hread]

theorem Holds.unique {t : TrigramStore} (hs : s.Holds spec nodes) (ht : t.Holds spec nodes) : s = t := by
  obtain ⟨p₁,d₁,b₁⟩ := s
  obtain ⟨p₂,d₂,b₂⟩ := t
  obtain rfl : p₁ = p₂ := Filing.Files.unique hs.postings ht.postings
  obtain rfl : d₁ = d₂ := hs.docs.unique ht.docs
  obtain rfl : b₁ = b₂ := Finset.ext (fun id => (hs.blocked id).trans (ht.blocked id).symm)
  rfl

end TrigramStore

/-- The stores of the declared indexes, in their order. -/
def HoldsAll (specs : List TextIndexSpec) (stores : List TrigramStore) (nodes : Map ℕ Node) : Prop :=
  List.Forall₂ (fun spec (s : TrigramStore) => s.Holds spec nodes) specs stores

theorem holdsAll_zip {specs : List TextIndexSpec} {stores : List TrigramStore} {nodes nodes' : Map ℕ Node}
    {f : TextIndexSpec → TrigramStore → TrigramStore} (h : HoldsAll specs stores nodes)
    (hf : ∀ spec s, TrigramStore.Holds spec s nodes → (f spec s).Holds spec nodes') :
    HoldsAll specs (List.zipWith f specs stores) nodes' := by
  induction h with
  | nil => exact .nil
  | cons hs _ ih => exact .cons (hf _ _ hs) ih

def textIndex (specs : List TextIndexSpec) : Derived ℕ Node (List TrigramStore) where
  empty := specs.map (fun _ => {})
  put stores node := List.zipWith (fun spec s => TrigramStore.indexNode spec s node) specs stores
  drop stores id := stores.map (fun s => s.remove id)
  ident := Node.id
  Holds := HoldsAll specs
  Same s t := s = t
  holds_empty := by
    induction specs with
    | nil => exact .nil
    | cons spec specs ih => exact .cons TrigramStore.holds_empty ih
  holds_put stores m node h := holdsAll_zip h (fun _ _ hs => TrigramStore.holds_index hs node)
  holds_drop stores m id h := by
    induction h with
    | nil => exact .nil
    | cons hs _ ih => exact .cons (TrigramStore.holds_remove hs id) ih
  same s t m hs ht := by
    induction hs generalizing t with
    | nil =>
      cases ht
      rfl
    | cons hs _ ih =>
      cases ht with
      | cons ht htail => rw [hs.unique ht,ih _ htail]

/-! ## What a lookup finds -/

theorem windows3_cons (a : Char) (l : List Char) : ∀ t ∈ windows3 l, t ∈ windows3 (a :: l) := by
  intro t ht
  match l with
  | [] => cases ht
  | [_] => cases ht
  | b :: c :: l =>
    rw [windows3]
    exact List.mem_cons_of_mem _ ht

theorem windows3_append (l m : List Char) : ∀ t ∈ windows3 l, t ∈ windows3 (l ++ m) := by
  induction l with
  | nil =>
    intro t ht
    cases ht
  | cons a l ih =>
    intro t ht
    match l,ih,ht with
    | b :: c :: l,ih,ht =>
      rw [windows3] at ht
      obtain rfl | ht := List.mem_cons.mp ht
      · simp [windows3]
      · exact windows3_cons a _ t (ih t ht)

theorem windows3_infix {l m : List Char} (h : l <:+: m) : ∀ t ∈ windows3 l, t ∈ windows3 m := by
  obtain ⟨before,after,rfl⟩ := h
  intro t ht
  rw [List.append_assoc]
  induction before with
  | nil => exact windows3_append l after t ht
  | cons a before ih => exact windows3_cons a _ t ih

theorem mem_sortedDistinct (l : List String) (t : String) : t ∈ sortedDistinct l ↔ t ∈ l := by
  rw [sortedDistinct,List.mem_dedup,List.mem_mergeSort]

theorem queryTrigrams_padded {op : TextMatch} {needle text : String} {query : List String}
    (hq : queryTrigrams op needle = some query) (ha : op.accepts needle text) : ∀ t ∈ query, t ∈ paddedTrigrams text := by
  unfold queryTrigrams at hq
  simp only at hq
  split_ifs at hq
  obtain rfl := Option.some.inj hq
  intro t ht
  rw [mem_sortedDistinct] at ht
  rw [paddedTrigrams,mem_sortedDistinct]
  refine windows3_infix ?_ t ht
  cases op with
  | contains =>
    have hin : text.toList <:+: [textStart,textStart] ++ text.toList ++ [textEnd,textEnd] := ⟨_,_,rfl⟩
    exact List.IsInfix.trans ha hin
  | startsWith =>
    obtain ⟨more,hmore⟩ := ha
    rw [← hmore]
    exact ⟨[],more ++ [textEnd,textEnd],by simp⟩
  | endsWith =>
    obtain ⟨before,hbefore⟩ := ha
    rw [← hbefore]
    exact ⟨[textStart,textStart] ++ before,[],by simp⟩

theorem TrigramStore.mem_intersect {s : TrigramStore} {query : List String} {ids : Finset ℕ}
    (h : s.intersect query = some ids) {id : ℕ} (hall : ∀ t ∈ query, id ∈ s.postings.ids t) : id ∈ ids := by
  unfold intersect at h
  split_ifs at h with hmiss
  · obtain ⟨t,ht,hnone⟩ := List.any_eq_true.mp hmiss
    have hin := hall t ht
    rw [Index.ids,Option.isNone_iff_eq_none.mp hnone] at hin
    cases hin
  · have hlists : ∀ l ∈ (query.map (fun t => s.postings.ids t)).mergeSort (fun a b => a.card ≤ b.card), id ∈ l := by
      intro l hl
      rw [List.mem_mergeSort] at hl
      obtain ⟨t,ht,rfl⟩ := List.mem_map.mp hl
      exact hall t ht
    cases hm : (query.map (fun t => s.postings.ids t)).mergeSort (fun a b => a.card ≤ b.card) with
    | nil =>
      rw [hm] at h
      cases h
    | cons first rest =>
      rw [hm] at h hlists
      simp only at h
      split_ifs at h
      obtain rfl := Option.some.inj h
      refine Finset.mem_filter.mpr ⟨hlists first (by simp),?_⟩
      rw [List.all_eq_true]
      intro l hl
      exact decide_eq_true (hlists l (by simp [hl]))

theorem holdsAll_get {specs : List TextIndexSpec} {stores : List TrigramStore} {nodes : Map ℕ Node}
    (h : HoldsAll specs stores nodes) {p : TextIndexSpec × TrigramStore} (hp : p ∈ specs.zip stores) :
    p.2.Holds p.1 nodes := by
  induction h with
  | nil => cases hp
  | cons hs _ ih =>
    obtain rfl | hp := List.mem_cons.mp hp
    · exact hs
    · exact ih hp

theorem TextIndexSpec.applies_to_more {spec : TextIndexSpec} {labels more : List String} (h : spec.appliesTo labels = true)
    (hl : ∀ l ∈ labels, l ∈ more) : spec.appliesTo more = true := by
  unfold appliesTo at h ⊢
  cases hlabel : spec.label with
  | none => rfl
  | some l =>
    rw [hlabel] at h
    exact List.contains_iff_mem.mpr (hl l (List.contains_iff_mem.mp h))

theorem mem_textCandidates {specs : List TextIndexSpec} {stores : List TrigramStore} {nodes : Map ℕ Node}
    (h : HoldsAll specs stores nodes) {labels path : List String} {op : TextMatch} {needle : String} {ids : Finset ℕ}
    (hr : textCandidates specs stores labels path op needle = some ids) {id : ℕ} {node : Node}
    (hn : nodes[id]? = some node) (hl : ∀ l ∈ labels, l ∈ secondaryLabels node ++ [node.kind]) {text : String}
    (ht : resolve node path = .text text) (ha : op.accepts needle text) : id ∈ ids := by
  obtain ⟨query,hq,hr⟩ := Option.bind_eq_some_iff.mp hr
  obtain ⟨⟨spec,s⟩,hfind,hsome⟩ := Option.bind_eq_some_iff.mp hr
  have hs := holdsAll_get h (List.mem_of_find?_eq_some hfind)
  have hcover := List.find?_some hfind
  simp only [Bool.and_eq_true,decide_eq_true_eq,TextIndexSpec.covers] at hcover
  obtain ⟨⟨rfl,happlies⟩,-⟩ := hcover
  have happly := TextIndexSpec.applies_to_more happlies hl
  have hdoc : TrigramStore.doc spec node = some (paddedTrigrams text) := by
    rw [TrigramStore.doc,TrigramStore.read,if_pos happly,ht]
  refine TrigramStore.mem_intersect hsome ?_
  intro t hin
  have hwin := queryTrigrams_padded hq ha t hin
  have hlook := hs.postings.look t id
  simp only [Filing.sets,hn,Option.bind_some,hdoc,TrigramStore.shelf,Keyed.ofList,if_pos hwin] at hlook
  by_contra hout
  rw [if_neg hout] at hlook
  cases hlook

end Drevo
