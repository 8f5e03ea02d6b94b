import Drevo.Core.Flow
import Drevo.Index.Text

/-! A text index over a graph that goes on changing: what it has read of the feed, or rebuilt, is the
nodes it describes, and a lookup that it answers misses none of them. -/
namespace Drevo
open Lib

/-! ## Reading the feed -/

/-- What a change does to the nodes. -/
def GraphOp.onNodes (nodes : Map ℕ Node) : GraphOp → Map ℕ Node
  | .upsertNode node => nodes.insert node.id node
  | .deleteNode id => nodes.erase id
  | _ => nodes

def nodesAfter (nodes : Map ℕ Node) (ops : List GraphOp) : Map ℕ Node := ops.foldl GraphOp.onNodes nodes

namespace NodeIndex

variable {S : Type} (d : Derived ℕ Node S)

/-- Take over an entry of the feed. Changes of edges and embeddings, and markers, say nothing of nodes. -/
def take (s : S) : WalOp → S
  | .graph (.upsertNode node) => d.put s node
  | .graph (.deleteNode id) => d.drop s id
  | _ => s

/-- Discard everything and take over the nodes as they are. -/
def rebuild (nodes : Map ℕ Node) : S := (nodes.toList.map Prod.snd).foldl d.put d.empty

variable {d}

theorem holds_takes {s : S} {nodes : Map ℕ Node} (hid : ∀ node, d.ident node = node.id) (h : d.Holds s nodes)
    (ops : List WalOp) : d.Holds (ops.foldl (take d) s) (nodesAfter nodes (ops.filterMap WalOp.change)) := by
  induction ops generalizing s nodes with
  | nil => exact h
  | cons op ops ih =>
    cases op with
    | graph op =>
      rw [List.filterMap_cons_some (show WalOp.change (.graph op) = some op from rfl)]
      refine ih ?_
      cases op with
      | upsertNode node =>
        have hput := d.holds_put s nodes node h
        rwa [hid] at hput
      | deleteNode id => exact d.holds_drop s nodes id h
      | _ => exact h
    | _ => exact ih h

theorem holds_rebuild {nodes : Map ℕ Node} (hid : ∀ (i : ℕ) (n : Node), nodes[i]? = some n → d.ident n = i) :
    d.Holds (rebuild d nodes) nodes := d.holds_build hid

end NodeIndex

/-! ## Searching -/

/-- The nodes of a graph at one moment, by their ids. -/
structure NodeSnapshot where
  nodes : Map ℕ Node
  key : ∀ (id : ℕ) (node : Node), nodes[id]? = some node → node.id = id

structure NativeTextIndex where
  specs : List TextIndexSpec
  stores : List TrigramStore
  cursor : ℕ

namespace NativeTextIndex

def new (specs : List TextIndexSpec) : NativeTextIndex := ⟨specs,(textIndex specs).empty,0⟩

def rebuildFrom (x : NativeTextIndex) (live : NodeSnapshot) : NativeTextIndex :=
  { x with stores := NodeIndex.rebuild (textIndex x.specs) live.nodes }

def setSpecs (x : NativeTextIndex) (specs : List TextIndexSpec) (feed : Feed WalOp) (live : NodeSnapshot) : NativeTextIndex :=
  { ({ x with specs := specs } : NativeTextIndex).rebuildFrom live with cursor := feed.changeHead }

def sync (x : NativeTextIndex) (feed : Feed WalOp) (live : NodeSnapshot) : NativeTextIndex :=
  if x.specs = [] then { x with cursor := feed.changeHead }
  else
    let batch := feed.changesSince x.cursor
    if batch.lagged then { x.rebuildFrom live with cursor := batch.cursor }
    else { x with stores := batch.ops.foldl (NodeIndex.take (textIndex x.specs)) x.stores, cursor := batch.cursor }

def candidates (x : NativeTextIndex) (labels path : List String) (op : TextMatch) (needle : String) : Option (Finset ℕ) :=
  textCandidates x.specs x.stores labels path op needle

end NativeTextIndex

/-- What happens to an index: its feed and the live nodes are those it finds. -/
inductive TextIndexEvent where
  | sync (feed : Feed WalOp) (live : NodeSnapshot)
  | setSpecs (specs : List TextIndexSpec) (feed : Feed WalOp) (live : NodeSnapshot)

/-- An index with, for the record, the nodes it was told of. -/
structure IndexedText where
  index : NativeTextIndex
  nodes : Map ℕ Node

namespace IndexedText

def step (t : IndexedText) : TextIndexEvent → IndexedText
  | .sync feed live =>
    { index := t.index.sync feed live
      nodes :=
        if t.index.specs = [] then t.nodes
        else if (feed.changesSince t.index.cursor).lagged then live.nodes
        else nodesAfter t.nodes ((feed.changesSince t.index.cursor).ops.filterMap WalOp.change) }
  | .setSpecs specs feed live => ⟨t.index.setSpecs specs feed live,live.nodes⟩

def run (specs : List TextIndexSpec) (events : List TextIndexEvent) : IndexedText :=
  events.foldl step ⟨.new specs,∅⟩

/-- The stores describe the nodes. -/
def Holds (t : IndexedText) : Prop := HoldsAll t.index.specs t.index.stores t.nodes

theorem step_holds {t : IndexedText} (h : t.Holds) (event : TextIndexEvent) : (t.step event).Holds := by
  cases event with
  | setSpecs specs feed live =>
    exact NodeIndex.holds_rebuild (d := textIndex specs) live.key
  | sync feed live =>
    unfold Holds step NativeTextIndex.sync
    simp only
    split_ifs with hempty hlag
    · exact h
    · exact NodeIndex.holds_rebuild (d := textIndex t.index.specs) live.key
    · exact NodeIndex.holds_takes (d := textIndex t.index.specs) (fun _ => rfl) h _

theorem run_holds (specs : List TextIndexSpec) (events : List TextIndexEvent) : (run specs events).Holds := by
  have hall : ∀ t : IndexedText, t.Holds → (events.foldl step t).Holds := by
    induction events with
    | nil => exact fun _ h => h
    | cons event events ih => exact fun t h => ih (t.step event) (step_holds h event)
  exact hall _ (textIndex specs).holds_empty

end IndexedText

/-! ## What a node holds on a path -/

/-- The value on a path of the node; its own title and body stand where it has no property of the name. -/
def Node.held (node : Node) : List String → Option Json
  | [] => none
  | first :: rest =>
    match node.properties.get first with
    | some value => value.descend rest
    | none =>
      if rest = [] ∧ first = "title" ∧ node.title ≠ "" then some (.string node.title)
      else if rest = [] ∧ first = "body" ∧ node.body ≠ "" then some (.string node.body)
      else none

theorem resolveBelow_descend {value : Json} {path : List String} {v : Json} (h : value.descend path = some v) :
    resolveBelow value path = resolveBelow v [] := by
  induction path generalizing value with
  | nil =>
    have hv : value = v := by
      cases value <;> exact Option.some.inj h
    rw [hv]
  | cons segment path ih =>
    cases value with
    | object members =>
      simp only [Json.descend] at h
      simp only [resolveBelow]
      cases hm : members.lookup segment with
      | none => simp [hm] at h
      | some next =>
        rw [hm] at h
        exact ih h
    | _ => simp [Json.descend] at h

theorem resolve_held {node : Node} {path : List String} {v : Json} (h : node.held path = some v) :
    resolve node path = resolveBelow v [] := by
  cases path with
  | nil => cases h
  | cons first rest =>
    cases hget : node.properties.get first with
    | some value =>
      simp only [Node.held,hget] at h
      simp only [resolve,hget]
      exact resolveBelow_descend h
    | none =>
      simp only [Node.held,hget] at h
      simp only [resolve,hget]
      split_ifs at h with htitle hbody
      · obtain rfl := Option.some.inj h
        rw [if_pos ⟨htitle.1,htitle.2.1⟩,textField,if_neg htitle.2.2]
        rfl
      · obtain rfl := Option.some.inj h
        rw [if_neg (by rw [hbody.2.1]; simp),if_pos ⟨hbody.1,hbody.2.1⟩,textField,if_neg hbody.2.2]
        rfl

theorem resolveBelow_blocking {v : Json} (h : resolveBelow v [] ≠ .blocking) : v = .null ∨ ∃ s, v = .string s := by
  cases v with
  | null => exact .inl rfl
  | string s => exact .inr ⟨s,rfl⟩
  | _ => exact absurd rfl h

theorem textCandidates_unblocked {specs : List TextIndexSpec} {stores : List TrigramStore} {nodes : Map ℕ Node}
    (h : HoldsAll specs stores nodes) {labels path : List String} {op : TextMatch} {needle : String} {ids : Finset ℕ}
    (hr : textCandidates specs stores labels path op needle = some ids) {id : ℕ} {node : Node}
    (hn : nodes[id]? = some node) (hl : ∀ l ∈ labels, l ∈ secondaryLabels node ++ [node.kind]) :
    resolve node path ≠ .blocking := by
  obtain ⟨query,-,hr⟩ := Option.bind_eq_some_iff.mp hr
  obtain ⟨⟨spec,s⟩,hfind,-⟩ := Option.bind_eq_some_iff.mp hr
  have hs := holdsAll_get h (List.mem_of_find?_eq_some hfind)
  have hcover := List.find?_some hfind
  simp only [Bool.and_eq_true,decide_eq_true_eq,TextIndexSpec.covers] at hcover
  obtain ⟨⟨rfl,happlies⟩,hempty⟩ := hcover
  have happly := TextIndexSpec.applies_to_more happlies hl
  intro hblocking
  have hin : id ∈ s.blocked := by
    rw [hs.blocked]
    refine ⟨node,hn,?_⟩
    rw [TrigramStore.read,if_pos happly]
    exact hblocking
  rw [hempty] at hin
  cases hin

/-- Whatever an index has read, a lookup that it answers has every node with the labels whose string
on the path satisfies the predicate, and no node with the labels holds anything else than a string or
null on the path. -/
theorem candidates_complete (specs : List TextIndexSpec) (events : List TextIndexEvent) {labels path : List String}
    {op : TextMatch} {needle : String} {ids : Finset ℕ}
    (h : (IndexedText.run specs events).index.candidates labels path op needle = some ids) {id : ℕ} {node : Node}
    (hn : (IndexedText.run specs events).nodes[id]? = some node) (hl : ∀ l ∈ labels, l ∈ secondaryLabels node ++ [node.kind]) :
    (∀ text, node.held path = some (.string text) → op.accepts needle text → id ∈ ids) ∧
      resolve node path ≠ .blocking ∧ ∀ v, node.held path = some v → v = .null ∨ ∃ s, v = .string s := by
  have hholds := IndexedText.run_holds specs events
  have hfree := textCandidates_unblocked hholds h hn hl
  refine ⟨?_,hfree,?_⟩
  · intro text hheld ha
    exact mem_textCandidates hholds h hn hl (resolve_held hheld) ha
  · intro v hheld
    rw [resolve_held hheld] at hfree
    exact resolveBelow_blocking hfree

section Sample

def bugTitles : List TextIndexSpec := [⟨some "Bug",["title"]⟩]

/-- One node, read from the feed. -/
def abcNote : List TextIndexEvent :=
  [.sync ⟨0,[.graph (.upsertNode ⟨7,1,"Bug","abc","","",0,0,default⟩)]⟩ ⟨∅,by simp⟩]

theorem abc_padded : paddedTrigrams "abc" = ["\u0002\u0002a","\u0002ab","abc","bc\u0003","c\u0003\u0003"] := by
  have hwindows : windows3 ([textStart,textStart] ++ "abc".toList ++ [textEnd,textEnd]) =
      ["\u0002\u0002a","\u0002ab","abc","bc\u0003","c\u0003\u0003"] := by decide +kernel
  unfold paddedTrigrams sortedDistinct
  rw [hwindows,List.mergeSort_of_pairwise]
  · decide +kernel
  · decide +kernel

theorem abc_answer : (IndexedText.run bugTitles abcNote).index.candidates ["Bug"] ["title"] .contains "abc" = some {7} := by
  have hstores : (IndexedText.run bugTitles abcNote).index.stores = [({} : TrigramStore).insert 7 "abc"] := rfl
  unfold NativeTextIndex.candidates
  rw [hstores,TrigramStore.insert,abc_padded]
  decide +kernel

theorem abc_found : ∃ ids, (IndexedText.run bugTitles abcNote).index.candidates ["Bug"] ["title"] .contains "abc" = some ids ∧
    7 ∈ ids := by
  have hnode : (IndexedText.run bugTitles abcNote).nodes[7]? = some ⟨7,1,"Bug","abc","","",0,0,default⟩ := by
    decide +kernel
  have hcomplete := candidates_complete bugTitles abcNote abc_answer hnode (by decide +kernel)
  exact ⟨{7},abc_answer,hcomplete.1 "abc" (by decide +kernel) ⟨[],[],by decide +kernel⟩⟩

end Sample

end Drevo
