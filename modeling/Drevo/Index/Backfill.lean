import Drevo.Core.Agree
import Drevo.Lib.Sorted

/-! The backfill of embeddings: one snapshot is taken, and element by element its text is embedded and its properties are
replaced, while others write to the graph. -/
namespace Drevo
open Lib

/-- How a title begins that older versions stored for a node without one. -/
def syntheticTitlePrefix : String := "__cypher__:"

namespace Properties

def insert (p : Properties) (key : String) (value : Json) : Properties :=
  ⟨insertSorted Prod.fst (p.entries.filter (fun e => e.1 ≠ key)) (key,value),
    KeySorted.insertSorted (KeySorted.filter p.sorted _) (fun _ he => of_decide_eq_true (List.mem_filter.mp he).2)⟩

theorem get_eq_some {p : Properties} {key : String} {value : Json} : p.get key = some value ↔ (key,value) ∈ p.entries := by
  obtain ⟨entries,sorted⟩ := p
  rw [get]
  induction entries with
  | nil => simp
  | cons e entries ih =>
    obtain ⟨k,v⟩ := e
    obtain ⟨hfirst,hrest⟩ := List.pairwise_cons.mp sorted
    rw [List.lookup_cons,List.mem_cons]
    by_cases hk : key = k
    · subst hk
      have hno : (key,value) ∉ entries := fun h => absurd (hfirst _ h) (lt_irrefl _)
      simp [hno,eq_comm]
    · rw [show (key == k) = false from beq_eq_false_iff_ne.mpr hk]
      have hne : (key,value) ≠ (k,v) := fun h => hk (Prod.mk.inj h).1
      rw [or_iff_right hne]
      exact ih hrest

theorem get_insert_of_ne {p : Properties} {key other : String} (value : Json) (h : other ≠ key) : (p.insert key value).get other = p.get other := by
  refine Option.ext (fun v => ?_)
  rw [get_eq_some,get_eq_some,insert,mem_insertSorted,List.mem_filter]
  constructor
  · rintro (heq | ⟨hin,-⟩)
    · exact absurd (Prod.mk.inj heq).1 h
    · exact hin
  · exact fun hin => .inr ⟨hin,decide_eq_true h⟩

/-- The maps agree but for one key. -/
def Alike (key : String) (p q : Properties) : Prop := ∀ other, other ≠ key → p.get other = q.get other

theorem alike_insert (p : Properties) (key : String) (value : Json) : Alike key (p.insert key value) p :=
  fun _ h => get_insert_of_ne value h

variable {key : String} {p q r : Properties}

theorem Alike.symm (h : Alike key p q) : Alike key q p := fun other hne => (h other hne).symm

theorem Alike.trans (h : Alike key p q) (h' : Alike key q r) : Alike key p r := fun other hne => (h other hne).trans (h' other hne)

end Properties

/-! ## What is embedded -/

/-- The text of a node under a name: its property, else its own title or body; an empty text is none. -/
def nodeText (node : Node) (textProperty : String) : Option String :=
  let text := match node.properties.get textProperty with
    | some (.string s) => some s
    | some _ => none
    | none =>
      if textProperty = "title" ∧ syntheticTitlePrefix.toList.isPrefixOf node.title.toList = false then some node.title
      else if textProperty = "body" then some node.body
      else none
  text.filter (fun s => s ≠ "")

def edgeText (edge : Edge) (textProperty : String) : Option String :=
  let text := match edge.properties.get textProperty with
    | some (.string s) => some s
    | _ => none
  text.filter (fun s => s ≠ "")

/-- Nodes or edges: where they are stored, and how their properties are replaced. -/
structure Elements (α : Type) where
  stored : Inner → Map ℕ α
  id : α → ℕ
  properties : α → Properties
  update : Inner → ℕ → Properties → Mint → Except CoreError α × Inner

def nodeElements [JsonText] : Elements Node :=
  ⟨Inner.nodes,Node.id,Node.properties,fun s id properties mint => s.updateNodeChecked id { properties := some properties } mint true⟩

def edgeElements : Elements Edge :=
  ⟨Inner.edges,Edge.id,Edge.properties,fun s id properties _ => s.updateEdge id { properties := some properties }⟩

/-- A backfill: which elements, their text, and where the embedding goes. -/
structure Backfill (α : Type) where
  elements : Elements α
  selected : α → Bool
  text : α → Option String
  embeddingProperty : String

def semanticReindex [JsonText] (label textProperty embeddingProperty : String) : Backfill Node :=
  ⟨nodeElements,fun node => hasLabel node label,fun node => nodeText node textProperty,embeddingProperty⟩

def semanticReindexRel (relType textProperty embeddingProperty : String) : Backfill Edge :=
  ⟨edgeElements,fun edge => edge.kind = relType,fun edge => edgeText edge textProperty,embeddingProperty⟩

structure SemanticReindexReport where
  scanned : ℕ := 0
  embedded : ℕ := 0
  skipped : ℕ := 0
  remaining : ℕ := 0

/-- What the embedder answers, if there is one. -/
inductive EmbedOutcome where
  | noEmbedder
  | failed
  | vector (items : List Json)

/-- Between two elements, between the embedding of one and its write, at the end, or stopped by a failed write. -/
inductive BackfillStage (α : Type) where
  | scanning
  | writing (element : α) (text : String) (vector : Json)
  | done
  | failed (error : CoreError)

structure BackfillRun (α : Type) where
  graph : Inner
  pending : List α
  budget : ℕ
  report : SemanticReindexReport := {}
  stage : BackfillStage α := .scanning

namespace Backfill

variable {α : Type}

def start (b : Backfill α) (graph : Inner) (batchSize : ℕ) : BackfillRun α :=
  { graph := graph, pending := (b.elements.stored graph).toList.map Prod.snd, budget := batchSize }

/-- The next element of the snapshot, up to its embedding. -/
def scan (b : Backfill α) (r : BackfillRun α) (outcome : EmbedOutcome) : BackfillRun α :=
  match r.stage,r.pending with
  | .scanning,[] => { r with stage := .done }
  | .scanning,element :: pending =>
    let r := { r with pending := pending }
    if b.selected element = false then r
    else
      let r := { r with report := { r.report with scanned := r.report.scanned+1 } }
      let alreadyEmbedded := ((b.elements.properties element).get b.embeddingProperty).isSome
      match (b.text element).filter (fun _ => !alreadyEmbedded) with
      | none => { r with report := { r.report with skipped := r.report.skipped+1 } }
      | some text =>
        if r.budget = 0 then { r with report := { r.report with remaining := r.report.remaining+1 } }
        else match outcome with
          | .vector items => { r with stage := .writing element text (.array items) }
          | _ => { r with report := { r.report with remaining := r.report.remaining+1 } }
  | _,_ => r

def write (b : Backfill α) (r : BackfillRun α) (mint : Mint) : BackfillRun α :=
  match r.stage with
  | .writing element _ vector =>
    match b.elements.update r.graph (b.elements.id element) ((b.elements.properties element).insert b.embeddingProperty vector) mint with
    | (.ok _,graph) =>
      { r with graph := graph, budget := r.budget-1, report := { r.report with embedded := r.report.embedded+1 }, stage := .scanning }
    | (.error e,graph) => { r with graph := graph, stage := .failed e }
  | _ => r

end Backfill

/-! ## Replacing properties -/

/-- An update replaces the properties of a stored element, or changes nothing. -/
structure Elements.Lawful {α : Type} (k : Elements α) : Prop where
  missing : ∀ {s : Inner} {id : ℕ} (p : Properties) (mint : Mint), (k.stored s)[id]? = none → ∃ e, k.update s id p mint = (.error e,s)
  written : ∀ {s t : Inner} {id : ℕ} {p : Properties} {mint : Mint} {a : α}, k.update s id p mint = (.ok a,t) →
    k.properties a = p ∧ k.stored t = (k.stored s).insert id a
  refused : ∀ {s t : Inner} {id : ℕ} {p : Properties} {mint : Mint} {e : CoreError}, k.update s id p mint = (.error e,t) → t = s

theorem nodeElements_lawful [JsonText] : (nodeElements).Lawful where
  missing {s id} p mint h := by
    refine ⟨.nodeNotFound id,?_⟩
    have hnone : s.nodes[id]? = none := h
    simp [nodeElements,Inner.updateNodeChecked,hnone]
  written {s t id p mint a} h := by
    have hupdate : s.updateNodeChecked id { properties := some p } mint true = (.ok a,t) := h
    unfold Inner.updateNodeChecked at hupdate
    split at hupdate
    · simp at hupdate
    · dsimp only at hupdate
      split at hupdate
      · simp at hupdate
      · obtain ⟨ha,rfl⟩ := Prod.mk.inj hupdate
        obtain rfl := Except.ok.inj ha
        refine ⟨rfl,?_⟩
        simp only [nodeElements,Inner.patchNode,Option.getD_none,if_true]
        rfl
  refused h := Inner.updateNodeChecked_err h

theorem edgeElements_lawful : edgeElements.Lawful where
  missing {s id} p mint h := by
    refine ⟨.edgeNotFound id,?_⟩
    have hnone : s.edges[id]? = none := h
    simp [edgeElements,Inner.updateEdge,hnone]
  written {s t id p mint a} h := by
    have hupdate : s.updateEdge id { properties := some p } = (.ok a,t) := h
    unfold Inner.updateEdge at hupdate
    split at hupdate
    · simp at hupdate
    · split at hupdate
      · simp at hupdate
      · obtain ⟨ha,rfl⟩ := Prod.mk.inj hupdate
        obtain rfl := Except.ok.inj ha
        exact ⟨rfl,rfl⟩
  refused {s t id p mint e} h := by
    have hupdate : s.updateEdge id { properties := some p } = (.error e,t) := h
    exact Inner.updateEdge_err hupdate

/-! ## Runs -/

namespace Backfill

variable {α : Type} {b : Backfill α} {r : BackfillRun α} {theirs : ℕ → Option Properties} {mint : Mint}

/-- What the others wrote last stands in the graph, but for the embeddings. -/
def Kept (b : Backfill α) (r : BackfillRun α) (theirs : ℕ → Option Properties) : Prop :=
  ∀ id, Option.Rel (Properties.Alike b.embeddingProperty) (((b.elements.stored r.graph)[id]?).map b.elements.properties) (theirs id)

/-- The write that comes next finds its element, and, unless it is refused, finds it with the properties and the text of the snapshot. -/
def Clear (b : Backfill α) (r : BackfillRun α) (mint : Mint) : Prop :=
  ∀ element text vector, r.stage = .writing element text vector → ∃ now, (b.elements.stored r.graph)[b.elements.id element]? = some now ∧
    ((∃ a t, b.elements.update r.graph (b.elements.id element) ((b.elements.properties element).insert b.embeddingProperty vector) mint = (.ok a,t)) →
      Properties.Alike b.embeddingProperty (b.elements.properties element) (b.elements.properties now) ∧ b.text now = some text)

/-- The runs of a backfill with others, and what these wrote last of each element; each write of the backfill meets a condition. -/
inductive Runs (b : Backfill α) (allowed : BackfillRun α → Mint → Prop) : BackfillRun α → (ℕ → Option Properties) → Prop
  | start (graph : Inner) (batchSize : ℕ) : Runs b allowed (b.start graph batchSize) (fun id => ((b.elements.stored graph)[id]?).map b.elements.properties)
  | scan {r : BackfillRun α} {theirs : ℕ → Option Properties} (outcome : EmbedOutcome) : Runs b allowed r theirs → Runs b allowed (b.scan r outcome) theirs
  | write {r : BackfillRun α} {theirs : ℕ → Option Properties} (mint : Mint) : allowed r mint → Runs b allowed r theirs → Runs b allowed (b.write r mint) theirs
  | others {r : BackfillRun α} {theirs theirs' : ℕ → Option Properties} (graph : Inner) : (∀ id, theirs' id = ((b.elements.stored graph)[id]?).map b.elements.properties ∨
      ((b.elements.stored graph)[id]? = (b.elements.stored r.graph)[id]? ∧ theirs' id = theirs id)) →
      Runs b allowed r theirs → Runs b allowed { r with graph := graph } theirs'

/-- The write loses nothing, embeds the text that the element has, and does not fail because the element is gone. -/
structure Faithful (b : Backfill α) (r : BackfillRun α) (mint : Mint) (theirs : ℕ → Option Properties) : Prop where
  kept : b.Kept (b.write r mint) theirs
  text : ∀ element text vector now, r.stage = .writing element text vector → (b.write r mint).stage = .scanning →
    (b.elements.stored r.graph)[b.elements.id element]? = some now → b.text now = some text
  goesOn : ∀ element text vector e, r.stage = .writing element text vector → (b.elements.stored r.graph)[b.elements.id element]? = none →
    (b.write r mint).stage ≠ .failed e

theorem rel_refl (key : String) (p : Option Properties) : Option.Rel (Properties.Alike key) p p := by
  cases p with
  | none => exact .none
  | some p => exact .some (fun _ _ => rfl)

theorem write_ok {element : α} {text : String} {vector : Json} {a : α} {t : Inner} (hstage : r.stage = .writing element text vector)
    (h : b.elements.update r.graph (b.elements.id element) ((b.elements.properties element).insert b.embeddingProperty vector) mint = (.ok a,t)) :
    (b.write r mint).graph = t ∧ (b.write r mint).stage = .scanning := by
  simp [write,hstage,h]

theorem write_error {element : α} {text : String} {vector : Json} {e : CoreError} {t : Inner} (hstage : r.stage = .writing element text vector)
    (h : b.elements.update r.graph (b.elements.id element) ((b.elements.properties element).insert b.embeddingProperty vector) mint = (.error e,t)) :
    (b.write r mint).graph = t ∧ (b.write r mint).stage = .failed e := by
  simp [write,hstage,h]

theorem kept_insert_iff {graph : Inner} {now a : α} {id : ℕ} (hkept : b.Kept r theirs) (hnow : (b.elements.stored r.graph)[id]? = some now)
    (hgraph : b.elements.stored graph = (b.elements.stored r.graph).insert id a) :
    b.Kept { r with graph := graph } theirs ↔ Properties.Alike b.embeddingProperty (b.elements.properties a) (b.elements.properties now) := by
  have hid := hkept id
  rw [hnow] at hid
  obtain ⟨q,hq,hlike⟩ : ∃ q, theirs id = some q ∧ Properties.Alike b.embeddingProperty (b.elements.properties now) q := by
    cases htheirs : theirs id with
    | none =>
      rw [htheirs] at hid
      cases hid
    | some q =>
      rw [htheirs] at hid
      cases hid with
      | some hlike => exact ⟨q,rfl,hlike⟩
  constructor
  · intro h
    have hafter := h id
    rw [hgraph,Map.get_insert,if_pos rfl,hq] at hafter
    cases hafter with
    | some h' => exact Properties.Alike.trans h' hlike.symm
  · intro h other
    rw [hgraph,Map.get_insert]
    split_ifs with hother
    · subst hother
      rw [hq]
      exact .some (h.trans hlike)
    · exact hkept other

/-- Each write is faithful exactly when it is clear. -/
theorem faithful_iff (hk : b.elements.Lawful) (hkept : b.Kept r theirs) : b.Faithful r mint theirs ↔ b.Clear r mint := by
  by_cases hwriting : ∃ element text vector, r.stage = .writing element text vector
  · obtain ⟨element,text,vector,hstage⟩ := hwriting
    cases hnow : (b.elements.stored r.graph)[b.elements.id element]? with
    | none =>
      -- the element is gone
      obtain ⟨e,he⟩ := hk.missing ((b.elements.properties element).insert b.embeddingProperty vector) mint hnow
      refine iff_of_false (fun h => h.goesOn element text vector e hstage hnow (write_error hstage he).2) (fun h => ?_)
      obtain ⟨now,hsome,-⟩ := h element text vector hstage
      rw [hnow] at hsome
      cases hsome
    | some now =>
      cases hupdate : b.elements.update r.graph (b.elements.id element) ((b.elements.properties element).insert b.embeddingProperty vector) mint with
      | mk result graph =>
        cases result with
        | error e =>
          obtain ⟨hgraph,hfailed⟩ := write_error hstage hupdate
          obtain rfl := hk.refused hupdate
          refine iff_of_true ⟨?_,?_,?_⟩ ?_
          · intro id
            rw [hgraph]
            exact hkept id
          · intro _ _ _ _ _ hscan
            rw [hfailed] at hscan
            cases hscan
          · intro element' text' vector' _ hstage' hnone
            obtain ⟨rfl,-⟩ := BackfillStage.writing.inj (hstage.symm.trans hstage')
            rw [hnow] at hnone
            cases hnone
          · intro element' text' vector' hstage'
            obtain ⟨rfl,rfl,rfl⟩ := BackfillStage.writing.inj (hstage.symm.trans hstage')
            refine ⟨now,hnow,?_⟩
            rintro ⟨a,t,hok⟩
            rw [hupdate] at hok
            cases hok
        | ok a =>
          obtain ⟨hgraph,hscan⟩ := write_ok hstage hupdate
          obtain ⟨hproperties,hstored⟩ := hk.written hupdate
          have hinsert : Properties.Alike b.embeddingProperty (b.elements.properties a) (b.elements.properties now) ↔
              Properties.Alike b.embeddingProperty (b.elements.properties element) (b.elements.properties now) := by
            rw [hproperties]
            exact ⟨fun h => (Properties.alike_insert _ _ _).symm.trans h,fun h => (Properties.alike_insert _ _ _).trans h⟩
          have hiff : b.Kept (b.write r mint) theirs ↔ Properties.Alike b.embeddingProperty (b.elements.properties element) (b.elements.properties now) := by
            rw [← hinsert,← kept_insert_iff hkept hnow hstored,Kept,Kept,hgraph]
          constructor
          · intro h element' text' vector' hstage'
            obtain ⟨rfl,rfl,rfl⟩ := BackfillStage.writing.inj (hstage.symm.trans hstage')
            exact ⟨now,hnow,fun _ => ⟨hiff.mp h.kept,h.text element text vector now hstage hscan hnow⟩⟩
          · intro h
            obtain ⟨now',hnow',hclear⟩ := h element text vector hstage
            rw [hnow] at hnow'
            obtain rfl := Option.some.inj hnow'
            obtain ⟨hlike,htext⟩ := hclear ⟨a,graph,hupdate⟩
            refine ⟨hiff.mpr hlike,?_,?_⟩
            · intro element' text' vector' now' hstage' _ hnow'
              obtain ⟨rfl,rfl,rfl⟩ := BackfillStage.writing.inj (hstage.symm.trans hstage')
              rw [hnow] at hnow'
              rwa [← Option.some.inj hnow']
            · intro element' text' vector' _ hstage' hnone
              obtain ⟨rfl,-⟩ := BackfillStage.writing.inj (hstage.symm.trans hstage')
              rw [hnow] at hnone
              cases hnone
  · have hsame : b.write r mint = r := by
      rw [write]
      split
      · rename_i element text vector hstage
        exact absurd ⟨element,text,vector,hstage⟩ hwriting
      · rfl
    refine iff_of_true ⟨by rwa [hsame],?_,?_⟩ ?_
    · exact fun element text vector _ hstage => absurd ⟨element,text,vector,hstage⟩ hwriting
    · exact fun element text vector _ hstage => absurd ⟨element,text,vector,hstage⟩ hwriting
    · exact fun element text vector hstage => absurd ⟨element,text,vector,hstage⟩ hwriting

theorem scan_graph (b : Backfill α) (r : BackfillRun α) (outcome : EmbedOutcome) : (b.scan r outcome).graph = r.graph := by
  rw [scan]
  split
  · rfl
  · dsimp only
    repeat' split
    all_goals rfl
  · rfl

theorem runs_kept (hk : b.elements.Lawful) (h : b.Runs b.Clear r theirs) : b.Kept r theirs := by
  induction h with
  | start graph batchSize => exact fun id => rel_refl _ _
  | scan outcome _ ih =>
    intro id
    rw [scan_graph]
    exact ih id
  | write mint hclear _ ih => exact ((faithful_iff hk ih).mpr hclear).kept
  | others graph htheirs _ ih =>
    intro id
    obtain hnew | ⟨hsame,hold⟩ := htheirs id
    · rw [hnew]
      exact rel_refl _ _
    · rw [hold]
      dsimp only
      rw [hsame]
      exact ih id

/-- What is asked of a backfill: in runs whose writes are clear nothing is lost, and only clear writes are faithful. -/
def NothingLost (b : Backfill α) : Prop :=
  (∀ r theirs, b.Runs b.Clear r theirs → b.Kept r theirs ∧ ∀ mint, b.Clear r mint → b.Faithful r mint theirs) ∧
    ∀ r theirs mint, b.Kept r theirs → (b.Faithful r mint theirs ↔ b.Clear r mint)

theorem nothingLost (hk : b.elements.Lawful) : b.NothingLost :=
  ⟨fun _ _ h => ⟨runs_kept hk h,fun _ hclear => (faithful_iff hk (runs_kept hk h)).mpr hclear⟩,fun _ _ _ hkept => faithful_iff hk hkept⟩

end Backfill

/-- The backfills of nodes and of relationships lose nothing as long as no element is changed between snapshot and write, and only then. -/
theorem reindex_nothing_lost [JsonText] (label relType textProperty embeddingProperty : String) :
    (semanticReindex label textProperty embeddingProperty).NothingLost ∧ (semanticReindexRel relType textProperty embeddingProperty).NothingLost :=
  ⟨Backfill.nothingLost nodeElements_lawful,Backfill.nothingLost edgeElements_lawful⟩

section Sample
attribute [local instance] Json.compactText

def docNode (properties : Properties) : Node := ⟨1,0,"Doc","","","",0,0,properties⟩

def docText : Properties := .single "text" (.string "a")

def docGraph (properties : Properties) : Inner := ({} : Inner).applyOps [.upsertNode (docNode properties)]

/-- A property that another writer sets while the text is embedded is gone after the write. -/
theorem property_lost : ∃ r theirs, (semanticReindex "Doc" "text" "embedding").Runs (fun _ _ => True) r theirs ∧
    ¬ (semanticReindex "Doc" "text" "embedding").Kept r theirs := by
  refine ⟨_,_,.write ⟨0,0⟩ trivial (.others (docGraph (docText.insert "year" (.int 1))) (fun _ => .inl rfl)
    (.scan (.vector []) (.start (docGraph docText) 1))),fun hkept => ?_⟩
  have hyear : ∀ {p q : Option Properties}, Option.Rel (Properties.Alike "embedding") p q → p.bind (fun p => p.get "year") = q.bind (fun q => q.get "year") := by
    intro p q h
    cases h with
    | none => rfl
    | some h => exact h "year" (by decide)
  have hsame := hyear (hkept 1)
  revert hsame
  decide +kernel

end Sample

end Drevo
