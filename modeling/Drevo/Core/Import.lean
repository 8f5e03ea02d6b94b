import Drevo.Core.Constraints
import Drevo.Core.Calls

/-! The import of a dump, from its start to its return. It stores record after record in the live
state, checks no constraint, and hands what it has stored to the log at the end: a record that is
refused on the way, or a log that refuses, leaves the others behind. -/
namespace Drevo
open Lib

namespace Dump

/-- Whether each node is new under its id or the one that is there. -/
def acceptsNodes (held : Map ℕ Node) : List Node → Bool
  | [] => true
  | node :: rest =>
    match held[node.id]? with
    | some existing => existing = node && acceptsNodes held rest
    | none => acceptsNodes (held.insert node.id node) rest

/-- The same for edges; a new one also has its ends. -/
def acceptsEdges (nodes : Map ℕ Node) (held : Map ℕ Edge) : List Edge → Bool
  | [] => true
  | edge :: rest =>
    match held[edge.id]? with
    | some existing => existing.same edge && acceptsEdges nodes held rest
    | none =>
      nodes[edge.fromId]?.isSome && nodes[edge.toId]?.isSome &&
        acceptsEdges nodes (held.insert edge.id edge) rest

/-- The records held, and under every other id the first one that is given. -/
def merged {α : Type} (key : α → ℕ) (held : Map ℕ α) (given : List α) : Map ℕ α :=
  given.foldl (fun m a => if m[key a]?.isSome then m else m.insert (key a) a) held

/-- Every record of the dump is new, or equal to the one under its id. -/
def accepted (s : Inner) (dump : Dump) : Bool :=
  acceptsNodes s.nodes dump.nodes &&
    acceptsEdges (merged Node.id s.nodes dump.nodes) s.edges dump.edges

def untouched (s : Inner) (dump : Dump) : Bool :=
  match dump.nodes.dropWhile (fun n => s.nodes[n.id]? = some n) with
  | n :: _ => s.nodes[n.id]?.isSome
  | [] =>
    match dump.edges.dropWhile (fun e => s.edges[e.id]?.any (fun existing => existing.same e)) with
    | e :: _ => s.edges[e.id]?.isSome || s.nodes[e.fromId]?.isNone || s.nodes[e.toId]?.isNone
    | [] => true

theorem merged_held {α : Type} {key : α → ℕ} {held : Map ℕ α} {a x : α} (h : held[key a]? = some x) (given : List α) :
    merged key held (a :: given) = merged key held given := by
  simp only [merged,List.foldl_cons,h,Option.isSome_some,if_true]

theorem merged_new {α : Type} {key : α → ℕ} {held : Map ℕ α} {a : α} (h : held[key a]? = none) (given : List α) :
    merged key held (a :: given) = merged key (held.insert (key a) a) given := by
  simp only [merged,List.foldl_cons,h,Option.isSome_none,Bool.false_eq_true,if_false]

end Dump

namespace Inner
variable [JsonText]

/-- The state with the records of the dump that it did not have. -/
structure Extended (s t : Inner) (dump : Dump) : Prop where
  nodes : t.nodes = Dump.merged Node.id s.nodes dump.nodes
  edges : t.edges = Dump.merged Edge.id s.edges dump.edges
  embeddings : t.embeddings = s.embeddings

/-! ## One record after the other -/

theorem applyOp_upsertNode {s : Inner} (h : Wf s) (node : Node) :
    (s.applyOp (.upsertNode node)).nodes = s.nodes.insert node.id node ∧
      (s.applyOp (.upsertNode node)).edges = s.edges ∧
        (s.applyOp (.upsertNode node)).embeddings = s.embeddings := by
  have hg := applyOp_graph h (.upsertNode node)
  exact ⟨congrArg Graph.nodes hg,congrArg Graph.edges hg,congrArg Graph.embeddings hg⟩

theorem applyOp_upsertEdge {s : Inner} (h : Wf s) (edge : Edge) :
    (s.applyOp (.upsertEdge edge)).nodes = s.nodes ∧
      (s.applyOp (.upsertEdge edge)).edges = s.edges.insert edge.id edge ∧
        (s.applyOp (.upsertEdge edge)).embeddings = s.embeddings := by
  have hg := applyOp_graph h (.upsertEdge edge)
  exact ⟨congrArg Graph.nodes hg,congrArg Graph.edges hg,congrArg Graph.embeddings hg⟩

/-- What storing nodes leaves: no node is replaced, the edges and embeddings stay, and if all are
accepted the state has them all. -/
structure NodesStored (s : Inner) (nodes : List Node) (r : Except CoreError (List GraphOp × ImportReport))
    (t : Inner) : Prop where
  wf : Wf t
  kept : ∀ (id : ℕ) (n : Node), s.nodes[id]? = some n → t.nodes[id]? = some n
  edges : t.edges = s.edges
  embeddings : t.embeddings = s.embeddings
  ok : r.toBool = Dump.acceptsNodes s.nodes nodes
  all : r.toBool = true → t.nodes = Dump.merged Node.id s.nodes nodes

theorem importNodes_stored {s : Inner} (h : Wf s) (report : ImportReport) (nodes : List Node) :
    NodesStored s nodes (s.importNodes report nodes).1 (s.importNodes report nodes).2 := by
  induction nodes generalizing s report with
  | nil => exact ⟨h,fun _ _ hid => hid,rfl,rfl,rfl,fun _ => rfl⟩
  | cons node rest ih =>
    simp only [importNodes]
    cases hn : s.nodes[node.id]? with
    | some existing =>
      simp only
      split_ifs with heq
      · obtain ⟨hwf,hkept,hedges,hemb,hok,hall⟩ := ih h { report with nodesSkipped := report.nodesSkipped+1 }
        refine ⟨hwf,hkept,hedges,hemb,?_,?_⟩
        · rw [hok]
          simp [Dump.acceptsNodes,hn,heq]
        · rw [Dump.merged_held hn]
          exact hall
      · exact ⟨h,fun _ _ hid => hid,rfl,rfl,by simp [Dump.acceptsNodes,hn,heq,Except.toBool],
          by simp [Except.toBool]⟩
    | none =>
      obtain ⟨hnodes,hedges',hemb'⟩ := applyOp_upsertNode h node
      obtain ⟨hwf,hkept,hedges,hemb,hok,hall⟩ := ih (applyOp_wf h (.upsertNode node))
        { report with nodesImported := report.nodesImported+1 }
      have hbool : ∀ r : Except CoreError (List GraphOp × ImportReport),
          (r.map (fun p => (GraphOp.upsertNode node :: p.1,p.2))).toBool = r.toBool := by
        intro r
        cases r <;> rfl
      refine ⟨hwf,?_,hedges.trans hedges',hemb.trans hemb',?_,?_⟩
      · intro id n hid
        apply hkept
        rw [hnodes,Map.get_insert,if_neg]
        · exact hid
        · rintro rfl
          rw [hn] at hid
          cases hid
      · simp only [hbool,hok,hnodes,Dump.acceptsNodes,hn]
      · simp only [hbool]
        intro hr
        rw [hall hr,hnodes,Dump.merged_new hn]

/-- The same for edges. -/
structure EdgesStored (s : Inner) (edges : List Edge) (r : Except CoreError (List GraphOp × ImportReport))
    (t : Inner) : Prop where
  kept : ∀ (id : ℕ) (e : Edge), s.edges[id]? = some e → t.edges[id]? = some e
  nodes : t.nodes = s.nodes
  embeddings : t.embeddings = s.embeddings
  ok : r.toBool = Dump.acceptsEdges s.nodes s.edges edges
  all : r.toBool = true → t.edges = Dump.merged Edge.id s.edges edges

theorem importEdges_stored {s : Inner} (h : Wf s) (report : ImportReport) (edges : List Edge) :
    EdgesStored s edges (s.importEdges report edges).1 (s.importEdges report edges).2 := by
  induction edges generalizing s report with
  | nil => exact ⟨fun _ _ hid => hid,rfl,rfl,rfl,fun _ => rfl⟩
  | cons edge rest ih =>
    simp only [importEdges]
    cases he : s.edges[edge.id]? with
    | some existing =>
      simp only
      split_ifs with heq
      · obtain ⟨hkept,hnodes,hemb,hok,hall⟩ := ih h { report with edgesSkipped := report.edgesSkipped+1 }
        refine ⟨hkept,hnodes,hemb,?_,?_⟩
        · rw [hok]
          simp [Dump.acceptsEdges,he,heq]
        · rw [Dump.merged_held he]
          exact hall
      · exact ⟨fun _ _ hid => hid,rfl,rfl,by simp [Dump.acceptsEdges,he,heq,Except.toBool],by simp [Except.toBool]⟩
    | none =>
      simp only
      split_ifs with hfrom hto
      · exact ⟨fun _ _ hid => hid,rfl,rfl,by simp_all [Dump.acceptsEdges,Except.toBool],by simp [Except.toBool]⟩
      · exact ⟨fun _ _ hid => hid,rfl,rfl,by simp_all [Dump.acceptsEdges,Except.toBool],by simp [Except.toBool]⟩
      · obtain ⟨hnodes',hedges,hemb'⟩ := applyOp_upsertEdge h edge
        obtain ⟨hkept,hnodes,hemb,hok,hall⟩ := ih (applyOp_wf h (.upsertEdge edge))
          { report with edgesImported := report.edgesImported+1 }
        have hbool : ∀ r : Except CoreError (List GraphOp × ImportReport),
            (r.map (fun p => (GraphOp.upsertEdge edge :: p.1,p.2))).toBool = r.toBool := by
          intro r
          cases r <;> rfl
        refine ⟨?_,hnodes.trans hnodes',hemb.trans hemb',?_,?_⟩
        · intro id e hid
          apply hkept
          rw [hedges,Map.get_insert,if_neg]
          · exact hid
          · rintro rfl
            rw [he] at hid
            cases hid
        · have hsome : ∀ o : Option Node, ¬ o.isNone = true → o.isSome = true := by
            intro o ho
            cases o <;> simp_all
          simp only [hbool,hok,hnodes',hedges,Dump.acceptsEdges,he,hsome _ hfrom,hsome _ hto,Bool.true_and]
        · simp only [hbool]
          intro hr
          rw [hall hr,hedges,Dump.merged_new he]

/-! ## The whole dump -/

/-- An import goes through exactly if every record is accepted, and then the state has them all. -/
theorem importDump_accepted {s : Inner} (h : Wf s) (dump : Dump) :
    (s.importDump dump).1.toBool = dump.accepted s ∧
      (dump.accepted s = true → Extended s (s.importDump dump).2 dump) := by
  have hns := importNodes_stored h {} dump.nodes
  simp only [importDump,Dump.accepted]
  rcases hr : s.importNodes {} dump.nodes with ⟨r,t⟩
  rw [hr] at hns
  cases r with
  | error err =>
    have hno : Dump.acceptsNodes s.nodes dump.nodes = false := hns.ok.symm
    simp [hno,Except.toBool]
  | ok p =>
    obtain ⟨ops,report⟩ := p
    have hyes : Dump.acceptsNodes s.nodes dump.nodes = true := hns.ok.symm
    have hnodes : t.nodes = Dump.merged Node.id s.nodes dump.nodes := hns.all rfl
    have hes := importEdges_stored hns.wf report dump.edges
    simp only [hyes,Bool.true_and]
    rcases hr' : t.importEdges report dump.edges with ⟨r,u⟩
    rw [hr'] at hes
    have hok : r.toBool = Dump.acceptsEdges (Dump.merged Node.id s.nodes dump.nodes) s.edges dump.edges := by
      rw [← hnodes,← hns.edges]
      exact hes.ok
    cases r with
    | error err =>
      rw [← hok]
      simp [Except.toBool]
    | ok p =>
      rw [← hok]
      refine ⟨rfl,fun _ => ⟨?_,?_,?_⟩⟩
      · exact hes.nodes.trans hnodes
      · rw [← hns.edges]
        exact hes.all rfl
      · exact hes.embeddings.trans hns.embeddings

theorem importNodes_skip (s : Inner) (report : ImportReport) (nodes : List Node) : ∃ report',
    s.importNodes report nodes =
      s.importNodes report' (nodes.dropWhile (fun n => s.nodes[n.id]? = some n)) := by
  induction nodes generalizing report with
  | nil => exact ⟨report,rfl⟩
  | cons node rest ih =>
    by_cases hheld : s.nodes[node.id]? = some node
    · obtain ⟨report',hr⟩ := ih { report with nodesSkipped := report.nodesSkipped+1 }
      refine ⟨report',?_⟩
      rw [List.dropWhile_cons,if_pos (by simpa using hheld),← hr]
      simp [importNodes,hheld]
    · refine ⟨report,?_⟩
      rw [List.dropWhile_cons,if_neg (by simpa using hheld)]

theorem importEdges_skip (s : Inner) (report : ImportReport) (edges : List Edge) : ∃ report',
    s.importEdges report edges =
      s.importEdges report' (edges.dropWhile (fun e => s.edges[e.id]?.any (fun existing => existing.same e))) := by
  induction edges generalizing report with
  | nil => exact ⟨report,rfl⟩
  | cons edge rest ih =>
    cases hheld : s.edges[edge.id]?.any (fun existing => existing.same edge) with
    | true =>
      obtain ⟨existing,he,hsame⟩ := (Option.any_eq_true _ _).mp hheld
      obtain ⟨report',hr⟩ := ih { report with edgesSkipped := report.edgesSkipped+1 }
      refine ⟨report',?_⟩
      rw [List.dropWhile_cons,if_pos hheld,← hr]
      simp [importEdges,he,hsame]
    | false =>
      refine ⟨report,?_⟩
      rw [List.dropWhile_cons,if_neg (by simp [hheld])]

/-- An import whose first record that is not held is refused, or that has none, stores nothing. -/
theorem importDump_untouched {s : Inner} {dump : Dump} (hu : dump.untouched s = true) :
    s.Agree (s.importDump dump).2 ∧ ∀ applied report, (s.importDump dump).1 = .ok (applied,report) → applied = [] := by
  obtain ⟨report,hskip⟩ := importNodes_skip s {} dump.nodes
  simp only [Dump.untouched] at hu
  simp only [importDump,hskip]
  cases hn : dump.nodes.dropWhile (fun n => s.nodes[n.id]? = some n) with
  | cons node rest =>
    rw [hn] at hu
    obtain ⟨existing,hex⟩ := Option.isSome_iff_exists.mp hu
    have hne : ¬ existing = node := by
      have hhead := List.head_dropWhile_not (fun n => decide (s.nodes[n.id]? = some n)) (l := dump.nodes) (by simp [hn])
      simp only [hn,List.head_cons,hex,Option.some.injEq,decide_eq_false_iff_not] at hhead
      exact hhead
    simp only [importNodes,hex,if_neg hne]
    exact ⟨Agree.refl s,by simp⟩
  | nil =>
    rw [hn] at hu
    obtain ⟨report',hskip'⟩ := importEdges_skip s report dump.edges
    simp only [importNodes,hskip']
    cases he : dump.edges.dropWhile (fun e => s.edges[e.id]?.any (fun existing => existing.same e)) with
    | nil =>
      simp only [importEdges]
      exact ⟨rfl,by simp⟩
    | cons edge rest =>
      simp only [he] at hu
      have hhead : (s.edges[edge.id]?.any (fun existing => existing.same edge)) = false := by
        have hnot := List.head_dropWhile_not (fun e => s.edges[e.id]?.any (fun existing => existing.same e))
          (l := dump.edges) (by simp [he])
        simpa only [he,List.head_cons] using hnot
      simp only [importEdges]
      cases hex : s.edges[edge.id]? with
      | some existing =>
        have hne : ¬ existing.same edge = true := by simpa [hex] using hhead
        simp only [if_neg hne]
        exact ⟨Agree.refl s,by simp⟩
      | none =>
        simp only [hex,Option.isSome_none,Bool.false_or,Bool.or_eq_true] at hu
        simp only
        split_ifs with hfrom hto
        · exact ⟨Agree.refl s,by simp⟩
        · exact ⟨Agree.refl s,by simp⟩
        · exact absurd hu (not_or.mpr ⟨hfrom,hto⟩)

theorem importDump_nodes {s : Inner} (h : Wf s) (dump : Dump) :
    (s.importDump dump).2.nodes = (s.importNodes {} dump.nodes).2.nodes := by
  have hns := importNodes_stored h {} dump.nodes
  simp only [importDump]
  rcases hr : s.importNodes {} dump.nodes with ⟨r,t⟩
  rw [hr] at hns
  cases r with
  | error err => rfl
  | ok p =>
    obtain ⟨ops,report⟩ := p
    have hes := importEdges_stored hns.wf report dump.edges
    simp only
    rcases hr' : t.importEdges report dump.edges with ⟨r,u⟩
    rw [hr'] at hes
    cases r <;> exact hes.nodes

/-- The first record that is not held and not refused is stored, whatever follows. -/
theorem importDump_touched {s : Inner} (h : Wf s) {dump : Dump} (hu : dump.untouched s = false) :
    (s.importDump dump).2.graph ≠ s.graph := by
  obtain ⟨report,hskip⟩ := importNodes_skip s {} dump.nodes
  simp only [Dump.untouched] at hu
  intro hgraph
  cases hn : dump.nodes.dropWhile (fun n => s.nodes[n.id]? = some n) with
  | cons node rest =>
    simp only [hn] at hu
    have hnone : s.nodes[node.id]? = none := Option.not_isSome_iff_eq_none.mp (Bool.eq_false_iff.mp hu)
    have hstored := importNodes_stored (applyOp_wf h (.upsertNode node))
      { report with nodesImported := report.nodesImported+1 } rest
    have hget := hstored.kept node.id node (by simp [(applyOp_upsertNode h node).1])
    have hfinal : (s.importDump dump).2.nodes[node.id]? = some node := by
      rw [importDump_nodes h,hskip,hn]
      simpa only [importNodes,hnone] using hget
    have hsame : (s.importDump dump).2.nodes = s.nodes := congrArg Graph.nodes hgraph
    rw [hsame,hnone] at hfinal
    cases hfinal
  | nil =>
    simp only [hn] at hu
    cases he : dump.edges.dropWhile (fun e => s.edges[e.id]?.any (fun existing => existing.same e)) with
    | nil =>
      rw [he] at hu
      cases hu
    | cons edge rest =>
      simp only [he,Bool.or_eq_false_iff] at hu
      obtain ⟨⟨hnone,hfrom⟩,hto⟩ := hu
      have hnone : s.edges[edge.id]? = none := Option.not_isSome_iff_eq_none.mp (Bool.eq_false_iff.mp hnone)
      obtain ⟨report',hskip'⟩ := importEdges_skip s report dump.edges
      have hstored := importEdges_stored (applyOp_wf h (.upsertEdge edge))
        { report' with edgesImported := report'.edgesImported+1 } rest
      have hget := hstored.kept edge.id edge (by simp [(applyOp_upsertEdge h edge).2.1])
      have hfinal : (s.importDump dump).2.edges[edge.id]? = some edge := by
        simp only [importDump,hskip,hn,importNodes,hskip',he,importEdges,hnone,hfrom,hto,Bool.false_eq_true,if_false]
        rcases hr : (s.applyOp (.upsertEdge edge)).importEdges
          { report' with edgesImported := report'.edgesImported+1 } rest with ⟨r,u⟩
        rw [hr] at hget
        cases r <;> exact hget
      have hsame : (s.importDump dump).2.edges = s.edges := congrArg Graph.edges hgraph
      rw [hsame,hnone] at hfinal
      cases hfinal

theorem importDump_applied {s : Inner} (h : Wf s) {dump : Dump} {applied : List GraphOp} {report : ImportReport}
    (hr : (s.importDump dump).1 = .ok (applied,report)) : applied = [] ↔ dump.untouched s = true := by
  constructor
  · rintro rfl
    by_contra hu
    obtain ⟨ns,es,hagree,_,_,_,hdone⟩ := s.importDump_spec dump
    have hnil := hdone _ _ hr
    rw [← hnil] at hagree
    exact importDump_touched h (Bool.eq_false_iff.mpr hu) hagree.graph.symm
  · exact fun hu => (importDump_untouched hu).2 applied report hr

end Inner

namespace Source
variable [JsonText]

/-- An import by itself. -/
def importCall (s : Source) (call : ℕ) (dump : Dump) (encoded io : Bool) : Source :=
  (s.step (.act (.applyDump call dump))).settle call encoded io

/-- An import that succeeds adds the new records of the dump and breaks no constraint; one that
fails changes nothing. -/
structure ImportsWhole (s s' : Source) (call : ℕ) (dump : Dump) : Prop where
  ok : s'.failed call = false → Inner.Extended s.engine.live s'.engine.live dump ∧
    ((∀ c ∈ s.engine.live.constraints, c.Holds s.engine.live.nodes) →
      ∀ c ∈ s'.engine.live.constraints, c.Holds s'.engine.live.nodes)
  err : s'.failed call = true → s.engine.live.SameRecords s'.engine.live ∧
    s'.engine.queue.log = s.engine.queue.log ∧ s'.feed = s.feed

theorem step_act_idle {s : Source} {a : Action} (he : s.engine.step a = s.engine) (hc : s.engine.committed a = [])
    (hh : s.engine.handsOver a = []) : s.step (.act a) = s := by
  simp only [step,he,hc,hh]
  split_ifs <;> simp

theorem find_unpublished_fresh {s : Source} (h : Inv s) {call : ℕ} (hfree : s.engine.calls[call]? = none) :
    s.unpublished.find? (fun p => p.1 = call) = none := by
  rw [List.find?_eq_none]
  intro p hp hname
  have hsome := h.named p (List.mem_append_right _ hp)
  rw [of_decide_eq_true hname,hfree] at hsome
  cases hsome

theorem settle_done {s : Source} {call : ℕ} (hin : s.engine.inflight.find? (fun p => p.1 = call) = none)
    (hun : s.unpublished.find? (fun p => p.1 = call) = none)
    (hcall : ∀ seq, s.engine.calls[call]? ≠ some (.waiting seq)) (encoded io : Bool) : s.settle call encoded io = s := by
  have hpublish : s.step (.publish call) = s := by simp only [step,hun]
  have hengine : s.engine.step (.enqueue call encoded) = s.engine := by simp only [Engine.step,Engine.enqueue,hin]
  have henqueue : s.step (.act (.enqueue call encoded)) = s := step_act_idle hengine rfl rfl
  have hrun : s.run [.publish call,.act (.enqueue call encoded)] = s := by
    simp only [run,List.foldl_cons,List.foldl_nil,hpublish,henqueue]
  simp only [settle,hrun]

theorem importCall_done {s : Source} (h : Inv s) {call : ℕ} (hfree : s.engine.calls[call]? = none) {dump : Dump}
    (hops : s.engine.importOps dump = []) (st : CallState)
    (hst : (s.engine.applyDump call dump).2.calls = s.engine.calls.insert call st) (hend : ∀ seq, st ≠ .waiting seq)
    (encoded io : Bool) : (s.importCall call dump encoded io).engine = (s.engine.applyDump call dump).2 ∧
      (s.importCall call dump encoded io).feed = s.feed := by
  have hhands := Engine.applyDump_hands s.engine call dump
  rw [hops] at hhands
  have hengine : s.engine.step (.applyDump call dump) = (s.engine.applyDump call dump).2 := by
    simp [Engine.step,Map.contains_eq,hfree]
  have hnone : s.engine.handsOver (.applyDump call dump) = [] := by
    simp [Engine.handsOver,Map.contains_eq,hfree,hops,Engine.handed]
  have hstep : s.step (.act (.applyDump call dump)) = { s with engine := (s.engine.applyDump call dump).2 } := by
    have hcommitted : s.engine.committed (.applyDump call dump) = [] := rfl
    simp only [step,hengine,hnone,hcommitted,hhands.queue]
    split_ifs <;> simp
  have hin : (s.engine.applyDump call dump).2.inflight = s.engine.inflight := by
    rw [hhands.inflight]
    simp [Engine.handed]
  have hdone : ({ s with engine := (s.engine.applyDump call dump).2 } : Source).settle call encoded io =
      { s with engine := (s.engine.applyDump call dump).2 } := by
    refine settle_done ?_ ?_ ?_ encoded io
    · simp only [hin]
      exact find_inflight_fresh h hfree
    · exact find_unpublished_fresh h hfree
    · intro seq
      simp only [hst,Map.get_insert,if_true,ne_eq,Option.some.injEq]
      exact hend seq
  rw [importCall,hstep,hdone]
  exact ⟨rfl,rfl⟩

/-- An import that hands something to the log returns what the log does with it; without a log it
succeeds. What it stored stays in any case. -/
theorem importCall_logged {s : Source} (h : Inv s) {call : ℕ} (hfree : s.engine.calls[call]? = none) {dump : Dump}
    (hops : s.engine.importOps dump ≠ []) {e : Engine}
    (he : (s.engine.applyDump call dump).2 = e.leaveLock call (s.engine.importOps dump))
    (hd : e.durable = s.engine.durable) (encoded io : Bool) :
    (s.importCall call dump encoded io).engine.live = (s.engine.applyDump call dump).2.live ∧
      (s.importCall call dump encoded io).failed call = (s.engine.durable && !s.logs encoded io) := by
  have hhands := Engine.applyDump_hands s.engine call dump
  have hempty : (s.engine.importOps dump).isEmpty = false := by simpa using hops
  obtain ⟨s₁,hs₁⟩ : ∃ s₁, s.step (.act (.applyDump call dump)) = s₁ := ⟨_,rfl⟩
  have hengine : s₁.engine = (s.engine.applyDump call dump).2 := by
    rw [← hs₁]
    simp [Engine.step,Map.contains_eq,hfree]
  have hinv : Inv s₁ := hs₁ ▸ step_inv h _
  rw [importCall,hs₁,← hengine]
  cases hdur : s.engine.durable with
  | true =>
    have hfind : s₁.engine.inflight.find? (fun p => p.1 = call) = some (call,s.engine.importOps dump) := by
      rw [hengine,hhands.inflight,List.find?_append,find_inflight_fresh h hfree]
      simp [hdur,Engine.handed,hempty]
    have hspec := settle_spec hinv (by rw [hengine,hhands.durable,hdur]) hfind encoded io
    have hlogs : s₁.logs encoded io = s.logs encoded io := by simp only [logs,hengine,hhands.queue]
    rw [hlogs] at hspec
    exact ⟨hspec.live,by simpa using hspec.failed⟩
  | false =>
    have hcalls : s₁.engine.calls[call]? = some .ok := by
      rw [hengine,he]
      simp [Engine.leaveLock,hd,hdur]
    have hin : s₁.engine.inflight = [] := (hinv.unlogged (by rw [hengine,hhands.durable,hdur])).1
    have hpublish : (s₁.step (.publish call)).engine = s₁.engine := by
      simp only [step]
      split <;> rfl
    have henqueue : ((s₁.step (.publish call)).step (.act (.enqueue call encoded))).engine = s₁.engine := by
      rw [step_act_engine,hpublish]
      simp only [Engine.step,Engine.enqueue,hin,List.find?_nil]
    have hend : (s₁.settle call encoded io).engine = s₁.engine := by
      simp only [settle,run,List.foldl_cons,List.foldl_nil,henqueue,hcalls]
    rw [hend]
    exact ⟨rfl,by simp [failed,hend,hcalls]⟩

section Cases
variable {s : Source} (h : Inv s) {call : ℕ} (hfree : s.engine.calls[call]? = none) (dump : Dump) (encoded io : Bool)
theorem stored_constraints :
    ((s.engine.load s.engine.live).importDump dump).2.constraints = s.engine.live.constraints := by
  obtain ⟨ns,es,ha,-⟩ := (s.engine.load s.engine.live).importDump_spec dump
  exact Inner.constraints_of_schema (ha.schema.trans (Inner.applyOps_schema _ (ns ++ es)).schema)

include h

theorem stored_same : s.engine.live.SameRecords ((s.engine.load s.engine.live).importDump dump).2 ↔
    dump.untouched s.engine.live = true := by
  constructor
  · intro hsame
    by_contra hu
    exact @Inner.importDump_touched _ _ h.engine.live dump (Bool.eq_false_iff.mpr hu) hsame.graph
  · intro hu
    have hagree := (Inner.importDump_untouched (s := s.engine.load s.engine.live) hu).1
    exact Inner.sameRecords_load.mp (Inner.sameRecords_of_agree hagree)

theorem importDump_whole (ha : dump.accepted s.engine.live = true) : ∃ applied report t,
    (s.engine.load s.engine.live).importDump dump = (.ok (applied,report),t) ∧
      s.engine.live.Extended t dump ∧ t.constraints = s.engine.live.constraints ∧
        (applied = [] ↔ dump.untouched s.engine.live = true) ∧
          (s.engine.live.SameRecords t ↔ dump.untouched s.engine.live = true) := by
  have hsame := stored_same h dump
  have hconstraints := stored_constraints (s := s) dump
  obtain ⟨hok,hextended⟩ := Inner.importDump_accepted h.engine.live dump
  have hok : _ = dump.accepted s.engine.live := hok
  obtain ⟨hnodes,hedges,hemb⟩ := hextended ha
  have happlied := @Inner.importDump_applied _ _ h.engine.live dump
  rcases hr : (s.engine.load s.engine.live).importDump dump with ⟨r,t⟩
  rw [hr] at hsame hconstraints hok hnodes hedges hemb happlied
  cases r with
  | error err =>
    rw [ha] at hok
    cases hok
  | ok p =>
    obtain ⟨applied,report⟩ := p
    exact ⟨applied,report,t,rfl,⟨hnodes,hedges,hemb⟩,hconstraints,happlied rfl,hsame⟩

include hfree

theorem importCall_refused {err : CoreError} (hw : s.engine.writeForCommit = .error err) :
    s.ImportsWhole (s.importCall call dump encoded io) call dump := by
  have hops : s.engine.importOps dump = [] := by simp only [Engine.importOps,hw]
  have hdump : s.engine.applyDump call dump = (.error err,{ s.engine with calls := s.engine.calls.insert call .err }) := by
    simp only [Engine.applyDump,hw]
  obtain ⟨hend,hfeed⟩ := importCall_done h hfree hops .err (by rw [hdump]) (by simp) encoded io
  rw [hdump] at hend
  refine ⟨by simp [failed,hend],fun _ => ?_⟩
  rw [hend,hfeed]
  exact ⟨rfl,rfl,rfl⟩

variable (hw : s.engine.writeForCommit = .ok ())
include hw

/-- A record of the dump is refused: the import fails, and what it stored before stays. -/
theorem importCall_rejected (ha : dump.accepted s.engine.live = false) :
    s.ImportsWhole (s.importCall call dump encoded io) call dump ↔ dump.untouched s.engine.live = true := by
  have hsame := stored_same h dump
  have hok : ((s.engine.load s.engine.live).importDump dump).1.toBool = dump.accepted s.engine.live :=
    (Inner.importDump_accepted h.engine.live dump).1
  rcases hr : (s.engine.load s.engine.live).importDump dump with ⟨r,t⟩
  rw [hr] at hsame hok
  cases r with
  | ok p =>
    rw [ha] at hok
    cases hok
  | error err =>
    have hops : s.engine.importOps dump = [] := by simp only [Engine.importOps,hw,hr]
    have hdump : s.engine.applyDump call dump = (.error err,{ s.engine with
        live := t, ids := t.ids, epoch := s.engine.epoch+1, calls := s.engine.calls.insert call .err }) := by
      simp only [Engine.applyDump,hw,Engine.withLive,hr]
    obtain ⟨hend,hfeed⟩ := importCall_done h hfree hops .err (by rw [hdump]) (by simp) encoded io
    rw [hdump] at hend
    have hfailed : (s.importCall call dump encoded io).failed call = true := by simp [failed,hend]
    rw [← hsame]
    constructor
    · intro himport
      have hrecords := (himport.err hfailed).1
      rw [hend] at hrecords
      exact hrecords
    · intro hrecords
      refine ⟨fun hf => ?_,fun _ => ?_⟩
      · rw [hfailed] at hf
        cases hf
      · rw [hend,hfeed]
        exact ⟨hrecords,rfl,rfl⟩

variable (ha : dump.accepted s.engine.live = true)
include ha

theorem importCall_held (hu : dump.untouched s.engine.live = true) :
    s.ImportsWhole (s.importCall call dump encoded io) call dump := by
  obtain ⟨applied,report,t,hr,hextended,hconstraints,happlied,hsame⟩ := importDump_whole h dump ha
  obtain rfl := happlied.mpr hu
  have hops : s.engine.importOps dump = [] := by simp only [Engine.importOps,hw,hr]
  have hdump : (s.engine.applyDump call dump).2 =
      ({ s.engine with live := t, ids := t.ids, epoch := s.engine.epoch+1 } : Engine).leaveLock call [] := by
    simp only [Engine.applyDump,hw,Engine.withLive,hr]
    rfl
  have hend := (importCall_done h hfree hops .ok (by rw [hdump]; rfl) (by simp) encoded io).1
  rw [hdump] at hend
  have hlive : (s.importCall call dump encoded io).engine.live = t := by rw [hend,(Engine.leaveLock_core _ call []).live]
  refine ⟨fun _ => ?_,fun hf => ?_⟩
  · rw [hlive]
    refine ⟨hextended,fun hholds => ?_⟩
    have hnodes : t.nodes = s.engine.live.nodes := congrArg Graph.nodes (hsame.mpr hu).graph
    rw [hconstraints,hnodes]
    exact hholds
  · simp [failed,hend,Engine.leaveLock] at hf

/-- Something of the dump is new: the log has to take it, and no constraint may break. -/
theorem importCall_stored (hu : dump.untouched s.engine.live = false) :
    s.ImportsWhole (s.importCall call dump encoded io) call dump ↔
      (s.engine.durable = true → s.logs encoded io = true) ∧
        ((∀ c ∈ s.engine.live.constraints, c.Holds s.engine.live.nodes) →
          ∀ c ∈ s.engine.live.constraints,
            c.Holds (Dump.merged Node.id s.engine.live.nodes dump.nodes)) := by
  obtain ⟨applied,report,t,hr,hextended,hconstraints,happlied,hsame⟩ := importDump_whole h dump ha
  have hne : applied.isEmpty = false := by
    by_contra hemp
    rw [happlied.mp (by simpa using hemp)] at hu
    cases hu
  have hops : s.engine.importOps dump = applied := by simp only [Engine.importOps,hw,hr]
  have hdump : (s.engine.applyDump call dump).2 = (({ s.engine with
      live := t, ids := t.ids, epoch := s.engine.epoch+1 } : Engine).noteCommit (.fromOps applied)).leaveLock
        call (s.engine.importOps dump) := by
    simp only [hops,Engine.applyDump,hw,Engine.withLive,hr,hne,Bool.false_eq_true,if_false]
  obtain ⟨hlive,hfailed⟩ := importCall_logged h hfree (by rw [hops]; simpa using hne) hdump rfl encoded io
  rw [hdump,(Engine.leaveLock_core _ call _).live] at hlive
  have hlive : (s.importCall call dump encoded io).engine.live = { t with commitSeq := t.commitSeq+1 } := hlive
  have hnot : ¬ s.engine.live.SameRecords (s.importCall call dump encoded io).engine.live := by
    rw [hlive,Inner.sameRecords_commitSeq,hsame,hu]
    simp
  constructor
  · intro himport
    have hok : (s.importCall call dump encoded io).failed call = false := by
      by_contra hf
      exact hnot (himport.err (Bool.of_not_eq_false hf)).1
    refine ⟨fun hd => ?_,fun hholds => ?_⟩
    · simpa [hfailed,hd] using hok
    · have hafter := (himport.ok hok).2 hholds
      rw [hlive] at hafter
      simp only [hconstraints,hextended.nodes] at hafter
      exact hafter
  · rintro ⟨hlogs,hkeeps⟩
    have hok : (s.importCall call dump encoded io).failed call = false := by
      rw [hfailed]
      cases hd : s.engine.durable with
      | false => rfl
      | true => simp [hlogs hd]
    refine ⟨fun _ => ?_,fun hf => ?_⟩
    · rw [hlive]
      refine ⟨⟨hextended.nodes,hextended.edges,hextended.embeddings⟩,fun hholds => ?_⟩
      simp only [hconstraints,hextended.nodes]
      exact hkeeps hholds
    · rw [hok] at hf
      cases hf

end Cases

end Source

section Sample
attribute [local instance] Json.compactText

/-- A node with the given title. -/
def titledNode (id : ℕ) (title : String) : Node := (NewNode.titled "n" title).intoNode id ⟨0,1#128⟩

end Sample
end Drevo
