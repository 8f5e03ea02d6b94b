import Drevo.Core.System

/-! What a section under the writer lock can do to the live state: nothing, a change of the
pointer only, a commit that is noted in the history, or, for an import that was refused half
way, a change that is not noted. -/
namespace Drevo
open Lib

/-! ## The writes on one state -/

section Writes
variable [JsonText] {s t : Inner}

theorem DirectWrite.run_ok (h : s.Wf) {w : DirectWrite} {ops : List GraphOp}
    (hr : w.run s = (.ok ops,t)) : t = s.applyOps ops := by
  cases w with
  | mutation m =>
    rcases hm : s.mutate m true with ⟨r,u⟩
    cases r with
    | error e => simp [DirectWrite.run,hm,Except.map] at hr
    | ok op =>
      simp only [DirectWrite.run,hm,Prod.map_apply,Except.map,id,Prod.mk.injEq,Except.ok.injEq] at hr
      obtain ⟨rfl,rfl⟩ := hr
      exact Inner.mutate_ok h hm
  | setEmbedding id vector =>
    simp only [DirectWrite.run] at hr
    split_ifs at hr
    · obtain ⟨hops,rfl⟩ := Prod.mk.inj hr
      obtain rfl := Except.ok.inj hops
      rfl
    · simp at hr
  | setEmbeddings embeddings =>
    simp only [DirectWrite.run] at hr
    split at hr
    · simp at hr
    · obtain ⟨hops,rfl⟩ := Prod.mk.inj hr
      obtain rfl := Except.ok.inj hops
      rfl
  | deleteEmbedding id =>
    obtain ⟨hops,rfl⟩ := Prod.mk.inj hr
    obtain rfl := Except.ok.inj hops
    rfl

theorem DirectWrite.run_err {w : DirectWrite} {err : CoreError} (hr : w.run s = (.error err,t)) :
    s.Agree t ∧ s.ids.Le t.ids := by
  have hsame : s = t → s.Agree t ∧ s.ids.Le t.ids := by
    rintro rfl
    exact ⟨rfl,IdCounters.Le.refl _⟩
  cases w with
  | mutation m =>
    rcases hm : s.mutate m true with ⟨r,u⟩
    cases r with
    | ok op => simp [DirectWrite.run,hm,Except.map] at hr
    | error e =>
      simp only [DirectWrite.run,hm,Prod.map_apply,id,Prod.mk.injEq] at hr
      obtain ⟨-,rfl⟩ := hr
      exact Inner.mutate_err hm
  | setEmbedding id vector =>
    simp only [DirectWrite.run] at hr
    split_ifs at hr
    · simp at hr
    · exact hsame (Prod.mk.inj hr).2
  | setEmbeddings embeddings =>
    simp only [DirectWrite.run] at hr
    split at hr
    · exact hsame (Prod.mk.inj hr).2
    · simp at hr
  | deleteEmbedding id => simp [DirectWrite.run] at hr

omit [JsonText] in
theorem DirectWrite.touched_eq {w : DirectWrite} {ops : List GraphOp} :
    w.touched ops = .fromOps ops := by
  have hone : ∀ op, touchedBy op = .fromOps [op] := by
    intro op
    cases op <;> rfl
  unfold DirectWrite.touched
  split
  · rfl
  · exact hone _
  · rfl

theorem BatchWrite.mutateAll_ok (h : s.Wf) {ms : List Mutation} {ops : List GraphOp}
    (hr : BatchWrite.mutateAll s ms = (.ok ops,t)) : t = s.applyOps ops := by
  induction ms generalizing s ops with
  | nil =>
    obtain ⟨hops,rfl⟩ := Prod.mk.inj hr
    obtain rfl := Except.ok.inj hops
    rfl
  | cons m ms ih =>
    simp only [BatchWrite.mutateAll] at hr
    rcases hm : s.mutate m true with ⟨r,u⟩
    cases r with
    | error e => simp [hm] at hr
    | ok op =>
      simp only [hm] at hr
      rcases hrest : BatchWrite.mutateAll u ms with ⟨r,v⟩
      cases r with
      | error e => simp [hrest,Except.map] at hr
      | ok more =>
        simp only [hrest,Prod.map_apply,Except.map,id,Prod.mk.injEq,Except.ok.injEq] at hr
        obtain ⟨rfl,rfl⟩ := hr
        obtain rfl := Inner.mutate_ok h hm
        exact ih (Inner.applyOp_wf h op) hrest

theorem BatchWrite.mutateAll_ids (h : s.Wf) (ms : List Mutation) :
    s.ids.Le (BatchWrite.mutateAll s ms).2.ids := by
  induction ms generalizing s with
  | nil => exact IdCounters.Le.refl _
  | cons m ms ih =>
    have hi := Inner.mutate_ids h m true
    have hw := Inner.mutate_wf h m true
    simp only [BatchWrite.mutateAll]
    rcases hm : s.mutate m true with ⟨r,u⟩
    rw [hm] at hi hw
    cases r with
    | error e => exact hi
    | ok op => exact hi.trans (ih hw)

theorem BatchWrite.deleteAll_eq (s : Inner) (ids : List ℕ) :
    (BatchWrite.deleteAll s ids).2 = s.applyOps (BatchWrite.deleteAll s ids).1 := by
  induction ids generalizing s with
  | nil => rfl
  | cons i ids ih =>
    cases hn : s.nodes[i]? with
    | none =>
      simp only [BatchWrite.deleteAll,Inner.deleteNode,hn]
      exact ih s
    | some node =>
      simp only [BatchWrite.deleteAll,Inner.deleteNode,hn,Prod.map_fst,Prod.map_snd,id]
      rw [ih]
      simp only [Inner.applyOps,List.foldl_cons,Inner.applyOp,hn]

theorem BatchWrite.run_ok (h : s.Wf) {w : BatchWrite} {ops : List GraphOp}
    (hr : w.run s = (.ok ops,t)) : t = s.applyOps ops := by
  cases w with
  | createNodes newNodes => exact BatchWrite.mutateAll_ok h hr
  | createEdges newEdges => exact BatchWrite.mutateAll_ok h hr
  | deleteNodes ids =>
    simp only [BatchWrite.run,Prod.map,Prod.mk.injEq,Except.ok.injEq,id] at hr
    obtain ⟨rfl,rfl⟩ := hr
    exact BatchWrite.deleteAll_eq s ids

theorem BatchWrite.run_ids (h : s.Wf) (w : BatchWrite) : s.ids.Le (w.run s).2.ids := by
  cases w with
  | createNodes newNodes => exact BatchWrite.mutateAll_ids h _
  | createEdges newEdges => exact BatchWrite.mutateAll_ids h _
  | deleteNodes ids =>
    have he := BatchWrite.deleteAll_eq s ids
    simp only [BatchWrite.run,Prod.map,id,he]
    exact Inner.applyOps_ids s _

/-! ## Imports -/

theorem Inner.importNodes_spec (s : Inner) (report : ImportReport) (nodes : List Node) :
    ∃ ops, (s.importNodes report nodes).2 = s.applyOps ops ∧ (∀ op ∈ ops, ∃ node, op = .upsertNode node) ∧
      ∀ done r, (s.importNodes report nodes).1 = .ok (done,r) → done = ops := by
  induction nodes generalizing s report with
  | nil =>
    refine ⟨[],rfl,by simp,?_⟩
    intro done r h
    simp only [Inner.importNodes,Except.ok.injEq,Prod.mk.injEq] at h
    exact h.1.symm
  | cons node nodes ih =>
    simp only [Inner.importNodes]
    split
    · split_ifs with he
      · exact ih s _
      · exact ⟨[],rfl,by simp,by simp⟩
    · obtain ⟨ops,ht,hall,hok⟩ := ih (s.applyOp (.upsertNode node))
        { report with nodesImported := report.nodesImported+1 }
      refine ⟨.upsertNode node :: ops,ht,?_,?_⟩
      · intro op hop
        rcases List.mem_cons.mp hop with rfl | hop
        · exact ⟨node,rfl⟩
        · exact hall op hop
      · intro done r h
        cases hr : (Inner.importNodes (s.applyOp (.upsertNode node))
            { report with nodesImported := report.nodesImported+1 } nodes).1 with
        | error err => simp [hr,Except.map] at h
        | ok p =>
          simp only [hr,Except.map,Except.ok.injEq,Prod.mk.injEq] at h
          rw [← h.1,hok p.1 p.2 hr]

/-- An imported edge has its ends among the stored nodes. -/
theorem Inner.importEdges_spec (s : Inner) (report : ImportReport) (edges : List Edge) :
    ∃ ops, (s.importEdges report edges).2 = s.applyOps ops ∧
      (∀ op ∈ ops, ∃ edge, op = .upsertEdge edge ∧ s.nodes[edge.fromId]?.isSome ∧
        s.nodes[edge.toId]?.isSome) ∧
      ∀ done r, (s.importEdges report edges).1 = .ok (done,r) → done = ops := by
  induction edges generalizing s report with
  | nil =>
    refine ⟨[],rfl,by simp,?_⟩
    intro done r h
    simp only [Inner.importEdges,Except.ok.injEq,Prod.mk.injEq] at h
    exact h.1.symm
  | cons edge edges ih =>
    simp only [Inner.importEdges]
    split
    · split_ifs with he
      · exact ih s _
      · exact ⟨[],rfl,by simp,by simp⟩
    · split_ifs with hf ht
      · exact ⟨[],rfl,by simp,by simp⟩
      · exact ⟨[],rfl,by simp,by simp⟩
      · have hn : (s.applyOp (.upsertEdge edge)).nodes = s.nodes := (Inner.upsertEdge_frame s edge).nodes
        obtain ⟨ops,hs,hall,hok⟩ := ih (s.applyOp (.upsertEdge edge))
          { report with edgesImported := report.edgesImported+1 }
        rw [hn] at hall
        refine ⟨.upsertEdge edge :: ops,hs,?_,?_⟩
        · intro op hop
          rcases List.mem_cons.mp hop with rfl | hop
          · exact ⟨edge,rfl,by simpa using hf,by simpa using ht⟩
          · exact hall op hop
        · intro done r h
          cases hr : (Inner.importEdges (s.applyOp (.upsertEdge edge))
              { report with edgesImported := report.edgesImported+1 } edges).1 with
          | error err => simp [hr,Except.map] at h
          | ok p =>
            simp only [hr,Except.map,Except.ok.injEq,Prod.mk.injEq] at h
            rw [← h.1,hok p.1 p.2 hr]

/-- What an import left, complete or not: nodes first, then edges between stored nodes. -/
theorem Inner.importDump_spec (s : Inner) (dump : Dump) :
    ∃ ns es, (s.applyOps (ns ++ es)).Agree (s.importDump dump).2 ∧
      (s.applyOps (ns ++ es)).ids.Le (s.importDump dump).2.ids ∧
      (∀ op ∈ ns, ∃ node, op = .upsertNode node) ∧
      (∀ op ∈ es, ∃ edge, op = .upsertEdge edge ∧ (s.applyOps ns).nodes[edge.fromId]?.isSome ∧
        (s.applyOps ns).nodes[edge.toId]?.isSome) ∧
      ∀ done r, (s.importDump dump).1 = .ok (done,r) → done = ns ++ es := by
  have happ : ∀ as bs, s.applyOps (as ++ bs) = (s.applyOps as).applyOps bs := fun as bs => List.foldl_append
  obtain ⟨ns,hns,hn,hnok⟩ := s.importNodes_spec {} dump.nodes
  simp only [Inner.importDump]
  rcases hr : s.importNodes {} dump.nodes with ⟨r,t⟩
  rw [hr] at hns hnok
  obtain rfl : t = s.applyOps ns := hns
  cases r with
  | error err =>
    refine ⟨ns,[],?_,?_,hn,by simp,by simp⟩
    · rw [List.append_nil]
      exact Inner.Agree.refl _
    · rw [List.append_nil]
      exact IdCounters.Le.refl _
  | ok p =>
    obtain ⟨done,report⟩ := p
    obtain rfl := hnok done report rfl
    obtain ⟨es,hes,he,heok⟩ := (s.applyOps done).importEdges_spec report dump.edges
    rcases hr' : (s.applyOps done).importEdges report dump.edges with ⟨r,t⟩
    rw [hr'] at hes heok
    obtain rfl : t = (s.applyOps done).applyOps es := hes
    simp only [hr']
    refine ⟨done,es,?_,?_,hn,he,?_⟩
    · rw [happ]
      cases r <;> exact rfl
    · rw [happ]
      cases r with
      | error err => exact IdCounters.Le.refl _
      | ok p => exact ⟨le_max_left _ _,le_max_left _ _⟩
    · intro all r' h
      cases r with
      | error err => simp at h
      | ok p =>
        simp only [Except.ok.injEq,Prod.mk.injEq] at h
        rw [← h.1,heok p.1 p.2 rfl]

end Writes

/-- The change stores a record. -/
def GraphOp.isUpsert : GraphOp → Bool
  | .upsertNode _ => true
  | .upsertEdge _ => true
  | _ => false

/-- What a call that succeeded made live. -/
def okOps {ε : Type} (r : Except ε Unit) (ops : List GraphOp) : List GraphOp :=
  match r with
  | .ok _ => ops
  | .error _ => []

namespace Engine

/-- A commit that is noted in the history under the next sequence number. -/
structure Noted (e e' : Engine) (ops : List GraphOp) (set : ConflictSet) : Prop where
  graph : e'.live.graph = e.live.graph.applyAll ops
  seq : e'.live.commitSeq = e.live.commitSeq+1
  history : e'.history = e.history.push (e.live.commitSeq+1) set
  epoch : e.epoch < e'.epoch

theorem Noted.of_core {e a b : Engine} {ops : List GraphOp} {set : ConflictSet} (h : Noted e a ops set)
    (hc : SameCore a b) : Noted e b ops set :=
  ⟨hc.live ▸ h.graph,hc.live ▸ h.seq,hc.history.trans h.history,hc.epoch ▸ h.epoch⟩

/-- What a step did to the live state, with the changes it made live. -/
inductive LiveStep (e e' : Engine) : List GraphOp → Prop
  | quiet (hl : e'.live = e.live) (he : e'.epoch = e.epoch) (hh : e'.history = e.history) : LiveStep e e' []
  | touched (hg : e'.live.graph = e.live.graph) (hs : e'.live.commitSeq = e.live.commitSeq)
      (he : e.epoch < e'.epoch) (hh : e'.history = e.history) : LiveStep e e' []
  | noted {ops : List GraphOp} (set : ConflictSet) (h : Noted e e' ops set)
      (hset : set = .fromOps ops ∨ set = .all ∧ ops = []) : LiveStep e e' ops
  | unnoted {ops : List GraphOp} (hg : e'.live.graph = e.live.graph.applyAll ops)
      (hs : e'.live.commitSeq = e.live.commitSeq) (he : e.epoch < e'.epoch) (hh : e'.history = e.history)
      (hu : ∀ op ∈ ops, op.isUpsert) : LiveStep e e' ops

theorem LiveStep.of_core {e a b : Engine} {ops : List GraphOp} (h : LiveStep e a ops) (hc : SameCore a b) :
    LiveStep e b ops := by
  cases h with
  | quiet hl he hh => exact .quiet (hc.live.trans hl) (hc.epoch.trans he) (hc.history.trans hh)
  | touched hg hs he hh =>
    exact .touched (hc.live ▸ hg) (hc.live ▸ hs) (hc.epoch ▸ he) (hc.history.trans hh)
  | noted set h hset => exact .noted set (h.of_core hc) hset
  | unnoted hg hs he hh hu =>
    exact .unnoted (hc.live ▸ hg) (hc.live ▸ hs) (hc.epoch ▸ he) (hc.history.trans hh) hu

theorem SameCore.load {a b : Engine} (hc : SameCore a b) : b.load b.live = a.load a.live := by
  simp only [Engine.load,hc.live,hc.ids]

/-- The engine after the live state was changed to `s`, with the counters it left. -/
def moved (e : Engine) (s : Inner) (ids : IdCounters) : Engine :=
  { e with live := s, ids := ids, epoch := e.epoch+1 }

theorem Noted.moved {e : Engine} {s : Inner} {ids : IdCounters} {ops : List GraphOp} (set : ConflictSet)
    (hg : s.graph = e.live.graph.applyAll ops) (hs : s.commitSeq = e.live.commitSeq) :
    Noted e ((e.moved s ids).noteCommit set) ops set := by
  refine ⟨hg,?_,?_,Nat.lt_succ_self _⟩
  · simp [noteCommit,Engine.moved,hs]
  · simp [noteCommit,Engine.moved,hs]

variable [JsonText]

theorem Noted.applied {e : Engine} (h : (e.load e.live).Wf) (ops : List GraphOp) :
    Noted e ((e.moved ((e.load e.live).applyOps ops) ((e.load e.live).applyOps ops).ids).noteCommit
      (.fromOps ops)) ops (.fromOps ops) :=
  .moved _ (Inner.applyOps_graph h ops) (Inner.applyOps_schema (e.load e.live) ops).commitSeq

/-- A section under the writer lock that leaves the registered transactions alone. -/
structure Section (e e' : Engine) (ops : List GraphOp) : Prop where
  live : LiveStep e e' ops
  ids : e.ids.Le e'.ids
  wf : (e'.load e'.live).Wf
  txs : e'.txs = e.txs
  nextRegTx : e'.nextRegTx = e.nextRegTx

theorem Section.of_core {e a b : Engine} {ops : List GraphOp} (h : Section e a ops) (hc : SameCore a b) :
    Section e b ops where
  live := h.live.of_core hc
  ids := hc.ids ▸ h.ids
  wf := hc.load ▸ h.wf
  txs := hc.txs.trans h.txs
  nextRegTx := hc.nextRegTx.trans h.nextRegTx

theorem Section.quiet {e e' : Engine} (h : (e.load e.live).Wf) (hc : SameCore e e') : Section e e' [] where
  live := .quiet hc.live hc.epoch hc.history
  ids := hc.ids ▸ IdCounters.Le.refl _
  wf := hc.load ▸ h
  txs := hc.txs
  nextRegTx := hc.nextRegTx

theorem Section.noted {e : Engine} {s : Inner} (ids : IdCounters) {ops : List GraphOp} {set : ConflictSet}
    (hw : Inner.Wf { s with ids := ids }) (hg : s.graph = e.live.graph.applyAll ops)
    (hs : s.commitSeq = e.live.commitSeq) (hi : e.ids.Le ids)
    (hset : set = .fromOps ops ∨ set = .all ∧ ops = []) :
    Section e ((e.moved s ids).noteCommit set) ops where
  live := .noted set (.moved set hg hs) hset
  ids := hi
  wf := ⟨hw.nodes.congr rfl rfl rfl rfl le_rfl,hw.edges.congr rfl rfl rfl rfl le_rfl⟩
  txs := rfl
  nextRegTx := rfl

theorem Section.touched {e : Engine} {s : Inner} (ids : IdCounters) (hw : Inner.Wf { s with ids := ids })
    (hg : s.graph = e.live.graph) (hs : s.commitSeq = e.live.commitSeq) (hi : e.ids.Le ids) :
    Section e (e.moved s ids) [] where
  live := .touched hg hs (Nat.lt_succ_self _) rfl
  ids := hi
  wf := hw
  txs := rfl
  nextRegTx := rfl

omit [JsonText] in
theorem load_agree (e : Engine) (s : Inner) : s.Agree (e.load s) := rfl

theorem Section.applied {e : Engine} (h : (e.load e.live).Wf) (ops : List GraphOp) :
    Section e ((e.moved ((e.load e.live).applyOps ops) ((e.load e.live).applyOps ops).ids).noteCommit
      (.fromOps ops)) ops :=
  .noted _ (Inner.applyOps_wf h ops) (Inner.applyOps_graph h ops)
    (Inner.applyOps_schema (e.load e.live) ops).commitSeq (Inner.applyOps_ids (e.load e.live) ops) (Or.inl rfl)

omit [JsonText] in
theorem writeForCommit_prepared {e : Engine} (h : e.writeForCommit = .ok ()) : e.live.prepared = ∅ := by
  unfold writeForCommit at h
  split_ifs at h with hr hp
  exact Std.ExtTreeMap.isEmpty_iff.mp (by simpa using hp)

/-- A section that writes to the graph outside any transaction: the schema stays, and nothing
is written while a transaction is prepared. -/
structure WriteSection (e e' : Engine) (ops : List GraphOp) : Prop extends Section e e' ops where
  schema : e'.live.schema = e.live.schema
  free : ops = [] ∨ e.live.prepared = ∅

theorem WriteSection.of_core {e a b : Engine} {ops : List GraphOp} (h : WriteSection e a ops)
    (hc : SameCore a b) : WriteSection e b ops :=
  ⟨h.toSection.of_core hc,hc.live ▸ h.schema,h.free⟩

theorem WriteSection.quiet {e e' : Engine} (h : (e.load e.live).Wf) (hc : SameCore e e') :
    WriteSection e e' [] := ⟨.quiet h hc,congrArg Inner.schema hc.live,Or.inl rfl⟩

theorem WriteSection.applied {e : Engine} (h : (e.load e.live).Wf) (hw : e.writeForCommit = .ok ())
    (ops : List GraphOp) :
    WriteSection e ((e.moved ((e.load e.live).applyOps ops) ((e.load e.live).applyOps ops).ids).noteCommit
      (.fromOps ops)) ops :=
  ⟨.applied h ops,(Inner.applyOps_schema (e.load e.live) ops).schema,Or.inr (writeForCommit_prepared hw)⟩

/-! ## Direct writes and batches -/

theorem direct_section {e : Engine} (h : (e.load e.live).Wf) (call : ℕ) (w : DirectWrite) :
    WriteSection e (e.direct call w).2 ((e.direct call w).1.toOption.getD []) := by
  unfold direct
  split_ifs with hn
  · exact .quiet h (by constructor <;> rfl)
  split
  · exact .quiet h (by constructor <;> rfl)
  · rename_i hw
    rcases hr : w.run (e.load e.live) with ⟨r,t⟩
    cases r with
    | error err =>
      obtain ⟨ha,hi⟩ := DirectWrite.run_err hr
      simp only [withLive,hr]
      have ha' := (e.load_agree e.live).trans ha
      have ht := Section.touched t.ids (h.of_agree ha hi.1 hi.2) ha'.graph.symm ha'.commitSeq hi
      exact WriteSection.of_core ⟨ht,ha'.schema,Or.inl rfl⟩ (by constructor <;> rfl)
    | ok ops =>
      obtain rfl := DirectWrite.run_ok h hr
      simp only [withLive,hr,DirectWrite.touched_eq]
      exact (WriteSection.applied h hw ops).of_core (leaveLock_core _ call ops)

theorem batch_section {e : Engine} (h : (e.load e.live).Wf) (w : BatchWrite) (io : Bool) :
    WriteSection e (e.batch w io).2 ((e.batch w io).1.toOption.getD []) := by
  unfold batch
  split_ifs with hn
  · exact .quiet h (SameCore.refl e)
  split
  · exact .quiet h (SameCore.refl e)
  · rename_i hw
    have hids := BatchWrite.run_ids h w
    rcases hr : w.run (e.load e.live) with ⟨r,t⟩
    rw [hr] at hids
    -- a batch that was not swapped in can have used up ids
    have hspent : ∀ e' : Engine, SameCore { e with ids := t.ids } e' → WriteSection e e' [] := by
      intro e' hc
      refine .of_core (a := { e with ids := t.ids }) ⟨⟨.quiet rfl rfl rfl,hids,?_,rfl,rfl⟩,rfl,Or.inl rfl⟩ hc
      exact h.of_agree rfl hids.1 hids.2
    cases r with
    | error err => exact hspent _ (SameCore.refl _)
    | ok ops =>
      obtain rfl := BatchWrite.run_ok h hr
      simp only
      split_ifs with he
      · exact hspent _ (SameCore.refl _)
      · have hc := record_core { e with ids := ((e.load e.live).applyOps ops).ids } (ops.map .graph) io
        split
        · rename_i e' hrec
          rw [hrec] at hc
          exact hspent e' hc
        · rename_i e' hrec
          rw [hrec] at hc
          exact (WriteSection.applied h hw ops).of_core ((hc.install _).noteCommit _)

/-! ## Commits -/

omit [JsonText] in
/-- The fence of the prepared transactions lets the transaction through. -/
def PassesFence (e : Engine) (slot : TxSlot) : Prop :=
  e.live.prepared.isEmpty = false → (ConflictSet.fromOps slot.ops).intersects e.live.preparedSet = false

/-- How a commit ends. -/
inductive CommitResult (e : Engine) (slot : TxSlot) : Except CommitError Unit → Engine → Prop
  | refused (err : CommitError) (e' : Engine) (ids : IdCounters) (hids : e.ids.Le ids)
      (hc : SameCore { e with ids := ids } e')
      (hconflict : err = .conflict → e.epoch ≠ slot.baseEpoch ∧
        (e.history.classify slot.base.commitSeq (.fromOps slot.ops) ≠ .wouldPass ∨
          slot.isolation = .serializable ∨
          ∃ v, (e.merged slot).validateConstraints = .error v)) :
      CommitResult e slot (.error err) e'
  | empty (ho : slot.ops = []) : CommitResult e slot (.ok ()) e
  | swapped (e' : Engine) (hf : e.PassesFence slot) (he : e.epoch = slot.baseEpoch)
      (hv : slot.working.validateConstraints = .ok ()) (hp : slot.working.breaksPrepared = false)
      (hc : SameCore ((e.install slot.working).noteCommit (.fromOps slot.ops)) e') :
      CommitResult e slot (.ok ()) e'
  | replayed (e' : Engine) (hf : e.PassesFence slot) (he : e.epoch ≠ slot.baseEpoch)
      (hcl : e.history.classify slot.base.commitSeq (.fromOps slot.ops) = .wouldPass)
      (hv : (e.merged slot).validateConstraints = .ok ()) (hp : (e.merged slot).breaksPrepared = false)
      (hc : SameCore ((e.moved (e.merged slot) (e.merged slot).ids).noteCommit (.fromOps slot.ops)) e') :
      CommitResult e slot (.ok ()) e'

theorem commitParts_result (e : Engine) (slot : TxSlot) (io : Bool) :
    CommitResult e slot (e.commitParts slot io).1 (e.commitParts slot io).2 := by
  have hself : SameCore { e with ids := e.ids } e := SameCore.refl e
  have hids := IdCounters.Le.refl e.ids
  unfold commitParts
  simp only
  by_cases ho : slot.ops.isEmpty = true
  · rw [if_pos ho]
    exact .empty (by simpa using ho)
  rw [if_neg ho]
  by_cases hr : e.readOnly = true
  · rw [if_pos hr]
    exact .refused .readOnly e e.ids hids hself (by simp)
  rw [if_neg hr]
  by_cases hf : (!e.live.prepared.isEmpty && (ConflictSet.fromOps slot.ops).intersects e.live.preparedSet) = true
  · rw [if_pos hf]
    exact .refused (.preparedPending e.preparedGids) e e.ids hids hself (by simp)
  rw [if_neg hf]
  have hf' : e.PassesFence slot := by
    intro hp
    simpa [hp] using hf
  by_cases he : e.epoch = slot.baseEpoch
  · -- nothing happened since the transaction began
    rw [if_pos he]
    cases hv : slot.working.validateConstraints with
    | error v => exact .refused (.constraint v) e e.ids hids hself (by simp)
    | ok u =>
      simp only
      by_cases hb : slot.working.breaksPrepared = true
      · rw [if_pos hb]
        exact .refused (.preparedPending e.preparedGids) e e.ids hids hself (by simp)
      rw [if_neg hb]
      have hc := record_core e (slot.ops.map .graph) io
      rcases hrec : e.record (slot.ops.map .graph) io with ⟨ok,e'⟩
      rw [hrec] at hc
      cases ok with
      | false => exact .refused .io e' e.ids hids hc (by simp)
      | true => exact .swapped _ hf' he hv (by simpa using hb) ((hc.install _).noteCommit _)
  rw [if_neg he]
  by_cases hcl : e.history.classify slot.base.commitSeq (.fromOps slot.ops) ≠ .wouldPass ∨
      slot.isolation = .serializable
  · rw [if_pos hcl]
    exact .refused .conflict e e.ids hids hself (fun _ => ⟨he,hcl.imp_right Or.inl⟩)
  rw [if_neg hcl]
  -- others committed, and none of them touched what this transaction touched
  obtain ⟨hcl,-⟩ := not_or.mp hcl
  have hm : e.ids.Le (e.merged slot).ids := Inner.applyOps_ids (e.load e.live) slot.ops
  cases hv : slot.working.validateConstraints with
  | error v => exact .refused (.constraint v) e e.ids hids hself (by simp)
  | ok u =>
    simp only
    cases hv : (e.merged slot).validateConstraints with
    | error v =>
      exact .refused .conflict _ _ hm (SameCore.refl _) (fun _ => ⟨he,Or.inr (Or.inr ⟨v,hv⟩)⟩)
    | ok u =>
      simp only
      by_cases hb : (e.merged slot).breaksPrepared = true
      · rw [if_pos hb]
        exact .refused (.preparedPending e.preparedGids) _ _ hm (SameCore.refl _) (by simp)
      rw [if_neg hb]
      have hc := record_core { e with ids := (e.merged slot).ids } (slot.ops.map .graph) io
      rcases hrec : Engine.record { e with ids := (e.merged slot).ids } (slot.ops.map .graph) io with ⟨ok,e'⟩
      rw [hrec] at hc
      cases ok with
      | false => exact .refused .io e' _ hm hc (by simp)
      | true =>
        exact .replayed _ hf' he (by simpa using hcl) hv (by simpa using hb) ((hc.install _).noteCommit _)

/-! ## Two-phase commit -/

/-- How a prepare ends, once the transaction is no longer registered. -/
inductive PrepareResult (e : Engine) (slot : TxSlot) (gid : String) (now : ℤ) :
    Except PrepareError Unit → Engine → Prop
  | refused (err : PrepareError) (e' : Engine) (hc : SameCore e e') : PrepareResult e slot gid now (.error err) e'
  | prepared (e' : Engine) (hp : e.live.prepared = ∅) (he : e.epoch = slot.baseEpoch)
      (hv : slot.working.validateConstraints = .ok ())
      (hc : SameCore ((e.install (e.fenced gid now slot.ops)).noteCommit {}) e') :
      PrepareResult e slot gid now (.ok ()) e'

theorem prepareParts_result (e : Engine) (slot : TxSlot) (gid : String) (now : ℤ) (io : Bool) :
    PrepareResult e slot gid now (e.prepareParts slot gid now io).1 (e.prepareParts slot gid now io).2 := by
  unfold prepareParts
  by_cases hr : e.readOnly = true
  · rw [if_pos hr]
    exact .refused _ e (SameCore.refl e)
  rw [if_neg hr]
  by_cases hg : e.live.prepared.contains gid = true
  · rw [if_pos hg]
    exact .refused _ e (SameCore.refl e)
  rw [if_neg hg]
  by_cases hp : (!e.live.prepared.isEmpty) = true
  · rw [if_pos hp]
    exact .refused _ e (SameCore.refl e)
  rw [if_neg hp]
  by_cases he : e.epoch ≠ slot.baseEpoch
  · rw [if_pos he]
    exact .refused _ e (SameCore.refl e)
  rw [if_neg he]
  cases hv : slot.working.validateConstraints with
  | error v => exact .refused _ e (SameCore.refl e)
  | ok u =>
    simp only
    have hc := record_core e [.prepare gid now slot.ops] io
    rcases hrec : e.record [.prepare gid now slot.ops] io with ⟨ok,e'⟩
    rw [hrec] at hc
    cases ok with
    | false => exact .refused _ e' hc
    | true =>
      refine .prepared _ (Std.ExtTreeMap.isEmpty_iff.mp (by simpa using hp)) (not_not.mp he) hv ?_
      have hlive : e'.live = e.live := hc.live
      have hl : e'.fenced gid now slot.ops = e.fenced gid now slot.ops := by simp only [fenced,hlive]
      exact hl ▸ (hc.install _).noteCommit _

theorem commitPrepared_result (e : Engine) (gid : String) (io : Bool) :
    (∃ err, (e.commitPrepared gid io).1 = .error err ∧ SameCore e (e.commitPrepared gid io).2) ∨
    ∃ entry, e.live.prepared[gid]? = some entry ∧ (e.commitPrepared gid io).1 = .ok () ∧
      SameCore ((e.moved ((e.load e.live).applyWalOp (.commitPrepared gid))
        ((e.load e.live).applyWalOp (.commitPrepared gid)).ids).noteCommit (.fromOps entry.ops))
        (e.commitPrepared gid io).2 := by
  unfold commitPrepared
  by_cases hr : e.readOnly = true
  · rw [if_pos hr]
    exact Or.inl ⟨_,rfl,SameCore.refl e⟩
  rw [if_neg hr]
  cases hg : e.live.prepared[gid]? with
  | none => exact Or.inl ⟨_,rfl,SameCore.refl e⟩
  | some entry =>
    simp only
    have hc := record_core e [.commitPrepared gid] io
    rcases hrec : e.record [.commitPrepared gid] io with ⟨ok,e'⟩
    rw [hrec] at hc
    cases ok with
    | false => exact Or.inl ⟨_,rfl,hc⟩
    | true =>
      refine Or.inr ⟨entry,rfl,rfl,?_⟩
      exact (hc.withLive (fun s => ((),s.applyWalOp (.commitPrepared gid)))).2.noteCommit _

theorem rollbackPreparedAs_result (e : Engine) (gid : String) (heuristic io : Bool) :
    SameCore e (e.rollbackPreparedAs gid heuristic io).2 ∨
    ∃ entry, e.live.prepared[gid]? = some entry ∧ (e.rollbackPreparedAs gid heuristic io).1 = .ok () ∧
      SameCore ((e.moved ((e.load e.live).applyWalOp (.rollbackPrepared gid heuristic))
        ((e.load e.live).applyWalOp (.rollbackPrepared gid heuristic)).ids).noteCommit {})
        (e.rollbackPreparedAs gid heuristic io).2 := by
  unfold rollbackPreparedAs
  by_cases hr : e.readOnly = true
  · rw [if_pos hr]
    exact Or.inl (SameCore.refl e)
  rw [if_neg hr]
  by_cases hg : (!e.live.prepared.contains gid) = true
  · rw [if_pos hg]
    split_ifs <;> exact Or.inl (SameCore.refl e)
  rw [if_neg hg]
  have hsome : e.live.prepared[gid]?.isSome := by
    rw [← Map.contains_eq]
    simpa using hg
  obtain ⟨entry,hentry⟩ := Option.isSome_iff_exists.mp hsome
  have hc := record_core e [.rollbackPrepared gid heuristic] io
  rcases hrec : e.record [.rollbackPrepared gid heuristic] io with ⟨ok,e'⟩
  rw [hrec] at hc
  cases ok with
  | false => exact Or.inl hc
  | true =>
    refine Or.inr ⟨entry,hentry,rfl,?_⟩
    exact (hc.withLive (fun s => ((),s.applyWalOp (.rollbackPrepared gid heuristic)))).2.noteCommit _

theorem prepareParts_section {e : Engine} (h : (e.load e.live).Wf) (slot : TxSlot) (gid : String) (now : ℤ)
    (io : Bool) : Section e (e.prepareParts slot gid now io).2 [] := by
  have hr := prepareParts_result e slot gid now io
  generalize e.prepareParts slot gid now io = r at hr
  obtain ⟨r,e'⟩ := r
  cases hr with
  | refused err e' hc => exact .quiet h hc
  | prepared e' hp he hv hc =>
    refine (Section.noted (s := e.fenced gid now slot.ops) e.ids ?_ rfl rfl
      (IdCounters.Le.refl _) (Or.inl rfl)).of_core hc
    exact ⟨h.nodes.congr rfl rfl rfl rfl le_rfl,h.edges.congr rfl rfl rfl rfl le_rfl⟩

theorem applyWalOp_commitPrepared {s : Inner} {gid : String} {entry : PreparedEntry}
    (hg : s.prepared[gid]? = some entry) :
    s.applyWalOp (.commitPrepared gid) =
      Inner.applyOps { s with prepared := s.prepared.erase gid } entry.ops := by
  simp only [Inner.applyWalOp,hg]

theorem commitPrepared_section {e : Engine} (h : (e.load e.live).Wf) {gid : String} {entry : PreparedEntry}
    (hg : e.live.prepared[gid]? = some entry) (io : Bool) :
    Section e (e.commitPrepared gid io).2 (okOps (e.commitPrepared gid io).1 entry.ops) := by
  rcases commitPrepared_result e gid io with ⟨err,hr,hc⟩ | ⟨entry',hg',hr,hc⟩
  · rw [hr]
    exact .quiet h hc
  · obtain rfl := Option.some.inj (hg.symm.trans hg')
    rw [hr]
    refine Section.of_core ?_ hc
    have hw : Inner.Wf { e.load e.live with prepared := (e.load e.live).prepared.erase gid } :=
      ⟨h.nodes.congr rfl rfl rfl rfl le_rfl,h.edges.congr rfl rfl rfl rfl le_rfl⟩
    have hg' : (e.load e.live).prepared[gid]? = some entry := hg
    rw [applyWalOp_commitPrepared hg']
    have hids := Inner.applyOps_ids { e.load e.live with prepared := (e.load e.live).prepared.erase gid } entry.ops
    exact .noted _ (Inner.applyOps_wf hw entry.ops) (Inner.applyOps_graph hw entry.ops)
      (Inner.applyOps_schema _ entry.ops).commitSeq hids (Or.inl rfl)

theorem commitPrepared_schema {e : Engine} {gid : String} {io : Bool} (hr : (e.commitPrepared gid io).1 = .ok ()) :
    (e.commitPrepared gid io).2.live.schema = { e.live.schema with prepared := e.live.prepared.erase gid } := by
  rcases commitPrepared_result e gid io with ⟨err,herr,-⟩ | ⟨entry,hg,-,hc⟩
  · simp [hr] at herr
  · have hload : (e.load e.live).prepared[gid]? = some entry := hg
    have hschema : ((e.load e.live).applyWalOp (.commitPrepared gid)).schema =
        { e.live.schema with prepared := e.live.prepared.erase gid } := by
      rw [applyWalOp_commitPrepared hload]
      exact (Inner.applyOps_schema _ entry.ops).schema
    exact (congrArg Inner.schema hc.live).trans hschema

theorem commitPrepared_none {e : Engine} {gid : String} (hg : e.live.prepared[gid]? = none) (io : Bool) :
    (e.commitPrepared gid io).2 = e := by
  simp only [commitPrepared,hg]
  split_ifs <;> rfl

theorem rollbackPreparedAs_schema (e : Engine) (gid : String) (heuristic io : Bool) :
    SameCore e (e.rollbackPreparedAs gid heuristic io).2 ∨
    (e.live.prepared[gid]?.isSome ∧ (e.rollbackPreparedAs gid heuristic io).1 = .ok () ∧
      (e.rollbackPreparedAs gid heuristic io).2.live.schema =
        { e.live.schema with
          prepared := e.live.prepared.erase gid
          heuristic := if heuristic then e.live.heuristic.insert gid () else e.live.heuristic }) := by
  rcases rollbackPreparedAs_result e gid heuristic io with hc | ⟨entry,hg,hr,hc⟩
  · exact Or.inl hc
  · refine Or.inr ⟨by rw [hg]; rfl,hr,(congrArg Inner.schema hc.live).trans ?_⟩
    simp only [noteCommit,moved,Inner.applyWalOp]
    cases heuristic <;> rfl

theorem rollbackPreparedAs_section {e : Engine} (h : (e.load e.live).Wf) (gid : String) (heuristic io : Bool) :
    Section e (e.rollbackPreparedAs gid heuristic io).2 [] := by
  rcases rollbackPreparedAs_result e gid heuristic io with hc | ⟨entry,hg,-,hc⟩
  · exact .quiet h hc
  · refine Section.of_core ?_ hc
    have hs : ∃ prepared heur, (e.load e.live).applyWalOp (.rollbackPrepared gid heuristic) =
        { e.load e.live with prepared := prepared, heuristic := heur } := by
      simp only [Inner.applyWalOp]
      split_ifs
      · exact ⟨_,_,rfl⟩
      · exact ⟨_,_,rfl⟩
    obtain ⟨prepared,heur,hs⟩ := hs
    rw [hs]
    refine .noted _ ?_ rfl rfl (IdCounters.Le.refl _) (Or.inl rfl)
    exact ⟨h.nodes.congr rfl rfl rfl rfl le_rfl,h.edges.congr rfl rfl rfl rfl le_rfl⟩

/-! ## Constraints -/

theorem addConstraint_result (e : Engine) (c : Constraint) :
    (e.addConstraint c).2 = e.install e.live ∨
    (c ∉ e.live.constraints ∧
      Inner.validateConstraints { e.live with constraints := e.live.constraints ++ [c] } = .ok () ∧
      (e.addConstraint c).2 =
        (e.moved (Inner.syncUnique { e.live with constraints := e.live.constraints ++ [c] }) e.ids).noteCommit
          .all) := by
  unfold addConstraint
  simp only
  split_ifs with hc
  · exact Or.inl rfl
  · split
    · exact Or.inl rfl
    · rename_i hv
      exact Or.inr ⟨hc,hv,rfl⟩

theorem install_section {e : Engine} (h : (e.load e.live).Wf) : Section e (e.install e.live) [] :=
  Section.touched e.ids h rfl rfl (IdCounters.Le.refl _)

theorem syncUnique_load {e : Engine} (h : (e.load e.live).Wf) (cs : List Constraint) :
    Inner.Wf { Inner.syncUnique { e.live with constraints := cs } with ids := e.ids } := by
  have hw : Inner.Wf { e.load e.live with constraints := cs } :=
    ⟨h.nodes.congr rfl rfl rfl rfl le_rfl,h.edges.congr rfl rfl rfl rfl le_rfl⟩
  exact Inner.syncUnique_wf hw

theorem addConstraint_section {e : Engine} (h : (e.load e.live).Wf) (c : Constraint) :
    Section e (e.addConstraint c).2 [] := by
  rcases addConstraint_result e c with he | ⟨-,-,he⟩
  · rw [he]
    exact install_section h
  · rw [he]
    exact .noted _ (syncUnique_load h _) rfl rfl (IdCounters.Le.refl _) (Or.inr ⟨rfl,rfl⟩)

theorem removeConstraint_result (e : Engine) (c : Constraint) :
    let live := Inner.syncUnique { e.live with constraints := e.live.constraints.filter (fun d => d ≠ c) }
    (e.removeConstraint c).2 = (e.moved live e.ids).noteCommit .all ∨
    ((e.removeConstraint c).2 = e.moved live e.ids ∧
      e.live.constraints.filter (fun d => d ≠ c) = e.live.constraints) := by
  intro live
  have hstep : (e.removeConstraint c).2 =
      if (live.constraints.length != e.live.constraints.length) = true
      then (e.moved live e.ids).noteCommit .all else e.moved live e.ids := rfl
  by_cases hr : (live.constraints.length != e.live.constraints.length) = true
  · rw [hstep,if_pos hr]
    exact Or.inl rfl
  · rw [hstep,if_neg hr]
    have hlen : (e.live.constraints.filter (fun d => d ≠ c)).length = e.live.constraints.length := by
      rw [bne_iff_ne,not_not] at hr
      exact hr
    exact Or.inr ⟨rfl,List.filter_eq_self.mpr (List.length_filter_eq_length_iff.mp hlen)⟩

theorem removeConstraint_section {e : Engine} (h : (e.load e.live).Wf) (c : Constraint) :
    Section e (e.removeConstraint c).2 [] := by
  rcases removeConstraint_result e c with he | ⟨he,-⟩
  · rw [he]
    exact .noted _ (syncUnique_load h _) rfl rfl (IdCounters.Le.refl _) (Or.inr ⟨rfl,rfl⟩)
  · rw [he]
    exact .touched _ (syncUnique_load h _) rfl rfl (IdCounters.Le.refl _)

/-! ## Imports and merges -/

/-- What an import stored, complete or not: nodes, then edges between stored nodes. -/
theorem applyDump_section {e : Engine} (h : (e.load e.live).Wf) (call : ℕ) (dump : Dump) :
    ∃ ns es, WriteSection e (e.applyDump call dump).2 (ns ++ es) ∧ (∀ op ∈ ns, ∃ node, op = .upsertNode node) ∧
      ∀ op ∈ es, ∃ edge, op = .upsertEdge edge ∧ ((e.load e.live).applyOps ns).nodes[edge.fromId]?.isSome ∧
        ((e.load e.live).applyOps ns).nodes[edge.toId]?.isSome := by
  unfold applyDump
  split
  · exact ⟨[],[],.quiet h (by constructor <;> rfl),by simp,by simp⟩
  · rename_i hw
    obtain ⟨ns,es,ha,hi,hn,he,hok⟩ := (e.load e.live).importDump_spec dump
    have hids : e.ids.Le ((e.load e.live).importDump dump).2.ids :=
      (Inner.applyOps_ids (e.load e.live) _).trans hi
    have hwf := (Inner.applyOps_wf h (ns ++ es)).of_agree ha hi.1 hi.2
    have hg := ha.graph.symm.trans (Inner.applyOps_graph h (ns ++ es))
    have hs := ha.commitSeq.trans (Inner.applyOps_schema (e.load e.live) (ns ++ es)).commitSeq
    have hsch : ((e.load e.live).importDump dump).2.schema = e.live.schema :=
      ha.schema.trans (Inner.applyOps_schema (e.load e.live) (ns ++ es)).schema
    have hfree := writeForCommit_prepared hw
    refine ⟨ns,es,?_,hn,he⟩
    have hu : ∀ op ∈ ns ++ es, op.isUpsert := by
      intro op hop
      rcases List.mem_append.mp hop with hop | hop
      · obtain ⟨node,rfl⟩ := hn op hop
        rfl
      · obtain ⟨edge,rfl,-⟩ := he op hop
        rfl
    -- the import without its note
    have hun : WriteSection e (e.moved ((e.load e.live).importDump dump).2
        ((e.load e.live).importDump dump).2.ids) (ns ++ es) :=
      ⟨⟨.unnoted hg hs (Nat.lt_succ_self _) rfl hu,hids,hwf,rfl,rfl⟩,hsch,Or.inr hfree⟩
    rcases hr : (e.load e.live).importDump dump with ⟨r,t⟩
    rw [hr] at hids hwf hg hs hun hok hsch
    simp only [withLive,hr]
    cases r with
    | error err => exact hun.of_core (by constructor <;> rfl)
    | ok p =>
      obtain ⟨applied,report⟩ := p
      obtain rfl := hok applied report rfl
      simp only
      split_ifs with hemp
      · exact hun.of_core (leaveLock_core _ call _)
      · have hnoted := Section.noted t.ids hwf hg hs hids (Or.inl rfl)
        exact WriteSection.of_core ⟨hnoted,hsch,Or.inr hfree⟩ (leaveLock_core _ call _)

theorem WriteSection.minted {e : Engine} (h : (e.load e.live).Wf) (hfree : e.writeForCommit = .ok ())
    {s : Inner} (ha : (e.load e.live).Agree s) (hi : (e.load e.live).ids.Le s.ids) (op : GraphOp) :
    WriteSection e ((e.moved (s.applyOp op) (s.applyOp op).ids).noteCommit (.fromOps [op])) [op] := by
  have hw : s.Wf := h.of_agree ha hi.1 hi.2
  have ha' := (e.load_agree e.live).trans ha
  have hs := Inner.applyOp_schema s op
  refine ⟨.noted _ (Inner.applyOp_wf hw op) ?_ ?_ (hi.trans (Inner.applyOp_ids s op)) (Or.inl rfl),
    hs.schema.trans ha'.schema,Or.inr (writeForCommit_prepared hfree)⟩
  · rw [Inner.applyOp_graph hw,ha'.graph]
    rfl
  · rw [hs.commitSeq,ha'.commitSeq]

omit [JsonText] in
theorem nextNode_agree (s : Inner) : s.Agree s.nextNode.2 ∧ s.ids.Le s.nextNode.2.ids :=
  ⟨rfl,Nat.le_succ _,le_rfl⟩

omit [JsonText] in
theorem nextEdge_agree (s : Inner) : s.Agree s.nextEdge.2 ∧ s.ids.Le s.nextEdge.2.ids :=
  ⟨rfl,le_rfl,Nat.le_succ _⟩

omit [JsonText] in
theorem targetNode_agree (s : Inner) (target : Option StampTarget) :
    s.Agree (s.targetNode target).2 ∧ s.ids.Le (s.targetNode target).2.ids := by
  unfold Inner.targetNode
  split
  · exact ⟨rfl,IdCounters.Le.refl _⟩
  · exact nextNode_agree s

omit [JsonText] in
theorem targetEdge_agree (s : Inner) (target : Option StampTarget) :
    s.Agree (s.targetEdge target).2 ∧ s.ids.Le (s.targetEdge target).2.ids := by
  unfold Inner.targetEdge
  split
  · exact ⟨rfl,IdCounters.Le.refl _⟩
  · exact nextEdge_agree s

omit [JsonText] in
theorem anchor_agree (s : Inner) (isNode : Bool) :
    s.Agree (s.anchor isNode).2 ∧ s.ids.Le (s.anchor isNode).2.ids := by
  unfold Inner.anchor
  split_ifs
  · exact nextNode_agree s
  · exact nextEdge_agree s

theorem applyNodeUpsert_section {e : Engine} (h : (e.load e.live).Wf) (call : ℕ) (node : Node) (stamp : Stamp)
    (current : StampTarget → Option Stamp) (remap : Remap) :
    let e' := (e.applyNodeUpsert call node stamp current remap).2.1
    WriteSection e e' [] ∨ ∃ record, WriteSection e e' [.upsertNode record] := by
  unfold applyNodeUpsert
  simp only
  split_ifs with hl
  · exact Or.inl (.quiet h (SameCore.refl e))
  · split
    · exact Or.inl (.quiet h (SameCore.refl e))
    · rename_i hw
      obtain ⟨ha,hi⟩ := targetNode_agree (e.load e.live) (remap.nodeTarget node.uuid)
      exact Or.inr ⟨_,(WriteSection.minted h hw ha hi (.upsertNode _)).of_core (leaveLock_core _ call _)⟩

omit [JsonText] in
theorem uuid_trans : Std.TransOrd Uuid := inferInstance

section
attribute [local instance] uuid_trans

omit [JsonText] in
/-- The ends of the relationship a merge is about to store, none if it does not store it. -/
def storedEnds (e : Engine) (edge : Edge) (fromUuid toUuid : Uuid) (incoming : Stamp)
    (current : StampTarget → Option Stamp) (remap : Remap) : Option (ℕ × ℕ) :=
  match remap.node[fromUuid]?,remap.node[toUuid]? with
  | some fromLocal,some toLocal =>
    if localWins current (remap.edgeTarget edge.uuid) incoming then none
    else if e.readOnly || !e.live.prepared.isEmpty then none
    else some (fromLocal,toLocal)
  | _,_ => none

end

omit [JsonText] in
theorem writeForCommit_ok_iff {e : Engine} :
    e.writeForCommit = .ok () ↔ (e.readOnly || !e.live.prepared.isEmpty) = false := by
  unfold writeForCommit
  by_cases hr : e.readOnly <;> by_cases hp : e.live.prepared.isEmpty <;> simp [hr,hp]

theorem applyEdgeUpsert_section {e : Engine} (h : (e.load e.live).Wf) (call : ℕ) (edge : Edge)
    (fromUuid toUuid : Uuid) (stamp : Stamp) (current : StampTarget → Option Stamp) (remap : Remap) :
    let e' := (e.applyEdgeUpsert call edge fromUuid toUuid stamp current remap).2.1
    (e.storedEnds edge fromUuid toUuid stamp current remap = none ∧ WriteSection e e' []) ∨
    ∃ record : Edge, e.storedEnds edge fromUuid toUuid stamp current remap = some (record.fromId,record.toId) ∧
      WriteSection e e' [.upsertEdge record] := by
  unfold applyEdgeUpsert storedEnds
  simp only
  cases hf : remap.node[fromUuid]? with
  | none => exact Or.inl ⟨rfl,.quiet h (SameCore.refl e)⟩
  | some fromLocal =>
    cases ht : remap.node[toUuid]? with
    | none => exact Or.inl ⟨rfl,.quiet h (SameCore.refl e)⟩
    | some toLocal =>
      by_cases hl : localWins current (remap.edgeTarget edge.uuid) stamp = true
      · simp only [if_pos hl]
        exact Or.inl ⟨trivial,.quiet h (SameCore.refl e)⟩
      · simp only [if_neg hl]
        cases hw : e.writeForCommit with
        | error err =>
          have hno : (e.readOnly || !e.live.prepared.isEmpty) = true := by
            by_contra hcon
            rw [writeForCommit_ok_iff.mpr (by simpa using hcon)] at hw
            exact absurd hw (by simp)
          rw [if_pos hno]
          exact Or.inl ⟨rfl,.quiet h (SameCore.refl e)⟩
        | ok u =>
          obtain ⟨ha,hi⟩ := targetEdge_agree (e.load e.live) (remap.edgeTarget edge.uuid)
          rw [if_neg (by simpa using writeForCommit_ok_iff.mp hw)]
          exact Or.inr ⟨_,rfl,(WriteSection.minted h hw ha hi (.upsertEdge _)).of_core (leaveLock_core _ call _)⟩

theorem applyDelete_section {e : Engine} (h : (e.load e.live).Wf) (call : ℕ) (uuid : Uuid) (stamp : Stamp)
    (isNode : Bool) (current : StampTarget → Option Stamp) (remap : Remap) :
    let e' := (e.applyDelete call uuid stamp isNode current remap).2.1
    WriteSection e e' [] ∨ ∃ id, WriteSection e e' [deleteOp isNode id] := by
  unfold applyDelete
  simp only
  by_cases hl : localWins current (remap.target uuid isNode) stamp = true
  · rw [if_pos hl]
    exact Or.inl (.quiet h (SameCore.refl e))
  · rw [if_neg hl]
    split
    · split
      · exact Or.inl (.quiet h (SameCore.refl e))
      · rename_i hw
        exact Or.inr ⟨_,(WriteSection.applied h hw _).of_core (leaveLock_core _ call _)⟩
    · exact Or.inl (.quiet h (SameCore.refl e))
    · split
      · exact Or.inl (.quiet h (SameCore.refl e))
      · -- an anchor id is minted and nothing stored
        obtain ⟨ha,hi⟩ := anchor_agree (e.load e.live) isNode
        have ha' := (e.load_agree e.live).trans ha
        exact Or.inl ⟨.noted _ (h.of_agree ha hi.1 hi.2) ha'.graph.symm ha'.commitSeq hi (Or.inl rfl),
          ha'.schema,Or.inl rfl⟩

omit [JsonText] in
/-- The change a merge takes up next, with its identity map; none while the record of the
last one is on its way. -/
def nextChange (e : Engine) (id : ℕ) : Option (StampedChange × Remap) :=
  match e.deltas[id]? with
  | none => none
  | some d =>
    match d.record.bind (fun c => e.calls[c]?),d.changes with
    | some .err,_ => none
    | some .applied,_ => none
    | some (.waiting _),_ => none
    | _,[] => none
    | _,change :: _ => some (change,d.remap)

theorem deltaStep_core (e : Engine) (id call : ℕ) (current : StampTarget → Option Stamp) :
    match e.nextChange id with
    | none => SameCore e (e.deltaStep id call current)
    | some (change,remap) =>
      SameCore (e.applyChange call change current remap).2.1 (e.deltaStep id call current) := by
  unfold nextChange deltaStep
  cases hd : e.deltas[id]? with
  | none => exact SameCore.refl e
  | some d =>
    simp only
    generalize d.record.bind (fun c => e.calls[c]?) = record
    cases hch : d.changes with
    | nil => rcases record with _ | ⟨_ | _ | _ | _⟩ <;> constructor <;> rfl
    | cons change rest =>
      rcases hr : e.applyChange call change current d.remap with ⟨r,e',remap⟩
      rcases record with _ | ⟨_ | _ | _ | _⟩ <;> cases r <;> constructor <;> simp only [hr]

/-- The ends of the relationship the next step of a merge stores. -/
def mergedEnds (e : Engine) (id : ℕ) (current : StampTarget → Option Stamp) : Option (ℕ × ℕ) :=
  match e.nextChange id with
  | some (.edge edge fromUuid toUuid stamp,remap) => e.storedEnds edge fromUuid toUuid stamp current remap
  | _ => none

/-- A step of a merge stores one relationship, or none. -/
theorem deltaStep_section {e : Engine} (h : (e.load e.live).Wf) (id call : ℕ)
    (current : StampTarget → Option Stamp) :
    (e.mergedEnds id current = none ∧ ∃ ops, WriteSection e (e.deltaStep id call current) ops ∧
      ∀ edge : Edge, GraphOp.upsertEdge edge ∉ ops) ∨
    ∃ edge : Edge, e.mergedEnds id current = some (edge.fromId,edge.toId) ∧
      WriteSection e (e.deltaStep id call current) [.upsertEdge edge] := by
  have hc := deltaStep_core e id call current
  unfold mergedEnds
  cases hn : e.nextChange id with
  | none =>
    rw [hn] at hc
    exact Or.inl ⟨rfl,[],.quiet h hc,by simp⟩
  | some p =>
    obtain ⟨change,remap⟩ := p
    rw [hn] at hc
    have hdelete : ∀ (uuid : Uuid) (stamp : Stamp) (isNode : Bool),
        ∃ ops, WriteSection e (e.applyDelete call uuid stamp isNode current remap).2.1 ops ∧
          ∀ edge : Edge, GraphOp.upsertEdge edge ∉ ops := by
      intro uuid stamp isNode
      rcases applyDelete_section h call uuid stamp isNode current remap with hs | ⟨i,hs⟩
      · exact ⟨[],hs,by simp⟩
      · refine ⟨_,hs,?_⟩
        cases isNode <;> simp [deleteOp]
    cases change with
    | node node stamp =>
      rcases applyNodeUpsert_section h call node stamp current remap with hs | ⟨record,hs⟩
      · exact Or.inl ⟨rfl,[],hs.of_core hc,by simp⟩
      · exact Or.inl ⟨rfl,_,hs.of_core hc,by simp⟩
    | edge edge fromUuid toUuid stamp =>
      rcases applyEdgeUpsert_section h call edge fromUuid toUuid stamp current remap with
        ⟨hn,hs⟩ | ⟨record,hr,hs⟩
      · exact Or.inl ⟨hn,[],hs.of_core hc,by simp⟩
      · exact Or.inr ⟨record,hr,hs.of_core hc⟩
    | deleteNode uuid stamp =>
      obtain ⟨ops,hs,hops⟩ := hdelete uuid stamp true
      exact Or.inl ⟨rfl,ops,hs.of_core hc,hops⟩
    | deleteEdge uuid stamp =>
      obtain ⟨ops,hs,hops⟩ := hdelete uuid stamp false
      exact Or.inl ⟨rfl,ops,hs.of_core hc,hops⟩

end Engine
end Drevo
