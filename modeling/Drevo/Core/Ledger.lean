import Drevo.Core.Frame

/-! What the log means: a ledger of the graph, of the write sets that are prepared and of the
heuristic outcomes, and the effect of one log entry on it. -/
namespace Drevo
open Lib

@[ext] structure Ledger where
  graph : Graph := {}
  prepared : Map String PreparedEntry := ∅
  heuristic : Map String Unit := ∅

/-- The global id a log entry is about. -/
def WalOp.gid : WalOp → Option String
  | .graph _ => none
  | .prepare gid _ _ => some gid
  | .commitPrepared gid => some gid
  | .rollbackPrepared gid _ => some gid

namespace Ledger

def apply (l : Ledger) : WalOp → Ledger
  | .graph op => { l with graph := l.graph.apply op }
  | .prepare gid preparedAtMs ops =>
    { l with heuristic := l.heuristic.erase gid, prepared := l.prepared.insert gid ⟨preparedAtMs,ops⟩ }
  | .commitPrepared gid =>
    match l.prepared[gid]? with
    | some entry => { l with graph := l.graph.applyAll entry.ops, prepared := l.prepared.erase gid }
    | none => l
  | .rollbackPrepared gid heuristic =>
    { l with
      prepared := l.prepared.erase gid
      heuristic := if heuristic then l.heuristic.insert gid () else l.heuristic }

def applyAll (l : Ledger) (ops : List WalOp) : Ledger := ops.foldl apply l

theorem applyAll_append (l : Ledger) (as bs : List WalOp) : l.applyAll (as ++ bs) = (l.applyAll as).applyAll bs :=
  List.foldl_append

theorem applyAll_graph (l : Ledger) (ops : List GraphOp) :
    l.applyAll (ops.map .graph) = { l with graph := l.graph.applyAll ops } := by
  induction ops generalizing l with
  | nil => rfl
  | cons op ops ih => exact ih (l.apply (.graph op))

/-- No write set is both waiting and remembered as rolled back. -/
def Exclusive (l : Ledger) : Prop := ∀ gid : String, l.prepared[gid]?.isSome → l.heuristic[gid]? = none

theorem apply_exclusive {l : Ledger} (h : l.Exclusive) (op : WalOp) : (l.apply op).Exclusive := by
  cases op with
  | graph op => exact h
  | prepare gid now ops =>
    intro g hg
    simp only [apply,Map.get_insert,Map.get_erase] at hg ⊢
    split_ifs with hgid
    · rfl
    · rw [if_neg hgid] at hg
      exact h g hg
  | commitPrepared gid =>
    simp only [apply]
    split
    · intro g hg
      simp only [Map.get_erase] at hg
      split_ifs at hg with hgid
      · simp at hg
      · exact h g hg
    · exact h
  | rollbackPrepared gid heuristic =>
    intro g hg
    simp only [apply,Map.get_erase] at hg ⊢
    split_ifs at hg with hgid
    · simp at hg
    · split_ifs
      · rw [Map.get_insert,if_neg hgid]
        exact h g hg
      · exact h g hg

theorem applyAll_exclusive (ops : List WalOp) {l : Ledger} (h : l.Exclusive) : (l.applyAll ops).Exclusive := by
  induction ops generalizing l with
  | nil => exact h
  | cons op ops ih => exact ih (apply_exclusive h op)

theorem empty_exclusive : Exclusive {} := by
  intro gid h
  simp at h

/-! ## Where a write set is applied -/

/-- The last entry about a global id before position `j`. -/
def lastAbout (log : List WalOp) (gid : String) (j : ℕ) : Option WalOp :=
  (log.take j).reverse.find? (fun op => op.gid = some gid)

/-- What the entry at position `j` changes in the graph: a commit applies the whole write set
of the prepare that is the last entry about its id. -/
def changesAt (log : List WalOp) (j : ℕ) : List GraphOp :=
  match log[j]? with
  | some (.graph op) => [op]
  | some (.commitPrepared gid) =>
    match lastAbout log gid j with
    | some (.prepare _ _ ops) => ops
    | _ => []
  | _ => []

theorem changesAt_append {log : List WalOp} {j : ℕ} (hj : j < log.length) (more : List WalOp) :
    changesAt (log ++ more) j = changesAt log j := by
  simp only [changesAt,lastAbout,List.getElem?_append_left hj,List.take_append_of_le_length hj.le]

/-- The write set prepared at position `i` is committed at position `j`: no entry about its id
stands between the two. -/
def CommittedAt (log : List WalOp) (i j : ℕ) (ops : List GraphOp) : Prop :=
  ∃ gid now, log[i]? = some (.prepare gid now ops) ∧ log[j]? = some (.commitPrepared gid) ∧ i < j ∧
    ∀ k op, i < k → k < j → log[k]? = some op → op.gid ≠ some gid

theorem CommittedAt.unique {log : List WalOp} {i j j' : ℕ} {ops ops' : List GraphOp} (h : CommittedAt log i j ops)
    (h' : CommittedAt log i j' ops') : j = j' := by
  obtain ⟨gid,now,hi,hj,hij,hbetween⟩ := h
  obtain ⟨gid',now',hi',hj',hij',hbetween'⟩ := h'
  have hentry := Option.some.inj (hi.symm.trans hi')
  simp only [WalOp.prepare.injEq] at hentry
  obtain ⟨rfl,-,-⟩ := hentry
  rcases lt_trichotomy j j' with hlt | heq | hlt
  · exact absurd rfl (hbetween' j _ hij hlt hj)
  · exact heq
  · exact absurd rfl (hbetween j' _ hij' hlt hj')

theorem lastAbout_some {log : List WalOp} {gid : String} {j : ℕ} {op : WalOp} (hj : j ≤ log.length)
    (h : lastAbout log gid j = some op) : op.gid = some gid ∧ ∃ i, i < j ∧ log[i]? = some op ∧
      ∀ k op', i < k → k < j → log[k]? = some op' → op'.gid ≠ some gid := by
  obtain ⟨hop,as,bs,hrev,has⟩ := List.find?_eq_some_iff_append.mp h
  have htake : log.take j = bs.reverse ++ op :: as.reverse := by
    rw [← List.reverse_reverse (log.take j),hrev]
    simp
  have hlen : j = bs.length+(1+as.length) := by
    have hl := congrArg List.length htake
    simp only [List.length_take,List.length_append,List.length_reverse,List.length_cons] at hl
    omega
  have hget : ∀ k, k < j → log[k]? = (bs.reverse ++ op :: as.reverse)[k]? := by
    intro k hk
    rw [← htake,List.getElem?_take_of_lt hk]
  refine ⟨by simpa using hop,bs.length,by omega,?_,?_⟩
  · rw [hget _ (by omega),List.getElem?_append_right (by simp)]
    simp
  · intro k op' hik hkj hk
    rw [hget k hkj,List.getElem?_append_right (by simp; omega),List.length_reverse,
      List.getElem?_cons,if_neg (by omega)] at hk
    have hmem := List.mem_reverse.mp (List.mem_of_getElem? hk)
    simpa using has op' hmem

theorem lastAbout_of_committed {log : List WalOp} {gid : String} {i j : ℕ} {op : WalOp} (hij : i < j)
    (hj : j ≤ log.length) (hi : log[i]? = some op) (hop : op.gid = some gid)
    (hbetween : ∀ k op', i < k → k < j → log[k]? = some op' → op'.gid ≠ some gid) :
    lastAbout log gid j = some op := by
  cases hl : lastAbout log gid j with
  | none =>
    have hmem : op ∈ (log.take j).reverse := by
      rw [List.mem_reverse]
      exact List.mem_of_getElem? ((List.getElem?_take_of_lt hij).trans hi)
    have hno := List.find?_eq_none.mp hl op hmem
    simp [hop] at hno
  | some op' =>
    obtain ⟨hop',i',hij',hi',hbetween'⟩ := lastAbout_some hj hl
    rcases lt_trichotomy i i' with hlt | rfl | hlt
    · exact absurd hop' (hbetween i' op' hlt hij' hi')
    · exact hi'.symm.trans hi
    · exact absurd hop (hbetween' i op hlt hij hi)

theorem changesAt_spec (log : List WalOp) (j : ℕ) :
    (∀ op, log[j]? = some (.graph op) → changesAt log j = [op]) ∧
      (∀ i ops, CommittedAt log i j ops → changesAt log j = ops) ∧
      ((∀ op, log[j]? ≠ some (.graph op)) → (∀ i ops, ¬ CommittedAt log i j ops) → changesAt log j = []) := by
  refine ⟨?_,?_,?_⟩
  · intro op hj
    simp only [changesAt,hj]
  · rintro i ops ⟨gid,now,hi,hj,hij,hbetween⟩
    have hlen : j ≤ log.length := (List.getElem?_eq_some_iff.mp hj).1.le
    simp only [changesAt,hj,lastAbout_of_committed hij hlen hi rfl hbetween]
  · intro hgraph hnone
    unfold changesAt
    split
    · rename_i op hj
      exact absurd hj (hgraph op)
    · rename_i gid hj
      split
      · rename_i g now ops hlast
        have hlen : j ≤ log.length := (List.getElem?_eq_some_iff.mp hj).1.le
        obtain ⟨hop,i,hij,hi,hbetween⟩ := lastAbout_some hlen hlast
        obtain rfl : g = gid := by simpa [WalOp.gid] using hop
        exact absurd ⟨g,now,hi,hj,hij,hbetween⟩ (hnone i ops)
      · rfl
    · rfl

/-- A write set waits exactly if its prepare is the last entry about its id. -/
theorem applyAll_prepared (log : List WalOp) (gid : String) :
    (({} : Ledger).applyAll log).prepared[gid]? =
      match lastAbout log gid log.length with
      | some (.prepare _ now ops) => some ⟨now,ops⟩
      | _ => none := by
  induction log using List.reverseRecOn with
  | nil => simp [applyAll,lastAbout]
  | append_singleton log op ih =>
    have hlast : lastAbout (log ++ [op]) gid (log ++ [op]).length =
        if op.gid = some gid then some op else lastAbout log gid log.length := by
      simp only [lastAbout,List.take_length,List.reverse_append,List.reverse_cons,List.reverse_nil,List.nil_append,
        List.singleton_append,List.find?_cons]
      by_cases hop : op.gid = some gid <;> simp [hop]
    rw [hlast,applyAll_append]
    generalize ({} : Ledger).applyAll log = l at ih
    simp only [applyAll,List.foldl_cons,List.foldl_nil]
    cases op with
    | graph op => simpa [apply,WalOp.gid] using ih
    | prepare g now ops =>
      by_cases hg : g = gid
      · simp [apply,WalOp.gid,hg]
      · simpa [apply,WalOp.gid,hg] using ih
    | commitPrepared g =>
      by_cases hg : g = gid
      · subst hg
        cases hp : l.prepared[g]? <;> simp [apply,WalOp.gid,hp]
      · cases hp : l.prepared[g]? <;> simpa [apply,WalOp.gid,hg,hp] using ih
    | rollbackPrepared g heuristic =>
      by_cases hg : g = gid
      · simp [apply,WalOp.gid,hg]
      · simpa [apply,WalOp.gid,hg] using ih

theorem applyAll_changes (log : List WalOp) :
    (({} : Ledger).applyAll log).graph = ({} : Graph).applyAll ((List.range log.length).flatMap (changesAt log)) := by
  induction log using List.reverseRecOn with
  | nil => rfl
  | append_singleton log op ih =>
    have hprep := applyAll_prepared log
    have hrange : (List.range (log ++ [op]).length).flatMap (changesAt (log ++ [op])) =
        (List.range log.length).flatMap (changesAt log) ++ changesAt (log ++ [op]) log.length := by
      rw [List.length_append,List.length_singleton,List.range_succ,List.flatMap_append,List.flatMap_singleton]
      congr 1
      refine List.flatMap_congr ?_
      intro j hj
      exact changesAt_append (List.mem_range.mp hj) [op]
    have hlast : ∀ gid, lastAbout (log ++ [op]) gid log.length = lastAbout log gid log.length := by
      intro gid
      simp only [lastAbout,List.take_left,List.take_length]
    rw [hrange,Graph.applyAll_append,← ih,applyAll_append]
    generalize ({} : Ledger).applyAll log = l at hprep
    simp only [applyAll,List.foldl_cons,List.foldl_nil,changesAt,List.getElem?_concat_length]
    cases op with
    | graph op => rfl
    | prepare gid now ops => rfl
    | commitPrepared gid =>
      simp only [apply,hlast,hprep gid]
      cases lastAbout log gid log.length with
      | none => rfl
      | some entry => cases entry <;> rfl
    | rollbackPrepared gid heuristic => rfl

end Ledger
namespace Inner
variable [JsonText]

/-- The ledger a state holds. -/
def ledger (s : Inner) : Ledger := ⟨s.graph,s.prepared,s.heuristic⟩

theorem applyWalOp_wf {s : Inner} (h : Wf s) (op : WalOp) : Wf (s.applyWalOp op) := by
  cases op with
  | graph op => exact applyOp_wf h op
  | prepare gid now ops => exact ⟨h.nodes.congr rfl rfl rfl rfl le_rfl,h.edges.congr rfl rfl rfl rfl le_rfl⟩
  | commitPrepared gid =>
    simp only [applyWalOp]
    split
    · refine applyOps_wf ?_ _
      exact ⟨h.nodes.congr rfl rfl rfl rfl le_rfl,h.edges.congr rfl rfl rfl rfl le_rfl⟩
    · exact h
  | rollbackPrepared gid heuristic =>
    simp only [applyWalOp]
    split_ifs
    · exact ⟨h.nodes.congr rfl rfl rfl rfl le_rfl,h.edges.congr rfl rfl rfl rfl le_rfl⟩
    · exact ⟨h.nodes.congr rfl rfl rfl rfl le_rfl,h.edges.congr rfl rfl rfl rfl le_rfl⟩

theorem applyWalOp_ledger {s : Inner} (h : Wf s) (op : WalOp) : (s.applyWalOp op).ledger = s.ledger.apply op := by
  cases op with
  | graph op =>
    have hs := (applyOp_schema s op).schema
    simp only [ledger,applyWalOp,Ledger.apply,applyOp_graph h,prepared_of_schema hs,heuristic_of_schema hs]
  | prepare gid now ops => rfl
  | commitPrepared gid =>
    cases hp : s.prepared[gid]? with
    | none => simp only [applyWalOp,Ledger.apply,ledger,hp]
    | some entry =>
      have hw : Wf { s with prepared := s.prepared.erase gid } :=
        ⟨h.nodes.congr rfl rfl rfl rfl le_rfl,h.edges.congr rfl rfl rfl rfl le_rfl⟩
      have hs := (applyOps_schema { s with prepared := s.prepared.erase gid } entry.ops).schema
      simp only [applyWalOp,Ledger.apply,ledger,hp,applyOps_graph hw,prepared_of_schema hs,heuristic_of_schema hs]
      rfl
  | rollbackPrepared gid heuristic => cases heuristic <;> rfl

theorem applyWalOps_wf {s : Inner} (h : Wf s) (ops : List WalOp) : Wf (s.applyWalOps ops) := by
  induction ops generalizing s with
  | nil => exact h
  | cons op ops ih => exact ih (applyWalOp_wf h op)

theorem applyWalOps_commitSeq (s : Inner) (ops : List WalOp) : (s.applyWalOps ops).commitSeq = s.commitSeq := by
  induction ops generalizing s with
  | nil => rfl
  | cons op ops ih =>
    refine (ih (s.applyWalOp op)).trans ?_
    cases op with
    | graph op => exact (applyOp_schema s op).commitSeq
    | prepare gid now ops => rfl
    | commitPrepared gid =>
      simp only [applyWalOp]
      split
      · exact (applyOps_schema _ _).commitSeq
      · rfl
    | rollbackPrepared gid heuristic => cases heuristic <;> rfl

theorem applyWalOps_ledger {s : Inner} (h : Wf s) (ops : List WalOp) :
    (s.applyWalOps ops).ledger = s.ledger.applyAll ops := by
  induction ops generalizing s with
  | nil => rfl
  | cons op ops ih =>
    have hop := ih (applyWalOp_wf h op)
    rw [applyWalOp_ledger h] at hop
    exact hop

theorem replay_ledger (ops : List WalOp) : (({} : Inner).applyWalOps ops).ledger = ({} : Ledger).applyAll ops :=
  applyWalOps_ledger empty_wf ops

/-! ## The snapshot form -/

omit [JsonText] in
theorem applyAll_upsertNodes (l : List (ℕ × Node)) (g : Graph) :
    g.applyAll (l.map (fun p => .upsertNode p.2)) =
      { g with nodes := l.foldl (fun m p => m.insert p.2.id p.2) g.nodes } := by
  induction l generalizing g with
  | nil => rfl
  | cons p l ih => exact ih (g.apply (.upsertNode p.2))

omit [JsonText] in
theorem applyAll_upsertEdges (l : List (ℕ × Edge)) (g : Graph) :
    g.applyAll (l.map (fun p => .upsertEdge p.2)) =
      { g with edges := l.foldl (fun m p => m.insert p.2.id p.2) g.edges } := by
  induction l generalizing g with
  | nil => rfl
  | cons p l ih => exact ih (g.apply (.upsertEdge p.2))

omit [JsonText] in
theorem applyAll_setEmbeddings (l : List (ℕ × List F32)) (g : Graph) :
    g.applyAll (l.map (fun p => .setEmbedding p.1 p.2)) =
      { g with embeddings := l.foldl (fun m p => m.insert p.1 p.2) g.embeddings } := by
  induction l generalizing g with
  | nil => rfl
  | cons p l ih => exact ih (g.apply (.setEmbedding p.1 p.2))

omit [JsonText] in
theorem applyAll_prepares (l : List (String × PreparedEntry)) {d : Ledger} (h : d.heuristic = ∅) :
    d.applyAll (l.map (fun p => .prepare p.1 p.2.preparedAtMs p.2.ops)) =
      { d with prepared := l.foldl (fun m p => m.insert p.1 p.2) d.prepared } := by
  induction l generalizing d with
  | nil => rfl
  | cons p l ih =>
    have herase : (d.apply (.prepare p.1 p.2.preparedAtMs p.2.ops)).heuristic = ∅ := by
      apply Map.ext
      intro k
      simp [Ledger.apply,h]
    have hrest := ih herase
    rw [List.map_cons,Ledger.applyAll,List.foldl_cons]
    rw [Ledger.applyAll] at hrest
    rw [hrest]
    exact Ledger.ext rfl rfl (herase.trans h.symm)

omit [JsonText] in
theorem applyAll_outcomes (l : List (String × Unit)) {d : Ledger} (h : ∀ p ∈ l, d.prepared[p.1]? = none) :
    d.applyAll (l.map (fun p => .rollbackPrepared p.1 true)) =
      { d with heuristic := l.foldl (fun m p => m.insert p.1 p.2) d.heuristic } := by
  induction l generalizing d with
  | nil => rfl
  | cons p l ih =>
    -- nothing waits under the id, so nothing is cancelled
    have hsame : d.apply (.rollbackPrepared p.1 true) = { d with heuristic := d.heuristic.insert p.1 p.2 } := by
      refine Ledger.ext rfl (Map.ext ?_) rfl
      intro k
      simp only [Ledger.apply,Map.get_erase]
      split_ifs with hk
      · rw [← hk,h p (List.mem_cons_self ..)]
      · rfl
    rw [List.map_cons,Ledger.applyAll,List.foldl_cons,hsame]
    exact ih (fun q hq => h q (List.mem_cons_of_mem _ hq))

omit [JsonText] in
/-- The records of a state as changes. -/
def dataOps (s : Inner) : List GraphOp :=
  s.nodes.toList.map (fun p => .upsertNode p.2) ++ s.edges.toList.map (fun p => .upsertEdge p.2) ++
  s.embeddings.toList.map (fun p => .setEmbedding p.1 p.2)

theorem dataOps_graph {s : Inner} (h : Wf s) : ({} : Graph).applyAll s.dataOps = s.graph := by
  rw [dataOps,Graph.applyAll_append,Graph.applyAll_append,applyAll_upsertNodes,applyAll_upsertEdges,
    applyAll_setEmbeddings]
  simp only [Map.foldl_toList_key h.nodes.key,Map.foldl_toList_key h.edges.key,Map.foldl_toList]
  rfl

theorem toWalOps_ledger {s : Inner} (h : Wf s) (hx : s.ledger.Exclusive) :
    ({} : Ledger).applyAll s.toWalOps = s.ledger := by
  have hops : s.toWalOps = s.dataOps.map .graph ++
      s.prepared.toList.map (fun p => .prepare p.1 p.2.preparedAtMs p.2.ops) ++
      s.heuristic.toList.map (fun p => .rollbackPrepared p.1 true) := by
    simp [toWalOps,dataOps,Function.comp_def]
  rw [hops,Ledger.applyAll_append,Ledger.applyAll_append,Ledger.applyAll_graph,dataOps_graph h,
    applyAll_prepares _ rfl]
  simp only [Map.foldl_toList]
  rw [applyAll_outcomes]
  · simp only [Map.foldl_toList]
    rfl
  · intro p hp
    have hget := Std.ExtTreeMap.mem_toList_iff_getElem?_eq_some.mp hp
    by_contra hne
    have hnone := hx p.1 (Option.isSome_iff_ne_none.mpr hne)
    simp only [ledger] at hnone
    rw [hget] at hnone
    simp at hnone

end Inner
end Drevo
