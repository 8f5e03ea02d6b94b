import Drevo.Core.Invariant

/-! Direct writes under any interleaving of their steps. A write takes effect under the writer
lock and enters the commit queue after it released the lock, so that the log can have two writes
in another order than the live state saw them in. -/
namespace Drevo
open Lib

/-- The order of the two changes matters: they write one record, or one deletes a node and the
other writes an edge or an embedding of it. -/
def GraphOp.related : GraphOp → GraphOp → Bool
  | .upsertNode a,.upsertNode b => a.id = b.id
  | .upsertNode a,.deleteNode i => a.id = i
  | .deleteNode i,.upsertNode a => a.id = i
  | .deleteNode i,.upsertEdge e => e.touches i
  | .upsertEdge e,.deleteNode i => e.touches i
  | .deleteNode i,.setEmbedding n _ => n = i
  | .setEmbedding n _,.deleteNode i => n = i
  | .upsertEdge a,.upsertEdge b => a.id = b.id
  | .upsertEdge a,.deleteEdge i => a.id = i
  | .deleteEdge i,.upsertEdge a => a.id = i
  | .setEmbedding m _,.setEmbedding n _ => m = n
  | .setEmbedding m _,.deleteEmbedding n => m = n
  | .deleteEmbedding n,.setEmbedding m _ => m = n
  | _,_ => false

/-- A step of a direct write, or of the leader that flushes the queue. -/
def Action.isDirectWrite : Action → Bool
  | .direct _ _ => true
  | .enqueue _ _ => true
  | .lead => true
  | .finish _ => true
  | .await _ => true
  | _ => false

/-! ## Changes that commute -/

namespace Graph

theorem apply_nodes (g : Graph) (op : GraphOp) (k : ℕ) : (g.apply op).nodes[k]? =
    match op with
    | .upsertNode node => if node.id = k then some node else g.nodes[k]?
    | .deleteNode id => if id = k then none else g.nodes[k]?
    | _ => g.nodes[k]? := by
  cases op with
  | upsertNode node => exact Map.get_insert ..
  | deleteNode id =>
    by_cases h : g.nodes[id]?.isSome = true
    · rw [apply_deleteNode h]
      exact Map.get_erase ..
    · rw [apply_deleteNode_absent h]
      dsimp only
      split_ifs with hk
      · rw [← hk]
        simpa using h
      · rfl
  | _ => rfl

theorem apply_edges (g : Graph) (op : GraphOp) (k : ℕ) : (g.apply op).edges[k]? =
    match op with
    | .upsertEdge edge => if edge.id = k then some edge else g.edges[k]?
    | .deleteEdge id => if id = k then none else g.edges[k]?
    | .deleteNode id => g.edges[k]?.filter (fun e => !(g.nodes[id]?.isSome && e.touches id))
    | _ => g.edges[k]? := by
  cases op with
  | deleteNode id =>
    by_cases h : g.nodes[id]?.isSome = true
    · rw [apply_deleteNode h]
      dsimp only
      rw [h]
      exact get_filter_edges g id k
    · rw [apply_deleteNode_absent h]
      dsimp only
      rw [Bool.eq_false_iff.mpr h]
      cases g.edges[k]? <;> rfl
  | upsertEdge edge => exact Map.get_insert ..
  | deleteEdge id => exact Map.get_erase ..
  | _ => rfl

theorem apply_embeddings (g : Graph) (op : GraphOp) (k : ℕ) : (g.apply op).embeddings[k]? =
    match op with
    | .setEmbedding id vector => if id = k then some vector else g.embeddings[k]?
    | .deleteEmbedding id => if id = k then none else g.embeddings[k]?
    | .deleteNode id => if id = k ∧ g.nodes[id]?.isSome then none else g.embeddings[k]?
    | _ => g.embeddings[k]? := by
  cases op with
  | deleteNode id =>
    by_cases h : g.nodes[id]?.isSome = true
    · rw [apply_deleteNode h]
      simp [h]
    · rw [apply_deleteNode_absent h]
      exact (if_neg (fun hk => h hk.2)).symm
  | setEmbedding id vector => exact Map.get_insert ..
  | deleteEmbedding id => exact Map.get_erase ..
  | _ => rfl

theorem deleteNode_comm (g : Graph) (i j : ℕ) :
    (g.apply (.deleteNode i)).apply (.deleteNode j) = (g.apply (.deleteNode j)).apply (.deleteNode i) := by
  by_cases hij : i = j
  · rw [hij]
  have hji : ¬ j = i := fun h => hij h.symm
  refine Graph.ext (Map.ext ?_) (Map.ext ?_) (Map.ext ?_)
  · intro k
    grind [apply_nodes]
  · intro k
    simp only [apply_edges,apply_nodes,if_neg hij,if_neg hji,Option.filter_filter]
    congr 1
    funext e
    exact Bool.and_comm ..
  · intro k
    grind [apply_nodes,apply_embeddings]

theorem apply_comm (g : Graph) {a b : GraphOp} (h : a.related b = false) :
    (g.apply a).apply b = (g.apply b).apply a := by
  by_cases hdel : ∃ i j, a = .deleteNode i ∧ b = .deleteNode j
  · obtain ⟨i,j,rfl,rfl⟩ := hdel
    exact deleteNode_comm g i j
  refine Graph.ext (Map.ext ?_) (Map.ext ?_) (Map.ext ?_)
  · intro k
    cases a <;> cases b <;> simp only [apply_nodes] <;> grind [GraphOp.related]
  · intro k
    cases a <;> cases b <;> simp only [apply_edges,apply_nodes] <;> cases g.edges[k]? <;>
      grind [GraphOp.related,Option.filter]
  · intro k
    cases a <;> cases b <;> simp only [apply_embeddings,apply_nodes] <;> grind [GraphOp.related]

theorem apply_applyAll_comm (g : Graph) {a : GraphOp} {bs : List GraphOp} (h : ∀ b ∈ bs, a.related b = false) :
    (g.apply a).applyAll bs = (g.applyAll bs).apply a := by
  induction bs generalizing g with
  | nil => rfl
  | cons b bs ih =>
    simp only [applyAll_cons]
    rw [apply_comm g (h b (by simp)),ih (g.apply b) (fun c hc => h c (by simp [hc]))]

theorem applyAll_comm (g : Graph) {as bs : List GraphOp} (h : ∀ a ∈ as, ∀ b ∈ bs, a.related b = false) :
    (g.applyAll as).applyAll bs = (g.applyAll bs).applyAll as := by
  induction as generalizing g with
  | nil => rfl
  | cons a as ih =>
    simp only [applyAll_cons]
    rw [ih (g.apply a) (fun c hc => h c (by simp [hc])),apply_applyAll_comm g (h a (by simp))]

end Graph
namespace Engine
variable [JsonText]

/-- The write to be queued is related to one that took effect before it and is not yet queued. -/
def overtakes (e : Engine) : Action → Bool
  | .enqueue call _ =>
    match e.inflight.find? (fun p => p.1 = call) with
    | none => false
    | some (_,ops) =>
      (e.inflight.takeWhile (fun p => p.1 ≠ call)).any (fun p => p.2.any (fun earlier => ops.any earlier.related))
  | _ => false

/-! ## Where the records of the writes are -/

omit [JsonText] in
/-- Some write has returned an error or will. -/
def Failed (e : Engine) : Prop :=
  ∃ call : ℕ, e.calls[call]? = some .err ∨ ∃ seq, e.calls[call]? = some (.waiting seq) ∧
    e.queue.broken = true ∧ e.queue.batch = none ∧ e.queue.durableSeq < seq

/-- The live graph is what the log and the queue give, then the writes that are not yet queued,
in the order they took effect. -/
structure Flowing (e : Engine) : Prop where
  ordered : e.queue.Ordered
  waits : ∀ p ∈ e.queue.inFlight, ∃ call : ℕ, e.calls[call]? = some (.waiting p.1)
  graph : e.live.graph =
    (({} : Ledger).applyAll e.queue.order.flatten).graph.applyAll (e.inflight.flatMap Prod.snd)

structure WriteInv (e : Engine) : Prop where
  inv : e.Inv
  durable : e.durable = true
  names : (e.inflight.map Prod.fst).Nodup
  applied : ∀ p ∈ e.inflight, e.calls[p.1]? = some .applied
  flow : e.Failed ∨ e.Flowing

omit [JsonText] in
theorem leaveLock_cases {e : Engine} (hd : e.durable = true) (call : ℕ) (ops : List GraphOp) :
    (e.leaveLock call ops).queue = e.queue ∧ (e.leaveLock call ops).durable = e.durable ∧
      (ops = [] ∧ (e.leaveLock call ops).calls = e.calls.insert call .ok ∧
          (e.leaveLock call ops).inflight = e.inflight ∨
        (e.leaveLock call ops).calls = e.calls.insert call .applied ∧
          (e.leaveLock call ops).inflight = e.inflight ++ [(call,ops)]) := by
  unfold leaveLock
  by_cases hops : (ops.isEmpty || !e.durable) = true
  · rw [if_pos hops]
    exact ⟨rfl,rfl,Or.inl ⟨by simpa [hd] using hops,rfl,rfl⟩⟩
  · rw [if_neg hops]
    exact ⟨rfl,rfl,Or.inr ⟨rfl,rfl⟩⟩

theorem direct_cases {e : Engine} (hd : e.durable = true) (call : ℕ) (w : DirectWrite) :
    (e.direct call w).2.queue = e.queue ∧ (e.direct call w).2.durable = e.durable ∧
      ((e.direct call w).2.calls = e.calls.insert call .err ∧ (e.direct call w).2.inflight = e.inflight ∨
        (e.direct call w).1.toOption.getD [] = [] ∧ (e.direct call w).2.calls = e.calls.insert call .ok ∧
          (e.direct call w).2.inflight = e.inflight ∨
        (e.direct call w).2.calls = e.calls.insert call .applied ∧
          (e.direct call w).2.inflight = e.inflight ++ [(call,(e.direct call w).1.toOption.getD [])]) := by
  unfold direct
  by_cases hn : w.isNoop = true
  · rw [if_pos hn]
    exact ⟨rfl,rfl,Or.inr (Or.inl ⟨rfl,rfl,rfl⟩)⟩
  rw [if_neg hn]
  cases e.writeForCommit with
  | error err => exact ⟨rfl,rfl,Or.inl ⟨rfl,rfl⟩⟩
  | ok u =>
    simp only [withLive]
    rcases w.run (e.load e.live) with ⟨r,t⟩
    cases r with
    | error err => exact ⟨rfl,rfl,Or.inl ⟨rfl,rfl⟩⟩
    | ok ops =>
      simp only
      generalize he : (noteCommit { e with live := t, ids := t.ids, epoch := e.epoch+1 } (w.touched ops)) = e'
      have hq : e'.queue = e.queue ∧ e'.durable = e.durable ∧ e'.calls = e.calls ∧ e'.inflight = e.inflight := by
        rw [← he]
        exact ⟨rfl,rfl,rfl,rfl⟩
      obtain ⟨hqueue,hdurable,hcalls,hinflight⟩ := hq
      rw [← hqueue,← hcalls,← hinflight,← hdurable]
      obtain ⟨hq,hdur,hc⟩ := leaveLock_cases (hdurable.trans hd) call ops
      exact ⟨hq,hdur,Or.inr hc⟩

omit [JsonText] in
theorem Failed.keep {e e' : Engine} (h : e.Failed) (hq : e'.queue = e.queue)
    (hc : ∀ call : ℕ, e.calls[call]? = some .err ∨ (∃ seq, e.calls[call]? = some (.waiting seq)) →
      e'.calls[call]? = e.calls[call]?) : e'.Failed := by
  obtain ⟨call,hcall⟩ := h
  refine ⟨call,?_⟩
  rw [hq,hc call (hcall.imp_right (fun ⟨seq,h,_⟩ => ⟨seq,h⟩))]
  exact hcall

theorem direct_flow {e : Engine} (h : WriteInv e) {call : ℕ} (hfree : e.calls[call]? = none) (w : DirectWrite) :
    WriteInv (e.direct call w).2 := by
  have hsec := (direct_section h.inv.live call w).toSection
  have hinv := h.inv.of_section hsec
  have hgraph := hsec.live.graph
  obtain ⟨hq,hd,hcases⟩ := direct_cases h.durable call w
  generalize (e.direct call w).1.toOption.getD [] = ops at hgraph hcases
  generalize (e.direct call w).2 = e' at hinv hgraph hq hd hcases
  have hother : ∀ st, e'.calls = e.calls.insert call st → ∀ c : ℕ, c ≠ call → e'.calls[c]? = e.calls[c]? := by
    intro st hcalls c hne
    rw [hcalls,Map.get_insert,if_neg hne.symm]
  have hname : ∀ (c : ℕ) (st : CallState), e.calls[c]? = some st → c ≠ call := by
    rintro c st hc rfl
    rw [hfree] at hc
    cases hc
  have happlied : ∀ st, e'.calls = e.calls.insert call st → ∀ p ∈ e.inflight, e'.calls[p.1]? = some .applied := by
    intro st hcalls p hp
    rw [hother st hcalls p.1 (hname p.1 _ (h.applied p hp)),h.applied p hp]
  have hwaits : ∀ st, e'.calls = e.calls.insert call st → e.Flowing → ∀ p ∈ e'.queue.inFlight,
      ∃ c : ℕ, e'.calls[c]? = some (.waiting p.1) := by
    intro st hcalls hf p hp
    obtain ⟨c,hc⟩ := hf.waits p (hq ▸ hp)
    exact ⟨c,(hother st hcalls c (hname c _ hc)).trans hc⟩
  have hkeep : ∀ st, e'.calls = e.calls.insert call st → e.Failed → e'.Failed := by
    intro st hcalls hf
    refine hf.keep hq ?_
    rintro c (hc | ⟨seq,hc⟩)
    · exact hother st hcalls c (hname c _ hc)
    · exact hother st hcalls c (hname c _ hc)
  rcases hcases with ⟨hcalls,hin⟩ | ⟨rfl,hcalls,hin⟩ | ⟨hcalls,hin⟩
  · refine ⟨hinv,hd.trans h.durable,hin ▸ h.names,hin ▸ happlied _ hcalls,Or.inl ⟨call,Or.inl ?_⟩⟩
    rw [hcalls,Map.get_insert,if_pos rfl]
  · refine ⟨hinv,hd.trans h.durable,hin ▸ h.names,hin ▸ happlied _ hcalls,h.flow.imp (hkeep _ hcalls) ?_⟩
    intro hf
    refine ⟨hq ▸ hf.ordered,hwaits _ hcalls hf,?_⟩
    rw [hgraph,hq,hin]
    exact hf.graph
  · refine ⟨hinv,hd.trans h.durable,?_,?_,h.flow.imp (hkeep _ hcalls) ?_⟩
    · rw [hin,List.map_append,List.nodup_append]
      refine ⟨h.names,by simp,?_⟩
      intro c hc d hd
      obtain ⟨p,hp,rfl⟩ := List.mem_map.mp hc
      obtain rfl : d = call := by simpa using hd
      exact hname p.1 _ (h.applied p hp)
    · rw [hin]
      intro p hp
      rcases List.mem_append.mp hp with hp | hp
      · exact happlied _ hcalls p hp
      · obtain rfl : p = (call,ops) := by simpa using hp
        rw [hcalls,Map.get_insert,if_pos rfl]
    · intro hf
      refine ⟨hq ▸ hf.ordered,hwaits _ hcalls hf,?_⟩
      rw [hgraph,hq,hin,List.flatMap_append,Graph.applyAll_append,← hf.graph]
      simp

omit [JsonText] in
theorem waiting_split {ws : List (ℕ × List GraphOp)} (hn : (ws.map Prod.fst).Nodup) {call : ℕ}
    {p : ℕ × List GraphOp} (h : ws.find? (fun p => p.1 = call) = some p) : ∃ before after, p.1 = call ∧
      ws = before ++ p :: after ∧ ws.takeWhile (fun p => p.1 ≠ call) = before ∧
      ws.filter (fun p => p.1 ≠ call) = before ++ after := by
  obtain ⟨hp,before,after,hsplit,hbefore⟩ := List.find?_eq_some_iff_append.mp h
  have hp : p.1 = call := by simpa using hp
  have hbefore : ∀ q ∈ before, q.1 ≠ call := by simpa using hbefore
  have hafter : ∀ q ∈ after, q.1 ≠ call := by
    rw [hsplit,List.map_append,List.map_cons,List.nodup_append,List.nodup_cons] at hn
    intro q hq heq
    exact hn.2.1.1 (List.mem_map.mpr ⟨q,hq,heq.trans hp.symm⟩)
  refine ⟨before,after,hp,hsplit,?_,?_⟩
  · rw [hsplit,List.takeWhile_append_of_pos (by simpa using hbefore),List.takeWhile_cons_of_neg (by simp [hp]),
      List.append_nil]
  · rw [hsplit,List.filter_append,List.filter_cons_of_neg (by simp [hp]),
      List.filter_eq_self.mpr (by simpa using hbefore),List.filter_eq_self.mpr (by simpa using hafter)]

/-- A write that overtakes no related one can enter the queue. -/
theorem enqueue_flow {e : Engine} (h : WriteInv e) {call : ℕ} {encoded : Bool}
    (ho : e.overtakes (.enqueue call encoded) = false) : WriteInv (e.enqueue call encoded) := by
  have hinv := h.inv.of_core (enqueue_core e call encoded)
  cases hfind : e.inflight.find? (fun p => p.1 = call) with
  | none =>
    have hsame : e.enqueue call encoded = e := by simp only [enqueue,hfind]
    rw [hsame]
    exact h
  | some p =>
    obtain ⟨before,after,rfl,hsplit,htake,hrest⟩ := waiting_split h.names hfind
    obtain ⟨call,ops⟩ := p
    have hmine : e.calls[call]? = some .applied := h.applied (call,ops) (by simp [hsplit])
    have hnames : ((before ++ after).map Prod.fst).Nodup := by
      rw [← hrest]
      exact h.names.sublist (List.filter_sublist.map _)
    have hother : ∀ p ∈ before ++ after, p.1 ≠ call ∧ e.calls[p.1]? = some .applied := by
      intro p hp
      rw [← hrest,List.mem_filter] at hp
      exact ⟨by simpa using hp.2,h.applied p hp.1⟩
    simp only [enqueue,hfind,hrest] at hinv ⊢
    cases henq : (if encoded then e.queue.enqueue (ops.map .graph) else none) with
    | none =>
      simp only [henq] at hinv ⊢
      refine ⟨hinv,h.durable,hnames,?_,Or.inl ⟨call,Or.inl ?_⟩⟩
      · intro p hp
        rw [Map.get_insert,if_neg (hother p hp).1.symm,(hother p hp).2]
      · rw [Map.get_insert,if_pos rfl]
    | some r =>
      obtain ⟨seq,q⟩ := r
      simp only [henq] at hinv ⊢
      have henq : e.queue.enqueue (ops.map .graph) = some (seq,q) := by
        cases encoded with
        | true => simpa using henq
        | false => simp at henq
      have hne : ∀ (c : ℕ) (st : CallState), e.calls[c]? = some st → st ≠ .applied → call ≠ c := by
        rintro c st hc hst rfl
        rw [hmine] at hc
        exact hst (Option.some.inj hc).symm
      refine ⟨hinv,h.durable,hnames,?_,?_⟩
      · intro p hp
        rw [Map.get_insert,if_neg (hother p hp).1.symm,(hother p hp).2]
      · rcases h.flow with ⟨c,hc⟩ | hf
        · -- the queue takes no record once it is broken, so only an error is left
          rcases hc with hc | ⟨seq',-,hb,-⟩
          · refine Or.inl ⟨c,Or.inl ?_⟩
            rw [Map.get_insert,if_neg (hne c _ hc (by simp)),hc]
          · rw [(GroupQueue.enqueue_eq henq).1] at hb
            cases hb
        · refine Or.inr ⟨GroupQueue.enqueue_ordered hf.ordered henq,?_,?_⟩
          · intro p hp
            rw [GroupQueue.enqueue_inFlight henq] at hp
            rcases List.mem_append.mp hp with hp | hp
            · obtain ⟨c,hc⟩ := hf.waits p hp
              refine ⟨c,?_⟩
              rw [Map.get_insert,if_neg (hne c _ hc (by simp)),hc]
            · obtain rfl : p = (seq,ops.map .graph) := by simpa using hp
              exact ⟨call,by rw [Map.get_insert,if_pos rfl]⟩
          · simp only [overtakes,hfind,htake] at ho
            have hfree : ∀ a ∈ before.flatMap Prod.snd, ∀ b ∈ ops, a.related b = false := by
              intro a ha b hb
              obtain ⟨p,hp,hap⟩ := List.mem_flatMap.mp ha
              simp only [List.any_eq_false] at ho
              simpa using fun hr => ho p hp (List.any_eq_true.mpr ⟨a,hap,List.any_eq_true.mpr ⟨b,hb,hr⟩⟩)
            have hgraph := hf.graph
            rw [hsplit,List.flatMap_append,List.flatMap_cons,Graph.applyAll_append,Graph.applyAll_append,
              Graph.applyAll_comm _ hfree] at hgraph
            simp only [GroupQueue.enqueue_order henq,List.flatten_append,List.flatten_cons,List.flatten_nil,
              List.append_nil,Ledger.applyAll_append,Ledger.applyAll_graph,List.flatMap_append,Graph.applyAll_append]
            exact hgraph

theorem queue_flow {e : Engine} (h : WriteInv e) {q : GroupQueue (List WalOp)}
    (hf : e.Failed ∨ e.Flowing → Failed { e with queue := q } ∨ Flowing { e with queue := q }) :
    WriteInv { e with queue := q } :=
  ⟨h.inv.of_core (by constructor <;> rfl),h.durable,h.names,h.applied,hf h.flow⟩

theorem lead_flow {e : Engine} (h : WriteInv e) : WriteInv { e with queue := e.queue.lead } := by
  refine queue_flow h (Or.imp ?_ ?_)
  · rintro ⟨call,hc⟩
    refine ⟨call,hc.imp_right ?_⟩
    rintro ⟨seq,hw,hb,hrest⟩
    have hsame : e.queue.lead = e.queue := by simp [GroupQueue.lead,hb]
    exact ⟨seq,hw,by rw [hsame]; exact ⟨hb,hrest⟩⟩
  · intro hf
    refine ⟨GroupQueue.lead_ordered hf.ordered,?_,?_⟩
    · rw [GroupQueue.lead_inFlight]
      exact hf.waits
    · rw [GroupQueue.lead_order]
      exact hf.graph

/-- A flush that fails drops its batch: if there is a record in it, its write never returns ok. -/
theorem finish_flow {e : Engine} (h : WriteInv e) (io : Bool) : WriteInv { e with queue := e.queue.finish io } := by
  cases hb : e.queue.batch with
  | none =>
    have hsame : e.queue.finish io = e.queue := by simp [GroupQueue.finish,hb]
    rw [hsame]
    exact h
  | some batch =>
    have hfailed : ∀ q, e.Failed → Failed { e with queue := q } := by
      rintro q ⟨call,hc⟩
      refine ⟨call,Or.inl ?_⟩
      rcases hc with hc | ⟨seq,-,-,hnone,-⟩
      · exact hc
      · rw [hb] at hnone
        cases hnone
    have hin : e.queue.inFlight = batch ++ e.queue.pending := by simp [GroupQueue.inFlight,hb]
    cases io with
    | true =>
      refine queue_flow h (Or.imp (hfailed _) ?_)
      intro hf
      refine ⟨GroupQueue.finish_ordered hf.ordered,?_,?_⟩
      · intro p hp
        have hp : p ∈ e.queue.pending := by simpa [GroupQueue.finish,hb,GroupQueue.inFlight] using hp
        exact hf.waits p (by simp [hin,hp])
      · rw [GroupQueue.finish_order]
        exact hf.graph
    | false =>
      have hfin : e.queue.finish false = { e.queue with batch := none, broken := true } := by
        simp [GroupQueue.finish,hb]
      rw [hfin]
      refine queue_flow h ?_
      rintro (hf | hf)
      · exact Or.inl (hfailed _ hf)
      · cases batch with
        | nil =>
          have hpend : GroupQueue.inFlight { e.queue with batch := none, broken := true } = e.queue.inFlight := by
            rw [hin]
            rfl
          have hgraph := hf.graph
          simp only [GroupQueue.order,← hpend] at hgraph
          exact Or.inr ⟨⟨hpend ▸ hf.ordered.sorted,hpend ▸ hf.ordered.above,hpend ▸ hf.ordered.below,
            hf.ordered.durable⟩,fun p hp => hf.waits p (hpend ▸ hp),hgraph⟩
        | cons p batch =>
          have hp : p ∈ e.queue.inFlight := by simp [hin]
          obtain ⟨call,hc⟩ := hf.waits p hp
          exact Or.inl ⟨call,Or.inr ⟨p.1,hc,rfl,rfl,hf.ordered.above p hp⟩⟩

theorem await_flow {e : Engine} (h : WriteInv e) (call : ℕ) : WriteInv (e.await call) := by
  have hinv := h.inv.of_core (await_core e call)
  unfold await at hinv ⊢
  split
  · rename_i seq hcall
    simp only [hcall] at hinv
    have hmine : ∀ p ∈ e.inflight, call ≠ p.1 := by
      rintro p hp rfl
      rw [h.applied p hp] at hcall
      cases hcall
    have happlied : ∀ (st : CallState), ∀ p ∈ e.inflight, (e.calls.insert call st)[p.1]? = some .applied := by
      intro st p hp
      rw [Map.get_insert,if_neg (hmine p hp),h.applied p hp]
    by_cases hd : e.queue.durableSeq ≥ seq
    · rw [if_pos hd] at hinv ⊢
      refine ⟨hinv,h.durable,h.names,happlied .ok,h.flow.imp ?_ ?_⟩
      · intro hf
        obtain ⟨c,hc⟩ := hf
        have hne : call ≠ c := by
          rintro rfl
          rcases hc with hc | ⟨seq',hc,-,-,hlt⟩
          · rw [hcall] at hc
            cases hc
          · rw [hcall] at hc
            cases hc
            omega
        refine ⟨c,?_⟩
        rw [Map.get_insert,if_neg hne]
        exact hc
      · intro hf
        refine ⟨hf.ordered,?_,hf.graph⟩
        intro p hp
        obtain ⟨c,hc⟩ := hf.waits p hp
        have hne : call ≠ c := by
          rintro rfl
          rw [hcall] at hc
          cases hc
          exact absurd (hf.ordered.above p hp) (by omega)
        exact ⟨c,by rw [Map.get_insert,if_neg hne,hc]⟩
    · rw [if_neg hd] at hinv ⊢
      by_cases hb : e.queue.broken = true
      · rw [if_pos hb] at hinv ⊢
        refine ⟨hinv,h.durable,h.names,happlied .err,Or.inl ⟨call,Or.inl ?_⟩⟩
        rw [Map.get_insert,if_pos rfl]
      · rw [if_neg hb]
        exact h
  · exact h

theorem step_flow {e : Engine} {a : Action} (h : WriteInv e) (ha : a.isDirectWrite = true)
    (ho : e.overtakes a = false) : WriteInv (e.step a) := by
  cases a with
  | direct call w =>
    simp only [step]
    split_ifs with hc
    · exact h
    · refine direct_flow h ?_ w
      rw [Map.contains_eq] at hc
      simpa using hc
  | enqueue call encoded => exact enqueue_flow h ho
  | lead => exact lead_flow h
  | finish io => exact finish_flow h io
  | await call => exact await_flow h call
  | _ => cases ha

theorem openLog_flow (capacity : ℕ) (readOnly : Bool) (maxTxWrites : Option ℕ) (log : List (List WalOp)) :
    WriteInv (openLog capacity readOnly maxTxWrites log) := by
  refine ⟨openLog_inv capacity readOnly maxTxWrites log,rfl,List.nodup_nil,by simp [openLog],Or.inr ?_⟩
  refine ⟨GroupQueue.ordered_new log,by simp [openLog,GroupQueue.inFlight],?_⟩
  have hreplay : (({} : Inner).applyWalOps log.flatten).graph = (({} : Ledger).applyAll log.flatten).graph :=
    congrArg Ledger.graph (Inner.replay_ledger log.flatten)
  simpa [openLog,GroupQueue.order,GroupQueue.inFlight] using hreplay

end Engine

namespace Engine
section Sample
attribute [local instance] Json.compactText

/-- Two updates of nodes, the second of which is queued first; both are flushed in one group. -/
def crossingUpdates (first second : ℕ) : List Action :=
  [.direct 1 (.mutation (.createNode (.titled "Note" "a") ⟨5,1⟩)),.enqueue 1 true,.lead,.finish true,.await 1,
    .direct 2 (.mutation (.createNode (.titled "Note" "b") ⟨5,2⟩)),.enqueue 2 true,.lead,.finish true,.await 2,
    .direct 3 (.mutation (.updateNode first { title := some "c" } ⟨6,3⟩)),
    .direct 4 (.mutation (.updateNode second { title := some "d" } ⟨6,4⟩)),
    .enqueue 4 true,.enqueue 3 true,.lead,.finish true,.await 4,.await 3]

end Sample
end Engine
end Drevo
