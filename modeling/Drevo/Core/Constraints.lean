import Drevo.Core.Invariant

/-! The declared constraints hold of the live nodes. They are enforced at different moments: a
direct write asks the unique lookups, a commit validates the whole state, a prepare validates
the private copy, a commit under the fence what the prepared writes would make of it. -/
namespace Drevo
open Lib

section Meaning
variable [JsonText]

/-- What a constraint says of the nodes: no two nodes with the label agree on all the values of
a unique tuple, and each node with the label has the required properties. -/
structure Constraint.Holds (c : Constraint) (nodes : Map ℕ Node) : Prop where
  unique : ∀ kind properties, c.uniqueTuple = some (kind,properties) → ∀ (i j : ℕ) (a b : Node),
    nodes[i]? = some a → nodes[j]? = some b → hasLabel a kind = true → hasLabel b kind = true →
    (∀ p ∈ properties, (uniqueKey a p).isSome ∧ uniqueKey a p = uniqueKey b p) → i = j
  present : ∀ kind properties, c.required = some (kind,properties) → ∀ (i : ℕ) (a : Node),
    nodes[i]? = some a → hasLabel a kind = true → ∀ p ∈ properties, (uniqueKey a p).isSome

/-- The same with the combined key of a tuple in place of its values, as the lookups have it. -/
structure Constraint.Keyed (c : Constraint) (nodes : Map ℕ Node) : Prop where
  unique : ∀ tuple, c.uniqueTuple = some tuple → ∀ (i j : ℕ) (a b : Node) (key : String),
    nodes[i]? = some a → nodes[j]? = some b → Inner.coveredKey a tuple = some key →
    Inner.coveredKey b tuple = some key → i = j
  present : ∀ (i : ℕ) (a : Node), nodes[i]? = some a → Inner.missingProperty a c = none

theorem tupleKeyFrom_isSome {a : Node} {properties : List String} (h : ∀ p ∈ properties, (uniqueKey a p).isSome)
    (i : ℕ) (key : String) : (tupleKeyFrom a properties i key).isSome := by
  induction properties generalizing i key with
  | nil => rfl
  | cons p properties ih =>
    obtain ⟨value,hvalue⟩ := Option.isSome_iff_exists.mp (h p (List.mem_cons_self ..))
    simp only [tupleKeyFrom,hvalue]
    exact ih (fun q hq => h q (List.mem_cons_of_mem _ hq)) _ _

theorem tupleKeyFrom_congr {a b : Node} {properties : List String}
    (h : ∀ p ∈ properties, uniqueKey a p = uniqueKey b p) (i : ℕ) (key : String) :
    tupleKeyFrom a properties i key = tupleKeyFrom b properties i key := by
  induction properties generalizing i key with
  | nil => rfl
  | cons p properties ih =>
    simp only [tupleKeyFrom,h p (List.mem_cons_self ..)]
    split
    · rfl
    · exact ih (fun q hq => h q (List.mem_cons_of_mem _ hq)) _ _

theorem Constraint.Keyed.holds {c : Constraint} {nodes : Map ℕ Node} (h : c.Keyed nodes) : c.Holds nodes where
  unique := by
    intro kind properties hc i j a b hi hj ha hb hall
    obtain ⟨key,hkey⟩ := Option.isSome_iff_exists.mp (tupleKeyFrom_isSome (fun p hp => (hall p hp).1) 0 "")
    have hkey' := (tupleKeyFrom_congr (fun p hp => (hall p hp).2) 0 "").symm.trans hkey
    refine h.unique _ hc i j a b key hi hj ?_ ?_
    · simp only [Inner.coveredKey,ha,if_true]
      exact hkey
    · simp only [Inner.coveredKey,hb,if_true]
      exact hkey'
  present := by
    intro kind properties hc i a hi ha p hp
    have hmiss := h.present i a hi
    simp only [Inner.missingProperty,hc,ha,if_true,Option.map_eq_none_iff,List.find?_eq_none] at hmiss
    simpa [Option.isNone_iff_eq_none,Option.isSome_iff_ne_none] using hmiss p hp

theorem Constraint.Keyed.sub {c : Constraint} {nodes nodes' : Map ℕ Node} (h : c.Keyed nodes)
    (hsub : ∀ (i : ℕ) (a : Node), nodes'[i]? = some a → nodes[i]? = some a) : c.Keyed nodes' where
  unique tuple hc i j a b key hi hj := h.unique tuple hc i j a b key (hsub i a hi) (hsub j b hj)
  present i a hi := h.present i a (hsub i a hi)

end Meaning

namespace Inner
variable [JsonText] {s t : Inner}

/-! ## Validation of a whole state -/

theorem duplicateValue_none {tuple : UniqueTuple} {nodes : List Node} {seen : List String}
    (h : duplicateValue tuple nodes seen = none) :
    (∀ a ∈ nodes, ∀ key ∈ seen, coveredKey a tuple ≠ some key) ∧
      nodes.Pairwise (fun a b => ∀ key, coveredKey a tuple = some key → coveredKey b tuple ≠ some key) := by
  induction nodes generalizing seen with
  | nil => simp
  | cons node nodes ih =>
    simp only [duplicateValue] at h
    cases hk : coveredKey node tuple with
    | none =>
      rw [hk] at h
      obtain ⟨hseen,hpair⟩ := ih h
      refine ⟨?_,List.pairwise_cons.mpr ⟨fun b _ key hkey => by simp [hk] at hkey,hpair⟩⟩
      intro a ha key hkey
      rcases List.mem_cons.mp ha with rfl | ha
      · simp [hk]
      · exact hseen a ha key hkey
    | some value =>
      rw [hk] at h
      simp only at h
      split_ifs at h with hin
      obtain ⟨hseen,hpair⟩ := ih h
      refine ⟨?_,List.pairwise_cons.mpr ⟨?_,hpair⟩⟩
      · intro a ha key hkey
        rcases List.mem_cons.mp ha with rfl | ha
        · rw [hk]
          rintro heq
          exact hin (Option.some.inj heq ▸ hkey)
        · exact hseen a ha key (List.mem_cons_of_mem _ hkey)
      · intro b hb key hkey
        obtain rfl := Option.some.inj (hk.symm.trans hkey)
        exact hseen b hb value (List.mem_cons_self ..)

theorem keyed_of_validate (h : s.validateConstraints = .ok ()) : ∀ c ∈ s.constraints, c.Keyed s.nodes := by
  simp only [validateConstraints] at h
  split at h
  · simp at h
  · rename_i hexists
    split at h
    · simp at h
    · rename_i hunique
      rw [List.findSome?_eq_none_iff] at hexists hunique
      have hmem : ∀ (i : ℕ) (a : Node), s.nodes[i]? = some a → (i,a) ∈ s.nodes.toList :=
        fun i a hi => Std.ExtTreeMap.mem_toList_iff_getElem?_eq_some.mpr hi
      intro c hc
      constructor
      · intro tuple ht i j a b key hi hj ha hb
        have hpair := (duplicateValue_none (hunique tuple (List.mem_filterMap.mpr ⟨c,hc,ht⟩))).2
        rw [List.pairwise_map] at hpair
        -- two entries of the map stand in one order or the other
        have : Std.Symm (fun p q : ℕ × Node => ∀ key,
            coveredKey p.2 tuple = some key → coveredKey q.2 tuple ≠ some key) :=
          ⟨fun p q hpq key hq hp => hpq key hp hq⟩
        by_contra hne
        exact hpair.forall (hmem i a hi) (hmem j b hj) (fun heq => hne (congrArg Prod.fst heq)) key ha hb
      · intro i a hi
        have hnode := hexists a (List.mem_map.mpr ⟨(i,a),hmem i a hi,rfl⟩)
        exact List.findSome?_eq_none_iff.mp hnode c hc

/-! ## The check of one write -/

/-- The constraints hold of the stored nodes, and each unique tuple has its lookup. -/
structure Lawful (s : Inner) : Prop where
  keyed : ∀ c ∈ s.constraints, c.Keyed s.nodes
  lookups : ∀ c ∈ s.constraints, ∀ tuple, c.uniqueTuple = some tuple → tuple ∈ s.unique.map Prod.fst

/-- A node that passes the check can be stored, under whatever time stamp. -/
theorem checkNode_insert (h : Wf s) (hl : Lawful s) (node : Node) {stored : Node} (hc : s.checkNode node true = .ok ())
    (hcover : ∀ tuple, coveredKey stored tuple = coveredKey node tuple)
    (hmiss : ∀ c, missingProperty stored c = none ↔ missingProperty node c = none) :
    ∀ c ∈ s.constraints, c.Keyed (s.nodes.insert node.id stored) := by
  unfold checkNode at hc
  cases hu : s.checkUnique node with
  | error v => simp [hu] at hc
  | ok u =>
    have he : s.checkExists node = .ok () := by simpa [hu] using hc
    simp only [checkUnique] at hu
    split at hu
    · simp at hu
    rename_i hclash
    simp only [checkExists] at he
    split at he
    · simp at he
    rename_i hexists
    rw [List.findSome?_eq_none_iff] at hclash hexists
    intro c hcon
    -- no other node is filed under a key of the node
    have hother : ∀ tuple, c.uniqueTuple = some tuple → ∀ (i : ℕ) (a : Node) (key : String),
        s.nodes[i]? = some a → coveredKey node tuple = some key → coveredKey a tuple = some key → i = node.id := by
      intro tuple ht i a key hi hn ha
      obtain ⟨entry,hentry,rfl⟩ := List.mem_map.mp (hl.lookups c hcon tuple ht)
      have hfile := ((h.nodes.unique entry hentry).mem key i).mpr ⟨a,hi,ha⟩
      have hnone := hclash entry hentry
      simp only [uniqueClash,hn] at hnone
      split_ifs at hnone with hne
      by_contra hne'
      exact hne ⟨i,Finset.mem_erase.mpr ⟨hne',hfile⟩⟩
    constructor
    · intro tuple ht i j a b key hi hj ha hb
      rw [Map.get_insert] at hi hj
      split_ifs at hi hj with hi' hj' hj'
      · exact hi'.symm.trans hj'
      · obtain rfl := Option.some.inj hi
        exact hi'.symm.trans (hother tuple ht j b key hj (hcover tuple ▸ ha) hb).symm
      · obtain rfl := Option.some.inj hj
        exact (hother tuple ht i a key hi (hcover tuple ▸ hb) ha).trans hj'
      · exact (hl.keyed c hcon).unique tuple ht i j a b key hi hj ha hb
    · intro i a hi
      rw [Map.get_insert] at hi
      split_ifs at hi with hi'
      · obtain rfl := Option.some.inj hi
        exact (hmiss c).mpr (hexists c hcon)
      · exact (hl.keyed c hcon).present i a hi

theorem missingProperty_updatedAt (node : Node) (ts : ℤ) (c : Constraint) :
    missingProperty { node with updatedAt := ts } c = none ↔ missingProperty node c = none := by
  have hkey : ∀ p, uniqueKey { node with updatedAt := ts } p = uniqueKey node p :=
    fun p => uniqueKey_congr rfl rfl rfl p
  have hlabel : ∀ kind, hasLabel { node with updatedAt := ts } kind = hasLabel node kind :=
    fun kind => hasLabel_congr rfl rfl kind
  simp only [missingProperty,hkey,hlabel]

theorem keyed_apply {g : Graph} {c : Constraint} (h : c.Keyed g.nodes) {op : GraphOp}
    (hop : ∀ node, op ≠ .upsertNode node) : c.Keyed (g.apply op).nodes := by
  cases op with
  | upsertNode node => exact absurd rfl (hop node)
  | deleteNode id =>
    refine h.sub ?_
    intro i a hi
    simp only [Graph.apply] at hi
    split_ifs at hi
    · rw [Map.get_erase] at hi
      split_ifs at hi
      exact hi
    · exact hi
  | upsertEdge edge => exact h
  | deleteEdge id => exact h
  | setEmbedding id vector => exact h
  | deleteEmbedding id => exact h

theorem keyed_applyAll {g : Graph} {c : Constraint} (h : c.Keyed g.nodes) {ops : List GraphOp}
    (hops : ∀ op ∈ ops, ∀ node, op ≠ .upsertNode node) : c.Keyed (g.applyAll ops).nodes := by
  induction ops generalizing g with
  | nil => exact h
  | cons op ops ih =>
    exact ih (keyed_apply h (hops op (List.mem_cons_self ..))) (fun o ho => hops o (List.mem_cons_of_mem _ ho))

/-- A checked mutation keeps the constraints. -/
theorem mutate_keyed (h : Wf s) (hl : Lawful s) {m : Mutation} {op : GraphOp}
    (hr : s.mutate m true = (.ok op,t)) : ∀ c ∈ s.constraints, c.Keyed (s.graph.apply op).nodes := by
  cases m with
  | createNode newNode mint =>
    simp only [mutate,createNodeChecked] at hr
    split at hr
    · simp [Except.map] at hr
    · rename_i hcheck
      simp only [Prod.map_apply,Except.map,Prod.mk.injEq,Except.ok.injEq] at hr
      rw [← hr.1]
      exact checkNode_insert h hl _ hcheck (fun tuple => rfl) (fun c => Iff.rfl)
  | updateNode id patch mint =>
    simp only [mutate,updateNodeChecked] at hr
    split at hr
    · simp [Except.map] at hr
    · rename_i old hold
      split at hr
      · simp [Except.map] at hr
      · rename_i hcheck
        simp only [Prod.map_apply,Except.map,Prod.mk.injEq,Except.ok.injEq] at hr
        rw [← hr.1]
        exact checkNode_insert h hl (patchNode old patch) hcheck (fun tuple => coveredKey_updatedAt _ _ tuple)
          (fun c => missingProperty_updatedAt _ _ c)
  | deleteNode id =>
    rcases hc : s.deleteNode id with ⟨r,u⟩
    cases r <;> simp only [mutate,hc,Prod.map_apply,Except.map,Prod.mk.injEq,reduceCtorEq,false_and,
      Except.ok.injEq] at hr
    exact fun c hcon => keyed_apply (hl.keyed c hcon) (by simp [← hr.1])
  | createEdge newEdge mint =>
    rcases hc : s.createEdge newEdge mint with ⟨r,u⟩
    cases r <;> simp only [mutate,hc,Prod.map_apply,Except.map,Prod.mk.injEq,reduceCtorEq,false_and,
      Except.ok.injEq] at hr
    exact fun c hcon => keyed_apply (hl.keyed c hcon) (by simp [← hr.1])
  | updateEdge id patch =>
    rcases hc : s.updateEdge id patch with ⟨r,u⟩
    cases r <;> simp only [mutate,hc,Prod.map_apply,Except.map,Prod.mk.injEq,reduceCtorEq,false_and,
      Except.ok.injEq] at hr
    exact fun c hcon => keyed_apply (hl.keyed c hcon) (by simp [← hr.1])
  | deleteEdge id =>
    rcases hc : s.deleteEdge id with ⟨r,u⟩
    cases r <;> simp only [mutate,hc,Prod.map_apply,Except.map,Prod.mk.injEq,reduceCtorEq,false_and,
      Except.ok.injEq] at hr
    exact fun c hcon => keyed_apply (hl.keyed c hcon) (by simp [← hr.1])

theorem Lawful.of_schema (hl : Lawful s) (hs : t.schema = s.schema) (hk : ∀ c ∈ s.constraints, c.Keyed t.nodes) :
    Lawful t := by
  refine ⟨?_,?_⟩
  · rw [constraints_of_schema hs]
    exact hk
  · rw [constraints_of_schema hs,tuples_of_schema hs]
    exact hl.lookups

end Inner

section Writes
variable [JsonText] {s t : Inner}

theorem DirectWrite.run_keyed (h : s.Wf) (hl : s.Lawful) {w : DirectWrite} {ops : List GraphOp}
    (hr : w.run s = (.ok ops,t)) : ∀ c ∈ s.constraints, c.Keyed (s.graph.applyAll ops).nodes := by
  cases w with
  | mutation m =>
    rcases hm : s.mutate m true with ⟨r,u⟩
    cases r with
    | error e => simp [DirectWrite.run,hm,Except.map] at hr
    | ok op =>
      simp only [DirectWrite.run,hm,Prod.map_apply,Except.map,id,Prod.mk.injEq,Except.ok.injEq] at hr
      obtain ⟨rfl,-⟩ := hr
      exact Inner.mutate_keyed h hl hm
  | setEmbedding id vector =>
    simp only [DirectWrite.run] at hr
    split_ifs at hr
    · obtain rfl := Except.ok.inj (Prod.mk.inj hr).1
      exact fun c hc => Inner.keyed_applyAll (g := s.graph) (hl.keyed c hc) (by simp)
    · simp at hr
  | setEmbeddings embeddings =>
    simp only [DirectWrite.run] at hr
    split at hr
    · simp at hr
    · obtain rfl := Except.ok.inj (Prod.mk.inj hr).1
      refine fun c hc => Inner.keyed_applyAll (g := s.graph) (hl.keyed c hc) ?_
      intro op hop node
      obtain ⟨p,-,rfl⟩ := List.mem_map.mp hop
      simp
  | deleteEmbedding id =>
    obtain rfl := Except.ok.inj (Prod.mk.inj hr).1
    exact fun c hc => Inner.keyed_applyAll (g := s.graph) (hl.keyed c hc) (by simp)

theorem BatchWrite.mutateAll_keyed (h : s.Wf) (hl : s.Lawful) {ms : List Mutation} {ops : List GraphOp}
    (hr : BatchWrite.mutateAll s ms = (.ok ops,t)) : ∀ c ∈ s.constraints, c.Keyed (s.graph.applyAll ops).nodes := by
  induction ms generalizing s ops with
  | nil =>
    obtain rfl := Except.ok.inj (Prod.mk.inj hr).1
    exact hl.keyed
  | cons m ms ih =>
    simp only [BatchWrite.mutateAll] at hr
    rcases hm : s.mutate m true with ⟨r,u⟩
    cases r with
    | error e => simp [hm] at hr
    | ok op =>
      simp only [hm] at hr
      rcases hrest : BatchWrite.mutateAll u ms with ⟨r,v⟩
      cases r with
      | error e => simp [hrest,Except.map] at hr
      | ok more =>
        simp only [hrest,Prod.map_apply,Except.map,id,Prod.mk.injEq,Except.ok.injEq] at hr
        obtain ⟨rfl,rfl⟩ := hr
        obtain rfl := Inner.mutate_ok h hm
        have hg := Inner.applyOp_graph h op
        have hs := (Inner.applyOp_schema s op).schema
        have hkeyed := Inner.mutate_keyed h hl hm
        have hl' : (s.applyOp op).Lawful := hl.of_schema hs (by
          have hnodes : (s.applyOp op).nodes = (s.graph.apply op).nodes := congrArg Graph.nodes hg
          rwa [hnodes])
        have hmore := ih (Inner.applyOp_wf h op) hl' hrest
        rwa [Inner.constraints_of_schema hs,hg] at hmore

theorem BatchWrite.deleteAll_upsert (s : Inner) (ids : List ℕ) :
    ∀ op ∈ (BatchWrite.deleteAll s ids).1, ∀ node, op ≠ .upsertNode node := by
  induction ids generalizing s with
  | nil => simp [BatchWrite.deleteAll]
  | cons i ids ih =>
    simp only [BatchWrite.deleteAll]
    split
    · exact ih s
    · rename_i u hu
      intro op hop node
      rcases List.mem_cons.mp hop with rfl | hop
      · simp
      · exact ih u op hop node

theorem BatchWrite.run_keyed (h : s.Wf) (hl : s.Lawful) {w : BatchWrite} {ops : List GraphOp}
    (hr : w.run s = (.ok ops,t)) : ∀ c ∈ s.constraints, c.Keyed (s.graph.applyAll ops).nodes := by
  cases w with
  | createNodes newNodes => exact BatchWrite.mutateAll_keyed h hl hr
  | createEdges newEdges => exact BatchWrite.mutateAll_keyed h hl hr
  | deleteNodes ids =>
    simp only [BatchWrite.run,Prod.map,Prod.mk.injEq,Except.ok.injEq,id] at hr
    exact fun c hc => Inner.keyed_applyAll (g := s.graph) (hl.keyed c hc)
      (hr.1 ▸ BatchWrite.deleteAll_upsert s ids)

end Writes

/-! ## The engine -/

namespace Engine
variable [JsonText]

/-- One transaction at most is prepared, and its writes on top of the live state keep the
constraints. -/
def PreparedKeyed (s : Inner) : Prop :=
  ∀ (gid : String) (entry : PreparedEntry), s.prepared[gid]? = some entry →
    (∀ c ∈ s.constraints, c.Keyed (s.graph.applyAll entry.ops).nodes) ∧
      ∀ other, s.prepared[other]?.isSome → other = gid

structure Lawful (e : Engine) : Prop extends Inv e where
  lawful : e.live.Lawful
  prepared : PreparedKeyed e.live

theorem PreparedKeyed.of_fence {s : Inner} (ids : IdCounters) (h : Inner.Wf { s with ids := ids })
    (hb : s.breaksPrepared = false) (hone : ∀ (gid : String) (entry : PreparedEntry),
      s.prepared[gid]? = some entry → ∀ other, s.prepared[other]?.isSome → other = gid) : PreparedKeyed s := by
  intro gid entry hentry
  refine ⟨?_,hone gid entry hentry⟩
  intro c hc
  have hafter : s.afterPrepared = s.applyOps entry.ops := by
    simp only [Inner.afterPrepared,Map.toList_single hentry (hone gid entry hentry),List.foldl_cons,List.foldl_nil]
  have hschema := Inner.applyOps_schema s entry.ops
  have hvalid : (s.applyOps entry.ops).validateConstraints = .ok () := by
    unfold Inner.breaksPrepared at hb
    have hne : ¬ (s.prepared.isEmpty || s.constraints.isEmpty) = true := by
      simp only [Bool.or_eq_true,List.isEmpty_iff,Std.ExtTreeMap.isEmpty_iff,not_or]
      refine ⟨?_,List.ne_nil_of_mem hc⟩
      intro hempty
      rw [hempty] at hentry
      simp at hentry
    rw [if_neg hne,hafter] at hb
    cases hv : (s.applyOps entry.ops).validateConstraints with
    | ok u => rfl
    | error v => simp [hv] at hb
  have hkeyed := Inner.keyed_of_validate hvalid c (by rwa [Inner.constraints_of_schema hschema.schema])
  have ha : s.Agree { s with ids := ids } := rfl
  have hg := (ha.applyOps entry.ops).graph.trans (Inner.applyOps_graph h entry.ops)
  have hnodes : (s.applyOps entry.ops).nodes = (s.graph.applyAll entry.ops).nodes := congrArg Graph.nodes hg
  rwa [hnodes] at hkeyed

theorem Lawful.one {e : Engine} (h : Lawful e) (gid : String) (entry : PreparedEntry)
    (hentry : e.live.prepared[gid]? = some entry) (other : String) (ho : e.live.prepared[other]?.isSome) :
    other = gid := (h.prepared gid entry hentry).2 other ho

theorem Lawful.of_write {e e' : Engine} {ops : List GraphOp} (h : Lawful e) (hs : WriteSection e e' ops)
    (hk : ∀ c ∈ e.live.constraints, c.Keyed (e.live.graph.applyAll ops).nodes) : Lawful e' := by
  have hg := hs.live.graph
  have hnodes : e'.live.nodes = (e.live.graph.applyAll ops).nodes := congrArg Graph.nodes hg
  refine ⟨h.toInv.of_section hs.toSection,h.lawful.of_schema hs.schema (hnodes ▸ hk),?_⟩
  intro gid entry hentry
  rw [Inner.prepared_of_schema hs.schema] at hentry ⊢
  rcases hs.free with rfl | hfree
  · rw [hg,Inner.constraints_of_schema hs.schema]
    exact h.prepared gid entry hentry
  · rw [hfree] at hentry
    simp at hentry

theorem Lawful.of_core {e e' : Engine} (h : Lawful e) (hc : SameCore e e') : Lawful e' :=
  h.of_write (.quiet h.live hc) h.lawful.keyed

theorem Lawful.drop {e : Engine} (h : Lawful e) (id : ℕ) : Lawful { e with txs := e.txs.erase id } :=
  ⟨h.toInv.drop id,h.lawful,h.prepared⟩

theorem direct_keyed {e : Engine} (h : Lawful e) (call : ℕ) (w : DirectWrite) :
    ∀ c ∈ e.live.constraints, c.Keyed (e.live.graph.applyAll ((e.direct call w).1.toOption.getD [])).nodes := by
  unfold direct
  split_ifs
  · exact h.lawful.keyed
  · split
    · exact h.lawful.keyed
    · rcases hr : w.run (e.load e.live) with ⟨r,t⟩
      cases r with
      | error err =>
        simp only [withLive,hr,Except.toOption,Option.getD_none]
        exact h.lawful.keyed
      | ok ops =>
        simp only [withLive,hr,Except.toOption,Option.getD_some]
        exact DirectWrite.run_keyed (s := e.load e.live) h.live ⟨h.lawful.keyed,h.lawful.lookups⟩ hr

theorem batch_keyed {e : Engine} (h : Lawful e) (w : BatchWrite) (io : Bool) :
    ∀ c ∈ e.live.constraints, c.Keyed (e.live.graph.applyAll ((e.batch w io).1.toOption.getD [])).nodes := by
  unfold batch
  split_ifs
  · exact h.lawful.keyed
  · split
    · exact h.lawful.keyed
    · rcases hr : w.run (e.load e.live) with ⟨r,t⟩
      cases r with
      | error err => exact h.lawful.keyed
      | ok ops =>
        simp only
        split_ifs
        · exact h.lawful.keyed
        · split
          · exact h.lawful.keyed
          · exact BatchWrite.run_keyed (s := e.load e.live) h.live ⟨h.lawful.keyed,h.lawful.lookups⟩ hr

theorem Lawful.of_validated {e e' : Engine} (h : Lawful e) (hi : Inv e') {s : Inner} (ids : IdCounters)
    (hw : Inner.Wf { s with ids := ids }) (hl : e'.live = { s with commitSeq := s.commitSeq+1 })
    (hs : e'.live.schema = e.live.schema) (hv : s.validateConstraints = .ok ())
    (hb : s.breaksPrepared = false) : Lawful e' := by
  have hss : s.schema = e.live.schema := by
    rw [hl] at hs
    exact hs
  have hkeyed := Inner.keyed_of_validate hv
  rw [Inner.constraints_of_schema hss] at hkeyed
  refine ⟨hi,h.lawful.of_schema hs ?_,?_⟩
  · rw [hl]
    exact hkeyed
  · have hfence : PreparedKeyed s := by
      refine .of_fence ids hw hb ?_
      rw [Inner.prepared_of_schema hss]
      exact h.one
    intro gid entry hentry
    rw [hl] at hentry ⊢
    exact hfence gid entry hentry

theorem commitParts_lawful {e : Engine} (h : Lawful e) {slot : TxSlot} (hi : SlotInv e slot) (io : Bool) :
    Lawful (e.commitParts slot io).2 := by
  have hinv := h.toInv.of_section (commitParts_section h.live hi io)
  have hschema := commitParts_schema hi io
  have hr := commitParts_result e slot io
  generalize e.commitParts slot io = r at hr hinv hschema
  obtain ⟨r,e'⟩ := r
  cases hr with
  | refused err _ ids hids hc hconflict =>
    have hlive : e'.live = e.live := hc.live
    exact ⟨hinv,hlive ▸ h.lawful,hlive ▸ h.prepared⟩
  | empty ho => exact h
  | swapped _ hf he hv hp hc => exact h.of_validated hinv e.ids hi.wf hc.live hschema hv hp
  | replayed _ hf he hcl hv hp hc =>
    exact h.of_validated hinv (e.merged slot).ids (Inner.applyOps_wf h.live slot.ops) hc.live hschema hv hp

theorem prepareParts_lawful {e : Engine} (h : Lawful e) {slot : TxSlot} (hi : SlotInv e slot) (gid : String)
    (now : ℤ) (io : Bool) : Lawful (e.prepareParts slot gid now io).2 := by
  have hinv := h.toInv.of_section (prepareParts_section h.live slot gid now io)
  have hr := prepareParts_result e slot gid now io
  generalize e.prepareParts slot gid now io = r at hr hinv
  obtain ⟨r,e'⟩ := r
  cases hr with
  | refused err _ hc => exact h.of_core hc
  | prepared _ hp he hv hc =>
    have hbase := hi.same he.symm
    have hlive : e'.live = { e.fenced gid now slot.ops with commitSeq := e.live.commitSeq+1 } := hc.live
    refine ⟨hinv,?_,?_⟩
    · rw [hlive]
      exact ⟨h.lawful.keyed,h.lawful.lookups⟩
    · -- the private copy, which was validated, is the live state with the writes applied
      intro g entry hentry
      rw [hlive] at hentry ⊢
      simp only [fenced,hp,Map.get_insert,Std.ExtTreeMap.getElem?_empty] at hentry ⊢
      split_ifs at hentry with hgid
      obtain rfl := Option.some.inj hentry
      refine ⟨?_,?_⟩
      · intro c hc
        have hschema := hi.replay.schema.trans (Inner.applyOps_schema slot.base slot.ops).schema
        rw [hbase] at hschema
        have hkeyed := Inner.keyed_of_validate hv c (by rwa [Inner.constraints_of_schema hschema])
        have hnodes : slot.working.nodes = (e.live.graph.applyAll slot.ops).nodes := by
          rw [← hbase]
          exact congrArg Graph.nodes hi.graph
        rwa [hnodes] at hkeyed
      · intro other hother
        split_ifs at hother with ho
        · exact ho.symm.trans hgid
        · simp at hother

theorem commitPrepared_lawful {e : Engine} (h : Lawful e) (gid : String) (io : Bool) :
    Lawful (e.commitPrepared gid io).2 := by
  cases hg : e.live.prepared[gid]? with
  | none => rwa [commitPrepared_none hg]
  | some entry =>
    have hsec := commitPrepared_section h.live hg io
    obtain ⟨hkeyed,honly⟩ := h.prepared gid entry hg
    rcases commitPrepared_result e gid io with ⟨err,hr,hc⟩ | ⟨entry',hg',hr,hc⟩
    · exact h.of_core hc
    · rw [hr] at hsec
      have hschema := commitPrepared_schema hr
      have hcon : (e.commitPrepared gid io).2.live.constraints = e.live.constraints :=
        congrArg Schema.constraints hschema
      have htup : (e.commitPrepared gid io).2.live.unique.map Prod.fst = e.live.unique.map Prod.fst :=
        congrArg Schema.tuples hschema
      have hprep : (e.commitPrepared gid io).2.live.prepared = e.live.prepared.erase gid :=
        congrArg Schema.prepared hschema
      have hnodes : (e.commitPrepared gid io).2.live.nodes = (e.live.graph.applyAll entry.ops).nodes :=
        congrArg Graph.nodes hsec.live.graph
      refine ⟨h.toInv.of_section hsec,⟨?_,?_⟩,?_⟩
      · rw [hcon,hnodes]
        exact hkeyed
      · rw [hcon,htup]
        exact h.lawful.lookups
      · -- it was the only one
        intro other entry'' hother
        rw [hprep,Map.get_erase] at hother
        split_ifs at hother with ho
        exact absurd (honly other (by rw [hother]; rfl)).symm ho

theorem rollbackPreparedAs_lawful {e : Engine} (h : Lawful e) (gid : String) (heuristic io : Bool) :
    Lawful (e.rollbackPreparedAs gid heuristic io).2 := by
  have hsec := rollbackPreparedAs_section h.live gid heuristic io
  rcases rollbackPreparedAs_schema e gid heuristic io with hc | ⟨hg,-,hschema⟩
  · exact h.of_core hc
  · have hcon : (e.rollbackPreparedAs gid heuristic io).2.live.constraints = e.live.constraints :=
      congrArg Schema.constraints hschema
    have htup : (e.rollbackPreparedAs gid heuristic io).2.live.unique.map Prod.fst =
      e.live.unique.map Prod.fst := congrArg Schema.tuples hschema
    have hprep : (e.rollbackPreparedAs gid heuristic io).2.live.prepared = e.live.prepared.erase gid :=
      congrArg Schema.prepared hschema
    have hnodes : (e.rollbackPreparedAs gid heuristic io).2.live.nodes = e.live.nodes :=
      congrArg Graph.nodes hsec.live.graph
    refine ⟨h.toInv.of_section hsec,⟨?_,?_⟩,?_⟩
    · rw [hcon,hnodes]
      exact h.lawful.keyed
    · rw [hcon,htup]
      exact h.lawful.lookups
    · intro other entry hother
      rw [hprep,Map.get_erase] at hother
      split_ifs at hother with ho
      exact absurd (h.one other entry hother gid hg) ho

/-! ### Declarations -/

/-- A constraint is newly declared only if the prepared writes on top of the live state keep it. -/
def DeclarationSafe (e : Engine) : Action → Prop
  | .addConstraint c => c ∉ e.live.constraints →
      Inner.validateConstraints { e.live with constraints := e.live.constraints ++ [c] } = .ok () →
      Inner.breaksPrepared { e.live with constraints := e.live.constraints ++ [c] } = false
  | _ => True

theorem syncUnique_lookups {e : Engine} (h : (e.load e.live).Wf) (cs : List Constraint) :
    ∀ c ∈ cs, ∀ tuple, c.uniqueTuple = some tuple →
      tuple ∈ (Inner.syncUnique { e.live with constraints := cs }).unique.map Prod.fst := by
  have hn : Inner.NodeIndexes { e.load e.live with constraints := cs } := h.nodes.congr rfl rfl rfl rfl le_rfl
  intro c hc tuple ht
  obtain ⟨entry,hentry,htuple⟩ := (Inner.syncUnique_spec hn).2 c hc tuple ht
  exact List.mem_map.mpr ⟨entry,hentry,htuple⟩

theorem addConstraint_lawful {e : Engine} (h : Lawful e) {c : Constraint} (hd : e.DeclarationSafe (.addConstraint c)) :
    Lawful (e.addConstraint c).2 := by
  have hinv := h.toInv.of_section (addConstraint_section h.live c)
  rcases addConstraint_result e c with he | ⟨hc,hv,he⟩
  · rw [he] at hinv ⊢
    exact ⟨hinv,h.lawful,h.prepared⟩
  · rw [he] at hinv ⊢
    have hkeyed := Inner.keyed_of_validate hv
    refine ⟨hinv,⟨hkeyed,syncUnique_lookups h.live _⟩,?_⟩
    have hw : Inner.Wf { e.load e.live with constraints := e.live.constraints ++ [c] } :=
      ⟨h.live.nodes.congr rfl rfl rfl rfl le_rfl,h.live.edges.congr rfl rfl rfl rfl le_rfl⟩
    have hp : PreparedKeyed { e.live with constraints := e.live.constraints ++ [c] } :=
      .of_fence e.ids hw (hd hc hv) h.one
    exact fun gid entry hentry => hp gid entry hentry

theorem removeConstraint_lawful {e : Engine} (h : Lawful e) (c : Constraint) :
    Lawful (e.removeConstraint c).2 := by
  have hinv := h.toInv.of_section (removeConstraint_section h.live c)
  have hsub : ∀ d ∈ e.live.constraints.filter (fun d => d ≠ c), d ∈ e.live.constraints :=
    fun d hd => List.mem_of_mem_filter hd
  have hlookups := syncUnique_lookups h.live (e.live.constraints.filter (fun d => d ≠ c))
  have hprepared : ∀ (gid : String) (entry : PreparedEntry), e.live.prepared[gid]? = some entry →
      (∀ d ∈ e.live.constraints.filter (fun d => d ≠ c), d.Keyed (e.live.graph.applyAll entry.ops).nodes) ∧
        ∀ other, e.live.prepared[other]?.isSome → other = gid :=
    fun gid entry hentry => ⟨fun d hd => (h.prepared gid entry hentry).1 d (hsub d hd),h.one gid entry hentry⟩
  rcases removeConstraint_result e c with he | ⟨he,-⟩
  · rw [he] at hinv ⊢
    exact ⟨hinv,⟨fun d hd => h.lawful.keyed d (hsub d hd),hlookups⟩,hprepared⟩
  · rw [he] at hinv ⊢
    exact ⟨hinv,⟨fun d hd => h.lawful.keyed d (hsub d hd),hlookups⟩,hprepared⟩

/-! ### Every action -/

theorem step_lawful {e : Engine} {a : Action} (h : Lawful e) (ha : a.isMerge = false)
    (hd : e.DeclarationSafe a) : Lawful (e.step a) := by
  have hslot : ∀ (id : ℕ) (slot : TxSlot), e.txs[id]? = some slot →
      SlotInv { e with txs := e.txs.erase id } slot := by
    intro id slot hs
    have hi := (h.slots id slot hs).1
    exact ⟨hi.wf,hi.baseWf,hi.replay,hi.epoch,hi.same,hi.seq⟩
  cases a with
  | direct call w =>
    simp only [step]
    split_ifs
    · exact h
    · exact h.of_write (direct_section h.live call w) (direct_keyed h call w)
  | enqueue call encoded => exact h.of_core (enqueue_core e call encoded)
  | lead => exact h.of_core (by constructor <;> rfl)
  | finish io => exact h.of_core (by constructor <;> rfl)
  | await call => exact h.of_core (await_core e call)
  | batch w io => exact h.of_write (batch_section h.live w io) (batch_keyed h w io)
  | txBegin isolation limited => exact ⟨txBegin_inv h.toInv isolation limited,h.lawful,h.prepared⟩
  | txWrite id m =>
    have hlive : (e.txWrite id m).2.live = e.live := by
      unfold txWrite
      split
      · rfl
      · split <;> rfl
    exact ⟨txWrite_inv h.toInv id m,by rw [step,hlive]; exact h.lawful,by rw [step,hlive]; exact h.prepared⟩
  | txCommit id io =>
    simp only [step,txCommit]
    split
    · exact h
    · rename_i slot hs
      exact commitParts_lawful (h.drop id) (hslot id slot hs) io
  | txRollback id => exact h.drop id
  | txPrepare id gid now io =>
    simp only [step,txPrepare]
    split
    · exact h
    · rename_i slot hs
      exact prepareParts_lawful (h.drop id) (hslot id slot hs) gid now io
  | commitPrepared gid io => exact commitPrepared_lawful h gid io
  | rollbackPrepared gid heuristic io => exact rollbackPreparedAs_lawful h gid heuristic io
  | addConstraint c => exact addConstraint_lawful h hd
  | removeConstraint c => exact removeConstraint_lawful h c
  | applyDump call dump => simp [Action.isMerge] at ha
  | deltaBegin id changes tomb => simp [Action.isMerge] at ha
  | deltaStep id call current => simp [Action.isMerge] at ha

theorem new_lawful (capacity : ℕ) (readOnly : Bool) (maxTxWrites : Option ℕ) (durable : Bool) :
    Lawful (new capacity readOnly maxTxWrites durable) where
  toInv := new_inv capacity readOnly maxTxWrites durable
  lawful := ⟨by simp [new],by simp [new]⟩
  prepared gid entry h := by simp [new] at h

/-- In every state of a run in which no constraint is declared that the prepared writes would
break, every declared constraint holds of the live nodes. -/
theorem constraints_hold (capacity : ℕ) (readOnly : Bool) (maxTxWrites : Option ℕ) (durable : Bool)
    (as : List Action) (hm : ∀ a ∈ as, a.isMerge = false)
    (hd : ∀ t ∈ (new capacity readOnly maxTxWrites durable).trace as, t.1.DeclarationSafe t.2) :
    ∀ c ∈ ((new capacity readOnly maxTxWrites durable).run as).live.constraints,
      c.Holds ((new capacity readOnly maxTxWrites durable).run as).live.nodes := by
  have hlawful : Lawful ((new capacity readOnly maxTxWrites durable).run as) := by
    refine run_invariant (p := Lawful) (q := fun e a => a.isMerge = false ∧ e.DeclarationSafe a)
      (fun _ _ h hq => step_lawful h hq.1 hq.2) (new_lawful _ _ _ _) as ?_
    intro t ht
    obtain ⟨bs,hp,-⟩ := mem_trace.mp ht
    exact ⟨hm _ (hp.subset (by simp)),hd t ht⟩
  exact fun c hc => (hlawful.lawful.keyed c hc).holds

end Engine

namespace Engine
section Sample
attribute [local instance] Json.compactText

/-- A unique title is declared, a transaction that claims one is prepared, another one commits
under the fence, and the prepared one is committed. -/
def preparedClaim : List Action :=
  [.addConstraint (.uniqueNodeProperty "Person" "title"),.txBegin .snapshot true,
   .txWrite 1 (.createNode (.titled "Person" "a") ⟨5,1⟩),.txPrepare 1 "g" 5 true,.txBegin .snapshot true,
   .txWrite 2 (.createNode (.titled "Person" "b") ⟨5,2⟩),.txCommit 2 true,.commitPrepared "g" true]

theorem preparedClaim_safe : ∀ t ∈ (new 10000 false none true).trace preparedClaim, t.1.DeclarationSafe t.2 := by
  intro t ht
  simp only [preparedClaim,trace,List.mem_cons,List.not_mem_nil,or_false] at ht
  rcases ht with rfl | rfl | rfl | rfl | rfl | rfl | rfl | rfl
  · exact fun _ _ => by decide +kernel
  all_goals trivial

theorem constraints_hold_sample :
    ((new 10000 false none true).run preparedClaim).live.nodes.size = 2 ∧
      (Constraint.uniqueNodeProperty "Person" "title").Holds
        ((new 10000 false none true).run preparedClaim).live.nodes :=
  ⟨by decide +kernel,constraints_hold 10000 false none true preparedClaim (by decide) preparedClaim_safe _
    (by decide +kernel)⟩

/-- A transaction is prepared that creates a person without an email; then emails are declared
to be required, which the stored nodes obey; then the prepared transaction is committed. -/
def declaredWhilePrepared : List Action :=
  [.txBegin .snapshot true,.txWrite 1 (.createNode (.titled "Person" "a") ⟨5,1⟩),.txPrepare 1 "g" 5 true,
   .addConstraint (.propertyExists "Person" "email"),.commitPrepared "g" true]

theorem declared_while_prepared_breaks :
    Constraint.propertyExists "Person" "email" ∈
        ((new 10000 false none true).run declaredWhilePrepared).live.constraints ∧
      ¬ (Constraint.propertyExists "Person" "email").Holds
        ((new 10000 false none true).run declaredWhilePrepared).live.nodes := by
  refine ⟨by decide +kernel,?_⟩
  intro h
  have hp := h.present "Person" ["email"] rfl 1 ((NewNode.titled "Person" "a").intoNode 1 ⟨5,1⟩)
    (by decide +kernel) (by decide +kernel) "email" (by simp)
  exact absurd hp (by decide +kernel)

end Sample
end Engine
end Drevo
