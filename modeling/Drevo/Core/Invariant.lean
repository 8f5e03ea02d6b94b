import Drevo.Core.Effect
import Drevo.Core.Ledger

/-! What holds of the engine in every reachable state: the live state is well formed, the
private copy of an open transaction is its snapshot with its buffered writes applied, and the
history holds the newest commits under consecutive sequence numbers. -/
namespace Drevo
open Lib

namespace CommitHistory

/-- The newest commits up to `seq`, as many as fit. -/
structure Held (h : CommitHistory) (seq : ℕ) : Prop where
  length : h.recent.length = min h.capacity seq
  seqs : h.recent.map Prod.fst = List.range' (seq+1-h.recent.length) h.recent.length

theorem held_empty (capacity : ℕ) : Held { capacity := capacity } 0 := by
  constructor <;> simp

@[simp] theorem push_capacity (h : CommitHistory) (seq : ℕ) (set : ConflictSet) :
    (h.push seq set).capacity = h.capacity := rfl

theorem Held.seqs_append {h : CommitHistory} {seq : ℕ} (hh : Held h seq) (set : ConflictSet) :
    (h.recent ++ [(seq+1,set)]).map Prod.fst =
      List.range' (seq+1-h.recent.length) (h.recent.length+1) := by
  have hlen := hh.length
  rw [List.map_append,hh.seqs,List.range'_concat]
  simp only [List.map_cons,List.map_nil,one_mul,List.append_cancel_left_eq,List.cons.injEq,and_true]
  omega

theorem push_held {h : CommitHistory} {seq : ℕ} (hh : Held h seq) (set : ConflictSet) :
    Held (h.push (seq+1) set) (seq+1) := by
  have hlen := hh.length
  have hle : h.recent.length ≤ seq := by omega
  have hplen : (h.push (seq+1) set).recent.length = min h.capacity (seq+1) := by
    simp only [push,List.length_drop,List.length_append,List.length_cons,List.length_nil]
    omega
  refine ⟨hplen,?_⟩
  rw [hplen]
  simp only [push]
  rw [List.map_drop,hh.seqs_append,List.drop_range']
  simp only [List.length_append,List.length_cons,List.length_nil]
  congr 1
  · omega
  · omega

theorem Held.mem {h : CommitHistory} {seq : ℕ} (hh : Held h seq) {p : ℕ × ConflictSet} (hp : p ∈ h.recent) :
    seq < p.1+h.recent.length ∧ p.1 ≤ seq := by
  have hm : p.1 ∈ h.recent.map Prod.fst := List.mem_map_of_mem hp
  rw [hh.seqs,List.mem_range'_1] at hm
  have := hh.length
  omega

theorem Held.covers_iff {h : CommitHistory} {seq : ℕ} (hh : Held h seq) (base : ℕ) :
    h.covers base = true ↔ h.recent ≠ [] ∧ seq ≤ base+h.recent.length := by
  have hs := hh.seqs
  have hlen := hh.length
  cases hr : h.recent with
  | nil => simp [covers,hr]
  | cons p rest =>
    rw [hr] at hs hlen
    simp only [List.map_cons,List.length_cons,List.range'_succ,List.cons.injEq] at hs
    simp only [covers,hr,List.head?_cons,decide_eq_true_eq,ne_eq,reduceCtorEq,not_false_eq_true,true_and,
      List.length_cons,hs.1]
    simp only [List.length_cons] at hlen
    omega

theorem push_mem {h : CommitHistory} {seq base : ℕ} (hh : Held h seq) (set : ConflictSet)
    {p : ℕ × ConflictSet} (hp : p ∈ h.recent ∨ p = (seq+1,set)) (hb : base < p.1)
    (hc : (h.push (seq+1) set).covers base = true) : p ∈ (h.push (seq+1) set).recent := by
  have hh' := push_held hh set
  have hcov := (hh'.covers_iff base).mp hc
  have hall : p ∈ h.recent ++ [(seq+1,set)] := by
    rcases hp with hp | rfl
    · exact List.mem_append_left _ hp
    · simp
  obtain ⟨i,hi,hpi⟩ := List.mem_iff_getElem.mp hall
  -- position i holds the sequence number seq+1-length+i, so what is dropped is at most base
  have hfst : p.1 = seq+1-h.recent.length+i := by
    have hmap : ((h.recent ++ [(seq+1,set)]).map Prod.fst)[i]? = some p.1 := by
      rw [List.getElem?_map,List.getElem?_eq_getElem hi,hpi]
      rfl
    rw [hh.seqs_append,List.getElem?_range' (by simpa using hi)] at hmap
    simpa using (Option.some.inj hmap).symm
  have hlen := hh.length
  have hlen' := hh'.length
  simp only [push_capacity] at hlen'
  simp only [push,List.length_append,List.length_cons,List.length_nil] at hcov ⊢ hlen'
  refine List.mem_iff_getElem.mpr ⟨i-(h.recent.length+1-h.capacity),?_,?_⟩
  · simp only [List.length_drop,List.length_append,List.length_cons,List.length_nil] at hi hcov ⊢ hlen'
    omega
  · rw [List.getElem_drop]
    have hidx : h.recent.length+1-h.capacity+(i-(h.recent.length+1-h.capacity)) = i := by
      simp only [List.length_drop,List.length_append,List.length_cons,List.length_nil] at hi hcov hlen'
      omega
    simp only [hidx,hpi]

/-- The commit came after the snapshot and is held as long as the snapshot is covered. -/
structure Remembers (h : CommitHistory) (base seq : ℕ) (p : ℕ × ConflictSet) : Prop where
  after : base < p.1
  upTo : p.1 ≤ seq
  held : h.covers base = true → p ∈ h.recent

theorem Remembers.push {h : CommitHistory} {base seq : ℕ} {p : ℕ × ConflictSet} (hr : Remembers h base seq p)
    (hh : Held h seq) (set : ConflictSet) : Remembers (h.push (seq+1) set) base (seq+1) p := by
  refine ⟨hr.after,hr.upTo.trans (Nat.le_succ _),?_⟩
  intro hc
  refine push_mem hh set (Or.inl (hr.held ?_)) hr.after hc
  -- what covers the snapshot after the push covered it before
  have hcov := ((push_held hh set).covers_iff base).mp hc
  have hlen := hh.length
  have hlen' := (push_held hh set).length
  have hpos := List.length_pos_iff.mpr hcov.1
  have hafter := hr.after
  have hupTo := hr.upTo
  rw [push_capacity] at hlen'
  rw [hh.covers_iff]
  refine ⟨List.length_pos_iff.mp ?_,?_⟩
  · omega
  · omega

theorem remembers_new {h : CommitHistory} {base seq : ℕ} (hh : Held h seq) (hb : base ≤ seq)
    (set : ConflictSet) : Remembers (h.push (seq+1) set) base (seq+1) (seq+1,set) :=
  ⟨Nat.lt_succ_of_le hb,le_rfl,push_mem hh set (Or.inr rfl) (Nat.lt_succ_of_le hb)⟩

theorem mem_takeWhile_of_sorted {l : List (ℕ × ConflictSet)} (hl : l.Pairwise (fun a b => b.1 < a.1)) {base : ℕ}
    {p : ℕ × ConflictSet} (hp : p ∈ l) (hb : base < p.1) : p ∈ l.takeWhile (fun q => q.1 > base) := by
  induction l with
  | nil => simp at hp
  | cons q l ih =>
    rw [List.pairwise_cons] at hl
    have hq : base < q.1 := by
      rcases List.mem_cons.mp hp with rfl | hp
      · exact hb
      · exact hb.trans (hl.1 p hp)
    rw [List.takeWhile_cons,if_pos (by simpa using hq)]
    rcases List.mem_cons.mp hp with rfl | hp
    · exact List.mem_cons_self ..
    · exact List.mem_cons_of_mem _ (ih hl.2 hp)

theorem classify_wouldPass {h : CommitHistory} {base seq : ℕ} (hh : Held h seq) {mine : ConflictSet}
    (hc : h.classify base mine = .wouldPass) {p : ℕ × ConflictSet} (hr : Remembers h base seq p) :
    p.2.intersects mine = false := by
  unfold classify at hc
  split_ifs at hc with hcov hany
  have hmem := hr.held (by simpa using hcov)
  have hsorted : h.recent.reverse.Pairwise (fun a b => b.1 < a.1) := by
    rw [List.pairwise_reverse]
    have hlt : (h.recent.map Prod.fst).Pairwise (· < ·) := hh.seqs ▸ List.pairwise_lt_range'
    exact List.pairwise_map.mp hlt
  have hin := mem_takeWhile_of_sorted hsorted (List.mem_reverse.mpr hmem) hr.after
  by_contra hi
  exact hany (List.any_eq_true.mpr ⟨p,hin,by simpa using hi⟩)

end CommitHistory

namespace Engine
variable [JsonText]

/-- An open transaction: its copy is its snapshot with its writes applied, and the snapshot is
the live state as long as the pointer did not change. -/
structure SlotInv (e : Engine) (slot : TxSlot) : Prop where
  wf : (e.load slot.working).Wf
  baseWf : (e.load slot.base).Wf
  replay : (slot.base.applyOps slot.ops).Agree slot.working
  epoch : slot.baseEpoch ≤ e.epoch
  same : slot.baseEpoch = e.epoch → slot.base = e.live
  seq : slot.base.commitSeq ≤ e.live.commitSeq

structure Inv (e : Engine) : Prop where
  live : (e.load e.live).Wf
  slots : ∀ (id : ℕ) (slot : TxSlot), e.txs[id]? = some slot → SlotInv e slot ∧ id ≤ e.nextRegTx
  history : e.history.Held e.live.commitSeq

omit [JsonText] in
theorem LiveStep.advance {e e' : Engine} {ops : List GraphOp} (h : LiveStep e e' ops) :
    e.epoch ≤ e'.epoch ∧ (e'.epoch = e.epoch → e'.live = e.live) ∧ e.live.commitSeq ≤ e'.live.commitSeq := by
  cases h with
  | quiet hl he hh => exact ⟨he.ge,fun _ => hl,(congrArg Inner.commitSeq hl).ge⟩
  | touched hg hs he hh => exact ⟨he.le,fun h => absurd h he.ne',hs.ge⟩
  | noted set h hset => exact ⟨h.epoch.le,fun he => absurd he h.epoch.ne',by rw [h.seq]; omega⟩
  | unnoted hg hs he hh hu => exact ⟨he.le,fun h => absurd h he.ne',hs.ge⟩

omit [JsonText] in
theorem LiveStep.graph {e e' : Engine} {ops : List GraphOp} (h : LiveStep e e' ops) :
    e'.live.graph = e.live.graph.applyAll ops := by
  cases h with
  | quiet hl he hh => rw [hl]; rfl
  | touched hg hs he hh => exact hg
  | noted set h hset => exact h.graph
  | unnoted hg hs he hh hu => exact hg

omit [JsonText] in
theorem LiveStep.held {e e' : Engine} {ops : List GraphOp} (h : LiveStep e e' ops)
    (hh : e.history.Held e.live.commitSeq) : e'.history.Held e'.live.commitSeq := by
  cases h with
  | quiet hl he hist => rwa [hl,hist]
  | touched hg hs he hist => rwa [hs,hist]
  | noted set h hset =>
    rw [h.seq,h.history]
    exact CommitHistory.push_held hh set
  | unnoted hg hs he hist hu => rwa [hs,hist]

theorem load_wf_mono {e e' : Engine} {s : Inner} (h : (e.load s).Wf) (hi : e.ids.Le e'.ids) :
    (e'.load s).Wf := h.of_agree rfl hi.1 hi.2

theorem SlotInv.advance {e e' : Engine} {slot : TxSlot} {ops : List GraphOp} (h : SlotInv e slot)
    (hl : LiveStep e e' ops) (hi : e.ids.Le e'.ids) : SlotInv e' slot where
  wf := load_wf_mono h.wf hi
  baseWf := load_wf_mono h.baseWf hi
  replay := h.replay
  epoch := h.epoch.trans hl.advance.1
  same := by
    intro he
    have hle := hl.advance.1
    have heq : slot.baseEpoch = e.epoch := le_antisymm h.epoch (he ▸ hle)
    rw [h.same heq,hl.advance.2.1 (he.symm.trans heq)]
  seq := h.seq.trans hl.advance.2.2

theorem Inv.of_section {e e' : Engine} {ops : List GraphOp} (h : Inv e) (hs : Section e e' ops) : Inv e' where
  live := hs.wf
  slots := by
    intro id slot hslot
    rw [hs.txs] at hslot
    obtain ⟨hi,hid⟩ := h.slots id slot hslot
    exact ⟨hi.advance hs.live hs.ids,hs.nextRegTx ▸ hid⟩
  history := hs.live.held h.history

theorem Inv.of_core {e e' : Engine} (h : Inv e) (hc : SameCore e e') : Inv e' :=
  h.of_section (.quiet h.live hc)

omit [JsonText] in
theorem get_erase_txs {e : Engine} {id i : ℕ} {slot : TxSlot} (h : (e.txs.erase id)[i]? = some slot) :
    e.txs[i]? = some slot := by
  rw [Map.get_erase] at h
  split_ifs at h
  exact h

theorem Inv.drop {e : Engine} (h : Inv e) (id : ℕ) : Inv { e with txs := e.txs.erase id } where
  live := h.live
  slots i slot hs := by
    obtain ⟨hi,hid⟩ := h.slots i slot (get_erase_txs hs)
    exact ⟨⟨hi.wf,hi.baseWf,hi.replay,hi.epoch,hi.same,hi.seq⟩,hid⟩
  history := h.history

/-! ## Transactions -/

theorem txBegin_inv {e : Engine} (h : Inv e) (isolation : Isolation) (limited : Bool) :
    Inv (e.txBegin isolation limited).2 where
  live := h.live
  slots := by
    intro id slot hs
    simp only [txBegin,Map.get_insert] at hs ⊢
    split_ifs at hs with hid
    · obtain rfl := Option.some.inj hs
      refine ⟨⟨h.live,h.live,Inner.Agree.refl _,le_rfl,fun _ => rfl,le_rfl⟩,hid.ge⟩
    · obtain ⟨hi,hle⟩ := h.slots id slot hs
      exact ⟨⟨hi.wf,hi.baseWf,hi.replay,hi.epoch,hi.same,hi.seq⟩,hle.trans (Nat.le_succ _)⟩
  history := h.history

/-- A write of a transaction buffers what it did to the private copy. -/
theorem txWrite_inv {e : Engine} (h : Inv e) (id : ℕ) (m : Mutation) : Inv (e.txWrite id m).2 := by
  unfold txWrite
  split
  · exact h
  · rename_i slot hslot
    split
    · exact h
    · obtain ⟨hs,hid⟩ := h.slots id slot hslot
      have hids := Inner.mutate_ids hs.wf m false
      have hwf := Inner.mutate_wf hs.wf m false
      have hw' := (e.load_agree slot.working).symm
      rcases hr : (e.load slot.working).mutate m false with ⟨r,t⟩
      rw [hr] at hids hwf
      refine ⟨load_wf_mono h.live hids,?_,h.history⟩
      intro i slot' hs'
      simp only [Map.get_insert] at hs'
      split_ifs at hs' with hi
      · obtain rfl := Option.some.inj hs'
        refine ⟨⟨hwf,load_wf_mono hs.baseWf hids,?_,hs.epoch,hs.same,hs.seq⟩,hi ▸ hid⟩
        have hrep := hs.replay.trans (e.load_agree slot.working)
        cases r with
        | ok op =>
          obtain rfl := Inner.mutate_ok hs.wf hr
          have happ : slot.base.applyOps (slot.ops ++ [op]) = (slot.base.applyOps slot.ops).applyOp op :=
            List.foldl_append
          simp only [happ]
          exact hrep.applyOp op
        | error err => exact hrep.trans (Inner.mutate_err hr).1
      · obtain ⟨hi',hle⟩ := h.slots i slot' hs'
        exact ⟨⟨load_wf_mono hi'.wf hids,load_wf_mono hi'.baseWf hids,hi'.replay,hi'.epoch,hi'.same,
          hi'.seq⟩,hle⟩

theorem SlotInv.graph {e : Engine} {slot : TxSlot} (h : SlotInv e slot) :
    slot.working.graph = slot.base.graph.applyAll slot.ops := by
  have hload : (slot.base.applyOps slot.ops).Agree ((e.load slot.base).applyOps slot.ops) :=
    (e.load_agree slot.base).applyOps slot.ops
  rw [← h.replay.graph,hload.graph]
  exact Inner.applyOps_graph h.baseWf slot.ops

theorem commitParts_section {e : Engine} (h : (e.load e.live).Wf) {slot : TxSlot} (hs : SlotInv e slot)
    (io : Bool) : Section e (e.commitParts slot io).2 (okOps (e.commitParts slot io).1 slot.ops) := by
  have hr := commitParts_result e slot io
  generalize e.commitParts slot io = r at hr
  obtain ⟨r,e'⟩ := r
  cases hr with
  | refused err e' ids hids hc hconflict =>
    refine .of_core (a := { e with ids := ids }) ⟨.quiet rfl rfl rfl,hids,?_,rfl,rfl⟩ hc
    exact h.of_agree rfl hids.1 hids.2
  | empty ho =>
    rw [ho]
    exact .quiet h (SameCore.refl _)
  | swapped e' hf he hv hp hc =>
    have hbase := hs.same he.symm
    refine (Section.noted (s := slot.working) e.ids hs.wf ?_ ?_ (IdCounters.Le.refl _)
      (Or.inl rfl)).of_core hc
    · rw [hs.graph,hbase]
      rfl
    · rw [hs.replay.commitSeq,(Inner.applyOps_schema slot.base slot.ops).commitSeq,hbase]
  | replayed e' hf he hcl hv hp hc => exact (Section.applied h slot.ops).of_core hc

theorem commitParts_schema {e : Engine} {slot : TxSlot} (hs : SlotInv e slot) (io : Bool) :
    (e.commitParts slot io).2.live.schema = e.live.schema := by
  have hr := commitParts_result e slot io
  generalize e.commitParts slot io = r at hr
  obtain ⟨r,e'⟩ := r
  cases hr with
  | refused err e' ids hids hc hconflict => exact congrArg Inner.schema hc.live
  | empty ho => rfl
  | swapped e' hf he hv hp hc =>
    have hlive : e'.live.schema = slot.working.schema := (congrArg Inner.schema hc.live).trans rfl
    rw [hlive,hs.replay.schema,(Inner.applyOps_schema slot.base slot.ops).schema,hs.same he.symm]
  | replayed e' hf he hcl hv hp hc =>
    have hlive : e'.live.schema = (e.merged slot).schema := (congrArg Inner.schema hc.live).trans rfl
    rw [hlive]
    exact (Inner.applyOps_schema (e.load e.live) slot.ops).schema

theorem txCommit_section {e : Engine} (h : Inv e) {id : ℕ} {slot : TxSlot} (hs : e.txs[id]? = some slot)
    (io : Bool) :
    Section { e with txs := e.txs.erase id } (e.txCommit id io).2 (okOps (e.txCommit id io).1 slot.ops) := by
  obtain ⟨hi,-⟩ := h.slots id slot hs
  have hi' : SlotInv { e with txs := e.txs.erase id } slot :=
    ⟨hi.wf,hi.baseWf,hi.replay,hi.epoch,hi.same,hi.seq⟩
  simp only [txCommit,hs]
  exact commitParts_section (e := { e with txs := e.txs.erase id }) h.live hi' io

theorem txCommit_none {e : Engine} {id : ℕ} (hs : e.txs[id]? = none) (io : Bool) :
    e.txCommit id io = (.error .unknownTransaction,e) := by
  simp only [txCommit,hs]

/-- Every action keeps the invariant. -/
theorem step_inv {e : Engine} (h : Inv e) (a : Action) : Inv (e.step a) := by
  cases a with
  | direct call w =>
    simp only [step]
    split_ifs
    · exact h
    · exact h.of_section (direct_section h.live call w).toSection
  | enqueue call encoded => exact h.of_core (enqueue_core e call encoded)
  | lead => exact h.of_core (by constructor <;> rfl)
  | finish io => exact h.of_core (by constructor <;> rfl)
  | await call => exact h.of_core (await_core e call)
  | batch w io => exact h.of_section (batch_section h.live w io).toSection
  | txBegin isolation limited => exact txBegin_inv h isolation limited
  | txWrite id m => exact txWrite_inv h id m
  | txCommit id io =>
    simp only [step]
    cases hs : e.txs[id]? with
    | none => exact txCommit_none hs io ▸ h
    | some slot => exact (h.drop id).of_section (txCommit_section h hs io)
  | txRollback id => exact h.drop id
  | txPrepare id gid now io =>
    simp only [step,txPrepare]
    split
    · exact h
    · exact (h.drop id).of_section
        (prepareParts_section (e := { e with txs := e.txs.erase id }) h.live _ gid now io)
  | commitPrepared gid io =>
    simp only [step]
    cases hg : e.live.prepared[gid]? with
    | none => rwa [commitPrepared_none hg]
    | some entry => exact h.of_section (commitPrepared_section h.live hg io)
  | rollbackPrepared gid heuristic io => exact h.of_section (rollbackPreparedAs_section h.live gid heuristic io)
  | addConstraint c => exact h.of_section (addConstraint_section h.live c)
  | removeConstraint c => exact h.of_section (removeConstraint_section h.live c)
  | applyDump call dump =>
    simp only [step]
    split_ifs
    · exact h
    · obtain ⟨ns,es,hs,-⟩ := applyDump_section h.live call dump
      exact h.of_section hs.toSection
  | deltaBegin id changes tomb => exact h.of_core (by constructor <;> rfl)
  | deltaStep id call current =>
    simp only [step]
    split_ifs
    · exact h
    · rcases deltaStep_section h.live id call current with ⟨-,ops,hs,-⟩ | ⟨edge,-,hs⟩
      · exact h.of_section hs.toSection
      · exact h.of_section hs.toSection

/-- An engine on an empty store, with its settings. -/
def new (capacity : ℕ) (readOnly : Bool) (maxTxWrites : Option ℕ) (durable : Bool) : Engine :=
  { history := { capacity := capacity }, readOnly := readOnly, maxTxWrites := maxTxWrites, durable := durable }

theorem new_inv (capacity : ℕ) (readOnly : Bool) (maxTxWrites : Option ℕ) (durable : Bool) :
    Inv (new capacity readOnly maxTxWrites durable) where
  live := Inner.empty_wf
  slots id slot h := by simp [new] at h
  history := CommitHistory.held_empty capacity

def openLog (capacity : ℕ) (readOnly : Bool) (maxTxWrites : Option ℕ) (log : List (List WalOp)) : Engine :=
  let live := ({} : Inner).applyWalOps log.flatten
  { live := live
    ids := live.ids
    history := { capacity := capacity }
    readOnly := readOnly
    maxTxWrites := maxTxWrites
    durable := true
    queue := { log := log } }

theorem openLog_inv (capacity : ℕ) (readOnly : Bool) (maxTxWrites : Option ℕ) (log : List (List WalOp)) :
    Inv (openLog capacity readOnly maxTxWrites log) where
  live := Inner.applyWalOps_wf Inner.empty_wf _
  slots id slot h := by simp [openLog] at h
  history := by
    simp only [openLog,Inner.applyWalOps_commitSeq]
    exact CommitHistory.held_empty capacity

theorem run_inv {e : Engine} (h : Inv e) (as : List Action) : Inv (e.run as) :=
  run_invariant (p := Inv) (q := fun _ _ => True) (fun _ a h _ => step_inv h a) h as (fun _ _ => trivial)

end Engine
end Drevo
