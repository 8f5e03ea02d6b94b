import Drevo.Core.Calls

/-! Cursors across restarts. A store with a log that is opened again starts its feed empty, at the
number of entries it recovered, and not at the number the feed had reached. -/
namespace Drevo
open Lib

/-- A step of a store while it is open, a compaction of its log, or closing it and opening it
again. -/
inductive StoreStep where
  | step (a : SourceStep)
  | compactWal
  | reopen (capacity : ℕ) (readOnly : Bool) (maxTxWrites : Option ℕ)

/-- The store stays open. -/
def StoreStep.stays : StoreStep → Bool
  | .step _ => true
  | .compactWal => true
  | .reopen _ _ _ => false

namespace Source
variable [JsonText]

omit [JsonText] in
/-- Rewrite the log as the live state, one entry a record. Neither the graph nor the feed changes. -/
def compactWal (s : Source) : Source :=
  if !s.engine.durable || s.engine.readOnly then s
  else
    { s with engine := { s.engine with queue := { s.engine.queue with
        log := s.engine.live.toWalOps.map (fun op => [op]) } } }

def storeStep (s : Source) : StoreStep → Source
  | .step a => s.step a
  | .compactWal => s.compactWal
  | .reopen capacity readOnly maxTxWrites => .opened capacity readOnly maxTxWrites (some s.engine.queue.log)

def storeRun (s : Source) (as : List StoreStep) : Source := as.foldl storeStep s

/-- The changes in the records that a step appends to the log. -/
def commits (s : Source) : StoreStep → List GraphOp
  | .step (.act a) => ((s.engine.step a).queue.log.drop s.engine.queue.log.length).flatten.flatMap s.engine.feedOps
  | _ => []

/-- The changes that steps commit, in commit order. -/
def committedBy (s : Source) : List StoreStep → List GraphOp
  | [] => []
  | a :: as => s.commits a ++ (s.storeStep a).committedBy as

omit [JsonText] in
/-- A cursor that the store hands out: the head, or the one that comes with a batch. -/
def HandsOut (s : Source) (cursor : ℕ) : Prop :=
  cursor = s.feed.changeHead ∨ ∃ since, cursor = (s.feed.changesSince since).cursor

/-- A cursor obtained now still means the same after `as`: it is told to be stale, it is one that the
store has not reached, or it stands for the changes committed since. -/
def CursorHolds (s : Source) (cursor : ℕ) (as : List StoreStep) : Prop :=
  let feed := (s.storeRun as).feed
  (feed.changesSince cursor).lagged = true ∨ feed.changeHead < cursor ∨
    (feed.changesSince cursor).ops = (s.committedBy as).map .graph

omit [JsonText] in
theorem handsOut_iff {s : Source} {cursor : ℕ} : s.HandsOut cursor ↔ cursor = s.feed.changeHead := by
  constructor
  · rintro (h | ⟨since,h⟩)
    · exact h
    · rw [h,Feed.changesSince_cursor]
  · exact Or.inl

theorem storeRun_append (s : Source) (as bs : List StoreStep) : s.storeRun (as ++ bs) = (s.storeRun as).storeRun bs :=
  List.foldl_append

theorem committedBy_append (s : Source) (as bs : List StoreStep) :
    s.committedBy (as ++ bs) = s.committedBy as ++ (s.storeRun as).committedBy bs := by
  induction as generalizing s with
  | nil => rfl
  | cons a as ih => simp [committedBy,storeRun,ih]

/-! ## While the store is open -/

/-- A store with a log, in any state it can be in. -/
structure Open (s : Source) : Prop extends Inv s where
  durable : s.engine.durable = true

theorem opened_open (capacity : ℕ) (readOnly : Bool) (maxTxWrites : Option ℕ) (log : List (List WalOp)) :
    Open (opened capacity readOnly maxTxWrites (some log)) :=
  ⟨opened_inv capacity readOnly maxTxWrites (some log),rfl⟩

theorem compactWal_open {s : Source} (h : Open s) : Open s.compactWal := by
  unfold compactWal
  split_ifs
  · exact h
  · refine ⟨⟨h.engine.of_core (by constructor <;> rfl),?_,h.records,h.names,h.named,h.logged,h.unlogged,h.changes⟩,
      h.durable⟩
    exact ⟨h.numbered.below,h.numbered.durable,h.numbered.halted⟩

theorem storeStep_open {s : Source} (h : Open s) (a : StoreStep) : Open (s.storeStep a) := by
  cases a with
  | step a => exact ⟨step_inv h.toInv a,(step_durable h.toInv a).trans h.durable⟩
  | compactWal => exact compactWal_open h
  | reopen capacity readOnly maxTxWrites => exact opened_open capacity readOnly maxTxWrites _

theorem storeRun_open {s : Source} (h : Open s) (as : List StoreStep) : Open (s.storeRun as) := by
  induction as generalizing s with
  | nil => exact h
  | cons a as ih => exact ih (storeStep_open h a)

theorem storeStep_numbers {s : Source} (h : Open s) {a : StoreStep} (ha : a.stays = true) {base : ℕ} {all : List WalOp}
    (hn : s.feed.Numbers base all) : (s.storeStep a).feed.Numbers base (all ++ (s.commits a).map .graph) := by
  cases a with
  | compactWal =>
    have hfeed : s.compactWal.feed = s.feed := by
      unfold compactWal
      split <;> rfl
    simp only [storeStep,commits,hfeed,List.map_nil,List.append_nil]
    exact hn
  | reopen capacity readOnly maxTxWrites => cases ha
  | step a =>
    cases a with
    | act a =>
      simp only [storeStep,step,if_pos h.durable]
      exact hn.publish _
    | publish call =>
      simp only [storeStep,commits,step_publish_none (h.logged h.durable),List.map_nil,List.append_nil]
      exact hn
    | trimBefore cursor =>
      simp only [storeStep,step,commits,List.map_nil,List.append_nil]
      exact hn.trimBefore cursor

theorem storeRun_numbers {s : Source} (h : Open s) {as : List StoreStep} (has : ∀ a ∈ as, a.stays = true) {base : ℕ}
    (all : List WalOp) (hn : s.feed.Numbers base all) :
    (s.storeRun as).feed.Numbers base (all ++ (s.committedBy as).map .graph) := by
  induction as generalizing s all with
  | nil => simpa [storeRun,committedBy] using hn
  | cons a as ih =>
    have hstep := storeStep_numbers h (has a (by simp)) hn
    have hrest := ih (storeStep_open h a) (fun b hb => has b (by simp [hb])) _ hstep
    simpa [committedBy,storeRun] using hrest

theorem open_holds {s : Source} (h : Open s) {as : List StoreStep} (has : ∀ a ∈ as, a.stays = true) :
    s.CursorHolds s.feed.changeHead as := by
  have hn := storeRun_numbers h has _ s.feed.numbers_self
  by_cases hlag : s.feed.changeHead < (s.storeRun as).feed.startSeq
  · exact Or.inl ((Feed.changesSince_lagged _ _).mpr hlag)
  · obtain ⟨-,hops⟩ := hn.changesSince s.feed.changeHead (by omega) (by
      rw [List.length_append,← Nat.add_assoc]
      exact Nat.le_add_right _ _)
    refine Or.inr (Or.inr ?_)
    rw [hops,Feed.changeHead,Nat.add_sub_cancel_left,List.drop_left]

theorem storeStep_grows {s : Source} {a : StoreStep} (ha : a.stays = true) (hc : s.commits a ≠ []) :
    (s.storeStep a).feed.startSeq = s.feed.startSeq := by
  cases a with
  | compactWal => exact absurd rfl hc
  | reopen capacity readOnly maxTxWrites => cases ha
  | step a =>
    cases a with
    | act a =>
      simp only [storeStep,step]
      split <;> rfl
    | publish call => exact absurd rfl hc
    | trimBefore cursor => exact absurd rfl hc

/-! ## Behind a restart -/

/-- A restarted store that has committed `later` gives the numbers from the recovered count up to the
head for a second time. `cursor` is one of them, and not as the place where the store was closed. -/
def Reissues (s : Source) (recovered cursor : ℕ) (missed : List GraphOp) (later : List StoreStep) : Prop :=
  recovered ≤ cursor ∧ cursor ≤ recovered+(s.committedBy later).length ∧ (cursor = recovered → missed ≠ [])

theorem restarted_ops {s : Source} (h : Open s) {recovered : ℕ} (cursor : ℕ) {later : List StoreStep}
    (hfeed : s.feed = { startSeq := recovered }) (hstay : ∀ a ∈ later, a.stays = true)
    (hstart : (s.storeRun later).feed.startSeq ≤ cursor)
    (hhead : cursor ≤ recovered+(s.committedBy later).length) :
    ((s.storeRun later).feed.changesSince cursor).lagged = false ∧
      ((s.storeRun later).feed.changesSince cursor).ops =
        ((s.committedBy later).map WalOp.graph).drop (cursor-recovered) := by
  have hn : s.feed.Numbers recovered [] := by
    rw [hfeed]
    exact Feed.numbers_self _
  have hrun := storeRun_numbers h hstay [] hn
  rw [List.nil_append] at hrun
  exact hrun.changesSince cursor hstart (by simpa using hhead)

theorem restarted_head {s : Source} (h : Open s) {recovered : ℕ} {later : List StoreStep}
    (hfeed : s.feed = { startSeq := recovered }) (hstay : ∀ a ∈ later, a.stays = true) :
    (s.storeRun later).feed.changeHead = recovered+(s.committedBy later).length := by
  have hn : s.feed.Numbers recovered [] := by
    rw [hfeed]
    exact Feed.numbers_self _
  have hrun := storeRun_numbers h hstay [] hn
  rw [hrun.changeHead]
  simp

theorem reached {s : Source} {recovered cursor : ℕ} (hfeed : s.feed = { startSeq := recovered })
    (hbase : recovered ≤ cursor) {later : List StoreStep} (hstay : ∀ a ∈ later, a.stays = true) (h : Open s)
    (hhead : cursor ≤ recovered+(s.committedBy later).length) :
    ∃ first rest, later = first ++ rest ∧ cursor ≤ recovered+(s.committedBy first).length ∧
      (s.storeRun first).feed.startSeq ≤ cursor := by
  induction later using List.reverseRecOn with
  | nil =>
    refine ⟨[],[],rfl,hhead,?_⟩
    rw [storeRun,List.foldl_nil,hfeed]
    exact hbase
  | append_singleton later a ih =>
    have hstay' : ∀ b ∈ later, b.stays = true := fun b hb => hstay b (by simp [hb])
    by_cases hc : cursor ≤ recovered+(s.committedBy later).length
    · obtain ⟨first,rest,rfl,hfirst,hstart⟩ := ih hstay' hc
      exact ⟨first,rest ++ [a],by simp,hfirst,hstart⟩
    · -- the last step commits something, so that it does not trim
      refine ⟨later ++ [a],[],by simp,hhead,?_⟩
      have hsome : (s.storeRun later).commits a ≠ [] := by
        intro hnone
        rw [committedBy_append] at hhead
        simp only [committedBy,hnone,List.append_nil] at hhead
        exact hc hhead
      have hle := (s.storeRun later).feed.startSeq_le_changeHead
      rw [restarted_head h hfeed hstay'] at hle
      rw [storeRun_append]
      have hsame := storeStep_grows (hstay a (by simp)) hsome
      have hone : (s.storeRun later).storeRun [a] = (s.storeRun later).storeStep a := rfl
      rw [hone,hsame]
      omega

omit [JsonText] in
theorem last_reopen (as : List StoreStep) : (∀ a ∈ as, a.stays = true) ∨
    ∃ mid r later, as = mid ++ r :: later ∧ r.stays = false ∧ ∀ a ∈ later, a.stays = true := by
  induction as with
  | nil => exact Or.inl (by simp)
  | cons a as ih =>
    obtain h | ⟨mid,r,later,rfl,hr,hl⟩ := ih
    · cases ha : a.stays with
      | true => exact Or.inl (by simpa [ha] using h)
      | false => exact Or.inr ⟨[],a,as,rfl,ha,h⟩
    · exact Or.inr ⟨a :: mid,r,later,rfl,hr,hl⟩

theorem reopen_feed (s : Source) {r : StoreStep} (hr : r.stays = false) :
    (s.storeStep r).feed = { startSeq := recovered (s.storeStep r).engine.live } := by
  cases r with
  | reopen capacity readOnly maxTxWrites => rfl
  | _ => cases hr

/-- A cursor of an earlier opening keeps its meaning now, unless its number was given again. -/
theorem restarted_holds {s : Source} (h : Open s) {mid later : List StoreStep} {r : StoreStep} (hr : r.stays = false)
    (hstay : ∀ a ∈ later, a.stays = true)
    (hnot : ¬ ((s.storeRun mid).storeStep r).Reissues (recovered ((s.storeRun mid).storeStep r).engine.live)
      s.feed.changeHead (s.committedBy mid) later) : s.CursorHolds s.feed.changeHead (mid ++ r :: later) := by
  set t := (s.storeRun mid).storeStep r with ht
  have hopen : Open t := storeStep_open (storeRun_open h mid) r
  have hfeed := reopen_feed (s.storeRun mid) hr
  rw [← ht] at hfeed
  have hrun : s.storeRun (mid ++ r :: later) = t.storeRun later := by
    rw [storeRun_append]
    rfl
  have hcommit : s.committedBy (mid ++ r :: later) = s.committedBy mid ++ t.committedBy later := by
    rw [committedBy_append]
    have hnone : (s.storeRun mid).commits r = [] := by
      cases r with
      | reopen capacity readOnly maxTxWrites => rfl
      | _ => cases hr
    simp only [committedBy,hnone,List.nil_append]
    rfl
  simp only [CursorHolds,hrun,hcommit]
  by_cases hlag : s.feed.changeHead < (t.storeRun later).feed.startSeq
  · exact Or.inl ((Feed.changesSince_lagged _ _).mpr hlag)
  by_cases hhead : (t.storeRun later).feed.changeHead < s.feed.changeHead
  · exact Or.inr (Or.inl hhead)
  have hnum := restarted_head hopen hfeed hstay
  have hwin : recovered t.engine.live ≤ (t.storeRun later).feed.startSeq :=
    (storeRun_numbers hopen hstay [] (by rw [hfeed]; exact Feed.numbers_self _)).floor
  obtain ⟨-,hops⟩ := restarted_ops hopen s.feed.changeHead hfeed hstay (by omega) (by omega)
  refine Or.inr (Or.inr ?_)
  have heq : s.feed.changeHead = recovered t.engine.live ∧ s.committedBy mid = [] := by
    by_contra hne
    refine hnot ⟨by omega,by omega,?_⟩
    intro hc hmissed
    exact hne ⟨hc,hmissed⟩
  obtain ⟨hc,hmissed⟩ := heq
  rw [hops,hmissed,hc,Nat.sub_self,List.drop_zero,List.nil_append]

/-- A cursor whose number is given again is answered with too few changes. -/
theorem reissued_fails {s : Source} (h : Open s) {mid later : List StoreStep} {r : StoreStep} (hr : r.stays = false)
    (hstay : ∀ a ∈ later, a.stays = true)
    (hre : ((s.storeRun mid).storeStep r).Reissues (recovered ((s.storeRun mid).storeStep r).engine.live)
      s.feed.changeHead (s.committedBy mid) later) :
    ∃ first rest, later = first ++ rest ∧ ¬ s.CursorHolds s.feed.changeHead (mid ++ r :: first) := by
  set t := (s.storeRun mid).storeStep r with ht
  have hopen : Open t := storeStep_open (storeRun_open h mid) r
  have hfeed := reopen_feed (s.storeRun mid) hr
  rw [← ht] at hfeed
  obtain ⟨hbase,hhead,hmissed⟩ := hre
  obtain ⟨first,rest,rfl,hfirst,hstart⟩ := reached hfeed hbase hstay hopen hhead
  refine ⟨first,rest,rfl,?_⟩
  have hstay' : ∀ a ∈ first, a.stays = true := fun a ha => hstay a (by simp [ha])
  have hrun : s.storeRun (mid ++ r :: first) = t.storeRun first := by
    rw [storeRun_append]
    rfl
  have hlen : (s.committedBy (mid ++ r :: first)).length =
      (s.committedBy mid).length+(t.committedBy first).length := by
    rw [committedBy_append]
    have hnone : (s.storeRun mid).commits r = [] := by
      cases r with
      | reopen capacity readOnly maxTxWrites => rfl
      | _ => cases hr
    simp only [committedBy,hnone,List.nil_append,List.length_append]
    rfl
  obtain ⟨hlag,hops⟩ := restarted_ops hopen _ hfeed hstay' hstart hfirst
  simp only [CursorHolds,hrun]
  rintro (hl | hl | hl)
  · rw [hlag] at hl
    cases hl
  · rw [restarted_head hopen hfeed hstay'] at hl
    omega
  · have hcount := congrArg List.length (hops.symm.trans hl)
    rw [List.length_drop,List.length_map,List.length_map,hlen] at hcount
    have hnone : (s.committedBy mid).length = 0 := by omega
    exact hmissed (by omega) (List.length_eq_zero_iff.mp hnone)

end Source

section Sample
attribute [local instance] Json.compactText

/-- A node is created and deleted. -/
def createAndDelete : List StoreStep :=
  [.step (.act (.batch (.createNodes [(.titled "n" "a",⟨10,1#128⟩)]) true)),.step (.act (.batch (.deleteNodes [1]) true))]

/-- The store is opened again and two nodes are created. -/
def reopenAndCreate : List StoreStep :=
  [.reopen 4 false none,.step (.act (.batch (.createNodes [(.titled "n" "b",⟨20,2#128⟩)]) true)),
    .step (.act (.batch (.createNodes [(.titled "n" "c",⟨21,3#128⟩)]) true))]

end Sample
end Drevo
