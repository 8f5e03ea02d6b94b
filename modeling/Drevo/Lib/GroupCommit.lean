import Mathlib

/-! Group commit: writers put records in a queue, one leader at a time takes what is queued
and flushes it as a group, and a failed flush makes the log unusable. Whatever the
interleaving, the log grows in the order the records were queued in. -/
namespace Lib

variable {α : Type*}

/-- The queue with the log it feeds. Sequence numbers start at one, so that a durable
sequence of zero means that nothing is durable yet. -/
structure GroupQueue (α : Type*) where
  pending : List (ℕ × α) := []
  nextSeq : ℕ := 1
  durableSeq : ℕ := 0
  batch : Option (List (ℕ × α)) := none
  broken : Bool := false
  log : List α := []

namespace GroupQueue

/-- Queue a record under the next sequence number, unless the log is broken. -/
def enqueue (q : GroupQueue α) (a : α) : Option (ℕ × GroupQueue α) :=
  if q.broken then none
  else some (q.nextSeq,{ q with pending := q.pending ++ [(q.nextSeq,a)], nextSeq := q.nextSeq+1 })

/-- Become the leader and take everything queued. -/
def lead (q : GroupQueue α) : GroupQueue α :=
  if q.broken || q.batch.isSome then q else { q with batch := some q.pending, pending := [] }

/-- The leader's flush ends: the batch is in the log, or the log is broken. -/
def finish (q : GroupQueue α) (io : Bool) : GroupQueue α :=
  match q.batch with
  | none => q
  | some batch =>
    if io then
      { q with
        batch := none
        log := q.log ++ batch.map Prod.snd
        durableSeq := match batch.getLast? with
          | some last => max q.durableSeq last.1
          | none => q.durableSeq }
    else { q with batch := none, broken := true }

/-- Queue a record and stay until it is durable: a flush under way ends first, then the
caller leads the next one. -/
def commit (q : GroupQueue α) (a : α) (io : Bool) : Bool × GroupQueue α :=
  match q.enqueue a with
  | none => (false,q)
  | some (seq,q) =>
    let q := ((q.finish io).lead).finish io
    (q.durableSeq ≥ seq,q)

/-- The records on their way, in the order they were queued in. -/
def inFlight (q : GroupQueue α) : List (ℕ × α) := q.batch.getD [] ++ q.pending

/-- The log and what is on its way to it. -/
def order (q : GroupQueue α) : List α := q.log ++ q.inFlight.map Prod.snd

/-- Sequence numbers on their way are strictly increasing, past what is durable and below
the next one to hand out. -/
structure Ordered (q : GroupQueue α) : Prop where
  sorted : (q.inFlight.map Prod.fst).Pairwise (· < ·)
  above : ∀ p ∈ q.inFlight, q.durableSeq < p.1
  below : ∀ p ∈ q.inFlight, p.1 < q.nextSeq
  durable : q.durableSeq < q.nextSeq

/-- Nothing is on its way and the log is usable. -/
structure Idle (q : GroupQueue α) : Prop where
  pending : q.pending = []
  batch : q.batch = none
  broken : q.broken = false
  durable : q.durableSeq < q.nextSeq

theorem idle_new (log : List α) : Idle { log := log } := by
  constructor <;> simp

theorem commit_idle {q : GroupQueue α} (h : Idle q) (a : α) :
    (q.commit a true).1 = true ∧ Idle (q.commit a true).2 ∧ (q.commit a true).2.log = q.log ++ [a] := by
  obtain ⟨hp,hb,hbr,hd⟩ := h
  have hq : q.commit a true = (true,{ q with
      pending := [], nextSeq := q.nextSeq+1, durableSeq := max q.durableSeq q.nextSeq, batch := none
      log := q.log ++ [a] }) := by
    simp [commit,enqueue,finish,lead,hp,hb,hbr]
  rw [hq]
  refine ⟨rfl,⟨rfl,rfl,hbr,?_⟩,rfl⟩
  exact max_lt (hd.trans (Nat.lt_succ_self _)) (Nat.lt_succ_self _)

theorem ordered_new (log : List α) : Ordered { log := log } := by
  constructor <;> simp [inFlight]

theorem enqueue_eq {q q' : GroupQueue α} {a : α} {seq : ℕ} (h : q.enqueue a = some (seq,q')) :
    q.broken = false ∧ seq = q.nextSeq ∧
      q' = { q with pending := q.pending ++ [(q.nextSeq,a)], nextSeq := q.nextSeq+1 } := by
  unfold enqueue at h
  split_ifs at h with hb
  · simp only [Option.some.injEq,Prod.mk.injEq] at h
    exact ⟨by simpa using hb,h.1.symm,h.2.symm⟩

theorem enqueue_inFlight {q q' : GroupQueue α} {a : α} {seq : ℕ} (h : q.enqueue a = some (seq,q')) :
    q'.inFlight = q.inFlight ++ [(seq,a)] := by
  obtain ⟨-,rfl,rfl⟩ := enqueue_eq h
  simp [inFlight]

theorem enqueue_order {q q' : GroupQueue α} {a : α} {seq : ℕ} (h : q.enqueue a = some (seq,q')) :
    q'.order = q.order ++ [a] := by
  have hf := enqueue_inFlight h
  obtain ⟨-,rfl,rfl⟩ := enqueue_eq h
  simp [order,hf]

theorem enqueue_ordered {q q' : GroupQueue α} {a : α} {seq : ℕ} (ho : Ordered q)
    (h : q.enqueue a = some (seq,q')) : Ordered q' := by
  have hf := enqueue_inFlight h
  obtain ⟨-,rfl,rfl⟩ := enqueue_eq h
  refine ⟨?_,?_,?_,?_⟩
  · rw [hf,List.map_append,List.pairwise_append]
    refine ⟨ho.sorted,by simp,?_⟩
    intro i hi j hj
    obtain ⟨p,hp,rfl⟩ := List.mem_map.mp hi
    obtain rfl : j = q.nextSeq := by simpa using hj
    exact ho.below p hp
  · rw [hf]
    intro p hp
    rcases List.mem_append.mp hp with hp | hp
    · exact ho.above p hp
    · obtain rfl : p = (q.nextSeq,a) := by simpa using hp
      exact ho.durable
  · rw [hf]
    intro p hp
    rcases List.mem_append.mp hp with hp | hp
    · exact (ho.below p hp).trans (Nat.lt_succ_self _)
    · obtain rfl : p = (q.nextSeq,a) := by simpa using hp
      exact Nat.lt_succ_self _
  · exact ho.durable.trans (Nat.lt_succ_self _)

theorem lead_inFlight (q : GroupQueue α) : q.lead.inFlight = q.inFlight := by
  unfold lead
  split_ifs with h
  · rfl
  · simp only [Bool.or_eq_true,not_or,Bool.not_eq_true,Option.isSome_eq_false_iff,
      Option.isNone_iff_eq_none] at h
    simp [inFlight,h.2]

theorem lead_frame (q : GroupQueue α) :
    q.lead.log = q.log ∧ q.lead.nextSeq = q.nextSeq ∧ q.lead.durableSeq = q.durableSeq ∧
      q.lead.broken = q.broken := by
  unfold lead
  split_ifs <;> exact ⟨rfl,rfl,rfl,rfl⟩

theorem lead_order (q : GroupQueue α) : q.lead.order = q.order := by
  rw [order,order,lead_inFlight,(lead_frame q).1]

theorem lead_ordered {q : GroupQueue α} (h : Ordered q) : Ordered q.lead := by
  obtain ⟨-,hn,hd,-⟩ := lead_frame q
  constructor
  · rw [lead_inFlight]; exact h.sorted
  · rw [lead_inFlight,hd]; exact h.above
  · rw [lead_inFlight,hn]; exact h.below
  · rw [hd,hn]; exact h.durable

theorem finish_order (q : GroupQueue α) : (q.finish true).order = q.order := by
  cases hb : q.batch with
  | none => simp [finish,hb]
  | some batch => simp [finish,hb,order,inFlight]

theorem mem_finish_order {q : GroupQueue α} {io : Bool} {a : α} (h : a ∈ (q.finish io).order) : a ∈ q.order := by
  cases io with
  | true => rwa [finish_order] at h
  | false =>
    cases hb : q.batch with
    | none => simpa [finish,hb] using h
    | some batch =>
      simp only [finish,hb,order,inFlight,Bool.false_eq_true,if_false,Option.getD_none,Option.getD_some,List.nil_append,
        List.map_append,List.mem_append] at h ⊢
      tauto

theorem mem_commit_order {q : GroupQueue α} {io : Bool} {a b : α} (h : b ∈ (q.commit a io).2.order) :
    b ∈ q.order ∨ b = a := by
  unfold commit at h
  cases he : q.enqueue a with
  | none =>
    simp only [he] at h
    exact Or.inl h
  | some p =>
    obtain ⟨seq,q'⟩ := p
    simp only [he] at h
    have hq' := mem_finish_order (lead_order (q'.finish io) ▸ mem_finish_order h)
    rw [enqueue_order he,List.mem_append,List.mem_singleton] at hq'
    exact hq'

theorem finish_ordered {q : GroupQueue α} (h : Ordered q) : Ordered (q.finish true) := by
  cases hb : q.batch with
  | none => simpa [finish,hb] using h
  | some batch =>
    have hf : q.inFlight = batch ++ q.pending := by simp [inFlight,hb]
    have hs := h.sorted
    rw [hf,List.map_append,List.pairwise_append] at hs
    -- the new durable sequence is that of the last record of the batch, if there is one
    have hd : ∀ n, q.durableSeq < n → (∀ p ∈ batch, p.1 < n) → (q.finish true).durableSeq < n := by
      intro n hn hp
      simp only [finish,hb,if_true]
      cases hl : batch.getLast? with
      | none => exact hn
      | some last => exact max_lt hn (hp last (List.mem_of_getLast? hl))
    refine ⟨?_,?_,?_,?_⟩
    · simpa [finish,hb,inFlight] using hs.2.1
    · intro p hp
      have hp' : p ∈ q.pending := by simpa [finish,hb,inFlight] using hp
      apply hd
      · exact h.above p (by simp [hf,hp'])
      · exact fun r hr => hs.2.2 r.1 (List.mem_map_of_mem hr) p.1 (List.mem_map_of_mem hp')
    · intro p hp
      have hp' : p ∈ q.pending := by simpa [finish,hb,inFlight] using hp
      have hlt := h.below p (by simp [hf,hp'])
      simpa [finish,hb] using hlt
    · have hnext : (q.finish true).nextSeq = q.nextSeq := by simp [finish,hb]
      rw [hnext]
      exact hd _ h.durable (fun p hp => h.below p (by simp [hf,hp]))

/-! ## Commits while others are on their way -/

/-- Every number handed out is below the next one, and nobody leads a broken log. -/
structure Numbered (q : GroupQueue α) : Prop where
  below : ∀ p ∈ q.inFlight, p.1 < q.nextSeq
  durable : q.durableSeq < q.nextSeq
  halted : q.broken = true → q.batch = none

theorem numbered_new (log : List α) : Numbered { log := log } := by
  constructor <;> simp [inFlight]

theorem Numbered.enqueue {q q' : GroupQueue α} {a : α} {seq : ℕ} (h : Numbered q)
    (he : q.enqueue a = some (seq,q')) : Numbered q' := by
  have hf := enqueue_inFlight he
  obtain ⟨-,rfl,rfl⟩ := enqueue_eq he
  refine ⟨?_,h.durable.trans (Nat.lt_succ_self _),h.halted⟩
  rw [hf]
  intro p hp
  rcases List.mem_append.mp hp with hp | hp
  · exact (h.below p hp).trans (Nat.lt_succ_self _)
  · obtain rfl : p = (q.nextSeq,a) := by simpa using hp
    exact Nat.lt_succ_self _

theorem Numbered.lead {q : GroupQueue α} (h : Numbered q) : Numbered q.lead := by
  obtain ⟨-,hn,hd,-⟩ := lead_frame q
  refine ⟨?_,?_,?_⟩
  · rw [lead_inFlight,hn]
    exact h.below
  · rw [hd,hn]
    exact h.durable
  · unfold GroupQueue.lead
    split_ifs with hb
    · exact h.halted
    · intro hbr
      exact absurd (by simp [show q.broken = true from hbr]) hb

theorem Numbered.finish {q : GroupQueue α} (h : Numbered q) (io : Bool) : Numbered (q.finish io) := by
  cases hb : q.batch with
  | none => simpa [GroupQueue.finish,hb] using h
  | some batch =>
    have hf : q.inFlight = batch ++ q.pending := by simp [inFlight,hb]
    have hrest : ∀ p ∈ (q.finish io).inFlight, p.1 < q.nextSeq := by
      intro p hp
      have hp' : p ∈ q.pending := by cases io <;> simpa [GroupQueue.finish,hb,inFlight] using hp
      exact h.below p (by simp [hf,hp'])
    have hhalted : (q.finish io).batch = none := by cases io <;> simp [GroupQueue.finish,hb]
    cases io with
    | false =>
      exact ⟨by simpa [GroupQueue.finish,hb] using hrest,by simpa [GroupQueue.finish,hb] using h.durable,
        fun _ => hhalted⟩
    | true =>
      refine ⟨by simpa [GroupQueue.finish,hb] using hrest,?_,fun _ => hhalted⟩
      simp only [GroupQueue.finish,hb,if_true]
      cases hl : batch.getLast? with
      | none => exact h.durable
      | some last => exact max_lt h.durable (h.below last (by simp [hf,List.mem_of_getLast? hl]))

theorem Numbered.commit {q : GroupQueue α} (h : Numbered q) (a : α) (io : Bool) : Numbered (q.commit a io).2 := by
  unfold GroupQueue.commit
  cases he : q.enqueue a with
  | none => exact h
  | some p => exact (((h.enqueue he).finish io).lead).finish io

theorem commit_true {q : GroupQueue α} (h : Numbered q) {a : α} {io : Bool} (hc : (q.commit a io).1 = true) :
    q.broken = false ∧ (q.commit a io).2.broken = false ∧ (q.commit a io).2.inFlight = [] ∧
      (q.commit a io).2.log = q.log ++ q.inFlight.map Prod.snd ++ [a] := by
  unfold commit at hc ⊢
  cases he : q.enqueue a with
  | none => simp [he] at hc
  | some p =>
    obtain ⟨seq,q'⟩ := p
    obtain ⟨hbr,rfl,rfl⟩ := enqueue_eq he
    simp only [he] at hc ⊢
    cases io with
    | true => cases hb : q.batch <;> simp [finish,lead,hb,hbr,inFlight]
    | false =>
      have hd : ¬ q.durableSeq ≥ q.nextSeq := Nat.not_le.mpr h.durable
      cases hb : q.batch <;> simp [finish,lead,hb,hbr,hd] at hc

theorem commit_false {q : GroupQueue α} {a : α} {io : Bool} (hc : (q.commit a io).1 = false) :
    (q.commit a io).2.broken = true ∧ (q.commit a io).2.log = q.log := by
  unfold commit at hc ⊢
  cases he : q.enqueue a with
  | none =>
    have hbr : q.broken = true := by
      unfold enqueue at he
      split_ifs at he with hbr
      exact hbr
    exact ⟨hbr,rfl⟩
  | some p =>
    obtain ⟨seq,q'⟩ := p
    obtain ⟨hbr,rfl,rfl⟩ := enqueue_eq he
    simp only [he] at hc ⊢
    cases io with
    | false => cases q.batch <;> simp [finish,lead,hbr]
    | true => cases hb : q.batch <;> simp [finish,lead,hb,hbr] at hc

theorem commit_iff {q : GroupQueue α} (h : Numbered q) (a : α) (io : Bool) :
    (q.commit a io).1 = true ↔ q.broken = false ∧ io = true := by
  constructor
  · intro hc
    obtain ⟨hbr,hbr',-⟩ := commit_true h hc
    refine ⟨hbr,?_⟩
    by_contra hio
    obtain rfl : io = false := by simpa using hio
    cases hb : q.batch <;> simp [commit,enqueue,finish,lead,hb,hbr] at hbr'
  · rintro ⟨hbr,rfl⟩
    by_contra hc
    obtain ⟨hbr',-⟩ := commit_false (by simpa using hc : (q.commit a true).1 = false)
    cases hb : q.batch <;> simp [commit,enqueue,finish,lead,hb,hbr] at hbr'

end GroupQueue
end Lib
