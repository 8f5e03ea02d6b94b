import Mathlib

/-! Matchings of proposers to acceptors that rank each other, and what deferred acceptance keeps: a proposer that was
turned away has no stable matching with the acceptor that did so. -/
namespace Lib

/-- The lists of both sides, best first. Only the first mention of each counts. -/
structure Market (P A : Type*) where
  proposer : P → List A
  acceptor : A → List P

variable {P A : Type*} [DecidableEq P] [DecidableEq A]

namespace Market
variable (m : Market P A)

/-- Each lists the other. -/
def Accepts (p : P) (a : A) : Prop := a ∈ m.proposer p ∧ p ∈ m.acceptor a

/-- The proposer would rather have the one acceptor than the other. -/
def ProposerPrefers (p : P) (a b : A) : Prop := (m.proposer p).idxOf a < (m.proposer p).idxOf b

def AcceptorPrefers (a : A) (p q : P) : Prop := (m.acceptor a).idxOf p < (m.acceptor a).idxOf q

/-- Both would rather have each other than whom they have. -/
structure Blocks (μ : P → A → Prop) (p : P) (a : A) : Prop where
  accepts : m.Accepts p a
  apart : ¬ μ p a
  proposer : ∀ b, μ p b → m.ProposerPrefers p a b
  acceptor : ∀ q, μ q a → m.AcceptorPrefers a p q

/-- A one-to-one matching of pairs that accept each other, and no pair blocks it. -/
structure Stable (μ : P → A → Prop) : Prop where
  accepts : ∀ p a, μ p a → m.Accepts p a
  acceptor : ∀ p a b, μ p a → μ p b → a = b
  proposer : ∀ p q a, μ p a → μ q a → p = q
  unblocked : ∀ p a, ¬ m.Blocks μ p a

variable {m} {μ ν : P → A → Prop} {p q : P} {a b : A}

omit [DecidableEq P] in
theorem ProposerPrefers.total (h : m.Accepts p a) (hne : a ≠ b) : m.ProposerPrefers p a b ∨ m.ProposerPrefers p b a :=
  lt_or_gt_of_ne (fun heq => hne ((List.idxOf_inj h.1).mp heq))

omit [DecidableEq A] in
theorem AcceptorPrefers.total (h : m.Accepts p a) (hne : p ≠ q) : m.AcceptorPrefers a p q ∨ m.AcceptorPrefers a q p :=
  lt_or_gt_of_ne (fun heq => hne ((List.idxOf_inj h.2).mp heq))

/-- No stable matching gives a proposer better than the matching does. -/
def Best (m : Market P A) (μ : P → A → Prop) : Prop :=
  ∀ ν, m.Stable ν → ∀ p b, ν p b → ∃ a, μ p a ∧ (a = b ∨ m.ProposerPrefers p a b)

theorem Best.unique (hμ : m.Stable μ) (hbest : m.Best μ) (hν : m.Stable ν) (hbest' : m.Best ν) : μ p a ↔ ν p a := by
  have hone : ∀ {μ ν : P → A → Prop}, m.Stable μ → m.Best μ → m.Stable ν → m.Best ν → ∀ p a, μ p a → ν p a := by
    intro μ ν hμ hbest hν hbest' p a h
    obtain ⟨b,hb,hba⟩ := hbest' μ hμ p a h
    obtain ⟨c,hc,hcb⟩ := hbest ν hν p b hb
    obtain rfl := hμ.acceptor p a c h hc
    obtain rfl | hba := hba
    · exact hb
    · obtain rfl | hab := hcb
      · exact hb
      · exact absurd hba (lt_asymm hab)
  exact ⟨hone hμ hbest hν hbest' p a,hone hν hbest' hμ hbest p a⟩

end Market

open Market

variable {m : Market P A} {held : A → Option P} {tried : P → A → Prop} {p q : P} {a b : A} {ν : P → A → Prop}

/-- What holds as proposers try acceptors in the order of their lists: an acceptor holds the best that tried it, a
proposer is held by the last it tried if by any, and who is not held by one it tried is so in each stable matching. -/
structure Deferred (m : Market P A) (held : A → Option P) (tried : P → A → Prop) : Prop where
  accepts : ∀ p a, tried p a → m.Accepts p a
  holds : ∀ p a, held a = some p → tried p a
  order : ∀ p a b, tried p a → m.Accepts p b → m.ProposerPrefers p b a → tried p b
  best : ∀ p a, tried p a → ∃ q, held a = some q ∧ ¬ m.AcceptorPrefers a p q
  last : ∀ p a b, held a = some p → tried p b → ¬ m.ProposerPrefers p a b
  rejected : ∀ p a, tried p a → held a ≠ some p → ∀ ν, m.Stable ν → ¬ ν p a

theorem deferred_start : Deferred m (fun _ => none) (fun _ _ => False) where
  accepts := nofun
  holds := nofun
  order := nofun
  best := nofun
  last := nofun
  rejected := nofun

theorem Deferred.one (h : Deferred m held tried) (ha : held a = some p) (hb : held b = some p) : a = b := by
  by_contra hne
  obtain hlt | hlt := ProposerPrefers.total (h.accepts p a (h.holds p a ha)) hne
  · exact h.last p a b ha (h.holds p b hb) hlt
  · exact h.last p b a hb (h.holds p a ha) hlt

/-- The next acceptor that a proposer is to try: no one holds it, and it tried all it prefers. -/
structure Proposes (m : Market P A) (held : A → Option P) (tried : P → A → Prop) (p : P) (a : A) : Prop where
  accepts : m.Accepts p a
  fresh : ¬ tried p a
  free : ∀ b, held b ≠ some p
  order : ∀ b, m.Accepts p b → m.ProposerPrefers p b a → tried p b

theorem Proposes.bound (h : Deferred m held tried) (hp : Proposes m held tried p a) (hν : m.Stable ν) (hnot : ¬ ν p a) (hb : ν p b) :
    m.ProposerPrefers p a b := by
  have hne : a ≠ b := by
    rintro rfl
    exact hnot hb
  obtain hlt | hlt := ProposerPrefers.total hp.accepts hne
  · exact hlt
  · exact absurd hb (h.rejected p b (hp.order b (hν.accepts p b hb) hlt) (hp.free b) ν hν)

theorem Deferred.bound (h : Deferred m held tried) (ha : held a = some p) (hν : m.Stable ν) (hnot : ¬ ν p a) (hb : ν p b) :
    m.ProposerPrefers p a b := by
  have hne : a ≠ b := by
    rintro rfl
    exact hnot hb
  obtain hlt | hlt := ProposerPrefers.total (h.accepts p a (h.holds p a ha)) hne
  · exact hlt
  · refine absurd hb (h.rejected p b (h.order p a b (h.holds p a ha) (hν.accepts p b hb) hlt) ?_ ν hν)
    exact fun hheld => hne (h.one ha hheld)

/-- The pairs tried after one more. -/
def triedAlso (tried : P → A → Prop) (p : P) (a : A) (q : P) (b : A) : Prop := tried q b ∨ q = p ∧ b = a

/-- A proposer is turned away by an acceptor that holds one it does not prefer it to. -/
theorem Deferred.turnAway (h : Deferred m held tried) (hp : Proposes m held tried p a) (hq : held a = some q)
    (hworse : ¬ m.AcceptorPrefers a p q) : Deferred m held (triedAlso tried p a) where
  accepts x b hx := by
    obtain hx | ⟨rfl,rfl⟩ := hx
    · exact h.accepts x b hx
    · exact hp.accepts
  holds x b hx := .inl (h.holds x b hx)
  order x b c hx hc hlt := by
    obtain hx | ⟨rfl,rfl⟩ := hx
    · exact .inl (h.order x b c hx hc hlt)
    · exact .inl (hp.order c hc hlt)
  best x b hx := by
    obtain hx | ⟨rfl,rfl⟩ := hx
    · exact h.best x b hx
    · exact ⟨q,hq,hworse⟩
  last x b c hx hc := by
    obtain hc | ⟨rfl,rfl⟩ := hc
    · exact h.last x b c hx hc
    · exact absurd hx (hp.free b)
  rejected x b hx hnot ν hν := by
    obtain hx | ⟨rfl,rfl⟩ := hx
    · exact h.rejected x b hx hnot ν hν
    · intro hxb
      -- the acceptor and the one it holds would block the matching
      have hne : q ≠ x := by
        rintro rfl
        exact hp.free b hq
      have hapart : ¬ ν q b := fun hqb => hne (hν.proposer q x b hqb hxb)
      refine hν.unblocked q b ⟨h.accepts q b (h.holds q b hq),hapart,fun c hc => h.bound hq hν hapart hc,fun r hr => ?_⟩
      obtain rfl := hν.proposer r x b hr hxb
      obtain hlt | hlt := AcceptorPrefers.total hp.accepts hne.symm
      · exact absurd hlt hworse
      · exact hlt

/-- A proposer is taken by an acceptor that holds no one, or one that it prefers it to. -/
theorem Deferred.takeUp (h : Deferred m held tried) (hp : Proposes m held tried p a)
    (hbetter : ∀ q, held a = some q → m.AcceptorPrefers a p q) : Deferred m (Function.update held a (some p)) (triedAlso tried p a) where
  accepts x b hx := by
    obtain hx | ⟨rfl,rfl⟩ := hx
    · exact h.accepts x b hx
    · exact hp.accepts
  holds x b hx := by
    by_cases hb : b = a
    · subst hb
      rw [Function.update_self] at hx
      exact .inr ⟨(Option.some.inj hx).symm,rfl⟩
    · rw [Function.update_of_ne hb] at hx
      exact .inl (h.holds x b hx)
  order x b c hx hc hlt := by
    obtain hx | ⟨rfl,rfl⟩ := hx
    · exact .inl (h.order x b c hx hc hlt)
    · exact .inl (hp.order c hc hlt)
  best x b hx := by
    by_cases hb : b = a
    · subst hb
      refine ⟨p,Function.update_self ..,?_⟩
      obtain hx | ⟨rfl,-⟩ := hx
      · obtain ⟨q,hq,hnot⟩ := h.best x b hx
        exact fun hlt => hnot (lt_trans hlt (hbetter q hq))
      · exact lt_irrefl _
    · obtain hx | ⟨-,rfl⟩ := hx
      · rw [Function.update_of_ne hb]
        exact h.best x b hx
      · exact absurd rfl hb
  last x b c hx hc := by
    by_cases hb : b = a
    · subst hb
      rw [Function.update_self] at hx
      obtain rfl := Option.some.inj hx
      obtain hc | ⟨-,rfl⟩ := hc
      · exact fun hlt => hp.fresh (h.order p c b hc hp.accepts hlt)
      · exact lt_irrefl _
    · rw [Function.update_of_ne hb] at hx
      obtain hc | ⟨rfl,rfl⟩ := hc
      · exact h.last x b c hx hc
      · exact absurd hx (hp.free b)
  rejected x b hx hnot ν hν := by
    by_cases hb : b = a
    · subst hb
      rw [Function.update_self] at hnot
      have hxp : x ≠ p := fun hxp => hnot (congrArg some hxp.symm)
      have hx : tried x b := hx.resolve_right (fun hx => hxp hx.1)
      intro hxb
      by_cases hheld : held b = some x
      · -- the acceptor and the proposer that displaces the one would block the matching
        have hapart : ¬ ν p b := fun hpb => hxp (hν.proposer x p b hxb hpb)
        refine hν.unblocked p b ⟨hp.accepts,hapart,fun c hc => hp.bound h hν hapart hc,fun r hr => ?_⟩
        obtain rfl := hν.proposer r x b hr hxb
        exact hbetter r hheld
      · exact h.rejected x b hx hheld ν hν hxb
    · rw [Function.update_of_ne hb] at hnot
      obtain hx | ⟨-,rfl⟩ := hx
      · exact h.rejected x b hx hnot ν hν
      · exact absurd rfl hb

theorem Deferred.stable (h : Deferred m held tried) (hdone : ∀ p, (∃ a, held a = some p) ∨ ∀ a, m.Accepts p a → tried p a) :
    m.Stable (fun p a => held a = some p) where
  accepts p a ha := h.accepts p a (h.holds p a ha)
  acceptor p a b ha hb := h.one ha hb
  proposer p q a hp hq := Option.some.inj (hp.symm.trans hq)
  unblocked p a hblock := by
    have htried : tried p a := by
      obtain ⟨b,hb⟩ | hall := hdone p
      · exact h.order p b a (h.holds p b hb) hblock.accepts (hblock.proposer b hb)
      · exact hall a hblock.accepts
    obtain ⟨q,hq,hnot⟩ := h.best p a htried
    exact hnot (hblock.acceptor q hq)

theorem Deferred.isBest (h : Deferred m held tried) (hdone : ∀ p, (∃ a, held a = some p) ∨ ∀ a, m.Accepts p a → tried p a) :
    m.Best (fun p a => held a = some p) := by
  intro ν hν p b hb
  have haccepts := hν.accepts p b hb
  obtain ⟨a,ha⟩ | hall := hdone p
  · refine ⟨a,ha,?_⟩
    by_cases hab : a = b
    · exact .inl hab
    · refine .inr (h.bound ha hν (fun hpa => hab (hν.acceptor p a b hpa hb)) hb)
  · refine ⟨b,?_,.inl rfl⟩
    by_contra hnot
    exact h.rejected p b (hall b haccepts) hnot ν hν hb

end Lib
