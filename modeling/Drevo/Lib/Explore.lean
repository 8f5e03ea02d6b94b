import Mathlib

/-! Exploring a relation from a start up to a number of hops. What was found waits with the number of hops it was
found at; one after the other it is taken out and either left, when it is at the limit, or followed. -/
namespace Lib

variable {α : Type*}

/-- `n` steps of the relation lead from `a` to the place. -/
inductive Hops (R : α → α → Prop) (a : α) : ℕ → α → Prop
  | zero : Hops R a 0 a
  | succ {n x y} (h : Hops R a n x) (hxy : R x y) : Hops R a (n+1) y

/-- The places at most `most` hops away. -/
def Ball (R : α → α → Prop) (a : α) (most : ℕ) : Set α := {x | ∃ n, n ≤ most ∧ Hops R a n x}

/-- What was found, in the order of finding, and what of it waits with its number of hops. -/
structure Frontier (α : Type*) where
  found : List α
  waiting : List (α × ℕ)

variable {R : α → α → Prop} {a x : α} {d most : ℕ} {f f' : Frontier α} {rest : List (α × ℕ)}

/-- What waits at a number of hops is taken out: at the limit it is left, before it all it leads to is found. -/
inductive Frontier.Follow (R : α → α → Prop) (most : ℕ) (f : Frontier α) (x : α) (d : ℕ) (rest : List (α × ℕ)) : Frontier α → Prop
  | cut (hd : most ≤ d) : Follow R most f x d rest ⟨f.found,rest⟩
  | expand (hd : d < most) {fresh : List α} (hnodup : fresh.Nodup) (hnew : ∀ y ∈ fresh, y ∉ f.found ∧ R x y)
      (hall : ∀ y, R x y → y ∈ f.found ∨ y ∈ fresh) :
      Follow R most f x d rest ⟨f.found ++ fresh,rest ++ fresh.map (fun y => (y,d+1))⟩

/-- What waits is the place taken out and the rest. -/
def Frontier.Takes (f : Frontier α) (x : α) (d : ℕ) (rest : List (α × ℕ)) : Prop :=
  ∀ p, p ∈ f.waiting ↔ p = (x,d) ∨ p ∈ rest

/-- Everything found is in reach, and what no longer waits was followed or is at the limit. -/
structure Explored (R : α → α → Prop) (a : α) (most : ℕ) (f : Frontier α) : Prop where
  nodup : f.found.Nodup
  start : f.found.head? = some a
  inReach : ∀ x ∈ f.found, x ∈ Ball R a most
  waiting : ∀ x d, (x,d) ∈ f.waiting → x ∈ f.found ∧ d ≤ most ∧ Hops R a d x
  settled : ∀ x ∈ f.found, (∃ d, (x,d) ∈ f.waiting) ∨ (∀ y, R x y → y ∈ f.found) ∨ ∀ n, Hops R a n x → most ≤ n

/-- At first the start waits. -/
def Frontier.start (a : α) : Frontier α := ⟨[a],[(a,0)]⟩

theorem explored_start : Explored R a most (.start a) where
  nodup := List.nodup_singleton a
  start := rfl
  inReach x hx := by
    rw [List.mem_singleton.mp hx]
    exact ⟨0,Nat.zero_le _,.zero⟩
  waiting x d hx := by
    obtain ⟨rfl,rfl⟩ := Prod.mk.inj (List.mem_singleton.mp hx)
    exact ⟨List.mem_singleton.mpr rfl,Nat.zero_le _,.zero⟩
  settled x hx := by
    rw [List.mem_singleton.mp hx]
    exact .inl ⟨0,List.mem_singleton.mpr rfl⟩

/-- A step keeps the exploration sound when it leaves nothing that has something to lead to and could be come to
in fewer hops. -/
theorem Explored.follow (h : Explored R a most f) (htake : f.Takes x d rest) (hstep : f.Follow R most x d rest f')
    (hcut : most ≤ d → (∀ y, R x y → y ∈ f.found) ∨ ∀ n, Hops R a n x → most ≤ n) : Explored R a most f' := by
  obtain ⟨hx,hd,hhops⟩ := h.waiting x d ((htake _).mpr (.inl rfl))
  cases hstep with
  | cut hmost =>
    refine ⟨h.nodup,h.start,h.inReach,fun z k hz => h.waiting z k ((htake _).mpr (.inr hz)),fun z hz => ?_⟩
    obtain ⟨k,hk⟩ | hdone := h.settled z hz
    · obtain heq | hrest := (htake _).mp hk
      · cases heq
        exact .inr (hcut hmost)
      · exact .inl ⟨k,hrest⟩
    · exact .inr hdone
  | @expand hlt fresh hnodup hnew hall =>
    refine ⟨?_,?_,fun z hz => ?_,fun z k hz => ?_,fun z hz => ?_⟩
    · exact h.nodup.append hnodup (fun z hz hf => (hnew z hf).1 hz)
    · obtain ⟨tail,htail⟩ := List.head?_eq_some_iff.mp h.start
      rw [htail]
      rfl
    · obtain hz | hz := List.mem_append.mp hz
      · exact h.inReach z hz
      · exact ⟨d+1,hlt,.succ hhops (hnew z hz).2⟩
    · obtain hz | hz := List.mem_append.mp hz
      · obtain ⟨hfound,hle,hh⟩ := h.waiting z k ((htake _).mpr (.inr hz))
        exact ⟨List.mem_append_left _ hfound,hle,hh⟩
      · obtain ⟨y,hy,heq⟩ := List.mem_map.mp hz
        cases heq
        exact ⟨List.mem_append_right _ hy,hlt,.succ hhops (hnew z hy).2⟩
    · obtain hz | hz := List.mem_append.mp hz
      · obtain ⟨k,hk⟩ | hdone | hfar := h.settled z hz
        · obtain heq | hrest := (htake _).mp hk
          · cases heq
            exact .inr (.inl (fun y hy => List.mem_append.mpr (hall y hy)))
          · exact .inl ⟨k,List.mem_append_left _ hrest⟩
        · exact .inr (.inl (fun y hy => List.mem_append_left _ (hdone y hy)))
        · exact .inr (.inr hfar)
      · exact .inl ⟨d+1,List.mem_append_right _ (List.mem_map.mpr ⟨z,hz,rfl⟩)⟩

theorem Explored.mem_found (h : Explored R a most f) (hdone : f.waiting = []) {x : α} : x ∈ f.found ↔ x ∈ Ball R a most := by
  refine ⟨h.inReach x,?_⟩
  rintro ⟨n,hn,hx⟩
  induction hx with
  | zero =>
    obtain ⟨tail,htail⟩ := List.head?_eq_some_iff.mp h.start
    rw [htail]
    exact List.mem_cons_self
  | @succ n x y hx hxy ih =>
    obtain ⟨k,hk⟩ | hall | hfar := h.settled x (ih (by omega))
    · rw [hdone] at hk
      cases hk
    · exact hall y hxy
    · have := hfar n hx
      omega

/-! ## First in, first out -/

/-- What waits does so in the order of its hops, which are as few as possible, and what is not found yet is
farther away than what is next. -/
structure Layered (R : α → α → Prop) (a : α) (f : Frontier α) : Prop where
  sorted : f.waiting.Pairwise (fun p q => p.2 ≤ q.2)
  close : ∀ p ∈ f.waiting, ∀ q ∈ f.waiting, q.2 ≤ p.2+1
  least : ∀ x d, (x,d) ∈ f.waiting → ∀ n, Hops R a n x → d ≤ n
  farther : ∀ p ∈ f.waiting.head?, ∀ y, y ∉ f.found → ∀ n, Hops R a n y → p.2+1 ≤ n

theorem layered_start : Layered R a (.start a) where
  sorted := List.pairwise_singleton _ _
  close p hp q hq := by
    rw [List.mem_singleton.mp hp,List.mem_singleton.mp hq]
    exact Nat.zero_le _
  least x d hx n _ := by
    obtain ⟨-,rfl⟩ := Prod.mk.inj (List.mem_singleton.mp hx)
    exact Nat.zero_le n
  farther p hp y hy n hn := by
    cases hp
    cases hn with
    | zero => exact absurd (List.mem_singleton.mpr rfl) hy
    | succ => exact Nat.succ_pos _

/-- Taking out what was found first keeps the layers. -/
theorem Layered.follow (h : Layered R a f) (hexp' : Explored R a most f')
    (hfirst : f.waiting = (x,d)::rest) (hstep : f.Follow R most x d rest f') : Layered R a f' := by
  have hx : ∀ n, Hops R a n x → d ≤ n := h.least x d (hfirst ▸ List.mem_cons_self)
  have hfar : ∀ y, y ∉ f.found → ∀ n, Hops R a n y → d+1 ≤ n := h.farther (x,d) (hfirst ▸ rfl)
  have hsorted := h.sorted
  rw [hfirst,List.pairwise_cons] at hsorted
  have hclose : ∀ q ∈ rest, q.2 ≤ d+1 := fun q hq =>
    h.close (x,d) (hfirst ▸ List.mem_cons_self) q (hfirst ▸ List.mem_cons_of_mem _ hq)
  -- what waits after the step waits at the depth of the step or one more
  have hdepth : f'.waiting.Pairwise (fun p q => p.2 ≤ q.2) ∧ (∀ q ∈ f'.waiting, d ≤ q.2 ∧ q.2 ≤ d+1) ∧
      ∀ z k, (z,k) ∈ f'.waiting → ∀ n, Hops R a n z → k ≤ n := by
    cases hstep with
    | cut hmost =>
      refine ⟨hsorted.2,fun q hq => ⟨hsorted.1 q hq,hclose q hq⟩,fun z k hz => ?_⟩
      exact h.least z k (hfirst ▸ List.mem_cons_of_mem _ hz)
    | @expand hlt fresh hnodup hnew hall =>
      refine ⟨?_,fun q hq => ?_,fun z k hz n hn => ?_⟩
      · refine List.pairwise_append.mpr ⟨hsorted.2,List.pairwise_map.mpr (List.pairwise_of_forall fun _ _ => le_rfl),fun p hp q hq => ?_⟩
        obtain ⟨y,-,rfl⟩ := List.mem_map.mp hq
        exact hclose p hp
      · obtain hq | hq := List.mem_append.mp hq
        · exact ⟨hsorted.1 q hq,hclose q hq⟩
        · obtain ⟨y,-,rfl⟩ := List.mem_map.mp hq
          exact ⟨Nat.le_succ d,le_rfl⟩
      · obtain hz | hz := List.mem_append.mp hz
        · exact h.least z k (hfirst ▸ List.mem_cons_of_mem _ hz) n hn
        · obtain ⟨y,hy,heq⟩ := List.mem_map.mp hz
          cases heq
          exact hfar z (hnew z hy).1 n hn
  have hfound : ∀ y ∈ f.found, y ∈ f'.found := by
    cases hstep with
    | cut => exact fun y hy => hy
    | expand => exact fun y hy => List.mem_append_left _ hy
  refine ⟨hdepth.1,fun p hp q hq => ?_,hdepth.2.2,fun p hp y hy n hn => ?_⟩
  · have := hdepth.2.1 p hp
    have := hdepth.2.1 q hq
    omega
  · obtain ⟨tail,htail⟩ := List.head?_eq_some_iff.mp hp
    have hle : ∀ q ∈ f'.waiting, p.2 ≤ q.2 := by
      intro q hq
      have hpair := hdepth.1
      rw [htail,List.pairwise_cons] at hpair
      rw [htail] at hq
      obtain rfl | hq := List.mem_cons.mp hq
      · exact le_rfl
      · exact hpair.1 q hq
    have hp' := hdepth.2.1 p (htail ▸ List.mem_cons_self)
    have hn₁ := hfar y (fun hf => hy (hfound y hf)) n hn
    -- the last step to the place comes from one that is not found, waits, or is at the limit
    cases hn with
    | zero =>
      obtain ⟨t,ht⟩ := List.head?_eq_some_iff.mp hexp'.start
      exact absurd (ht ▸ List.mem_cons_self) hy
    | @succ m z _ hz hzy =>
      by_cases hzf : z ∈ f'.found
      · obtain ⟨k,hk⟩ | hall | hlimit := hexp'.settled z hzf
        · have := hle _ hk
          have := hdepth.2.2 z k hk m hz
          simp only at *
          omega
        · exact absurd (hall y hzy) hy
        · have := hlimit m hz
          have := (hexp'.waiting p.1 p.2 (htail ▸ List.mem_cons_self)).2.1
          omega
      · have := hfar z (fun hf => hzf (hfound z hf)) m hz
        omega

theorem Layered.no_early_cut (h : Layered R a f) (hfirst : f.waiting = (x,d)::rest) (hd : most ≤ d) :
    ∀ n, Hops R a n x → most ≤ n :=
  fun n hn => hd.trans (h.least x d (hfirst ▸ List.mem_cons_self) n hn)

end Lib
