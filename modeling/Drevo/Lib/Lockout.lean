import Mathlib

/-! A lock that closes after too many misses. Attempts are let in while it is open, and each ends in
a miss that is counted, in a hit that clears the count, or in neither. The lock bounds the misses as
long as no more attempts are under way than misses are left. -/
namespace Lib

/-- What the lock counts, and beside it the attempts under way, those of them that have missed, and the
misses since the lock last cleared or lapsed. -/
structure Gate where
  count : ℕ
  pending : ℕ
  missed : ℕ
  guesses : ℕ
  locked : Bool

namespace Gate

/-- One step of a gate that locks after `m` misses. -/
inductive Move (m : ℕ) : Gate → Gate → Prop where
  | stay (g) : Move m g g
  | enter (g : Gate) : g.locked = false → g.count+g.pending < m → Move m g { g with pending := g.pending+1 }
  | leave (g : Gate) : Move m { g with pending := g.pending+1 } g
  | miss (g : Gate) : g.missed < g.pending → Move m g { g with missed := g.missed+1, guesses := g.guesses+1 }
  | record (g : Gate) : g.count+1 < m →
      Move m { g with pending := g.pending+1, missed := g.missed+1 } { g with count := g.count+1 }
  | lock (g : Gate) : m ≤ g.count+1 →
      Move m { g with pending := g.pending+1, missed := g.missed+1 } { g with count := 0, locked := true }
  | lapse (g : Gate) : m ≤ g.count+1 →
      Move m { g with pending := g.pending+1, missed := g.missed+1 } { g with count := 0, locked := false, guesses := 0 }
  | clear (g : Gate) : Move m { g with pending := g.pending+1 } { g with count := 0, guesses := 0, locked := false }
  | forget (g : Gate) : Move m g { g with count := 0, guesses := 0, locked := false }
  | expire (g : Gate) : g.locked = true → Move m g { g with guesses := 0, locked := false }
  | relock (g : Gate) : g.pending = 0 → Move m g { g with locked := true }

/-- An open gate has a miss left for every attempt under way; a locked one has no attempt under way. -/
structure Inv (m : ℕ) (g : Gate) : Prop where
  count : g.count ≤ m
  guesses : g.guesses ≤ m
  open_ : g.locked = false → g.count+g.pending ≤ m ∧ g.guesses ≤ g.count+g.missed
  missed : g.missed ≤ g.pending
  quiet : g.locked = true → g.pending = 0

theorem fresh_inv (m : ℕ) : Inv m { count := 0, pending := 0, missed := 0, guesses := 0, locked := false } where
  count := Nat.zero_le m
  guesses := Nat.zero_le m
  open_ _ := ⟨Nat.zero_le m,Nat.le_refl 0⟩
  missed := Nat.le_refl 0
  quiet h := by cases h

theorem Inv.unlocked {m : ℕ} {g : Gate} (h : Inv m g) (hp : 0 < g.pending) : g.locked = false := by
  cases hl : g.locked with
  | false => rfl
  | true =>
    have := h.quiet hl
    omega

theorem Move.inv {m : ℕ} {g g' : Gate} (h : Move m g g') (hi : Inv m g)
    (hmissed : g'.missed ≤ g'.pending) : Inv m g' := by
  have hcount := hi.count
  have hguesses := hi.guesses
  cases h with
  | stay => exact hi
  | enter g hopen hroom =>
    obtain ⟨-,hle⟩ := hi.open_ hopen
    refine ⟨hcount,hguesses,fun _ => ⟨?_,hle⟩,hmissed,fun hl => ?_⟩
    · dsimp only
      omega
    · rw [hopen] at hl
      cases hl
  | leave g =>
    have hopen := hi.unlocked (Nat.succ_pos _)
    obtain ⟨hfit,hle⟩ := hi.open_ hopen
    dsimp only at *
    refine ⟨hcount,hguesses,fun _ => ⟨by omega,hle⟩,hmissed,fun hl => ?_⟩
    rw [hopen] at hl
    cases hl
  | miss g hlt =>
    have hopen := hi.unlocked (by omega)
    obtain ⟨hfit,hle⟩ := hi.open_ hopen
    refine ⟨hcount,?_,fun _ => ⟨hfit,?_⟩,hmissed,fun hl => ?_⟩
    · dsimp only
      omega
    · dsimp only
      omega
    · rw [hopen] at hl
      cases hl
  | record g hroom =>
    have hopen := hi.unlocked (Nat.succ_pos _)
    obtain ⟨hfit,hle⟩ := hi.open_ hopen
    dsimp only at *
    refine ⟨by dsimp only; omega,hguesses,fun _ => ⟨by dsimp only; omega,by dsimp only; omega⟩,hmissed,fun hl => ?_⟩
    rw [hopen] at hl
    cases hl
  | lock g hfull =>
    obtain ⟨hfit,hle⟩ := hi.open_ (hi.unlocked (Nat.succ_pos _))
    dsimp only at *
    -- the last miss that was left: nothing else is under way
    refine ⟨Nat.zero_le m,hguesses,fun hl => (by cases hl),hmissed,fun _ => ?_⟩
    dsimp only
    omega
  | lapse g hfull =>
    obtain ⟨hfit,hle⟩ := hi.open_ (hi.unlocked (Nat.succ_pos _))
    dsimp only at *
    exact ⟨Nat.zero_le m,Nat.zero_le m,fun _ => ⟨by dsimp only; omega,Nat.zero_le _⟩,hmissed,fun hl => (by cases hl)⟩
  | clear g =>
    obtain ⟨hfit,hle⟩ := hi.open_ (hi.unlocked (Nat.succ_pos _))
    dsimp only at *
    exact ⟨Nat.zero_le m,Nat.zero_le m,fun _ => ⟨by dsimp only; omega,Nat.zero_le _⟩,hmissed,fun hl => (by cases hl)⟩
  | forget g =>
    refine ⟨Nat.zero_le m,Nat.zero_le m,fun _ => ⟨?_,Nat.zero_le _⟩,hmissed,fun hl => (by cases hl)⟩
    dsimp only
    cases hl : g.locked with
    | false =>
      obtain ⟨hfit,-⟩ := hi.open_ hl
      omega
    | true =>
      have := hi.quiet hl
      omega
  | expire g hl =>
    have := hi.quiet hl
    exact ⟨hcount,Nat.zero_le m,fun _ => ⟨by dsimp only; omega,Nat.zero_le _⟩,hmissed,fun hl => (by cases hl)⟩
  | relock g hp => exact ⟨hcount,hguesses,fun hl => (by cases hl),hmissed,fun _ => hp⟩

end Gate
end Lib
