import Drevo.Delta.Latest
import Drevo.Lib.I64

/-! The hybrid clock at the width of its fields: a wall time of 64 bits, which saturates, and a counter of 32 bits. Short of the
greatest timestamp it is the clock without bounds. -/
namespace Drevo
open Lib

namespace Hlc

theorem lt_iff {a b : Hlc} : a < b ↔ a.wallMs < b.wallMs ∨ a.wallMs = b.wallMs ∧ a.counter < b.counter := Prod.Lex.lt_iff

theorem lt_bumpSameWall {h : Hlc} {w : ℤ} {n : ℕ} (hw : h.wallMs ≤ w) (hn : h.wallMs = w → h.counter ≤ n) : h < bumpSameWall w n := by
  unfold bumpSameWall
  rw [lt_iff]
  split_ifs
  · simp only [mk,wallMs,counter,ofLex_toLex] at *
    omega
  · simp only [mk,wallMs,counter,ofLex_toLex] at *
    omega

theorem lt_tick (h : Hlc) (now : ℤ) : h < h.tick now := by
  unfold tick
  simp only
  split_ifs with hw
  · exact lt_bumpSameWall (le_max_left _ _) (fun _ => le_rfl)
  · rw [lt_iff]
    have hle := le_max_left h.wallMs now
    simp only [mk,wallMs,counter,ofLex_toLex] at *
    omega

theorem lt_update (h r : Hlc) (now : ℤ) : h < h.update r now ∧ r < h.update r now := by
  unfold update
  simp only
  generalize hm : max (max h.wallMs r.wallMs) now = w
  have hh : h.wallMs ≤ w := hm ▸ (le_max_left _ _).trans (le_max_left _ _)
  have hr : r.wallMs ≤ w := hm ▸ (le_max_right _ _).trans (le_max_left _ _)
  have hmk : ∀ t : Hlc, t.wallMs ≤ w → w ≠ t.wallMs → t < mk w 0 := by
    intro t ht hne
    rw [lt_iff]
    exact Or.inl (lt_of_le_of_ne ht (Ne.symm hne))
  have hpast : ∀ (t : Hlc) (n : ℕ), t.wallMs ≤ w → w ≠ t.wallMs → t < bumpSameWall w n :=
    fun t n ht hne => lt_bumpSameWall ht (fun he => absurd he.symm hne)
  split_ifs with h₁ h₂ h₃
  · exact ⟨lt_bumpSameWall hh (fun _ => le_max_left _ _),lt_bumpSameWall hr (fun _ => le_max_right _ _)⟩
  · exact ⟨lt_bumpSameWall hh (fun _ => le_rfl),hpast r _ hr (fun he => h₁ ⟨h₂,he⟩)⟩
  · exact ⟨hpast h _ hh h₂,lt_bumpSameWall hr (fun _ => le_rfl)⟩
  · exact ⟨hmk h hh h₂,hmk r hr h₃⟩

end Hlc

namespace Stamp

@[simp] theorem hlc_mk (h : Hlc) (origin : ℕ) : (mk h origin).hlc = h := rfl

end Stamp

/-- A timestamp of 64 and 32 bits, in the order of the wall time first. -/
abbrev Hlc64 := I64 ×ₗ Fin (2^32)

namespace Hlc64

def mk (wallMs : I64) (counter : Fin (2^32)) : Hlc64 := toLex (wallMs,counter)

def wallMs (h : Hlc64) : I64 := (ofLex h).1

def counter (h : Hlc64) : Fin (2^32) := (ofLex h).2

/-- The greatest timestamp. -/
def top : Hlc64 := mk ⟨i64Max,by decide⟩ (Fin.last _)

theorem one_fits : i64Min ≤ 1 ∧ 1 ≤ i64Max := by decide

/-- The successor within the same wall time; a full counter moves the wall, which saturates. -/
def bumpSameWall (wallMs : I64) (baseCounter : Fin (2^32)) : Hlc64 :=
  if h : baseCounter.1+1 < 2^32 then mk wallMs ⟨baseCounter.1+1,h⟩ else mk (wallMs.saturatingAdd ⟨1,one_fits⟩) 0

/-- The same timestamp without bounds. -/
def unbounded (h : Hlc64) : Hlc := Hlc.mk h.wallMs.1 h.counter.1

end Hlc64

/-- A clock holds the last timestamp that it gave. -/
structure HlcClock where
  last : Hlc64

namespace HlcClock

/-- A local event; the new last timestamp is the one that is given. -/
def tick (c : HlcClock) (physicalMs : I64) : HlcClock :=
  let prev := c.last
  let wall := max prev.wallMs physicalMs
  ⟨if wall = prev.wallMs then .bumpSameWall wall prev.counter else .mk wall 0⟩

def update (c : HlcClock) (remote : Hlc64) (physicalMs : I64) : HlcClock :=
  let prev := c.last
  let wall := max (max prev.wallMs remote.wallMs) physicalMs
  ⟨if wall = prev.wallMs ∧ wall = remote.wallMs then .bumpSameWall wall (max prev.counter remote.counter)
    else if wall = prev.wallMs then .bumpSameWall wall prev.counter
    else if wall = remote.wallMs then .bumpSameWall wall remote.counter
    else .mk wall 0⟩

end HlcClock

inductive HlcEvent where
  | tick (physicalMs : I64)
  | update (remote : Hlc64) (physicalMs : I64)

namespace HlcClock

def after (c : HlcClock) : HlcEvent → HlcClock
  | .tick physicalMs => c.tick physicalMs
  | .update remote physicalMs => c.update remote physicalMs

/-- The timestamps that the events give, one after the other. -/
def timestamps (c : HlcClock) : List HlcEvent → List Hlc64
  | [] => []
  | e :: events => (c.after e).last :: (c.after e).timestamps events

def Clear (c : HlcClock) : HlcEvent → Prop
  | .tick _ => c.last ≠ .top
  | .update remote _ => c.last ≠ .top ∧ remote ≠ .top

/-- Every event of the run is clear where it comes. -/
def ClearRun (c : HlcClock) : List HlcEvent → Prop
  | [] => True
  | e :: events => c.Clear e ∧ (c.after e).ClearRun events

end HlcClock

/-! ## The order -/

namespace Hlc64

variable {a b : Hlc64}

theorem unbounded_lt : a.unbounded < b.unbounded ↔ a < b := by
  rw [Hlc.lt_iff,Prod.Lex.lt_iff]
  refine or_congr Iff.rfl (and_congr ?_ Iff.rfl)
  exact Subtype.ext_iff.symm

theorem unbounded_inj : a.unbounded = b.unbounded ↔ a = b := by
  constructor
  · intro h
    obtain ⟨hw,hc⟩ := Prod.mk.inj (congrArg ofLex h)
    exact congrArg toLex (Prod.ext (Subtype.ext hw) (Fin.ext hc))
  · rintro rfl
    rfl

theorem le_top (a : Hlc64) : a ≤ top := by
  rw [← not_lt,Prod.Lex.lt_iff]
  rintro (h | ⟨-,h⟩)
  · exact absurd (ofLex a).1.2.2 (not_le.mpr h)
  · exact absurd (Fin.le_last _) (not_le.mpr h)

theorem ne_top_iff : a ≠ top ↔ a.wallMs.1 < i64Max ∨ a.counter.1+1 < 2^32 := by
  have htop : a = top ↔ a.wallMs.1 = i64Max ∧ a.counter.1 = 2^32-1 := by
    rw [← unbounded_inj]
    exact ⟨fun h => Prod.mk.inj (congrArg ofLex h),fun h => congrArg toLex (Prod.ext h.1 h.2)⟩
  rw [ne_eq,htop]
  have hwall := a.wallMs.2.2
  have hcounter := a.counter.2
  omega

theorem unbounded_bump {w : I64} {n : Fin (2^32)} (h : mk w n ≠ top) : (bumpSameWall w n).unbounded = Hlc.bumpSameWall w.1 n.1 := by
  rw [bumpSameWall,Hlc.bumpSameWall]
  split_ifs with hn
  · rfl
  · have hw : w.1 < i64Max := by
      have hroom : w.1 < i64Max ∨ n.1+1 < 2^32 := ne_top_iff.mp h
      omega
    have hsum : (w.saturatingAdd ⟨1,by decide⟩).1 = w.1+1 := by
      refine I64.saturate_of_mem ⟨?_,?_⟩
      · have hlow := w.2.1
        dsimp only
        omega
      · dsimp only
        omega
    exact congrArg toLex (Prod.ext hsum rfl)

theorem wall_max (a b : I64) : (max a b).1 = max a.1 b.1 := (Subtype.mono_coe _).map_max

theorem counter_max (a b : Fin (2^32)) : (max a b).1 = max a.1 b.1 := Fin.val_strictMono.monotone.map_max

end Hlc64

namespace HlcClock

variable {c : HlcClock} {remote : Hlc64} {physicalMs : I64}

theorem tick_unbounded (h : c.last ≠ .top) : (c.tick physicalMs).last.unbounded = c.last.unbounded.tick physicalMs.1 := by
  have hwall : (max c.last.wallMs physicalMs).1 = max c.last.unbounded.wallMs physicalMs.1 := Hlc64.wall_max _ _
  rw [tick,Hlc.tick]
  dsimp only
  rw [← hwall]
  by_cases heq : max c.last.wallMs physicalMs = c.last.wallMs
  · have hsame : (max c.last.wallMs physicalMs).1 = c.last.unbounded.wallMs := congrArg Subtype.val heq
    rw [if_pos heq,if_pos hsame,heq]
    exact Hlc64.unbounded_bump h
  · have hother : (max c.last.wallMs physicalMs).1 ≠ c.last.unbounded.wallMs := fun hsame => heq (Subtype.ext hsame)
    rw [if_neg heq,if_neg hother]
    rfl

theorem update_unbounded (h : c.last ≠ .top) (hr : remote ≠ .top) :
    (c.update remote physicalMs).last.unbounded = c.last.unbounded.update remote.unbounded physicalMs.1 := by
  have hwall : (max (max c.last.wallMs remote.wallMs) physicalMs).1 = max (max c.last.unbounded.wallMs remote.unbounded.wallMs) physicalMs.1 := by
    rw [Hlc64.wall_max,Hlc64.wall_max]
    rfl
  rw [update,Hlc.update]
  dsimp only
  rw [← hwall]
  generalize max (max c.last.wallMs remote.wallMs) physicalMs = w
  have hlast : w = c.last.wallMs ↔ w.1 = c.last.unbounded.wallMs := Subtype.ext_iff
  have hremote : w = remote.wallMs ↔ w.1 = remote.unbounded.wallMs := Subtype.ext_iff
  simp only [← hlast,← hremote]
  split_ifs with hboth h₁ h₂
  · obtain ⟨rfl,hw⟩ := hboth
    have hcounter : (max c.last.counter remote.counter).1 = max c.last.unbounded.counter remote.unbounded.counter := Hlc64.counter_max _ _
    rw [← hcounter]
    refine Hlc64.unbounded_bump ?_
    obtain hmax | hmax := max_choice c.last.counter remote.counter
    · rwa [hmax]
    · rwa [hmax,hw]
  · rw [h₁]
    exact Hlc64.unbounded_bump h
  · rw [h₂]
    exact Hlc64.unbounded_bump hr
  · rfl

theorem lt_tick_iff (c : HlcClock) (physicalMs : I64) : c.last < (c.tick physicalMs).last ↔ c.last ≠ .top := by
  constructor
  · rintro h htop
    rw [htop] at h
    exact absurd h (not_lt.mpr (Hlc64.le_top _))
  · intro h
    rw [← Hlc64.unbounded_lt,tick_unbounded h]
    exact Hlc.lt_tick _ _

theorem lt_update_iff (c : HlcClock) (remote : Hlc64) (physicalMs : I64) :
    (c.last < (c.update remote physicalMs).last ∧ remote < (c.update remote physicalMs).last) ↔ c.last ≠ .top ∧ remote ≠ .top := by
  constructor
  · rintro ⟨h,hr⟩
    refine ⟨fun htop => ?_,fun htop => ?_⟩
    · rw [htop] at h
      exact absurd h (not_lt.mpr (Hlc64.le_top _))
    · rw [htop] at hr
      exact absurd hr (not_lt.mpr (Hlc64.le_top _))
  · rintro ⟨h,hr⟩
    rw [← Hlc64.unbounded_lt,← Hlc64.unbounded_lt,update_unbounded h hr]
    exact Hlc.lt_update _ _ _

theorem lt_after {e : HlcEvent} (h : c.Clear e) : c.last < (c.after e).last := by
  cases e with
  | tick physicalMs => exact (lt_tick_iff c physicalMs).mpr h
  | update remote physicalMs => exact ((lt_update_iff c remote physicalMs).mpr h).1

theorem timestamps_increase {events : List HlcEvent} (h : c.ClearRun events) : (c.last :: c.timestamps events).Pairwise (· < ·) := by
  induction events generalizing c with
  | nil => exact List.pairwise_singleton _ _
  | cons e events ih =>
    have hrest := ih h.2
    refine List.pairwise_cons.mpr ⟨fun t ht => ?_,hrest⟩
    have hfirst := lt_after h.1
    obtain rfl | ht := List.mem_cons.mp ht
    · exact hfirst
    · exact hfirst.trans (List.rel_of_pairwise_cons hrest ht)

/-- A clock moves past its last timestamp, and past what it receives, exactly when neither is the greatest timestamp; in a run
where this holds at each event the timestamps increase. -/
theorem strictly_after (c : HlcClock) : (∀ physicalMs : I64, c.last < (c.tick physicalMs).last ↔ c.last ≠ .top) ∧
    (∀ (remote : Hlc64) (physicalMs : I64),
      (c.last < (c.update remote physicalMs).last ∧ remote < (c.update remote physicalMs).last) ↔ c.last ≠ .top ∧ remote ≠ .top) ∧
    ∀ events : List HlcEvent, c.ClearRun events → (c.last :: c.timestamps events).Pairwise (· < ·) :=
  ⟨lt_tick_iff c,lt_update_iff c,fun _ h => timestamps_increase h⟩

/-- A new clock that receives the timestamp before the greatest gives the greatest one, and then goes back. -/
theorem clock_goes_back : ¬ ((HlcClock.mk (.mk ⟨0,by decide⟩ 0)).timestamps
    [.update (.mk ⟨i64Max,by decide⟩ ⟨4294967294,by decide⟩) ⟨0,by decide⟩,.tick ⟨0,by decide⟩]).Pairwise (· < ·) := by
  decide +kernel

end HlcClock

end Drevo
