import Mathlib

/-! Last-writer-wins registers: under each key a value with the stamp of the write it comes from,
replaced by writes with a greater stamp only. Whatever the order and the repetitions, the write
with the greatest stamp is left. -/
namespace Lib

variable {κ σ α : Type*} [DecidableEq κ] [LinearOrder σ]

structure Write (κ σ α : Type*) where
  key : κ
  stamp : σ
  value : α

abbrev Registers (κ σ α : Type*) := κ → Option (σ × α)

namespace Registers

/-- The key has a value at least as new as `s`. -/
def Covers (r : Registers κ σ α) (k : κ) (s : σ) : Prop := ∃ t v, r k = some (t,v) ∧ s ≤ t

def put (r : Registers κ σ α) (w : Write κ σ α) : Registers κ σ α :=
  Function.update r w.key (some (w.stamp,w.value))

open Classical in
noncomputable def write (r : Registers κ σ α) (w : Write κ σ α) : Registers κ σ α :=
  if r.Covers w.key w.stamp then r else r.put w

noncomputable def writes (r : Registers κ σ α) (ws : List (Write κ σ α)) : Registers κ σ α := ws.foldl write r

@[simp] theorem writes_nil (r : Registers κ σ α) : r.writes [] = r := rfl

@[simp] theorem writes_cons (r : Registers κ σ α) (w : Write κ σ α) (ws : List (Write κ σ α)) :
    r.writes (w :: ws) = (r.write w).writes ws := rfl

theorem writes_append (r : Registers κ σ α) (ws vs : List (Write κ σ α)) :
    r.writes (ws ++ vs) = (r.writes ws).writes vs := List.foldl_append

theorem write_covered {r : Registers κ σ α} {w : Write κ σ α} (h : r.Covers w.key w.stamp) : r.write w = r :=
  if_pos h

theorem write_new {r : Registers κ σ α} {w : Write κ σ α} (h : ¬ r.Covers w.key w.stamp) : r.write w = r.put w :=
  if_neg h

theorem covers_put (r : Registers κ σ α) (w : Write κ σ α) : (r.put w).Covers w.key w.stamp :=
  ⟨w.stamp,w.value,by simp [put],le_rfl⟩

theorem covers_write (r : Registers κ σ α) (w : Write κ σ α) : (r.write w).Covers w.key w.stamp := by
  by_cases h : r.Covers w.key w.stamp
  · rwa [write_covered h]
  · rw [write_new h]
    exact r.covers_put w

theorem Covers.write {r : Registers κ σ α} {k : κ} {s : σ} (h : r.Covers k s) (w : Write κ σ α) :
    (r.write w).Covers k s := by
  by_cases hc : r.Covers w.key w.stamp
  · rwa [write_covered hc]
  · rw [write_new hc]
    obtain ⟨t,v,hr,hs⟩ := h
    by_cases hk : k = w.key
    · subst hk
      refine ⟨w.stamp,w.value,by simp [put],hs.trans ?_⟩
      exact le_of_not_ge (fun hle => hc ⟨t,v,hr,hle⟩)
    · exact ⟨t,v,by rw [put,Function.update_of_ne hk,hr],hs⟩

theorem Covers.writes {r : Registers κ σ α} {k : κ} {s : σ} (h : r.Covers k s) (ws : List (Write κ σ α)) :
    (r.writes ws).Covers k s := by
  induction ws generalizing r with
  | nil => exact h
  | cons w ws ih => exact ih (h.write w)

theorem covers_writes (r : Registers κ σ α) {ws : List (Write κ σ α)} {w : Write κ σ α} (hw : w ∈ ws) :
    (r.writes ws).Covers w.key w.stamp := by
  induction ws generalizing r with
  | nil => simp at hw
  | cons v ws ih =>
    obtain rfl | hw := List.mem_cons.mp hw
    · exact (r.covers_write w).writes ws
    · exact ih (r.write v) hw

theorem writes_origin {r : Registers κ σ α} {ws : List (Write κ σ α)} {k : κ} {t : σ} {v : α}
    (h : r.writes ws k = some (t,v)) : r k = some (t,v) ∨ ⟨k,t,v⟩ ∈ ws := by
  induction ws generalizing r with
  | nil => exact Or.inl h
  | cons w ws ih =>
    obtain hr | hmem := ih h
    · by_cases hc : r.Covers w.key w.stamp
      · rw [write_covered hc] at hr
        exact Or.inl hr
      · rw [write_new hc,put] at hr
        by_cases hk : k = w.key
        · subst hk
          rw [Function.update_self] at hr
          obtain ⟨rfl,rfl⟩ := Prod.mk.inj (Option.some.inj hr)
          exact Or.inr (List.mem_cons_self ..)
        · rw [Function.update_of_ne hk] at hr
          exact Or.inl hr
    · exact Or.inr (List.mem_cons_of_mem _ hmem)

/-- Writes with distinct stamps for each key. -/
def Distinct (ws : List (Write κ σ α)) : Prop :=
  ∀ w ∈ ws, ∀ v ∈ ws, w.key = v.key → w.stamp = v.stamp → w.value = v.value

theorem writes_greatest {ws : List (Write κ σ α)} (hd : Distinct ws) {w : Write κ σ α} (hw : w ∈ ws)
    (hmax : ∀ v ∈ ws, v.key = w.key → v.stamp ≤ w.stamp) :
    writes (fun _ => none) ws w.key = some (w.stamp,w.value) := by
  obtain ⟨t,v,hr,hle⟩ := covers_writes (fun _ => none) hw
  have hmem : ⟨w.key,t,v⟩ ∈ ws := (writes_origin hr).resolve_left (by simp)
  have ht : t = w.stamp := le_antisymm (hmax _ hmem rfl) hle
  subst ht
  have hv : v = w.value := hd _ hmem w hw rfl rfl
  rw [hr,hv]

end Registers
end Lib
