import Drevo.Lib.Index

/-! A function remembered by key, in a table that starts over when it is full. -/
set_option linter.unusedSectionVars false

namespace Lib.Memo
open Std

variable {Q κ A : Type} [Ord κ] [TransOrd κ] [LawfulEqOrd κ] [DecidableEq κ]

/-- The answer to a question: the one remembered for its key, or else the value of the function. -/
def ask (limit : ℕ) (key : Q → κ) (f : Q → A) (m : Map κ A) (q : Q) : A × Map κ A :=
  match m[key q]? with
  | some hit => (hit,m)
  | none => (f q,(if limit ≤ m.size then ∅ else m).insert (key q) (f q))

/-- The answers to one question after the other. -/
def answers (limit : ℕ) (key : Q → κ) (f : Q → A) (m : Map κ A) : List Q → List A
  | [] => []
  | q :: qs => (ask limit key f m q).1 :: answers limit key f (ask limit key f m q).2 qs

section Sound
variable {limit : ℕ} {key : Q → κ} {f : Q → A} {m : Map κ A} {D : Set Q}

/-- All that is remembered was answered to a question of `D`. -/
def Remembers (key : Q → κ) (f : Q → A) (D : Set Q) (m : Map κ A) : Prop :=
  ∀ (k : κ) (a : A), m[k]? = some a → ∃ q ∈ D, key q = k ∧ f q = a

theorem remembers_empty : Remembers key f D ∅ := by
  intro k a h
  simp at h

theorem ask_remembers (h : Remembers key f D m) {q : Q} (hq : q ∈ D) : Remembers key f D (ask limit key f m q).2 := by
  unfold ask
  cases hhit : m[key q]? with
  | some hit => exact h
  | none =>
    have hbase : Remembers key f D (if limit ≤ m.size then ∅ else m) := by
      split_ifs
      · exact remembers_empty
      · exact h
    intro k a hk
    rw [Map.get_insert] at hk
    by_cases he : key q = k
    · rw [if_pos he] at hk
      exact ⟨q,hq,he,Option.some.inj hk⟩
    · rw [if_neg he] at hk
      exact hbase k a hk

theorem ask_eq (h : Remembers key f D m) (hkey : ∀ q ∈ D, ∀ q' ∈ D, key q = key q' → f q = f q') {q : Q} (hq : q ∈ D) :
    (ask limit key f m q).1 = f q := by
  unfold ask
  cases hhit : m[key q]? with
  | none => rfl
  | some hit =>
    obtain ⟨q',hq',hk,rfl⟩ := h _ _ hhit
    exact hkey q' hq' q hq hk

theorem answers_eq (h : Remembers key f D m) (hkey : ∀ q ∈ D, ∀ q' ∈ D, key q = key q' → f q = f q') {qs : List Q}
    (hqs : ∀ q ∈ qs, q ∈ D) : answers limit key f m qs = qs.map f := by
  induction qs generalizing m with
  | nil => rfl
  | cons q qs ih =>
    have hq := hqs q (by simp)
    rw [answers,ask_eq h hkey hq,ih (ask_remembers h hq) (fun q' hq' => hqs q' (by simp [hq'])),List.map_cons]

theorem answers_iff : (∀ qs : List Q, (∀ q ∈ qs, q ∈ D) → answers limit key f ∅ qs = qs.map f) ↔
    ∀ q ∈ D, ∀ q' ∈ D, key q = key q' → f q = f q' := by
  constructor
  · intro h q hq q' hq' hk
    have hboth := h [q,q'] (by simp [hq,hq'])
    have hfirst : ask limit key f ∅ q = (f q,(∅ : Map κ A).insert (key q) (f q)) := by simp [ask]
    have hsecond : (ask limit key f ((∅ : Map κ A).insert (key q) (f q)) q').1 = f q := by simp [ask,hk]
    simp only [answers,hfirst,hsecond,List.map_cons,List.map_nil,List.cons.injEq,and_true,true_and] at hboth
    exact hboth
  · intro hkey qs hqs
    exact answers_eq remembers_empty hkey hqs

end Sound
end Lib.Memo
