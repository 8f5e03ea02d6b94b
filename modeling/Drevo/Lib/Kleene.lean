import Mathlib

/-! Kleene's logic of three truth values, the third of which is unknown. -/
namespace Lib

abbrev Truth := Option Bool

namespace Truth

def neg (t : Truth) : Truth := t.map (!·)

def and : Truth → Truth → Truth
  | some false,_ => some false
  | _,some false => some false
  | some true,some true => some true
  | _,_ => none

def or : Truth → Truth → Truth
  | some true,_ => some true
  | _,some true => some true
  | some false,some false => some false
  | _,_ => none

def xor : Truth → Truth → Truth
  | some a,some b => some (a != b)
  | _,_ => none

/-- The disjunction of all. -/
def any (l : List Truth) : Truth := l.foldr or (some false)

/-- The conjunction of all. -/
def all (l : List Truth) : Truth := l.foldr and (some true)

variable {t u v : Truth} {l : List Truth}

@[simp] theorem neg_neg (t : Truth) : t.neg.neg = t := by
  rcases t with _ | _ | _ <;> rfl

theorem neg_and (t u : Truth) : (t.and u).neg = t.neg.or u.neg := by
  rcases t with _ | _ | _ <;> rcases u with _ | _ | _ <;> rfl

theorem or_assoc (t u v : Truth) : (t.or u).or v = t.or (u.or v) := by
  rcases t with _ | _ | _ <;> rcases u with _ | _ | _ <;> rcases v with _ | _ | _ <;> rfl

theorem false_or (t : Truth) : Truth.or (some false) t = t := by
  rcases t with _ | _ | _ <;> rfl

theorem or_eq_true : t.or u = some true ↔ t = some true ∨ u = some true := by
  rcases t with _ | _ | _ <;> rcases u with _ | _ | _ <;> simp [or]

theorem or_eq_false : t.or u = some false ↔ t = some false ∧ u = some false := by
  rcases t with _ | _ | _ <;> rcases u with _ | _ | _ <;> simp [or]

theorem foldl_or (t : Truth) (l : List Truth) : l.foldl or t = t.or (any l) := by
  induction l generalizing t with
  | nil => rcases t with _ | _ | _ <;> rfl
  | cons u l ih =>
    rw [List.foldl_cons,ih,or_assoc]
    rfl

theorem neg_all (l : List Truth) : (all l).neg = any (l.map neg) := by
  induction l with
  | nil => rfl
  | cons t l ih =>
    rw [List.map_cons]
    change (t.and (all l)).neg = t.neg.or (any (l.map neg))
    rw [neg_and,ih]

theorem any_eq_true : any l = some true ↔ some true ∈ l := by
  induction l with
  | nil => simp [any]
  | cons t l ih =>
    change t.or (any l) = some true ↔ _
    rw [or_eq_true,ih,List.mem_cons,eq_comm]

theorem any_eq_false : any l = some false ↔ ∀ t ∈ l, t = some false := by
  induction l with
  | nil => simp [any]
  | cons t l ih =>
    change t.or (any l) = some false ↔ _
    rw [or_eq_false,ih,List.forall_mem_cons]

theorem any_cases (l : List Truth) : any l = if some true ∈ l then some true else if none ∈ l then none else some false := by
  split_ifs with htrue hnone
  · exact any_eq_true.mpr htrue
  · cases h : any l with
    | none => rfl
    | some b =>
      cases b with
      | true => exact absurd (any_eq_true.mp h) htrue
      | false => exact absurd (any_eq_false.mp h none hnone) (by simp)
  · refine any_eq_false.mpr (fun t ht => ?_)
    rcases t with _ | _ | _
    · exact absurd ht hnone
    · rfl
    · exact absurd ht htrue

end Truth

end Lib
