import Drevo.Lib.Edits

/-! The edit distance of two strings by one row of numbers, which every character of the first string
overwrites, and the search for it that gives up above a bound. -/
namespace Drevo.Levenshtein
open Lib

/-- One cell of a row: `acc` is the row so far and the old value diagonally above the cell. -/
def cell (ca : Char) (acc : List ℕ × ℕ) (p : Char × ℕ) : List ℕ × ℕ :=
  let above := acc.1.getD (p.2+1) 0
  (acc.1.set (p.2+1) (min (min (acc.2+if ca = p.1 then 0 else 1) (above+1)) (acc.1.getD p.2 0+1)),above)

/-- The row for a character of the first string, where the row above stood. -/
def nextRow (b : List Char) (row : List ℕ) (p : Char × ℕ) : List ℕ :=
  (b.zipIdx.foldl (cell p.1) (row.set 0 (p.2+1),row.getD 0 0)).1

/-- The fewest single-character insertions, deletions and substitutions that turn one string into another. -/
def distance (a b : String) : ℕ :=
  (a.toList.zipIdx.foldl (nextRow b.toList) (List.range (b.toList.length+1))).getD b.toList.length 0

/-- A cell, and the least value of the row up to it. -/
def cellBest (ca : Char) (acc : (List ℕ × ℕ) × ℕ) (p : Char × ℕ) : (List ℕ × ℕ) × ℕ :=
  let next := cell ca acc.1 p
  (next,min acc.2 (next.1.getD (p.2+1) 0))

/-- The rows, as long as some cell of each is within the bound. -/
def rowsWithin (b : List Char) (max : ℕ) : List (Char × ℕ) → List ℕ → Option (List ℕ)
  | [],row => some row
  | p :: rest,row =>
    let next := b.zipIdx.foldl (cellBest p.1) ((row.set 0 (p.2+1),row.getD 0 0),p.2+1)
    if max < next.2 then none else rowsWithin b max rest next.1.1

def distanceWithin (a b : String) (max : ℕ) : Option ℕ :=
  if max < a.toList.length-b.toList.length+(b.toList.length-a.toList.length) then none
  else
    (rowsWithin b.toList max a.toList.zipIdx (List.range (b.toList.length+1))).bind (fun row =>
      let d := row.getD b.toList.length 0
      if d ≤ max then some d else none)

/-! ## What a row holds -/

/-- The values of a function from zero on. -/
def table (n : ℕ) (f : ℕ → ℕ) : List ℕ := (List.range n).map f

theorem table_getD {n : ℕ} (f : ℕ → ℕ) {i : ℕ} (hi : i < n) : (table n f).getD i 0 = f i := by
  rw [List.getD_eq_getElem?_getD,table,List.getElem?_map,List.getElem?_range hi]
  rfl

theorem table_set (n : ℕ) (f : ℕ → ℕ) (i v : ℕ) : (table n f).set i v = table n (Function.update f i v) := by
  apply List.ext_getElem
  · simp [table]
  · intro k hk hk'
    rw [List.getElem_set]
    simp only [table,List.getElem_map,List.getElem_range,Function.update_apply]
    simp only [eq_comm]

theorem table_congr {n : ℕ} {f g : ℕ → ℕ} (h : ∀ i < n, f i = g i) : table n f = table n g :=
  List.map_congr_left (fun i hi => h i (List.mem_range.mp hi))

def costs (pre b : List Char) (j : ℕ) : ℕ := lev pre.reverse (b.take j).reverse

theorem costs_zero (pre b : List Char) : costs pre b 0 = pre.length := by
  rw [costs,List.take_zero,List.reverse_nil,lev_nil_right,List.length_reverse]

theorem costs_nil (b : List Char) {j : ℕ} (hj : j ≤ b.length) : costs [] b j = j := by
  rw [costs,List.reverse_nil,lev_nil,List.length_reverse,List.length_take,Nat.min_eq_left hj]

theorem costs_step (pre seen rest : List Char) (ca cb : Char) :
    costs (pre ++ [ca]) (seen ++ cb :: rest) (seen.length+1) =
      min (min (costs pre (seen ++ cb :: rest) seen.length+if ca = cb then 0 else 1)
        (costs pre (seen ++ cb :: rest) (seen.length+1)+1)) (costs (pre ++ [ca]) (seen ++ cb :: rest) seen.length+1) := by
  have hshort : (seen ++ cb :: rest).take seen.length = seen := List.take_left
  have hlong : (seen ++ cb :: rest).take (seen.length+1) = seen ++ [cb] := by
    rw [show seen ++ cb :: rest = (seen ++ [cb]) ++ rest by simp]
    exact List.take_left' (by simp)
  simp only [costs,hshort,hlong,List.reverse_append,List.reverse_singleton,List.singleton_append]
  exact lev_cons_cons ca cb pre.reverse seen.reverse

def between (pre b : List Char) (ca : Char) (j k : ℕ) : ℕ := if k ≤ j then costs (pre ++ [ca]) b k else costs pre b k

theorem cell_between (pre seen rest : List Char) (ca cb : Char) :
    cell ca (table ((seen ++ cb :: rest).length+1) (between pre (seen ++ cb :: rest) ca seen.length),
      costs pre (seen ++ cb :: rest) seen.length) (cb,seen.length) =
    (table ((seen ++ cb :: rest).length+1) (between pre (seen ++ cb :: rest) ca (seen.length+1)),
      costs pre (seen ++ cb :: rest) (seen.length+1)) := by
  have hlen : seen.length+1 < (seen ++ cb :: rest).length+1 := by simp
  have habove : between pre (seen ++ cb :: rest) ca seen.length (seen.length+1) = costs pre (seen ++ cb :: rest) (seen.length+1) :=
    if_neg (by omega)
  have hleft : between pre (seen ++ cb :: rest) ca seen.length seen.length = costs (pre ++ [ca]) (seen ++ cb :: rest) seen.length :=
    if_pos le_rfl
  unfold cell
  simp only
  rw [table_getD _ hlen,table_getD _ (by omega),habove,hleft,← costs_step,table_set]
  refine congrArg (·,_) (table_congr ?_)
  intro k _
  rw [Function.update_apply,between,between]
  split_ifs with hk hk' hk'
  · rw [hk]
  · omega
  · rfl
  · omega
  · omega
  · rfl

theorem cells_between (pre rest : List Char) (ca : Char) : ∀ seen : List Char,
    (rest.zipIdx seen.length).foldl (cell ca) (table ((seen ++ rest).length+1) (between pre (seen ++ rest) ca seen.length),
      costs pre (seen ++ rest) seen.length) =
    (table ((seen ++ rest).length+1) (between pre (seen ++ rest) ca (seen ++ rest).length),
      costs pre (seen ++ rest) (seen ++ rest).length) := by
  induction rest with
  | nil =>
    intro seen
    simp
  | cons cb rest ih =>
    intro seen
    rw [List.zipIdx_cons,List.foldl_cons,cell_between]
    have hnext := ih (seen ++ [cb])
    simp only [List.append_assoc,List.singleton_append,List.length_append,List.length_singleton] at hnext
    simp only [List.length_append]
    exact hnext

theorem row_start (pre b : List Char) (ca : Char) :
    (table (b.length+1) (costs pre b)).set 0 (pre.length+1) = table (b.length+1) (between pre b ca 0) := by
  rw [table_set]
  refine table_congr ?_
  intro k _
  rw [Function.update_apply,between]
  split_ifs with hk hk' hk'
  · rw [hk,costs_zero,List.length_append,List.length_singleton]
  · omega
  · omega
  · rfl

theorem row_end (pre b : List Char) (ca : Char) :
    table (b.length+1) (between pre b ca b.length) = table (b.length+1) (costs (pre ++ [ca]) b) :=
  table_congr (fun _ hk => if_pos (by omega))

theorem nextRow_costs (pre b : List Char) (ca : Char) :
    nextRow b (table (b.length+1) (costs pre b)) (ca,pre.length) = table (b.length+1) (costs (pre ++ [ca]) b) := by
  have hcells := cells_between pre b ca []
  rw [List.nil_append,List.length_nil] at hcells
  rw [nextRow,row_start pre b ca,table_getD _ (by omega),hcells,row_end]

theorem rows_costs (b rest : List Char) : ∀ pre : List Char,
    (rest.zipIdx pre.length).foldl (nextRow b) (table (b.length+1) (costs pre b)) = table (b.length+1) (costs (pre ++ rest) b) := by
  induction rest with
  | nil =>
    intro pre
    rw [List.append_nil]
    rfl
  | cons ca rest ih =>
    intro pre
    rw [List.zipIdx_cons,List.foldl_cons,nextRow_costs]
    have hnext := ih (pre ++ [ca])
    rw [List.length_append,List.length_singleton,List.append_assoc] at hnext
    exact hnext

theorem first_row (b : List Char) : List.range (b.length+1) = table (b.length+1) (costs [] b) := by
  have hstart : table (b.length+1) (costs [] b) = table (b.length+1) id :=
    table_congr (fun j hj => costs_nil b (Nat.lt_succ_iff.mp hj))
  rw [hstart]
  exact (List.map_id _).symm

theorem costs_all (a b : List Char) : costs a b b.length = lev a b := by
  rw [costs,List.take_length,lev_reverse]

theorem distance_lev (a b : String) : distance a b = lev a.toList b.toList := by
  have hrows := rows_costs b.toList a.toList []
  rw [List.length_nil,List.nil_append] at hrows
  rw [distance,first_row,hrows,table_getD _ (by omega),costs_all]

/-! ## Giving up early -/

theorem cellsBest_cells (ca : Char) (l : List (Char × ℕ)) : ∀ acc : (List ℕ × ℕ) × ℕ,
    (l.foldl (cellBest ca) acc).1 = l.foldl (cell ca) acc.1 := by
  induction l with
  | nil => exact fun _ => rfl
  | cons p l ih => exact fun acc => ih (cellBest ca acc p)

theorem cellsBest_least (pre rest : List Char) (ca : Char) : ∀ (seen : List Char) (best : ℕ),
    (∀ k ≤ seen.length, best ≤ costs (pre ++ [ca]) (seen ++ rest) k) → ∀ k ≤ (seen ++ rest).length,
    ((rest.zipIdx seen.length).foldl (cellBest ca) ((table ((seen ++ rest).length+1) (between pre (seen ++ rest) ca seen.length),
      costs pre (seen ++ rest) seen.length),best)).2 ≤ costs (pre ++ [ca]) (seen ++ rest) k := by
  induction rest with
  | nil =>
    intro seen best h k hk
    rw [List.append_nil] at hk
    exact h k hk
  | cons cb rest ih =>
    intro seen best h k hk
    rw [List.zipIdx_cons,List.foldl_cons,cellBest,cell_between]
    simp only
    have hlen : seen.length+1 < (seen ++ cb :: rest).length+1 := by simp
    rw [table_getD _ hlen,between,if_pos le_rfl]
    have hnext := ih (seen ++ [cb]) (min best (costs (pre ++ [ca]) (seen ++ cb :: rest) (seen.length+1)))
    simp only [List.append_assoc,List.singleton_append,List.length_append,List.length_singleton] at hnext
    simp only [List.length_append] at hk ⊢
    refine hnext ?_ k hk
    intro j hj
    by_cases heq : j = seen.length+1
    · rw [heq]
      exact min_le_right _ _
    · exact (min_le_left _ _).trans (h j (by omega))

theorem lev_above {pre rest b : List Char} {n : ℕ} (h : ∀ k ≤ b.length, n < costs pre b k) : n < lev (pre ++ rest) b := by
  rw [← lev_reverse,List.reverse_append]
  obtain ⟨s,hs,hle⟩ := lev_suffix rest.reverse pre.reverse b.reverse
  refine lt_of_lt_of_le ?_ hle
  obtain ⟨t,ht⟩ := hs
  have hbefore : b.take s.length = s.reverse := by
    have hb : b = s.reverse ++ t.reverse := by
      rw [← List.reverse_append,ht,List.reverse_reverse]
    rw [hb]
    exact List.take_left' (by simp)
  have hlen := congrArg List.length ht
  rw [List.length_append,List.length_reverse] at hlen
  have hcell := h s.length (by omega)
  rw [costs,hbefore,List.reverse_reverse] at hcell
  exact hcell

theorem rowsWithin_costs (b : List Char) (max : ℕ) (rest : List Char) : ∀ pre : List Char,
    rowsWithin b max (rest.zipIdx pre.length) (table (b.length+1) (costs pre b)) = some (table (b.length+1) (costs (pre ++ rest) b)) ∨
    rowsWithin b max (rest.zipIdx pre.length) (table (b.length+1) (costs pre b)) = none ∧ max < lev (pre ++ rest) b := by
  induction rest with
  | nil =>
    intro pre
    rw [List.append_nil]
    exact .inl rfl
  | cons ca rest ih =>
    intro pre
    rw [List.zipIdx_cons,rowsWithin]
    have hcells := cells_between pre b ca []
    have hleast := cellsBest_least pre b ca [] (pre.length+1)
    rw [List.nil_append,List.length_nil] at hcells
    simp only [List.nil_append,List.length_nil] at hleast
    rw [row_start pre b ca,table_getD _ (by omega)]
    simp only
    split_ifs with hstop
    · right
      refine ⟨rfl,?_⟩
      rw [show pre ++ ca :: rest = (pre ++ [ca]) ++ rest by simp]
      refine lev_above (fun k hk => lt_of_lt_of_le hstop (hleast ?_ k hk))
      intro j hj
      rw [Nat.le_zero.mp hj,costs_zero,List.length_append,List.length_singleton]
    · rw [cellsBest_cells,hcells,row_end]
      have hnext := ih (pre ++ [ca])
      rw [List.length_append,List.length_singleton,List.append_assoc] at hnext
      exact hnext

theorem distanceWithin_lev (a b : String) (max : ℕ) :
    distanceWithin a b max = if lev a.toList b.toList ≤ max then some (lev a.toList b.toList) else none := by
  have hlen := lev_length a.toList b.toList
  unfold distanceWithin
  split_ifs with hfar hle hle
  · omega
  · rfl
  · obtain hrows | ⟨-,hstop⟩ := rowsWithin_costs b.toList max a.toList []
    · rw [List.length_nil,List.nil_append] at hrows
      rw [first_row,hrows,Option.bind_some,table_getD _ (by omega),costs_all]
      exact if_pos hle
    · rw [List.nil_append] at hstop
      omega
  · obtain hrows | ⟨hnone,-⟩ := rowsWithin_costs b.toList max a.toList []
    · rw [List.length_nil,List.nil_append] at hrows
      rw [first_row,hrows,Option.bind_some,table_getD _ (by omega),costs_all]
      exact if_neg hle
    · rw [List.length_nil] at hnone
      rw [first_row,hnone]
      rfl

end Drevo.Levenshtein
