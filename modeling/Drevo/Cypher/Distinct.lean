import Drevo.Cypher.Value
import Drevo.Lib.Binary64Ints
import Drevo.Lib.Grouping

/-! Rows without repeats, and the groups of an aggregation. -/
namespace Drevo.Cypher
open Lib

def dedupRows (rows : List (List Value)) : List (List Value) := distinct Value.eqList rows

def dedupValues (values : List Value) : List Value := distinct Value.eq values

/-- The groups of rows that are there with the values of their group keys; one without rows when there are neither keys
nor rows. -/
def aggregateRows {β : Type} (keyless : Bool) (rows : List (List Value × β)) : List (List Value × List (List Value × β)) :=
  let groups := group Value.eqList Prod.fst rows
  if keyless && groups.isEmpty then [([],[])] else groups

/-! ## Equality of values -/

theorem float_eq_iff (f g : Binary64) : f.eq g = true ↔ ∃ v, f.units = some v ∧ g.units = some v := by
  rw [Binary64.eq,Binary64.partialCmp]
  cases f.units with
  | none => simp
  | some a =>
    cases g.units with
    | none => simp
    | some b =>
      change decide (some (compare a b) = some .eq) = true ↔ _
      rw [decide_eq_true_iff,Option.some_inj,compare_eq_iff_eq]
      constructor
      · rintro rfl
        exact ⟨a,rfl,rfl⟩
      · rintro ⟨v,ha,hb⟩
        exact Option.some_inj.mp (ha.trans hb.symm)

theorem float_eq_comm (f g : Binary64) : f.eq g = g.eq f := by
  rw [Bool.eq_iff_iff,float_eq_iff,float_eq_iff]
  exact exists_congr (fun v => and_comm)

theorem float_eq_refl {f g : Binary64} (h : f.eq g = true) : f.eq f = true := by
  obtain ⟨v,hf,-⟩ := (float_eq_iff f g).mp h
  exact (float_eq_iff f f).mpr ⟨v,hf,hf⟩

theorem same_comm {V : Type} (p q : PathValue V) : p.same q = q.same p := by
  have hzip : ∀ l m : List (RelationshipValue V), ((l.zip m).all (fun r => decide (r.1.id = r.2.id))) = ((m.zip l).all (fun r => decide (r.1.id = r.2.id))) := by
    intro l
    induction l with
    | nil => simp
    | cons r l ih =>
      intro m
      cases m with
      | nil => rfl
      | cons r' m => rw [List.zip_cons_cons,List.zip_cons_cons,List.all_cons,List.all_cons,ih,decide_eq_decide.mpr eq_comm]
  rw [PathValue.same,PathValue.same,decide_eq_decide,hzip,eq_comm,@eq_comm _ (p.nodes.head?.map NodeValue.id)]

theorem same_self {V : Type} (p : PathValue V) : p.same p = true := by
  have hzip : ∀ l : List (RelationshipValue V), ((l.zip l).all (fun r => decide (r.1.id = r.2.id))) = true := by
    intro l
    induction l with
    | nil => rfl
    | cons r l ih => rw [List.zip_cons_cons,List.all_cons,ih,decide_eq_true rfl,Bool.true_and]
  exact decide_eq_true ⟨rfl,rfl,hzip _⟩

mutual
theorem eq_comm_value : ∀ x y : Value, x.eq y = y.eq x
  | .null,y => by cases y <;> rfl
  | .bool a,y => by cases y <;> simp [Value.eq,eq_comm]
  | .integer a,y => by cases y <;> simp [Value.eq,eq_comm]
  | .float a,y => by cases y <;> simp [Value.eq,float_eq_comm]
  | .string a,y => by cases y <;> simp [Value.eq,eq_comm]
  | .list a,y => by cases y <;> simp [Value.eq,eqList_comm a]
  | .map a,y => by cases y <;> simp [Value.eq,eqEntries_comm a]
  | .node a,y => by cases y <;> simp [Value.eq,eq_comm]
  | .relationship a,y => by cases y <;> simp [Value.eq,eq_comm]
  | .path a,y => by cases y <;> simp [Value.eq,same_comm]
theorem eqList_comm : ∀ l m : List Value, Value.eqList l m = Value.eqList m l
  | [],m => by cases m <;> rfl
  | x :: xs,m => by
    cases m with
    | nil => rfl
    | cons y ys => rw [Value.eqList,Value.eqList,eq_comm_value x,eqList_comm xs]
theorem eqEntries_comm : ∀ l m : List (String × Value), Value.eqEntries l m = Value.eqEntries m l
  | [],m => by cases m <;> rfl
  | (k,x) :: xs,m => by
    cases m with
    | nil => rfl
    | cons y ys =>
      obtain ⟨l,y⟩ := y
      rw [Value.eqEntries,Value.eqEntries,eq_comm_value x,eqEntries_comm xs,decide_eq_decide.mpr eq_comm]
end

mutual
theorem eq_refl_value : ∀ {x y : Value}, x.eq y = true → x.eq x = true
  | .null,_,_ => rfl
  | .bool a,_,_ => by simp [Value.eq]
  | .integer a,_,_ => by simp [Value.eq]
  | .float a,y,h => by
    cases y with
    | float b => exact float_eq_refl h
    | integer b =>
      rw [Value.eq,float_eq_comm] at h
      exact float_eq_refl h
    | _ => cases h
  | .string a,_,_ => by simp [Value.eq]
  | .list a,y,h => by
    cases y with
    | list b => exact eqList_refl h
    | _ => cases h
  | .map a,y,h => by
    cases y with
    | map b => exact eqEntries_refl h
    | _ => cases h
  | .node a,_,_ => by simp [Value.eq]
  | .relationship a,_,_ => by simp [Value.eq]
  | .path a,_,_ => same_self a
theorem eqList_refl : ∀ {l m : List Value}, Value.eqList l m = true → Value.eqList l l = true
  | [],_,_ => rfl
  | x :: xs,m,h => by
    cases m with
    | nil => cases h
    | cons y ys =>
      rw [Value.eqList,Bool.and_eq_true] at h ⊢
      exact ⟨eq_refl_value h.1,eqList_refl h.2⟩
theorem eqEntries_refl : ∀ {l m : List (String × Value)}, Value.eqEntries l m = true → Value.eqEntries l l = true
  | [],_,_ => rfl
  | (k,x) :: xs,m,h => by
    cases m with
    | nil => cases h
    | cons y ys =>
      obtain ⟨l,y⟩ := y
      rw [Value.eqEntries,Bool.and_eq_true,Bool.and_eq_true] at h ⊢
      exact ⟨⟨decide_eq_true rfl,eq_refl_value h.1.2⟩,eqEntries_refl h.2⟩
end

theorem value_equality : Equality Value.eq where
  symm h := by rwa [eq_comm_value] at h
  refl h := eq_refl_value h

theorem row_equality : Equality Value.eqList where
  symm h := by rwa [eqList_comm] at h
  refl h := eqList_refl h

/-! ## The order of rows -/

/-- Groups and rows without repeats are what they should be, whatever the order of the rows. -/
structure OrderIndependent {β : Type} (keyless : Bool) (rows : List (List Value × β)) : Prop where
  groups : ∀ rows' : List (List Value × β), rows'.Perm rows → rows' ≠ [] →
    Grouped Value.eqList Prod.fst (aggregateRows keyless rows') ∧ ((aggregateRows keyless rows').flatMap Prod.snd).Perm rows'
  same : ∀ rows' : List (List Value × β), rows'.Perm rows → ∃ groups, groups.Perm (aggregateRows keyless rows') ∧
    List.Forall₂ (Match Value.eqList) (aggregateRows keyless rows) groups
  unequal : ∀ rows' : List (List Value × β), rows'.Perm rows → (dedupRows (rows'.map Prod.fst)).Pairwise (fun x y => Value.eqList x y = false)
  kept : ∀ rows' : List (List Value × β), rows'.Perm rows → ∃ kept, kept.Perm (dedupRows (rows'.map Prod.fst)) ∧
    List.Forall₂ (Same Value.eqList) (dedupRows (rows.map Prod.fst)) kept

/-- And so are the values of an aggregation, as keys of rows and without repeats. -/
structure OrderIndependentValues (values : List Value) : Prop where
  rows : OrderIndependent false (values.map (fun v => ([v],v)))
  unequal : ∀ values' : List Value, values'.Perm values → (dedupValues values').Pairwise (fun x y => x.eq y = false)
  kept : ∀ values' : List Value, values'.Perm values → ∃ kept, kept.Perm (dedupValues values') ∧ List.Forall₂ (Same Value.eq) (dedupValues values) kept

variable {β : Type} {keyless : Bool} {rows : List (List Value × β)}

theorem group_ne_nil (h : rows ≠ []) : group Value.eqList Prod.fst rows ≠ [] := by
  intro hnil
  have hperm : ((group Value.eqList Prod.fst rows).flatMap Prod.snd).Perm rows := group_perm rows
  rw [hnil] at hperm
  exact h hperm.symm.eq_nil

theorem aggregateRows_of_rows (keyless : Bool) (h : rows ≠ []) : aggregateRows keyless rows = group Value.eqList Prod.fst rows := by
  rw [aggregateRows,List.isEmpty_eq_false_iff.mpr (group_ne_nil h),Bool.and_false]
  rfl

theorem orderIndependent_iff_orderFree : OrderIndependent keyless rows ↔ OrderFree Value.eqList Prod.fst rows := by
  obtain rfl | hrows := eq_or_ne rows []
  · -- without rows there is one order
    refine ⟨fun _ => ?_,fun _ => ⟨fun rows' hperm hne => (hne hperm.eq_nil).elim,fun rows' hperm => ?_,fun _ _ => distinct_unequal _,fun rows' hperm => ?_⟩⟩
    · exact (orderFree_iff row_equality []).mpr nofun
    · rw [hperm.eq_nil]
      exact ⟨_,.refl _,List.forall₂_same.mpr (fun g _ => ⟨.refl _,.inl rfl⟩)⟩
    · rw [hperm.eq_nil]
      exact ⟨_,.refl _,.nil⟩
  · have hne : ∀ {rows' : List (List Value × β)}, rows'.Perm rows → rows' ≠ [] := fun hperm hnil => hrows (hnil ▸ hperm).symm.eq_nil
    constructor
    · intro h
      refine ⟨fun rows' hperm => ?_,fun rows' hperm => ?_,h.kept⟩
      · rw [← aggregateRows_of_rows keyless (hne hperm)]
        exact (h.groups rows' hperm (hne hperm)).1
      · rw [← aggregateRows_of_rows keyless (hne hperm),← aggregateRows_of_rows keyless hrows]
        exact h.same rows' hperm
    · intro h
      refine ⟨fun rows' hperm hnil => ?_,fun rows' hperm => ?_,fun _ _ => distinct_unequal _,h.kept⟩
      · rw [aggregateRows_of_rows keyless hnil]
        exact ⟨h.grouped rows' hperm,group_perm rows'⟩
      · rw [aggregateRows_of_rows keyless (hne hperm),aggregateRows_of_rows keyless hrows]
        exact h.same rows' hperm

theorem transitiveOn_values (values : List Value) :
    TransitiveOn Value.eqList ((values.map (fun v => ([v],v))).map Prod.fst) ↔ TransitiveOn Value.eq values := by
  have hone : ∀ a b : Value, Value.eqList [a] [b] = a.eq b := fun a b => Bool.and_true _
  rw [List.map_map]
  constructor
  · intro h a ha b hb c hc
    have habc := h [a] (List.mem_map_of_mem ha) [b] (List.mem_map_of_mem hb) [c] (List.mem_map_of_mem hc)
    rwa [hone,hone,hone] at habc
  · intro h x hx y hy z hz
    obtain ⟨a,ha,rfl⟩ := List.mem_map.mp hx
    obtain ⟨b,hb,rfl⟩ := List.mem_map.mp hy
    obtain ⟨c,hc,rfl⟩ := List.mem_map.mp hz
    have habc := h a ha b hb c hc
    rwa [← hone,← hone,← hone] at habc

/-- Grouping, and rows and values without repeats, do not depend on the order exactly when equality is transitive among
the keys of the rows, and among the values. -/
theorem orderIndependent_iff {β : Type} (keyless : Bool) (rows : List (List Value × β)) (values : List Value) :
    (OrderIndependent keyless rows ↔ TransitiveOn Value.eqList (rows.map Prod.fst)) ∧
      (OrderIndependentValues values ↔ TransitiveOn Value.eq values) := by
  have hrows : ∀ {β : Type} {keyless : Bool} {rows : List (List Value × β)}, OrderIndependent keyless rows ↔ TransitiveOn Value.eqList (rows.map Prod.fst) :=
    orderIndependent_iff_orderFree.trans (orderFree_iff row_equality _)
  refine ⟨hrows,?_⟩
  constructor
  · exact fun h => (transitiveOn_values values).mp (hrows.mp h.rows)
  · intro h
    have hfree : OrderFree Value.eq id values := (orderFree_iff value_equality values).mpr (by rwa [List.map_id values])
    refine ⟨hrows.mpr ((transitiveOn_values values).mpr h),fun _ _ => distinct_unequal _,fun values' hperm => ?_⟩
    have hkept := hfree.kept values' hperm
    rwa [List.map_id,List.map_id] at hkept

/-- Two integers that are equal to one float: without repeats there is one row in one order, and there are two in another. -/
theorem rounded_rows_apart :
    let one : List Value := [.integer ⟨9007199254740992,by decide⟩]
    let other : List Value := [.integer ⟨9007199254740993,by decide⟩]
    let rounded : List Value := [.float (.ofInt 9007199254740992)]
    (dedupRows [rounded,one,other]).length = 1 ∧ (dedupRows [one,other,rounded]).length = 2 ∧
      ¬ OrderIndependent false [(one,()),(rounded,()),(other,())] := by
  intro one other rounded
  refine ⟨by decide +kernel,by decide +kernel,fun h => ?_⟩
  have hfree := orderIndependent_iff_orderFree.mp h
  have htransitive := (orderFree_iff row_equality _).mp hfree
  have hequal := htransitive one List.mem_cons_self rounded (by simp) other (by simp) (by decide +kernel) (by decide +kernel)
  have hunequal : Value.eqList one other = false := by decide +kernel
  rw [hunequal] at hequal
  cases hequal

/-! ## Where equality is transitive -/

mutual
def Value.Plain : Value → Prop
  | .integer i => Short i.1.natAbs
  | .list items => PlainList items
  | .map entries => PlainEntries entries
  | _ => True
def PlainList : List Value → Prop
  | [] => True
  | x :: xs => x.Plain ∧ PlainList xs
def PlainEntries : List (String × Value) → Prop
  | [] => True
  | (_,x) :: xs => x.Plain ∧ PlainEntries xs
end

/-- The number of units of a number. -/
def Value.units : Value → Option ℤ
  | .integer i => some (i.1*ones)
  | .float f => f.units
  | _ => none

end Drevo.Cypher
