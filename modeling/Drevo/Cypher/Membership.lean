import Drevo.Cypher.Eval

/-! Membership in a list against the disjunction of equalities, and the connectives against Kleene's logic. -/
namespace Drevo.Cypher
open Lib

variable {prims : Primitives} {x : Value} {items : List Value} {span : Span} {t u : Truth}

/-! ## Truth values -/

@[simp] theorem asTruth_truth (expected : String) (span : Span) (t : Truth) : asTruth expected span (truth t) = .ok t := by
  rcases t with _ | _ | _ <;> rfl

theorem evalUnary_not (t : Truth) : evalUnary .not (truth t) span = .ok (truth t.neg) := by
  rcases t with _ | _ | _ <;> rfl

theorem boolean_and (t u : Truth) : boolean .and (truth t) (truth u) span = .ok (truth (t.and u)) := by
  rcases t with _ | _ | _ <;> rcases u with _ | _ | _ <;> rfl

theorem boolean_or (t u : Truth) : boolean .or (truth t) (truth u) span = .ok (truth (t.or u)) := by
  rcases t with _ | _ | _ <;> rcases u with _ | _ | _ <;> rfl

theorem boolean_xor (t u : Truth) : boolean .xor (truth t) (truth u) span = .ok (truth (t.xor u)) := by
  rcases t with _ | _ | _ <;> rcases u with _ | _ | _ <;> rfl

theorem truth_inj : truth t = truth u ↔ t = u := by
  rcases t with _ | _ | _ <;> rcases u with _ | _ | _ <;> simp [truth]

/-! ## Membership -/

/-- Whether two values are equal, unknown when one is null. -/
def equalTruth (x v : Value) : Truth := if x.isNull || v.isNull then none else some (x.eq v)

theorem comparison_eq (x v : Value) (span : Span) : comparison .eq x v span = .ok (truth (equalTruth x v)) := by
  unfold comparison equalTruth
  split_ifs <;> rfl

/-- What the code finds about membership. -/
def memberTruth (x : Value) (items : List Value) : Truth :=
  if ∃ v ∈ items, v.isNull = false ∧ x.eq v = true then some true else if ∃ v ∈ items, v.isNull = true then none else some false

instance (x : Value) (items : List Value) : Decidable (∃ v ∈ items, v.isNull = false ∧ x.eq v = true) := List.decidableBEx _ _

theorem inItems_eq (x : Value) (sawNull : Bool) (items : List Value) :
    inItems x sawNull items = truth (if ∃ v ∈ items, v.isNull = false ∧ x.eq v = true then some true
      else if sawNull = true ∨ ∃ v ∈ items, v.isNull = true then none else some false) := by
  induction items generalizing sawNull with
  | nil => cases sawNull <;> simp [inItems,truth]
  | cons v items ih =>
    rw [inItems]
    by_cases hnull : v.isNull = true
    · rw [if_pos hnull,ih]
      simp [hnull]
    · rw [if_neg hnull]
      by_cases heq : x.eq v = true
      · rw [if_pos heq]
        simp [hnull,heq,truth]
      · rw [if_neg heq,ih]
        simp [hnull,heq]

theorem evalIn_eq (x : Value) (items : List Value) (span : Span) : evalIn x (.list items) span = .ok (truth (memberTruth x items)) := by
  rw [evalIn,inItems_eq,memberTruth]
  simp

/-- It is the disjunction of the equalities, unless a null is looked for in a list that is not empty and has none. -/
theorem memberTruth_iff (x : Value) (items : List Value) :
    memberTruth x items = Truth.any (items.map (equalTruth x)) ↔ (x.isNull = true → items = [] ∨ ∃ v ∈ items, v.isNull = true) := by
  rw [Truth.any_cases,memberTruth]
  by_cases hx : x.isNull = true
  · have hunknown : ∀ v, equalTruth x v = none := fun v => by simp [equalTruth,hx]
    have hnotEq : ∀ v, v.isNull = false → x.eq v = false := by
      intro v hv
      cases x <;> cases v <;> simp [Value.isNull,Value.eq] at hx hv ⊢
    have hnone : ¬ ∃ v ∈ items, v.isNull = false ∧ x.eq v = true := by
      rintro ⟨v,-,hv,heq⟩
      rw [hnotEq v hv] at heq
      cases heq
    have htrue : some true ∉ items.map (equalTruth x) := by
      simp [hunknown]
    have hmem : none ∈ items.map (equalTruth x) ↔ items ≠ [] := by
      simp only [List.mem_map,hunknown,and_true]
      exact ⟨fun h => h.elim (fun _ hv => List.ne_nil_of_mem hv),List.exists_mem_of_ne_nil items⟩
    rw [if_neg hnone,if_neg htrue]
    simp only [hx,true_implies,hmem]
    by_cases hnil : items = []
    · simp [hnil]
    · by_cases hsome : ∃ v ∈ items, v.isNull = true
      · simp only [hsome,hnil,if_true,not_false_eq_true,or_true,ne_eq]
      · simp only [hsome,hnil,if_true,if_false,not_false_eq_true,or_false,ne_eq,iff_false]
        exact Option.some_ne_none _
  · refine iff_of_true ?_ (fun h => absurd h hx)
    have htrue : some true ∈ items.map (equalTruth x) ↔ ∃ v ∈ items, v.isNull = false ∧ x.eq v = true := by
      simp only [List.mem_map]
      refine exists_congr (fun v => and_congr_right (fun _ => ?_))
      unfold equalTruth
      cases v.isNull <;> simp [hx]
    have hnone : none ∈ items.map (equalTruth x) ↔ ∃ v ∈ items, v.isNull = true := by
      simp only [List.mem_map]
      refine exists_congr (fun v => and_congr_right (fun _ => ?_))
      unfold equalTruth
      cases v.isNull <;> simp [hx]
    simp only [htrue,hnone]

/-! ## In both evaluators -/

/-- An evaluator that computes the connectives from the values of their operands. -/
structure Compositional (prims : Primitives) (ev : Expression → ExecResult Value) : Prop where
  literal : ∀ v, ev (.literal v) = .ok v
  unary : ∀ op expr span, ev (.unary op expr span) = do evalUnary op (← ev expr) span
  binary : ∀ op lhs rhs span, ev (.binary op lhs rhs span) = do evalBinary prims op (← ev lhs) (← ev rhs) span
  inList : ∀ expr list span, ev (.inList expr list span) = do evalIn (← ev expr) (← ev list) span
  list : ∀ {items values}, List.Forall₂ (fun e v => ev e = .ok v) items values → ev (.list items) = .ok (.list values)

theorem eval_compositional (prims : Primitives) (row : Bindings) : Compositional prims (fun e => eval prims e row) where
  literal v := by rw [eval]
  unary op expr span := by rw [eval]
  binary op lhs rhs span := by rw [eval]
  inList expr list span := by rw [eval]
  list {items values} h := by
    have hitems : evalItems prims items row = .ok values := by
      induction h with
      | nil => rw [evalItems]
      | cons hv _ ih =>
        rw [evalItems,hv,ih]
        rfl
    rw [eval,hitems]
    rfl

theorem evalWithAgg_compositional (prims : Primitives) (rows : List Bindings) : Compositional prims (fun e => evalWithAgg prims e rows) where
  literal v := by rw [evalWithAgg,eval]
  unary op expr span := by rw [evalWithAgg]
  binary op lhs rhs span := by rw [evalWithAgg]
  inList expr list span := by rw [evalWithAgg]
  list {items values} h := by
    have hitems : evalItemsWithAgg prims items rows = .ok values := by
      induction h with
      | nil => rw [evalItemsWithAgg]
      | cons hv _ ih =>
        rw [evalItemsWithAgg,hv,ih]
        rfl
    rw [evalWithAgg,hitems]
    rfl

/-- `x = a₁ OR … OR x = aₙ`, false for no operands. -/
def disjunction (expr : Expression) (span : Span) : List Expression → Expression
  | [] => .literal (.bool false)
  | a :: rest => rest.foldl (fun acc b => .binary .or acc (.binary .eq expr b span) span) (.binary .eq expr a span)

variable {ev : Expression → ExecResult Value} {expr : Expression} {exprs : List Expression}

theorem Compositional.equality (h : Compositional prims ev) {a : Expression} {v : Value} (hx : ev expr = .ok x) (ha : ev a = .ok v) :
    ev (.binary .eq expr a span) = .ok (truth (equalTruth x v)) := by
  rw [h.binary,hx,ha]
  exact comparison_eq x v span

theorem Compositional.foldl_or (h : Compositional prims ev) (hx : ev expr = .ok x) (hitems : List.Forall₂ (fun e v => ev e = .ok v) exprs items)
    {acc : Expression} (hacc : ev acc = .ok (truth t)) :
    ev (exprs.foldl (fun acc b => .binary .or acc (.binary .eq expr b span) span) acc) = .ok (truth ((items.map (equalTruth x)).foldl Truth.or t)) := by
  induction hitems generalizing acc t with
  | nil => exact hacc
  | cons hv _ ih =>
    rw [List.foldl_cons,List.map_cons,List.foldl_cons]
    refine ih ?_
    rw [h.binary,hacc,h.equality hx hv]
    exact boolean_or _ _

theorem Compositional.disjunction (h : Compositional prims ev) (hx : ev expr = .ok x) (hitems : List.Forall₂ (fun e v => ev e = .ok v) exprs items) :
    ev (disjunction expr span exprs) = .ok (truth (Truth.any (items.map (equalTruth x)))) := by
  cases hitems with
  | nil => exact h.literal _
  | cons hv hrest =>
    rw [Cypher.disjunction,h.foldl_or hx hrest (h.equality hx hv),Truth.foldl_or]
    rfl

theorem Compositional.membership (h : Compositional prims ev) (hx : ev expr = .ok x) (hitems : List.Forall₂ (fun e v => ev e = .ok v) exprs items) :
    ev (.inList expr (.list exprs) span) = .ok (truth (memberTruth x items)) := by
  rw [h.inList,hx,h.list hitems]
  exact evalIn_eq x items span

/-! ## Predicates over lists -/

/-- Truth values are counted. -/
def countsOf (l : List Truth) : Counts := ⟨l.count (some true),l.count (some false),l.count none⟩

theorem foldlM_counts {predicate : Value → ExecResult Value} {ts : List Truth} (h : List.Forall₂ (fun v t => predicate v = .ok (truth t)) items ts)
    (c : Counts) : items.foldlM (fun (c : Counts) item => do c.add span (← predicate item)) c =
      .ok ⟨c.trues+(countsOf ts).trues,c.falses+(countsOf ts).falses,c.nulls+(countsOf ts).nulls⟩ := by
  induction h generalizing c with
  | nil => rfl
  | @cons v t items ts hv _ ih =>
    rw [List.foldlM_cons,hv]
    rcases t with _ | _ | _ <;>
    · change List.foldlM _ _ items = _
      rw [ih]
      simp [countsOf,Nat.add_assoc,Nat.add_comm 1]

theorem evalListPredicate_truth {predicate : Value → ExecResult Value} {ts : List Truth}
    (h : List.Forall₂ (fun v t => predicate v = .ok (truth t)) items ts) :
    evalListPredicate .all (.list items) predicate span = .ok (truth (Truth.all ts)) ∧
      evalListPredicate .any (.list items) predicate span = .ok (truth (Truth.any ts)) ∧
      evalListPredicate .none (.list items) predicate span = .ok (truth (Truth.any ts).neg) := by
  have hfold := @foldlM_counts _ span _ _ h ⟨0,0,0⟩
  have hverdict : ∀ kind : ListPredicateKind, evalListPredicate kind (.list items) predicate span = .ok (kind.verdict (countsOf ts)) := by
    intro kind
    rw [evalListPredicate,hfold]
    simp only [Nat.zero_add]
    rfl
  have hall : Truth.all ts = (Truth.any (ts.map Truth.neg)).neg := by rw [← Truth.neg_all,Truth.neg_neg]
  have hcount : ∀ t : Truth, 0 < ts.count t ↔ t ∈ ts := fun t => List.count_pos_iff
  have hneg : ∀ t : Truth, t ∈ ts.map Truth.neg ↔ t.neg ∈ ts := by
    intro t
    rw [List.mem_map]
    refine ⟨?_,fun ht => ⟨t.neg,ht,Truth.neg_neg t⟩⟩
    rintro ⟨u,hu,rfl⟩
    rwa [Truth.neg_neg]
  refine ⟨?_,?_,?_⟩
  · rw [hverdict,hall,Truth.any_cases]
    simp only [ListPredicateKind.verdict,countsOf,hcount,hneg]
    split_ifs <;> simp_all [truth,Truth.neg]
  · rw [hverdict,Truth.any_cases]
    simp only [ListPredicateKind.verdict,countsOf,hcount]
    split_ifs <;> rfl
  · rw [hverdict,Truth.any_cases]
    simp only [ListPredicateKind.verdict,countsOf,hcount]
    split_ifs <;> rfl

mutual
theorem evalWithAgg_plain : ∀ (e : Expression) (rows : List Bindings), containsAggregation e = false → evalWithAgg prims e rows = eval prims e (firstRow rows)
  | .literal _,_,_ => by rw [evalWithAgg]
  | .variable _ _,_,_ => by rw [evalWithAgg]
  | .other _,_,_ => by rw [evalWithAgg]
  | .aggregation _ _ _,_,h => by cases h
  | .list items,rows,h => by rw [evalWithAgg,eval,evalItemsWithAgg_plain items rows h]
  | .unary _ e _,rows,h => by rw [evalWithAgg,eval,evalWithAgg_plain e rows h]
  | .isNull e _,rows,h => by rw [evalWithAgg,eval,evalWithAgg_plain e rows h]
  | .binary _ l r _,rows,h => by
    rw [containsAggregation,Bool.or_eq_false_iff] at h
    rw [evalWithAgg,eval,evalWithAgg_plain l rows h.1,evalWithAgg_plain r rows h.2]
  | .inList e l _,rows,h => by
    rw [containsAggregation,Bool.or_eq_false_iff] at h
    rw [evalWithAgg,eval,evalWithAgg_plain e rows h.1,evalWithAgg_plain l rows h.2]
  | .listPredicate _ _ l _ _,rows,h => by
    rw [containsAggregation] at h
    rw [evalWithAgg,h]
    rfl
theorem evalItemsWithAgg_plain : ∀ (es : List Expression) (rows : List Bindings), anyAggregation es = false →
    evalItemsWithAgg prims es rows = evalItems prims es (firstRow rows)
  | [],_,_ => by rw [evalItemsWithAgg,evalItems]
  | e :: es,rows,h => by
    rw [anyAggregation,Bool.or_eq_false_iff] at h
    rw [evalItemsWithAgg,evalItems,evalWithAgg_plain e rows h.1,evalItemsWithAgg_plain es rows h.2]
end

/-- The row in which the predicate over a list of a group is evaluated, but for the item. -/
def groupScope (prims : Primitives) (list : Expression) (rows : List Bindings) : Bindings :=
  if containsAggregation list then
    match evalWithAgg prims list rows with
    | .ok v => (firstRow rows).insert (aggregationName (firstRow rows)) v
    | .error _ => firstRow rows
  else firstRow rows

theorem evalWithAgg_listPredicate (kind : ListPredicateKind) (name : String) (list predicate : Expression) (span : Span) (rows : List Bindings) :
    evalWithAgg prims (.listPredicate kind name list predicate span) rows =
      (do evalListPredicate kind (← evalWithAgg prims list rows) (fun item => eval prims predicate ((groupScope prims list rows).insert name item)) span) := by
  rw [evalWithAgg,groupScope]
  split_ifs with hagg
  · cases hlist : evalWithAgg prims list rows with
    | error e => rfl
    | ok v =>
      have hget : ((firstRow rows).insert (aggregationName (firstRow rows)) v)[aggregationName (firstRow rows)]? = some v := by
        rw [Map.get_insert,if_pos rfl]
      change eval prims (.listPredicate kind name (.variable _ span) predicate span) _ = _
      rw [eval,eval,hget]
  · rw [evalWithAgg_plain list rows (by simpa using hagg),eval]

/-- The connectives are those of the logic, on operands with truth values. -/
def Connectives (ev : Expression → ExecResult Value) : Prop :=
  ∀ (a b : Expression) (t u : Truth) (span : Span), ev a = .ok (truth t) → ev b = .ok (truth u) →
    ev (.unary .not a span) = .ok (truth t.neg) ∧ ev (.binary .and a b span) = .ok (truth (t.and u)) ∧
      ev (.binary .or a b span) = .ok (truth (t.or u)) ∧ ev (.binary .xor a b span) = .ok (truth (t.xor u))

/-- Predicates over a list with truth values are conjunctions and disjunctions, and one by negation of the other. -/
def Quantifiers (ev : Expression → ExecResult Value) (inner : Expression → Expression → String → Value → ExecResult Value) : Prop :=
  ∀ (name : String) (list predicate : Expression) (span : Span) (items : List Value) (ts : List Truth), ev list = .ok (.list items) →
    List.Forall₂ (fun v t => inner list predicate name v = .ok (truth t)) items ts →
      ev (.listPredicate .all name list predicate span) = .ok (truth (Truth.all ts)) ∧
      ev (.listPredicate .any name list predicate span) = .ok (truth (Truth.any ts)) ∧
      ev (.listPredicate .none name list predicate span) = ev (.unary .not (.listPredicate .any name list predicate span) span) ∧
      ev (.listPredicate .all name list predicate span) =
        ev (.unary .not (.listPredicate .any name list (.unary .not predicate span) span) span)

theorem Compositional.connectives (h : Compositional prims ev) : Connectives ev := by
  intro a b t u span ha hb
  rw [h.unary,h.binary,h.binary,h.binary,ha,hb]
  exact ⟨evalUnary_not t,boolean_and t u,boolean_or t u,boolean_xor t u⟩

theorem Compositional.quantifiers (h : Compositional prims ev) {inner : Expression → Expression → String → Value → ExecResult Value}
    (hlist : ∀ kind name list predicate span, ev (.listPredicate kind name list predicate span) = do
      evalListPredicate kind (← ev list) (inner list predicate name) span)
    (hnot : ∀ list predicate name v span, inner list (.unary .not predicate span) name v = do evalUnary .not (← inner list predicate name v) span) :
    Quantifiers ev inner := by
  intro name list predicate span items ts hitems hpredicate
  obtain ⟨hall,hany,hnone⟩ := @evalListPredicate_truth _ span _ _ hpredicate
  have hnegated : List.Forall₂ (fun v t => inner list (.unary .not predicate span) name v = .ok (truth t)) items (ts.map Truth.neg) := by
    rw [List.forall₂_map_right_iff]
    refine hpredicate.imp (fun v t hv => ?_)
    rw [hnot,hv]
    exact evalUnary_not t
  obtain ⟨-,hanyNot,-⟩ := @evalListPredicate_truth _ span _ _ hnegated
  have hrun : ∀ kind predicate, ev (.listPredicate kind name list predicate span) = evalListPredicate kind (.list items) (inner list predicate name) span := by
    intro kind predicate
    rw [hlist,hitems]
    rfl
  rw [h.unary,h.unary,hrun,hrun,hrun,hrun,hall,hany,hnone,hanyNot]
  refine ⟨rfl,rfl,(evalUnary_not _).symm,?_⟩
  rw [← Truth.neg_all]
  change _ = evalUnary .not (truth (Truth.all ts).neg) span
  rw [evalUnary_not,Truth.neg_neg]

/-- A null that is looked for meets no list, or one with a null. -/
def Decided (x : Value) (items : List Value) : Prop := x.isNull = true → items = [] ∨ ∃ v ∈ items, v.isNull = true

/-- Membership is the disjunction of the equalities. -/
def IsDisjunction (ev : Expression → ExecResult Value) (expr : Expression) (exprs : List Expression) (span : Span) : Prop :=
  ev (.inList expr (.list exprs) span) = ev (disjunction expr span exprs)

theorem Compositional.isDisjunction_iff (h : Compositional prims ev) (hx : ev expr = .ok x)
    (hitems : List.Forall₂ (fun e v => ev e = .ok v) exprs items) : IsDisjunction ev expr exprs span ↔ Decided x items := by
  rw [IsDisjunction,h.membership hx hitems,h.disjunction hx hitems,Decided,← memberTruth_iff,Except.ok.injEq,truth_inj]

/-- In a row and over a group, membership is the disjunction of the equalities unless a null is looked for in a list that
is not empty and has none; the connectives and the predicates over lists are those of the three-valued logic. -/
theorem membership_logic (prims : Primitives) :
    (∀ row expr exprs x items span, eval prims expr row = .ok x → List.Forall₂ (fun e v => eval prims e row = .ok v) exprs items →
      (IsDisjunction (fun e => eval prims e row) expr exprs span ↔ Decided x items)) ∧
    (∀ rows expr exprs x items span, evalWithAgg prims expr rows = .ok x → List.Forall₂ (fun e v => evalWithAgg prims e rows = .ok v) exprs items →
      (IsDisjunction (fun e => evalWithAgg prims e rows) expr exprs span ↔ Decided x items)) ∧
    (∀ row, Connectives (fun e => eval prims e row)) ∧ (∀ rows, Connectives (fun e => evalWithAgg prims e rows)) ∧
    (∀ row, Quantifiers (fun e => eval prims e row) (fun _ predicate name v => eval prims predicate (row.insert name v))) ∧
    ∀ rows, Quantifiers (fun e => evalWithAgg prims e rows)
      (fun list predicate name v => eval prims predicate ((groupScope prims list rows).insert name v)) := by
  refine ⟨fun row expr exprs x items span hx hitems => (eval_compositional prims row).isDisjunction_iff hx hitems,
    fun rows expr exprs x items span hx hitems => (evalWithAgg_compositional prims rows).isDisjunction_iff hx hitems,
    fun row => (eval_compositional prims row).connectives,fun rows => (evalWithAgg_compositional prims rows).connectives,
    fun row => (eval_compositional prims row).quantifiers (fun kind name list predicate span => by rw [eval]) (fun list predicate name v span => by rw [eval]),
    fun rows => (evalWithAgg_compositional prims rows).quantifiers (fun kind name list predicate span => evalWithAgg_listPredicate ..)
      (fun list predicate name v span => by rw [eval])⟩

/-- Powers and patterns that nothing here uses. -/
def noPrimitives : Primitives := ⟨fun x _ => x,fun _ _ => .ok false⟩

def oneItem : List Expression := [.literal (.bool true)]

theorem true_in_list :
    IsDisjunction (fun e => eval noPrimitives e ∅) (.literal (.bool true)) oneItem ⟨0,1,1,1⟩ ∧
      eval noPrimitives (.unary .not (.literal .null) ⟨0,1,1,1⟩) ∅ = .ok .null := by
  obtain ⟨hin,-,hconnectives,-⟩ := membership_logic noPrimitives
  have hnull : eval noPrimitives (.literal .null) ∅ = .ok (truth none) := by rw [eval,truth]
  refine ⟨(hin ∅ _ _ (.bool true) [.bool true] ⟨0,1,1,1⟩ (by rw [eval]) (.cons (by rw [eval]) .nil)).mpr nofun,?_⟩
  exact (hconnectives ∅ (.literal .null) (.literal .null) none none ⟨0,1,1,1⟩ hnull hnull).1

/-- `null IN [true]` is false, but `null = true` is null. -/
theorem null_not_in_list :
    eval noPrimitives (.inList (.literal .null) (.list oneItem) ⟨0,1,1,1⟩) ∅ = .ok (.bool false) ∧
      eval noPrimitives (disjunction (.literal .null) ⟨0,1,1,1⟩ oneItem) ∅ = .ok .null ∧
      ¬ IsDisjunction (fun e => eval noPrimitives e ∅) (.literal .null) oneItem ⟨0,1,1,1⟩ := by
  have hx : eval noPrimitives (.literal .null) ∅ = .ok .null := by rw [eval]
  have hitems : List.Forall₂ (fun e v => eval noPrimitives e ∅ = .ok v) oneItem [.bool true] := .cons (by rw [eval]) .nil
  have h := eval_compositional noPrimitives ∅
  refine ⟨h.membership hx hitems,h.disjunction hx hitems,fun hagree => ?_⟩
  obtain hnil | ⟨v,hv,hnull⟩ := (h.isDisjunction_iff hx hitems).mp hagree rfl
  · cases hnil
  · rw [List.mem_singleton.mp hv] at hnull
    cases hnull

end Drevo.Cypher
