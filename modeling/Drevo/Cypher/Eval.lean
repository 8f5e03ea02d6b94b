import Drevo.Cypher.Arith
import Drevo.Lib.Index
import Drevo.Lib.Kleene

/-! Evaluation of expressions in a row, and over the rows of a group. -/
namespace Drevo.Cypher
open Lib

abbrev Bindings := Map String Value

inductive ListPredicateKind where
  | all | any | none | single
  deriving DecidableEq

/-- An expression. The calls of aggregations and the forms that the connectives do not look into are held as what they
evaluate to: over a group of rows, and in a row. -/
inductive Expression where
  | literal (v : Value)
  | variable (name : String) (span : Span)
  | list (items : List Expression)
  | unary (op : UnaryOp) (expr : Expression) (span : Span)
  | binary (op : BinaryOp) (lhs rhs : Expression) (span : Span)
  | isNull (expr : Expression) (negated : Bool)
  | inList (expr list : Expression) (span : Span)
  | listPredicate (kind : ListPredicateKind) (name : String) (list predicate : Expression) (span : Span)
  | aggregation (call : String) (fold : List Bindings → ExecResult Value) (span : Span)
  | other (value : Bindings → ExecResult Value)

/-- What evaluation calls: powers of floats, and matching a text against a pattern. -/
structure Primitives where
  powf : Binary64 → Binary64 → Binary64
  fullMatch : (pattern text : String) → Except ExecError Bool

def asString (span : Span) : Value → ExecResult String
  | .string s => .ok s
  | other => typeMismatch "String" other.typeName span

/-- The order of two values that can be compared. -/
def ordering : Value → Value → Option Ordering
  | .integer a,.integer b => some (compare a b)
  | .float a,.float b => a.partialCmp b
  | .integer a,.float b => (Binary64.ofInt a.1).partialCmp b
  | .float a,.integer b => a.partialCmp (Binary64.ofInt b.1)
  | .string a,.string b => some (compare a b)
  | .bool a,.bool b => some (compare a b)
  | .node a,.node b => some (compare a.id b.id)
  | .relationship a,.relationship b => some (compare a.id b.id)
  | _,_ => none

def comparison (op : BinaryOp) (lhs rhs : Value) (span : Span) : ExecResult Value :=
  if lhs.isNull || rhs.isNull then .ok .null
  else
    match op with
    | .eq => .ok (.bool (lhs.eq rhs))
    | .ne => .ok (.bool !(lhs.eq rhs))
    | op =>
      match ordering lhs rhs with
      | none => typeMismatch "comparable types" (lhs.typeName ++ " vs " ++ rhs.typeName) span
      | some ord =>
        match op with
        | .lt => .ok (.bool (ord = .lt))
        | .le => .ok (.bool (ord ≠ .gt))
        | .gt => .ok (.bool (ord = .gt))
        | .ge => .ok (.bool (ord ≠ .lt))
        | _ => .error .panic

/-- A truth value as it is written. -/
def truth : Truth → Value
  | none => .null
  | some b => .bool b

def asTruth (expected : String) (span : Span) : Value → ExecResult Truth
  | .bool b => .ok (some b)
  | .null => .ok none
  | other => typeMismatch expected other.typeName span

def boolean (op : BinaryOp) (lhs rhs : Value) (span : Span) : ExecResult Value := do
  let l ← asTruth "Boolean" span lhs
  let r ← asTruth "Boolean" span rhs
  match op with
  | .and =>
    match l,r with
    | some true,some true => return .bool true
    | some false,_ => return .bool false
    | _,some false => return .bool false
    | _,_ => return .null
  | .or =>
    match l,r with
    | some true,_ => return .bool true
    | _,some true => return .bool true
    | some false,some false => return .bool false
    | _,_ => return .null
  | .xor =>
    match l,r with
    | some a,some b => return .bool (a != b)
    | _,_ => return .null
  | _ => .error .panic

def stringTest (op : BinaryOp) (lhs rhs : Value) (span : Span) : ExecResult Value :=
  if lhs.isNull || rhs.isNull then .ok .null
  else do
    let needle ← asString span rhs
    let haystack ← asString span lhs
    match op with
    | .startsWith => return .bool (needle.toList.isPrefixOf haystack.toList)
    | .endsWith => return .bool (needle.toList.isSuffixOf haystack.toList)
    | .contains => return .bool (haystack.toList.tails.any (needle.toList.isPrefixOf ·))
    | _ => .error .panic

def regexMatch (fullMatch : String → String → Except ExecError Bool) (lhs rhs : Value) (span : Span) : ExecResult Value :=
  if lhs.isNull || rhs.isNull then .ok .null
  else
    match lhs,rhs with
    | .string text,.string pattern =>
      match fullMatch pattern text with
      | .ok found => .ok (.bool found)
      | .error e => .error (.error e)
    | lhs,rhs => typeMismatch "String =~ String" (lhs.typeName ++ " =~ " ++ rhs.typeName) span

def evalBinary (prims : Primitives) (op : BinaryOp) (lhs rhs : Value) (span : Span) : ExecResult Value :=
  match op with
  | .add | .sub | .mul | .div | .mod | .pow => arith prims.powf op lhs rhs span
  | .eq | .ne | .lt | .le | .gt | .ge => comparison op lhs rhs span
  | .and | .or | .xor => boolean op lhs rhs span
  | .startsWith | .endsWith | .contains => stringTest op lhs rhs span
  | .regexMatch => regexMatch prims.fullMatch lhs rhs span

/-- The items are looked through for the needle; nulls among them are remembered. -/
def inItems (needle : Value) : Bool → List Value → Value
  | sawNull,[] => if sawNull then .null else .bool false
  | sawNull,item :: items => if item.isNull then inItems needle true items else if needle.eq item then .bool true else inItems needle sawNull items

def evalIn (needle haystack : Value) (span : Span) : ExecResult Value :=
  match haystack with
  | .list items => .ok (inItems needle false items)
  | .null => .ok .null
  | other => typeMismatch "List" other.typeName span

/-- How many of the values were true, false and null. -/
structure Counts where
  trues : ℕ
  falses : ℕ
  nulls : ℕ

def Counts.add (span : Span) (c : Counts) : Value → ExecResult Counts
  | .bool true => .ok { c with trues := c.trues+1 }
  | .bool false => .ok { c with falses := c.falses+1 }
  | .null => .ok { c with nulls := c.nulls+1 }
  | other => typeMismatch "Bool" other.typeName span

def ListPredicateKind.verdict (kind : ListPredicateKind) (c : Counts) : Value :=
  match kind with
  | .all => if 0 < c.falses then .bool false else if 0 < c.nulls then .null else .bool true
  | .any => if 0 < c.trues then .bool true else if 0 < c.nulls then .null else .bool false
  | .none => if 0 < c.trues then .bool false else if 0 < c.nulls then .null else .bool true
  | .single => if 1 < c.trues then .bool false else if 0 < c.nulls then .null else .bool (c.trues = 1)

def evalListPredicate (kind : ListPredicateKind) (list : Value) (predicate : Value → ExecResult Value) (span : Span) : ExecResult Value :=
  match list with
  | .list items => do
    let counts ← items.foldlM (fun (c : Counts) item => do c.add span (← predicate item)) ⟨0,0,0⟩
    return kind.verdict counts
  | .null => .ok .null
  | other => typeMismatch "List" other.typeName span

section Evaluate
variable (prims : Primitives)

mutual
def eval : Expression → Bindings → ExecResult Value
  | .literal v,_ => .ok v
  | .variable name span,row =>
    match row[name]? with
    | some v => .ok v
    | none => .error (.error (.unboundVariable name span))
  | .list items,row => do return .list (← evalItems items row)
  | .unary op expr span,row => do evalUnary op (← eval expr row) span
  | .binary op lhs rhs span,row => do evalBinary prims op (← eval lhs row) (← eval rhs row) span
  | .isNull expr negated,row => do
    let v ← eval expr row
    return .bool (if negated then !v.isNull else v.isNull)
  | .inList expr list span,row => do evalIn (← eval expr row) (← eval list row) span
  | .listPredicate kind name list predicate span,row => do
    evalListPredicate kind (← eval list row) (fun item => eval predicate (row.insert name item)) span
  | .aggregation call _ span,_ => .error (.error (.unsupported ("function call " ++ call) span))
  | .other value,row => value row
def evalItems : List Expression → Bindings → ExecResult (List Value)
  | [],_ => .ok []
  | e :: es,row => do return (← eval e row) :: (← evalItems es row)
end

mutual
def containsAggregation : Expression → Bool
  | .literal _ => false
  | .variable _ _ => false
  | .list items => anyAggregation items
  | .unary _ expr _ => containsAggregation expr
  | .binary _ lhs rhs _ => containsAggregation lhs || containsAggregation rhs
  | .isNull expr _ => containsAggregation expr
  | .inList expr list _ => containsAggregation expr || containsAggregation list
  | .listPredicate _ _ list _ _ => containsAggregation list
  | .aggregation _ _ _ => true
  | .other _ => false
def anyAggregation : List Expression → Bool
  | [] => false
  | e :: es => containsAggregation e || anyAggregation es
end

/-- The row that stands for a group. -/
def firstRow (rows : List Bindings) : Bindings := rows.head?.getD ∅

/-- A name that no query can write. -/
def aggregationName (row : Bindings) : String := "\x00aggregation" ++ toString row.size

mutual
/-- An expression over the rows of a group: calls of aggregations are folded over them, and what holds none is evaluated
in the first. -/
def evalWithAgg : Expression → List Bindings → ExecResult Value
  | .aggregation _ fold _,rows => fold rows
  | .binary op lhs rhs span,rows => do evalBinary prims op (← evalWithAgg lhs rows) (← evalWithAgg rhs rows) span
  | .unary op expr span,rows => do evalUnary op (← evalWithAgg expr rows) span
  | .isNull expr negated,rows => do
    let v ← evalWithAgg expr rows
    return .bool (if negated then !v.isNull else v.isNull)
  | .inList expr list span,rows => do evalIn (← evalWithAgg expr rows) (← evalWithAgg list rows) span
  | .list items,rows => do return .list (← evalItemsWithAgg items rows)
  | .listPredicate kind name list predicate span,rows =>
    if containsAggregation list then do
      -- the list is folded first and bound to a name
      let scope := (firstRow rows).insert (aggregationName (firstRow rows)) (← evalWithAgg list rows)
      eval prims (.listPredicate kind name (.variable (aggregationName (firstRow rows)) span) predicate span) scope
    else eval prims (.listPredicate kind name list predicate span) (firstRow rows)
  | .literal v,rows => eval prims (.literal v) (firstRow rows)
  | .variable name span,rows => eval prims (.variable name span) (firstRow rows)
  | .other value,rows => eval prims (.other value) (firstRow rows)
def evalItemsWithAgg : List Expression → List Bindings → ExecResult (List Value)
  | [],_ => .ok []
  | e :: es,rows => do return (← evalWithAgg e rows) :: (← evalItemsWithAgg es rows)
end

end Evaluate

end Drevo.Cypher
