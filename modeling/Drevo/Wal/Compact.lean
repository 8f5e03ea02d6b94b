import Drevo.Wal.Value

/-! The compact record encoding: CBOR in which the field names of a record are small integers
and property names stay text. The abbreviation follows the shape of a record, so that a
property that happens to be named like a field is left alone, and it can be undone. -/
namespace Drevo

/-- A CBOR value. A float is held as the text of the number it denotes, an integer fits the 64
bits the encoding has. -/
inductive Cbor where
  | null
  | bool (b : Bool)
  | integer (i : ℤ)
  | float (text : String)
  | text (s : String)
  | bytes (b : Bytes)
  | array (items : List Cbor)
  | map (entries : List (Cbor × Cbor))
  | tag (number : ℕ) (value : Cbor)

namespace Compact

/-- The names a compact record abbreviates, in the order of their codes. -/
def fieldNames : List String :=
  ["UpsertNode","DeleteNode","UpsertEdge","DeleteEdge","SetEmbedding","DeleteEmbedding","Prepare","CommitPrepared",
    "RollbackPrepared","id","uuid","kind","title","body","body_html","created_at","updated_at","properties","from_id",
    "to_id","weight","gid","prepared_at_ms","ops","heuristic"]

/-- The entries whose payload is a record with named fields. -/
def recordVariants : List String := ["UpsertNode","UpsertEdge","Prepare","CommitPrepared","RollbackPrepared"]

def key (name : String) : Cbor :=
  if name ∈ fieldNames then .integer (fieldNames.idxOf name) else .text name

def name : Cbor → Option String
  | .integer code => if 0 ≤ code then fieldNames[code.toNat]? else none
  | .text name => some name
  | _ => none

theorem name_key (n : String) : name (key n) = some n := by
  unfold key
  split_ifs with h
  · have hlt := List.idxOf_lt_length_of_mem h
    simp [name,List.getElem?_eq_getElem hlt]
  · rfl

/-! ## Values as they are -/

mutual
def plain : Json → Cbor
  | .null => .null
  | .bool b => .bool b
  | .int i => .integer i
  | .float text => .float text
  | .string s => .text s
  | .array items => .array (plainItems items)
  | .object members => .map (plainMembers members)
def plainItems : List Json → List Cbor
  | [] => []
  | x :: xs => plain x :: plainItems xs
def plainMembers : List (String × Json) → List (Cbor × Cbor)
  | [] => []
  | (k,x) :: xs => (.text k,plain x) :: plainMembers xs
end

mutual
def unplain : Cbor → Option Json
  | .null => some .null
  | .bool b => some (.bool b)
  | .integer i => some (.int i)
  | .float text => some (.float text)
  | .text s => some (.string s)
  | .array items => (unplainItems items).map .array
  | .map entries => (unplainEntries entries).map .object
  | .bytes _ => none
  | .tag _ _ => none
def unplainItems : List Cbor → Option (List Json)
  | [] => some []
  | x :: xs => do
    let x ← unplain x
    let xs ← unplainItems xs
    some (x :: xs)
def unplainEntries : List (Cbor × Cbor) → Option (List (String × Json))
  | [] => some []
  | (.text k,x) :: xs => do
    let x ← unplain x
    let xs ← unplainEntries xs
    some ((k,x) :: xs)
  | _ :: _ => none
end

mutual
theorem unplain_plain : ∀ v : Json, unplain (plain v) = some v
  | .null => rfl
  | .bool _ => rfl
  | .int _ => rfl
  | .float _ => rfl
  | .string _ => rfl
  | .array items => by simp [plain,unplain,unplainItems_plainItems items]
  | .object members => by simp [plain,unplain,unplainEntries_plainMembers members]
theorem unplainItems_plainItems : ∀ l : List Json, unplainItems (plainItems l) = some l
  | [] => rfl
  | x :: xs => by simp [plainItems,unplainItems,unplain_plain x,unplainItems_plainItems xs]
theorem unplainEntries_plainMembers : ∀ l : List (String × Json), unplainEntries (plainMembers l) = some l
  | [] => rfl
  | (k,x) :: xs => by simp [plainMembers,unplainEntries,unplain_plain x,unplainEntries_plainMembers xs]
end

/-! ## Records with abbreviated names -/

mutual
def ops : Json → Cbor
  | .array items => .array (opItems items)
  | other => plain other
def opItems : List Json → List Cbor
  | [] => []
  | x :: xs => op x :: opItems xs
/-- One entry, an object with the entry's kind as its key. -/
def op : Json → Cbor
  | .object members => .map (opMembers members)
  | other => plain other
def opMembers : List (String × Json) → List (Cbor × Cbor)
  | [] => []
  | (variant,payload) :: rest => (key variant,opPayload variant payload) :: opMembers rest
def opPayload (variant : String) : Json → Cbor
  | .object fields => if variant ∈ recordVariants then .map (opFields fields) else .map (plainMembers fields)
  | other => plain other
def opFields : List (String × Json) → List (Cbor × Cbor)
  | [] => []
  | (field,v) :: rest => (key field,if field = "ops" then ops v else plain v) :: opFields rest
end

mutual
def unops : Cbor → Option Json
  | .array items => (unopItems items).map .array
  | other => unplain other
def unopItems : List Cbor → Option (List Json)
  | [] => some []
  | x :: xs => do
    let x ← unop x
    let xs ← unopItems xs
    some (x :: xs)
def unop : Cbor → Option Json
  | .map entries => (unopEntries entries).map .object
  | other => unplain other
def unopEntries : List (Cbor × Cbor) → Option (List (String × Json))
  | [] => some []
  | (k,payload) :: rest => do
    let variant ← name k
    let payload ← unopPayload variant payload
    let rest ← unopEntries rest
    some ((variant,payload) :: rest)
def unopPayload (variant : String) : Cbor → Option Json
  | .map entries =>
    if variant ∈ recordVariants then (unopFields entries).map .object else (unplainEntries entries).map .object
  | other => unplain other
def unopFields : List (Cbor × Cbor) → Option (List (String × Json))
  | [] => some []
  | (k,v) :: rest => do
    let field ← name k
    let v ← if field = "ops" then unops v else unplain v
    let rest ← unopFields rest
    some ((field,v) :: rest)
end

mutual
/-- The abbreviation can be undone. -/
theorem unops_ops : ∀ v : Json, unops (ops v) = some v
  | .null => rfl
  | .bool _ => rfl
  | .int _ => rfl
  | .float _ => rfl
  | .string _ => rfl
  | .array items => by simp [ops,unops,unopItems_opItems items]
  | .object members => by
    have h := unplain_plain (.object members)
    simpa [ops,unops,plain] using h
theorem unopItems_opItems : ∀ l : List Json, unopItems (opItems l) = some l
  | [] => rfl
  | x :: xs => by simp [opItems,unopItems,unop_op x,unopItems_opItems xs]
theorem unop_op : ∀ v : Json, unop (op v) = some v
  | .null => rfl
  | .bool _ => rfl
  | .int _ => rfl
  | .float _ => rfl
  | .string _ => rfl
  | .array items => by
    have h := unplain_plain (.array items)
    simpa [op,unop,plain] using h
  | .object members => by simp [op,unop,unopEntries_opMembers members]
theorem unopEntries_opMembers : ∀ l : List (String × Json), unopEntries (opMembers l) = some l
  | [] => rfl
  | (variant,payload) :: rest => by
    simp [opMembers,unopEntries,name_key,unopPayload_opPayload variant payload,unopEntries_opMembers rest]
theorem unopPayload_opPayload (variant : String) : ∀ v : Json, unopPayload variant (opPayload variant v) = some v
  | .null => rfl
  | .bool _ => rfl
  | .int _ => rfl
  | .float _ => rfl
  | .string _ => rfl
  | .array items => by
    have h := unplain_plain (.array items)
    simpa [opPayload,unopPayload,plain] using h
  | .object fields => by
    by_cases hv : variant ∈ recordVariants
    · simp [opPayload,unopPayload,hv,unopFields_opFields fields]
    · simp [opPayload,unopPayload,hv,unplainEntries_plainMembers fields]
theorem unopFields_opFields : ∀ l : List (String × Json), unopFields (opFields l) = some l
  | [] => rfl
  | (field,v) :: rest => by
    by_cases hf : field = "ops"
    · simp [opFields,unopFields,name_key,hf,unops_ops v,unopFields_opFields rest]
    · simp [opFields,unopFields,name_key,hf,unplain_plain v,unopFields_opFields rest]
end

end Compact
end Drevo
