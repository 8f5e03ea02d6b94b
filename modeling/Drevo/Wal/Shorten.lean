import Drevo.Wal.Compact

/-! The compact transform over the values the JSON library holds: numbers in three forms, objects
as maps whose entries are inserted one by one when a record is read. What was abbreviated is
restored for every value. -/
namespace Drevo.Serde

/-- A double by its 64 bits. -/
abbrev F64 := BitVec 64

def F64.isFinite (f : F64) : Bool := f.extractLsb' 52 11 != 0x7ff#11

/-- A JSON number: a natural, a negative integer, or a finite float. -/
inductive Number where
  | posInt (n : ℕ) (h : n < 2^64)
  | negInt (i : ℤ) (h : -2^63 ≤ i ∧ i < 0)
  | float (f : F64) (h : f.isFinite = true)

namespace Number

def asI64 : Number → Option ℤ
  | .posInt n _ => if n < 2^63 then some n else none
  | .negInt i _ => some i
  | .float _ _ => none

def asU64 : Number → Option ℕ
  | .posInt n _ => some n
  | _ => none

def asF64 : Number → Option F64
  | .float f _ => some f
  | _ => none

/-- The number of an `i64`. -/
def ofI64 (i : ℤ) (h : -2^63 ≤ i ∧ i < 2^63) : Number :=
  if hneg : i < 0 then .negInt i ⟨h.1,hneg⟩ else .posInt i.toNat (by omega)

def ofF64 (f : F64) : Option Number :=
  if h : f.isFinite = true then some (.float f h) else none

end Number

inductive Value where
  | null
  | bool (b : Bool)
  | number (n : Number)
  | string (s : String)
  | array (items : List Value)
  | object (members : List (String × Value))

/-- A CBOR value; an integer is any of those the encoding has. -/
inductive Cbor where
  | null
  | bool (b : Bool)
  | integer (i : ℤ)
  | float (f : F64)
  | text (s : String)
  | bytes (b : List UInt8)
  | array (items : List Cbor)
  | map (entries : List (Cbor × Cbor))
  | tag (number : ℕ) (value : Cbor)

/-- An object's members in key order, and so on inside. -/
def Value.Ordered : Value → Prop
  | .array items => OrderedItems items
  | .object members => members.Pairwise (fun a b => a.1 < b.1) ∧ OrderedMembers members
  | _ => True
where
  OrderedItems : List Value → Prop
    | [] => True
    | x :: xs => Value.Ordered x ∧ OrderedItems xs
  OrderedMembers : List (String × Value) → Prop
    | [] => True
    | (_,x) :: xs => Value.Ordered x ∧ OrderedMembers xs

/-- Insert into a map: at the key's place, over the value it has. -/
def insertMember (k : String) (v : Value) : List (String × Value) → List (String × Value)
  | [] => [(k,v)]
  | (l,w) :: rest =>
    if k < l then (k,v) :: (l,w) :: rest
    else if k = l then (k,v) :: rest
    else (l,w) :: insertMember k v rest

def nan : F64 := 0x7ff8000000000000#64

def key (name : String) : Cbor :=
  if name ∈ Compact.fieldNames then .integer (Compact.fieldNames.idxOf name) else .text name

def name : Cbor → Option String
  | .integer code => if 0 ≤ code then Compact.fieldNames[code.toNat]? else none
  | .text name => some name
  | _ => none

def plainNumber (n : Number) : Cbor :=
  match n.asI64 with
  | some i => .integer i
  | none => match n.asU64 with
    | some u => .integer u
    | none => .float (n.asF64.getD nan)

mutual
def plain : Value → Cbor
  | .null => .null
  | .bool b => .bool b
  | .number n => plainNumber n
  | .string s => .text s
  | .array items => .array (plainItems items)
  | .object members => .map (plainMembers members)
def plainItems : List Value → List Cbor
  | [] => []
  | x :: xs => plain x :: plainItems xs
def plainMembers : List (String × Value) → List (Cbor × Cbor)
  | [] => []
  | (k,x) :: xs => (.text k,plain x) :: plainMembers xs
end

mutual
def ops : Value → Cbor
  | .array items => .array (opItems items)
  | other => plain other
def opItems : List Value → List Cbor
  | [] => []
  | x :: xs => op x :: opItems xs
/-- One op: an object with the variant as its key. -/
def op : Value → Cbor
  | .object members => .map (opMembers members)
  | other => plain other
def opMembers : List (String × Value) → List (Cbor × Cbor)
  | [] => []
  | (variant,payload) :: rest => (key variant,opPayload variant payload) :: opMembers rest
def opPayload (variant : String) : Value → Cbor
  | .object fields => if variant ∈ Compact.recordVariants then .map (opFields fields) else .map (plainMembers fields)
  | other => plain other
def opFields : List (String × Value) → List (Cbor × Cbor)
  | [] => []
  | (field,v) :: rest => (key field,if field = "ops" then ops v else plain v) :: opFields rest
end

def unplainInteger (i : ℤ) : Option Value :=
  if h : -2^63 ≤ i ∧ i < 2^63 then some (.number (.ofI64 i h))
  else if h : 0 ≤ i ∧ i < 2^64 then some (.number (.posInt i.toNat (by omega)))
  else none

mutual
def unplain : Cbor → Option Value
  | .null => some .null
  | .bool b => some (.bool b)
  | .integer i => unplainInteger i
  | .float f => (Number.ofF64 f).map .number
  | .text s => some (.string s)
  | .array items => (unplainItems items).map .array
  | .map entries => (unplainEntries entries []).map .object
  | .bytes _ => none
  | .tag _ _ => none
def unplainItems : List Cbor → Option (List Value)
  | [] => some []
  | x :: xs => do
    let x ← unplain x
    let xs ← unplainItems xs
    some (x :: xs)
/-- The entries into the map read so far. -/
def unplainEntries : List (Cbor × Cbor) → List (String × Value) → Option (List (String × Value))
  | [],map => some map
  | (.text k,x) :: xs,map => do
    let x ← unplain x
    unplainEntries xs (insertMember k x map)
  | _ :: _,_ => none
end

mutual
def unops : Cbor → Option Value
  | .array items => (unopItems items).map .array
  | other => unplain other
def unopItems : List Cbor → Option (List Value)
  | [] => some []
  | x :: xs => do
    let x ← unop x
    let xs ← unopItems xs
    some (x :: xs)
def unop : Cbor → Option Value
  | .map entries => (unopEntries entries []).map .object
  | other => unplain other
def unopEntries : List (Cbor × Cbor) → List (String × Value) → Option (List (String × Value))
  | [],map => some map
  | (k,payload) :: rest,map => do
    let variant ← name k
    let payload ← unopPayload variant payload
    unopEntries rest (insertMember variant payload map)
def unopPayload (variant : String) : Cbor → Option Value
  | .map entries =>
    if variant ∈ Compact.recordVariants then (unopFields entries []).map .object
    else (unplainEntries entries []).map .object
  | other => unplain other
def unopFields : List (Cbor × Cbor) → List (String × Value) → Option (List (String × Value))
  | [],map => some map
  | (k,v) :: rest,map => do
    let field ← name k
    let v ← if field = "ops" then unops v else unplain v
    unopFields rest (insertMember field v map)
end

/-! ## The way back -/

theorem name_key (n : String) : name (key n) = some n := by
  unfold key
  split_ifs with h
  · have hlt := List.idxOf_lt_length_of_mem h
    simp [name,List.getElem?_eq_getElem hlt]
  · rfl

theorem insertMember_last {k : String} {v : Value} {map : List (String × Value)} (h : ∀ p ∈ map, p.1 < k) :
    insertMember k v map = map ++ [(k,v)] := by
  induction map with
  | nil => rfl
  | cons p map ih =>
    obtain ⟨l,w⟩ := p
    have hlt : l < k := h (l,w) List.mem_cons_self
    show (if k < l then _ else if k = l then _ else (l,w) :: insertMember k v map) = _
    rw [if_neg (not_lt_of_gt hlt),if_neg hlt.ne',ih (fun p hp => h p (List.mem_cons_of_mem _ hp))]
    rfl

theorem ofI64_natCast {n : ℕ} (h : n < 2^64) (hi : -2^63 ≤ (n : ℤ) ∧ (n : ℤ) < 2^63) : Number.ofI64 n hi = .posInt n h := by
  unfold Number.ofI64
  rw [dif_neg (by omega)]
  rfl

theorem unplain_plainNumber (n : Number) : unplain (plainNumber n) = some (.number n) := by
  cases n with
  | posInt n h =>
    unfold plainNumber Number.asI64
    by_cases hn : n < 2^63
    · have hi : -2^63 ≤ (n : ℤ) ∧ (n : ℤ) < 2^63 := by omega
      simp only [if_pos hn,unplain,unplainInteger,dif_pos hi,ofI64_natCast h]
    · have hi : ¬ (-2^63 ≤ (n : ℤ) ∧ (n : ℤ) < 2^63) := by omega
      have hu : 0 ≤ (n : ℤ) ∧ (n : ℤ) < 2^64 := by omega
      simp only [if_neg hn,Number.asU64,unplain,unplainInteger,dif_neg hi,dif_pos hu,Int.toNat_natCast]
  | negInt i h =>
    have hi : -2^63 ≤ i ∧ i < 2^63 := by omega
    simp only [plainNumber,Number.asI64,unplain,unplainInteger,dif_pos hi,Number.ofI64,dif_pos h.2]
  | float f h => simp only [plainNumber,Number.asI64,Number.asU64,Number.asF64,Option.getD_some,unplain,Number.ofF64,dif_pos h,Option.map_some]

mutual
theorem unplain_plain : ∀ v : Value, v.Ordered → unplain (plain v) = some v
  | .null,_ => rfl
  | .bool _,_ => rfl
  | .number n,_ => unplain_plainNumber n
  | .string _,_ => rfl
  | .array items,h => by simp only [plain,unplain,unplainItems_plainItems items h,Option.map_some]
  | .object members,h => by
    have hback := unplainEntries_plainMembers members [] h.1 h.2
    simp only [plain,unplain,hback,Option.map_some,List.nil_append]
theorem unplainItems_plainItems : ∀ l : List Value, Value.Ordered.OrderedItems l → unplainItems (plainItems l) = some l
  | [],_ => rfl
  | x :: xs,h => by simp [plainItems,unplainItems,unplain_plain x h.1,unplainItems_plainItems xs h.2]
theorem unplainEntries_plainMembers : ∀ (l map : List (String × Value)), (map ++ l).Pairwise (fun a b => a.1 < b.1) →
    Value.Ordered.OrderedMembers l → unplainEntries (plainMembers l) map = some (map ++ l)
  | [],map,_,_ => by simp [plainMembers,unplainEntries]
  | (k,x) :: xs,map,hsorted,h => by
    have hlast : insertMember k x map = map ++ [(k,x)] :=
      insertMember_last (fun p hp => (List.pairwise_append.mp hsorted).2.2 p hp (k,x) List.mem_cons_self)
    have hrest := unplainEntries_plainMembers xs (map ++ [(k,x)]) (by simpa using hsorted) h.2
    simp [plainMembers,unplainEntries,unplain_plain x h.1,hlast,hrest]
end

theorem number_anywhere (n : Number) (variant : String) : unops (plainNumber n) = some (.number n) ∧
    unop (plainNumber n) = some (.number n) ∧ unopPayload variant (plainNumber n) = some (.number n) := by
  have hback := unplain_plainNumber n
  unfold plainNumber at hback ⊢
  split at hback
  · exact ⟨hback,hback,hback⟩
  · split at hback <;> exact ⟨hback,hback,hback⟩

mutual
/-- What is abbreviated is restored, wherever a name of a field stands. -/
theorem unops_ops : ∀ v : Value, v.Ordered → unops (ops v) = some v
  | .null,_ => rfl
  | .bool _,_ => rfl
  | .number n,_ => (number_anywhere n "").1
  | .string _,_ => rfl
  | .array items,h => by simp only [ops,unops,unopItems_opItems items h,Option.map_some]
  | .object members,h => by
    have hback := unplain_plain (.object members) h
    simpa [ops,unops,plain] using hback
theorem unopItems_opItems : ∀ l : List Value, Value.Ordered.OrderedItems l → unopItems (opItems l) = some l
  | [],_ => rfl
  | x :: xs,h => by simp [opItems,unopItems,unop_op x h.1,unopItems_opItems xs h.2]
theorem unop_op : ∀ v : Value, v.Ordered → unop (op v) = some v
  | .null,_ => rfl
  | .bool _,_ => rfl
  | .number n,_ => (number_anywhere n "").2.1
  | .string _,_ => rfl
  | .array items,h => by
    have hback := unplain_plain (.array items) h
    simpa [op,unop,plain] using hback
  | .object members,h => by
    have hback := unopEntries_opMembers members [] h.1 h.2
    simp only [op,unop,hback,Option.map_some,List.nil_append]
theorem unopEntries_opMembers : ∀ (l map : List (String × Value)), (map ++ l).Pairwise (fun a b => a.1 < b.1) →
    Value.Ordered.OrderedMembers l → unopEntries (opMembers l) map = some (map ++ l)
  | [],map,_,_ => by simp [opMembers,unopEntries]
  | (variant,payload) :: rest,map,hsorted,h => by
    have hlast : insertMember variant payload map = map ++ [(variant,payload)] :=
      insertMember_last (fun p hp => (List.pairwise_append.mp hsorted).2.2 p hp (variant,payload) List.mem_cons_self)
    have hrest := unopEntries_opMembers rest (map ++ [(variant,payload)]) (by simpa using hsorted) h.2
    simp [opMembers,unopEntries,name_key,unopPayload_opPayload variant payload h.1,hlast,hrest]
theorem unopPayload_opPayload (variant : String) : ∀ v : Value, v.Ordered → unopPayload variant (opPayload variant v) = some v
  | .null,_ => rfl
  | .bool _,_ => rfl
  | .number n,_ => (number_anywhere n variant).2.2
  | .string _,_ => rfl
  | .array items,h => by
    have hback := unplain_plain (.array items) h
    simpa [opPayload,unopPayload,plain] using hback
  | .object fields,h => by
    by_cases hv : variant ∈ Compact.recordVariants
    · have hback := unopFields_opFields fields [] h.1 h.2
      simp only [opPayload,unopPayload,if_pos hv,hback,Option.map_some,List.nil_append]
    · have hback := unplainEntries_plainMembers fields [] h.1 h.2
      simp only [opPayload,unopPayload,if_neg hv,hback,Option.map_some,List.nil_append]
theorem unopFields_opFields : ∀ (l map : List (String × Value)), (map ++ l).Pairwise (fun a b => a.1 < b.1) →
    Value.Ordered.OrderedMembers l → unopFields (opFields l) map = some (map ++ l)
  | [],map,_,_ => by simp [opFields,unopFields]
  | (field,v) :: rest,map,hsorted,h => by
    have hlast : insertMember field v map = map ++ [(field,v)] :=
      insertMember_last (fun p hp => (List.pairwise_append.mp hsorted).2.2 p hp (field,v) List.mem_cons_self)
    have hrest := unopFields_opFields rest (map ++ [(field,v)]) (by simpa using hsorted) h.2
    by_cases hf : field = "ops"
    · simp [opFields,unopFields,name_key,if_pos hf,unops_ops v h.1,hlast,hrest]
    · simp [opFields,unopFields,name_key,if_neg hf,unplain_plain v h.1,hlast,hrest]
end

/-- Every record is read back from its abbreviated form, and no other record has that form. -/
theorem record_restored (record : Value) (h : record.Ordered) : unops (ops record) = some record ∧
    ∀ other : Value, other.Ordered → ops other = ops record → other = record := by
  refine ⟨unops_ops record h,?_⟩
  intro other ho heq
  have hback := unops_ops other ho
  rw [heq,unops_ops record h] at hback
  exact (Option.some.inj hback).symm

section Sample

/-- A node with properties named like fields, an unknown variant, and ops inside a prepared transaction. -/
def tricky : Value :=
  .array [.object [("Later",.object [("id",.null)]),
    ("UpsertNode",.object [("id",.number (.posInt (2^64-1) (by decide))),
      ("properties",.object [("UpsertNode",.bool true),("id",.number (.negInt (-5) (by decide))),("ops",.array [.object [("id",.null)]])])])],
    .object [("Prepare",.object [("gid",.string "g"),("ops",.array [.object [("DeleteNode",.number (.posInt 7 (by decide)))]])])]]

theorem tricky_ordered : tricky.Ordered := by
  simp only [tricky,Value.Ordered,Value.Ordered.OrderedItems,Value.Ordered.OrderedMembers,List.pairwise_cons,
    List.mem_cons,List.not_mem_nil,or_false,forall_eq,forall_eq_or_imp,false_imp_iff,implies_true,and_true,true_and,
    List.Pairwise.nil,String.lt_iff_toList_lt]
  decide

theorem tricky_restored : unops (ops tricky) = some tricky := (record_restored tricky tricky_ordered).1

end Sample

end Drevo.Serde
