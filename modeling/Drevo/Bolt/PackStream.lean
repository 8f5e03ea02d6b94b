import Drevo.Bolt.Message
import Drevo.Lib.BigEndian

/-! PackStream: how values are written as bytes and read back. -/
namespace Drevo.Bolt
open Lib

/-! ## Markers -/

def mNull : UInt8 := 0xC0
def mFalse : UInt8 := 0xC2
def mTrue : UInt8 := 0xC3
def mFloat : UInt8 := 0xC1
def mInt8 : UInt8 := 0xC8
def mInt16 : UInt8 := 0xC9
def mInt32 : UInt8 := 0xCA
def mInt64 : UInt8 := 0xCB
def mBytes8 : UInt8 := 0xCC
def mBytes16 : UInt8 := 0xCD
def mBytes32 : UInt8 := 0xCE
def mString8 : UInt8 := 0xD0
def mString16 : UInt8 := 0xD1
def mString32 : UInt8 := 0xD2
def mList8 : UInt8 := 0xD4
def mList16 : UInt8 := 0xD5
def mList32 : UInt8 := 0xD6
def mDict8 : UInt8 := 0xD8
def mDict16 : UInt8 := 0xD9
def mDict32 : UInt8 := 0xDA
def mStruct8 : UInt8 := 0xDC
def mStruct16 : UInt8 := 0xDD

/-! ## Encoder -/

def encodeInteger (i : Int64) : List UInt8 :=
  if -16 ≤ i.toInt ∧ i.toInt ≤ 127 then [i.toInt8.toUInt8]
  else if -128 ≤ i.toInt ∧ i.toInt ≤ 127 then [mInt8,i.toInt8.toUInt8]
  else if -32768 ≤ i.toInt ∧ i.toInt ≤ 32767 then mInt16 :: beBytes 2 i.toInt16.toUInt16.toNat
  else if -2147483648 ≤ i.toInt ∧ i.toInt ≤ 2147483647 then mInt32 :: beBytes 4 i.toInt32.toUInt32.toNat
  else mInt64 :: beBytes 8 i.toUInt64.toNat

/-- A length in the first class that takes it; a cast keeps its last bytes. -/
def encodeLength (tiny m8 m16 m32 : UInt8) (len : ℕ) : List UInt8 :=
  if len ≤ 15 then [tiny ||| UInt8.ofNat len]
  else if len ≤ 255 then [m8,UInt8.ofNat len]
  else if len ≤ 65535 then m16 :: beBytes 2 len
  else m32 :: beBytes 4 len

def utf8 (s : String) : List UInt8 := s.toByteArray.data.toList

def encodeString (s : String) : List UInt8 :=
  encodeLength 0x80 mString8 mString16 mString32 (utf8 s).length ++ utf8 s

def encodeBytes (b : List UInt8) : List UInt8 :=
  (if b.length ≤ 255 then [mBytes8,UInt8.ofNat b.length]
   else if b.length ≤ 65535 then mBytes16 :: beBytes 2 b.length
   else mBytes32 :: beBytes 4 b.length) ++ b

def encodeListHeader (len : ℕ) : List UInt8 := encodeLength 0x90 mList8 mList16 mList32 len

def encodeDictHeader (len : ℕ) : List UInt8 := encodeLength 0xA0 mDict8 mDict16 mDict32 len

def encodeStructHeader (size : ℕ) : List UInt8 :=
  if size ≤ 15 then [0xB0 ||| UInt8.ofNat size]
  else if size ≤ 255 then [mStruct8,UInt8.ofNat size]
  else mStruct16 :: beBytes 2 size

mutual

def encode : Value → List UInt8
  | .null => [mNull]
  | .boolean false => [mFalse]
  | .boolean true => [mTrue]
  | .integer i => encodeInteger i
  | .float bits => mFloat :: beBytes 8 bits.toNat
  | .string s => encodeString s
  | .bytes b => encodeBytes b
  | .list items => encodeListHeader items.length ++ encodeItems items
  | .dictionary entries => encodeDictHeader entries.length ++ encodeEntries entries
  | .struct tag fields => encodeStructHeader fields.length ++ tag :: encodeItems fields

def encodeItems : List Value → List UInt8
  | [] => []
  | item :: items => encode item ++ encodeItems items

def encodeEntries : List (String × Value) → List UInt8
  | [] => []
  | (k,v) :: entries => encodeString k ++ encode v ++ encodeEntries entries

end

theorem encode_string (s : String) : encode (.string s) = encodeString s := rfl

theorem encodeItems_cons (item : Value) (items : List Value) : encodeItems (item :: items) = encode item ++ encodeItems items := rfl

theorem encodeEntries_cons (k : String) (v : Value) (entries : Dict) :
    encodeEntries ((k,v) :: entries) = encodeString k ++ encode v ++ encodeEntries entries := rfl

/-! ## Decoder -/

/-- Why a value was not read. -/
inductive BoltError where
  | eof
  | unknownMarker (marker : UInt8)
  | notUtf8
  | keyNotString (key : Value)

/-- What is read from the front, with the rest. -/
abbrev Read (α : Type) := List UInt8 → Except BoltError (α × List UInt8)

def splitFirst : Read UInt8
  | [] => .error .eof
  | b :: rest => .ok (b,rest)

def splitN (n : ℕ) : Read (List UInt8) := fun input =>
  if input.length < n then .error .eof else .ok (input.take n,input.drop n)

/-- A length of `n` bytes, and what is read with it. -/
def withLength {α : Type} (n : ℕ) (payload : ℕ → Read α) : Read α := fun input =>
  match splitN n input with
  | .error e => .error e
  | .ok (bytes,rest) => payload (ofBe bytes) rest

def decodeFloat : Read Value := fun input =>
  match splitN 8 input with
  | .error e => .error e
  | .ok (bytes,rest) => .ok (.float (BitVec.ofNat 64 (ofBe bytes)),rest)

/-- The bytes as a string, if they are one. -/
def fromUtf8 (payload : List UInt8) : Option String := String.fromUTF8? ⟨payload.toArray⟩

def decodeStringPayload (len : ℕ) : Read Value := fun input =>
  if input.length < len then .error .eof
  else
    match fromUtf8 (input.take len) with
    | none => .error .notUtf8
    | some s => .ok (.string s,input.drop len)

def decodeBytesPayload (len : ℕ) : Read Value := fun input =>
  if input.length < len then .error .eof else .ok (.bytes (input.take len),input.drop len)

/-- As many values, read with `d` one after the other. -/
def decodeItems (d : Read Value) : ℕ → Read (List Value)
  | 0,input => .ok ([],input)
  | n+1,input =>
    match d input with
    | .error e => .error e
    | .ok (item,rest) =>
      match decodeItems d n rest with
      | .error e => .error e
      | .ok (items,rest) => .ok (item :: items,rest)

def decodeListItems (d : Read Value) (len : ℕ) : Read Value := fun input =>
  match decodeItems d len input with
  | .error e => .error e
  | .ok (items,rest) => .ok (.list items,rest)

/-- An entry in the order of the keys; it replaces the one of its key. -/
def insertEntry (k : String) (v : Value) : Dict → Dict
  | [] => [(k,v)]
  | (k',v') :: entries =>
    if k < k' then (k,v) :: (k',v') :: entries
    else if k = k' then (k,v) :: entries
    else (k',v') :: insertEntry k v entries

def decodeEntries (d : Read Value) : ℕ → Dict → Read Dict
  | 0,map,input => .ok (map,input)
  | n+1,map,input =>
    match d input with
    | .error e => .error e
    | .ok (.string key,rest) =>
      match d rest with
      | .error e => .error e
      | .ok (val,rest) => decodeEntries d n (insertEntry key val map) rest
    | .ok (other,_) => .error (.keyNotString other)

def decodeDictItems (d : Read Value) (len : ℕ) : Read Value := fun input =>
  match decodeEntries d len [] input with
  | .error e => .error e
  | .ok (entries,rest) => .ok (.dictionary entries,rest)

def decodeStructFields (d : Read Value) (size : ℕ) : Read Value := fun input =>
  match splitFirst input with
  | .error e => .error e
  | .ok (tag,rest) =>
    match decodeItems d size rest with
    | .error e => .error e
    | .ok (fields,rest) => .ok (.struct tag fields,rest)

def decodeTinyOrInt (d : Read Value) (marker : UInt8) : Read Value := fun input =>
  if -16 ≤ marker.toInt8.toInt ∧ marker.toInt8.toInt ≤ 127 then .ok (.integer marker.toInt8.toInt64,input)
  else if marker &&& 0xF0 = 0x80 then decodeStringPayload (marker &&& 0x0F).toNat input
  else if marker &&& 0xF0 = 0x90 then decodeListItems d (marker &&& 0x0F).toNat input
  else if marker &&& 0xF0 = 0xA0 then decodeDictItems d (marker &&& 0x0F).toNat input
  else if marker &&& 0xF0 = 0xB0 then decodeStructFields d (marker &&& 0x0F).toNat input
  else .error (.unknownMarker marker)

/-- What a signed integer of `n` bytes is read with. -/
def withInteger (n : ℕ) (value : ℕ → Int64) : Read Value := withLength n (fun bits rest => .ok (.integer (value bits),rest))

def decodeWithMarker (d : Read Value) (marker : UInt8) : Read Value :=
  if marker = mNull then fun input => .ok (.null,input)
  else if marker = mTrue then fun input => .ok (.boolean true,input)
  else if marker = mFalse then fun input => .ok (.boolean false,input)
  else if marker = mFloat then decodeFloat
  else if marker = mInt8 then withInteger 1 (fun bits => (UInt8.ofNat bits).toInt8.toInt64)
  else if marker = mInt16 then withInteger 2 (fun bits => (UInt16.ofNat bits).toInt16.toInt64)
  else if marker = mInt32 then withInteger 4 (fun bits => (UInt32.ofNat bits).toInt32.toInt64)
  else if marker = mInt64 then withInteger 8 (fun bits => (UInt64.ofNat bits).toInt64)
  else if marker = mBytes8 then withLength 1 decodeBytesPayload
  else if marker = mBytes16 then withLength 2 decodeBytesPayload
  else if marker = mBytes32 then withLength 4 decodeBytesPayload
  else if marker = mString8 then withLength 1 decodeStringPayload
  else if marker = mString16 then withLength 2 decodeStringPayload
  else if marker = mString32 then withLength 4 decodeStringPayload
  else if marker = mList8 then withLength 1 (decodeListItems d)
  else if marker = mList16 then withLength 2 (decodeListItems d)
  else if marker = mList32 then withLength 4 (decodeListItems d)
  else if marker = mDict8 then withLength 1 (decodeDictItems d)
  else if marker = mDict16 then withLength 2 (decodeDictItems d)
  else if marker = mDict32 then withLength 4 (decodeDictItems d)
  else if marker = mStruct8 then withLength 1 (decodeStructFields d)
  else if marker = mStruct16 then withLength 2 (decodeStructFields d)
  else decodeTinyOrInt d marker

/-- A value is read with values inside it to the depth of the fuel. -/
def decodeWithin : ℕ → Read Value
  | 0,_ => .error .eof
  | fuel+1,input =>
    match splitFirst input with
    | .error e => .error e
    | .ok (marker,rest) => decodeWithMarker (decodeWithin fuel) marker rest

def decode : Read Value := fun input => decodeWithin input.length input

/-! ## Round trip -/

theorem splitN_append {n : ℕ} {bs : List UInt8} (h : bs.length = n) (t : List UInt8) : splitN n (bs ++ t) = .ok (bs,t) := by
  subst h
  simp [splitN]

theorem withLength_append {α : Type} {n v : ℕ} (h : v < 256^n) (p : ℕ → Read α) (t : List UInt8) :
    withLength n p (beBytes n v ++ t) = p v t := by
  simp only [withLength,splitN_append (length_beBytes n v) t,ofBe_beBytes_of_lt h]

/-- The bytes begin with a marker, and what is read after them is read with `r`. -/
def Opens (d : Read Value) (bytes : List UInt8) (r : Read Value) : Prop :=
  ∃ marker bs, bytes = marker :: bs ∧ ∀ t, decodeWithMarker d marker (bs ++ t) = r t

theorem Opens.decode {bytes payload t : List UInt8} {r : Read Value} {fuel : ℕ} {v : Value}
    (h : Opens (decodeWithin fuel) bytes r) (hr : r (payload ++ t) = .ok (v,t)) :
    decodeWithin (fuel+1) (bytes ++ payload ++ t) = .ok (v,t) := by
  obtain ⟨marker,bs,rfl,hopen⟩ := h
  simp only [List.cons_append,decodeWithin,splitFirst,List.append_assoc,hopen,hr]

theorem opens_one {d : Read Value} {marker : UInt8} {r : Read Value} (h : decodeWithMarker d marker = r) : Opens d [marker] r :=
  ⟨marker,[],rfl,fun t => by rw [h]; rfl⟩

theorem opens_length {d : Read Value} {marker : UInt8} {n len : ℕ} {p : ℕ → Read Value}
    (h : decodeWithMarker d marker = withLength n p) (hlen : len < 256^n) : Opens d (marker :: beBytes n len) (p len) :=
  ⟨marker,_,rfl,fun t => by rw [h,withLength_append hlen]⟩

theorem opens_encodeLength {d : Read Value} {tiny m8 m16 m32 : UInt8} {p : ℕ → Read Value}
    (htiny : ∀ len ≤ 15, decodeWithMarker d (tiny ||| UInt8.ofNat len) = p len) (h8 : decodeWithMarker d m8 = withLength 1 p)
    (h16 : decodeWithMarker d m16 = withLength 2 p) (h32 : decodeWithMarker d m32 = withLength 4 p) {len : ℕ} (hlen : len < 2^32) :
    Opens d (encodeLength tiny m8 m16 m32 len) (p len) := by
  unfold encodeLength
  split_ifs with h₀ h₁ h₂
  · exact opens_one (htiny len h₀)
  · exact opens_length (n := 1) h8 (by omega)
  · exact opens_length h16 (by omega)
  · exact opens_length h32 (by omega)

section Headers
variable (d : Read Value)

theorem opens_encodeStringHeader {len : ℕ} (h : len < 2^32) :
    Opens d (encodeLength 0x80 mString8 mString16 mString32 len) (decodeStringPayload len) := by
  refine opens_encodeLength ?_ rfl rfl rfl h
  intro len hlen
  interval_cases len <;> rfl

theorem opens_encodeListHeader {len : ℕ} (h : len < 2^32) : Opens d (encodeListHeader len) (decodeListItems d len) := by
  refine opens_encodeLength ?_ rfl rfl rfl h
  intro len hlen
  interval_cases len <;> rfl

theorem opens_encodeDictHeader {len : ℕ} (h : len < 2^32) : Opens d (encodeDictHeader len) (decodeDictItems d len) := by
  refine opens_encodeLength ?_ rfl rfl rfl h
  intro len hlen
  interval_cases len <;> rfl

theorem opens_encodeStructHeader {size : ℕ} (h : size < 65536) : Opens d (encodeStructHeader size) (decodeStructFields d size) := by
  unfold encodeStructHeader
  split_ifs with h₀ h₁
  · refine opens_one ?_
    interval_cases size <;> rfl
  · exact opens_length (n := 1) rfl (by omega)
  · exact opens_length rfl (by omega)

theorem decodeWithMarker_small {marker : UInt8} (h : -16 ≤ marker.toInt8.toInt) :
    decodeWithMarker d marker = decodeTinyOrInt d marker := by
  have hne : ∀ m : UInt8, m.toInt8.toInt < -16 → marker ≠ m := by
    rintro m hm rfl
    omega
  simp only [decodeWithMarker,if_neg (hne mNull (by decide)),if_neg (hne mTrue (by decide)),if_neg (hne mFalse (by decide)),
    if_neg (hne mFloat (by decide)),if_neg (hne mInt8 (by decide)),if_neg (hne mInt16 (by decide)),
    if_neg (hne mInt32 (by decide)),if_neg (hne mInt64 (by decide)),if_neg (hne mBytes8 (by decide)),
    if_neg (hne mBytes16 (by decide)),if_neg (hne mBytes32 (by decide)),if_neg (hne mString8 (by decide)),
    if_neg (hne mString16 (by decide)),if_neg (hne mString32 (by decide)),if_neg (hne mList8 (by decide)),
    if_neg (hne mList16 (by decide)),if_neg (hne mList32 (by decide)),if_neg (hne mDict8 (by decide)),
    if_neg (hne mDict16 (by decide)),if_neg (hne mDict32 (by decide)),if_neg (hne mStruct8 (by decide)),
    if_neg (hne mStruct16 (by decide))]

theorem opens_integer {marker : UInt8} {n v : ℕ} {value : ℕ → Int64} {i : Int64} (h : decodeWithMarker d marker = withInteger n value)
    (hv : v < 256^n) (hi : value v = i) : Opens d (marker :: beBytes n v) (fun input => .ok (.integer i,input)) := by
  refine ⟨marker,_,rfl,fun t => ?_⟩
  rw [h,withInteger,withLength_append hv,hi]

theorem opens_encodeInteger (i : Int64) : Opens d (encodeInteger i) (fun input => .ok (.integer i,input)) := by
  unfold encodeInteger
  split_ifs with h₀ h₁ h₂ h₃
  · have hback : i.toInt8.toInt = i.toInt := by
      rw [Int64.toInt_toInt8]
      exact Int.bmod_eq_of_le (by omega) (by omega)
    refine opens_one ?_
    rw [decodeWithMarker_small d (by rw [Int8.toInt8_toUInt8,hback]; exact h₀.1)]
    funext input
    rw [decodeTinyOrInt,Int8.toInt8_toUInt8,if_pos (by rw [hback]; exact h₀)]
    have hi : i.toInt8.toInt64 = i := Int64.toInt_inj.mp (by rw [Int8.toInt_toInt64,hback])
    rw [hi]
  · have hread : decodeWithMarker d mInt8 = withInteger 1 (fun bits => (UInt8.ofNat bits).toInt8.toInt64) := rfl
    have hbytes : [i.toInt8.toUInt8] = beBytes 1 i.toInt8.toUInt8.toNat := by simp [beBytes]
    rw [hbytes]
    refine opens_integer d hread i.toInt8.toUInt8.toNat_lt ?_
    rw [UInt8.ofNat_toNat,Int8.toInt8_toUInt8]
    refine Int64.toInt_inj.mp ?_
    rw [Int8.toInt_toInt64,Int64.toInt_toInt8]
    exact Int.bmod_eq_of_le (by omega) (by omega)
  · have hread : decodeWithMarker d mInt16 = withInteger 2 (fun bits => (UInt16.ofNat bits).toInt16.toInt64) := rfl
    refine opens_integer d hread i.toInt16.toUInt16.toNat_lt ?_
    rw [UInt16.ofNat_toNat,Int16.toInt16_toUInt16]
    refine Int64.toInt_inj.mp ?_
    rw [Int16.toInt_toInt64,Int64.toInt_toInt16]
    exact Int.bmod_eq_of_le (by omega) (by omega)
  · have hread : decodeWithMarker d mInt32 = withInteger 4 (fun bits => (UInt32.ofNat bits).toInt32.toInt64) := rfl
    refine opens_integer d hread i.toInt32.toUInt32.toNat_lt ?_
    rw [UInt32.ofNat_toNat,Int32.toInt32_toUInt32]
    refine Int64.toInt_inj.mp ?_
    rw [Int32.toInt_toInt64,Int64.toInt_toInt32]
    exact Int.bmod_eq_of_le (by omega) (by omega)
  · have hread : decodeWithMarker d mInt64 = withInteger 8 (fun bits => (UInt64.ofNat bits).toInt64) := rfl
    refine opens_integer d hread i.toUInt64.toNat_lt ?_
    rw [UInt64.ofNat_toNat,Int64.toInt64_toUInt64]

end Headers

/-! ## Payloads -/

theorem fromUtf8_utf8 (s : String) : fromUtf8 (utf8 s) = some s := by
  have hbytes : (⟨(utf8 s).toArray⟩ : ByteArray) = s.toByteArray := by simp [utf8]
  rw [fromUtf8,hbytes,String.fromUTF8?,dif_pos s.isValidUTF8]
  rfl

theorem decodeStringPayload_utf8 (s : String) (t : List UInt8) :
    decodeStringPayload (utf8 s).length (utf8 s ++ t) = .ok (.string s,t) := by
  simp [decodeStringPayload,fromUtf8_utf8]

theorem decodeBytesPayload_append (b t : List UInt8) : decodeBytesPayload b.length (b ++ t) = .ok (.bytes b,t) := by
  simp [decodeBytesPayload]

theorem insertEntry_last {k : String} {v : Value} {entries : Dict} (h : ∀ e ∈ entries, e.1 < k) :
    insertEntry k v entries = entries ++ [(k,v)] := by
  induction entries with
  | nil => rfl
  | cons e entries ih =>
    have he := h e (by simp)
    have hk : ¬ k < e.1 := lt_asymm he
    have hne : k ≠ e.1 := ne_of_gt he
    simp only [insertEntry,if_neg hk,if_neg hne,ih (fun f hf => h f (by simp [hf])),List.cons_append]

/-! ## Nested values -/

namespace Value

def children : Value → List Value
  | .list items => items
  | .dictionary entries => entries.map Prod.snd
  | .struct _ fields => fields
  | _ => []

theorem sizeOf_child {v c : Value} (h : c ∈ v.children) : sizeOf c < sizeOf v := by
  cases v with
  | list items =>
    have hlt := List.sizeOf_lt_of_mem (show c ∈ items from h)
    simp only [list.sizeOf_spec]
    omega
  | dictionary entries =>
    obtain ⟨e,he,rfl⟩ := List.mem_map.mp (show c ∈ entries.map Prod.snd from h)
    have hlt := List.sizeOf_lt_of_mem he
    have hpair : sizeOf e = 1+sizeOf e.1+sizeOf e.2 := by cases e; rfl
    simp only [dictionary.sizeOf_spec]
    omega
  | struct tag fields =>
    have hlt := List.sizeOf_lt_of_mem (show c ∈ fields from h)
    simp only [struct.sizeOf_spec]
    omega
  | _ => cases h

theorem of_children {p : Value → Prop} (h : ∀ v, (∀ c ∈ v.children, p c) → p v) (v : Value) : p v :=
  h v (fun c _ => of_children h c)
termination_by sizeOf v
decreasing_by exact sizeOf_child ‹_›

/-- It holds of a value and of all the values inside it. -/
inductive All (p : Value → Prop) : Value → Prop
  | intro {v : Value} (here : p v) (inside : ∀ c ∈ v.children, All p c) : All p v

variable {p : Value → Prop} {v : Value}

theorem All.here (h : v.All p) : p v := by
  cases h with
  | intro here _ => exact here

theorem All.inside (h : v.All p) {c : Value} (hc : c ∈ v.children) : c.All p := by
  cases h with
  | intro _ inside => exact inside c hc

/-- A dictionary is a map: its keys are in order, each once. -/
def KeysSorted : Value → Prop
  | .dictionary entries => entries.Pairwise (fun a b => a.1 < b.1)
  | _ => True

/-- Its length fits thirty-two bits. -/
def Short : Value → Prop
  | .string s => (utf8 s).length < 2^32
  | .bytes b => b.length < 2^32
  | .list items => items.length < 2^32
  | .dictionary entries => entries.length < 2^32 ∧ ∀ e ∈ entries, (utf8 e.1).length < 2^32
  | _ => True

/-- As a structure it has no more fields than its header can tell. -/
def Narrow : Value → Prop
  | .struct _ fields => fields.length < 65536
  | _ => True

end Value

/-- Values of this kind come back from their bytes. -/
def Reads (d : Read Value) (n : ℕ) (v : Value) : Prop :=
  ∀ t, (encode v ++ t).length ≤ n → d (encode v ++ t) = .ok (v,t)

theorem decodeItems_encode {d : Read Value} {n : ℕ} {items : List Value} (h : ∀ c ∈ items, Reads d n c) {t : List UInt8}
    (ht : (encodeItems items ++ t).length ≤ n) : decodeItems d items.length (encodeItems items ++ t) = .ok (items,t) := by
  induction items with
  | nil => rfl
  | cons item items ih =>
    rw [encodeItems_cons,List.append_assoc] at ht ⊢
    have hitem := h item (by simp) (encodeItems items ++ t) ht
    have hrest := ih (fun c hc => h c (by simp [hc])) (by simp only [List.length_append] at ht ⊢; omega)
    simp only [List.length_cons,decodeItems,hitem,hrest]

theorem decodeEntries_encode {d : Read Value} {n : ℕ} {entries : Dict} (hk : ∀ e ∈ entries, Reads d n (.string e.1))
    (hv : ∀ e ∈ entries, Reads d n e.2) {m : Dict} (hsorted : (m ++ entries).Pairwise (fun a b => a.1 < b.1))
    {t : List UInt8} (ht : (encodeEntries entries ++ t).length ≤ n) :
    decodeEntries d entries.length m (encodeEntries entries ++ t) = .ok (m ++ entries,t) := by
  induction entries generalizing m with
  | nil =>
    rw [List.append_nil]
    rfl
  | cons e entries ih =>
    obtain ⟨k,v⟩ := e
    rw [encodeEntries_cons,List.append_assoc,List.append_assoc] at ht ⊢
    have hkey := hk (k,v) (by simp) (encode v ++ (encodeEntries entries ++ t)) ht
    rw [encode_string] at hkey
    have hval := hv (k,v) (by simp) (encodeEntries entries ++ t) (by simp only [List.length_append] at ht ⊢; omega)
    have hlast : insertEntry k v m = m ++ [(k,v)] := by
      refine insertEntry_last ?_
      intro e he
      exact (List.pairwise_append.mp hsorted).2.2 e he (k,v) (by simp)
    have hrest := ih (fun e he => hk e (by simp [he])) (fun e he => hv e (by simp [he])) (m := m ++ [(k,v)])
      (by rwa [List.append_assoc]) (by simp only [List.length_append] at ht ⊢; omega)
    rw [List.append_assoc] at hrest
    simp only [List.length_cons,decodeEntries,hkey,hval,hlast]
    exact hrest

theorem Opens.reads {v : Value} {header p : List UInt8} {fuel : ℕ} {r : Read Value} (hv : encode v = header ++ p)
    (h : Opens (decodeWithin fuel) header r) (hr : ∀ t, (p ++ t).length ≤ fuel → r (p ++ t) = .ok (v,t)) :
    Reads (decodeWithin (fuel+1)) (fuel+1) v := by
  intro t ht
  rw [hv] at ht ⊢
  refine h.decode (hr t ?_)
  obtain ⟨marker,bs,rfl,-⟩ := h
  simp only [List.length_append,List.length_cons] at ht ⊢
  omega

theorem encodeLength_pos (tiny m8 m16 m32 : UInt8) (len : ℕ) : 0 < (encodeLength tiny m8 m16 m32 len).length := by
  unfold encodeLength
  split_ifs <;> simp

theorem encode_pos (v : Value) : 0 < (encode v).length := by
  have hlen := encodeLength_pos
  have happend : ∀ a b : List UInt8, 0 < a.length → 0 < (a ++ b).length := by
    intro a b ha
    rw [List.length_append]
    exact Nat.add_pos_left ha _
  cases v with
  | null => exact Nat.succ_pos _
  | boolean b => cases b <;> exact Nat.succ_pos _
  | integer i =>
    show 0 < (encodeInteger i).length
    unfold encodeInteger
    split_ifs <;> simp
  | float bits => exact Nat.succ_pos _
  | string s => exact happend _ (utf8 s) (hlen ..)
  | bytes b =>
    show 0 < (encodeBytes b).length
    unfold encodeBytes
    split_ifs <;> simp
  | list items => exact happend _ (encodeItems items) (hlen ..)
  | dictionary entries => exact happend _ (encodeEntries entries) (hlen ..)
  | struct tag fields =>
    show 0 < (encodeStructHeader fields.length ++ tag :: encodeItems fields).length
    rw [List.length_append,List.length_cons]
    exact Nat.succ_pos _

theorem reads_string {s : String} (h : (utf8 s).length < 2^32) (fuel : ℕ) :
    Reads (decodeWithin (fuel+1)) (fuel+1) (.string s) := by
  refine (opens_encodeStringHeader _ h).reads (p := utf8 s) rfl ?_
  intro t _
  exact decodeStringPayload_utf8 s t

theorem reads_bytes {b : List UInt8} (h : b.length < 2^32) (fuel : ℕ) :
    Reads (decodeWithin (fuel+1)) (fuel+1) (.bytes b) := by
  have hopen : Opens (decodeWithin fuel) (if b.length ≤ 255 then [mBytes8,UInt8.ofNat b.length]
      else if b.length ≤ 65535 then mBytes16 :: beBytes 2 b.length
      else mBytes32 :: beBytes 4 b.length) (decodeBytesPayload b.length) := by
    split_ifs
    · exact opens_length (n := 1) rfl (by omega)
    · exact opens_length rfl (by omega)
    · exact opens_length rfl (by omega)
  refine hopen.reads (p := b) rfl ?_
  intro t _
  exact decodeBytesPayload_append b t

theorem reads_leaf {v : Value} {fuel : ℕ} (h : Opens (decodeWithin fuel) (encode v) (fun input => .ok (v,input))) :
    Reads (decodeWithin (fuel+1)) (fuel+1) v :=
  h.reads (p := []) (by simp) (fun _ _ => rfl)

theorem opens_float (d : Read Value) (bits : BitVec 64) :
    Opens d (encode (.float bits)) (fun input => .ok (.float bits,input)) := by
  refine ⟨mFloat,_,rfl,fun t => ?_⟩
  have hread : decodeWithMarker d mFloat = decodeFloat := rfl
  have hlt : bits.toNat < 256^8 := bits.isLt
  rw [hread,decodeFloat,splitN_append (length_beBytes 8 bits.toNat)]
  simp only [ofBe_beBytes_of_lt hlt,BitVec.ofNat_toNat,BitVec.setWidth_eq]

theorem reads_encode {v : Value} (hk : v.All Value.KeysSorted) (hs : v.All Value.Short) (hn : v.All Value.Narrow) (fuel : ℕ) :
    Reads (decodeWithin fuel) fuel v := by
  induction v using Value.of_children generalizing fuel with
  | h v ih =>
  cases fuel with
  | zero =>
    intro t ht
    have hpos := encode_pos v
    simp only [List.length_append] at ht
    omega
  | succ fuel =>
    have hin : ∀ c ∈ v.children, Reads (decodeWithin fuel) fuel c :=
      fun c hc => ih c hc (hk.inside hc) (hs.inside hc) (hn.inside hc) fuel
    have hshort := hs.here
    cases v with
    | null => exact reads_leaf (opens_one rfl)
    | boolean b =>
      cases b
      · exact reads_leaf (opens_one rfl)
      · exact reads_leaf (opens_one rfl)
    | integer i => exact reads_leaf (opens_encodeInteger _ i)
    | float bits => exact reads_leaf (opens_float _ bits)
    | string s => exact reads_string hshort fuel
    | bytes b => exact reads_bytes hshort fuel
    | list items =>
      refine (opens_encodeListHeader _ hshort).reads (p := encodeItems items) rfl ?_
      intro t ht
      have hitems : ∀ c ∈ items, Reads (decodeWithin fuel) fuel c := hin
      simp only [decodeListItems,decodeItems_encode hitems ht]
    | dictionary entries =>
      refine (opens_encodeDictHeader _ hshort.1).reads (p := encodeEntries entries) rfl ?_
      intro t ht
      have hkeys : ∀ e ∈ entries, Reads (decodeWithin fuel) fuel (.string e.1) := by
        intro e he
        cases fuel with
        | zero =>
          intro t' ht'
          have hpos := encode_pos (.string e.1)
          simp only [List.length_append] at ht'
          omega
        | succ fuel => exact reads_string (hshort.2 e he) fuel
      have hvals : ∀ e ∈ entries, Reads (decodeWithin fuel) fuel e.2 :=
        fun e he => hin e.2 (List.mem_map.mpr ⟨e,he,rfl⟩)
      have hentries := decodeEntries_encode hkeys hvals (m := []) hk.here ht
      simp only [decodeDictItems,hentries,List.nil_append]
    | struct tag fields =>
      refine (opens_encodeStructHeader _ hn.here).reads (p := tag :: encodeItems fields) rfl ?_
      intro t ht
      have hfields : ∀ c ∈ fields, Reads (decodeWithin fuel) fuel c := hin
      have hread := decodeItems_encode hfields (t := t) (by simp only [List.length_append,List.length_cons] at ht ⊢; omega)
      simp only [decodeStructFields,List.cons_append,splitFirst,hread]

/-! ## What is read -/

/-- The ways to read on after a marker, for two ways to read the values inside. -/
inductive Forms (d d' : Read Value) : Read Value → Read Value → Prop
  | leaf {v : Value} (hn : v.Narrow) (hv : v.children = []) : Forms d d' (fun input => .ok (v,input)) (fun input => .ok (v,input))
  | float : Forms d d' decodeFloat decodeFloat
  | integer (n : ℕ) (value : ℕ → Int64) : Forms d d' (withInteger n value) (withInteger n value)
  | bytes (n : ℕ) : Forms d d' (withLength n decodeBytesPayload) (withLength n decodeBytesPayload)
  | string (n : ℕ) : Forms d d' (withLength n decodeStringPayload) (withLength n decodeStringPayload)
  | list (n : ℕ) : Forms d d' (withLength n (decodeListItems d)) (withLength n (decodeListItems d'))
  | dict (n : ℕ) : Forms d d' (withLength n (decodeDictItems d)) (withLength n (decodeDictItems d'))
  | struct {n : ℕ} (hn : 256^n ≤ 65536) : Forms d d' (withLength n (decodeStructFields d)) (withLength n (decodeStructFields d'))
  | tiny (marker : UInt8) : Forms d d' (decodeTinyOrInt d marker) (decodeTinyOrInt d' marker)

theorem Forms.ite {d d' a a' b b' : Read Value} {c : Prop} [Decidable c] (ha : Forms d d' a a') (hb : Forms d d' b b') :
    Forms d d' (if c then a else b) (if c then a' else b') := by
  by_cases hc : c
  · rwa [if_pos hc,if_pos hc]
  · rwa [if_neg hc,if_neg hc]

theorem forms_marker (d d' : Read Value) (marker : UInt8) : Forms d d' (decodeWithMarker d marker) (decodeWithMarker d' marker) := by
  unfold decodeWithMarker
  refine .ite (.leaf trivial rfl) (.ite (.leaf trivial rfl) (.ite (.leaf trivial rfl) (.ite .float ?_)))
  refine .ite (.integer 1 _) (.ite (.integer 2 _) (.ite (.integer 4 _) (.ite (.integer 8 _) ?_)))
  refine .ite (.bytes 1) (.ite (.bytes 2) (.ite (.bytes 4) ?_))
  refine .ite (.string 1) (.ite (.string 2) (.ite (.string 4) ?_))
  refine .ite (.list 1) (.ite (.list 2) (.ite (.list 4) ?_))
  refine .ite (.dict 1) (.ite (.dict 2) (.ite (.dict 4) ?_))
  exact .ite (.struct (by decide)) (.ite (.struct (by decide)) (.tiny marker))

/-- All that is read with `d` has the property, and leaves less than there was. -/
structure Yields (p : Value → Prop) (d : Read Value) : Prop where
  value : ∀ input v rest, d input = .ok (v,rest) → p v
  rest : ∀ input v rest, d input = .ok (v,rest) → rest.length < input.length

theorem decodeItems_yields {p : Value → Prop} {d : Read Value} (h : Yields p d) {n : ℕ} {input rest : List UInt8} {items : List Value}
    (hd : decodeItems d n input = .ok (items,rest)) : items.length = n ∧ (∀ c ∈ items, p c) ∧ rest.length ≤ input.length := by
  induction n generalizing input items with
  | zero =>
    obtain ⟨rfl,rfl⟩ := Prod.mk.inj (Except.ok.inj hd)
    simp
  | succ n ih =>
    simp only [decodeItems] at hd
    split at hd
    · cases hd
    · rename_i item rest₁ hitem
      split at hd
      · cases hd
      · rename_i items₁ rest₂ hitems
        obtain ⟨rfl,rfl⟩ := Prod.mk.inj (Except.ok.inj hd)
        obtain ⟨hlen,hall,hrest⟩ := ih hitems
        have hone := h.rest _ _ _ hitem
        refine ⟨by simp [hlen],?_,by omega⟩
        intro c hc
        obtain rfl | hc := List.mem_cons.mp hc
        · exact h.value _ _ _ hitem
        · exact hall c hc

theorem mem_insertEntry {k : String} {v : Value} {entries : Dict} {e : String × Value} (h : e ∈ insertEntry k v entries) :
    e = (k,v) ∨ e ∈ entries := by
  induction entries with
  | nil => exact Or.inl (by simpa [insertEntry] using h)
  | cons f entries ih =>
    simp only [insertEntry] at h
    split_ifs at h
    · obtain he | he := List.mem_cons.mp h
      · exact Or.inl he
      · exact Or.inr he
    · obtain he | he := List.mem_cons.mp h
      · exact Or.inl he
      · exact Or.inr (List.mem_cons_of_mem _ he)
    · obtain he | he := List.mem_cons.mp h
      · exact Or.inr (by rw [he]; simp)
      · exact (ih he).imp id (List.mem_cons_of_mem _)

theorem decodeEntries_yields {p : Value → Prop} {d : Read Value} (h : Yields p d) {n : ℕ} {input rest : List UInt8} {map entries : Dict}
    (hd : decodeEntries d n map input = .ok (entries,rest)) (hmap : ∀ e ∈ map, p e.2) :
    (∀ e ∈ entries, p e.2) ∧ rest.length ≤ input.length := by
  induction n generalizing input map with
  | zero =>
    obtain ⟨rfl,rfl⟩ := Prod.mk.inj (Except.ok.inj hd)
    exact ⟨hmap,le_rfl⟩
  | succ n ih =>
    simp only [decodeEntries] at hd
    split at hd
    · cases hd
    · rename_i key rest₁ hkey
      split at hd
      · cases hd
      · rename_i val rest₂ hval
        have hnew : ∀ e ∈ insertEntry key val map, p e.2 := by
          intro e he
          obtain rfl | he := mem_insertEntry he
          · exact h.value _ _ _ hval
          · exact hmap e he
        obtain ⟨hall,hrest⟩ := ih hd hnew
        have hone := h.rest _ _ _ hkey
        have htwo := h.rest _ _ _ hval
        exact ⟨hall,by omega⟩
    · cases hd

/-- What is read with `r` has only narrow structures in it, and leaves no more than there was. -/
def Keeps (r : Read Value) : Prop :=
  ∀ input v rest, r input = .ok (v,rest) → v.All Value.Narrow ∧ rest.length ≤ input.length

theorem splitN_ok {n : ℕ} {input bs rest : List UInt8} (h : splitN n input = .ok (bs,rest)) :
    bs.length = n ∧ rest.length ≤ input.length := by
  unfold splitN at h
  split_ifs at h with hn
  obtain ⟨rfl,rfl⟩ := Prod.mk.inj (Except.ok.inj h)
  simp only [List.length_take,List.length_drop]
  omega

theorem keeps_withLength {n : ℕ} {payload : ℕ → Read Value} (h : ∀ len < 256^n, Keeps (payload len)) : Keeps (withLength n payload) := by
  intro input v rest hr
  unfold withLength at hr
  split at hr
  · cases hr
  · rename_i bs rest₁ hsplit
    obtain ⟨hlen,hle⟩ := splitN_ok hsplit
    obtain ⟨hv,hrest⟩ := h (ofBe bs) (hlen ▸ ofBe_lt bs) rest₁ v rest hr
    exact ⟨hv,by omega⟩

theorem keeps_leaf {v : Value} (hn : v.Narrow) (hv : v.children = []) : Keeps (fun input => .ok (v,input)) := by
  intro input w rest hr
  obtain ⟨rfl,rfl⟩ := Prod.mk.inj (Except.ok.inj hr)
  refine ⟨.intro hn ?_,le_rfl⟩
  rw [hv]
  simp

theorem keeps_withInteger (n : ℕ) (value : ℕ → Int64) : Keeps (withInteger n value) :=
  keeps_withLength (fun bits _ => keeps_leaf (v := .integer (value bits)) trivial rfl)

theorem keeps_float : Keeps decodeFloat := by
  intro input v rest hr
  unfold decodeFloat at hr
  split at hr
  · cases hr
  · rename_i bs rest₁ hsplit
    obtain ⟨rfl,rfl⟩ := Prod.mk.inj (Except.ok.inj hr)
    exact ⟨.intro trivial (by simp [Value.children]),(splitN_ok hsplit).2⟩

theorem keeps_string (len : ℕ) : Keeps (decodeStringPayload len) := by
  intro input v rest hr
  unfold decodeStringPayload at hr
  split_ifs at hr
  split at hr
  · cases hr
  · obtain ⟨rfl,rfl⟩ := Prod.mk.inj (Except.ok.inj hr)
    exact ⟨.intro trivial (by simp [Value.children]),by simp⟩

theorem keeps_bytes (len : ℕ) : Keeps (decodeBytesPayload len) := by
  intro input v rest hr
  unfold decodeBytesPayload at hr
  split_ifs at hr
  obtain ⟨rfl,rfl⟩ := Prod.mk.inj (Except.ok.inj hr)
  exact ⟨.intro trivial (by simp [Value.children]),by simp⟩

section Containers
variable {d : Read Value}

theorem keeps_list (h : Yields (Value.All Value.Narrow) d) (len : ℕ) : Keeps (decodeListItems d len) := by
  intro input v rest hr
  unfold decodeListItems at hr
  split at hr
  · cases hr
  · rename_i items rest₁ hitems
    obtain ⟨rfl,rfl⟩ := Prod.mk.inj (Except.ok.inj hr)
    obtain ⟨-,hall,hrest⟩ := decodeItems_yields h hitems
    exact ⟨.intro trivial hall,hrest⟩

theorem keeps_dict (h : Yields (Value.All Value.Narrow) d) (len : ℕ) : Keeps (decodeDictItems d len) := by
  intro input v rest hr
  unfold decodeDictItems at hr
  split at hr
  · cases hr
  · rename_i entries rest₁ hentries
    obtain ⟨rfl,rfl⟩ := Prod.mk.inj (Except.ok.inj hr)
    obtain ⟨hall,hrest⟩ := decodeEntries_yields h hentries (by simp)
    refine ⟨.intro trivial ?_,hrest⟩
    intro c hc
    obtain ⟨e,he,rfl⟩ := List.mem_map.mp hc
    exact hall e he

theorem keeps_struct (h : Yields (Value.All Value.Narrow) d) {size : ℕ} (hsize : size < 65536) : Keeps (decodeStructFields d size) := by
  intro input v rest hr
  cases input with
  | nil => cases hr
  | cons tag input =>
    simp only [decodeStructFields,splitFirst] at hr
    split at hr
    · cases hr
    · rename_i fields rest₁ hfields
      obtain ⟨rfl,rfl⟩ := Prod.mk.inj (Except.ok.inj hr)
      obtain ⟨hlen,hall,hrest⟩ := decodeItems_yields h hfields
      refine ⟨.intro ?_ hall,hrest.trans (by simp)⟩
      rw [Value.Narrow,hlen]
      exact hsize

theorem keeps_tinyOrInt (h : Yields (Value.All Value.Narrow) d) (marker : UInt8) : Keeps (decodeTinyOrInt d marker) := by
  have hlen : (marker &&& 0x0F).toNat < 65536 := (UInt8.toNat_lt _).trans (by decide)
  intro input v rest hr
  unfold decodeTinyOrInt at hr
  split_ifs at hr
  · exact keeps_leaf (v := .integer marker.toInt8.toInt64) trivial rfl input v rest hr
  · exact keeps_string _ input v rest hr
  · exact keeps_list h _ input v rest hr
  · exact keeps_dict h _ input v rest hr
  · exact keeps_struct h hlen input v rest hr

theorem keeps_marker (h : Yields (Value.All Value.Narrow) d) (marker : UInt8) : Keeps (decodeWithMarker d marker) := by
  obtain ⟨r,hr⟩ : ∃ r, decodeWithMarker d marker = r := ⟨_,rfl⟩
  have hform := forms_marker d d marker
  rw [hr] at hform ⊢
  cases hform with
  | leaf hn hv => exact keeps_leaf hn hv
  | float => exact keeps_float
  | integer n value => exact keeps_withInteger n value
  | bytes n => exact keeps_withLength (fun len _ => keeps_bytes len)
  | string n => exact keeps_withLength (fun len _ => keeps_string len)
  | list n => exact keeps_withLength (fun len _ => keeps_list h len)
  | dict n => exact keeps_withLength (fun len _ => keeps_dict h len)
  | struct hn => exact keeps_withLength (fun len hlen => keeps_struct h (hlen.trans_le hn))
  | tiny marker => exact keeps_tinyOrInt h marker

end Containers

theorem decodeWithin_yields (fuel : ℕ) : Yields (Value.All Value.Narrow) (decodeWithin fuel) := by
  induction fuel with
  | zero =>
    have hno : ∀ input v rest, decodeWithin 0 input ≠ .ok (v,rest) := by
      intro input v rest h
      cases h
    exact ⟨fun input v rest h => absurd h (hno input v rest),fun input v rest h => absurd h (hno input v rest)⟩
  | succ fuel ih =>
    have hboth : ∀ input v rest, decodeWithin (fuel+1) input = .ok (v,rest) → v.All Value.Narrow ∧ rest.length < input.length := by
      intro input v rest hr
      cases input with
      | nil => cases hr
      | cons marker input =>
        obtain ⟨hv,hrest⟩ := keeps_marker ih marker input v rest hr
        exact ⟨hv,by simp only [List.length_cons]; omega⟩
    exact ⟨fun input v rest h => (hboth input v rest h).1,fun input v rest h => (hboth input v rest h).2⟩

/-! ## The fuel -/

/-- They read the same from inputs of this length. -/
def Alike {α : Type} (n : ℕ) (r r' : Read α) : Prop := ∀ input, input.length ≤ n → r input = r' input

theorem alike_items {n : ℕ} {d d' : Read Value} (h : Alike n d d') (hd : ∀ input v rest, d input = .ok (v,rest) → rest.length < input.length)
    (len : ℕ) : Alike n (decodeItems d len) (decodeItems d' len) := by
  induction len with
  | zero => exact fun _ _ => rfl
  | succ len ih =>
    intro input hinput
    simp only [decodeItems,← h input hinput]
    cases hitem : d input with
    | error e => rfl
    | ok q =>
      have hrest := hd input q.1 q.2 hitem
      simp only [ih q.2 (by omega)]

theorem alike_entries {n : ℕ} {d d' : Read Value} (h : Alike n d d') (hd : ∀ input v rest, d input = .ok (v,rest) → rest.length < input.length)
    (len : ℕ) (map : Dict) : Alike n (decodeEntries d len map) (decodeEntries d' len map) := by
  induction len generalizing map with
  | zero => exact fun _ _ => rfl
  | succ len ih =>
    intro input hinput
    simp only [decodeEntries,← h input hinput]
    cases hkey : d input with
    | error e => rfl
    | ok q =>
      obtain ⟨w,rest⟩ := q
      have hrest := hd input w rest hkey
      cases w with
      | string key =>
        simp only [← h rest (by omega)]
        cases hval : d rest with
        | error e => rfl
        | ok q =>
          have hrest' := hd rest q.1 q.2 hval
          simp only [ih _ q.2 (by omega)]
      | _ => rfl

theorem alike_withLength {n m : ℕ} {p p' : ℕ → Read Value} (h : ∀ len, Alike n (p len) (p' len)) :
    Alike n (withLength m p) (withLength m p') := by
  intro input hinput
  simp only [withLength]
  cases hsplit : splitN m input with
  | error e => rfl
  | ok q =>
    have hrest := (splitN_ok (show splitN _ _ = .ok (q.1,q.2) from hsplit)).2
    exact h _ q.2 (by omega)

theorem alike_marker {n : ℕ} {d d' : Read Value} (h : Alike n d d') (hd : ∀ input v rest, d input = .ok (v,rest) → rest.length < input.length)
    (marker : UInt8) : Alike n (decodeWithMarker d marker) (decodeWithMarker d' marker) := by
  have hlist : ∀ len, Alike n (decodeListItems d len) (decodeListItems d' len) := by
    intro len input hinput
    simp only [decodeListItems,alike_items h hd len input hinput]
  have hdict : ∀ len, Alike n (decodeDictItems d len) (decodeDictItems d' len) := by
    intro len input hinput
    simp only [decodeDictItems,alike_entries h hd len [] input hinput]
  have hstruct : ∀ len, Alike n (decodeStructFields d len) (decodeStructFields d' len) := by
    intro len input hinput
    cases input with
    | nil => rfl
    | cons tag input =>
      have hfields := alike_items h hd len input (by simp only [List.length_cons] at hinput; omega)
      simp only [decodeStructFields,splitFirst,hfields]
  obtain ⟨⟨r,hr⟩,r',hr'⟩ : (∃ r, decodeWithMarker d marker = r) ∧ ∃ r', decodeWithMarker d' marker = r' := ⟨⟨_,rfl⟩,_,rfl⟩
  have hform := forms_marker d d' marker
  rw [hr,hr'] at hform ⊢
  cases hform with
  | list n => exact alike_withLength hlist
  | dict n => exact alike_withLength hdict
  | struct hn => exact alike_withLength hstruct
  | tiny marker =>
    intro input hinput
    simp only [decodeTinyOrInt,hlist _ input hinput,hdict _ input hinput,hstruct _ input hinput]
  | _ => exact fun _ _ => rfl

theorem decodeWithin_eq {fuel : ℕ} {input : List UInt8} (h : input.length ≤ fuel) : decodeWithin fuel input = decode input := by
  have hmore : ∀ n m, n ≤ m → Alike n (decodeWithin n) (decodeWithin m) := by
    intro n
    induction n with
    | zero =>
      intro m _ input hinput
      obtain rfl : input = [] := List.length_eq_zero_iff.mp (by omega)
      cases m <;> rfl
    | succ n ih =>
      intro m hm input hinput
      obtain ⟨m,rfl⟩ : ∃ k, m = k+1 := ⟨m-1,by omega⟩
      cases input with
      | nil => rfl
      | cons marker input =>
        exact alike_marker (ih m (by omega)) (decodeWithin_yields n).rest marker input (by simp only [List.length_cons] at hinput; omega)
  exact (hmore input.length fuel h input le_rfl).symm

theorem decode_encode {v : Value} (hk : v.All Value.KeysSorted) (hs : v.All Value.Short) :
    (∀ t, decode (encode v ++ t) = .ok (v,t)) ↔ v.All Value.Narrow := by
  constructor
  · intro h
    have hnil := h []
    exact (decodeWithin_yields _).value _ _ _ hnil
  · intro hn t
    exact reads_encode hk hs hn _ t le_rfl

end Drevo.Bolt
