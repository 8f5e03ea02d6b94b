import Drevo.Core.Invariant
import Drevo.Wal.Compact
import Drevo.Wal.Lines

/-! The records of every format, with the serializers a build links as parameters, and which
records read back as they were written. JSON and the compact formats go through a value tree,
which has no number for a float that is not finite; the JSON reader bounds how deep its input
is nested, and a compressed record how large its content may be. -/
namespace Drevo

/-- The largest record a compressed frame may announce. -/
def zstdMaxRecord : ℕ := 2^30

/-- The serializers and the features of a build. The JSON reader takes texts of at most
`jsonDepth` levels; `jsonOp`, `cborOps` and `msgPackOps` write the entries field by field,
`jsonValue` and `cborValue` a value tree; a compressed frame tells the size of its content. -/
class Serializers extends FloatText where
  jsonOp : WalOp → Option Bytes
  jsonOps : List WalOp → Option Bytes
  jsonToOp : Bytes → Option WalOp
  jsonToOps : Bytes → Option (List WalOp)
  jsonValue : Json → Option Bytes
  jsonToValue : Bytes → Option Json
  jsonDepth : ℕ
  cborOps : List WalOp → Option Bytes
  cborToOps : Bytes → Option (List WalOp)
  msgPackOps : List WalOp → Option Bytes
  msgPackToOps : Bytes → Option (List WalOp)
  cborValue : Cbor → Option Bytes
  cborToValue : Bytes → Option Cbor
  zstdFrame : Bytes → Option Bytes
  zstdContentSize : Bytes → Option ℕ
  zstdContent : Bytes → ℕ → Option Bytes
  walCbor : Bool
  walMsgPack : Bool
  walZstd : Bool

namespace Serializers
variable [Serializers]

def zstdCompress (bytes : Bytes) : Option Bytes := zstdFrame bytes

/-- The content of one compressed frame, unless it announces more than a record may hold. -/
def zstdDecompress (bytes : Bytes) : Option Bytes :=
  match zstdContentSize bytes with
  | none => none
  | some size => if size ≤ zstdMaxRecord then zstdContent bytes size else none

/-- The value tree of a record. -/
def opsValue (ops : List WalOp) : Json := .array (ops.map WalOp.toValue)

def compactEncode (record : Json) : Option Bytes := cborValue (Compact.ops record)

def compactDecode (payload : Bytes) : Option Json := (cborToValue payload).bind Compact.unops

def encodeOps (format : WalFormat) (ops : List WalOp) : Option Bytes :=
  match format with
  | .json => jsonValue (opsValue ops)
  | .cbor => cborOps ops
  | .msgPack => msgPackOps ops
  | .cborZstd => (cborOps ops).bind zstdCompress
  | .cborCompact => compactEncode (opsValue ops)
  | .cborCompactZstd => (compactEncode (opsValue ops)).bind zstdCompress

def decodeOps (format : WalFormat) (payload : Bytes) : Option (List WalOp) :=
  match format with
  | .json => (jsonToValue payload).bind (arrayOf WalOp.ofValue)
  | .cbor => cborToOps payload
  | .msgPack => msgPackToOps payload
  | .cborZstd => (zstdDecompress payload).bind cborToOps
  | .cborCompact => (compactDecode payload).bind (arrayOf WalOp.ofValue)
  | .cborCompactZstd => ((zstdDecompress payload).bind compactDecode).bind (arrayOf WalOp.ofValue)

def compiledIn : WalFormat → Bool
  | .json => true
  | .cbor => walCbor
  | .msgPack => walMsgPack
  | .cborZstd => walZstd
  | .cborCompact => walCbor
  | .cborCompactZstd => walZstd

instance logCodec : LogCodec where
  opToVec := jsonOp
  opsToVec := jsonOps
  opFromStr := jsonToOp
  opsFromStr := jsonToOps
  encodeOps format ops := if compiledIn format then encodeOps format ops else none
  decodeOps format payload := if compiledIn format then decodeOps format payload else none
  compiledIn := compiledIn

/-! ## What the serializers are documented to do -/

/-- A JSON text of a record: one line of UTF-8, an object or an array. -/
structure IsText (text : Bytes) (opens closes : UInt8) : Prop where
  line : 0x0A ∉ text
  utf8 : isUtf8 text = true
  head : text.head? = some opens
  last : text.getLast? = some closes

/-- What the serializers do with the record `ops`: they write the text of a finite float so
that it reads back; the JSON reader reads a text as its value tree, up to a depth; the binary
encodings and the compressor can be undone. -/
structure Documented (ops : List WalOp) : Prop where
  floats : ∀ op ∈ ops, ∀ x ∈ op.floats, x.Shown
  opText : ∀ op text, ops = [op] → jsonOp op = some text → IsText text 0x7B 0x7D ∧
    jsonToOp text = if op.toValue.depth ≤ jsonDepth then WalOp.ofValue op.toValue else none
  opsText : ∀ text, jsonOps ops = some text → IsText text 0x5B 0x5D ∧
    jsonToOps text = if (opsValue ops).depth ≤ jsonDepth then arrayOf WalOp.ofValue (opsValue ops) else none
  cbor : ∀ bytes, cborOps ops = some bytes → cborToOps bytes = some ops
  msgPack : ∀ bytes, msgPackOps ops = some bytes → msgPackToOps bytes = some ops
  cborValue : ∀ bytes, cborValue (Compact.ops (opsValue ops)) = some bytes →
    cborToValue bytes = some (Compact.ops (opsValue ops))
  zstd : ∀ bytes frame, cborOps ops = some bytes ∨ Serializers.cborValue (Compact.ops (opsValue ops)) = some bytes →
    zstdFrame bytes = some frame → zstdContentSize frame = some bytes.length ∧
      zstdContent frame bytes.length = some bytes

/-- The floats of the record have a number in every format. -/
def finiteOps (ops : List WalOp) : Bool := ops.all WalOp.finite

/-- How deep the JSON text of the record is nested. -/
def jsonLevels : List WalOp → ℕ
  | [op] => op.toValue.depth
  | ops => (opsValue ops).depth

/-- The payload is not too large to be read once it is compressed. -/
def Fits (payload : Option Bytes) : Prop := ∀ bytes, payload = some bytes → bytes.length ≤ zstdMaxRecord

/-- The records that a format gives back. -/
def ReadsBack (format : WalFormat) (ops : List WalOp) : Prop :=
  match format with
  | .json => finiteOps ops = true ∧ jsonLevels ops ≤ jsonDepth
  | .cbor => True
  | .msgPack => True
  | .cborZstd => Fits (cborOps ops)
  | .cborCompact => finiteOps ops = true
  | .cborCompactZstd => finiteOps ops = true ∧ Fits (compactEncode (opsValue ops))

variable {format : WalFormat} {ops : List WalOp}

theorem arrayOf_opsValue (h : ∀ op ∈ ops, ∀ x ∈ op.floats, x.Shown) :
    arrayOf WalOp.ofValue (opsValue ops) = if finiteOps ops then some ops else none :=
  mapM_map_eq (fun op hop => WalOp.ofValue_toValue (h op hop))

theorem compactDecode_encode (h : Documented ops) {bytes : Bytes} (hb : compactEncode (opsValue ops) = some bytes) :
    (compactDecode bytes).bind (arrayOf WalOp.ofValue) = if finiteOps ops then some ops else none := by
  have hvalue := h.cborValue bytes hb
  simp only [compactDecode,hvalue,Option.bind_some,Compact.unops_ops]
  exact arrayOf_opsValue h.floats

theorem zstdDecompress_compress (h : Documented ops) {bytes frame : Bytes}
    (hb : cborOps ops = some bytes ∨ compactEncode (opsValue ops) = some bytes)
    (hf : zstdCompress bytes = some frame) :
    zstdDecompress frame = if bytes.length ≤ zstdMaxRecord then some bytes else none := by
  obtain ⟨hsize,hcontent⟩ := h.zstd bytes frame hb hf
  simp only [zstdDecompress,hsize,hcontent]

/-! ## Which records read back -/

theorem decodeOps_iff (h : Documented ops) (hf : format ≠ .json) {bytes : Bytes}
    (hb : encodeOps format ops = some bytes) : decodeOps format bytes = some ops ↔ ReadsBack format ops := by
  cases format with
  | json => exact absurd rfl hf
  | cbor => simpa [decodeOps,ReadsBack] using h.cbor bytes hb
  | msgPack => simpa [decodeOps,ReadsBack] using h.msgPack bytes hb
  | cborZstd =>
    obtain ⟨cbor,hcbor,hzstd⟩ := Option.bind_eq_some_iff.mp hb
    have hread := zstdDecompress_compress h (Or.inl hcbor) hzstd
    simp only [decodeOps,ReadsBack,Fits,hread,hcbor,Option.some.injEq,forall_eq']
    by_cases hsize : cbor.length ≤ zstdMaxRecord
    · simp [hsize,h.cbor cbor hcbor]
    · simp [hsize]
  | cborCompact =>
    simp only [decodeOps,ReadsBack,compactDecode_encode h hb]
    split_ifs with hfin <;> simp [hfin]
  | cborCompactZstd =>
    obtain ⟨cbor,hcbor,hzstd⟩ := Option.bind_eq_some_iff.mp hb
    have hread := zstdDecompress_compress h (Or.inr hcbor) hzstd
    simp only [decodeOps,ReadsBack,Fits,hread,hcbor,Option.some.injEq,forall_eq']
    by_cases hsize : cbor.length ≤ zstdMaxRecord
    · simp only [hsize,if_true,Option.bind_some,compactDecode_encode h hcbor,and_true]
      split_ifs with hfin <;> simp [hfin]
    · simp [hsize]

omit [Serializers] in
theorem ofOps_eq_iff {found : Option (List WalOp)} {next : ℕ} :
    Record.ofOps found next = .ops ops next ↔ found = some ops := by
  cases found with
  | none => simp [Record.ofOps]
  | some found => simp [Record.ofOps]

theorem parseJsonLine_text {text : Bytes} {opens closes : UInt8} (h : IsText text opens closes)
    (ho : isBracket opens = true) (hc : isBracket closes = true) : parseJsonLine text =
      if opens = 0x5B then LogCodec.opsFromStr text else (LogCodec.opFromStr text).map (fun op => [op]) := by
  obtain ⟨init,hinit⟩ := List.getLast?_eq_some_iff.mp h.last
  obtain ⟨rest,hrest⟩ := List.head?_eq_some_iff.mp h.head
  have htrim : trimEnd (opens :: rest) = opens :: rest := by
    rw [← hrest,hinit]
    exact trimEnd_bracket hc init
  have hutf8 := h.utf8
  rw [hrest] at hutf8 ⊢
  rw [Entry.parse_bracket ho htrim,if_pos hutf8]

theorem parseJsonLine_iff (h : Documented ops) (hne : ops ≠ []) {bytes : Bytes}
    (hb : encodeRecord .json ops = some bytes) :
    ∃ text, bytes = text ++ [0x0A] ∧ 0x0A ∉ text ∧ (parseJsonLine text = some ops ↔ ReadsBack .json ops) := by
  simp only [encodeRecord,if_true] at hb
  split at hb
  · exact absurd rfl hne
  · rename_i op
    obtain ⟨text,htext,rfl⟩ := Option.map_eq_some_iff.mp hb
    obtain ⟨hline,hread⟩ := h.opText op text rfl htext
    have hop := WalOp.ofValue_toValue (h.floats op (by simp))
    have hfin : finiteOps [op] = op.finite := by simp [finiteOps]
    refine ⟨text,rfl,hline.line,?_⟩
    rw [parseJsonLine_text hline (by rfl) (by rfl),if_neg (by decide)]
    simp only [LogCodec.opFromStr,hread,hop,ReadsBack,hfin,jsonLevels]
    by_cases hdepth : op.toValue.depth ≤ jsonDepth <;> by_cases hx : op.finite = true <;> simp [hdepth,hx]
  · rename_i hmany
    obtain ⟨text,htext,rfl⟩ := Option.map_eq_some_iff.mp hb
    obtain ⟨hline,hread⟩ := h.opsText text htext
    have hlevels : jsonLevels ops = (opsValue ops).depth := by
      unfold jsonLevels
      split
      · exact (hmany _ rfl).elim
      · rfl
    refine ⟨text,rfl,hline.line,?_⟩
    rw [parseJsonLine_text hline (by rfl) (by rfl),if_pos rfl]
    simp only [LogCodec.opsFromStr,hread,arrayOf_opsValue h.floats,ReadsBack,hlevels]
    by_cases hdepth : (opsValue ops).depth ≤ jsonDepth <;> by_cases hx : finiteOps ops = true <;>
    simp [hdepth,hx]

/-- A record reads back as it was written iff the format gives back such records. -/
theorem readRecord_encodeRecord_iff (format : WalFormat) (ops : List WalOp) (hne : ops ≠ []) (h : Documented ops)
    (bytes : Bytes) (hb : encodeRecord format ops = some bytes) :
    readRecord format bytes 0 = .ops ops bytes.length ↔ ReadsBack format ops := by
  by_cases hf : format = .json
  · subst hf
    obtain ⟨text,rfl,hline,hread⟩ := parseJsonLine_iff h hne hb
    rw [Entry.readRecord_text hline [],List.length_append,List.length_singleton,ofOps_eq_iff]
    exact hread
  · let e : Entry format := ⟨ops,bytes,hne,hb⟩
    have hread := Entry.readRecord_frame hf e []
    rw [List.append_nil] at hread
    have hpayload := (Entry.encodeOps_payload hf e).1
    have hc : compiledIn format = true := by
      by_contra hc
      simp [LogCodec.encodeOps,hc] at hpayload
    simp only [LogCodec.encodeOps,if_pos hc] at hpayload
    rw [hread,ofOps_eq_iff]
    simp only [LogCodec.decodeOps,if_pos hc]
    exact decodeOps_iff h hf hpayload

end Serializers

section Sample
attribute [local instance] Json.compactText

/-- A quiet float that is not a number. -/
def quietNan : F32 := ⟨0x7FC00000#32⟩

def embeddingOf (x : F32) : WalOp := .graph (.setEmbedding 1 [x])

/-- `{"SetEmbedding":[1,[1.0]]}` -/
def oneText : Bytes :=
  [0x7B,0x22,0x53,0x65,0x74,0x45,0x6D,0x62,0x65,0x64,0x64,0x69,0x6E,0x67,0x22,0x3A,0x5B,0x31,0x2C,0x5B,0x31,0x2E,0x30,0x5D,0x5D,0x7D]

/-- `{"SetEmbedding":[1,[null]]}` -/
def nullText : Bytes :=
  [0x7B,0x22,0x53,0x65,0x74,0x45,0x6D,0x62,0x65,0x64,0x64,0x69,0x6E,0x67,0x22,0x3A,0x5B,0x31,0x2C,0x5B,0x6E,0x75,0x6C,0x6C,0x5D,0x5D,0x7D]

/-- The serializers of a build without binary formats, on two embeddings. -/
@[reducible] def embeddingSerializers : Serializers where
  text _ := "1.0"
  read text := if text = "1.0" then some F32.one else none
  ofInt i := if i = 1 then some F32.one else none
  jsonOp op := if op = embeddingOf F32.one then some oneText else if op = embeddingOf quietNan then some nullText else none
  jsonOps _ := none
  jsonToOp text := if text = oneText then some (embeddingOf F32.one) else none
  jsonToOps _ := none
  jsonValue _ := none
  jsonToValue _ := none
  jsonDepth := 127
  cborOps _ := none
  cborToOps _ := none
  msgPackOps _ := none
  msgPackToOps _ := none
  cborValue _ := none
  cborToValue _ := none
  zstdFrame _ := none
  zstdContentSize _ := none
  zstdContent _ _ := none
  walCbor := false
  walMsgPack := false
  walZstd := false

attribute [local instance] embeddingSerializers

theorem embedding_documented {x : F32} (hx : x = F32.one ∨ x = quietNan) :
    Serializers.Documented [embeddingOf x] := by
  constructor
  · intro op hop y hy
    obtain rfl := List.mem_singleton.mp hop
    obtain rfl := List.mem_singleton.mp hy
    obtain rfl | rfl := hx
    · exact fun _ => rfl
    · intro hfin
      exact absurd hfin (by decide)
  · intro op text hop htext
    obtain rfl := (List.cons.inj hop).1
    obtain rfl | rfl := hx
    · obtain rfl : oneText = text := Option.some.inj htext
      exact ⟨⟨by decide,by decide,rfl,rfl⟩,by decide +kernel⟩
    · obtain rfl : nullText = text := Option.some.inj htext
      exact ⟨⟨by decide,by decide,rfl,rfl⟩,by decide +kernel⟩
  all_goals simp

/-- An embedding of a finite component reads back from a JSON log. -/
theorem finite_embedding_reads_back :
    encodeRecord .json [embeddingOf F32.one] = some (oneText ++ [0x0A]) ∧
      readRecord .json (oneText ++ [0x0A]) 0 = .ops [embeddingOf F32.one] (oneText ++ [0x0A]).length := by
  have hb : encodeRecord .json [embeddingOf F32.one] = some (oneText ++ [0x0A]) := by rfl
  refine ⟨hb,?_⟩
  refine (Serializers.readRecord_encodeRecord_iff .json _ (by simp) (embedding_documented (.inl rfl)) _ hb).mpr ?_
  exact ⟨by decide,by decide⟩

/-- A store that was given an embedding with a component that is not a number: the call returned
ok, its record is in the log, and the record does not read back. -/
theorem nan_embedding_unreadable :
    let e := (Engine.openLog 10000 false none []).run
      [.direct 1 (.mutation (.createNode (.titled "Note" "a") ⟨5,1⟩)),.enqueue 1 true,.lead,.finish true,.await 1,
        .direct 2 (.setEmbedding 1 [quietNan]),.enqueue 2 true,.lead,.finish true,.await 2]
    (∀ p ∈ e.calls.toList, p.2 = .ok) ∧ [embeddingOf quietNan] ∈ e.queue.log ∧
      Serializers.Documented [embeddingOf quietNan] ∧
      ∃ bytes, encodeRecord .json [embeddingOf quietNan] = some bytes ∧
        readRecord .json bytes 0 = .invalid bytes.length := by
  intro e
  refine ⟨by decide +kernel,by decide +kernel,embedding_documented (.inr rfl),nullText ++ [0x0A],by rfl,?_⟩
  decide +kernel

end Sample
end Drevo
