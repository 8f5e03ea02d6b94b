import Drevo.Core.Inner

/-! The encodings of the write-ahead log: how a record is framed, how a log announces its
format, and how one record is read back. The serializers the records go through are
parameters; the framing, the checksum and the JSON line are the store's own. -/
namespace Drevo

abbrev Bytes := List UInt8

/-- How the log encodes its records. -/
inductive WalFormat where
  | json | cbor | msgPack | cborZstd | cborCompact | cborCompactZstd
  deriving DecidableEq

/-- The serializers of a build: the JSON text of one entry and of a list of entries with the
readers of both, the payload of a binary record with its reader, and the formats that are
compiled in. -/
class LogCodec where
  opToVec : WalOp → Option Bytes
  opsToVec : List WalOp → Option Bytes
  opFromStr : Bytes → Option WalOp
  opsFromStr : Bytes → Option (List WalOp)
  encodeOps : WalFormat → List WalOp → Option Bytes
  decodeOps : WalFormat → Bytes → Option (List WalOp)
  compiledIn : WalFormat → Bool

/-- Why a log does not open. -/
inductive LogError where
  | headerVersion (version : UInt8)
  | formatTag (tag : UInt8)
  | notCompiledIn (format : WalFormat)
  | encrypted
  | corruptRecord (offset : ℕ)
  deriving DecidableEq

namespace WalFormat

def name : WalFormat → String
  | .json => "json"
  | .cbor => "cbor"
  | .msgPack => "msgpack"
  | .cborZstd => "cbor-zstd"
  | .cborCompact => "cbor-compact"
  | .cborCompactZstd => "cbor-compact-zstd"

def tag : WalFormat → UInt8
  | .json => 0x4A
  | .cbor => 0x43
  | .msgPack => 0x4D
  | .cborZstd => 0x5A
  | .cborCompact => 0x4B
  | .cborCompactZstd => 0x58

def compiledIn [LogCodec] (format : WalFormat) : Bool := format = .json || LogCodec.compiledIn format

end WalFormat

namespace LogError

def hexByte (b : UInt8) : String :=
  "0x" ++ String.ofList [Nat.digitChar (b.toNat/16),Nat.digitChar (b.toNat%16)]

/-- The text of the error for the log at `path`. -/
def message (path : String) : LogError → String
  | .headerVersion version => "unsupported WAL header version " ++ toString version
  | .formatTag tag => "unknown WAL format tag " ++ hexByte tag
  | .notCompiledIn format =>
    "this write-ahead log is in " ++ format.name ++ " format, which this build was compiled without"
  | .encrypted => path ++ ": the write-ahead log is encrypted; open it with its encryption key"
  | .corruptRecord offset =>
    "corrupt write-ahead-log record at byte " ++ toString offset ++ " of " ++ path ++
      " (valid records follow it, so this is not a torn tail); " ++
      "refusing to open rather than drop acknowledged writes"

end LogError

/-! ## Frames -/

/-- The first bytes of a binary log, `DRVWAL`. -/
def magic : Bytes := [0x44,0x52,0x56,0x57,0x41,0x4C]

def headerVersion : UInt8 := 1
def sealedVersion : UInt8 := 2
def headerLen : ℕ := 8
def frameLen : ℕ := 8

/-- The four bytes of a 32-bit number, lowest first. -/
def toLeBytes (n : ℕ) : Bytes :=
  [UInt8.ofNat n,UInt8.ofNat (n/256),UInt8.ofNat (n/256/256),UInt8.ofNat (n/256/256/256)]

def fromLeBytes (bytes : Bytes) : ℕ :=
  bytes.foldr (fun b n => b.toNat+256*n) 0

@[simp] theorem toLeBytes_length (n : ℕ) : (toLeBytes n).length = 4 := rfl

theorem fromLeBytes_toLeBytes {n : ℕ} (h : n < 2^32) : fromLeBytes (toLeBytes n) = n := by
  simp only [toLeBytes,fromLeBytes,List.foldr_cons,List.foldr_nil,UInt8.toNat_ofNat']
  omega

/-- An entry of the checksum's table: eight shifts of a byte, with the reflected polynomial. -/
def crcEntry (b : UInt32) : UInt32 :=
  (List.range 8).foldl (fun (c : UInt32) _ => if c &&& 1 ≠ 0 then (0xEDB88320 : UInt32) ^^^ (c >>> 1) else c >>> 1) b

def crc32 (bytes : Bytes) : UInt32 :=
  ~~~ bytes.foldl (fun (crc : UInt32) b => crcEntry ((crc ^^^ b.toUInt32) &&& 0xFF) ^^^ (crc >>> 8)) 0xFFFFFFFF

example : crc32 [0x31,0x32,0x33,0x34,0x35,0x36,0x37,0x38,0x39] = 0xCBF43926 := by decide +kernel

def WalFormat.header (format : WalFormat) : Bytes :=
  if format = .json then [] else magic ++ [headerVersion,format.tag]

def encodeRecord [LogCodec] (format : WalFormat) (ops : List WalOp) : Option Bytes :=
  if format = .json then
    match ops with
    | [] => some []
    | [op] => (LogCodec.opToVec op).map (fun line => line ++ [0x0A])
    | many => (LogCodec.opsToVec many).map (fun line => line ++ [0x0A])
  else if ops.isEmpty then some []
  else
    match LogCodec.encodeOps format ops with
    | none => none
    | some payload =>
      if payload.length < 2^32 then
        some (toLeBytes payload.length ++ toLeBytes (crc32 payload).toNat ++ payload)
      else none

/-! ## The format of a log -/

inductive Detected where
  | log (format : WalFormat) (bodyStart : ℕ) (isSealed : Bool)
  | tornHeader
  deriving DecidableEq

def isHeaderPrefix (bytes : Bytes) : Bool := bytes.take magic.length = magic.take bytes.length

def detect [LogCodec] (bytes : Bytes) : Except LogError Detected :=
  if bytes.length < headerLen then
    if !bytes.isEmpty && isHeaderPrefix bytes then .ok .tornHeader else .ok (.log .json 0 false)
  else if bytes.take magic.length ≠ magic then .ok (.log .json 0 false)
  else
    let version := bytes.getD magic.length 0
    let tag := bytes.getD (magic.length+1) 0
    let isSealed := version = sealedVersion
    if version ≠ headerVersion ∧ version ≠ sealedVersion then .error (.headerVersion version)
    else
      let format : Option WalFormat :=
        if tag = WalFormat.json.tag ∧ isSealed then some .json
        else [.cbor,.msgPack,.cborZstd,.cborCompact,.cborCompactZstd].find? (fun f : WalFormat => f.tag = tag)
      match format with
      | none => .error (.formatTag tag)
      | some format =>
        if format.compiledIn then .ok (.log format headerLen isSealed) else .error (.notCompiledIn format)

/-! ## Reading one record -/

/-- Whether the bytes are UTF-8, with `more` continuation bytes still due of the character
under way, the next of them between `low` and `high`. -/
def utf8From (more : ℕ) (low high : UInt8) : Bytes → Bool
  | [] => more = 0
  | b :: rest =>
    match more with
    | 0 =>
      if b < 0x80 then utf8From 0 0x80 0xBF rest
      else if 0xC2 ≤ b && b ≤ 0xDF then utf8From 1 0x80 0xBF rest
      else if b = 0xE0 then utf8From 2 0xA0 0xBF rest
      else if b = 0xED then utf8From 2 0x80 0x9F rest
      else if 0xE1 ≤ b && b ≤ 0xEF then utf8From 2 0x80 0xBF rest
      else if b = 0xF0 then utf8From 3 0x90 0xBF rest
      else if 0xF1 ≤ b && b ≤ 0xF3 then utf8From 3 0x80 0xBF rest
      else if b = 0xF4 then utf8From 3 0x80 0x8F rest
      else false
    | more+1 => low ≤ b && b ≤ high && utf8From more 0x80 0xBF rest

def isUtf8 (bytes : Bytes) : Bool := utf8From 0 0x80 0xBF bytes

/-- The characters that are trimmed off a text, as their bytes. -/
def whitespace : List Bytes :=
  [[0x09],[0x0A],[0x0B],[0x0C],[0x0D],[0x20],[0xC2,0x85],[0xC2,0xA0],[0xE1,0x9A,0x80]] ++
  (List.range 11).map (fun i => [0xE2,0x80,UInt8.ofNat (0x80+i)]) ++
  [[0xE2,0x80,0xA8],[0xE2,0x80,0xA9],[0xE2,0x80,0xAF],[0xE2,0x81,0x9F],[0xE3,0x80,0x80]]

/-- Drop the leading bytes that spell one of the given characters, as often as they do. -/
def dropSpelled (spelled : List Bytes) : ℕ → Bytes → Bytes
  | 0,text => text
  | n+1,text =>
    match spelled.find? (fun c => c.isPrefixOf text) with
    | none => text
    | some c => dropSpelled spelled n (text.drop c.length)

def trimStart (text : Bytes) : Bytes := dropSpelled whitespace text.length text

def trimEnd (text : Bytes) : Bytes :=
  (dropSpelled (whitespace.map List.reverse) text.length text.reverse).reverse

/-- Parse one line of a JSON log: one entry, or an array of entries. A blank line holds none. -/
def parseJsonLine [LogCodec] (line : Bytes) : Option (List WalOp) :=
  if !isUtf8 line then none
  else
    let text := trimEnd (trimStart line)
    if text.isEmpty then some []
    else if text.head? = some 0x5B then LogCodec.opsFromStr text
    else (LogCodec.opFromStr text).map (fun op => [op])

/-- What stands at a position of a log: a record and where the next one begins, bytes that are
no record, or a record cut off by the end. -/
inductive Record where
  | ops (ops : List WalOp) (next : ℕ)
  | invalid (next : ℕ)
  | incomplete
  deriving DecidableEq

def readRecord [LogCodec] (format : WalFormat) (bytes : Bytes) (pos : ℕ) : Record :=
  let rest := bytes.drop pos
  if format = .json then
    let lineLen := rest.findIdx (fun b => b = 0x0A)
    let next := if lineLen < rest.length then pos+lineLen+1 else bytes.length
    match parseJsonLine (rest.take lineLen) with
    | some ops => .ops ops next
    | none => .invalid next
  else if rest.length < frameLen then .incomplete
  else
    let len := fromLeBytes (rest.take 4)
    let crc := fromLeBytes ((rest.drop 4).take 4)
    let stop := frameLen+len
    if rest.length < stop then .incomplete
    else
      let payload := (rest.drop frameLen).take len
      if (crc32 payload).toNat ≠ crc then .invalid (pos+stop)
      else
        match LogCodec.decodeOps format payload with
        | some ops => .ops ops (pos+stop)
        | none => .invalid (pos+stop)

def readFrame (bytes : Bytes) (pos : ℕ) : Except Record (Bytes × ℕ) :=
  let rest := bytes.drop pos
  if rest.length < frameLen then .error .incomplete
  else
    let len := fromLeBytes (rest.take 4)
    let crc := fromLeBytes ((rest.drop 4).take 4)
    let stop := frameLen+len
    if rest.length < stop then .error .incomplete
    else
      let payload := (rest.drop frameLen).take len
      if (crc32 payload).toNat ≠ crc then .error (.invalid (pos+stop)) else .ok (payload,pos+stop)

theorem readRecord_eq_readFrame [LogCodec] {format : WalFormat} (hf : format ≠ .json) (bytes : Bytes) (pos : ℕ) :
    readRecord format bytes pos =
      match readFrame bytes pos with
      | .error record => record
      | .ok (payload,next) =>
        match LogCodec.decodeOps format payload with
        | some ops => .ops ops next
        | none => .invalid next := by
  simp only [readRecord,readFrame,if_neg hf]
  split_ifs <;> rfl

end Drevo
