import Drevo.Wal.Replay

/-! Reading a log with or without a key. The records of a sealed log are framed ciphertexts,
the first of which checks the key; the cipher is a parameter. Reading in chunks hands over the
same entries and ends the same way as reading the whole log at once, errors included. -/
namespace Drevo

/-- The cipher of a build: what a sealed text opens to under a key, in a context. -/
class Cipher (Key : Type) where
  openWith : Key → Bytes → Bytes → Option Bytes

/-- `drevo wal record` -/
def recordContext : Bytes :=
  [0x64,0x72,0x65,0x76,0x6F,0x20,0x77,0x61,0x6C,0x20,0x72,0x65,0x63,0x6F,0x72,0x64]

/-- `drevo wal key check` -/
def checkContext : Bytes :=
  [0x64,0x72,0x65,0x76,0x6F,0x20,0x77,0x61,0x6C,0x20,0x6B,0x65,0x79,0x20,0x63,0x68,0x65,0x63,0x6B]

/-- `drevo` -/
def checkText : Bytes := [0x64,0x72,0x65,0x76,0x6F]

/-- Why a log does not open with the key at hand, or with none. -/
inductive OpenError where
  | log (err : LogError)
  | notEncrypted
  | keyCheckDamaged
  | wrongKey
  | undecryptable (offset : ℕ)
  deriving DecidableEq

def OpenError.message (path : String) : OpenError → String
  | .log err => err.message path
  | .notEncrypted =>
    path ++ ": the write-ahead log is not encrypted; encrypt the store first, or open it without a key"
  | .keyCheckDamaged => path ++ ": the encryption key check is damaged"
  | .wrongKey => path ++ ": wrong encryption key for this write-ahead log"
  | .undecryptable offset =>
    path ++ ": the encrypted record at byte " ++ toString offset ++
      " does not decrypt: the key is wrong or the log was changed"

/-! ## Frames and records -/

/-- What stands at a position of a log that may be sealed: as in a plain log, or a whole frame
that does not decrypt. -/
inductive AnyRecord where
  | ops (ops : List WalOp) (next : ℕ)
  | invalid (next : ℕ)
  | incomplete
  | undecryptable (next : ℕ)
  deriving DecidableEq

namespace AnyRecord

def ofRecord : Record → AnyRecord
  | .ops found next => .ops found next
  | .invalid next => .invalid next
  | .incomplete => .incomplete

/-- The record, `pos` bytes further on. -/
def shift (pos : ℕ) : AnyRecord → AnyRecord
  | .ops found next => .ops found (pos+next)
  | .invalid next => .invalid (pos+next)
  | .incomplete => .incomplete
  | .undecryptable next => .undecryptable (pos+next)

/-- Where a record that is whole ends. -/
def next? : AnyRecord → Option ℕ
  | .ops _ next => some next
  | .invalid next => some next
  | .incomplete => none
  | .undecryptable next => some next

end AnyRecord

section
variable [LogCodec] {Key : Type} [Cipher Key]

/-- What a frame that opened to `plain`, or did not open, holds. -/
def openedRecord (format : WalFormat) (next : ℕ) : Option Bytes → AnyRecord
  | none => .undecryptable next
  | some plain =>
    match if format = .json then LogCodec.opsFromStr plain else LogCodec.decodeOps format plain with
    | some ops => .ops ops next
    | none => .invalid next

def readSealedRecord (format : WalFormat) (key : Key) (bytes : Bytes) (pos : ℕ) : AnyRecord :=
  match readFrame bytes pos with
  | .error record => .ofRecord record
  | .ok (payload,next) => openedRecord format next (Cipher.openWith key recordContext payload)

def readAny (format : WalFormat) (key : Option Key) (bytes : Bytes) (pos : ℕ) : AnyRecord :=
  match key with
  | some key => readSealedRecord format key bytes pos
  | none => .ofRecord (readRecord format bytes pos)

theorem readAny_next {format : WalFormat} {key : Option Key} {bytes : Bytes} {pos next : ℕ} (hp : pos < bytes.length)
    (h : (readAny format key bytes pos).next? = some next) : pos < next ∧ next ≤ bytes.length := by
  cases key with
  | none =>
    have hnext : (readRecord format bytes pos).next? = some next := by
      simp only [readAny] at h
      cases hrec : readRecord format bytes pos <;> rw [hrec] at h <;> exact h
    exact readRecord_next hp hnext
  | some key =>
    apply readFrame_end
    simp only [readAny,readSealedRecord] at h
    cases hframe : readFrame bytes pos with
    | error record =>
      simp only [hframe] at h
      cases record <;> exact h
    | ok found =>
      simp only [hframe,openedRecord] at h
      split at h
      · exact h
      · split at h <;> exact h

theorem readAny_drop (format : WalFormat) (key : Option Key) {bytes : Bytes} {pos : ℕ} (h : pos ≤ bytes.length) :
    readAny format key bytes pos = (readAny format key (bytes.drop pos) 0).shift pos := by
  cases key with
  | none =>
    simp only [readAny,readRecord_drop format h]
    cases readRecord format (bytes.drop pos) 0 <;> rfl
  | some key =>
    simp only [readAny,readSealedRecord,readFrame_drop bytes pos]
    cases readFrame (bytes.drop pos) 0 with
    | error record => cases record <;> rfl
    | ok found =>
      simp only [openedRecord]
      cases Cipher.openWith key recordContext found.1 with
      | none => rfl
      | some plain =>
        simp only
        split <;> rfl

/-- The record may go on behind the window: a line of a plain JSON log without its end. -/
def mayGoOn (format : WalFormat) (key : Option Key) (bytes : Bytes) : Bool :=
  key.isNone && format = .json && !bytes.contains 0x0A

theorem readAny_append {format : WalFormat} {key : Option Key} {bytes : Bytes}
    (hj : mayGoOn format key bytes = false) (h : readAny format key bytes 0 ≠ .incomplete) (more : Bytes) :
    readAny format key (bytes ++ more) 0 = readAny format key bytes 0 := by
  cases key with
  | none =>
    simp only [readAny] at h ⊢
    by_cases hf : format = .json
    · subst hf
      rw [readRecord_json_append (by simpa [mayGoOn] using hj)]
    · rw [readRecord_frame_append hf]
      intro hinc
      exact h (by rw [hinc]; rfl)
  | some key =>
    simp only [readAny,readSealedRecord] at h ⊢
    rw [readFrame_append]
    intro hinc
    exact h (by rw [hinc]; rfl)

/-! ## The reading loop -/

/-- How reading the records of a log ended, where the valid ones end and whether a torn tail
follows them; and what was handed over up to then. -/
structure Reading where
  outcome : Except OpenError (ℕ × Bool)
  applied : List WalOp

def Reading.after (applied : List WalOp) (r : Reading) : Reading := { r with applied := applied ++ r.applied }

/-- Whether bytes after an invalid record count as data: in a sealed log any byte does. -/
def followsAny (format : WalFormat) (key : Option Key) (bytes : Bytes) : Bool :=
  if key.isNone then follows format bytes else !bytes.isEmpty

def moreFollowsAny (format : WalFormat) (key : Option Key) (chunk : ℕ) (w : Window) : Bool :=
  let r := { w with buf := [] }.fill chunk
  if _ : r.1 then
    followsAny format key r.2.buf || moreFollowsAny format key chunk r.2
  else false
termination_by w.unread.length
decreasing_by exact Window.fill_more ‹_›

inductive AnyTurn where
  | again (w : Window)
  | done (result : Reading)

def replayTurnAny (format : WalFormat) (key : Option Key) (chunk : ℕ) (w : Window) : AnyTurn :=
  if w.buf.length ≤ w.pos then
    let r := { w with buf := [], base := w.base+w.pos, pos := 0 }.fill chunk
    if r.1 then .again r.2 else .done ⟨.ok (w.validEnd,false),w.applied⟩
  else if !w.eof && mayGoOn format key (w.buf.drop w.pos) then .again (w.drain.fill chunk).2
  else
    match readAny format key w.buf w.pos with
    | .ops ops next =>
      .again { w with applied := w.applied ++ ops, validEnd := w.base+next, pos := next }
    | .undecryptable _ => .done ⟨.error (.undecryptable (w.base+w.pos)),w.applied⟩
    | .incomplete =>
      if !w.eof then .again (w.drain.fill chunk).2
      else .done ⟨.ok (w.validEnd,true),w.applied⟩
    | .invalid next =>
      if followsAny format key (w.buf.drop next) || moreFollowsAny format key chunk w then
        .done ⟨.error (.log (.corruptRecord (w.base+w.pos))),w.applied⟩
      else .done ⟨.ok (w.validEnd,true),w.applied⟩

theorem replayTurnAny_left {format : WalFormat} {key : Option Key} {chunk : ℕ} {w w' : Window}
    (h : replayTurnAny format key chunk w = .again w') : w'.left < w.left := by
  have hdrain : w.eof = false → (w.drain.fill chunk).2.left < w.left := by
    intro he
    rw [← w.drain_left]
    exact Window.fill_left chunk he
  unfold replayTurnAny at h
  by_cases hp : w.buf.length ≤ w.pos
  · rw [if_pos hp] at h
    simp only at h
    split_ifs at h with hr
    injection h with hw
    have hfill := Window.fill_left chunk (Window.fill_open hr)
    rw [hw] at hfill
    refine hfill.trans_eq ?_
    simp only [Window.left,List.length_nil]
    omega
  rw [if_neg hp] at h
  by_cases hj : (!w.eof && mayGoOn format key (w.buf.drop w.pos)) = true
  · rw [if_pos hj] at h
    injection h with hw
    rw [← hw]
    apply hdrain
    simp only [Bool.and_eq_true,Bool.not_eq_true'] at hj
    exact hj.1
  rw [if_neg hj] at h
  split at h
  · rename_i ops next hrec
    injection h with hw
    obtain ⟨hlt,hle⟩ := readAny_next (Nat.lt_of_not_le hp) (congrArg AnyRecord.next? hrec)
    rw [← hw]
    simp only [Window.left]
    omega
  · cases h
  · split_ifs at h with he
    injection h with hw
    rw [← hw]
    exact hdrain (by simpa using he)
  · split_ifs at h

def replayLoopAny (format : WalFormat) (key : Option Key) (chunk : ℕ) (w : Window) : Reading :=
  match _ : replayTurnAny format key chunk w with
  | .done result => result
  | .again w' => replayLoopAny format key chunk w'
termination_by w.left
decreasing_by exact replayTurnAny_left ‹_›

/-! ## The key check -/

omit [LogCodec] in
/-- Read the key check at the window's position and go behind it; nothing if the log ends in
it. -/
def keyCheck (key : Key) (chunk : ℕ) (w : Window) : Except OpenError (Option Window) :=
  match readFrame w.buf w.pos with
  | .error .incomplete => if _ : w.eof then .ok none else keyCheck key chunk (w.fill chunk).2
  | .error _ => .error .keyCheckDamaged
  | .ok (check,next) =>
    if Cipher.openWith key checkContext check = some checkText then .ok (some { w with pos := next })
    else .error .wrongKey
termination_by w.left
decreasing_by exact Window.fill_left chunk (by simpa using ‹¬ w.eof = true›)

/-- The records from the window's position on, as the result of the whole replay. -/
def replayBody (format : WalFormat) (key : Option Key) (chunk : ℕ) (w : Window) :
    Except OpenError Replayed × List WalOp :=
  let r := replayLoopAny format key chunk { w with validEnd := w.pos }
  (r.outcome.map (fun found => .log format found.1 found.2 key.isSome),r.applied)

/-- Read a log, `chunk` bytes at a time: how it ended, and the entries handed over. -/
def replayWith (key : Option Key) (chunk : ℕ) (bytes : Bytes) : Except OpenError Replayed × List WalOp :=
  let w := fillHeader chunk headerLen { unread := bytes }
  match detect w.buf with
  | .error err => (.error (.log err),[])
  | .ok .tornHeader => (.ok .tornHeader,[])
  | .ok (.log format bodyStart isSealed) =>
    if w.buf.isEmpty then (.ok .empty,[])
    else
      match isSealed,key with
      | true,none => (.error (.log .encrypted),[])
      | false,some _ => (.error .notEncrypted,[])
      | false,none => replayBody format (none : Option Key) chunk { w with pos := bodyStart }
      | true,some key =>
        match keyCheck key chunk (fillTo (bodyStart+frameLen) chunk frameLen { w with pos := bodyStart }) with
        | .error err => (.error err,[])
        | .ok none => (.ok .tornHeader,[])
        | .ok (some w) => replayBody format (some key) chunk w

/-! ## The whole log at once -/

/-- The records of a log from the given offset on, all bytes at hand: an incomplete or invalid
last record is a torn tail, an invalid record with data behind it is corruption. -/
def scanAny (format : WalFormat) (key : Option Key) (validEnd : ℕ) (bytes : Bytes) : Reading :=
  if _ : bytes = [] then ⟨.ok (validEnd,false),[]⟩
  else
    match _ : readAny format key bytes 0 with
    | .ops ops next => (scanAny format key (validEnd+next) (bytes.drop next)).after ops
    | .undecryptable _ => ⟨.error (.undecryptable validEnd),[]⟩
    | .incomplete => ⟨.ok (validEnd,true),[]⟩
    | .invalid next =>
      if followsAny format key (bytes.drop next) then ⟨.error (.log (.corruptRecord validEnd)),[]⟩
      else ⟨.ok (validEnd,true),[]⟩
termination_by bytes.length
decreasing_by
  have hpos := List.length_pos_iff.mpr ‹¬ bytes = []›
  obtain ⟨hlt,hle⟩ := readAny_next hpos (congrArg AnyRecord.next? ‹_›)
  simp only [List.length_drop]
  omega

def wholeBody (format : WalFormat) (key : Option Key) (bytes : Bytes) (start : ℕ) :
    Except OpenError Replayed × List WalOp :=
  let r := scanAny format key start (bytes.drop start)
  (r.outcome.map (fun found => .log format found.1 found.2 key.isSome),r.applied)

omit [LogCodec] in
/-- What the key check at `pos` says, all bytes at hand: where the records begin, unless the log
ends in it. -/
def keyCheckAt (key : Key) (bytes : Bytes) (pos : ℕ) : Except OpenError (Option ℕ) :=
  match readFrame bytes pos with
  | .error .incomplete => .ok none
  | .error _ => .error .keyCheckDamaged
  | .ok (check,next) =>
    if Cipher.openWith key checkContext check = some checkText then .ok (some next) else .error .wrongKey

/-- Read a log that is in memory as a whole. -/
def replayWholeWith (key : Option Key) (bytes : Bytes) : Except OpenError Replayed × List WalOp :=
  match detect bytes with
  | .error err => (.error (.log err),[])
  | .ok .tornHeader => (.ok .tornHeader,[])
  | .ok (.log format bodyStart isSealed) =>
    if bytes.isEmpty then (.ok .empty,[])
    else
      match isSealed,key with
      | true,none => (.error (.log .encrypted),[])
      | false,some _ => (.error .notEncrypted,[])
      | false,none => wholeBody format (none : Option Key) bytes bodyStart
      | true,some key =>
        match keyCheckAt key bytes bodyStart with
        | .error err => (.error err,[])
        | .ok none => (.ok .tornHeader,[])
        | .ok (some start) => wholeBody format (some key) bytes start

theorem scanAny_nil (format : WalFormat) (key : Option Key) (validEnd : ℕ) :
    scanAny format key validEnd [] = ⟨.ok (validEnd,false),[]⟩ := by
  rw [scanAny,dif_pos rfl]

section Scan
variable {format : WalFormat} {key : Option Key} {validEnd next : ℕ} {bytes : Bytes} (hne : bytes ≠ [])
include hne

theorem scanAny_ops {ops : List WalOp} (h : readAny format key bytes 0 = .ops ops next) :
    scanAny format key validEnd bytes = (scanAny format key (validEnd+next) (bytes.drop next)).after ops := by
  rw [scanAny,dif_neg hne]
  split <;> simp_all

theorem scanAny_undecryptable (h : readAny format key bytes 0 = .undecryptable next) :
    scanAny format key validEnd bytes = ⟨.error (.undecryptable validEnd),[]⟩ := by
  rw [scanAny,dif_neg hne]
  split <;> simp_all

theorem scanAny_incomplete (h : readAny format key bytes 0 = .incomplete) :
    scanAny format key validEnd bytes = ⟨.ok (validEnd,true),[]⟩ := by
  rw [scanAny,dif_neg hne]
  split <;> simp_all

theorem scanAny_invalid (h : readAny format key bytes 0 = .invalid next) :
    scanAny format key validEnd bytes =
      if followsAny format key (bytes.drop next) then ⟨.error (.log (.corruptRecord validEnd)),[]⟩
      else ⟨.ok (validEnd,true),[]⟩ := by
  rw [scanAny,dif_neg hne]
  split <;> simp_all

end Scan

/-! ## Reading in chunks -/

omit [LogCodec] [Cipher Key] in
theorem followsAny_append (format : WalFormat) (key : Option Key) (as bs : Bytes) :
    followsAny format key (as ++ bs) = (followsAny format key as || followsAny format key bs) := by
  unfold followsAny
  split_ifs
  · exact follows_append format as bs
  · cases as <;> simp

omit [LogCodec] [Cipher Key] in
theorem followsAny_nil (format : WalFormat) (key : Option Key) : followsAny format key [] = false := by
  simp only [followsAny,follows]
  split_ifs <;> rfl

omit [LogCodec] [Cipher Key] in
theorem moreFollowsAny_eq (format : WalFormat) (key : Option Key) (chunk : ℕ) {w : Window}
    (he : w.eof = true → w.unread = []) : moreFollowsAny format key chunk w = followsAny format key w.unread := by
  induction w using moreFollowsAny.induct chunk with
  | case1 w r hr ih =>
    obtain ⟨hbuf,heof⟩ : r.2.buf ++ r.2.unread = w.unread ∧ (r.2.eof = true → r.2.unread = []) := by
      have hfill : r = _ := Window.fill_eq (w := { w with buf := [] }) chunk (Window.fill_open hr)
      rw [hfill]
      refine ⟨List.take_append_drop _ _,?_⟩
      intro hend
      simp only [decide_eq_true_eq] at hend
      exact List.drop_eq_nil_of_le hend.le
    rw [moreFollowsAny,dif_pos hr,ih heof,← followsAny_append,hbuf]
  | case2 w r hr =>
    rw [moreFollowsAny,dif_neg hr]
    have hempty : w.unread = [] := by
      cases heof : w.eof with
      | true => exact he heof
      | false =>
        have hfill : r = _ := Window.fill_eq (w := { w with buf := [] }) chunk heof
        cases hu : w.unread with
        | nil => rfl
        | cons b rest => simp [hfill,hu] at hr
    rw [hempty,followsAny_nil]

/-- What is to come out of the loop at a window. -/
def Window.reading (format : WalFormat) (key : Option Key) (w : Window) : Reading :=
  (scanAny format key w.validEnd w.rest).after w.applied

theorem Window.reading_congr {format : WalFormat} {key : Option Key} {w w' : Window} (hr : w'.rest = w.rest)
    (hv : w'.validEnd = w.validEnd) (ha : w'.applied = w.applied) : w'.reading format key = w.reading format key := by
  simp only [Window.reading,hr,hv,ha]

theorem Window.Sound.reading_fill (format : WalFormat) (key : Option Key) (chunk : ℕ) {w : Window} (h : w.Sound) :
    (w.fill chunk).2.Sound ∧ (w.fill chunk).2.reading format key = w.reading format key := by
  obtain ⟨hs,hrest,hvalid,happ⟩ := h.fill chunk
  exact ⟨hs,Window.reading_congr hrest hvalid happ⟩

theorem readAny_window (format : WalFormat) (key : Option Key) {w : Window} (h : w.Sound)
    (hj : w.eof = false → mayGoOn format key (w.buf.drop w.pos) = false)
    (hi : w.eof = false → readAny format key (w.buf.drop w.pos) 0 ≠ .incomplete) :
    readAny format key w.rest 0 = readAny format key (w.buf.drop w.pos) 0 := by
  cases he : w.eof with
  | true => rw [Window.rest,h.eof he,List.append_nil]
  | false => exact readAny_append (hj he) (hi he) _

theorem replayTurnAny_reading (format : WalFormat) (key : Option Key) {w : Window} (chunk : ℕ) (h : w.Sound) :
    match replayTurnAny format key chunk w with
    | .done result => result = w.reading format key
    | .again w' => w'.Sound ∧ w'.reading format key = w.reading format key := by
  have hdrain : (w.drain.fill chunk).2.Sound ∧
      (w.drain.fill chunk).2.reading format key = w.reading format key := by
    obtain ⟨hs,hread⟩ := h.drain.1.reading_fill format key chunk
    exact ⟨hs,hread.trans (Window.reading_congr h.drain.2 rfl rfl)⟩
  unfold replayTurnAny
  by_cases hp : w.buf.length ≤ w.pos
  · rw [if_pos hp]
    have hrest : w.rest = w.unread := by rw [Window.rest,List.drop_eq_nil_of_le hp,List.nil_append]
    have h₀ : Window.Sound { w with buf := [], base := w.base+w.pos, pos := 0 } := ⟨h.valid,le_refl 0,h.eof⟩
    simp only
    by_cases hr : (Window.fill chunk { w with buf := [], base := w.base+w.pos, pos := 0 }).1 = true
    · rw [if_pos hr]
      obtain ⟨hs,hread⟩ := h₀.reading_fill format key chunk
      exact ⟨hs,hread.trans (Window.reading_congr hrest.symm rfl rfl)⟩
    · rw [if_neg hr]
      have hempty : w.unread = [] := by
        cases he : w.eof with
        | true => exact h.eof he
        | false =>
          rw [Window.fill_eq (w := { w with buf := [], base := w.base+w.pos, pos := 0 }) chunk he] at hr
          simpa using hr
      simp [Window.reading,hrest,hempty,scanAny_nil,Reading.after]
  rw [if_neg hp]
  by_cases hj : (!w.eof && mayGoOn format key (w.buf.drop w.pos)) = true
  · rw [if_pos hj]
    exact hdrain
  rw [if_neg hj]
  have hne : w.rest ≠ [] := by
    intro hnil
    have hlen := congrArg List.length (List.append_eq_nil_iff.mp hnil).1
    simp only [List.length_drop,List.length_nil] at hlen
    omega
  have hwindow := readAny_window format key h (by intro he; simpa [he] using hj)
  have hlen := @List.length_drop _ w.pos w.buf
  rw [readAny_drop format key h.pos]
  cases hrec : readAny format key (w.buf.drop w.pos) 0 with
  | ops ops n =>
    have hfirst := (hwindow (by simp [hrec])).trans hrec
    obtain ⟨-,hn⟩ := readAny_next (by omega) (congrArg AnyRecord.next? hrec)
    have hrest : w.rest.drop n = w.buf.drop (w.pos+n) ++ w.unread := by
      rw [Window.rest,List.drop_append_of_le_length hn,List.drop_drop]
    refine ⟨⟨rfl,by simp only; omega,h.eof⟩,?_⟩
    simp only [Window.reading,scanAny_ops hne hfirst,hrest,h.valid,Nat.add_assoc,Reading.after,List.append_assoc]
    rfl
  | undecryptable n =>
    have hfirst := (hwindow (by simp [hrec])).trans hrec
    simp [AnyRecord.shift,Window.reading,scanAny_undecryptable hne hfirst,Reading.after,h.valid]
  | incomplete =>
    simp only [AnyRecord.shift]
    cases he : w.eof with
    | false => exact hdrain
    | true =>
      have hfirst := (hwindow (by simp [he])).trans hrec
      simp [Window.reading,scanAny_incomplete hne hfirst,Reading.after]
  | invalid n =>
    have hfirst := (hwindow (by simp [hrec])).trans hrec
    obtain ⟨-,hn⟩ := readAny_next (by omega) (congrArg AnyRecord.next? hrec)
    have hrest : w.rest.drop n = w.buf.drop (w.pos+n) ++ w.unread := by
      rw [Window.rest,List.drop_append_of_le_length hn,List.drop_drop]
    simp only [AnyRecord.shift,moreFollowsAny_eq format key chunk h.eof,← followsAny_append,← hrest]
    simp only [Window.reading,scanAny_invalid hne hfirst]
    split_ifs <;> simp [Reading.after,h.valid]

theorem replayLoopAny_reading {format : WalFormat} {key : Option Key} {w : Window} (chunk : ℕ) (h : w.Sound) :
    replayLoopAny format key chunk w = w.reading format key := by
  induction w using replayLoopAny.induct format key chunk with
  | case1 w result hturn =>
    have hread := replayTurnAny_reading format key chunk h
    rw [hturn] at hread
    rw [replayLoopAny,hturn]
    exact hread
  | case2 w w' hturn ih =>
    have hread := replayTurnAny_reading format key chunk h
    rw [hturn] at hread
    rw [replayLoopAny,hturn]
    exact (ih hread.1).trans hread.2

/-! ## The beginning of the log -/

omit [LogCodec] in
theorem readFrame_whole {bytes : Bytes} {w : Window} (h : w.Starts bytes) (hp : w.pos ≤ w.buf.length)
    (hf : w.eof = false → readFrame w.buf w.pos ≠ .error .incomplete) :
    readFrame bytes w.pos = readFrame w.buf w.pos := by
  cases he : w.eof with
  | true => rw [← h.whole,h.eof he,List.append_nil]
  | false =>
    have hfirst : readFrame (w.buf.drop w.pos) 0 ≠ .error .incomplete := by
      intro hinc
      apply hf he
      rw [readFrame_drop,hinc]
      rfl
    rw [← h.whole,readFrame_drop,List.drop_append_of_le_length hp,readFrame_append hfirst,← readFrame_drop]

omit [LogCodec] in
theorem keyCheck_spec (key : Key) (chunk : ℕ) {bytes : Bytes} {w : Window} (h : w.Starts bytes)
    (hp : w.pos ≤ w.buf.length) :
    (keyCheck key chunk w).map (Option.map Window.pos) = keyCheckAt key bytes w.pos ∧
      ∀ w', keyCheck key chunk w = .ok (some w') → w'.Starts bytes ∧ w'.pos ≤ w'.buf.length := by
  induction w using keyCheck.induct key chunk with
  | case1 w hframe heof =>
    have hwhole := readFrame_whole h hp (by simp [heof])
    rw [keyCheck,hframe]
    simp [keyCheckAt,hwhole,hframe,heof,Except.map]
  | case2 w hframe heof ih =>
    obtain ⟨hs,hpos,hlen⟩ := h.fill chunk
    have hnext := ih hs (by omega)
    rw [hpos] at hnext
    rw [keyCheck,hframe]
    simpa [heof] using hnext
  | case3 w record hrec hframe =>
    have hwhole := readFrame_whole h hp (by intro _ hinc; exact hrec (Except.error.inj (hframe.symm.trans hinc)))
    rw [keyCheck,hframe]
    cases record with
    | incomplete => exact absurd rfl hrec
    | ops found next => simp [keyCheckAt,hwhole,hframe,Except.map]
    | invalid next => simp [keyCheckAt,hwhole,hframe,Except.map]
  | case4 w check next hframe hopen =>
    have hwhole := readFrame_whole h hp (by simp [hframe])
    obtain ⟨-,hle⟩ := readFrame_end (by rw [hframe]; rfl)
    rw [keyCheck,hframe]
    simp only [keyCheckAt,hwhole,hframe,hopen,if_true,Except.map,Option.map_some,Except.ok.injEq,Option.some.injEq]
    refine ⟨trivial,?_⟩
    rintro w' rfl
    exact ⟨⟨h.base,h.whole,h.applied,h.eof⟩,hle⟩
  | case5 w check next hframe hopen =>
    have hwhole := readFrame_whole h hp (by simp [hframe])
    rw [keyCheck,hframe]
    simp [keyCheckAt,hwhole,hframe,hopen,Except.map]

theorem replayLoopAny_eq (format : WalFormat) (key : Option Key) (chunk : ℕ) {bytes : Bytes} {w : Window}
    (h : w.Starts bytes) (hp : w.pos ≤ w.buf.length) :
    replayLoopAny format key chunk { w with validEnd := w.pos } = scanAny format key w.pos (bytes.drop w.pos) := by
  have hsound : Window.Sound { w with validEnd := w.pos } := by
    refine ⟨?_,hp,h.eof⟩
    simp [h.base]
  have hrest : Window.rest { w with validEnd := w.pos } = bytes.drop w.pos := by
    rw [← h.whole,List.drop_append_of_le_length hp]
    rfl
  rw [replayLoopAny_reading chunk hsound,Window.reading,hrest]
  simp only [Reading.after,h.applied,List.nil_append]

theorem replayBody_eq (format : WalFormat) (key : Option Key) (chunk : ℕ) {bytes : Bytes} {w : Window}
    (h : w.Starts bytes) (hp : w.pos ≤ w.buf.length) :
    replayBody format key chunk w = wholeBody format key bytes w.pos := by
  simp only [replayBody,wholeBody,replayLoopAny_eq format key chunk h hp]

/-- A log read in chunks of any size, with any key or none, gives what reading it as a whole gives:
the same entries are handed over, and it ends the same way. -/
theorem replayWith_eq (key : Option Key) (chunk : ℕ) (bytes : Bytes) :
    replayWith key chunk bytes = replayWholeWith key bytes := by
  obtain ⟨hs,hdetect,hempty⟩ := detect_fillHeader chunk bytes
  unfold replayWith replayWholeWith
  generalize fillHeader chunk headerLen { unread := bytes } = w at *
  simp only [hdetect,hempty]
  cases hd : detect bytes with
  | error err => rfl
  | ok found =>
    cases found with
    | tornHeader => rfl
    | log format bodyStart isSealed =>
      have hstart := detect_bodyStart (hdetect.trans hd)
      have hw : Window.Starts bytes { w with pos := bodyStart } := ⟨hs.base,hs.whole,hs.applied,hs.eof⟩
      simp only
      split_ifs
      · rfl
      · cases isSealed with
        | false =>
          cases key with
          | none => exact replayBody_eq format none chunk hw hstart
          | some key => rfl
        | true =>
          cases key with
          | none => rfl
          | some key =>
            have hsize : bodyStart+frameLen ≤ frameLen+w.buf.length := by omega
            obtain ⟨hf,hpos,hlen,-⟩ := hw.fillTo chunk hsize
            simp only at hpos hlen
            generalize fillTo (bodyStart+frameLen) chunk frameLen { w with pos := bodyStart } = w₁ at *
            obtain ⟨hcheck,hsome⟩ := keyCheck_spec key chunk hf (by omega)
            rw [hpos] at hcheck
            simp only [← hcheck]
            cases hk : keyCheck key chunk w₁ with
            | error err => rfl
            | ok found =>
              cases found with
              | none => rfl
              | some w₂ =>
                obtain ⟨hw₂,hp₂⟩ := hsome w₂ hk
                exact replayBody_eq format (some key) chunk hw₂ hp₂

/-- Whatever the sizes of the chunks. -/
theorem replay_independent_of_chunk (key : Option Key) (bytes : Bytes) (chunk chunk' : ℕ) :
    replayWith key chunk bytes = replayWith key chunk' bytes ∧
      replayWith key chunk bytes = replayWholeWith key bytes := by
  rw [replayWith_eq,replayWith_eq]
  exact ⟨rfl,rfl⟩

/-! ## Logs that are read without a key -/

/-- A reading without a key ended as `x` says. -/
def Reading.Agrees (r : Reading) (x : Except LogError Found) : Prop :=
  match x with
  | .ok found => r = ⟨.ok (found.validEnd,found.torn),found.applied⟩
  | .error err => r.outcome = .error (.log err)

omit [LogCodec] in
theorem Reading.Agrees.unique {r : Reading} {x y : Except LogError Found} (hx : r.Agrees x) (hy : r.Agrees y) :
    x = y := by
  cases x with
  | error err =>
    cases y with
    | error err' =>
      obtain ⟨outcome,applied⟩ := r
      simp only [Reading.Agrees] at hx hy
      rw [hx] at hy
      cases hy
      rfl
    | ok found =>
      obtain rfl : r = _ := hy
      cases hx
  | ok found =>
    obtain rfl : r = _ := hx
    cases y with
    | error err' => cases hy
    | ok found' =>
      obtain ⟨validEnd,torn,applied⟩ := found
      obtain ⟨validEnd',torn',applied'⟩ := found'
      cases hy
      rfl

/-- The keys of a build without encryption: there are none. -/
instance : Cipher Empty := ⟨fun key => nomatch key⟩

omit [LogCodec] in
theorem moreFollowsAny_none (format : WalFormat) (chunk : ℕ) (w : Window) :
    moreFollowsAny format (none : Option Empty) chunk w = moreFollows format chunk w := by
  induction w using moreFollows.induct chunk with
  | case1 w r hr ih =>
    rw [moreFollowsAny,moreFollows,dif_pos hr,dif_pos hr,ih]
    rfl
  | case2 w r hr => rw [moreFollowsAny,moreFollows,dif_neg hr,dif_neg hr]

theorem replayTurn_agrees (format : WalFormat) (chunk : ℕ) (w : Window) :
    match replayTurn format chunk w with
    | .again w' => replayTurnAny format (none : Option Empty) chunk w = .again w'
    | .done x => ∃ r, replayTurnAny format (none : Option Empty) chunk w = .done r ∧ r.Agrees x := by
  unfold replayTurn replayTurnAny
  by_cases hp : w.buf.length ≤ w.pos
  · simp only [if_pos hp]
    split_ifs
    · rfl
    · exact ⟨_,rfl,rfl⟩
  simp only [if_neg hp]
  have hj : (!w.eof && mayGoOn format (none : Option Empty) (w.buf.drop w.pos)) =
      (format = .json && !w.eof && !(w.buf.drop w.pos).contains 0x0A) := by
    simp only [mayGoOn,Option.isNone_none,Bool.true_and]
    cases w.eof <;> simp
  rw [hj]
  by_cases hwait : (format = .json && !w.eof && !(w.buf.drop w.pos).contains 0x0A) = true
  · simp only [if_pos hwait]
  · simp only [if_neg hwait,readAny]
    cases readRecord format w.buf w.pos with
    | ops ops next => rfl
    | incomplete =>
      simp only [AnyRecord.ofRecord]
      split_ifs
      · rfl
      · exact ⟨_,rfl,rfl⟩
    | invalid next =>
      simp only [AnyRecord.ofRecord,moreFollowsAny_none,followsAny,Option.isNone_none,if_true]
      split_ifs <;> exact ⟨_,rfl,rfl⟩

theorem replayLoop_agrees (format : WalFormat) (chunk : ℕ) (w : Window) :
    (replayLoopAny format (none : Option Empty) chunk w).Agrees (replayLoop format chunk w) := by
  induction w using replayLoop.induct format chunk with
  | case1 w x hturn =>
    have hagrees := replayTurn_agrees format chunk w
    rw [hturn] at hagrees
    obtain ⟨r,hr,hx⟩ := hagrees
    rw [replayLoop,hturn,replayLoopAny,hr]
    exact hx
  | case2 w w' hturn ih =>
    have hagrees := replayTurn_agrees format chunk w
    rw [hturn] at hagrees
    rw [replayLoop,hturn,replayLoopAny,hagrees]
    exact ih

theorem scan_agrees (format : WalFormat) (validEnd : ℕ) (bytes : Bytes) :
    (scanAny format (none : Option Empty) validEnd bytes).Agrees (scan format validEnd bytes) := by
  by_cases hne : bytes = []
  · subst hne
    rw [scan_nil,scanAny_nil]
    exact rfl
  cases hrec : readRecord format bytes 0 with
  | ops ops next =>
    have hany : readAny format (none : Option Empty) bytes 0 = .ops ops next := by simp only [readAny,hrec]; rfl
    obtain ⟨hlt,-⟩ := readRecord_next (List.length_pos_iff.mpr hne) (congrArg Record.next? hrec)
    have ih := scan_agrees format (validEnd+next) (bytes.drop next)
    rw [scan_ops hne hrec,scanAny_ops hne hany]
    cases hscan : scan format (validEnd+next) (bytes.drop next) with
    | error err =>
      rw [hscan] at ih
      exact ih
    | ok found =>
      rw [hscan] at ih
      simp only [Reading.Agrees] at ih
      simp only [ih,Except.map,Reading.Agrees,Reading.after]
  | incomplete =>
    have hany : readAny format (none : Option Empty) bytes 0 = .incomplete := by simp only [readAny,hrec]; rfl
    rw [scan_incomplete hne hrec,scanAny_incomplete hne hany]
    exact rfl
  | invalid next =>
    have hany : readAny format (none : Option Empty) bytes 0 = .invalid next := by simp only [readAny,hrec]; rfl
    rw [scan_invalid hne hrec,scanAny_invalid hne hany]
    simp only [followsAny,Option.isNone_none,if_true]
    split_ifs <;> exact rfl
termination_by bytes.length
decreasing_by
  have := List.length_pos_iff.mpr hne
  rw [List.length_drop]
  omega

theorem replay_eq (chunk : ℕ) (bytes : Bytes) : replay chunk bytes = replayWhole bytes := by
  obtain ⟨hs,hdetect,hempty⟩ := detect_fillHeader chunk bytes
  unfold replay replayWhole
  generalize fillHeader chunk headerLen { unread := bytes } = w at *
  simp only [hdetect,hempty]
  cases hd : detect bytes with
  | error err => rfl
  | ok found =>
    cases found with
    | tornHeader => rfl
    | log format bodyStart isSealed =>
      have hstart := detect_bodyStart (hdetect.trans hd)
      have hw : Window.Starts bytes { w with pos := bodyStart } := ⟨hs.base,hs.whole,hs.applied,hs.eof⟩
      simp only
      split_ifs
      · rfl
      · rfl
      · have hread := replayLoopAny_eq format (none : Option Empty) chunk hw hstart
        have hloop := replayLoop_agrees format chunk { w with pos := bodyStart, validEnd := bodyStart }
        rw [hread] at hloop
        rw [hloop.unique (scan_agrees format bodyStart (bytes.drop bodyStart))]

end
end Drevo
