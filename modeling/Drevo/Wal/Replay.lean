import Drevo.Wal.Format

/-! Reading a log. The log is read a chunk at a time and record by record; what comes out is
what reading the whole log at once gives, whatever the size of the chunks. -/
namespace Drevo

/-- What reading a log found. -/
inductive Replayed where
  | tornHeader
  | empty
  | log (format : WalFormat) (validEnd : ℕ) (torn isSealed : Bool)
  deriving DecidableEq

/-- The records of a log: where the valid ones end, whether a torn tail follows them, and what
they hold. -/
structure Found where
  validEnd : ℕ
  torn : Bool
  applied : List WalOp
  deriving DecidableEq

/-- The part of the log in memory, its place in the log, what is still unread, and what was
read so far. -/
structure Window where
  buf : Bytes := []
  base : ℕ := 0
  pos : ℕ := 0
  unread : Bytes
  eof : Bool := false
  validEnd : ℕ := 0
  applied : List WalOp := []

/-- One turn of the reading loop either goes on or ends with a result. -/
inductive ReplayTurn where
  | again (w : Window)
  | done (result : Except LogError Found)

/-- Whether bytes after an invalid record count as data. -/
def follows (format : WalFormat) (bytes : Bytes) : Bool :=
  if format = .json then
    !bytes.all (fun b => b = 0x20 || b = 0x09 || b = 0x0A || b = 0x0C || b = 0x0D)
  else !bytes.isEmpty

namespace Window

/-- Append up to a chunk of the log; false once the log is exhausted. -/
def fill (chunk : ℕ) (w : Window) : Bool × Window :=
  let chunk := max chunk 1
  if w.eof then (false,w)
  else
    let got := w.unread.take chunk
    (!got.isEmpty,
      { w with buf := w.buf ++ got, unread := w.unread.drop chunk, eof := w.unread.length < chunk })

/-- Forget the part of the window that was read. -/
def drain (w : Window) : Window := { w with buf := w.buf.drop w.pos, base := w.base+w.pos, pos := 0 }

/-- What a turn of the loop makes smaller. -/
def left (w : Window) : ℕ := 2*w.unread.length+(w.buf.length-w.pos)+(!w.eof).toNat

theorem fill_eq {w : Window} (chunk : ℕ) (he : w.eof = false) :
    w.fill chunk = (!(w.unread.take (max chunk 1)).isEmpty,
      { w with buf := w.buf ++ w.unread.take (max chunk 1), unread := w.unread.drop (max chunk 1),
               eof := w.unread.length < max chunk 1 }) := by
  simp only [fill,he]
  rfl

theorem fill_left {w : Window} (chunk : ℕ) (he : w.eof = false) : (w.fill chunk).2.left < w.left := by
  rw [fill_eq chunk he]
  simp only [left,he,List.length_append,List.length_take,List.length_drop]
  by_cases hc : w.unread.length < max chunk 1
  · simp only [hc,decide_true,Bool.not_true,Bool.not_false,Bool.toNat_true,Bool.toNat_false]
    omega
  · simp only [hc,decide_false,Bool.not_false,Bool.toNat_true]
    omega

theorem fill_open {w : Window} {chunk : ℕ} (h : (w.fill chunk).1 = true) : w.eof = false := by
  cases he : w.eof with
  | true => simp [fill,he] at h
  | false => rfl

theorem fill_more {w : Window} {chunk : ℕ} (h : (w.fill chunk).1 = true) :
    (w.fill chunk).2.unread.length < w.unread.length := by
  have he := fill_open h
  rw [fill_eq chunk he] at h ⊢
  have hpos : 0 < w.unread.length := by
    cases hu : w.unread with
    | nil => simp [hu] at h
    | cons b rest => simp
  simp only [List.length_drop]
  omega

theorem drain_left (w : Window) : w.drain.left = w.left := by
  simp only [drain,left,List.length_drop]
  rfl

end Window

/-- Where a record that was read or refused ends. -/
def Record.next? : Record → Option ℕ
  | .ops _ next => some next
  | .invalid next => some next
  | .incomplete => none

/-- The record, `pos` bytes further on. -/
def Record.shift (pos : ℕ) : Record → Record
  | .ops found next => .ops found (pos+next)
  | .invalid next => .invalid (pos+next)
  | .incomplete => .incomplete

/-- Where a frame that is whole ends. -/
def frameEnd : Except Record (Bytes × ℕ) → Option ℕ
  | .ok (_,next) => some next
  | .error record => record.next?

theorem readFrame_end {bytes : Bytes} {pos next : ℕ} (h : frameEnd (readFrame bytes pos) = some next) :
    pos < next ∧ next ≤ bytes.length := by
  have hlen := @List.length_drop _ pos bytes
  simp only [readFrame] at h
  by_cases hshort : (bytes.drop pos).length < frameLen
  · rw [if_pos hshort] at h
    cases h
  rw [if_neg hshort] at h
  by_cases hcut : (bytes.drop pos).length < frameLen+fromLeBytes ((bytes.drop pos).take 4)
  · rw [if_pos hcut] at h
    cases h
  rw [if_neg hcut] at h
  have hnext : pos+(frameLen+fromLeBytes ((bytes.drop pos).take 4)) = next := by
    split_ifs at h <;> exact Option.some.inj h
  simp only [frameLen] at *
  omega

theorem readRecord_next [LogCodec] {format : WalFormat} {bytes : Bytes} {pos next : ℕ}
    (hp : pos < bytes.length) (h : (readRecord format bytes pos).next? = some next) :
    pos < next ∧ next ≤ bytes.length := by
  by_cases hf : format = .json
  · have hlen := @List.length_drop _ pos bytes
    simp only [readRecord,if_pos hf] at h
    split at h <;>
    · simp only [Record.next?,Option.some.injEq] at h
      split_ifs at h <;> omega
  · apply readFrame_end
    rw [readRecord_eq_readFrame hf] at h
    cases hframe : readFrame bytes pos with
    | error record => simpa [hframe,frameEnd] using h
    | ok found =>
      simp only [hframe] at h
      split at h <;> exact h

/-- After an invalid record: whether data follows in the rest of the log. -/
def moreFollows (format : WalFormat) (chunk : ℕ) (w : Window) : Bool :=
  let r := { w with buf := [] }.fill chunk
  if _ : r.1 then
    follows format r.2.buf || moreFollows format chunk r.2
  else false
termination_by w.unread.length
decreasing_by exact Window.fill_more ‹_›

section
variable [LogCodec]

/-- One turn: refill an empty window or one whose last record is not complete, else read a
record. -/
def replayTurn (format : WalFormat) (chunk : ℕ) (w : Window) : ReplayTurn :=
  if w.buf.length ≤ w.pos then
    let r := { w with buf := [], base := w.base+w.pos, pos := 0 }.fill chunk
    if r.1 then .again r.2 else .done (.ok ⟨w.validEnd,false,w.applied⟩)
  else if format = .json && !w.eof && !(w.buf.drop w.pos).contains 0x0A then .again (w.drain.fill chunk).2
  else
    match readRecord format w.buf w.pos with
    | .ops ops next =>
      .again { w with applied := w.applied ++ ops, validEnd := w.base+next, pos := next }
    | .incomplete =>
      if !w.eof then .again (w.drain.fill chunk).2
      else .done (.ok ⟨w.validEnd,true,w.applied⟩)
    | .invalid next =>
      if follows format (w.buf.drop next) || moreFollows format chunk w then
        .done (.error (.corruptRecord (w.base+w.pos)))
      else .done (.ok ⟨w.validEnd,true,w.applied⟩)

theorem replayTurn_left {format : WalFormat} {chunk : ℕ} {w w' : Window}
    (h : replayTurn format chunk w = .again w') : w'.left < w.left := by
  unfold replayTurn at h
  by_cases hp : w.buf.length ≤ w.pos
  · rw [if_pos hp] at h
    simp only at h
    split_ifs at h with hr
    injection h with hw
    have hfill := Window.fill_left chunk (Window.fill_open hr)
    rw [hw] at hfill
    refine hfill.trans_eq ?_
    simp only [Window.left,List.length_nil]
    omega
  rw [if_neg hp] at h
  by_cases hj : (format = .json && !w.eof && !(w.buf.drop w.pos).contains 0x0A) = true
  · rw [if_pos hj] at h
    injection h with hw
    have he : w.eof = false := by
      simp only [Bool.and_eq_true,Bool.not_eq_true'] at hj
      exact hj.1.2
    rw [← hw,← w.drain_left]
    exact Window.fill_left chunk he
  rw [if_neg hj] at h
  split at h
  · rename_i ops next hrec
    injection h with hw
    obtain ⟨hlt,hle⟩ := readRecord_next (Nat.lt_of_not_le hp) (congrArg Record.next? hrec)
    rw [← hw]
    simp only [Window.left]
    omega
  · split_ifs at h with he
    injection h with hw
    rw [← hw,← w.drain_left]
    have he : w.eof = false := by simpa using he
    exact Window.fill_left chunk he
  · split_ifs at h

/-- The reading loop. -/
def replayLoop (format : WalFormat) (chunk : ℕ) (w : Window) : Except LogError Found :=
  match _ : replayTurn format chunk w with
  | .done result => result
  | .again w' => replayLoop format chunk w'
termination_by w.left
decreasing_by exact replayTurn_left ‹_›

omit [LogCodec] in
/-- Read until the header is in the window, or the log is exhausted. -/
def fillHeader (chunk : ℕ) : ℕ → Window → Window
  | 0,w => w
  | n+1,w =>
    if w.buf.length < headerLen then
      let r := w.fill chunk
      if r.1 then fillHeader chunk n r.2 else r.2
    else w

def replay (chunk : ℕ) (bytes : Bytes) : Except LogError (Replayed × List WalOp) :=
  let w := fillHeader chunk headerLen { unread := bytes }
  match detect w.buf with
  | .error err => .error err
  | .ok .tornHeader => .ok (.tornHeader,[])
  | .ok (.log format bodyStart isSealed) =>
    if w.buf.isEmpty then .ok (.empty,[])
    else if isSealed then .error .encrypted
    else
      (replayLoop format chunk { w with pos := bodyStart, validEnd := bodyStart }).map
        (fun r => (.log format r.validEnd r.torn false,r.applied))

/-! ## Reading the whole log at once -/

/-- The records of a log from the given offset on, all bytes at hand. -/
def scan (format : WalFormat) (validEnd : ℕ) (bytes : Bytes) : Except LogError Found :=
  if _ : bytes = [] then .ok ⟨validEnd,false,[]⟩
  else
    match _ : readRecord format bytes 0 with
    | .ops ops next =>
      (scan format (validEnd+next) (bytes.drop next)).map (fun r => { r with applied := ops ++ r.applied })
    | .incomplete => .ok ⟨validEnd,true,[]⟩
    | .invalid next =>
      if follows format (bytes.drop next) then .error (.corruptRecord validEnd)
      else .ok ⟨validEnd,true,[]⟩
termination_by bytes.length
decreasing_by
  have hpos := List.length_pos_iff.mpr ‹¬ bytes = []›
  obtain ⟨hlt,hle⟩ := readRecord_next hpos (congrArg Record.next? ‹_›)
  simp only [List.length_drop]
  omega

theorem scan_nil (format : WalFormat) (validEnd : ℕ) :
    scan format validEnd [] = .ok ⟨validEnd,false,[]⟩ := by
  rw [scan,dif_pos rfl]

section Scan
variable {format : WalFormat} {validEnd next : ℕ} {bytes : Bytes} (hne : bytes ≠ [])
include hne

theorem scan_ops {ops : List WalOp} (h : readRecord format bytes 0 = .ops ops next) :
    scan format validEnd bytes =
      (scan format (validEnd+next) (bytes.drop next)).map (fun r => { r with applied := ops ++ r.applied }) := by
  rw [scan,dif_neg hne]
  split <;> simp_all

theorem scan_incomplete (h : readRecord format bytes 0 = .incomplete) :
    scan format validEnd bytes = .ok ⟨validEnd,true,[]⟩ := by
  rw [scan,dif_neg hne]
  split <;> simp_all

theorem scan_invalid (h : readRecord format bytes 0 = .invalid next) :
    scan format validEnd bytes =
      if follows format (bytes.drop next) then .error (.corruptRecord validEnd)
      else .ok ⟨validEnd,true,[]⟩ := by
  rw [scan,dif_neg hne]
  split <;> simp_all

end Scan

def replayWhole (bytes : Bytes) : Except LogError (Replayed × List WalOp) :=
  match detect bytes with
  | .error err => .error err
  | .ok .tornHeader => .ok (.tornHeader,[])
  | .ok (.log format bodyStart isSealed) =>
    if bytes.isEmpty then .ok (.empty,[])
    else if isSealed then .error .encrypted
    else
      (scan format bodyStart (bytes.drop bodyStart)).map (fun r => (.log format r.validEnd r.torn false,r.applied))

omit [LogCodec] in
theorem readFrame_drop (bytes : Bytes) (pos : ℕ) :
    readFrame bytes pos =
      match readFrame (bytes.drop pos) 0 with
      | .ok (payload,next) => .ok (payload,pos+next)
      | .error record => .error (record.shift pos) := by
  simp only [readFrame,List.drop_zero,Nat.zero_add]
  split_ifs <;> rfl

theorem readRecord_drop (format : WalFormat) {bytes : Bytes} {pos : ℕ} (h : pos ≤ bytes.length) :
    readRecord format bytes pos = (readRecord format (bytes.drop pos) 0).shift pos := by
  have hlen : bytes.length = pos+(bytes.drop pos).length := by
    rw [List.length_drop]
    omega
  simp only [readRecord,List.drop_zero]
  by_cases hf : format = .json
  · simp only [if_pos hf,Nat.zero_add]
    rw [hlen]
    split_ifs <;> cases parseJsonLine _ <;> rfl
  · simp only [if_neg hf,Nat.zero_add]
    split_ifs <;> try rfl
    cases LogCodec.decodeOps format _ <;> rfl

theorem readRecord_json_append {bytes : Bytes} (h : 0x0A ∈ bytes) (more : Bytes) :
    readRecord .json (bytes ++ more) 0 = readRecord .json bytes 0 := by
  have hidx : bytes.findIdx (fun b => b = 0x0A) < bytes.length :=
    List.findIdx_lt_length_of_exists ⟨0x0A,h,by simp⟩
  have happ : (bytes ++ more).findIdx (fun b => b = 0x0A) = bytes.findIdx (fun b => b = 0x0A) := by
    rw [List.findIdx_append,if_pos hidx]
  have hmore : bytes.findIdx (fun b => b = 0x0A) < (bytes ++ more).length := by
    rw [List.length_append]
    omega
  simp only [readRecord,List.drop_zero,happ,if_true,List.take_append_of_le_length hidx.le,if_pos hmore,if_pos hidx]

omit [LogCodec] in
theorem readFrame_append {bytes : Bytes} (h : readFrame bytes 0 ≠ .error .incomplete) (more : Bytes) :
    readFrame (bytes ++ more) 0 = readFrame bytes 0 := by
  simp only [readFrame,List.drop_zero] at h ⊢
  by_cases hshort : bytes.length < frameLen
  · exact absurd (if_pos hshort) h
  rw [if_neg hshort] at h ⊢
  have hshort' : ¬ (bytes ++ more).length < frameLen := by
    rw [List.length_append]
    omega
  have hframe : 8 ≤ bytes.length := by
    simp only [frameLen] at hshort
    omega
  have hlen : (bytes ++ more).take 4 = bytes.take 4 := List.take_append_of_le_length (by omega)
  have hcrc : ((bytes ++ more).drop 4).take 4 = (bytes.drop 4).take 4 := by
    rw [List.drop_append_of_le_length (by omega),List.take_append_of_le_length (by simp; omega)]
  rw [if_neg hshort',hlen,hcrc]
  by_cases hcut : bytes.length < frameLen+fromLeBytes (bytes.take 4)
  · exact absurd (if_pos hcut) h
  have hcut' : ¬ (bytes ++ more).length < frameLen+fromLeBytes (bytes.take 4) := by
    rw [List.length_append]
    omega
  have hpay : ((bytes ++ more).drop frameLen).take (fromLeBytes (bytes.take 4)) =
      (bytes.drop frameLen).take (fromLeBytes (bytes.take 4)) := by
    rw [List.drop_append_of_le_length (by simpa [frameLen] using hframe),
      List.take_append_of_le_length (by rw [List.length_drop]; omega)]
  rw [if_neg hcut,if_neg hcut',hpay]

theorem readRecord_frame_append {format : WalFormat} (hf : format ≠ .json) {bytes : Bytes}
    (h : readRecord format bytes 0 ≠ .incomplete) (more : Bytes) :
    readRecord format (bytes ++ more) 0 = readRecord format bytes 0 := by
  have hframe : readFrame bytes 0 ≠ .error .incomplete := by
    intro hinc
    apply h
    rw [readRecord_eq_readFrame hf,hinc]
  rw [readRecord_eq_readFrame hf,readRecord_eq_readFrame hf,readFrame_append hframe]

omit [LogCodec] in
theorem follows_append (format : WalFormat) (as bs : Bytes) :
    follows format (as ++ bs) = (follows format as || follows format bs) := by
  unfold follows
  split_ifs
  · rw [List.all_append,Bool.not_and]
  · cases as <;> simp

/-- What the window holds and what is unread are the rest of the log. -/
structure Window.Sound (w : Window) : Prop where
  valid : w.validEnd = w.base+w.pos
  pos : w.pos ≤ w.buf.length
  eof : w.eof = true → w.unread = []

/-- The bytes of the log that are still to be read. -/
def Window.rest (w : Window) : Bytes := w.buf.drop w.pos ++ w.unread

omit [LogCodec] in
theorem Window.Sound.fill {w : Window} (h : w.Sound) (chunk : ℕ) :
    (w.fill chunk).2.Sound ∧ (w.fill chunk).2.rest = w.rest ∧ (w.fill chunk).2.validEnd = w.validEnd ∧
      (w.fill chunk).2.applied = w.applied := by
  cases he : w.eof with
  | true =>
    have hsame : (w.fill chunk).2 = w := by simp [Window.fill,he]
    rw [hsame]
    exact ⟨h,rfl,rfl,rfl⟩
  | false =>
    rw [fill_eq chunk he]
    refine ⟨⟨h.valid,?_,?_⟩,?_,rfl,rfl⟩
    · simp only [List.length_append]
      have hp := h.pos
      omega
    · intro heof
      simp only [decide_eq_true_eq] at heof
      exact List.drop_eq_nil_of_le heof.le
    · simp only [rest,List.drop_append_of_le_length h.pos,List.append_assoc,List.take_append_drop]

omit [LogCodec] in
theorem Window.Sound.drain {w : Window} (h : w.Sound) : w.drain.Sound ∧ w.drain.rest = w.rest :=
  ⟨⟨h.valid,Nat.zero_le _,h.eof⟩,rfl⟩

omit [LogCodec] in
/-- Read until the window holds `size` bytes, or the log is exhausted. -/
def fillTo (size chunk : ℕ) : ℕ → Window → Window
  | 0,w => w
  | n+1,w =>
    if w.buf.length < size then
      let r := w.fill chunk
      if r.1 then fillTo size chunk n r.2 else r.2
    else w

omit [LogCodec] in
theorem fillHeader_eq (chunk n : ℕ) (w : Window) : fillHeader chunk n w = fillTo headerLen chunk n w := by
  induction n generalizing w with
  | zero => rfl
  | succ n ih => simp only [fillHeader,fillTo,ih]

/-- The window stands at the beginning of the log `bytes`, and nothing was handed over. -/
structure Window.Starts (bytes : Bytes) (w : Window) : Prop where
  base : w.base = 0
  whole : w.buf ++ w.unread = bytes
  applied : w.applied = []
  eof : w.eof = true → w.unread = []

omit [LogCodec] in
theorem Window.Starts.fill {bytes : Bytes} {w : Window} (h : w.Starts bytes) (chunk : ℕ) :
    (w.fill chunk).2.Starts bytes ∧ (w.fill chunk).2.pos = w.pos ∧ w.buf.length ≤ (w.fill chunk).2.buf.length := by
  cases he : w.eof with
  | true =>
    have hsame : (w.fill chunk).2 = w := by simp [Window.fill,he]
    rw [hsame]
    exact ⟨h,rfl,le_refl _⟩
  | false =>
    rw [Window.fill_eq chunk he]
    refine ⟨⟨h.base,?_,h.applied,?_⟩,rfl,by simp⟩
    · simp only [List.append_assoc,List.take_append_drop]
      exact h.whole
    · intro heof
      simp only [decide_eq_true_eq] at heof
      exact List.drop_eq_nil_of_le heof.le

omit [LogCodec] in
theorem Window.fill_nothing {w : Window} {chunk : ℕ} (he : w.eof = true → w.unread = [])
    (hr : ¬ (w.fill chunk).1 = true) : (w.fill chunk).2.unread = [] := by
  cases heof : w.eof with
  | true =>
    have hsame : (w.fill chunk).2 = w := by simp [Window.fill,heof]
    rw [hsame]
    exact he heof
  | false =>
    rw [Window.fill_eq chunk heof] at hr ⊢
    have hempty : w.unread = [] := by simpa using hr
    simp [hempty]

omit [LogCodec] in
theorem Window.Starts.fillTo {bytes : Bytes} {size n : ℕ} {w : Window} (h : w.Starts bytes) (chunk : ℕ)
    (hn : size ≤ n+w.buf.length) :
    (fillTo size chunk n w).Starts bytes ∧ (fillTo size chunk n w).pos = w.pos ∧
      w.buf.length ≤ (fillTo size chunk n w).buf.length ∧
      (size ≤ (fillTo size chunk n w).buf.length ∨ (fillTo size chunk n w).unread = []) := by
  induction n generalizing w with
  | zero => exact ⟨h,rfl,le_refl _,Or.inl (by simpa [Drevo.fillTo] using hn)⟩
  | succ n ih =>
    simp only [Drevo.fillTo]
    by_cases hl : w.buf.length < size
    · rw [if_pos hl]
      obtain ⟨hs,hpos,hlen⟩ := h.fill chunk
      by_cases hr : (w.fill chunk).1 = true
      · rw [if_pos hr]
        have hmore : size ≤ n+(w.fill chunk).2.buf.length := by
          have he := Window.fill_open hr
          rw [Window.fill_eq chunk he] at hr ⊢
          simp only [List.length_append]
          have hpos : 0 < (w.unread.take (max chunk 1)).length := by
            cases htake : w.unread.take (max chunk 1) with
            | nil => simp [htake] at hr
            | cons b rest => simp
          omega
        obtain ⟨hs',hpos',hlen',hdone⟩ := ih hs hmore
        exact ⟨hs',hpos'.trans hpos,hlen.trans hlen',hdone⟩
      · rw [if_neg hr]
        exact ⟨hs,hpos,hlen,Or.inr (Window.fill_nothing h.eof hr)⟩
    · rw [if_neg hl]
      exact ⟨h,rfl,le_refl _,Or.inl (by omega)⟩

theorem detect_append {bytes : Bytes} (h : headerLen ≤ bytes.length) (more : Bytes) :
    detect (bytes ++ more) = detect bytes := by
  have hlen : 8 ≤ bytes.length := h
  have htake : (bytes ++ more).take magic.length = bytes.take magic.length :=
    List.take_append_of_le_length (by simp only [magic,List.length_cons,List.length_nil]; omega)
  have hget : ∀ i < 8, (bytes ++ more).getD i 0 = bytes.getD i 0 := by
    intro i hi
    rw [List.getD_eq_getElem?_getD,List.getD_eq_getElem?_getD,List.getElem?_append_left (by omega)]
  have hversion := hget magic.length (by decide)
  have htag := hget (magic.length+1) (by decide)
  have hshort : ¬ (bytes ++ more).length < headerLen := by
    rw [List.length_append]
    omega
  simp only [detect,htake,hversion,htag,if_neg hshort,if_neg (Nat.not_lt.mpr h)]

theorem detect_bodyStart {bytes : Bytes} {format : WalFormat} {bodyStart : ℕ} {isSealed : Bool}
    (h : detect bytes = .ok (.log format bodyStart isSealed)) : bodyStart ≤ bytes.length := by
  simp only [detect] at h
  by_cases hl : bytes.length < headerLen
  · rw [if_pos hl] at h
    split_ifs at h <;> cases h
    exact Nat.zero_le _
  rw [if_neg hl] at h
  by_cases hm : bytes.take magic.length ≠ magic
  · rw [if_pos hm] at h
    cases h
    exact Nat.zero_le _
  rw [if_neg hm] at h
  split_ifs at h <;> split at h
  all_goals
    first
    | cases h
    | (split_ifs at h
       cases h
       omega)

theorem detect_fillHeader (chunk : ℕ) (bytes : Bytes) :
    let w := fillHeader chunk headerLen { unread := bytes }
    w.Starts bytes ∧ detect w.buf = detect bytes ∧ w.buf.isEmpty = bytes.isEmpty := by
  have h₀ : Window.Starts bytes { unread := bytes } := ⟨rfl,rfl,rfl,by simp⟩
  obtain ⟨hs,-,-,hdone⟩ := h₀.fillTo chunk (show headerLen ≤ headerLen+_ by simp)
  rw [← fillHeader_eq] at hs hdone
  intro w
  have hw : fillHeader chunk headerLen { unread := bytes } = w := rfl
  rw [hw] at hs hdone
  clear_value w
  refine ⟨hs,?_,?_⟩
  · rcases hdone with hlong | hend
    · rw [← detect_append hlong,hs.whole]
    · rw [← hs.whole,hend,List.append_nil]
  · rcases hdone with hlong | hend
    · have hne : ∀ l : Bytes, headerLen ≤ l.length → l.isEmpty = false := by
        intro l hl
        cases l with
        | nil => exact absurd hl (by decide)
        | cons b l => rfl
      rw [hne _ hlong,← hs.whole,hne _ (by rw [List.length_append]; omega)]
    · rw [← hs.whole,hend,List.append_nil]

end
end Drevo
