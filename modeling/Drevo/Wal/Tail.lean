import Drevo.Wal.Crash

/-! Following a log while it grows. A tailer polls the file, returns the records that have become
whole since, and remembers how far it has read. -/
namespace Drevo

/-- The follower of a log: how many bytes it has read, and the format once it has seen one. -/
structure WalTailer where
  offset : ℕ := 0
  format : Option WalFormat := none
  deriving DecidableEq

/-- The log file as a poll finds it: not there yet, impossible to open or to begin to read, or
with the given bytes, of which those behind the header may be impossible to read. -/
inductive FileSeen where
  | absent
  | unreadable (reason : String)
  | file (bytes : Bytes) (fails : Option String)

/-- Why a poll fails. -/
inductive PollError where
  | log (err : LogError)
  | encrypted
  | io (reason : String)
  deriving DecidableEq

def PollError.message (path : String) : PollError → String
  | .log err => err.message path
  | .encrypted => "following an encrypted write-ahead log is not supported"
  | .io reason => reason

/-- The place of the last byte that equals `b`. -/
def rposition (b : UInt8) (buf : Bytes) : Option ℕ :=
  (buf.reverse.findIdx? (fun c => c = b)).map (fun i => buf.length-1-i)

section
variable [LogCodec]

/-- The records of a binary log from a position on, up to one that is not whole. Bytes that are no
record are skipped. -/
def pollFrames (format : WalFormat) (buf : Bytes) (pos : ℕ) : List WalOp × ℕ :=
  if _ : pos < buf.length then
    match _ : readRecord format buf pos with
    | .ops ops next =>
      let r := pollFrames format buf next
      (ops ++ r.1,r.2)
    | .invalid next => pollFrames format buf next
    | .incomplete => ([],pos)
  else ([],pos)
termination_by buf.length-pos
decreasing_by
  all_goals
    obtain ⟨hlt,hle⟩ := readRecord_next ‹pos < buf.length› (congrArg Record.next? ‹_›)
    omega

/-- The lines of a JSON log up to the last newline. Lines that do not parse are skipped. -/
def pollLines (buf : Bytes) : List WalOp × ℕ :=
  match rposition 0x0A buf with
  | none => ([],0)
  | some last =>
    let complete := buf.take (last+1)
    ((complete.splitOn 0x0A).flatMap
      (fun line => if line.isEmpty then [] else (parseJsonLine line).getD []),complete.length)

namespace WalTailer

def resumeAt (offset : ℕ) : WalTailer := { offset }

/-- The format of the log, and the tailer that knows it; none while the header is not there. -/
def known (t : WalTailer) (bytes : Bytes) : Except PollError (Option (WalFormat × WalTailer)) :=
  match t.format with
  | some format => .ok (some (format,t))
  | none =>
    let head := bytes.take headerLen
    match detect head with
    | .error err => .error (.log err)
    | .ok .tornHeader => .ok none
    | .ok (.log format bodyStart isSealed) =>
      if head.isEmpty then .ok none
      else if isSealed then .error .encrypted
      else .ok (some (format,{ offset := max t.offset bodyStart, format := some format }))

/-- Read what was appended since the last poll. -/
def poll (t : WalTailer) : FileSeen → Except PollError (List WalOp) × WalTailer
  | .absent => (.ok [],t)
  | .unreadable reason => (.error (.io reason),t)
  | .file bytes fails =>
    match t.known bytes with
    | .error err => (.error err,t)
    | .ok none => (.ok [],t)
    | .ok (some (format,t)) =>
      match fails with
      | some reason => (.error (.io reason),t)
      | none =>
        let buf := bytes.drop t.offset
        let r := if format = .json then pollLines buf else pollFrames format buf 0
        (.ok r.1,{ t with offset := t.offset+r.2 })

end WalTailer

/-! ## Logs and the schedules of those who follow them -/

/-- A record as it stands in a log. A line of a JSON log has its end. -/
structure LogRecord (format : WalFormat) where
  line : Bytes
  ops : List WalOp
  reads : readRecord format line 0 = .ops ops line.length
  ended : format = .json → line.getLast? = some 0x0A

def recordLines {format : WalFormat} (records : List (LogRecord format)) : Bytes :=
  records.flatMap LogRecord.line

/-- The records that end within the first `n` bytes. -/
def recordsWithin {format : WalFormat} : ℕ → List (LogRecord format) → List (LogRecord format)
  | _,[] => []
  | n,r :: records => if r.line.length ≤ n then r :: recordsWithin (n-r.line.length) records else []

theorem recordsWithin_nil {format : WalFormat} (n : ℕ) : recordsWithin n ([] : List (LogRecord format)) = [] := rfl

theorem recordsWithin_cons {format : WalFormat} (n : ℕ) (r : LogRecord format) (records : List (LogRecord format)) :
    recordsWithin n (r :: records) = if r.line.length ≤ n then r :: recordsWithin (n-r.line.length) records else [] := rfl

/-- An unencrypted log in a format of the build: its records in a row, behind the header. The last
line of a JSON log may lack its end. -/
structure ValidLog (format : WalFormat) where
  records : List (LogRecord format)
  unended : Bytes := []
  compiledIn : format.compiledIn = true
  line : unended ≠ [] → format = .json ∧ 0x0A ∉ unended ∧ (parseJsonLine unended).isSome

namespace ValidLog
variable {format : WalFormat}

def body (log : ValidLog format) : Bytes := recordLines log.records ++ log.unended
def bytes (log : ValidLog format) : Bytes := format.header ++ log.body

/-- The records wholly contained in the first `n` bytes of the log. -/
def within (log : ValidLog format) (n : ℕ) : List (LogRecord format) :=
  recordsWithin (n-format.header.length) log.records

end ValidLog

/-- What happens to a follower: it polls while the file is not there, cannot be opened, or shows
the first `n` bytes of the log; or it is dropped and a new one takes over at its offset. -/
inductive TailStep where
  | absent
  | unreadable (reason : String)
  | poll (n : ℕ) (fails : Option String)
  | resume

/-- How much of the log a step finds in the file. -/
def TailStep.size : TailStep → Option ℕ
  | .poll n _ => some n
  | _ => none

/-- How much of the log a step reads. -/
def TailStep.seen : TailStep → Option ℕ
  | .poll n none => some n
  | _ => none

/-- A follower with what its polls have returned, and the errors of those that failed. -/
structure Following where
  tailer : WalTailer := {}
  returned : List WalOp := []
  errors : List PollError := []

namespace Following

def polled (f : Following) (seen : FileSeen) : Following :=
  match f.tailer.poll seen with
  | (.ok ops,tailer) => { f with tailer, returned := f.returned ++ ops }
  | (.error err,tailer) => { f with tailer, errors := f.errors ++ [err] }

def step (file : Bytes) (f : Following) : TailStep → Following
  | .absent => f.polled .absent
  | .unreadable reason => f.polled (.unreadable reason)
  | .poll n fails => f.polled (.file (file.take n) fails)
  | .resume => { f with tailer := .resumeAt f.tailer.offset }

def run (file : Bytes) (f : Following) (steps : List TailStep) : Following :=
  steps.foldl (step file) f

end Following

/-- The steps find a file that only grows. -/
def TailStep.Growing (steps : List TailStep) : Prop := (steps.filterMap TailStep.size).Pairwise (· ≤ ·)

/-- How much of the log the last poll that succeeded has seen. -/
def TailStep.lastSeen (steps : List TailStep) : ℕ := ((steps.filterMap TailStep.seen).getLast?).getD 0

/-! ## Records -/

variable {format : WalFormat}

@[simp] theorem recordLines_cons (r : LogRecord format) (records : List (LogRecord format)) :
    recordLines (r :: records) = r.line ++ recordLines records := rfl

@[simp] theorem recordLines_append (as bs : List (LogRecord format)) :
    recordLines (as ++ bs) = recordLines as ++ recordLines bs :=
  List.flatMap_append

theorem LogRecord.text (r : LogRecord .json) :
    ∃ text, r.line = text ++ [0x0A] ∧ 0x0A ∉ text ∧ parseJsonLine text = some r.ops := by
  obtain ⟨text,hline⟩ := List.getLast?_eq_some_iff.mp (r.ended rfl)
  have hread := r.reads
  have hnot : 0x0A ∉ text := by
    intro hmem
    -- the record would end at the first newline, before the end of the line
    rw [hline,readRecord_json_append hmem] at hread
    have hnext := readRecord_next (List.length_pos_of_mem hmem) (congrArg Record.next? hread)
    rw [List.length_append,List.length_singleton] at hnext
    omega
  refine ⟨text,hline,hnot,?_⟩
  rw [hline,Entry.readRecord_text hnot] at hread
  cases hp : parseJsonLine text with
  | none =>
    rw [hp] at hread
    cases hread
  | some ops =>
    rw [hp] at hread
    injection hread with hops
    rw [hops]

theorem LogRecord.line_ne_nil (r : LogRecord format) : r.line ≠ [] := by
  intro hnil
  by_cases hf : format = .json
  · have hend := r.ended hf
    rw [hnil] at hend
    cases hend
  · have hread := r.reads
    rw [hnil] at hread
    simp [readRecord,hf,frameLen] at hread

theorem recordsWithin_zero (records : List (LogRecord format)) : recordsWithin 0 records = [] := by
  cases records with
  | nil => rfl
  | cons r records =>
    have hpos := List.length_pos_iff.mpr r.line_ne_nil
    rw [recordsWithin_cons,if_neg (by omega)]

theorem recordsWithin_prefix (n : ℕ) (records : List (LogRecord format)) :
    recordsWithin n records <+: records := by
  induction records generalizing n with
  | nil => exact List.prefix_rfl
  | cons r records ih =>
    rw [recordsWithin_cons]
    split_ifs with hle
    · exact (List.prefix_cons_inj r).mpr (ih _)
    · exact List.nil_prefix

theorem recordsWithin_length (n : ℕ) (records : List (LogRecord format)) :
    (recordLines (recordsWithin n records)).length ≤ n := by
  induction records generalizing n with
  | nil => exact Nat.zero_le n
  | cons r records ih =>
    rw [recordsWithin_cons]
    split_ifs with hle
    · have hrest := ih (n-r.line.length)
      simp only [recordLines_cons,List.length_append]
      omega
    · exact Nat.zero_le n

theorem recordsWithin_append {n : ℕ} (done rest : List (LogRecord format))
    (h : (recordLines done).length ≤ n) :
    recordsWithin n (done ++ rest) = done ++ recordsWithin (n-(recordLines done).length) rest := by
  induction done generalizing n with
  | nil => rfl
  | cons r done ih =>
    simp only [recordLines_cons,List.length_append] at h
    rw [List.cons_append,recordsWithin_cons,if_pos (by omega),ih (by omega)]
    simp [Nat.sub_sub]

/-- A part of a record, or of the line that lacks its end. -/
def Torn (format : WalFormat) (unended cut : Bytes) : Prop :=
  cut <+: unended ∨ ∃ r : LogRecord format, cut <+: r.line ∧ cut.length < r.line.length

theorem take_recordLines (n : ℕ) (records : List (LogRecord format)) (unended : Bytes) :
    ∃ cut, (recordLines records ++ unended).take n = recordLines (recordsWithin n records) ++ cut ∧
      Torn format unended cut := by
  induction records generalizing n with
  | nil => exact ⟨unended.take n,rfl,.inl (List.take_prefix _ _)⟩
  | cons r records ih =>
    rw [recordsWithin_cons]
    split_ifs with hle
    · obtain ⟨cut,hcut,htorn⟩ := ih (n-r.line.length)
      refine ⟨cut,?_,htorn⟩
      simp only [recordLines_cons,List.append_assoc]
      rw [List.take_append,hcut,List.take_of_length_le hle]
    · refine ⟨r.line.take n,?_,.inr ⟨r,List.take_prefix _ _,?_⟩⟩
      · simp only [recordLines_cons,List.append_assoc]
        rw [List.take_append_of_le_length (by omega)]
        rfl
      · rw [List.length_take]
        omega

/-! ## One poll -/

theorem readRecord_torn (hf : format ≠ .json) {cut : Bytes} (r : LogRecord format) (hcut : cut <+: r.line)
    (hlt : cut.length < r.line.length) : readRecord format cut 0 = .incomplete := by
  by_contra hread
  obtain ⟨more,hmore⟩ := hcut
  have hwhole := readRecord_frame_append hf hread more
  rw [hmore,r.reads] at hwhole
  by_cases hne : 0 < cut.length
  · have hnext := readRecord_next hne (congrArg Record.next? hwhole.symm)
    omega
  · apply hread
    rw [List.eq_nil_of_length_eq_zero (by omega : cut.length = 0)]
    simp [readRecord,hf,frameLen]

section Frames
variable {buf : Bytes} {pos next : ℕ} (hpos : pos < buf.length)
include hpos

theorem pollFrames_at : pollFrames format buf pos =
    match readRecord format buf pos with
    | .ops ops next => (ops ++ (pollFrames format buf next).1,(pollFrames format buf next).2)
    | .invalid next => pollFrames format buf next
    | .incomplete => ([],pos) := by
  rw [pollFrames,dif_pos hpos]
  split <;> simp_all

theorem pollFrames_ops {ops : List WalOp} (h : readRecord format buf pos = .ops ops next) :
    pollFrames format buf pos = (ops ++ (pollFrames format buf next).1,(pollFrames format buf next).2) := by
  rw [pollFrames_at hpos,h]

theorem pollFrames_incomplete (h : readRecord format buf pos = .incomplete) :
    pollFrames format buf pos = ([],pos) := by
  rw [pollFrames_at hpos,h]

end Frames

/-- The frames of whole records, and a part of the next one that is left where it is. -/
theorem pollFrames_records (hf : format ≠ .json) (records : List (LogRecord format)) {cut : Bytes}
    (hcut : cut = [] ∨ readRecord format cut 0 = .incomplete) (front : Bytes) :
    pollFrames format (front ++ (recordLines records ++ cut)) front.length =
      (records.flatMap LogRecord.ops,front.length+(recordLines records).length) := by
  induction records generalizing front with
  | nil =>
    have hrest : (front ++ (recordLines ([] : List (LogRecord format)) ++ cut)).drop front.length = cut :=
      List.drop_left
    by_cases hne : cut = []
    · rw [pollFrames,dif_neg]
      · rfl
      · simp [recordLines,hne]
    · have hpos : front.length < (front ++ (recordLines ([] : List (LogRecord format)) ++ cut)).length := by
        have hlen := List.length_pos_iff.mpr hne
        simp [recordLines,hlen]
      rw [pollFrames_incomplete hpos]
      · rfl
      · rw [readRecord_drop format hpos.le,hrest,hcut.resolve_left hne]
        rfl
  | cons r records ih =>
    have hlen := List.length_pos_iff.mpr r.line_ne_nil
    have hread : readRecord format (r.line ++ (recordLines records ++ cut)) 0 = .ops r.ops r.line.length := by
      rw [readRecord_frame_append hf,r.reads]
      rw [r.reads]
      simp
    have hbuf : front ++ (recordLines (r :: records) ++ cut) =
        front ++ r.line ++ (recordLines records ++ cut) := by simp
    have hpos : front.length < (front ++ r.line ++ (recordLines records ++ cut)).length := by
      simp only [List.length_append]
      omega
    have hat : readRecord format (front ++ r.line ++ (recordLines records ++ cut)) front.length =
        .ops r.ops (front ++ r.line).length := by
      rw [readRecord_drop format hpos.le,List.append_assoc,List.drop_left,hread]
      simp [Record.shift]
    rw [hbuf,pollFrames_ops hpos hat,ih]
    simp [Nat.add_assoc]

omit [LogCodec] in
theorem findIdx?_reverse_none {cut : Bytes} (hcut : 0x0A ∉ cut) :
    cut.reverse.findIdx? (fun c => c = 0x0A) = none := by
  simp only [List.findIdx?_eq_none_iff,List.mem_reverse]
  intro b hb
  simpa using fun heq : b = 0x0A => hcut (heq ▸ hb)

omit [LogCodec] in
theorem rposition_none {cut : Bytes} (hcut : 0x0A ∉ cut) : rposition 0x0A cut = none := by
  rw [rposition,findIdx?_reverse_none hcut]
  rfl

omit [LogCodec] in
theorem rposition_concat {cut : Bytes} (hcut : 0x0A ∉ cut) (text : Bytes) :
    rposition 0x0A (text ++ [0x0A] ++ cut) = some text.length := by
  have hidx : (text ++ [0x0A] ++ cut).reverse.findIdx? (fun c => c = 0x0A) = some cut.length := by
    rw [List.reverse_append,List.findIdx?_append,findIdx?_reverse_none hcut]
    simp [List.findIdx?_cons]
  rw [rposition,hidx]
  simp

theorem splitOn_records (records : List (LogRecord .json)) :
    ((recordLines records).splitOn 0x0A).flatMap
        (fun line => if line.isEmpty then [] else (parseJsonLine line).getD []) =
      records.flatMap LogRecord.ops := by
  induction records with
  | nil => rfl
  | cons r records ih =>
    obtain ⟨text,hline,hnot,hparse⟩ := r.text
    -- an empty line is skipped, and holds nothing
    have htext : (if text.isEmpty then [] else (parseJsonLine text).getD []) = r.ops := by
      cases text with
      | nil => exact Option.some.inj hparse
      | cons b text =>
        rw [hparse]
        rfl
    rw [recordLines_cons,hline,List.append_assoc,List.singleton_append,
      List.splitOn_append_cons_self_of_not_mem hnot,List.flatMap_cons,ih,List.flatMap_cons,htext]

theorem pollLines_records (records : List (LogRecord .json)) {cut : Bytes} (hcut : 0x0A ∉ cut) :
    pollLines (recordLines records ++ cut) =
      (records.flatMap LogRecord.ops,(recordLines records).length) := by
  rcases List.eq_nil_or_concat records with rfl | ⟨front,r,rfl⟩
  · simp [pollLines,recordLines,rposition_none hcut]
  · obtain ⟨text,hline,hnot,hparse⟩ := r.text
    have hlines : recordLines (front ++ [r]) = recordLines front ++ text ++ [0x0A] := by
      simp [recordLines,hline]
    have hlast := rposition_concat hcut (recordLines front ++ text)
    have htake : (recordLines (front ++ [r]) ++ cut).take ((recordLines front ++ text).length+1) =
        recordLines (front ++ [r]) := by
      rw [List.take_append_of_le_length (by simp [hlines]),List.take_of_length_le (by simp [hlines]; omega)]
    rw [← hlines] at hlast
    simp only [pollLines,List.concat_eq_append,hlast,htake,splitOn_records]

/-- The text of an entry does not begin as a header does. -/
def EntryTexts : Prop := ∀ text : Bytes, text.head? = some 0x44 → LogCodec.opFromStr text = none

theorem parse_letter (hlaw : EntryTexts) (rest : Bytes) : parseJsonLine (0x44 :: rest) = none := by
  have hspace : ∀ c ∈ whitespace, c ≠ [] ∧ (0x44 : UInt8) ∉ c := by decide +kernel
  obtain ⟨kept,hkept,_⟩ := trimEnd_head hspace rest
  have htrim : trimStart (0x44 :: rest) = 0x44 :: rest := dropSpelled_head hspace _ rest
  have hnone := hlaw (0x44 :: kept) rfl
  simp only [parseJsonLine,htrim,hkept,hnone]
  split_ifs <;> simp_all

namespace ValidLog
variable (log : ValidLog format)

theorem body_first (hlaw : EntryTexts) (hf : format = .json) : log.body.head? ≠ some 0x44 := by
  subst hf
  intro hhead
  cases hrec : log.records with
  | nil =>
    simp only [body,hrec,recordLines,List.flatMap_nil,List.nil_append] at hhead
    obtain ⟨rest,hrest⟩ := List.head?_eq_some_iff.mp hhead
    have hparse := (log.line (by simp [hrest])).2.2
    rw [hrest,parse_letter hlaw] at hparse
    cases hparse
  | cons r records =>
    obtain ⟨text,hline,hnot,hparse⟩ := r.text
    simp only [body,hrec,recordLines_cons,hline] at hhead
    cases text with
    | nil => cases hhead
    | cons b text =>
      have hb : b = 0x44 := Option.some.inj hhead
      rw [hb,parse_letter hlaw] at hparse
      cases hparse

omit [LogCodec] in
theorem header_length (hf : format ≠ .json) : format.header.length = headerLen := by
  simp [WalFormat.header,hf,magic,headerLen]

theorem detect_torn (hf : format ≠ .json) {n : ℕ} (hn : 0 < n) (hlt : n < headerLen) :
    detect (format.header.take n) = .ok .tornHeader := by
  have hlen : (format.header.take n).length = n := by
    rw [List.length_take,header_length hf]
    omega
  have hmagic : (format.header.take n).take magic.length = magic.take n := by
    simp only [WalFormat.header,hf,if_false,List.take_take]
    rw [List.take_append_of_le_length (by omega)]
    rcases Nat.le_total magic.length n with h | h
    · rw [min_eq_left h,List.take_length,List.take_of_length_le h]
    · rw [min_eq_right h]
  have hstarts : isHeaderPrefix (format.header.take n) = true := by
    simp [isHeaderPrefix,hmagic,hlen]
  have hne : format.header.take n ≠ [] := by
    intro hnil
    rw [hnil] at hlen
    simp at hlen
    omega
  simp [detect,hlen,hlt,hstarts,hne]

/-- A poll that looks for the format finds it, unless there is no record yet. -/
theorem known_take (hlaw : EntryTexts) {t : WalTailer} (ht : t.format = none) (n : ℕ) :
    (t.known (log.bytes.take n) = .ok none ∧ log.within n = []) ∨
      t.known (log.bytes.take n) =
        .ok (some (format,{ offset := max t.offset format.header.length, format := some format })) := by
  simp only [WalTailer.known,ht]
  by_cases hf : format = .json
  · have hbytes : log.bytes = log.body := by
      subst hf
      rfl
    have hfirst : ((log.bytes.take n).take headerLen).head? ≠ some 0x44 := by
      intro hhead
      apply log.body_first hlaw hf
      rw [hbytes,List.take_take,List.head?_take] at hhead
      split_ifs at hhead
      exact hhead
    simp only [detect_plain hfirst]
    by_cases hempty : ((log.bytes.take n).take headerLen) = []
    · left
      refine ⟨by simp [hempty],?_⟩
      cases hrec : log.records with
      | nil => rw [within,hrec,recordsWithin_nil]
      | cons r records =>
        -- a log with a record is not empty, so nothing of it is seen
        have hzero : n = 0 := by
          have hne := r.line_ne_nil
          simp only [List.take_eq_nil_iff,hbytes,body,hrec] at hempty
          simpa [headerLen,hne] using hempty
        rw [within,hzero,Nat.zero_sub,recordsWithin_zero]
    · right
      subst hf
      simp [hempty,WalFormat.header]
  · have hlen := header_length hf
    by_cases hn : n < headerLen
    · left
      have hwithin : log.within n = [] := by
        rw [within,hlen,Nat.sub_eq_zero_of_le hn.le,recordsWithin_zero]
      have htake : (log.bytes.take n).take headerLen = format.header.take n := by
        rw [List.take_take,min_eq_right hn.le,bytes,List.take_append_of_le_length (by omega)]
      rw [htake]
      by_cases hzero : n = 0
      · subst hzero
        exact ⟨rfl,hwithin⟩
      · simp only [detect_torn hf (Nat.pos_of_ne_zero hzero) hn]
        exact ⟨trivial,hwithin⟩
    · right
      have htake : (log.bytes.take n).take headerLen = format.header ++ [] := by
        rw [List.take_take,min_eq_left (by omega),bytes,← hlen,List.take_left,List.append_nil]
      have hne : format.header ≠ [] := List.ne_nil_of_length_pos (by rw [hlen]; decide)
      simp only [htake,detect_header log.compiledIn (fun h => absurd h hf)]
      simp [hne]

/-- A poll that reads on behind records that were read. -/
theorem read_take (rest : List (LogRecord format)) (n : ℕ) :
    (if format = .json then pollLines ((recordLines rest ++ log.unended).take n)
      else pollFrames format ((recordLines rest ++ log.unended).take n) 0) =
      ((recordsWithin n rest).flatMap LogRecord.ops,(recordLines (recordsWithin n rest)).length) := by
  obtain ⟨cut,hcut,htorn⟩ := take_recordLines n rest log.unended
  rw [hcut]
  by_cases hf : format = .json
  · subst hf
    have hnot : 0x0A ∉ cut := by
      intro hmem
      rcases htorn with hpre | ⟨r,hpre,hlt⟩
      · have hne : log.unended ≠ [] := List.ne_nil_of_mem (hpre.subset hmem)
        exact (log.line hne).2.1 (hpre.subset hmem)
      · obtain ⟨text,hline,htext,_⟩ := r.text
        rw [hline] at hpre hlt
        have hle : cut.length ≤ text.length := by
          simp only [List.length_append,List.length_singleton] at hlt
          omega
        exact htext ((List.prefix_of_prefix_length_le hpre (List.prefix_append _ _) hle).subset hmem)
    rw [if_pos rfl,pollLines_records _ hnot]
  · have hread : cut = [] ∨ readRecord format cut 0 = .incomplete := by
      rcases htorn with hpre | ⟨r,hpre,hlt⟩
      · left
        have hnil : log.unended = [] := by
          by_contra hne
          exact hf (log.line hne).1
        rw [hnil] at hpre
        exact List.prefix_nil.mp hpre
      · exact .inr (readRecord_torn hf r hpre hlt)
    have hpoll := pollFrames_records hf (recordsWithin n rest) hread []
    rw [if_neg hf]
    simpa using hpoll

theorem bytes_take_drop {done rest : List (LogRecord format)} (h : log.records = done ++ rest) (n : ℕ) :
    (log.bytes.take n).drop (format.header.length+(recordLines done).length) =
      (recordLines rest ++ log.unended).take (n-(format.header.length+(recordLines done).length)) := by
  have hbytes : log.bytes = (format.header ++ recordLines done) ++ (recordLines rest ++ log.unended) := by
    simp [bytes,body,h]
  rw [List.drop_take,hbytes,← List.length_append,List.drop_left]

end ValidLog

/-! ## All polls -/

namespace Following

/-- A follower that has read the records within the first `seen` bytes. -/
structure At (log : ValidLog format) (seen : ℕ) (f : Following) : Prop where
  returned : f.returned = (log.within seen).flatMap LogRecord.ops
  errors : ∀ err ∈ f.errors, ∃ reason, err = .io reason
  offset : max f.tailer.offset format.header.length =
    format.header.length+(recordLines (log.within seen)).length
  known : ∀ f', f.tailer.format = some f' → f' = format ∧ format.header.length ≤ f.tailer.offset

variable {log : ValidLog format} {f : Following} {seen : ℕ}

theorem At.initial (log : ValidLog format) : ({} : Following).At log 0 := by
  refine ⟨?_,?_,?_,?_⟩
  · simp [ValidLog.within,recordsWithin_zero]
  · intro err herr
    cases herr
  · simp [ValidLog.within,recordsWithin_zero,recordLines]
  · intro f' hf'
    cases hf'

theorem At.resume (h : f.At log seen) : (f.step log.bytes .resume).At log seen where
  returned := h.returned
  errors := h.errors
  offset := h.offset
  known f' hf' := by cases hf'

theorem At.io (h : f.At log seen) (reason : String) :
    ({ f with errors := f.errors ++ [.io reason] } : Following).At log seen where
  returned := h.returned
  errors err herr := by
    rcases List.mem_append.mp herr with herr | herr
    · exact h.errors err herr
    · exact ⟨reason,List.mem_singleton.mp herr⟩
  offset := h.offset
  known := h.known

theorem At.congr {seen' : ℕ} (h : f.At log seen) (heq : log.within seen' = log.within seen) : f.At log seen' where
  returned := by rw [heq,h.returned]
  errors := h.errors
  offset := by rw [heq,h.offset]
  known := h.known

theorem At.placed (h : f.At log seen) : ({ f with tailer :=
    { offset := format.header.length+(recordLines (log.within seen)).length, format := some format } } :
      Following).At log seen where
  returned := h.returned
  errors := h.errors
  offset := by simp
  known f' hf' := ⟨(Option.some.inj hf').symm,by simp⟩

theorem At.known_take (hlaw : EntryTexts) (h : f.At log seen) (n : ℕ) :
    (f.tailer.known (log.bytes.take n) = .ok none ∧ log.within n = []) ∨
      f.tailer.known (log.bytes.take n) = .ok (some (format,
        { offset := format.header.length+(recordLines (log.within seen)).length, format := some format })) := by
  cases hfmt : f.tailer.format with
  | none =>
    rw [← h.offset]
    exact log.known_take hlaw hfmt n
  | some f' =>
    right
    obtain ⟨rfl,hle⟩ := h.known f' hfmt
    have hoff := h.offset
    rw [max_eq_left hle] at hoff
    simp only [WalTailer.known,hfmt,← hoff]
    rw [← hfmt]

theorem within_more (log : ValidLog format) {n : ℕ} (hn : seen ≤ n) : ∃ rest, log.records = log.within seen ++ rest ∧
    log.within n = log.within seen ++
      recordsWithin (n-(format.header.length+(recordLines (log.within seen)).length)) rest := by
  obtain ⟨rest,hrest⟩ := recordsWithin_prefix (seen-format.header.length) log.records
  have hlen := recordsWithin_length (seen-format.header.length) log.records
  refine ⟨rest,hrest.symm,?_⟩
  have hmore := recordsWithin_append (n := n-format.header.length) (log.within seen) rest
    (hlen.trans (by omega))
  rw [Nat.sub_sub] at hmore
  rw [← hmore]
  simp only [ValidLog.within,hrest]

theorem At.polled (hlaw : EntryTexts) (h : f.At log seen) {n : ℕ} (hn : seen ≤ n) :
    (f.polled (.file (log.bytes.take n) none)).At log n := by
  obtain ⟨rest,hrec,hmore⟩ := within_more log hn
  rcases h.known_take hlaw n with ⟨hnone,hempty⟩ | hknown
  · have hseen : log.within seen = [] := by
      rw [hempty] at hmore
      exact (List.append_eq_nil_iff.mp hmore.symm).1
    simp only [Following.polled,WalTailer.poll,hnone,List.append_nil]
    exact h.congr (hempty.trans hseen.symm)
  · have hread := log.read_take rest (n-(format.header.length+(recordLines (log.within seen)).length))
    have hbuf := log.bytes_take_drop hrec n
    have hlen : (recordLines (log.within n)).length = (recordLines (log.within seen)).length +
        (recordLines (recordsWithin (n-(format.header.length+(recordLines (log.within seen)).length)) rest)).length := by
      rw [hmore,recordLines_append,List.length_append]
    simp only [Following.polled,WalTailer.poll,hknown,hbuf,hread]
    refine ⟨?_,h.errors,?_,?_⟩
    · simp only [h.returned,hmore,List.flatMap_append]
    · simp only
      omega
    · intro f' hf'
      exact ⟨(Option.some.inj hf').symm,by simp only; omega⟩

theorem At.failed (hlaw : EntryTexts) (h : f.At log seen) (n : ℕ) (reason : String) :
    (f.polled (.file (log.bytes.take n) (some reason))).At log seen := by
  rcases h.known_take hlaw n with ⟨hnone,_⟩ | hknown
  · simp only [Following.polled,WalTailer.poll,hnone,List.append_nil]
    exact h
  · simp only [Following.polled,WalTailer.poll,hknown]
    exact h.placed.io reason

theorem At.run (hlaw : EntryTexts) (h : f.At log seen) {steps : List TailStep} (hgrow : TailStep.Growing steps)
    (hmore : ∀ n ∈ steps.filterMap TailStep.size, seen ≤ n) :
    (f.run log.bytes steps).At log (((steps.filterMap TailStep.seen).getLast?).getD seen) := by
  induction steps generalizing f seen with
  | nil => exact h
  | cons step steps ih =>
    cases step with
    | absent =>
      have hsame : f.step log.bytes .absent = f := by
        simp [Following.step,Following.polled,WalTailer.poll]
      simp only [Following.run,List.foldl_cons,hsame]
      exact ih h hgrow hmore
    | unreadable reason => exact ih (h.io reason) hgrow hmore
    | resume => exact ih h.resume hgrow hmore
    | poll n fails =>
      obtain ⟨hfirst,hrest⟩ := List.pairwise_cons.mp hgrow
      have hn : seen ≤ n := hmore n (by simp [TailStep.size])
      cases fails with
      | none =>
        have hlast : (((TailStep.poll n none :: steps).filterMap TailStep.seen).getLast?).getD seen =
            ((steps.filterMap TailStep.seen).getLast?).getD n := by
          simp [TailStep.seen,List.getLast?_cons]
        rw [hlast]
        exact ih (h.polled hlaw hn) hrest hfirst
      | some reason =>
        exact ih (h.failed hlaw n reason) hrest (fun m hm => hmore m (by simp [TailStep.size,hm]))

/-- A follower that polls a growing log returns the records wholly contained in what it has last
seen of it, in their order and each once, whatever the schedule of polls and wherever another
follower takes over. Nothing but the file itself makes a poll fail. -/
theorem run_returns (hlaw : EntryTexts) (log : ValidLog format) {steps : List TailStep}
    (hgrow : TailStep.Growing steps) :
    (({} : Following).run log.bytes steps).returned =
        (log.within (TailStep.lastSeen steps)).flatMap LogRecord.ops ∧
      ∀ err ∈ (({} : Following).run log.bytes steps).errors, ∃ reason, err = .io reason := by
  have h := (At.initial log).run hlaw hgrow (fun n _ => Nat.zero_le n)
  exact ⟨h.returned,h.errors⟩

end Following
end

section Sample
attribute [local instance] deletionCodec

theorem deletion_texts : EntryTexts := by
  intro text htext
  refine Option.map_eq_none_iff.mpr (List.find?_eq_none.mpr ?_)
  intro id _ heq
  rw [← of_decide_eq_true heq] at htext
  cases htext

/-- The deletion of a node as a log has it. -/
def deletionRecord (id : Fin 10) : LogRecord .json where
  line := deletionText id ++ [0x0A]
  ops := [.graph (.deleteNode id)]
  reads := by
    revert id
    decide +kernel
  ended _ := by simp

/-- A log of two deletions, with a third whose line has no end yet. -/
def deletionLog : ValidLog .json where
  records := [deletionRecord 1,deletionRecord 2]
  unended := deletionText 3
  compiledIn := rfl
  line _ := by decide +kernel

/-- The first poll finds one record and a part of the next, the second fails, and another follower
takes over. -/
theorem run_returns_sample :
    (({} : Following).run deletionLog.bytes
      [.absent,.poll 0 none,.poll 20 none,.poll 30 (some "interrupted"),.resume,.poll 40 none]).returned =
        [.graph (.deleteNode 1),.graph (.deleteNode 2)] := by
  refine (Following.run_returns deletion_texts deletionLog ?_).1.trans ?_
  · simp only [TailStep.Growing]
    decide
  · decide +kernel

end Sample
end Drevo
