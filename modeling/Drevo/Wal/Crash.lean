import Drevo.Wal.Lines
import Drevo.Wal.Sealed

/-! A store that is opened after a crash, written to, and opened again. The crash leaves the
acknowledged records and any number of bytes of a batch that was being flushed. -/
namespace Drevo

/-- The size of the chunks the store reads its log in. -/
def replayChunk : ℕ := 4*2^20

/-- The log of an open store: the file, the format its records are appended in, and what
reading it applied to the graph. -/
structure OpenedLog where
  file : Bytes
  format : WalFormat
  applied : List WalOp
  deriving DecidableEq

section
variable [LogCodec] {format : WalFormat}

/-- Open the log at a path; `format` is that of a new log. A torn tail is cut off, and a log
that holds no record yet is started over. -/
def openLog (format : WalFormat) (file : Bytes) : Except LogError OpenedLog :=
  match replay replayChunk file with
  | .error err => .error err
  | .ok (.tornHeader,applied) => .ok ⟨format.header,format,applied⟩
  | .ok (.empty,applied) => .ok ⟨file ++ format.header,format,applied⟩
  | .ok (.log found validEnd torn _,applied) =>
    .ok ⟨if torn then file.take validEnd else file,found,applied⟩

namespace OpenedLog

def append (log : OpenedLog) (ops : List WalOp) : Option OpenedLog :=
  (encodeRecord log.format ops).map (fun line => { log with file := log.file ++ line })

def appendAll (log : OpenedLog) : List (List WalOp) → Option OpenedLog
  | [] => some log
  | ops :: rest => (log.append ops).bind (fun log => log.appendAll rest)

end OpenedLog

/-! ## Records in a row -/

def lines (es : List (Entry format)) : Bytes := es.flatMap Entry.line

def opsOf (es : List (Entry format)) : List WalOp := es.flatMap Entry.ops

/-- What the records of a list decode to. -/
def decodedOps (es : List (Entry format)) : List WalOp := es.flatMap (fun e => e.decoded.getD [])

@[simp] theorem lines_append (as bs : List (Entry format)) : lines (as ++ bs) = lines as ++ lines bs :=
  List.flatMap_append

@[simp] theorem lines_cons (e : Entry format) (es : List (Entry format)) : lines (e :: es) = e.line ++ lines es := rfl

@[simp] theorem opsOf_append (as bs : List (Entry format)) : opsOf (as ++ bs) = opsOf as ++ opsOf bs :=
  List.flatMap_append

@[simp] theorem opsOf_cons (e : Entry format) (es : List (Entry format)) : opsOf (e :: es) = e.ops ++ opsOf es := rfl

@[simp] theorem decodedOps_append (as bs : List (Entry format)) :
    decodedOps (as ++ bs) = decodedOps as ++ decodedOps bs := List.flatMap_append

@[simp] theorem decodedOps_cons (e : Entry format) (es : List (Entry format)) :
    decodedOps (e :: es) = e.decoded.getD [] ++ decodedOps es := rfl

theorem opsOf_pos (e : Entry format) (es : List (Entry format)) : 0 < (opsOf (e :: es)).length := by
  have hpos := List.length_pos_iff.mpr e.nonempty
  rw [opsOf_cons,List.length_append]
  omega

theorem decodedOps_reads {es : List (Entry format)} (h : ∀ e ∈ es, e.Reads) : decodedOps es = opsOf es := by
  induction es with
  | nil => rfl
  | cons e es ih =>
    have he : e.decoded = some e.ops := h e (by simp)
    rw [decodedOps_cons,opsOf_cons,he,ih (fun d hd => h d (by simp [hd]))]
    rfl

section Decoded
variable {es : List (Entry format)} (hl : ∀ e ∈ es, e.Lawful) (hd : ∀ e ∈ es, e.decoded ≠ none)
include hl hd

theorem decodedOps_length : (decodedOps es).length = (opsOf es).length := by
  induction es with
  | nil => rfl
  | cons e es ih =>
    obtain ⟨ops,hops⟩ := Option.ne_none_iff_exists'.mp (hd e (by simp))
    have hcount := Entry.count (hl e (by simp)) hops
    rw [decodedOps_cons,opsOf_cons,List.length_append,List.length_append,hops,
      ih (fun d hd => hl d (by simp [hd])) (fun d h => hd d (by simp [h]))]
    simp [hcount]

theorem reads_of_decodedOps {x y : List WalOp} (h : decodedOps es ++ x = opsOf es ++ y) :
    (∀ e ∈ es, e.Reads) ∧ x = y := by
  induction es with
  | nil => exact ⟨by simp,h⟩
  | cons e es ih =>
    obtain ⟨ops,hops⟩ := Option.ne_none_iff_exists'.mp (hd e (by simp))
    have hcount := Entry.count (hl e (by simp)) hops
    rw [decodedOps_cons,opsOf_cons,hops,List.append_assoc,List.append_assoc] at h
    obtain ⟨hsame,hrest⟩ := List.append_inj h (by simpa using hcount)
    obtain ⟨hes,hxy⟩ := ih (fun d hd => hl d (by simp [hd])) (fun d h => hd d (by simp [h])) hrest
    refine ⟨?_,hxy⟩
    intro d hmem
    rcases List.mem_cons.mp hmem with rfl | hmem
    · rw [Entry.Reads,hops]
      exact congrArg some hsame
    · exact hes d hmem

theorem scan_lines (validEnd : ℕ) (rest : Bytes) : scan format validEnd (lines es ++ rest) =
    (scan format (validEnd+(lines es).length) rest).map
      (fun r => { r with applied := decodedOps es ++ r.applied }) := by
  induction es generalizing validEnd with
  | nil =>
    simp only [lines,List.flatMap_nil,List.nil_append,List.length_nil,Nat.add_zero,decodedOps]
    cases scan format validEnd rest <;> rfl
  | cons e es ih =>
    obtain ⟨ops,hops⟩ := Option.ne_none_iff_exists'.mp (hd e (by simp))
    rw [lines_cons,List.append_assoc,Entry.scan_decoded (hl e (by simp)) validEnd _ hops,
      ih (fun d hd => hl d (by simp [hd])) (fun d h => hd d (by simp [h])),List.length_append,Nat.add_assoc]
    cases scan format (validEnd+(e.line.length+(lines es).length)) rest with
    | error err => rfl
    | ok r => simp [Except.map,hops]

end Decoded

theorem scan_reads {es : List (Entry format)} (hl : ∀ e ∈ es, e.Lawful) (hr : ∀ e ∈ es, e.Reads) (validEnd : ℕ)
    (rest : Bytes) : scan format validEnd (lines es ++ rest) =
      (scan format (validEnd+(lines es).length) rest).map
        (fun r => { r with applied := opsOf es ++ r.applied }) := by
  have hd : ∀ e ∈ es, e.decoded ≠ none := by
    intro e he
    rw [show e.decoded = some e.ops from hr e he]
    simp
  rw [scan_lines hl hd,decodedOps_reads hr]

/-- If a log reads, at most the last of its records does not decode, and then nothing follows it. -/
theorem scan_lines_ok {es : List (Entry format)} (hl : ∀ e ∈ es, e.Lawful) {validEnd : ℕ} {rest : Bytes} {r : Found}
    (h : scan format validEnd (lines es ++ rest) = .ok r) :
    (∀ e ∈ es, e.decoded ≠ none) ∨
      ∃ front last, es = front ++ [last] ∧ (∀ e ∈ front, e.decoded ≠ none) ∧ last.decoded = none ∧
        follows format rest = false ∧ r = ⟨validEnd+(lines front).length,true,decodedOps front⟩ := by
  induction es generalizing validEnd r with
  | nil => exact Or.inl (by simp)
  | cons e es ih =>
    rw [lines_cons,List.append_assoc] at h
    cases hd : e.decoded with
    | none =>
      rw [Entry.scan_undecoded (hl e (by simp)) validEnd _ hd] at h
      cases es with
      | nil =>
        have hrest : lines ([] : List (Entry format)) ++ rest = rest := rfl
        rw [hrest] at h
        split_ifs at h with hf
        refine Or.inr ⟨[],e,rfl,by simp,hd,by simpa using hf,?_⟩
        cases h
        rfl
      | cons d es =>
        have hf := Entry.follows_line (hl d (by simp)) (List.length_pos_iff.mpr d.line_ne_nil) (lines es ++ rest)
        rw [List.take_length] at hf
        rw [lines_cons,List.append_assoc,if_pos hf] at h
        cases h
    | some ops =>
      rw [Entry.scan_decoded (hl e (by simp)) validEnd _ hd] at h
      cases hs : scan format (validEnd+e.line.length) (lines es ++ rest) with
      | error err =>
        rw [hs] at h
        cases h
      | ok r' =>
        rw [hs] at h
        have hr : r = { r' with applied := ops ++ r'.applied } := (Except.ok.inj h).symm
        rcases ih (fun d hd => hl d (by simp [hd])) hs with hall | ⟨front,last,rfl,hfront,hlast,hf,rfl⟩
        · refine Or.inl ?_
          intro d hmem
          rcases List.mem_cons.mp hmem with rfl | hmem
          · rw [hd]
            simp
          · exact hall d hmem
        · refine Or.inr ⟨e :: front,last,rfl,?_,hlast,hf,?_⟩
          · intro d hmem
            rcases List.mem_cons.mp hmem with rfl | hmem
            · rw [hd]
              simp
            · exact hfront d hmem
          · rw [hr]
            simp [hd,Nat.add_assoc]

/-! ## Opening a log of records -/

theorem detect_plain {body : Bytes} (hfirst : body.head? ≠ some 0x44) :
    detect body = .ok (.log .json 0 false) := by
  have hmagic : ∀ n, 0 < n → body.take magic.length ≠ magic.take n := by
    intro n hn heq
    apply hfirst
    have hhead := congrArg List.head? heq
    cases body with
    | nil => simp [magic] at heq; omega
    | cons b body =>
      obtain ⟨n,rfl⟩ := Nat.exists_eq_add_of_lt hn
      simpa [magic] using hhead
  simp only [detect]
  by_cases hl : body.length < headerLen
  · rw [if_pos hl]
    cases body with
    | nil => rfl
    | cons b rest =>
      have hno : isHeaderPrefix (b :: rest) = false := by
        simpa [isHeaderPrefix] using hmagic (b :: rest).length (by simp)
      simp [hno]
  · rw [if_neg hl,if_pos]
    exact hmagic magic.length (by decide)

theorem detect_header (hc : format.compiledIn = true) {body : Bytes}
    (hb : format = .json → ∀ b, body.head? = some b → isBracket b = true) :
    detect (format.header ++ body) = .ok (.log format format.header.length false) := by
  by_cases hf : format = .json
  · subst hf
    have hfirst : body.head? ≠ some 0x44 := by
      intro h
      exact absurd (hb rfl _ h) (by decide)
    exact detect_plain hfirst
  · have hlen : headerLen ≤ format.header.length := by
      rw [WalFormat.header,if_neg hf]
      simp [magic,headerLen]
    rw [detect_append hlen]
    cases format <;> first
      | exact absurd rfl hf
      | simp [detect,WalFormat.header,magic,headerLen,headerVersion,sealedVersion,WalFormat.tag,hc]

theorem scan_validEnd {validEnd : ℕ} {bytes : Bytes} {r : Found} (h : scan format validEnd bytes = .ok r) :
    validEnd ≤ r.validEnd := by
  induction validEnd, bytes using scan.induct format generalizing r with
  | case1 validEnd =>
    rw [scan_nil] at h
    cases h
    exact le_refl _
  | case2 validEnd bytes hb ops next hread ih =>
    rw [scan_ops hb hread] at h
    cases hs : scan format (validEnd+next) (bytes.drop next) with
    | error err =>
      rw [hs] at h
      cases h
    | ok r' =>
      rw [hs] at h
      cases h
      have hle := ih hs
      simp only
      omega
  | case3 validEnd bytes hb hread =>
    rw [scan_incomplete hb hread] at h
    cases h
    exact le_refl _
  | case4 validEnd bytes hb next hread hf =>
    rw [scan_invalid hb hread,if_pos hf] at h
    cases h
  | case5 validEnd bytes hb next hread hf =>
    rw [scan_invalid hb hread,if_neg hf] at h
    cases h
    exact le_refl _

/-- What stays of the records of a log once it is open. -/
def Found.kept (r : Found) (start : ℕ) (body : Bytes) : Bytes := if r.torn then body.take (r.validEnd-start) else body

theorem openLog_body (hc : format.compiledIn = true) {body : Bytes}
    (hb : format = .json → ∀ b, body.head? = some b → isBracket b = true) :
    openLog format (format.header ++ body) = (scan format format.header.length body).map (fun r =>
      ⟨format.header ++ r.kept format.header.length body,format,r.applied⟩) := by
  rw [openLog,replay_eq,replayWhole,detect_header hc hb]
  simp only
  by_cases he : (format.header ++ body).isEmpty = true
  · rw [if_pos he]
    have hnil : format.header = [] ∧ body = [] := by simpa using he
    rw [hnil.1,hnil.2,scan_nil]
    rfl
  · rw [if_neg he,if_neg (by simp),List.drop_left]
    cases hs : scan format format.header.length body with
    | error err => rfl
    | ok r =>
      have hle := scan_validEnd hs
      simp only [Except.map,Found.kept]
      split_ifs
      · rw [List.take_append,List.take_of_length_le hle]
      · rfl

theorem appendAll_lines {log : OpenedLog} (hf : log.format = format) (es : List (Entry format)) :
    log.appendAll (es.map Entry.ops) = some { log with file := log.file ++ lines es } := by
  induction es generalizing log with
  | nil => simp [OpenedLog.appendAll,lines]
  | cons e es ih =>
    have henc : log.append e.ops = some { log with file := log.file ++ e.line } := by
      rw [OpenedLog.append,hf,e.encoded]
      rfl
    rw [List.map_cons,OpenedLog.appendAll,henc,Option.bind_some,ih (by exact hf)]
    simp

theorem lines_bracket {es : List (Entry format)} (hl : ∀ e ∈ es, e.Lawful) {rest : Bytes} (hf : format = .json)
    (hrest : ∀ b, rest.head? = some b → isBracket b = true) :
    ∀ b, (lines es ++ rest).head? = some b → isBracket b = true := by
  subst hf
  cases es with
  | nil => exact hrest
  | cons e es =>
    obtain ⟨b,text,hp,hb,-⟩ := Entry.payload_cons ((hl e (by simp)).json rfl)
    intro c hc
    rw [lines_cons,Entry.line_json,hp] at hc
    obtain rfl : b = c := by simpa using hc
    exact hb

/-! ## The crash -/

/-- The records of a batch that are whole in its first `n` bytes, and the one that is cut with
the number of its bytes that are there. -/
def cutAt : List (Entry format) → ℕ → List (Entry format) × Option (Entry format × ℕ)
  | [],_ => ([],none)
  | e :: rest,n =>
    if e.line.length ≤ n then
      let r := cutAt rest (n-e.line.length)
      (e :: r.1,r.2)
    else ([],if n = 0 then none else some (e,n))

/-- The bytes of the record that is cut. -/
def cutBytes : Option (Entry format × ℕ) → Bytes
  | none => []
  | some (e,m) => e.line.take m

theorem cutAt_spec (batch : List (Entry format)) (n : ℕ) :
    (lines batch).take n = lines (cutAt batch n).1 ++ cutBytes (cutAt batch n).2 ∧ (cutAt batch n).1 <+: batch ∧
      ∀ e m, (cutAt batch n).2 = some (e,m) →
        0 < m ∧ m < e.line.length ∧ (cutAt batch n).1 ++ [e] <+: batch := by
  induction batch generalizing n with
  | nil => simp [cutAt,lines,cutBytes]
  | cons e batch ih =>
    simp only [cutAt]
    by_cases hle : e.line.length ≤ n
    · rw [if_pos hle]
      obtain ⟨htake,hstart,hcut⟩ := ih (n-e.line.length)
      refine ⟨?_,?_,?_⟩
      · rw [lines_cons,List.take_append,List.take_of_length_le hle,htake]
        simp
      · exact (List.prefix_cons_inj e).mpr hstart
      · intro d m hd
        obtain ⟨hm,hlt,hp⟩ := hcut d m hd
        exact ⟨hm,hlt,(List.prefix_cons_inj e).mpr hp⟩
    · rw [if_neg hle]
      have htake : (lines (e :: batch)).take n = e.line.take n := by
        rw [lines_cons,List.take_append_of_le_length (by omega)]
      refine ⟨?_,List.nil_prefix,?_⟩
      · rw [htake]
        split_ifs with hn
        · simp [hn,lines,cutBytes]
        · simp [lines,cutBytes]
      · intro d m hd
        split_ifs at hd with hn
        obtain ⟨rfl,rfl⟩ : e = d ∧ n = m := by simpa using hd
        exact ⟨by omega,by omega,by simp⟩

/-- The store opens after a crash that left the acknowledged records and the first `n` bytes of
a batch, and recovers the acknowledged records and a number of whole records of the batch; it
takes further records; and when it is opened again, these follow what was recovered. -/
def Recovers (acked batch : List (Entry format)) (n : ℕ) (later : List (Entry format)) : Prop :=
  ∃ k log log' log'', openLog format (format.header ++ (lines acked ++ (lines batch).take n)) = .ok log ∧
    log.applied = opsOf acked ++ opsOf (batch.take k) ∧ log.appendAll (later.map Entry.ops) = some log' ∧
    openLog format log'.file = .ok log'' ∧ log''.applied = log.applied ++ opsOf later

/-- Every acknowledged record reads, and so does every record of the batch that is whole, the
last of them excepted if nothing stands behind it and it does not decode; and a JSON record that
lacks the end of its line only does not decode, or it reads and nothing is written behind it. -/
def Recoverable (acked batch : List (Entry format)) (n : ℕ) (later : List (Entry format)) : Prop :=
  (∀ e ∈ acked, e.Reads) ∧ (∀ e ∈ later, e.Reads) ∧
    match cutAt batch n with
    | (whole,none) => (∀ e ∈ whole, e.Reads) ∨
      ∃ front last, whole = front ++ [last] ∧ (∀ e ∈ front, e.Reads) ∧ last.decoded = none
    | (whole,some (e,m)) => (∀ e ∈ whole, e.Reads) ∧
      (format = .json → m+1 = e.line.length → e.decoded = none ∨ e.Reads ∧ later = [])

/-- Both opens as readings of records. -/
def Rereads (acked batch later : List (Entry format)) (body : Bytes) : Prop :=
  ∃ k r r', scan format format.header.length body = .ok r ∧ r.applied = opsOf acked ++ opsOf (batch.take k) ∧
    scan format format.header.length (r.kept format.header.length body ++ lines later) = .ok r' ∧
    r'.applied = r.applied ++ opsOf later

section Crash
variable {acked batch later : List (Entry format)} {n : ℕ}

theorem recovers_iff_rereads (hc : format.compiledIn = true) {body : Bytes}
    (hbody : lines acked ++ (lines batch).take n = body)
    (hb : format = .json → ∀ b, body.head? = some b → isBracket b = true) (hl : ∀ e ∈ later, e.Lawful) :
    Recovers acked batch n later ↔ Rereads acked batch later body := by
  have hkept : ∀ r : Found, format = .json → ∀ b,
      (r.kept format.header.length body ++ lines later).head? = some b → isBracket b = true := by
    intro r hf b hhead
    have hlater : ∀ b, (lines later ++ []).head? = some b → isBracket b = true := lines_bracket hl hf (by simp)
    rw [List.append_nil] at hlater
    cases hk : r.kept format.header.length body with
    | nil =>
      rw [hk,List.nil_append] at hhead
      exact hlater b hhead
    | cons c kept =>
      rw [hk,List.cons_append,List.head?_cons] at hhead
      have hstart : r.kept format.header.length body <+: body := by
        unfold Found.kept
        split_ifs
        · exact List.take_prefix _ _
        · exact List.prefix_rfl
      rw [hk] at hstart
      obtain ⟨rest,hrest⟩ := hstart
      apply hb hf
      rw [← hrest,List.cons_append,List.head?_cons,hhead]
  unfold Recovers
  rw [hbody,openLog_body hc hb]
  constructor
  · rintro ⟨k,log,log',log'',hopen,happlied,happend,hagain,hfinal⟩
    cases hs : scan format format.header.length body with
    | error err =>
      rw [hs] at hopen
      cases hopen
    | ok r =>
      rw [hs] at hopen
      obtain rfl := Except.ok.inj hopen
      rw [appendAll_lines (by rfl)] at happend
      obtain rfl := Option.some.inj happend
      rw [List.append_assoc,openLog_body hc (hkept r)] at hagain
      cases hs' : scan format format.header.length (r.kept format.header.length body ++ lines later) with
      | error err =>
        rw [hs'] at hagain
        cases hagain
      | ok r' =>
        rw [hs'] at hagain
        obtain rfl := Except.ok.inj hagain
        exact ⟨k,r,r',hs,happlied,hs',hfinal⟩
  · rintro ⟨k,r,r',hs,happlied,hs',hfinal⟩
    have hagain := openLog_body hc (hkept r)
    rw [hs',← List.append_assoc] at hagain
    rw [hs]
    exact ⟨k,_,_,_,rfl,happlied,appendAll_lines (by rfl) later,hagain,hfinal⟩

/-- Records behind records that read: the log reads as all of them exactly if they do. -/
theorem scan_later_iff {es : List (Entry format)} (hes : ∀ e ∈ es, e.Lawful) (hr : ∀ e ∈ es, e.Reads)
    (hl : ∀ e ∈ later, e.Lawful) (start : ℕ) :
    (∃ r, scan format start (lines es ++ lines later) = .ok r ∧ r.applied = opsOf es ++ opsOf later) ↔
      ∀ e ∈ later, e.Reads := by
  have hall : ∀ e ∈ es ++ later, e.Lawful := by
    intro e he
    rcases List.mem_append.mp he with he | he
    · exact hes e he
    · exact hl e he
  have hlines : lines es ++ lines later = lines (es ++ later) ++ [] := by simp
  rw [hlines]
  constructor
  · rintro ⟨r,hs,happ⟩
    rcases scan_lines_ok hall hs with hd | ⟨front,last,heq,hfront,-,-,rfl⟩
    · rw [scan_lines hall hd,scan_nil] at hs
      obtain rfl := Except.ok.inj hs
      simp only [decodedOps_append,decodedOps_reads hr,List.append_nil] at happ
      have hlater := List.append_cancel_left happ
      refine (reads_of_decodedOps hl (fun e he => hd e (by simp [he])) (x := []) (y := []) ?_).1
      rw [hlater]
    · -- a record that does not decode is missing
      have hf : ∀ e ∈ front, e.Lawful := fun e he => hall e (heq ▸ by simp [he])
      have hlen := congrArg List.length happ
      rw [decodedOps_length hf hfront,← opsOf_append,heq,opsOf_append,List.length_append] at hlen
      have hpos := opsOf_pos last []
      omega
  · intro hlater
    have hreads : ∀ e ∈ es ++ later, e.Reads := by
      intro e he
      rcases List.mem_append.mp he with he | he
      · exact hr e he
      · exact hlater e he
    rw [scan_reads hall hreads,scan_nil]
    exact ⟨_,rfl,by simp⟩

theorem prefix_eq_of_ops {as bs : List (Entry format)} (ha : as <+: batch) (hb : bs <+: batch)
    (h : (opsOf as).length = (opsOf bs).length) : as = bs := by
  have hone : ∀ as bs : List (Entry format), as <+: bs → (opsOf as).length = (opsOf bs).length → as = bs := by
    rintro as bs ⟨rest,rfl⟩ hlen
    cases rest with
    | nil => simp
    | cons e rest =>
      have hpos := opsOf_pos e rest
      rw [opsOf_append,List.length_append] at hlen
      omega
  rcases List.prefix_or_prefix_of_prefix ha hb with hp | hp
  · exact hone as bs hp h
  · exact (hone bs as hp h.symm).symm

theorem recovered_reads {whole : List (Entry format)} {k : ℕ} (hl : ∀ e ∈ acked ++ whole, e.Lawful)
    (hd : ∀ e ∈ acked ++ whole, e.decoded ≠ none) (hp : whole <+: batch)
    (h : decodedOps (acked ++ whole) = opsOf acked ++ opsOf (batch.take k)) :
    (∀ e ∈ acked ++ whole, e.Reads) ∧ opsOf (batch.take k) = opsOf whole := by
  rw [decodedOps_append] at h
  obtain ⟨hacked,hwhole⟩ := reads_of_decodedOps (fun e he => hl e (by simp [he])) (fun e he => hd e (by simp [he])) h
  have hlw : ∀ e ∈ whole, e.Lawful := fun e he => hl e (by simp [he])
  have hdw : ∀ e ∈ whole, e.decoded ≠ none := fun e he => hd e (by simp [he])
  have hlen := congrArg List.length hwhole
  rw [decodedOps_length hlw hdw] at hlen
  have heq := prefix_eq_of_ops hp (List.take_prefix k batch) hlen
  rw [← heq] at hwhole ⊢
  obtain ⟨hreads,-⟩ := reads_of_decodedOps hlw hdw (x := []) (y := []) (by rw [hwhole])
  refine ⟨?_,rfl⟩
  intro e he
  rcases List.mem_append.mp he with he | he
  · exact hacked e he
  · exact hreads e he

theorem rereads_of_reads {es : List (Entry format)} {k : ℕ} {r : Found} {body : Bytes}
    (hes : ∀ e ∈ es, e.Lawful) (hr : ∀ e ∈ es, e.Reads) (hl : ∀ e ∈ later, e.Lawful) (hlater : ∀ e ∈ later, e.Reads)
    (hs : scan format format.header.length body = .ok r) (hk : opsOf es = opsOf acked ++ opsOf (batch.take k))
    (happ : r.applied = opsOf es) (hkept : r.kept format.header.length body = lines es) :
    Rereads acked batch later body := by
  obtain ⟨r',hs',hfinal⟩ := (scan_later_iff hes hr hl format.header.length).mpr hlater
  exact ⟨k,r,r',hs,happ.trans hk,by rw [hkept,hs'],by rw [hfinal,happ]⟩

/-- The crash left whole records only. -/
theorem rereads_whole {whole : List (Entry format)} (hl : ∀ e ∈ acked ++ whole, e.Lawful)
    (hll : ∀ e ∈ later, e.Lawful) (hp : whole <+: batch) :
    Rereads acked batch later (lines (acked ++ whole)) ↔ (∀ e ∈ acked, e.Reads) ∧ (∀ e ∈ later, e.Reads) ∧
      ((∀ e ∈ whole, e.Reads) ∨
        ∃ front last, whole = front ++ [last] ∧ (∀ e ∈ front, e.Reads) ∧ last.decoded = none) := by
  have hnil : ∀ es : List (Entry format), lines es = lines es ++ [] := fun es => by simp
  have htake : ∀ es : List (Entry format), es <+: batch → batch.take es.length = es :=
    fun es he => (List.prefix_iff_eq_take.mp he).symm
  have hempty : follows format [] = false := by
    unfold follows
    split_ifs <;> rfl
  constructor
  · rintro ⟨k,r,r',hs,happ,hs',hfinal⟩
    rw [hnil] at hs
    rcases scan_lines_ok hl hs with hd | ⟨front,last,heq,hd,hnone,-,rfl⟩
    · rw [scan_lines hl hd,scan_nil] at hs
      obtain rfl := Except.ok.inj hs
      simp only [List.append_nil] at happ hfinal
      obtain ⟨hreads,hk⟩ := recovered_reads hl hd hp happ
      rw [happ,hk,← opsOf_append] at hfinal
      have hlater := (scan_later_iff hl hreads hll _).mp ⟨r',hs',hfinal⟩
      exact ⟨fun e he => hreads e (by simp [he]),hlater,Or.inl (fun e he => hreads e (by simp [he]))⟩
    · have hlf : ∀ e ∈ front, e.Lawful := fun e he => hl e (heq ▸ by simp [he])
      rcases List.eq_nil_or_concat whole with rfl | ⟨w,l,rfl⟩
      · -- an acknowledged record is missing
        have hlen := congrArg List.length happ
        rw [List.append_nil] at heq
        rw [decodedOps_length hlf hd,heq,opsOf_append,List.length_append,List.length_append] at hlen
        have hpos := opsOf_pos last []
        omega
      · rw [List.concat_eq_append,← List.append_assoc] at heq
        obtain ⟨rfl,hlast⟩ := List.append_inj' heq rfl
        obtain rfl : l = last := by simpa using hlast
        have hpw : w <+: batch := List.IsPrefix.trans (by simp) hp
        obtain ⟨hreads,hk⟩ := recovered_reads hlf hd hpw happ
        rw [happ,hk,← opsOf_append] at hfinal
        have hkept : Found.kept ⟨format.header.length+(lines (acked ++ w)).length,true,decodedOps (acked ++ w)⟩
            format.header.length (lines (acked ++ w.concat l)) = lines (acked ++ w) := by
          simp only [Found.kept,if_true,Nat.add_sub_cancel_left,List.concat_eq_append,← List.append_assoc]
          rw [lines_append (acked ++ w),List.take_left]
        rw [hkept] at hs'
        have hlater := (scan_later_iff hlf hreads hll _).mp ⟨r',hs',hfinal⟩
        exact ⟨fun e he => hreads e (by simp [he]),hlater,
          Or.inr ⟨w,l,by simp,fun e he => hreads e (by simp [he]),hnone⟩⟩
  · rintro ⟨hacked,hlater,hwhole⟩
    have hmem : ∀ es : List (Entry format), (∀ e ∈ es, e.Reads) → ∀ e ∈ acked ++ es, e.Reads := by
      intro es hes e he
      rcases List.mem_append.mp he with he | he
      · exact hacked e he
      · exact hes e he
    rcases hwhole with hwhole | ⟨front,last,rfl,hfront,hnone⟩
    · have hs := scan_reads hl (hmem _ hwhole) format.header.length []
      rw [← hnil,scan_nil] at hs
      exact rereads_of_reads (k := whole.length) hl (hmem _ hwhole) hll hlater hs
        (by rw [htake whole hp,opsOf_append]) (by simp) rfl
    · have hlf : ∀ e ∈ acked ++ front, e.Lawful := by
        intro e he
        exact hl e (by rw [← List.append_assoc]; exact List.mem_append_left _ he)
      have hsplit : lines (acked ++ (front ++ [last])) = lines (acked ++ front) ++ (last.line ++ []) := by
        simp [lines]
      have hs := scan_reads hlf (hmem _ hfront) format.header.length (last.line ++ [])
      rw [Entry.scan_undecoded (hl last (by simp)) _ _ hnone,if_neg (by simp [hempty]),← hsplit] at hs
      refine rereads_of_reads (k := front.length) hlf (hmem _ hfront) hll hlater hs ?_ (by simp) ?_
      · rw [htake front (List.IsPrefix.trans (by simp) hp),opsOf_append]
      · simp only [Found.kept,if_true,Nat.add_sub_cancel_left]
        rw [hsplit,List.take_left]

/-- The crash cut a record. -/
theorem rereads_cut {whole : List (Entry format)} {e : Entry format} {m : ℕ}
    (hl : ∀ d ∈ acked ++ whole, d.Lawful) (he : e.Lawful) (hll : ∀ d ∈ later, d.Lawful)
    (hm : 0 < m) (hlt : m < e.line.length) (hp : whole ++ [e] <+: batch) :
    Rereads acked batch later (lines (acked ++ whole) ++ e.line.take m) ↔
      (∀ d ∈ acked, d.Reads) ∧ (∀ d ∈ later, d.Reads) ∧ (∀ d ∈ whole, d.Reads) ∧
        (format = .json → m+1 = e.line.length → e.decoded = none ∨ e.Reads ∧ later = []) := by
  have hpw : whole <+: batch := List.IsPrefix.trans (by simp) hp
  have htake : batch.take whole.length = whole := (List.prefix_iff_eq_take.mp hpw).symm
  have hcut := Entry.scan_cut he (format.header.length+(lines (acked ++ whole)).length) hm hlt
  -- unless a JSON record lacks its end of line only, the cut record is dropped
  have hdropped : ∀ {r : Found}, r.torn = true →
      r.validEnd = format.header.length+(lines (acked ++ whole)).length →
      r.kept format.header.length (lines (acked ++ whole) ++ e.line.take m) = lines (acked ++ whole) := by
    intro r ht hv
    simp only [Found.kept,ht,if_true,hv,Nat.add_sub_cancel_left]
    rw [List.take_left]
  constructor
  · rintro ⟨k,r,r',hs,happ,hs',hfinal⟩
    have hd : ∀ d ∈ acked ++ whole, d.decoded ≠ none := by
      rcases scan_lines_ok hl hs with hd | ⟨front,last,-,-,-,hfollows,-⟩
      · exact hd
      · have hdata := Entry.follows_line he hm []
        rw [List.append_nil,hfollows] at hdata
        cases hdata
    rw [scan_lines hl hd,hcut] at hs
    by_cases hwhole : format = .json ∧ m+1 = e.line.length
    · rw [if_pos hwhole] at hs
      cases hdec : e.decoded with
      | none =>
        rw [hdec] at hs
        obtain rfl := Except.ok.inj hs
        simp only [List.append_nil] at happ hfinal
        obtain ⟨hreads,hk⟩ := recovered_reads hl hd hpw happ
        rw [hdropped rfl rfl] at hs'
        rw [happ,hk,← opsOf_append] at hfinal
        have hlater := (scan_later_iff hl hreads hll _).mp ⟨r',hs',hfinal⟩
        exact ⟨fun d hd => hreads d (by simp [hd]),hlater,fun d hd => hreads d (by simp [hd]),fun _ _ => Or.inl rfl⟩
      | some ops =>
        rw [hdec] at hs
        obtain rfl := Except.ok.inj hs
        simp only at happ hfinal
        have hall : decodedOps (acked ++ (whole ++ [e])) = opsOf acked ++ opsOf (batch.take k) := by
          rw [← happ]
          simp [hdec,decodedOps]
        have hle : ∀ d ∈ acked ++ (whole ++ [e]), d.Lawful ∧ d.decoded ≠ none := by
          intro d hmem
          rw [← List.append_assoc] at hmem
          rcases List.mem_append.mp hmem with hmem | hmem
          · exact ⟨hl d hmem,hd d hmem⟩
          · obtain rfl : d = e := by simpa using hmem
            exact ⟨he,by simp [hdec]⟩
        obtain ⟨hreads,-⟩ := recovered_reads (fun d hd => (hle d hd).1) (fun d hd => (hle d hd).2) hp hall
        have hlater : later = [] := by
          cases later with
          | nil => rfl
          | cons l later =>
            -- the next record runs into the line, and neither is read again
            obtain ⟨rfl,hm'⟩ := hwhole
            have hpay : e.line.take m = e.payload := by
              have hlen := congrArg List.length e.line_json
              rw [List.length_append,List.length_singleton] at hlen
              have hm'' : m = e.payload.length := by omega
              rw [e.line_json,hm'',List.take_left]
            simp only [Found.kept,hpay,lines_cons] at hs'
            rw [if_neg (by simp),List.append_assoc,scan_lines hl hd,Entry.scan_glued he (hll l (by simp))] at hs'
            split_ifs at hs'
            · cases hs'
            · obtain rfl := Except.ok.inj hs'
              have hlen := congrArg List.length hfinal
              simp only [List.append_nil,List.length_append] at hlen
              have hpos := opsOf_pos l later
              omega
        refine ⟨fun d hd => hreads d (by simp [hd]),by simp [hlater],fun d hd => hreads d (by simp [hd]),?_⟩
        exact fun _ _ => Or.inr ⟨hreads e (by simp),hlater⟩
    · rw [if_neg hwhole] at hs
      obtain rfl := Except.ok.inj hs
      simp only [List.append_nil] at happ hfinal
      obtain ⟨hreads,hk⟩ := recovered_reads hl hd hpw happ
      rw [hdropped rfl rfl] at hs'
      rw [happ,hk,← opsOf_append] at hfinal
      have hlater := (scan_later_iff hl hreads hll _).mp ⟨r',hs',hfinal⟩
      exact ⟨fun d hd => hreads d (by simp [hd]),hlater,fun d hd => hreads d (by simp [hd]),
        fun hf hm' => absurd ⟨hf,hm'⟩ hwhole⟩
  · rintro ⟨hacked,hlater,hwhole,hend⟩
    have hreads : ∀ d ∈ acked ++ whole, d.Reads := by
      intro d hd
      rcases List.mem_append.mp hd with hd | hd
      · exact hacked d hd
      · exact hwhole d hd
    have hs := scan_reads hl hreads format.header.length (e.line.take m)
    rw [hcut] at hs
    have hdrop : ∀ {r : Found}, r.torn = true →
        r.validEnd = format.header.length+(lines (acked ++ whole)).length → r.applied = opsOf (acked ++ whole) →
        scan format format.header.length (lines (acked ++ whole) ++ e.line.take m) = .ok r →
        Rereads acked batch later (lines (acked ++ whole) ++ e.line.take m) := by
      intro r ht hv happ hs
      exact rereads_of_reads (k := whole.length) hl hreads hll hlater hs (by rw [htake,opsOf_append]) happ
        (hdropped ht hv)
    by_cases hunended : format = .json ∧ m+1 = e.line.length
    · rw [if_pos hunended] at hs
      rcases hend hunended.1 hunended.2 with hnone | ⟨hread,rfl⟩
      · rw [hnone] at hs
        exact hdrop rfl rfl (by simp) hs
      · rw [show e.decoded = some e.ops from hread] at hs
        have hk : batch.take (whole ++ [e]).length = whole ++ [e] := (List.prefix_iff_eq_take.mp hp).symm
        have hfound : scan format format.header.length (lines (acked ++ whole) ++ e.line.take m) =
            .ok ⟨format.header.length+(lines (acked ++ whole)).length+m,false,opsOf (acked ++ whole) ++ e.ops⟩ := hs
        have hsame : ∀ (v : ℕ) (ops : List WalOp), Found.kept ⟨v,false,ops⟩ format.header.length
            (lines (acked ++ whole) ++ e.line.take m) ++ lines ([] : List (Entry format)) =
              lines (acked ++ whole) ++ e.line.take m := fun v ops => by simp [Found.kept,lines]
        refine ⟨(whole ++ [e]).length,_,_,hfound,?_,by rw [hsame,hfound],?_⟩
        · rw [hk]
          simp [opsOf]
        · simp [opsOf]
    · rw [if_neg hunended] at hs
      exact hdrop rfl rfl (by simp) hs

/-- A store recovers from a crash and keeps what is written afterwards exactly if its records
read back and no whole JSON record without the end of its line is written behind. -/
theorem recovers_iff (hc : format.compiledIn = true) (acked batch : List (Entry format)) (n : ℕ)
    (later : List (Entry format)) (hl : ∀ e ∈ acked ++ batch ++ later, e.Lawful) :
    Recovers acked batch n later ↔ Recoverable acked batch n later := by
  obtain ⟨htake,hwhole,hcut⟩ := cutAt_spec batch n
  have hla : ∀ e ∈ acked, e.Lawful := fun e he => hl e (by simp [he])
  have hlb : ∀ e ∈ batch, e.Lawful := fun e he => hl e (by simp [he])
  have hll : ∀ e ∈ later, e.Lawful := fun e he => hl e (by simp [he])
  unfold Recoverable
  generalize cutAt batch n = r at htake hwhole hcut ⊢
  obtain ⟨whole,cut⟩ := r
  have hlw : ∀ e ∈ acked ++ whole, e.Lawful := by
    intro e he
    rcases List.mem_append.mp he with he | he
    · exact hla e he
    · exact hlb e (hwhole.subset he)
  have hbody : lines acked ++ (lines batch).take n = lines (acked ++ whole) ++ cutBytes cut := by
    rw [htake,lines_append,List.append_assoc]
  cases cut with
  | none =>
    have hb : format = .json → ∀ b, (lines (acked ++ whole) ++ cutBytes (none : Option (Entry format × ℕ))).head? =
        some b → isBracket b = true := fun hf => lines_bracket hlw hf (by simp [cutBytes])
    rw [recovers_iff_rereads hc hbody hb hll]
    simp only [cutBytes,List.append_nil]
    exact rereads_whole hlw hll hwhole
  | some p =>
    obtain ⟨e,m⟩ := p
    obtain ⟨hm,hlt,hp⟩ := hcut e m rfl
    have he : e.Lawful := hlb e (hp.subset (by simp))
    have hb : format = .json → ∀ b, (lines (acked ++ whole) ++ cutBytes (some (e,m))).head? = some b →
        isBracket b = true := by
      intro hf
      refine lines_bracket hlw hf ?_
      intro b hb
      have hline : ∀ b, (lines [e] ++ []).head? = some b → isBracket b = true :=
        lines_bracket (by simpa using he) hf (by simp)
      apply hline b
      simp only [cutBytes,List.head?_take,Nat.ne_of_gt hm,if_false] at hb
      simpa [lines] using hb
    rw [recovers_iff_rereads hc hbody hb hll]
    exact rereads_cut hlw he hll hm hlt hp

end Crash
end

section Sample

/-- The text of the deletion of a node, with an id of one digit. -/
def deletionText (id : ℕ) : Bytes :=
  [0x7B,0x22,0x44,0x65,0x6C,0x65,0x74,0x65,0x4E,0x6F,0x64,0x65,0x22,0x3A,UInt8.ofNat (0x30+id),0x7D]

/-- The serializers of a build without binary formats, on deletions of nodes. -/
@[reducible] def deletionCodec : LogCodec where
  opToVec
    | .graph (.deleteNode id) => if id < 10 then some (deletionText id) else none
    | _ => none
  opsToVec _ := none
  opFromStr text := ((List.range 10).find? (fun id => deletionText id = text)).map (fun id => .graph (.deleteNode id))
  opsFromStr _ := none
  encodeOps _ _ := none
  decodeOps _ _ := none
  compiledIn _ := false

attribute [local instance] deletionCodec

def deletion (id : Fin 10) : Entry .json where
  ops := [.graph (.deleteNode id)]
  line := deletionText id ++ [0x0A]
  nonempty := by simp
  encoded := by
    have htext : LogCodec.opToVec (.graph (.deleteNode id)) = some (deletionText id) := if_pos id.isLt
    simp [encodeRecord,htext]

theorem deletion_payload (id : Fin 10) : (deletion id).payload = deletionText id := by
  simp [Entry.payload,deletion]

theorem deletion_lawful (id : Fin 10) : (deletion id).Lawful := by
  have hlen : ∀ id : ℕ, (deletionText id).length = 16 := fun id => rfl
  have hnone : ∀ text : Bytes, text.length ≠ 16 → LogCodec.opFromStr text = none := by
    intro text htext
    refine Option.map_eq_none_iff.mpr (List.find?_eq_none.mpr ?_)
    intro id _ heq
    apply htext
    rw [← of_decide_eq_true heq,hlen]
  refine ⟨fun _ => ?_,fun hf => absurd rfl hf⟩
  constructor
  · rw [deletion_payload]
    revert id
    decide
  · rw [deletion_payload]
    rfl
  · rw [deletion_payload]
    rfl
  · intro ops h
    cases h
  · rw [deletion_payload]
    intro text hp hne
    refine ⟨fun _ => hnone text ?_,fun _ => rfl⟩
    intro htext
    exact hne (hp.eq_of_length (htext.trans (hlen id).symm))
  · rw [deletion_payload]
    intro text ht
    refine ⟨fun _ => hnone _ ?_,fun _ => rfl⟩
    cases text with
    | nil => simp at ht
    | cons b text =>
      rw [List.length_append,hlen,List.length_cons]
      omega

/-- A crash in the middle of a record: the store opens, and what it takes then is there again. -/
theorem recovers_iff_sample : Recovers [deletion 1] [deletion 2] 5 [deletion 3] := by
  have hl : ∀ e ∈ [deletion 1] ++ [deletion 2] ++ [deletion 3], e.Lawful := by
    intro e he
    simp only [List.cons_append,List.nil_append,List.mem_cons,List.not_mem_nil,or_false] at he
    rcases he with rfl | rfl | rfl <;> exact deletion_lawful _
  refine (recovers_iff (by rfl) [deletion 1] [deletion 2] 5 [deletion 3] hl).mpr ⟨?_,?_,?_⟩
  · simp only [Entry.Reads]
    decide +kernel
  · simp only [Entry.Reads]
    decide +kernel
  · refine ⟨by simp,?_⟩
    intro _ h
    exact absurd h (by decide)

/-- A crash that leaves a record whole but for the end of its line: the store opens with it, the
next record runs into the line, and the second time both are dropped. -/
theorem unended_record_loses_next : ∃ log log' log'',
    openLog .json (lines [deletion 1] ++ (lines [deletion 2]).take 16) = .ok log ∧
      log.applied = opsOf [deletion 1] ++ opsOf [deletion 2] ∧
      log.appendAll [(deletion 3).ops] = some log' ∧ openLog .json log'.file = .ok log'' ∧
      ∀ k, log''.applied ≠ opsOf [deletion 1] ++ opsOf ([deletion 2].take k) ++ opsOf [deletion 3] := by
  let file := deletionText 1 ++ [0x0A] ++ deletionText 2
  let ops : ℕ → List WalOp := fun id => [.graph (.deleteNode id)]
  refine ⟨⟨file,.json,ops 1 ++ ops 2⟩,⟨file ++ deletionText 3 ++ [0x0A],.json,ops 1 ++ ops 2⟩,
    ⟨deletionText 1 ++ [0x0A],.json,ops 1⟩,?_,rfl,?_,?_,?_⟩
  · decide +kernel
  · decide +kernel
  · decide +kernel
  · intro k h
    have hlen := congrArg List.length h
    simp [ops,opsOf,deletion] at hlen

end Sample
end Drevo
