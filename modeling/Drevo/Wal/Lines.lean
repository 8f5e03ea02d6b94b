import Drevo.Wal.Replay

/-! What a record that was written reads as: whole, cut off by the end of the log, or run
together with the next one. -/
namespace Drevo

/-! ## Trimming -/

theorem dropSpelled_head {spelled : List Bytes} {b : UInt8} (h : ∀ c ∈ spelled, c ≠ [] ∧ b ∉ c) (n : ℕ)
    (rest : Bytes) : dropSpelled spelled n (b :: rest) = b :: rest := by
  cases n with
  | zero => rfl
  | succ n =>
    have hnone : spelled.find? (fun c => c.isPrefixOf (b :: rest)) = none := by
      rw [List.find?_eq_none]
      intro c hc
      cases c with
      | nil => exact absurd rfl (h [] hc).1
      | cons a c =>
        have hne : a ≠ b := by
          rintro rfl
          exact (h _ hc).2 (by simp)
        simp [hne]
    simp only [dropSpelled,hnone]

theorem dropSpelled_concat {spelled : List Bytes} {b : UInt8} (h : ∀ c ∈ spelled, c ≠ [] ∧ b ∉ c) (n : ℕ)
    (text : Bytes) : ∃ k, dropSpelled spelled n (text ++ [b]) = text.drop k ++ [b] := by
  induction n generalizing text with
  | zero => exact ⟨0,rfl⟩
  | succ n ih =>
    simp only [dropSpelled]
    cases hf : spelled.find? (fun c => c.isPrefixOf (text ++ [b])) with
    | none => exact ⟨0,rfl⟩
    | some c =>
      have hstart : c <+: text ++ [b] := 
        List.isPrefixOf_iff_prefix.mp (List.find?_some (p := fun c : Bytes => c.isPrefixOf (text ++ [b])) hf)
      have hb := (h c (List.mem_of_find?_eq_some hf)).2
      have hle : c.length ≤ text.length := by
        by_contra hlong
        have hlen := hstart.length_le
        simp only [List.length_append,List.length_singleton] at hlen
        have hall : c = text ++ [b] := hstart.eq_of_length (by simp; omega)
        exact hb (by simp [hall])
      obtain ⟨k,hk⟩ := ih (text.drop c.length)
      refine ⟨c.length+k,?_⟩
      simp only
      rw [List.drop_append_of_le_length hle,hk,List.drop_drop]

/-- The bytes a JSON object or array begins and ends with. -/
def isBracket (b : UInt8) : Bool := b = 0x7B || b = 0x5B || b = 0x7D || b = 0x5D

theorem not_mem_whitespace {b : UInt8} (hb : isBracket b = true) : ∀ c ∈ whitespace, c ≠ [] ∧ b ∉ c := by
  have hall : ∀ b ∈ ([0x7B,0x5B,0x7D,0x5D] : Bytes), ∀ c ∈ whitespace, c ≠ [] ∧ b ∉ c := by decide +kernel
  apply hall b
  simpa [isBracket,or_assoc] using hb

theorem trimStart_bracket {b : UInt8} (hb : isBracket b = true) (rest : Bytes) :
    trimStart (b :: rest) = b :: rest :=
  dropSpelled_head (not_mem_whitespace hb) _ rest

theorem trimEnd_bracket {b : UInt8} (hb : isBracket b = true) (front : Bytes) :
    trimEnd (front ++ [b]) = front ++ [b] := by
  have hspelled : ∀ c ∈ whitespace.map List.reverse, c ≠ [] ∧ b ∉ c := by
    intro c hc
    obtain ⟨d,hd,rfl⟩ := List.mem_map.mp hc
    simpa using not_mem_whitespace hb d hd
  rw [trimEnd,List.reverse_append,List.reverse_singleton,List.singleton_append,dropSpelled_head hspelled]
  simp

theorem trimEnd_head {b : UInt8} (hb : ∀ c ∈ whitespace, c ≠ [] ∧ b ∉ c) (rest : Bytes) :
    ∃ kept, trimEnd (b :: rest) = b :: kept ∧ kept <+: rest := by
  have hspelled : ∀ c ∈ whitespace.map List.reverse, c ≠ [] ∧ b ∉ c := by
    intro c hc
    obtain ⟨d,hd,rfl⟩ := List.mem_map.mp hc
    simpa using hb d hd
  obtain ⟨k,hk⟩ := dropSpelled_concat hspelled (b :: rest).length rest.reverse
  refine ⟨(rest.reverse.drop k).reverse,?_,?_⟩
  · rw [trimEnd,List.reverse_cons,hk]
    simp
  · rw [List.drop_reverse,List.reverse_reverse]
    exact List.take_prefix _ _

theorem trimEnd_prefix {b : UInt8} (hb : isBracket b = true) (rest : Bytes) :
    ∃ kept, trimEnd (b :: rest) = b :: kept ∧ kept <+: rest :=
  trimEnd_head (not_mem_whitespace hb) rest

/-! ## Records that were written -/

/-- A record that ends at `next`, by what its bytes decode to. -/
def Record.ofOps : Option (List WalOp) → ℕ → Record
  | some found,next => .ops found next
  | none,next => .invalid next

variable [LogCodec] {format : WalFormat}

/-- A record of a log: what it holds and the bytes it was written as. -/
structure Entry [LogCodec] (format : WalFormat) where
  ops : List WalOp
  line : Bytes
  nonempty : ops ≠ []
  encoded : encodeRecord format ops = some line

namespace Entry

/-- The bytes of a record without its framing. -/
def payload (e : Entry format) : Bytes := if format = .json then e.line.dropLast else e.line.drop frameLen

/-- What the payload of a record decodes to. -/
def decoded (e : Entry format) : Option (List WalOp) :=
  if format = .json then parseJsonLine e.payload else LogCodec.decodeOps format e.payload

/-- The record reads as what was written. -/
def Reads (e : Entry format) : Prop := e.decoded = some e.ops

/-- What the JSON serializer does for a record: its text is one line, an object for one entry
and an array for several; the reader takes no proper beginning of the text, nor the text with
another one behind it; and an array reads as as many entries as it was written from. -/
structure JsonLawful (e : Entry format) : Prop where
  line : 0x0A ∉ e.payload
  opens : e.payload.head? = some (if e.ops.length = 1 then 0x7B else 0x5B)
  closes : e.payload.getLast? = some (if e.ops.length = 1 then 0x7D else 0x5D)
  count : ∀ ops, LogCodec.opsFromStr e.payload = some ops → e.ops.length ≠ 1 → ops.length = e.ops.length
  cut : ∀ text, text <+: e.payload → text ≠ e.payload →
    (e.ops.length = 1 → LogCodec.opFromStr text = none) ∧ (e.ops.length ≠ 1 → LogCodec.opsFromStr text = none)
  glued : ∀ text : Bytes, text.head? = some 0x7B ∨ text.head? = some 0x5B →
    (e.ops.length = 1 → LogCodec.opFromStr (e.payload ++ text) = none) ∧
      (e.ops.length ≠ 1 → LogCodec.opsFromStr (e.payload ++ text) = none)

/-- What the serializers do for a record: a binary payload decodes to as many entries as it was
written from, if it decodes. -/
structure Lawful (e : Entry format) : Prop where
  json : format = .json → e.JsonLawful
  count : format ≠ .json → ∀ ops, LogCodec.decodeOps format e.payload = some ops → ops.length = e.ops.length

theorem line_json (e : Entry .json) : e.line = e.payload ++ [0x0A] := by
  have hline : ∃ text, e.line = text ++ [0x0A] := by
    obtain ⟨ops,line,hne,henc⟩ := e
    simp only [encodeRecord,if_true] at henc
    split at henc
    · exact absurd rfl hne
    · obtain ⟨text,-,ht⟩ := Option.map_eq_some_iff.mp henc
      exact ⟨text,ht.symm⟩
    · obtain ⟨text,-,ht⟩ := Option.map_eq_some_iff.mp henc
      exact ⟨text,ht.symm⟩
  obtain ⟨text,ht⟩ := hline
  simp [payload,ht]

theorem encodeOps_payload (hf : format ≠ .json) (e : Entry format) :
    LogCodec.encodeOps format e.ops = some e.payload ∧ e.payload.length < 2^32 ∧
      e.line = toLeBytes e.payload.length ++ toLeBytes (crc32 e.payload).toNat ++ e.payload := by
  have hline : ∃ p : Bytes, LogCodec.encodeOps format e.ops = some p ∧ p.length < 2^32 ∧
      e.line = toLeBytes p.length ++ toLeBytes (crc32 p).toNat ++ p := by
    obtain ⟨ops,line,hne,henc⟩ := e
    have hempty : ¬ ops.isEmpty = true := by simpa using hne
    simp only [encodeRecord,if_neg hf,if_neg hempty] at henc
    split at henc
    · cases henc
    · rename_i p hp
      split_ifs at henc with hlen
      exact ⟨p,hp,hlen,(Option.some.inj henc).symm⟩
  obtain ⟨p,henc,hlen,hl⟩ := hline
  have hp : e.payload = p := by
    rw [payload,if_neg hf,hl]
    rfl
  rw [hp]
  exact ⟨henc,hlen,hl⟩

theorem line_frame (hf : format ≠ .json) (e : Entry format) : e.payload.length < 2^32 ∧
    e.line = toLeBytes e.payload.length ++ toLeBytes (crc32 e.payload).toNat ++ e.payload :=
  (encodeOps_payload hf e).2

/-! ## The text of a JSON record -/

theorem parse_bracket {b : UInt8} (hb : isBracket b = true) {rest kept : Bytes}
    (ht : trimEnd (b :: rest) = b :: kept) :
    parseJsonLine (b :: rest) =
      if isUtf8 (b :: rest) then
        if b = 0x5B then LogCodec.opsFromStr (b :: kept) else (LogCodec.opFromStr (b :: kept)).map (fun op => [op])
      else none := by
  simp only [parseJsonLine,trimStart_bracket hb,ht]
  cases isUtf8 (b :: rest) <;> simp

section Json
variable {e : Entry .json} (h : e.JsonLawful)
include h

theorem payload_cons : ∃ b rest, e.payload = b :: rest ∧ isBracket b = true ∧ (b = 0x5B ↔ e.ops.length ≠ 1) := by
  have hopens := h.opens
  cases hp : e.payload with
  | nil => simp [hp] at hopens
  | cons b rest =>
    rw [hp,List.head?_cons,Option.some.injEq] at hopens
    refine ⟨b,rest,rfl,?_,?_⟩
    · split_ifs at hopens <;> simp [hopens,isBracket]
    · split_ifs at hopens with h1 <;> simp [hopens,h1]

theorem trimEnd_payload (front : Bytes) : trimEnd (front ++ e.payload) = front ++ e.payload := by
  obtain ⟨init,hinit⟩ := List.getLast?_eq_some_iff.mp h.closes
  rw [hinit,← List.append_assoc]
  refine trimEnd_bracket ?_ _
  split_ifs <;> simp [isBracket]

theorem json_count {ops : List WalOp} (hd : e.decoded = some ops) : ops.length = e.ops.length := by
  obtain ⟨b,rest,hp,hb,hmany⟩ := payload_cons h
  have htrim := trimEnd_payload h []
  rw [List.nil_append,hp] at htrim
  simp only [decoded,if_true,hp,parse_bracket hb htrim] at hd
  split_ifs at hd with hu h5
  · exact h.count ops (hp ▸ hd) (hmany.mp h5)
  · obtain ⟨op,-,rfl⟩ := Option.map_eq_some_iff.mp hd
    have hone : e.ops.length = 1 := by
      by_contra hne
      exact h5 (hmany.mpr hne)
    rw [hone,List.length_singleton]

theorem parse_cut {text : Bytes} (hp : text <+: e.payload) (hne : text ≠ []) (hcut : text ≠ e.payload) :
    parseJsonLine text = none := by
  obtain ⟨b,rest,hpay,hb,hmany⟩ := payload_cons h
  cases text with
  | nil => exact absurd rfl hne
  | cons c text =>
    obtain rfl : c = b := by
      rw [hpay] at hp
      exact (List.cons_prefix_cons.mp hp).1
    obtain ⟨kept,ht,hkept⟩ := trimEnd_prefix hb text
    have hproper : c :: kept <+: e.payload := (List.prefix_cons_inj c).mpr hkept |>.trans hp
    have hshort : c :: kept ≠ e.payload := by
      intro heq
      apply hcut
      refine hp.eq_of_length (le_antisymm hp.length_le ?_)
      rw [← heq]
      simpa using hkept.length_le
    obtain ⟨hone,hlist⟩ := h.cut _ hproper hshort
    rw [parse_bracket hb ht]
    split_ifs with hu h5
    · exact hlist (hmany.mp h5)
    · rw [hone (by by_contra hne; exact h5 (hmany.mpr hne))]
      rfl
    · rfl

theorem parse_glued {e' : Entry .json} (h' : e'.JsonLawful) : parseJsonLine (e.payload ++ e'.payload) = none := by
  obtain ⟨b,rest,hpay,hb,hmany⟩ := payload_cons h
  have htrim := trimEnd_payload h' e.payload
  have hopens : e'.payload.head? = some 0x7B ∨ e'.payload.head? = some 0x5B := by
    rw [h'.opens]
    split_ifs <;> simp
  obtain ⟨hone,hlist⟩ := h.glued e'.payload hopens
  rw [hpay,List.cons_append] at htrim hone hlist ⊢
  rw [parse_bracket hb htrim]
  split_ifs with hu h5
  · exact hlist (hmany.mp h5)
  · rw [hone (by by_contra hne; exact h5 (hmany.mpr hne))]
    rfl
  · rfl

end Json

/-! ## Reading a record back -/

theorem count {e : Entry format} (h : e.Lawful) {ops : List WalOp} (hd : e.decoded = some ops) :
    ops.length = e.ops.length := by
  by_cases hf : format = .json
  · subst hf
    exact json_count (h.json rfl) hd
  · rw [decoded,if_neg hf] at hd
    exact h.count hf ops hd

theorem line_length (hf : format ≠ .json) (e : Entry format) : e.line.length = frameLen+e.payload.length := by
  obtain ⟨-,hline⟩ := line_frame hf e
  have hlen := congrArg List.length hline
  simp only [List.length_append,toLeBytes_length] at hlen
  rw [hlen]
  rfl

omit [LogCodec] in
theorem findIdx_none {text : Bytes} (h : 0x0A ∉ text) : text.findIdx (fun b => b = 0x0A) = text.length := by
  rw [List.findIdx_eq_length]
  intro b hb
  have hne : b ≠ 0x0A := fun heq => h (heq ▸ hb)
  simpa using hne

theorem readRecord_text {text : Bytes} (h : 0x0A ∉ text) (rest : Bytes) :
    readRecord .json (text ++ 0x0A :: rest) 0 = .ofOps (parseJsonLine text) (text.length+1) := by
  have hidx : (text ++ 0x0A :: rest).findIdx (fun b => b = 0x0A) = text.length := by
    rw [List.findIdx_append,findIdx_none h,if_neg (lt_irrefl _)]
    simp [List.findIdx_cons]
  have hlt : text.length < (text ++ 0x0A :: rest).length := by simp
  simp only [readRecord,List.drop_zero,if_true,hidx,if_pos hlt,Nat.zero_add,List.take_left]
  cases parseJsonLine text <;> rfl

theorem readRecord_rest {text : Bytes} (h : 0x0A ∉ text) :
    readRecord .json text 0 = .ofOps (parseJsonLine text) text.length := by
  simp only [readRecord,List.drop_zero,if_true,findIdx_none h,if_neg (lt_irrefl text.length),List.take_length]
  cases parseJsonLine text <;> rfl

theorem readRecord_frame (hf : format ≠ .json) (e : Entry format) (rest : Bytes) :
    readRecord format (e.line ++ rest) 0 = .ofOps (LogCodec.decodeOps format e.payload) e.line.length := by
  obtain ⟨hlen,hline⟩ := line_frame hf e
  have htotal := line_length hf e
  have hcrc : (crc32 e.payload).toNat < 2^32 := (crc32 e.payload).toNat_lt
  have hsize : (e.line ++ rest).take 4 = toLeBytes e.payload.length := by
    rw [hline]
    rfl
  have hsum : ((e.line ++ rest).drop 4).take 4 = toLeBytes (crc32 e.payload).toNat := by
    rw [hline]
    rfl
  have hpay : ((e.line ++ rest).drop frameLen).take e.payload.length = e.payload := by
    have hdrop : (e.line ++ rest).drop frameLen = e.payload ++ rest := by
      rw [hline]
      rfl
    rw [hdrop,List.take_left]
  have hshort : ¬ (e.line ++ rest).length < frameLen := by
    rw [List.length_append]
    omega
  have hcut : ¬ (e.line ++ rest).length < frameLen+e.payload.length := by
    rw [List.length_append]
    omega
  simp only [readRecord,List.drop_zero,if_neg hf,if_neg hshort,hsize,hsum,fromLeBytes_toLeBytes hlen,
    fromLeBytes_toLeBytes hcrc,if_neg hcut,hpay,htotal,Nat.zero_add,ne_eq,not_true_eq_false,if_false]
  cases LogCodec.decodeOps format e.payload <;> rfl

theorem readRecord_line {e : Entry format} (h : e.Lawful) (rest : Bytes) :
    readRecord format (e.line ++ rest) 0 = .ofOps e.decoded e.line.length := by
  by_cases hf : format = .json
  · subst hf
    have hread := readRecord_text (h.json rfl).line rest
    simp only [line_json e,decoded,if_true,List.append_assoc,List.singleton_append,List.length_append,
      List.length_singleton]
    exact hread
  · rw [readRecord_frame hf e rest,decoded,if_neg hf]

theorem readRecord_cut_frame (hf : format ≠ .json) (e : Entry format) {m : ℕ} (hm : m < e.line.length) :
    readRecord format (e.line.take m) 0 = .incomplete := by
  obtain ⟨hlen,hline⟩ := line_frame hf e
  have htotal := line_length hf e
  have hm' : (e.line.take m).length = m := by
    rw [List.length_take]
    omega
  simp only [readRecord,List.drop_zero,if_neg hf]
  by_cases hshort : (e.line.take m).length < frameLen
  · rw [if_pos hshort]
  rw [if_neg hshort]
  have hsize : (e.line.take m).take 4 = toLeBytes e.payload.length := by
    have hfour : min 4 m = 4 := by
      simp only [frameLen] at hshort
      omega
    rw [List.take_take,hfour,hline]
    rfl
  rw [hsize,fromLeBytes_toLeBytes hlen,if_pos (by omega)]

/-! ## Reading records in a row -/

theorem follows_line {e : Entry format} (h : e.Lawful) {m : ℕ} (hm : 0 < m) (rest : Bytes) :
    follows format (e.line.take m ++ rest) = true := by
  by_cases hf : format = .json
  · subst hf
    obtain ⟨b,text,hp,hb,-⟩ := payload_cons (h.json rfl)
    obtain ⟨m,rfl⟩ := Nat.exists_eq_add_of_lt hm
    have hspace : ∀ b : UInt8, isBracket b = true →
        ¬ (b = 0x20 ∨ b = 0x09 ∨ b = 0x0A ∨ b = 0x0C ∨ b = 0x0D) := by
      intro b hb
      simp only [isBracket,Bool.or_eq_true,decide_eq_true_eq] at hb
      rcases hb with ((rfl | rfl) | rfl) | rfl <;> decide
    have hne := hspace b hb
    rw [line_json,hp]
    simp only [follows,if_true,List.cons_append,Nat.zero_add,List.take_succ_cons,List.all_cons]
    simp only [not_or] at hne
    simp [hne]
  · have hlen := line_length hf e
    cases hl : e.line with
    | nil => simp [hl,frameLen] at hlen; omega
    | cons b text =>
      obtain ⟨m,rfl⟩ := Nat.exists_eq_add_of_lt hm
      simp [follows,hf]

theorem line_ne_nil (e : Entry format) : e.line ≠ [] := by
  by_cases hf : format = .json
  · subst hf
    simp [line_json e]
  · intro hnil
    have hlen := line_length hf e
    simp only [hnil,List.length_nil,frameLen] at hlen
    omega

section Scan
variable {e : Entry format} (h : e.Lawful) (validEnd : ℕ) (rest : Bytes)
include h

theorem scan_decoded {ops : List WalOp} (hd : e.decoded = some ops) :
    scan format validEnd (e.line ++ rest) =
      (scan format (validEnd+e.line.length) rest).map (fun r => { r with applied := ops ++ r.applied }) := by
  have hread := readRecord_line h rest
  rw [hd] at hread
  rw [scan_ops (by simp [line_ne_nil]) hread,List.drop_left]

theorem scan_undecoded (hd : e.decoded = none) :
    scan format validEnd (e.line ++ rest) =
      if follows format rest then .error (.corruptRecord validEnd) else .ok ⟨validEnd,true,[]⟩ := by
  have hread := readRecord_line h rest
  rw [hd] at hread
  rw [scan_invalid (by simp [line_ne_nil]) hread,List.drop_left]

/-- What a record gives that the end of the log cuts off: nothing, unless it is a JSON record
that lacks nothing but the end of its line. -/
theorem scan_cut {m : ℕ} (hm : 0 < m) (hlt : m < e.line.length) :
    scan format validEnd (e.line.take m) =
      if format = .json ∧ m+1 = e.line.length then
        match e.decoded with
        | some ops => .ok ⟨validEnd+m,false,ops⟩
        | none => .ok ⟨validEnd,true,[]⟩
      else .ok ⟨validEnd,true,[]⟩ := by
  have hlen : (e.line.take m).length = m := by
    rw [List.length_take]
    omega
  have hne : e.line.take m ≠ [] := by
    intro hnil
    rw [hnil] at hlen
    simp at hlen
    omega
  have hnil : follows format [] = false := by
    unfold follows
    split_ifs <;> rfl
  by_cases hf : format = .json
  · subst hf
    have hlaw := h.json rfl
    have hline := line_json e
    have htotal : e.line.length = e.payload.length+1 := by
      rw [hline]
      simp
    have htake : e.line.take m = e.payload.take m := by
      rw [hline,List.take_append_of_le_length (by omega)]
    rw [htake] at hlen hne ⊢
    have hread := readRecord_rest (fun hmem => hlaw.line (List.mem_of_mem_take hmem) : 0x0A ∉ e.payload.take m)
    rw [hlen] at hread
    by_cases hwhole : m+1 = e.line.length
    · have hall : e.payload.take m = e.payload := List.take_of_length_le (by omega)
      have hdec : parseJsonLine (e.payload.take m) = e.decoded := by rw [hall,decoded,if_pos rfl]
      rw [hdec] at hread
      simp only [hwhole,and_self,if_true]
      cases hd : e.decoded with
      | none =>
        rw [hd] at hread
        rw [scan_invalid hne hread,List.drop_of_length_le (by omega),hnil]
        rfl
      | some ops =>
        rw [hd] at hread
        rw [scan_ops hne hread,List.drop_of_length_le (by omega),scan_nil]
        simp [Except.map]
    · rw [if_neg (by simp [hwhole])]
      have hcut : e.payload.take m ≠ e.payload := by
        intro heq
        rw [heq] at hlen
        omega
      rw [parse_cut hlaw (List.take_prefix _ _) hne hcut] at hread
      rw [scan_invalid hne hread,List.drop_of_length_le (by omega),hnil]
      rfl
  · rw [if_neg (by simp [hf]),scan_incomplete hne (readRecord_cut_frame hf e hlt)]

end Scan

theorem scan_glued {e e' : Entry .json} (h : e.Lawful) (h' : e'.Lawful) (validEnd : ℕ) (rest : Bytes) :
    scan .json validEnd (e.payload ++ (e'.line ++ rest)) =
      if follows .json rest then .error (.corruptRecord validEnd) else .ok ⟨validEnd,true,[]⟩ := by
  have hno : 0x0A ∉ e.payload ++ e'.payload := by
    simp [(h.json rfl).line,(h'.json rfl).line]
  have hsplit : e.payload ++ (e'.line ++ rest) = (e.payload ++ e'.payload) ++ 0x0A :: rest := by
    rw [line_json e']
    simp
  have hread := readRecord_text hno rest
  rw [parse_glued (h.json rfl) (h'.json rfl)] at hread
  have hdrop : ((e.payload ++ e'.payload) ++ 0x0A :: rest).drop ((e.payload ++ e'.payload).length+1) = rest := by
    rw [← List.drop_drop,List.drop_left]
    rfl
  rw [hsplit,scan_invalid (by simp) hread,hdrop]

end Entry
end Drevo
