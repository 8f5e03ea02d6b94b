import Drevo.Bolt.PackStream

/-! The frames around a message: chunks with their lengths, and an empty one at the end. -/
namespace Drevo.Bolt
open Lib

def maxChunkSize : ℕ := 65535

/-- The payload in pieces of `n` bytes, the last one being what is left. -/
def chunks (n : ℕ) (payload : List UInt8) : List (List UInt8) :=
  if payload = [] ∨ n = 0 then [] else payload.take n :: chunks n (payload.drop n)
termination_by payload.length
decreasing_by
  rename_i h
  have hpos : 0 < payload.length := List.length_pos_iff.mpr (fun he => h (Or.inl he))
  simp only [List.length_drop]
  omega

def writeChunk (chunk : List UInt8) : List UInt8 := beBytes 2 chunk.length ++ chunk

def writeMessage (payload : List UInt8) : List UInt8 := (chunks maxChunkSize payload).flatMap writeChunk ++ [0,0]

/-- The chunks up to the empty one, behind what was read before. -/
def readChunks (payload : List UInt8) : Read (List UInt8)
  | b₀ :: b₁ :: rest =>
    if ofBe [b₀,b₁] = 0 then .ok (payload,rest)
    else if rest.length < ofBe [b₀,b₁] then .error .eof
    else readChunks (payload ++ rest.take (ofBe [b₀,b₁])) (rest.drop (ofBe [b₀,b₁]))
  | _ => .error .eof
termination_by input => input.length
decreasing_by
  simp only [List.length_drop,List.length_cons]
  omega

def readMessage : Read (List UInt8) := readChunks []

theorem chunks_flatten {n : ℕ} (hn : 0 < n) (payload : List UInt8) : (chunks n payload).flatten = payload := by
  induction payload using chunks.induct n with
  | case1 payload h =>
    rw [chunks,if_pos h]
    obtain rfl | rfl := h
    · rfl
    · omega
  | case2 payload h ih => rw [chunks,if_neg h,List.flatten_cons,ih,List.take_append_drop]

theorem chunks_length {n : ℕ} {payload c : List UInt8} (hc : c ∈ chunks n payload) : 0 < c.length ∧ c.length ≤ n := by
  induction payload using chunks.induct n with
  | case1 payload h =>
    rw [chunks,if_pos h] at hc
    cases hc
  | case2 payload h ih =>
    rw [chunks,if_neg h] at hc
    obtain rfl | hc := List.mem_cons.mp hc
    · push Not at h
      have hpos := List.length_pos_iff.mpr h.1
      simp only [List.length_take]
      omega
    · exact ih hc

theorem readChunks_end (payload t : List UInt8) : readChunks payload ([0,0] ++ t) = .ok (payload,t) := by
  rw [List.cons_append,List.cons_append,List.nil_append,readChunks,if_pos (by decide)]

theorem readChunks_chunk {chunk : List UInt8} (h₀ : 0 < chunk.length) (h₁ : chunk.length ≤ maxChunkSize) (payload t : List UInt8) :
    readChunks payload (writeChunk chunk ++ t) = readChunks (payload ++ chunk) t := by
  have hlt : chunk.length < 256^2 := by
    unfold maxChunkSize at h₁
    omega
  obtain ⟨b₀,b₁,hbytes⟩ : ∃ b₀ b₁, beBytes 2 chunk.length = [b₀,b₁] := ⟨_,_,rfl⟩
  have hlen : ofBe [b₀,b₁] = chunk.length := by rw [← hbytes,ofBe_beBytes_of_lt hlt]
  have hcons : writeChunk chunk ++ t = b₀ :: b₁ :: (chunk ++ t) := by rw [writeChunk,hbytes]; rfl
  rw [hcons,readChunks,hlen,if_neg (by omega),if_neg (by simp),List.take_left,List.drop_left]

theorem readChunks_all {cs : List (List UInt8)} (h : ∀ c ∈ cs, 0 < c.length ∧ c.length ≤ maxChunkSize) (payload t : List UInt8) :
    readChunks payload (cs.flatMap writeChunk ++ [0,0] ++ t) = .ok (payload ++ cs.flatten,t) := by
  induction cs generalizing payload with
  | nil =>
    rw [List.flatMap_nil,List.nil_append,List.flatten_nil,List.append_nil]
    exact readChunks_end payload t
  | cons c cs ih =>
    obtain ⟨h₀,h₁⟩ := h c (by simp)
    rw [List.flatMap_cons,List.append_assoc,List.append_assoc,readChunks_chunk h₀ h₁,← List.append_assoc,
      ih (fun c hc => h c (by simp [hc])),List.flatten_cons,List.append_assoc]

theorem readMessage_writeMessage (payload t : List UInt8) : readMessage (writeMessage payload ++ t) = .ok (payload,t) := by
  rw [readMessage,writeMessage,readChunks_all (fun c hc => chunks_length hc),chunks_flatten (by decide)]
  rfl

/-- A value comes back over the wire, framed and unframed and whatever follows it, if and only if its
structures have no more fields than their headers can tell. -/
theorem wire_round_trip {v : Value} (hk : v.All Value.KeysSorted) (hs : v.All Value.Short) :
    ((∀ t, readMessage (writeMessage (encode v) ++ t) = .ok (encode v,t)) ∧ ∀ t, decode (encode v ++ t) = .ok (v,t)) ↔
      v.All Value.Narrow := by
  rw [decode_encode hk hs]
  exact and_iff_right (fun t => readMessage_writeMessage _ t)

section Samples

/-- A dictionary with a list in it. -/
def sampleList : Value := .list [.integer (-17)]
def sampleDict : Value := .dictionary [("a",sampleList)]

theorem sampleDict_all {p : Value → Prop} (h₀ : p sampleDict) (h₁ : p sampleList) (h₂ : p (.integer (-17))) : sampleDict.All p := by
  refine .intro h₀ (fun c hc => ?_)
  obtain rfl : c = sampleList := by simpa [sampleDict,Value.children] using hc
  refine .intro h₁ (fun c hc => ?_)
  obtain rfl : c = .integer (-17) := by simpa [sampleList,Value.children] using hc
  exact .intro h₂ (by simp [Value.children])

theorem wire_round_trip_sample : decode (encode sampleDict ++ [7]) = .ok (sampleDict,[7]) := by
  have hk : sampleDict.All Value.KeysSorted := sampleDict_all (List.pairwise_singleton ..) trivial trivial
  have hs : sampleDict.All Value.Short := by
    refine sampleDict_all ⟨by decide,?_⟩ (by unfold sampleList Value.Short; decide) trivial
    intro e he
    obtain rfl : e = ("a",sampleList) := by simpa using he
    decide +kernel
  have hn : sampleDict.All Value.Narrow := sampleDict_all trivial trivial trivial
  exact ((wire_round_trip hk hs).mpr hn).2 [7]

theorem encodeItems_nulls (n : ℕ) : encodeItems (List.replicate n .null) = List.replicate n mNull := by
  induction n with
  | zero => rfl
  | succ n ih => rw [List.replicate_succ,encodeItems,ih,encode,List.replicate_succ]; rfl

theorem decode_no_fields (tag : UInt8) (rest : List UInt8) :
    decode ([mStruct16,0,0,tag] ++ rest) = .ok (.struct tag [],rest) := by
  have hmarker : ∀ d, decodeWithMarker d mStruct16 = withLength 2 (decodeStructFields d) := fun _ => rfl
  have hzero : [0,0,tag] ++ rest = beBytes 2 0 ++ tag :: rest := rfl
  have hlen : ([mStruct16,0,0,tag] ++ rest).length = rest.length+3+1 := by simp
  rw [decode,hlen]
  change decodeWithMarker (decodeWithin (rest.length+3)) mStruct16 ([0,0,tag] ++ rest) = _
  rw [hmarker,hzero,withLength_append (by decide)]
  rfl

/-- A structure of 2^16 fields is written with the length 0, and read back without its fields. -/
theorem wide_struct_truncated :
    let v : Value := .struct 0x4E (List.replicate 65536 .null)
    v.All Value.KeysSorted ∧ v.All Value.Short ∧
      decode (encode v) = .ok (.struct 0x4E [],List.replicate 65536 mNull) ∧ decode (encode v) ≠ .ok (v,[]) := by
  intro v
  have hall : ∀ {p : Value → Prop}, p v → p .null → v.All p := by
    intro p hv hnull
    refine .intro hv (fun c hc => ?_)
    obtain rfl : c = .null := (List.mem_replicate.mp (show c ∈ List.replicate 65536 Value.null from hc)).2
    exact .intro hnull (by simp [Value.children])
  have hbytes : encode v = [mStruct16,0,0,0x4E] ++ List.replicate 65536 mNull := by
    have hheader : encodeStructHeader 65536 = [mStruct16,0,0] := by decide
    rw [encode,encodeItems_nulls,List.length_replicate,hheader]
    rfl
  have hread : decode (encode v) = .ok (.struct 0x4E [],List.replicate 65536 mNull) := by
    rw [hbytes]
    exact decode_no_fields 0x4E (List.replicate 65536 mNull)
  refine ⟨hall trivial trivial,hall trivial trivial,hread,?_⟩
  rw [hread]
  intro he
  have hv := (Prod.mk.inj (Except.ok.inj he)).2
  rw [List.replicate_succ] at hv
  cases hv

end Samples
end Drevo.Bolt
