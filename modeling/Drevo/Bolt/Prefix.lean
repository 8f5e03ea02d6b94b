import Drevo.Bolt.PackStream
import Drevo.Lib.Reader

/-! What the decoder takes from its input: nothing behind a value matters to it, no value begins with another, and
what was read can be written and read again. -/
namespace Drevo.Bolt
open Lib

/-! ## The ways to read on after a marker -/

/-- A value that is read from its marker and a fixed number of bytes. -/
def Value.Simple : Value → Prop
  | .null | .boolean _ | .integer _ => True
  | _ => False

/-- What holds of every way to read on holds behind every marker; lengths are told in at most four bytes. -/
theorem marker_cases {P : Read Value → Prop} {d : Read Value} (hleaf : ∀ v : Value, v.Simple → P (fun input => .ok (v,input)))
    (hfloat : P decodeFloat) (hinteger : ∀ n value, P (withInteger n value))
    (hunknown : ∀ marker, P (fun _ => .error (.unknownMarker marker)))
    (hlength : ∀ payload ∈ [decodeBytesPayload,decodeStringPayload,decodeListItems d,decodeDictItems d,decodeStructFields d],
      (∀ n ≤ 4, P (withLength n payload)) ∧ ∀ len < 16, P (payload len)) (marker : UInt8) : P (decodeWithMarker d marker) := by
  have hite : ∀ {c : Prop} [Decidable c] {a b : Read Value}, P a → P b → P (if c then a else b) := by
    intro c _ a b ha hb
    split_ifs
    · exact ha
    · exact hb
  obtain ⟨hbytes,-⟩ := hlength decodeBytesPayload (by simp)
  obtain ⟨hstring,hstring'⟩ := hlength decodeStringPayload (by simp)
  obtain ⟨hlist,hlist'⟩ := hlength (decodeListItems d) (by simp)
  obtain ⟨hdict,hdict'⟩ := hlength (decodeDictItems d) (by simp)
  obtain ⟨hstruct,hstruct'⟩ := hlength (decodeStructFields d) (by simp)
  unfold decodeWithMarker
  refine hite (hleaf _ trivial) (hite (hleaf _ trivial) (hite (hleaf _ trivial) (hite hfloat ?_)))
  refine hite (hinteger 1 _) (hite (hinteger 2 _) (hite (hinteger 4 _) (hite (hinteger 8 _) ?_)))
  refine hite (hbytes 1 (by decide)) (hite (hbytes 2 (by decide)) (hite (hbytes 4 (by decide)) ?_))
  refine hite (hstring 1 (by decide)) (hite (hstring 2 (by decide)) (hite (hstring 4 (by decide)) ?_))
  refine hite (hlist 1 (by decide)) (hite (hlist 2 (by decide)) (hite (hlist 4 (by decide)) ?_))
  refine hite (hdict 1 (by decide)) (hite (hdict 2 (by decide)) (hite (hdict 4 (by decide)) ?_))
  refine hite (hstruct 1 (by decide)) (hite (hstruct 2 (by decide)) ?_)
  have hlow : (marker &&& 0x0F).toNat < 16 := by
    rw [UInt8.toNat_and]
    exact Nat.lt_of_le_of_lt Nat.and_le_right (by decide)
  have htiny : decodeTinyOrInt d marker =
      if -16 ≤ marker.toInt8.toInt ∧ marker.toInt8.toInt ≤ 127 then fun input => .ok (.integer marker.toInt8.toInt64,input)
      else if marker &&& 0xF0 = 0x80 then decodeStringPayload (marker &&& 0x0F).toNat
      else if marker &&& 0xF0 = 0x90 then decodeListItems d (marker &&& 0x0F).toNat
      else if marker &&& 0xF0 = 0xA0 then decodeDictItems d (marker &&& 0x0F).toNat
      else if marker &&& 0xF0 = 0xB0 then decodeStructFields d (marker &&& 0x0F).toNat
      else fun _ => .error (.unknownMarker marker) := by
    funext input
    unfold decodeTinyOrInt
    split_ifs <;> rfl
  rw [htiny]
  exact hite (hleaf _ trivial) (hite (hstring' _ hlow) (hite (hlist' _ hlow) (hite (hdict' _ hlow)
    (hite (hstruct' _ hlow) (hunknown marker)))))

/-! ## Locality -/

/-- Nothing behind a value matters. -/
def IsLocal {α : Type} (r : Read α) : Prop := Reader.Local BoltError.eof r

theorem local_splitN (n : ℕ) : IsLocal (splitN n) := Reader.Local.take n

theorem local_splitFirst : IsLocal splitFirst := Reader.Local.first rfl (fun _ _ => rfl)

theorem local_withLength {α : Type} {n : ℕ} {payload : ℕ → Read α} (h : ∀ len, IsLocal (payload len)) :
    IsLocal (withLength n payload) := by
  refine (local_splitN n).of_bind (fun bytes => h (ofBe bytes)) (fun input bytes rest hs => ?_) (fun input e hs => ?_)
  · simp only [withLength,hs]
  · simp only [withLength,hs]

theorem local_string (len : ℕ) : IsLocal (decodeStringPayload len) := by
  have heq : decodeStringPayload len = Reader.bind (splitN len) (fun bytes rest =>
      (fromUtf8 bytes).elim (.error .notUtf8) (fun s => .ok (.string s,rest))) := by
    funext input
    unfold decodeStringPayload Reader.bind splitN
    split_ifs
    · rfl
    · dsimp only
      cases fromUtf8 (input.take len) <;> rfl
  rw [heq]
  refine (local_splitN len).bind (fun bytes => ?_)
  cases fromUtf8 bytes with
  | none => exact Reader.Local.fail (by simp)
  | some s => exact Reader.Local.pure _

theorem local_bytes (len : ℕ) : IsLocal (decodeBytesPayload len) := by
  have heq : decodeBytesPayload len = Reader.bind (splitN len) (fun bytes rest => .ok (.bytes bytes,rest)) := by
    funext input
    unfold decodeBytesPayload Reader.bind splitN
    split_ifs <;> rfl
  rw [heq]
  exact (local_splitN len).bind (fun bytes => Reader.Local.pure _)

theorem local_items {d : Read Value} (h : IsLocal d) (n : ℕ) : IsLocal (decodeItems d n) := by
  induction n with
  | zero => exact Reader.Local.pure []
  | succ n ih =>
    refine h.of_bind (fun item => ih.bind (fun items => Reader.Local.pure (item :: items)))
      (fun input item rest hd => ?_) (fun input e hd => ?_)
    · simp only [decodeItems,hd,Reader.bind]
      cases decodeItems d n rest with
      | error e => rfl
      | ok r => rfl
    · simp only [decodeItems,hd]

/-- What follows a key: its value and the entries behind it. -/
def entryOf (d : Read Value) (n : ℕ) (map : Dict) : Value → Read Dict
  | .string k => Reader.bind d (fun val => decodeEntries d n (insertEntry k val map))
  | other => fun _ => .error (.keyNotString other)

theorem local_entries {d : Read Value} (h : IsLocal d) (n : ℕ) (map : Dict) : IsLocal (decodeEntries d n map) := by
  induction n generalizing map with
  | zero => exact Reader.Local.pure map
  | succ n ih =>
    have hrest : ∀ key : Value, IsLocal (entryOf d n map key) := by
      intro key
      cases key with
      | string k => exact h.bind (fun val => ih _)
      | _ => exact Reader.Local.fail (by simp)
    refine h.of_bind hrest (fun input key rest hd => ?_) (fun input e hd => ?_)
    · simp only [decodeEntries,hd]
      cases key with
      | string k =>
        simp only [entryOf,Reader.bind]
        cases d rest with
        | error e => rfl
        | ok r => rfl
      | _ => rfl
    · simp only [decodeEntries,hd]

theorem local_struct {d : Read Value} (h : IsLocal d) (size : ℕ) : IsLocal (decodeStructFields d size) := by
  refine local_splitFirst.of_bind (fun tag => (local_items h size).bind (fun fields => Reader.Local.pure (Value.struct tag fields)))
    (fun input tag rest hs => ?_) (fun input e hs => ?_)
  · simp only [decodeStructFields,hs,Reader.bind]
    cases decodeItems d size rest with
    | error e => rfl
    | ok r => rfl
  · simp only [decodeStructFields,hs]

theorem local_marker {d : Read Value} (h : IsLocal d) (marker : UInt8) : IsLocal (decodeWithMarker d marker) := by
  have hlist : ∀ len, IsLocal (decodeListItems d len) := by
    intro len
    refine (local_items h len).of_bind (fun items => Reader.Local.pure (.list items)) (fun input items rest hd => ?_)
      (fun input e hd => ?_)
    · simp only [decodeListItems,hd]
    · simp only [decodeListItems,hd]
  have hdict : ∀ len, IsLocal (decodeDictItems d len) := by
    intro len
    refine (local_entries h len []).of_bind (fun entries => Reader.Local.pure (.dictionary entries))
      (fun input entries rest hd => ?_) (fun input e hd => ?_)
    · simp only [decodeDictItems,hd]
    · simp only [decodeDictItems,hd]
  have hfloat : IsLocal decodeFloat := by
    refine (local_splitN 8).of_bind (fun bytes => Reader.Local.pure (.float (BitVec.ofNat 64 (ofBe bytes))))
      (fun input bytes rest hs => ?_) (fun input e hs => ?_)
    · simp only [decodeFloat,hs]
    · simp only [decodeFloat,hs]
  refine marker_cases (P := IsLocal) (fun v _ => Reader.Local.pure v) hfloat
    (fun n value => local_withLength (fun bits => Reader.Local.pure _)) (fun m => Reader.Local.fail (by simp)) ?_ marker
  intro payload hpayload
  have hall : ∀ len, IsLocal (payload len) := by
    simp only [List.mem_cons,List.not_mem_nil,or_false] at hpayload
    obtain rfl | rfl | rfl | rfl | rfl := hpayload
    · exact local_bytes
    · exact local_string
    · exact hlist
    · exact hdict
    · exact local_struct h
  exact ⟨fun n _ => local_withLength hall,fun len _ => hall len⟩

theorem local_decodeWithin (fuel : ℕ) : IsLocal (decodeWithin fuel) := by
  induction fuel with
  | zero => exact Reader.Local.empty
  | succ fuel ih =>
    refine local_splitFirst.of_bind (fun marker => local_marker ih marker) (fun input marker rest hs => ?_) (fun input e hs => ?_)
    · simp only [decodeWithin,hs]
    · simp only [decodeWithin,hs]

/-! ## What is read can be written -/

/-- The keys of a dictionary are in order, and its lengths fit their headers. -/
def Value.Fits (v : Value) : Prop := v.KeysSorted ∧ v.Short

/-- Entries as they stand while a dictionary is read. -/
structure Ordered (entries : Dict) : Prop where
  sorted : entries.Pairwise (fun a b => a.1 < b.1)
  short : ∀ e ∈ entries, (utf8 e.1).length < 2^32

theorem insertEntry_length (k : String) (v : Value) (entries : Dict) : (insertEntry k v entries).length ≤ entries.length+1 := by
  induction entries with
  | nil => simp [insertEntry]
  | cons e entries ih =>
    simp only [insertEntry]
    split_ifs
    · simp
    · simp
    · simp only [List.length_cons]
      omega

theorem Ordered.insert {k : String} {v : Value} {entries : Dict} (h : Ordered entries) (hk : (utf8 k).length < 2^32) :
    Ordered (insertEntry k v entries) := by
  constructor
  · obtain ⟨hsorted,-⟩ := h
    induction entries with
    | nil => simp [insertEntry]
    | cons e entries ih =>
      obtain ⟨k',v'⟩ := e
      obtain ⟨hfirst,hrest⟩ := List.pairwise_cons.mp hsorted
      simp only [insertEntry]
      split_ifs with hlt heq
      · refine List.pairwise_cons.mpr ⟨fun e he => ?_,hsorted⟩
        obtain rfl | he := List.mem_cons.mp he
        · exact hlt
        · exact lt_trans hlt (hfirst e he)
      · subst heq
        exact List.pairwise_cons.mpr ⟨hfirst,hrest⟩
      · refine List.pairwise_cons.mpr ⟨fun e he => ?_,ih hrest⟩
        obtain rfl | he := mem_insertEntry he
        · exact lt_of_le_of_ne (not_lt.mp hlt) (fun h => heq h.symm)
        · exact hfirst e he
  · intro e he
    obtain rfl | he := mem_insertEntry he
    · exact hk
    · exact h.short e he

theorem utf8_fromUtf8 {bytes : List UInt8} {s : String} (h : fromUtf8 bytes = some s) : utf8 s = bytes := by
  unfold fromUtf8 String.fromUTF8? at h
  split_ifs at h with hv
  obtain rfl := Option.some.inj h
  simp [utf8,String.fromUTF8]

/-- All that is read with `r` fits. -/
def YieldsFit (r : Read Value) : Prop := ∀ input v rest, r input = .ok (v,rest) → v.All Value.Fits

section Containers
variable {d : Read Value} (h : Yields (Value.All Value.Fits) d)

theorem fits_withLength {n : ℕ} {payload : ℕ → Read Value} (hn : n ≤ 4) (hp : ∀ len < 2^32, YieldsFit (payload len)) :
    YieldsFit (withLength n payload) := by
  intro input v rest hr
  unfold withLength at hr
  split at hr
  · cases hr
  · rename_i bytes rest' hs
    obtain ⟨hlen,-⟩ := splitN_ok hs
    have hlt : ofBe bytes < 2^32 := by
      have hof := ofBe_lt bytes
      rw [hlen] at hof
      have hpow : 256^n ≤ 256^4 := Nat.pow_le_pow_right (by decide) hn
      omega
    exact hp _ hlt rest' v rest hr

theorem fits_string {len : ℕ} (hlen : len < 2^32) : YieldsFit (decodeStringPayload len) := by
  intro input v rest hr
  unfold decodeStringPayload at hr
  split_ifs at hr with hshort
  split at hr
  · cases hr
  · rename_i s hs
    obtain ⟨rfl,rfl⟩ := Prod.mk.inj (Except.ok.inj hr)
    refine .intro ⟨trivial,?_⟩ (by simp [Value.children])
    rw [Value.Short,utf8_fromUtf8 hs,List.length_take]
    omega

theorem fits_bytes {len : ℕ} (hlen : len < 2^32) : YieldsFit (decodeBytesPayload len) := by
  intro input v rest hr
  unfold decodeBytesPayload at hr
  split_ifs at hr
  obtain ⟨rfl,rfl⟩ := Prod.mk.inj (Except.ok.inj hr)
  refine .intro ⟨trivial,?_⟩ (by simp [Value.children])
  rw [Value.Short,List.length_take]
  omega

include h

theorem fits_list {len : ℕ} (hlen : len < 2^32) : YieldsFit (decodeListItems d len) := by
  intro input v rest hr
  unfold decodeListItems at hr
  split at hr
  · cases hr
  · rename_i items rest' hitems
    obtain ⟨rfl,rfl⟩ := Prod.mk.inj (Except.ok.inj hr)
    obtain ⟨hcount,hall,-⟩ := decodeItems_yields h hitems
    refine .intro ⟨trivial,?_⟩ hall
    rw [Value.Short,hcount]
    exact hlen

theorem fits_struct (size : ℕ) : YieldsFit (decodeStructFields d size) := by
  intro input v rest hr
  unfold decodeStructFields at hr
  split at hr
  · cases hr
  · split at hr
    · cases hr
    · rename_i fields rest' hfields
      obtain ⟨rfl,rfl⟩ := Prod.mk.inj (Except.ok.inj hr)
      obtain ⟨-,hall,-⟩ := decodeItems_yields h hfields
      exact .intro ⟨trivial,trivial⟩ hall

theorem decodeEntries_ordered {n : ℕ} {map entries : Dict} {input rest : List UInt8} (hmap : Ordered map)
    (hr : decodeEntries d n map input = .ok (entries,rest)) : Ordered entries ∧ entries.length ≤ map.length+n := by
  induction n generalizing map input with
  | zero =>
    obtain ⟨rfl,-⟩ := Prod.mk.inj (Except.ok.inj hr)
    exact ⟨hmap,le_rfl⟩
  | succ n ih =>
    simp only [decodeEntries] at hr
    split at hr
    · cases hr
    · rename_i key rest₁ hkey
      split at hr
      · cases hr
      · rename_i val rest₂ hval
        have hshort : (utf8 key).length < 2^32 := (h.value _ _ _ hkey).here.2
        obtain ⟨hordered,hlen⟩ := ih (hmap.insert hshort) hr
        have hone := insertEntry_length key val map
        exact ⟨hordered,by omega⟩
    · cases hr

theorem fits_dict {len : ℕ} (hlen : len < 2^32) : YieldsFit (decodeDictItems d len) := by
  intro input v rest hr
  unfold decodeDictItems at hr
  split at hr
  · cases hr
  · rename_i entries rest' hentries
    obtain ⟨rfl,rfl⟩ := Prod.mk.inj (Except.ok.inj hr)
    obtain ⟨hordered,hcount⟩ := decodeEntries_ordered h ⟨List.Pairwise.nil,by simp⟩ hentries
    obtain ⟨hall,-⟩ := decodeEntries_yields h hentries (by simp)
    refine .intro ⟨hordered.sorted,by rw [List.length_nil] at hcount; omega,hordered.short⟩ (fun c hc => ?_)
    obtain ⟨e,he,rfl⟩ := List.mem_map.mp hc
    exact hall e he

theorem fits_marker (marker : UInt8) : YieldsFit (decodeWithMarker d marker) := by
  have hleaf : ∀ v : Value, v.children = [] → v.Fits → YieldsFit (fun input => .ok (v,input)) := by
    intro v hv hfits input w rest hr
    obtain ⟨rfl,-⟩ := Prod.mk.inj (Except.ok.inj hr)
    refine .intro hfits (fun c hc => ?_)
    rw [hv] at hc
    cases hc
  have hsimple : ∀ v : Value, v.Simple → YieldsFit (fun input => .ok (v,input)) := by
    intro v hv
    cases v <;> first | exact hleaf _ rfl ⟨trivial,trivial⟩ | exact hv.elim
  refine marker_cases (P := YieldsFit) hsimple ?_ (fun n value => ?_) (fun m input v rest hr => by cases hr) ?_ marker
  · intro input v rest hr
    unfold decodeFloat at hr
    split at hr
    · cases hr
    · exact hleaf (.float _) rfl ⟨trivial,trivial⟩ _ v rest hr
  · intro input v rest hr
    unfold withInteger withLength at hr
    split at hr
    · cases hr
    · exact hsimple (.integer _) trivial _ v rest hr
  · intro payload hpayload
    have hall : ∀ len < 2^32, YieldsFit (payload len) := by
      intro len hlen
      simp only [List.mem_cons,List.not_mem_nil,or_false] at hpayload
      obtain rfl | rfl | rfl | rfl | rfl := hpayload
      · exact fits_bytes hlen
      · exact fits_string hlen
      · exact fits_list h hlen
      · exact fits_dict h hlen
      · exact fits_struct h len
    exact ⟨fun n hn => fits_withLength hn hall,fun len hlen => hall len (by omega)⟩

end Containers

theorem decodeWithin_fits (fuel : ℕ) : Yields (Value.All Value.Fits) (decodeWithin fuel) := by
  induction fuel with
  | zero =>
    refine ⟨fun input v rest h => ?_,(decodeWithin_yields 0).rest⟩
    cases h
  | succ fuel ih =>
    refine ⟨fun input v rest h => ?_,(decodeWithin_yields (fuel+1)).rest⟩
    simp only [decodeWithin] at h
    split at h
    · cases h
    · exact fits_marker ih _ _ v rest h

/-! ## The decoder -/

theorem decode_local {b : List UInt8} (t : List UInt8) : ∃ r : Read Value, IsLocal r ∧ ∀ input, input.length ≤ (b ++ t).length →
    r input = decode input :=
  ⟨decodeWithin (b ++ t).length,local_decodeWithin _,fun _ h => decodeWithin_eq h⟩

theorem decode_again {b rest : List UInt8} {v : Value} (h : decode b = .ok (v,rest)) (t : List UInt8) :
    decode (encode v ++ t) = .ok (v,t) := by
  have hfits := (decodeWithin_fits b.length).value b v rest h
  have hnarrow := (decodeWithin_yields b.length).value b v rest h
  have hpart : ∀ {p : Value → Prop}, (∀ w, w.Fits → p w) → ∀ {w : Value}, w.All Value.Fits → w.All p := by
    intro p hp w hw
    induction hw with
    | intro here _ ih => exact .intro (hp _ here) ih
  exact (decode_encode (hpart (fun w hw => hw.1) hfits) (hpart (fun w hw => hw.2) hfits)).mpr hnarrow t

/-- Decoding takes a value from the front whatever follows it, asks for more on every proper beginning of what it
takes, and refuses an unknown marker whatever follows. -/
theorem decode_prefix_free (b : List UInt8) :
    (∀ v rest, decode b = .ok (v,rest) →
      (∃ used, used ≠ [] ∧ b = used ++ rest ∧ ∀ p, p <+: used → p ≠ used → decode p = .error .eof) ∧
      (∀ t, decode (b ++ t) = .ok (v,rest ++ t)) ∧ ∀ t, decode (encode v ++ t) = .ok (v,t)) ∧
    ∀ marker, decode b = .error (.unknownMarker marker) → ∀ t, decode (b ++ t) = .error (.unknownMarker marker) := by
  constructor
  · intro v rest h
    refine ⟨?_,fun t => ?_,decode_again h⟩
    · obtain ⟨r,hlocal,hr⟩ := decode_local (b := b) []
      rw [List.append_nil] at hr
      obtain ⟨used,hb,htake⟩ := hlocal.ok ((hr b le_rfl).trans h)
      have hshort := (decodeWithin_yields b.length).rest b v rest h
      refine ⟨used,?_,hb,fun p hp hne => ?_⟩
      · rintro rfl
        rw [hb,List.nil_append] at hshort
        omega
      · rw [← hr p (hp.length_le.trans (by rw [hb,List.length_append]; omega))]
        exact htake.short p hp hne
    · obtain ⟨r,hlocal,hr⟩ := decode_local (b := b) t
      obtain ⟨used,hb,htake⟩ := hlocal.ok ((hr b (by rw [List.length_append]; omega)).trans h)
      rw [← hr (b ++ t) le_rfl,hb,List.append_assoc]
      exact htake.all (rest ++ t)
  · intro marker h t
    obtain ⟨r,hlocal,hr⟩ := decode_local (b := b) t
    rw [← hr (b ++ t) le_rfl]
    exact hlocal.refused ((hr b (by rw [List.length_append]; omega)).trans h) (by simp) t

/-- A number in more bytes than it needs, with a value behind it. -/
theorem decode_prefix_free_sample :
    decode ([0xC9,0x00,0x07] ++ [0x01]) = .ok (.integer 7,[0x01]) ∧ decode [0xC9,0x00] = .error .eof := by
  obtain ⟨hok,-⟩ := decode_prefix_free [0xC9,0x00,0x07]
  obtain ⟨⟨used,-,hb,hshort⟩,hall,-⟩ := hok (.integer 7) [] rfl
  obtain rfl : [0xC9,0x00,0x07] = used := by rw [hb,List.append_nil]
  exact ⟨hall [0x01],hshort [0xC9,0x00] ⟨[0x07],rfl⟩ (by decide)⟩

end Drevo.Bolt
