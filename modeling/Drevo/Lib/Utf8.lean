import Mathlib

/-! The bytes of characters: which of them begin a character, and that the characters are read back from them. -/
namespace Lib

variable {c d : Char} {b : UInt8} {l n : List Char} {m t u : List UInt8}

/-- The bytes of a list of characters. -/
def utf8Bytes (l : List Char) : List UInt8 := l.flatMap String.utf8EncodeChar

theorem toByteArray_toList (s : String) : s.toByteArray.data.toList = utf8Bytes s.toList := by
  rw [← String.utf8Encode_toList]
  simp [List.utf8Encode,utf8Bytes]

theorem utf8Bytes_append (l n : List Char) : utf8Bytes (l ++ n) = utf8Bytes l ++ utf8Bytes n := List.flatMap_append

theorem utf8EncodeChar_cons (c : Char) : ∃ b t, String.utf8EncodeChar c = b :: t ∧ b.IsUTF8FirstByte ∧ ∀ b' ∈ t, ¬ b'.IsUTF8FirstByte := by
  cases h : String.utf8EncodeChar c with
  | nil => exact absurd h String.utf8EncodeChar_ne_nil
  | cons b t =>
    refine ⟨b,t,rfl,?_,fun b' hb' => ?_⟩
    · have hpos : 0 < (String.utf8EncodeChar c).length := by rw [h]; exact Nat.succ_pos _
      have hfirst := (@UInt8.isUTF8FirstByte_getElem_utf8EncodeChar _ _ hpos).mpr rfl
      simpa [h] using hfirst
    · obtain ⟨i,hi,rfl⟩ := List.getElem_of_mem hb'
      have hpos : i+1 < (String.utf8EncodeChar c).length := by rw [h,List.length_cons]; omega
      have hfirst := (@UInt8.isUTF8FirstByte_getElem_utf8EncodeChar _ _ hpos).not.mpr (Nat.succ_ne_zero i)
      simpa [h] using hfirst

theorem utf8EncodeChar_append_inj (h : String.utf8EncodeChar c ++ m = String.utf8EncodeChar d ++ t) : c = d ∧ m = t := by
  have hc := ByteArray.utf8DecodeChar?_utf8EncodeChar_append (c := c) (b := m.toByteArray)
  have hd := ByteArray.utf8DecodeChar?_utf8EncodeChar_append (c := d) (b := t.toByteArray)
  rw [← List.toByteArray_append,h,List.toByteArray_append,hd] at hc
  obtain rfl := Option.some.inj hc
  exact ⟨rfl,List.append_cancel_left h⟩

theorem utf8Bytes_cons (c : Char) (l : List Char) : utf8Bytes (c :: l) = String.utf8EncodeChar c ++ utf8Bytes l := List.flatMap_cons

theorem utf8Bytes_prefix (h : utf8Bytes l = String.utf8EncodeChar c ++ m) : ∃ n, l = c :: n ∧ m = utf8Bytes n := by
  cases l with
  | nil => exact absurd (List.append_eq_nil_iff.mp h.symm).1 String.utf8EncodeChar_ne_nil
  | cons d l =>
    rw [utf8Bytes_cons] at h
    obtain ⟨rfl,rfl⟩ := utf8EncodeChar_append_inj h
    exact ⟨l,rfl,rfl⟩

theorem utf8Bytes_injective (h : utf8Bytes l = utf8Bytes n) : l = n := by
  induction l generalizing n with
  | nil =>
    cases n with
    | nil => rfl
    | cons d n => exact absurd (List.append_eq_nil_iff.mp h.symm).1 String.utf8EncodeChar_ne_nil
  | cons c l ih =>
    obtain ⟨n',rfl,hn⟩ := utf8Bytes_prefix (h.symm.trans (utf8Bytes_cons c l))
    rw [ih hn]

/-! ## One byte -/

theorem utf8EncodeChar_one (h : c.utf8Size = 1) : String.utf8EncodeChar c = [c.val.toUInt8] := String.utf8EncodeChar_eq_singleton h

theorem exists_of_low (hlow : b &&& 0x80 = 0) : ∃ d : Char, String.utf8EncodeChar d = [b] := by
  have hlt : b.toNat < 128 := by
    have hzero : b.toNat &&& 128 = 0 := congrArg UInt8.toNat hlow
    have hbound := b.toNat_lt
    by_contra hge
    have hbit : b.toNat.testBit 7 = true := by
      rw [Nat.testBit_eq_decide_div_mod_eq]
      exact decide_eq_true (by omega)
    have hand := congrArg (fun n => Nat.testBit n 7) hzero
    simp [Nat.testBit_and,hbit] at hand
    revert hand
    decide
  refine ⟨Char.ofNat b.toNat,?_⟩
  have hval : (Char.ofNat b.toNat).val.toNat = b.toNat := by
    have hvalid : b.toNat.isValidChar := .inl (by omega)
    rw [Char.ofNat,dif_pos hvalid]
    rfl
  have hsize : (Char.ofNat b.toNat).utf8Size = 1 := by
    rw [Char.utf8Size_eq_one_iff,UInt32.le_iff_toNat_le,hval]
    exact Nat.le_of_lt_succ hlt
  rw [utf8EncodeChar_one hsize]
  congr 1
  rw [← UInt8.toNat_inj,UInt32.toNat_toUInt8,hval]
  omega

theorem size_of_low (hb : b ∈ String.utf8EncodeChar c) (hlow : b &&& 0x80 = 0) : c.utf8Size = 1 := by
  obtain ⟨d,hd⟩ := exists_of_low hlow
  obtain ⟨b',t,hc,-,hrest⟩ := utf8EncodeChar_cons c
  rw [hc] at hb
  obtain rfl | hb := List.mem_cons.mp hb
  · have hsame : c = d := by
      refine (utf8EncodeChar_append_inj (m := []) (t := t) ?_).1
      rw [List.append_nil,hc,hd,List.singleton_append]
    rw [hsame,← String.length_utf8EncodeChar,hd,List.length_singleton]
  · exact absurd (.inl hlow) (hrest b hb)

theorem mem_utf8EncodeChar (hd : d.utf8Size = 1) (hlow : d.val.toUInt8 &&& 0x80 = 0) : d.val.toUInt8 ∈ String.utf8EncodeChar c ↔ c = d := by
  constructor
  · intro h
    have hc := size_of_low h hlow
    rw [utf8EncodeChar_one hc,List.mem_singleton] at h
    refine (utf8EncodeChar_append_inj (m := []) (t := []) ?_).1
    rw [utf8EncodeChar_one hc,utf8EncodeChar_one hd,h]
  · rintro rfl
    rw [utf8EncodeChar_one hd]
    exact List.mem_singleton_self _

theorem mem_utf8Bytes (hd : d.utf8Size = 1) (hlow : d.val.toUInt8 &&& 0x80 = 0) : d.val.toUInt8 ∈ utf8Bytes l ↔ d ∈ l := by
  rw [utf8Bytes,List.mem_flatMap]
  constructor
  · rintro ⟨c,hc,hmem⟩
    rwa [← (mem_utf8EncodeChar hd hlow).mp hmem]
  · exact fun h => ⟨d,h,(mem_utf8EncodeChar hd hlow).mpr rfl⟩

theorem length_utf8Bytes_eq_iff : (utf8Bytes l).length = l.length ↔ ∀ c ∈ l, c.utf8Size = 1 := by
  have hle : ∀ l : List Char, l.length ≤ (utf8Bytes l).length := by
    intro l
    induction l with
    | nil => exact le_refl 0
    | cons c l ih =>
      have hpos := c.utf8Size_pos
      rw [utf8Bytes_cons,List.length_append,String.length_utf8EncodeChar,List.length_cons]
      omega
  induction l with
  | nil => simp [utf8Bytes]
  | cons c l ih =>
    have hpos := c.utf8Size_pos
    have hrest := hle l
    rw [utf8Bytes_cons,List.length_append,String.length_utf8EncodeChar,List.length_cons,List.forall_mem_cons]
    constructor
    · intro h
      exact ⟨by omega,ih.mp (by omega)⟩
    · rintro ⟨hc,hall⟩
      rw [hc,ih.mpr hall,Nat.add_comm]

/-! ## Suffixes -/

theorem suffix_utf8Bytes (h : t <:+ utf8Bytes l) : ∃ u n, t = u ++ utf8Bytes n ∧ n <:+ l ∧ (∀ b ∈ u, ¬ b.IsUTF8FirstByte) ∧
    (u ≠ [] → ∃ c ∈ l, c.utf8Size ≠ 1) := by
  induction l with
  | nil => exact ⟨[],[],List.suffix_nil.mp h,List.suffix_rfl,nofun,fun hne => absurd rfl hne⟩
  | cons c l ih =>
    rw [utf8Bytes_cons] at h
    obtain ⟨b,rest,hc,-,hrest⟩ := utf8EncodeChar_cons c
    obtain hshort | ⟨u,hu,rfl⟩ : t <:+ utf8Bytes l ∨ ∃ u, u <:+ String.utf8EncodeChar c ∧ t = u ++ utf8Bytes l := by
      obtain hlt | hle := Nat.lt_or_ge (utf8Bytes l).length t.length
      · obtain ⟨u,rfl⟩ := List.suffix_of_suffix_length_le (List.suffix_append _ _) h hlt.le
        refine .inr ⟨u,?_,rfl⟩
        obtain ⟨v,hv⟩ := h
        rw [← List.append_assoc] at hv
        exact ⟨v,List.append_cancel_right hv⟩
      · exact .inl (List.suffix_of_suffix_length_le h (List.suffix_append _ _) hle)
    · obtain ⟨u,n,rfl,hn,hu,hne⟩ := ih hshort
      exact ⟨u,n,rfl,hn.trans (List.suffix_cons c l),hu,fun h => (hne h).imp (fun d hd => ⟨List.mem_cons_of_mem c hd.1,hd.2⟩)⟩
    · rw [hc] at hu
      obtain rfl | hu := List.suffix_cons_iff.mp hu
      · exact ⟨[],c :: l,by rw [List.nil_append,utf8Bytes_cons,hc],List.suffix_rfl,nofun,fun hne => absurd rfl hne⟩
      · refine ⟨u,l,rfl,List.suffix_cons c l,fun b' hb' => hrest b' (hu.subset hb'),fun hne => ⟨c,List.mem_cons_self,fun hsize => ?_⟩⟩
        have hlength := congrArg List.length hc
        rw [String.length_utf8EncodeChar,hsize,List.length_cons] at hlength
        rw [List.length_eq_zero_iff.mp (by omega : rest.length = 0)] at hu
        exact hne (List.suffix_nil.mp hu)

end Lib
