import Drevo.Auth.Privileges
import Drevo.Lib.Glob
import Drevo.Lib.Utf8

/-! Which procedure names a glob covers: the matcher goes over bytes, and takes a `*` that meets a `*` for that letter alone. -/
namespace Drevo.Auth
open Lib

/-! ## The matcher on bytes -/

namespace GlobState

/-- The pattern behind the last `*` fits at a later place than the one that is tried. -/
def Later (s : GlobState) : Prop :=
  ∃ rest x mark, s.star = some (rest,x :: mark) ∧ ∃ t, t <:+ mark ∧ GlobFits 42 63 rest t

def Covers (s : GlobState) : Prop := GlobFits 42 63 s.glob s.name ∨ s.Later

/-- Since the last `*` letters were taken one by one, and no `*` of the pattern can meet one of the name. -/
structure Sound (s : GlobState) : Prop where
  since : ∀ rest mark, s.star = some (rest,mark) → ∃ w v, rest = w ++ s.glob ∧ mark = v ++ s.name ∧ w.length = v.length ∧ 42 ∉ w
  apart : (s.star = none ∧ 42 ∉ s.glob) ∨ (42 ∉ s.name ∧ ∀ rest mark, s.star = some (rest,mark) → 42 ∉ mark)

variable {s t : GlobState}

theorem retry_some : s.retry = some t ↔ ∃ rest x mark, s.star = some (rest,x :: mark) ∧ t.glob = rest ∧ t.name = mark ∧ t.star = some (rest,mark) := by
  unfold retry
  split
  · rename_i rest x mark hstar
    rw [Option.some.injEq,hstar]
    constructor
    · rintro rfl
      exact ⟨rest,x,mark,rfl,rfl,rfl,rfl⟩
    · rintro ⟨rest',x',mark',heq,hglob,hname,hstar'⟩
      obtain ⟨rfl,hmark⟩ := Prod.mk.inj (Option.some.inj heq)
      obtain ⟨rfl,rfl⟩ := List.cons.inj hmark
      cases t
      simp_all
  · rename_i hno
    refine iff_of_false (by simp) ?_
    rintro ⟨rest,x,mark,heq,-⟩
    exact hno rest x mark heq

theorem retry_covers (h : s.retry = some t) : t.Covers ↔ s.Later := by
  obtain ⟨rest,x,mark,hstar,hglob,hname,hstar'⟩ := retry_some.mp h
  rw [Covers,Later,Later,hglob,hname,hstar,hstar']
  constructor
  · rintro (h | ⟨rest',y,mark',heq,u,hu,h⟩)
    · exact ⟨rest,x,mark,rfl,mark,List.suffix_rfl,h⟩
    · obtain ⟨rfl,rfl⟩ := Prod.mk.inj (Option.some.inj heq)
      exact ⟨rest,x,y :: mark',rfl,u,hu.trans (List.suffix_cons y mark'),h⟩
  · rintro ⟨rest',x',mark',heq,u,hu,h⟩
    obtain ⟨rfl,hmark⟩ := Prod.mk.inj (Option.some.inj heq)
    obtain ⟨rfl,rfl⟩ := List.cons.inj hmark
    cases mark with
    | nil => exact .inl (List.suffix_nil.mp hu ▸ h)
    | cons y mark =>
      obtain rfl | hu := List.suffix_cons_iff.mp hu
      · exact .inl h
      · exact .inr ⟨rest,y,mark,rfl,u,hu,h⟩

theorem retry_sound (hs : s.Sound) (h : s.retry = some t) : t.Sound := by
  obtain ⟨rest,x,mark,hstar,hglob,hname,hstar'⟩ := retry_some.mp h
  have hmark : 42 ∉ mark := by
    obtain ⟨hnone,-⟩ | ⟨-,hall⟩ := hs.apart
    · rw [hstar] at hnone
      cases hnone
    · exact fun hmem => hall _ _ hstar (List.mem_cons_of_mem x hmem)
  refine ⟨?_,.inr ⟨hname ▸ hmark,?_⟩⟩
  · rw [hstar',hglob,hname]
    intro rest' mark' heq
    obtain ⟨rfl,rfl⟩ := Prod.mk.inj (Option.some.inj heq)
    exact ⟨[],[],rfl,rfl,rfl,List.not_mem_nil⟩
  · rw [hstar']
    intro rest' mark' heq
    obtain ⟨rfl,rfl⟩ := Prod.mk.inj (Option.some.inj heq)
    exact hmark

theorem not_later_of_retry (h : s.retry = none) : ¬ s.Later := by
  rintro ⟨rest,x,mark,hstar,-⟩
  have hsome : s.retry = some { glob := rest, name := mark, star := some (rest,mark), behind := by simp } :=
    retry_some.mpr ⟨rest,x,mark,hstar,rfl,rfl,rfl⟩
  rw [h] at hsome
  cases hsome

theorem not_later_of_nil (hs : s.Sound) (hname : s.name = []) : ¬ s.Later := by
  rintro ⟨rest,x,mark,hstar,t,ht,hfits⟩
  obtain ⟨w,v,rfl,hv,hlength,hclean⟩ := hs.since rest (x :: mark) hstar
  obtain ⟨v',t',rfl,hv',-⟩ := hfits.split hclean
  have hle := ht.length_le
  rw [hname,List.append_nil] at hv
  rw [List.length_append,hv',hlength,← hv,List.length_cons] at hle
  omega

theorem later_reaches (hs : s.Sound) {g : List UInt8} (hglob : s.glob = 42 :: g) (h : s.Later) : GlobFits 42 63 s.glob s.name := by
  obtain ⟨rest,x,mark,hstar,t,ht,hfits⟩ := h
  obtain ⟨w,v,rfl,hv,hlength,hclean⟩ := hs.since rest (x :: mark) hstar
  obtain ⟨v',t',rfl,hv',hrest⟩ := hfits.split hclean
  have htail : t' <:+ s.name := by
    have hboth : v' ++ t' <:+ v ++ s.name := hv ▸ ht.trans (List.suffix_cons x mark)
    refine List.suffix_of_suffix_length_le ((List.suffix_append v' t').trans hboth) (List.suffix_append v s.name) ?_
    have hle := hboth.length_le
    rw [List.length_append,List.length_append] at hle
    omega
  rw [hglob] at hrest ⊢
  exact hrest.grow htail

/-- One step of the matcher leaves the question as it was. -/
theorem step_covers (hs : s.Sound) (h : s.step = some t) : t.Sound ∧ (t.Covers ↔ s.Covers) := by
  obtain ⟨glob,name,star,behind⟩ := s
  cases name with
  | nil => cases h
  | cons n ns =>
    cases glob with
    | nil =>
      have hretry : GlobState.retry ⟨[],n :: ns,star,behind⟩ = some t := h
      refine ⟨retry_sound hs hretry,?_⟩
      rw [retry_covers hretry,Covers,GlobFits]
      simp
    | cons g gs =>
      simp only [step] at h
      split_ifs at h with h₁ h₂
      · -- one letter of each
        obtain rfl := Option.some.inj h
        have hg : g ≠ 42 := by
          rintro rfl
          obtain ⟨-,hno⟩ | ⟨hno,-⟩ := hs.apart
          · exact hno List.mem_cons_self
          · obtain h₁ | rfl := h₁
            · exact absurd h₁ (by decide)
            · exact hno List.mem_cons_self
        refine ⟨⟨?_,?_⟩,?_⟩
        · intro rest mark hstar
          obtain ⟨w,v,hw,hv,hlength,hclean⟩ := hs.since rest mark hstar
          refine ⟨w ++ [g],v ++ [n],by simpa using hw,by simpa using hv,by simp [hlength],?_⟩
          simpa [hclean] using Ne.symm hg
        · obtain ⟨hnone,hno⟩ | ⟨hno,hall⟩ := hs.apart
          · exact .inl ⟨hnone,fun hmem => hno (List.mem_cons_of_mem g hmem)⟩
          · exact .inr ⟨fun hmem => hno (List.mem_cons_of_mem n hmem),hall⟩
        · have hletter : GlobFits 42 63 (g :: gs) (n :: ns) ↔ GlobFits 42 63 gs ns := by
            rw [globFits_letter hg,and_iff_right h₁]
          rw [Covers,Covers,hletter]
          rfl
      · -- a run begins
        obtain rfl := Option.some.inj h
        subst h₂
        have hno : 42 ∉ n :: ns := by
          obtain ⟨-,hno⟩ | ⟨hno,-⟩ := hs.apart
          · exact absurd List.mem_cons_self hno
          · exact hno
        refine ⟨⟨?_,.inr ⟨hno,?_⟩⟩,?_⟩
        · intro rest mark heq
          obtain ⟨rfl,rfl⟩ := Prod.mk.inj (Option.some.inj heq)
          exact ⟨[],[],rfl,rfl,rfl,List.not_mem_nil⟩
        · intro rest mark heq
          obtain ⟨rfl,rfl⟩ := Prod.mk.inj (Option.some.inj heq)
          exact hno
        · have hhere : Covers ⟨42 :: gs,n :: ns,star,behind⟩ ↔ GlobFits 42 63 (42 :: gs) (n :: ns) :=
            ⟨fun h => h.elim id (later_reaches hs rfl),.inl⟩
          rw [hhere,globFits_star,Covers,Later]
          constructor
          · rintro (h | ⟨rest,x,mark,heq,u,hu,h⟩)
            · exact ⟨n :: ns,List.suffix_rfl,h⟩
            · obtain ⟨rfl,hmark⟩ := Prod.mk.inj (Option.some.inj heq)
              obtain ⟨rfl,rfl⟩ := List.cons.inj hmark
              exact ⟨u,hu.trans (List.suffix_cons _ _),h⟩
          · rintro ⟨u,hu,h⟩
            obtain rfl | hu := List.suffix_cons_iff.mp hu
            · exact .inl h
            · exact .inr ⟨gs,n,ns,rfl,u,hu,h⟩
      · refine ⟨retry_sound hs h,?_⟩
        rw [retry_covers h,Covers,globFits_letter h₂]
        rw [or_iff_right (fun hfits => h₁ hfits.1)]

theorem stop_covers (hs : s.Sound) (h : s.step = none) : (s.name.isEmpty && s.glob.all (fun c => c = 42)) = true ↔ s.Covers := by
  obtain ⟨glob,name,star,behind⟩ := s
  cases name with
  | nil =>
    rw [Covers,or_iff_left (not_later_of_nil hs rfl),globFits_nil]
    simp
  | cons n ns =>
    refine iff_of_false (by simp) ?_
    cases glob with
    | nil =>
      have hretry : GlobState.retry ⟨[],n :: ns,star,behind⟩ = none := h
      rintro (hfits | hlater)
      · cases hfits
      · exact not_later_of_retry hretry hlater
    | cons g gs =>
      simp only [step] at h
      split_ifs at h with h₁ h₂
      rintro (hfits | hlater)
      · exact h₁ ((globFits_letter h₂).mp hfits).1
      · exact not_later_of_retry h hlater

theorem run_covers (s : GlobState) (hs : s.Sound) : s.run = true ↔ s.Covers := by
  rw [run]
  split
  · rename_i hstop
    exact stop_covers hs hstop
  · rename_i t hstep
    obtain ⟨ht,hcovers⟩ := step_covers hs hstep
    rw [← hcovers]
    exact run_covers t ht
termination_by s.measure
decreasing_by exact step_measure ‹_›

end GlobState

theorem globMatches_iff {glob name : List UInt8} (h : 42 ∉ glob ∨ 42 ∉ name) : globMatches glob name = true ↔ GlobFits 42 63 glob name := by
  rw [globMatches,GlobState.run_covers]
  · rw [GlobState.Covers,or_iff_left]
    rintro ⟨rest,x,mark,heq,-⟩
    cases heq
  · refine ⟨fun rest mark heq => (by cases heq),?_⟩
    obtain h | h := h
    · exact .inl ⟨rfl,h⟩
    · exact .inr ⟨h,fun rest mark heq => (by cases heq)⟩

/-! ## Characters -/

variable {g n : List Char} {c : Char} {m u : List UInt8}

theorem star_mem {l : List Char} : 42 ∈ utf8Bytes l ↔ '*' ∈ l := mem_utf8Bytes (d := '*') (by decide) (by decide)

theorem globFits_literal {w g : List UInt8} (hstar : 42 ∉ w) (hany : 63 ∉ w) : GlobFits 42 63 (w ++ g) m ↔ ∃ t, m = w ++ t ∧ GlobFits 42 63 g t := by
  induction w generalizing m with
  | nil => simp
  | cons b w ih =>
    rw [List.mem_cons,not_or] at hstar hany
    rw [List.cons_append]
    cases m with
    | nil => exact iff_of_false (not_globFits_letter (Ne.symm hstar.1)) (by simp)
    | cons x m =>
      rw [globFits_letter (Ne.symm hstar.1),ih hstar.2 hany.2,or_iff_right (Ne.symm hany.1)]
      constructor
      · rintro ⟨rfl,t,rfl,ht⟩
        exact ⟨t,rfl,ht⟩
      · rintro ⟨t,heq,ht⟩
        obtain ⟨rfl,rfl⟩ := List.cons.inj heq
        exact ⟨rfl,t,rfl,ht⟩

theorem literal_bytes (hstar : c ≠ '*') (hany : c ≠ '?') : 42 ∉ String.utf8EncodeChar c ∧ 63 ∉ String.utf8EncodeChar c :=
  ⟨fun h => hstar ((mem_utf8EncodeChar (d := '*') (by decide) (by decide)).mp h),
    fun h => hany ((mem_utf8EncodeChar (d := '?') (by decide) (by decide)).mp h)⟩

theorem globFits_within (hg : '?' ∉ g) (hu : ∀ b ∈ u, ¬ b.IsUTF8FirstByte) (h : GlobFits 42 63 (utf8Bytes g) (u ++ m)) :
    GlobFits 42 63 (utf8Bytes g) m := by
  induction g generalizing u with
  | nil => exact (List.append_eq_nil_iff.mp h).2
  | cons c g ih =>
    rw [List.mem_cons,not_or] at hg
    rw [utf8Bytes_cons] at h ⊢
    by_cases hc : c = '*'
    · subst hc
      obtain ⟨t,ht,hfits⟩ := globFits_star.mp h
      obtain ht | ⟨v,hv,rfl⟩ : t <:+ m ∨ ∃ v, v <:+ u ∧ t = v ++ m := by
        obtain hlt | hle := Nat.lt_or_ge m.length t.length
        · obtain ⟨v,rfl⟩ := List.suffix_of_suffix_length_le (List.suffix_append _ _) ht hlt.le
          obtain ⟨w,hw⟩ := ht
          rw [← List.append_assoc] at hw
          exact .inr ⟨v,⟨w,List.append_cancel_right hw⟩,rfl⟩
        · exact .inl (List.suffix_of_suffix_length_le ht (List.suffix_append _ _) hle)
      · exact globFits_star.mpr ⟨t,ht,hfits⟩
      · exact globFits_star.mpr ⟨m,List.suffix_rfl,ih hg.2 (fun b hb => hu b (hv.subset hb)) hfits⟩
    · obtain ⟨hstar,hany⟩ := literal_bytes hc (Ne.symm hg.1)
      cases u with
      | nil => exact h
      | cons b u =>
        obtain ⟨t,heq,-⟩ := (globFits_literal hstar hany).mp h
        obtain ⟨b',rest,hbytes,hfirst,-⟩ := utf8EncodeChar_cons c
        rw [hbytes] at heq
        exact absurd ((List.cons.inj heq).1 ▸ hfirst) (hu b List.mem_cons_self)

/-- Bytes and characters agree where each `?` finds characters of one byte. -/
theorem globFits_bytes (h : '?' ∈ g → ∀ c ∈ n, c.utf8Size = 1) : GlobFits 42 63 (utf8Bytes g) (utf8Bytes n) ↔ GlobFits '*' '?' g n := by
  induction g generalizing n with
  | nil =>
    rw [GlobFits]
    constructor
    · intro hnil
      exact utf8Bytes_injective (n := []) hnil
    · rintro rfl
      rfl
  | cons c g ih =>
    rw [utf8Bytes_cons]
    by_cases hstar : c = '*'
    · subst hstar
      have hstep : GlobFits 42 63 (String.utf8EncodeChar '*' ++ utf8Bytes g) (utf8Bytes n) ↔
          ∃ t, t <:+ utf8Bytes n ∧ GlobFits 42 63 (utf8Bytes g) t := globFits_star
      rw [hstep,globFits_star]
      constructor
      · rintro ⟨t,ht,hfits⟩
        obtain ⟨u,k,rfl,hk,hu,hne⟩ := suffix_utf8Bytes ht
        have hsmall : '?' ∈ g → ∀ c ∈ k, c.utf8Size = 1 := fun hg d hd => h (List.mem_cons_of_mem _ hg) d (hk.subset hd)
        refine ⟨k,hk,(ih hsmall).mp ?_⟩
        by_cases hg : '?' ∈ g
        · have hnil : u = [] := by
            by_contra hsome
            obtain ⟨d,hd,hsize⟩ := hne hsome
            exact hsize (h (List.mem_cons_of_mem _ hg) d hd)
          rwa [hnil] at hfits
        · exact globFits_within hg hu hfits
      · rintro ⟨k,⟨v,rfl⟩,hfits⟩
        refine ⟨utf8Bytes k,?_,(ih (fun hg d hd => h (List.mem_cons_of_mem _ hg) d (List.mem_append_right v hd))).mpr hfits⟩
        rw [utf8Bytes_append]
        exact List.suffix_append _ _
    by_cases hany : c = '?'
    · subst hany
      cases n with
      | nil => exact iff_of_false (not_globFits_letter (by decide)) (not_globFits_letter (by decide))
      | cons x n =>
        have hx := h List.mem_cons_self x List.mem_cons_self
        rw [utf8Bytes_cons,utf8EncodeChar_one hx,globFits_letter (by decide)]
        have hstep : GlobFits 42 63 (String.utf8EncodeChar '?' ++ utf8Bytes g) ([x.val.toUInt8] ++ utf8Bytes n) ↔
            ((63 : UInt8) = 63 ∨ 63 = x.val.toUInt8) ∧ GlobFits 42 63 (utf8Bytes g) (utf8Bytes n) := globFits_letter (by decide)
        rw [hstep,ih (fun hg d hd => h (List.mem_cons_of_mem _ hg) d (List.mem_cons_of_mem _ hd)),and_iff_right (.inl rfl),and_iff_right (.inl rfl)]
    · obtain ⟨hnostar,hnoany⟩ := literal_bytes hstar hany
      rw [globFits_literal hnostar hnoany]
      constructor
      · rintro ⟨t,heq,hfits⟩
        obtain ⟨k,rfl,rfl⟩ := utf8Bytes_prefix heq
        refine (globFits_letter hstar).mpr ⟨.inr rfl,(ih ?_).mp hfits⟩
        exact fun hg d hd => h (List.mem_cons_of_mem _ hg) d (List.mem_cons_of_mem _ hd)
      · intro hfits
        cases n with
        | nil => exact absurd hfits (not_globFits_letter hstar)
        | cons x n =>
          obtain ⟨hx,hrest⟩ := (globFits_letter hstar).mp hfits
          obtain rfl := hx.resolve_left hany
          refine ⟨utf8Bytes n,utf8Bytes_cons c n,(ih ?_).mpr hrest⟩
          exact fun hg d hd => h (List.mem_cons_of_mem _ hg) d (List.mem_cons_of_mem _ hd)

/-! ## Names -/

/-- The name is split so that each `*` of the glob takes a run of characters, each `?` one and every other character itself. -/
def Splits (glob name : String) : Prop :=
  ∃ parts : List (List Char), parts.flatten = name.toList ∧ List.Forall₂ (GlobCovers '*' '?') glob.toList parts

/-- The matcher answers as the split does. -/
def Answers (glob name : String) : Prop := (Pattern.name glob).matchesGlob name = true ↔ Splits glob name

theorem answers_iff {glob name : String} : Answers glob name ↔
    (globMatches (utf8Bytes glob.toList) (utf8Bytes name.toList) = true ↔ GlobFits '*' '?' glob.toList name.toList) := by
  rw [Answers,Splits,globFits_iff,Pattern.matchesGlob,toByteArray_toList,toByteArray_toList]

theorem answers_of_plain {glob name : String} (hstar : '*' ∈ glob.toList → '*' ∉ name.toList)
    (hany : '?' ∈ glob.toList → ∀ c ∈ name.toList, c.utf8Size = 1) : Answers glob name := by
  rw [answers_iff,globMatches_iff,globFits_bytes hany]
  by_cases h : '*' ∈ glob.toList
  · exact .inr (fun hmem => hstar h (star_mem.mp hmem))
  · exact .inl (fun hmem => h (star_mem.mp hmem))

/-! ## Names and globs that are answered wrongly -/

theorem globMatches_letter {g n : List UInt8} {b x : UInt8} (h : b = 63 ∨ b = x) : globMatches (b :: g) (x :: n) = globMatches g n := by
  rw [globMatches,GlobState.run]
  split
  · rename_i hstop
    simp only [GlobState.step,if_pos h] at hstop
    cases hstop
  · rename_i t hstep
    simp only [GlobState.step,if_pos h] at hstep
    obtain rfl := Option.some.inj hstep
    rfl

theorem globMatches_letters {w v g n : List UInt8} (h : List.Forall₂ (fun b x => b = 63 ∨ b = x) w v) :
    globMatches (w ++ g) (v ++ n) = globMatches g n := by
  induction h with
  | nil => rfl
  | cons hb _ ih => rw [List.cons_append,List.cons_append,globMatches_letter hb,ih]

theorem utf8Bytes_anys (k : ℕ) : utf8Bytes (List.replicate k '?') = List.replicate k 63 := by
  induction k with
  | zero => rfl
  | succ k ih =>
    rw [List.replicate_succ,List.replicate_succ,utf8Bytes_cons,ih]
    rfl

theorem globMatches_anys (k : ℕ) (n : List UInt8) : globMatches (List.replicate k 63) n = true ↔ n.length = k := by
  rw [globMatches_iff (.inl (fun h => absurd (List.eq_of_mem_replicate h) (by decide))),globFits_anys (by decide)]

theorem one_byte_of_answers {name : String} (h : ∀ glob, Answers glob name) : ∀ c ∈ name.toList, c.utf8Size = 1 := by
  have hanys := answers_iff.mp (h (String.ofList (List.replicate name.toList.length '?')))
  rw [String.toList_ofList,utf8Bytes_anys,globMatches_anys,globFits_anys (by decide)] at hanys
  exact length_utf8Bytes_eq_iff.mp (hanys.mpr rfl)

theorem no_star_of_answers {name : String} (h : ∀ glob, Answers glob name) : '*' ∉ name.toList := by
  intro hmem
  obtain ⟨front,back,hname⟩ := List.append_of_mem hmem
  have hsize := one_byte_of_answers h
  rw [hname] at hsize
  have hfront : (utf8Bytes front).length = front.length := length_utf8Bytes_eq_iff.mpr (fun c hc => hsize c (List.mem_append_left _ hc))
  have hback : (utf8Bytes back).length = back.length :=
    length_utf8Bytes_eq_iff.mpr (fun c hc => hsize c (List.mem_append_right _ (List.mem_cons_of_mem _ hc)))
  have hanswer := answers_iff.mp (h (String.ofList (List.replicate front.length '?' ++ '*' :: List.replicate (back.length+1) '?')))
  rw [String.toList_ofList,hname] at hanswer
  have hfits : GlobFits '*' '?' (List.replicate front.length '?' ++ '*' :: List.replicate (back.length+1) '?') (front ++ '*' :: back) :=
    .anys (by decide) front (globFits_star.mpr ⟨'*' :: back,List.suffix_rfl,(globFits_anys (by decide)).mpr rfl⟩)
  -- the two stars meet, and one letter is left over
  have hmatch := hanswer.mpr hfits
  rw [utf8Bytes_append,utf8Bytes_append,utf8Bytes_anys,utf8Bytes_cons,utf8Bytes_cons,utf8Bytes_anys,globMatches_letters ?_] at hmatch
  · have hrest : globMatches (42 :: List.replicate (back.length+1) 63) (42 :: utf8Bytes back) = true := hmatch
    rw [globMatches_letter (.inr rfl),globMatches_anys,hback] at hrest
    omega
  · rw [← hfront]
    generalize utf8Bytes front = v
    induction v with
    | nil => exact .nil
    | cons b v ih => exact .cons (.inl rfl) ih

/-- The glob as a name, with a character for each `?`. -/
def filled (y : Char) (g : List Char) : List Char := g.map (fun c => if c = '?' then y else c)

theorem globFits_filled (y : Char) (h : GlobFits '*' '?' g n) (l : List Char) : GlobFits '*' '?' (l ++ g) (filled y l ++ n) := by
  induction l with
  | nil => exact h
  | cons c l ih =>
    by_cases hc : c = '*'
    · subst hc
      exact globFits_star.mpr ⟨filled y l ++ n,List.suffix_cons _ _,ih⟩
    · refine (globFits_letter hc).mpr ⟨?_,ih⟩
      dsimp only
      split_ifs with hany
      · exact .inl hany
      · exact .inr rfl

theorem length_filled (y : Char) (g : List Char) :
    (utf8Bytes (filled y g)).length + g.count '?' = (utf8Bytes g).length + g.count '?' * y.utf8Size := by
  induction g with
  | nil => simp [filled]
  | cons c g ih =>
    have hfilled : filled y (c :: g) = (if c = '?' then y else c) :: filled y g := rfl
    rw [hfilled,utf8Bytes_cons,utf8Bytes_cons,List.length_append,List.length_append,String.length_utf8EncodeChar,String.length_utf8EncodeChar,
      List.count_cons]
    by_cases hc : c = '?'
    · subst hc
      have hone : Char.utf8Size '?' = 1 := by decide
      rw [if_pos rfl,if_pos (beq_self_eq_true _),Nat.add_mul,hone]
      omega
    · rw [if_neg hc,if_neg (by simpa using hc),Nat.add_zero]
      omega

theorem letters_filled (l : List Char) : List.Forall₂ (fun b x => b = 63 ∨ b = x) (utf8Bytes l) (utf8Bytes (filled 'x' l)) := by
  have hsame : ∀ w : List UInt8, List.Forall₂ (fun b x => b = 63 ∨ b = x) w w := fun w => List.forall₂_same.mpr (fun _ _ => .inr rfl)
  induction l with
  | nil => exact .nil
  | cons c l ih =>
    have hfilled : filled 'x' (c :: l) = (if c = '?' then 'x' else c) :: filled 'x' l := rfl
    rw [hfilled,utf8Bytes_cons,utf8Bytes_cons]
    refine List.rel_append ?_ ih
    split_ifs with hc
    · subst hc
      exact .cons (.inl rfl) .nil
    · exact hsame _

theorem no_star_of_answers_all {glob : String} (h : ∀ name, Answers glob name) : '*' ∉ glob.toList := by
  intro hmem
  obtain ⟨back,front,hsplit,hback⟩ := List.eq_append_cons_of_mem (List.mem_reverse.mpr hmem)
  have hglob : glob.toList = front.reverse ++ '*' :: back.reverse := by
    rw [← List.reverse_reverse glob.toList,hsplit]
    simp
  rw [← List.mem_reverse] at hback
  generalize front.reverse = f at hglob
  generalize back.reverse = k at hglob hback
  have hanswer := answers_iff.mp (h (String.ofList (filled 'x' f ++ '*' :: 'x' :: filled 'x' k)))
  rw [String.toList_ofList,hglob] at hanswer
  have htail : GlobFits '*' '?' k (filled 'x' k) := by
    have hfits := globFits_filled 'x' (g := []) (n := []) rfl k
    rwa [List.append_nil,List.append_nil] at hfits
  have hmatch := hanswer.mpr (globFits_filled 'x' (globFits_star.mpr ⟨filled 'x' k,(List.suffix_cons _ _).trans (List.suffix_cons _ _),htail⟩) f)
  rw [utf8Bytes_append,utf8Bytes_append,globMatches_letters (letters_filled f)] at hmatch
  have hrest : globMatches (42 :: utf8Bytes k) (42 :: utf8Bytes ('x' :: filled 'x' k)) = true := hmatch
  rw [globMatches_letter (.inr rfl),globMatches_iff (.inl (fun hin => hback (star_mem.mp hin)))] at hrest
  have hlength := hrest.length (fun hin => hback (star_mem.mp hin))
  have hfilled := length_filled 'x' k
  have hone : Char.utf8Size 'x' = 1 := by decide
  rw [utf8Bytes_cons,List.length_append,String.length_utf8EncodeChar] at hlength
  rw [hone] at hlength hfilled
  omega

theorem no_any_of_answers_all {glob : String} (h : ∀ name, Answers glob name) : '?' ∉ glob.toList := by
  intro hmem
  have hstar := no_star_of_answers_all h
  have hanswer := answers_iff.mp (h (String.ofList (filled 'é' glob.toList)))
  rw [String.toList_ofList,globMatches_iff (.inl (fun hin => hstar (star_mem.mp hin)))] at hanswer
  have hfits := globFits_filled 'é' (g := []) (n := []) rfl glob.toList
  rw [List.append_nil,List.append_nil] at hfits
  have hlength := (hanswer.mpr hfits).length (fun hin => hstar (star_mem.mp hin))
  have hfilled := length_filled 'é' glob.toList
  have htwo : Char.utf8Size 'é' = 2 := by decide
  have hcount := List.count_pos_iff.mpr hmem
  rw [htwo] at hfilled
  omega

end Drevo.Auth
