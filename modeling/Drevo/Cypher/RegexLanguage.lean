import Drevo.Cypher.Regex

/-! The language of a pattern, and what of it the matcher finds: each repetition is to match something until the last,
which leaves out matches that need nothing to be repeated up to the lower bound. -/
namespace Drevo.Cypher.Regexp
open Lib

section Language
variable (times : (ℕ → ℕ → Prop) → ℕ → ℕ → ℕ → Prop) (chars : List Char) (ci : Bool)

mutual

/-- The tree matches what is between two positions of the input, for a notion of repetition. -/
def Denotes : Node → ℕ → ℕ → Prop
  | .empty,x,y => y = x
  | .literal c,x,y => chars[x]?.any (fun c' => charEq c c' ci) = true ∧ y = x+1
  | .anyChar,x,y => chars[x]?.any (fun c => c ≠ '\n') = true ∧ y = x+1
  | .startOfInput,x,y => x = 0 ∧ y = x
  | .endOfInput,x,y => x = chars.length ∧ y = x
  | .charClass negated items,x,y => chars[x]?.any (fun c => items.any (fun it => it.matches c ci) != negated) = true ∧ y = x+1
  | .concat nodes,x,y => DenotesAll nodes x y
  | .alternate alts,x,y => DenotesAny alts x y
  | .repeated node min max _,x,y => ∃ n, min ≤ n ∧ (∀ most, max = some most → n ≤ most) ∧ times (fun x y => Denotes node x y) n x y

def DenotesAll : List Node → ℕ → ℕ → Prop
  | [],x,y => y = x
  | first::rest,x,y => ∃ z, Denotes first x z ∧ DenotesAll rest z y

def DenotesAny : List Node → ℕ → ℕ → Prop
  | [],_,_ => False
  | a::alts,x,y => Denotes a x y ∨ DenotesAny alts x y

end

end Language

def Regex.Matches (regex : Regex) (input : List Char) : Prop :=
  Denotes Times input regex.caseInsensitive regex.root 0 input.length

/-- And it is so with no repetition matching nothing but the last. -/
def Regex.Unpadded (regex : Regex) (input : List Char) : Prop :=
  Denotes Brief input regex.caseInsensitive regex.root 0 input.length

variable {chars input : List Char} {ci : Bool} {regex : Regex}

/-! ## Where the matcher goes on -/

/-- Two continuations go on alike from where a match can end. -/
def Agree (chars : List Char) (pos : ℕ) (k k' : ℕ → Attempt) : Prop := ∀ p, pos ≤ p → p ≤ chars.length → k p = k' p

/-! ## What the matcher decides -/

/-- The repetitions that are left from where `count` of them have been. -/
def Left (R : ℕ → ℕ → Prop) (min : ℕ) (max : Option ℕ) (count pos p : ℕ) : Prop :=
  ∃ n, min ≤ count+n ∧ (∀ most, max = some most → n = 0 ∨ count+n ≤ most) ∧ Brief R n pos p

/-- What is left is one more, the last if it matches nothing, or none. -/
theorem left_unfold (R : ℕ → ℕ → Prop) (min : ℕ) (max : Option ℕ) (count pos : ℕ) (K : ℕ → Prop) :
    ((max.all (fun most => count < most) = true ∧ ∃ p, R pos p ∧ if p = pos then min ≤ count+1 ∧ K p else ∃ q, Left R min max (count+1) p q ∧ K q) ∨
      (decide (min ≤ count) = true ∧ K pos)) ↔ ∃ p, Left R min max count pos p ∧ K p := by
  simp only [Option.all_eq_true,decide_eq_true_eq]
  constructor
  · rintro (⟨hlt,p,hR,hnext⟩ | ⟨hmin,hK⟩)
    · split_ifs at hnext with hp
      · exact ⟨p,⟨1,hnext.1,fun most hmost => .inr (hlt most hmost),.last hR⟩,hnext.2⟩
      · obtain ⟨q,⟨n,hmin,hmax,hbrief⟩,hK⟩ := hnext
        refine ⟨q,⟨n+1,by omega,fun most hmost => .inr ?_,.succ hR hp hbrief⟩,hK⟩
        have := hlt most hmost
        have := hmax most hmost
        omega
    · exact ⟨pos,⟨0,hmin,fun _ _ => .inl rfl,.zero pos⟩,hK⟩
  · rintro ⟨q,⟨n,hmin,hmax,hbrief⟩,hK⟩
    have hlt : n ≠ 0 → ∀ most, max = some most → count < most := by
      intro hn most hmost
      have := hmax most hmost
      omega
    cases hbrief with
    | zero => exact .inr ⟨hmin,hK⟩
    | last hR =>
      refine .inl ⟨hlt one_ne_zero,q,hR,?_⟩
      split_ifs
      · exact ⟨hmin,hK⟩
      · exact ⟨q,⟨0,hmin,fun _ _ => .inl rfl,.zero q⟩,hK⟩
    | @succ n _ p _ hR hne hrest =>
      refine .inl ⟨hlt (Nat.succ_ne_zero n),p,hR,?_⟩
      rw [if_neg hne]
      refine ⟨q,⟨n,by omega,fun most hmost => .inr ?_,hrest⟩,hK⟩
      have := hmax most hmost
      omega

theorem mRepeat_decides {inner : ℕ → (ℕ → Attempt) → Attempt} {R : ℕ → ℕ → Prop}
    (hinner : ∀ (pos : ℕ) (k : ℕ → Attempt) (K : ℕ → Prop), (∀ p, Decides (k p) (K p)) → Decides (inner pos k) (∃ p, R pos p ∧ K p)) (min : ℕ) (max : Option ℕ) (greedy : Bool)
    {k : ℕ → Attempt} {K : ℕ → Prop} (hk : ∀ p, Decides (k p) (K p)) (fuel count pos : ℕ) :
    Decides (mRepeat inner min max greedy fuel count pos k) (∃ p, Left R min max count pos p ∧ K p) := by
  induction fuel generalizing count pos with
  | zero => exact .overflow _
  | succ fuel ih =>
    have hnext : ∀ p, Decides (if p = pos then Attempt.guarded (min ≤ count+1) (k p) else mRepeat inner min max greedy fuel (count+1) p k)
        (if p = pos then min ≤ count+1 ∧ K p else ∃ q, Left R min max (count+1) p q ∧ K q) := by
      intro p
      split_ifs
      · exact (Decides.guarded (fun _ => hk p)).congr (by simp)
      · exact ih (count+1) p
    have hmore := Decides.guarded (c := max.all (fun most => count < most)) (fun _ => hinner pos _ _ hnext)
    have hstop := Decides.guarded (c := decide (min ≤ count)) (fun _ => hk pos)
    have hspec := left_unfold R min max count pos K
    rw [mRepeat]
    cases greedy with
    | true => exact (hmore.orElse hstop).congr hspec
    | false => exact (hstop.orElse hmore).congr (or_comm.trans hspec)

mutual

theorem m_decides : ∀ (node : Node) (pos : ℕ) (k : ℕ → Attempt) (K : ℕ → Prop), (∀ p, Decides (k p) (K p)) →
    Decides (m chars ci node pos k) (∃ p, Denotes Brief chars ci node pos p ∧ K p)
  | .empty,pos,k,K,hk => by
    rw [m]
    exact (hk pos).charged.congr (by simp [Denotes])
  | .literal c,pos,k,K,hk => by
    rw [m]
    exact (Decides.guarded (fun _ => hk (pos+1))).charged.congr (by simp [Denotes,and_assoc])
  | .anyChar,pos,k,K,hk => by
    rw [m]
    exact (Decides.guarded (fun _ => hk (pos+1))).charged.congr (by simp [Denotes,and_assoc])
  | .startOfInput,pos,k,K,hk => by
    rw [m]
    exact (Decides.guarded (fun _ => hk pos)).charged.congr (by simp [Denotes,and_assoc])
  | .endOfInput,pos,k,K,hk => by
    rw [m]
    exact (Decides.guarded (fun _ => hk pos)).charged.congr (by simp [Denotes,and_assoc])
  | .charClass negated items,pos,k,K,hk => by
    rw [m]
    exact (Decides.guarded (fun _ => hk (pos+1))).charged.congr (by simp [Denotes,and_assoc])
  | .concat nodes,pos,k,K,hk => by
    rw [m]
    exact (mConcat_decides nodes pos k K hk).charged.congr (by simp [Denotes])
  | .alternate alts,pos,k,K,hk => by
    rw [m]
    exact (mAny_decides alts pos k K hk).charged.congr (by simp [Denotes])
  | .repeated node min max greedy,pos,k,K,hk => by
    rw [m]
    refine (mRepeat_decides (fun pos k K hk => m_decides node pos k K hk) min max greedy hk _ 0 pos).charged.congr ?_
    refine exists_congr (fun p => and_congr_left (fun _ => ?_))
    simp only [Denotes,Left,zero_add]
    refine exists_congr (fun n => and_congr_right (fun _ => and_congr_left (fun _ => ?_)))
    refine forall_congr' (fun most => imp_congr_right (fun _ => ?_))
    omega

theorem mConcat_decides : ∀ (nodes : List Node) (pos : ℕ) (k : ℕ → Attempt) (K : ℕ → Prop), (∀ p, Decides (k p) (K p)) →
    Decides (mConcat chars ci nodes pos k) (∃ p, DenotesAll Brief chars ci nodes pos p ∧ K p)
  | [],pos,k,K,hk => by
    rw [mConcat]
    exact (hk pos).congr (by simp [DenotesAll])
  | first::rest,pos,k,K,hk => by
    rw [mConcat]
    refine (m_decides first pos _ _ (fun p => mConcat_decides rest p k K hk)).congr ?_
    simp only [DenotesAll]
    constructor
    · rintro ⟨z,hz,p,hp,hK⟩
      exact ⟨p,⟨z,hz,hp⟩,hK⟩
    · rintro ⟨p,⟨z,hz,hp⟩,hK⟩
      exact ⟨z,hz,p,hp,hK⟩

theorem mAny_decides : ∀ (alts : List Node) (pos : ℕ) (k : ℕ → Attempt) (K : ℕ → Prop), (∀ p, Decides (k p) (K p)) →
    Decides (mAny chars ci alts pos k) (∃ p, DenotesAny Brief chars ci alts pos p ∧ K p)
  | [],pos,k,K,hk => by
    rw [mAny]
    exact (Decides.answer false).congr (by simp [DenotesAny])
  | a::alts,pos,k,K,hk => by
    rw [mAny]
    refine ((m_decides a pos k K hk).orElse (mAny_decides alts pos k K hk)).congr ?_
    simp only [DenotesAny,or_and_right,exists_or]

end

theorem isMatch_iff {b : Bool} (h : regex.isMatch input = .ok b) : b = true ↔ regex.Unpadded input := by
  have hdecides : Decides (m input regex.caseInsensitive regex.root 0 (fun p => Attempt.answer (p = input.length))) _ :=
    m_decides regex.root 0 _ (fun p => p = input.length) (fun p => (Decides.answer _).congr (by simp))
  have hspec : (∃ p, Denotes Brief input regex.caseInsensitive regex.root 0 p ∧ p = input.length) ↔ regex.Unpadded input := by
    rw [Regex.Unpadded]
    exact exists_eq_right
  have hdecides := hdecides.congr hspec
  simp only [Regex.isMatch] at h
  split_ifs at h with ho
  cases h
  constructor
  · exact hdecides.sound _
  · intro hu
    by_contra hb
    exact hdecides.complete _ (Bool.eq_false_iff.mpr hb) (Bool.eq_false_iff.mpr ho) hu

/-! ## What is left out -/

mutual

theorem Denotes.times : ∀ (node : Node) (x y : ℕ), Denotes Brief chars ci node x y → Denotes Times chars ci node x y
  | .empty,_,_,h | .literal _,_,_,h | .anyChar,_,_,h | .startOfInput,_,_,h | .endOfInput,_,_,h | .charClass _ _,_,_,h => by
    simpa only [Denotes] using h
  | .concat nodes,x,y,h => by
    rw [Denotes] at h ⊢
    exact DenotesAll.times nodes x y h
  | .alternate alts,x,y,h => by
    rw [Denotes] at h ⊢
    exact DenotesAny.times alts x y h
  | .repeated node min max _,x,y,h => by
    rw [Denotes] at h ⊢
    obtain ⟨n,hmin,hmax,hbrief⟩ := h
    exact ⟨n,hmin,hmax,hbrief.times.mono (Denotes.times node)⟩

theorem DenotesAll.times : ∀ (nodes : List Node) (x y : ℕ), DenotesAll Brief chars ci nodes x y → DenotesAll Times chars ci nodes x y
  | [],_,_,h => by
    rw [DenotesAll] at h ⊢
    exact h
  | first::rest,x,y,h => by
    rw [DenotesAll] at h ⊢
    obtain ⟨z,hz,hrest⟩ := h
    exact ⟨z,Denotes.times first x z hz,DenotesAll.times rest z y hrest⟩

theorem DenotesAny.times : ∀ (alts : List Node) (x y : ℕ), DenotesAny Brief chars ci alts x y → DenotesAny Times chars ci alts x y
  | [],_,_,h => by
    rw [DenotesAny] at h
    exact h.elim
  | a::alts,x,y,h => by
    rw [DenotesAny] at h ⊢
    exact h.imp (Denotes.times a x y) (DenotesAny.times alts x y)

end

/-- The matcher finds what is in the language exactly when that needs no padding. -/
theorem fullMatch_matches_iff {fuel : ℕ} {pattern : List Char} {b : Bool} (h : fullMatch fuel pattern input = .ok b) :
    ∃ regex, compile fuel pattern = .ok regex ∧ ((b = true ↔ regex.Matches input) ↔ (regex.Matches input → regex.Unpadded input)) := by
  unfold fullMatch at h
  cases hcompile : compile fuel pattern with
  | error e =>
    rw [hcompile] at h
    cases h
  | ok regex =>
    rw [hcompile] at h
    simp only [bind,Except.bind] at h
    split at h
    · next matched hmatch =>
      cases h
      have hiff := isMatch_iff hmatch
      have hsub : regex.Unpadded input → regex.Matches input := Denotes.times regex.root 0 input.length
      refine ⟨regex,rfl,fun hspec hm => hiff.mp (hspec.mpr hm),fun hall => ⟨fun hb => hsub (hiff.mp hb),fun hm => hiff.mpr (hall hm)⟩⟩
    · cases h

theorem letter_matched : ∃ regex, compile 20 ['a'] = .ok regex ∧ ((true = true ↔ regex.Matches ['a']) ↔ (regex.Matches ['a'] → regex.Unpadded ['a'])) :=
  fullMatch_matches_iff (show fullMatch 20 ['a'] ['a'] = .ok true from rfl)

/-- A pattern that may match nothing, three times over: the empty input is in its language, and is not matched. -/
theorem padded_missed : fullMatch 20 ['(','a','?',')','\x7b','3','\x7d'] [] = .ok false ∧
    ∃ regex, compile 20 ['(','a','?',')','\x7b','3','\x7d'] = .ok regex ∧ regex.Matches [] := by
  refine ⟨rfl,⟨.repeated (.repeated (.literal 'a') 0 (some 1) true) 3 (some 3) true,false⟩,rfl,?_⟩
  have hnone : Denotes Times [] false (.repeated (.literal 'a') 0 (some 1) true) 0 0 := by
    rw [Denotes]
    exact ⟨0,le_rfl,by simp,.zero 0⟩
  rw [Regex.Matches,Denotes]
  exact ⟨3,le_rfl,by simp,.succ hnone (.succ hnone (.succ hnone (.zero 0)))⟩

end Drevo.Cypher.Regexp
