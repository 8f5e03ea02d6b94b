import Drevo.Lib.Binary64

/-! Integers as binary floating-point numbers: an operation on numbers that hold integers gives the exact integer,
rounded. -/
namespace Lib

variable {d n k : ℕ} {v w i j : ℤ}

/-! ## Rounding integers -/

theorem nearest_mul (hd : 0 < d) : nearest (n*d) d = nearest n 1 := by
  have hquot : n*d/d = n := Nat.mul_div_cancel n hd
  have hwhole : n*d/(lastPlace n*d) = n/lastPlace n := Nat.mul_div_mul_right n _ hd
  have hrest : n*d%(lastPlace n*d) = n%lastPlace n*d := Nat.mul_mod_mul_right d n _
  have hlt : 2*(n%lastPlace n*d) < lastPlace n*d ↔ 2*(n%lastPlace n) < lastPlace n := by
    rw [← mul_assoc]
    exact Nat.mul_lt_mul_right hd
  have heq : 2*(n%lastPlace n*d) = lastPlace n*d ↔ 2*(n%lastPlace n) = lastPlace n := by
    rw [← mul_assoc]
    exact Nat.mul_left_inj hd.ne'
  simp only [nearest,hquot,hwhole,hrest,hlt,heq,Nat.div_one,mul_one]

theorem nearest_shift (n k : ℕ) : nearest (n*2^k) 1 = nearest n 1*2^k := by
  by_cases hshort : Short n
  · have h := nearest_of_short ((short_shift k).mpr hshort) one_pos
    have h' := nearest_of_short hshort one_pos
    rw [mul_one] at h h'
    rw [h,h']
  · have hbig : 2^53 < n := by
      by_contra hle
      exact hshort (short_of_le (not_lt.mp hle))
    have hlog : (n*2^k).log2 = n.log2+k := log2_shift (by omega) k
    have hfar : 53 ≤ n.log2 := (Nat.le_log2 (by omega)).mpr hbig.le
    have hplace : lastPlace (n*2^k) = lastPlace n*2^k := by
      rw [lastPlace,hlog,show n.log2+k-52 = n.log2-52+k by omega,pow_add]
      rfl
    have hpos : 0 < 2^k := Nat.two_pow_pos k
    have hwhole : n*2^k/(lastPlace n*2^k) = n/lastPlace n := Nat.mul_div_mul_right n _ hpos
    have hrest : n*2^k%(lastPlace n*2^k) = n%lastPlace n*2^k := Nat.mul_mod_mul_right _ n _
    have hlt : 2*(n%lastPlace n*2^k) < lastPlace n*2^k ↔ 2*(n%lastPlace n) < lastPlace n := by
      rw [← mul_assoc]
      exact Nat.mul_lt_mul_right hpos
    have heq : 2*(n%lastPlace n*2^k) = lastPlace n*2^k ↔ 2*(n%lastPlace n) = lastPlace n := by
      rw [← mul_assoc]
      exact Nat.mul_left_inj hpos.ne'
    simp only [nearest,hplace,hwhole,hrest,hlt,heq,Nat.div_one,mul_one,mul_assoc]

/-- An integer rounded to 53 significant bits. -/
def roundInt (v : ℤ) : ℤ := if v < 0 then -(nearest v.natAbs 1 : ℕ) else (nearest v.natAbs 1 : ℕ)

theorem roundInt_natAbs (v : ℤ) : (roundInt v).natAbs = nearest v.natAbs 1 := by
  unfold roundInt
  split_ifs <;> simp

theorem roundInt_short (v : ℤ) : Short (roundInt v).natAbs := by
  rw [roundInt_natAbs]
  exact nearest_short _ _

theorem roundInt_eq_iff (v : ℤ) : roundInt v = v ↔ Short v.natAbs := by
  constructor
  · intro h
    rw [← h]
    exact roundInt_short v
  · intro h
    have hnear := nearest_of_short h one_pos
    rw [mul_one] at hnear
    rw [roundInt,hnear]
    split_ifs <;> omega

theorem roundInt_mono (h : v ≤ w) : roundInt v ≤ roundInt w := by
  unfold roundInt
  split_ifs with hv hw
  · have := nearest_mono one_pos (show w.natAbs ≤ v.natAbs by omega)
    omega
  · omega
  · omega
  · have := nearest_mono one_pos (show v.natAbs ≤ w.natAbs by omega)
    omega

theorem nearest_le (h : n ≤ 2^k) : nearest n 1 ≤ 2^k := by
  have hpow : Short (2^k) := short_of_dvd (e := k) dvd_rfl (Nat.le_mul_of_pos_left _ (by decide))
  have hself := nearest_of_short hpow one_pos
  rw [mul_one] at hself
  exact (nearest_mono one_pos h).trans hself.le

theorem nearest_ones (n : ℕ) : nearest (n*ones) 1 = nearest n 1*ones := nearest_shift n depth

theorem short_ones : Short (n*ones) ↔ Short n := short_shift depth

/-! ## Numbers that hold integers -/

/-- Far from the end of the range. -/
def Moderate (v : ℤ) : Prop := v.natAbs ≤ 2^200

theorem Moderate.bounded (h : Moderate v) : nearest v.natAbs 1*ones < beyond := by
  have hlt : (2:ℕ)^200 < 2^height := Nat.pow_lt_pow_right Nat.one_lt_two (by unfold height; omega)
  exact Nat.mul_lt_mul_of_pos_right ((nearest_le h).trans_lt hlt) ones_pos

namespace Binary64

variable {x y : Binary64} {negative : Bool}

/-- The number holds the integer; a zero has either sign. -/
def Holds (x : Binary64) (v : ℤ) : Prop :=
  ∃ negative h h', x = .finite negative (v.natAbs*ones) h h' ∧ (v ≠ 0 → negative = decide (v < 0))

theorem signed_natAbs (h : v ≠ 0 → negative = decide (v < 0)) (m : ℕ) :
    (if negative then -((v.natAbs*m : ℕ) : ℤ) else ((v.natAbs*m : ℕ) : ℤ)) = v*m := by
  by_cases hv : v = 0
  · simp [hv]
  · rw [h hv]
    obtain hneg | hpos := lt_or_ge v 0
    · have hcast : ((v.natAbs : ℕ) : ℤ) = -v := by omega
      rw [if_pos (decide_eq_true hneg),Nat.cast_mul,hcast]
      ring
    · have hcast : ((v.natAbs : ℕ) : ℤ) = v := by omega
      rw [if_neg (by simpa using hpos),Nat.cast_mul,hcast]

theorem Holds.units (h : x.Holds v) : x.units = some (v*ones) := by
  obtain ⟨negative,_,_,rfl,hsign⟩ := h
  rw [Binary64.units,signed_natAbs hsign]

theorem ofRatio_holds (hv : Moderate v) (hsign : v ≠ 0 → negative = decide (v < 0)) :
    (ofRatio negative (v.natAbs*ones) 1).Holds (roundInt v) := by
  have hnear : nearest (v.natAbs*ones) 1 = (roundInt v).natAbs*ones := by rw [nearest_ones,roundInt_natAbs]
  have hshort : Short ((roundInt v).natAbs*ones) := short_ones.mpr (roundInt_short v)
  have hbound : (roundInt v).natAbs*ones < beyond := by
    rw [roundInt_natAbs]
    exact hv.bounded
  refine ⟨negative,hshort,hbound,?_,fun hne => ?_⟩
  · rw [ofRatio,dif_pos (hnear.trans_lt hbound)]
    simp only [hnear]
  · have hv : v ≠ 0 := by
      rintro rfl
      exact hne rfl
    rw [hsign hv,decide_eq_decide]
    unfold roundInt at hne ⊢
    split_ifs at hne ⊢ <;> omega

theorem holds_ofInt (h : Moderate i) : (ofInt i).Holds (roundInt i) := ofRatio_holds h (fun _ => rfl)

theorem ofUnits_holds (h : Moderate v) (negativeZero : Bool) : (ofUnits negativeZero (v*ones)).Holds (roundInt v) := by
  have hpos : (0:ℤ) < ones := by exact_mod_cast ones_pos
  by_cases hv : v = 0
  · rw [hv,ofUnits,zero_mul,if_pos rfl,zero]
    have hzero := @ofRatio_holds 0 negativeZero (Nat.zero_le _) (fun hne => absurd rfl hne)
    rwa [Int.natAbs_zero,zero_mul] at hzero
  · rw [ofUnits,if_neg (mul_ne_zero hv hpos.ne'),Int.natAbs_mul,Int.natAbs_natCast]
    refine ofRatio_holds h (fun _ => decide_eq_decide.mpr ?_)
    exact ⟨fun hlt => by_contra fun hge => absurd hlt (not_lt.mpr (mul_nonneg (not_lt.mp hge) hpos.le)),fun hlt => mul_neg_of_neg_of_pos hlt hpos⟩

/-! ## Operations on integers -/

theorem Holds.neg (h : x.Holds v) : x.neg.Holds (-v) := by
  obtain ⟨negative,hs,hb,rfl,hsign⟩ := h
  refine ⟨!negative,by simpa using hs,by simpa using hb,by simp [Binary64.neg],fun hv => ?_⟩
  rw [hsign (by simpa using hv),← decide_not,decide_eq_decide]
  omega

theorem Holds.add (hx : x.Holds v) (hy : y.Holds w) (h : Moderate (v+w)) : (x.add y).Holds (roundInt (v+w)) := by
  obtain ⟨s,_,_,rfl,hs⟩ := hx
  obtain ⟨t,_,_,rfl,ht⟩ := hy
  rw [Binary64.add,signed_natAbs hs,signed_natAbs ht,← add_mul]
  exact ofUnits_holds h _

theorem Holds.sub (hx : x.Holds v) (hy : y.Holds w) (h : Moderate (v-w)) : (x.sub y).Holds (roundInt (v-w)) := by
  rw [sub_eq_add_neg] at h ⊢
  exact hx.add hy.neg h

theorem Holds.mul (hx : x.Holds v) (hy : y.Holds w) (h : Moderate (v*w)) : (x.mul y).Holds (roundInt (v*w)) := by
  obtain ⟨s,_,_,rfl,hs⟩ := hx
  obtain ⟨t,_,_,rfl,ht⟩ := hy
  have hscale : nearest (v.natAbs*ones*(w.natAbs*ones)) ones = nearest ((v*w).natAbs*ones) 1 := by
    rw [Int.natAbs_mul,← mul_assoc,nearest_mul ones_pos]
    ring_nf
  have hratio : ofRatio (s != t) (v.natAbs*ones*(w.natAbs*ones)) ones = ofRatio (s != t) ((v*w).natAbs*ones) 1 := by
    simp only [ofRatio,hscale]
  rw [Binary64.mul,hratio]
  refine ofRatio_holds h (fun hne => ?_)
  have hv : v ≠ 0 := left_ne_zero_of_mul hne
  have hw : w ≠ 0 := right_ne_zero_of_mul hne
  rw [hs hv,ht hw]
  obtain hv | hv := lt_or_gt_of_ne hv <;> obtain hw | hw := lt_or_gt_of_ne hw
  · rw [decide_eq_true hv,decide_eq_true hw,decide_eq_false (mul_pos_of_neg_of_neg hv hw).not_gt]
    rfl
  · rw [decide_eq_true hv,decide_eq_false hw.not_gt,decide_eq_true (mul_neg_of_neg_of_pos hv hw)]
    rfl
  · rw [decide_eq_false hv.not_gt,decide_eq_true hw,decide_eq_true (mul_neg_of_pos_of_neg hv hw)]
    rfl
  · rw [decide_eq_false hv.not_gt,decide_eq_false hw.not_gt,decide_eq_false (mul_pos hv hw).not_gt]
    rfl

theorem Holds.abs (h : x.Holds v) : x.abs.Holds |v| := by
  obtain ⟨negative,hs,hb,rfl,-⟩ := h
  refine ⟨false,by rwa [Int.natAbs_abs],by rwa [Int.natAbs_abs],by simp only [Binary64.abs,Int.natAbs_abs],fun _ => ?_⟩
  exact (decide_eq_false (not_lt.mpr (abs_nonneg v))).symm

theorem Holds.rem (hx : x.Holds v) (hy : y.Holds w) (hw : w ≠ 0) (h : Moderate v) : (x.rem y).Holds (v.tmod w) := by
  obtain ⟨s,hshort,_,rfl,hs⟩ := hx
  obtain ⟨t,hshort',_,rfl,ht⟩ := hy
  have hpos : w.natAbs*ones ≠ 0 := Nat.mul_ne_zero (Int.natAbs_ne_zero.mpr hw) ones_pos.ne'
  have hrest : v.natAbs*ones%(w.natAbs*ones) = (v.tmod w).natAbs*ones := by rw [Nat.mul_mod_mul_right,Int.natAbs_tmod]
  have hkeep : roundInt (v.tmod w) = v.tmod w := by
    rw [roundInt_eq_iff,Int.natAbs_tmod]
    exact (short_ones.mp hshort).mod (short_ones.mp hshort') (by omega)
  rw [Binary64.rem,if_neg hpos,hrest,← hkeep]
  have hle : (v.tmod w).natAbs ≤ v.natAbs := by
    rw [Int.natAbs_tmod]
    exact Nat.mod_le _ _
  have hround := @ofRatio_holds (v.tmod w) s (hle.trans h) (fun hne => ?_)
  · rwa [hkeep] at hround ⊢
  · have hv : v ≠ 0 := by
      rintro rfl
      simp at hne
    rw [hs hv,decide_eq_decide]
    obtain hneg | hnonneg := lt_or_ge v 0
    · have hrest := Int.tmod_nonneg w (show 0 ≤ -v by omega)
      rw [Int.neg_tmod] at hrest
      omega
    · have hrest := Int.tmod_nonneg w hnonneg
      omega

theorem Holds.lt_iff (hx : x.Holds v) (hy : y.Holds w) : x.lt y = true ↔ v < w := by
  have hpos : (0:ℤ) < ones := by exact_mod_cast ones_pos
  rw [Binary64.lt,partialCmp,hx.units,hy.units,decide_eq_true_iff]
  simp [compare_lt_iff_lt,mul_lt_mul_iff_left₀ hpos]

theorem Holds.eq_iff (hx : x.Holds v) (hy : y.Holds w) : x.eq y = true ↔ v = w := by
  have hpos : (0:ℤ) < ones := by exact_mod_cast ones_pos
  rw [Binary64.eq,partialCmp,hx.units,hy.units,decide_eq_true_iff]
  simp [ones_pos.ne']

theorem holds_zero : (ofInt 0).Holds 0 := holds_ofInt (Nat.zero_le _)

theorem emod_cases (v : ℤ) {w : ℤ} (hw : w ≠ 0) : (v.tmod w < 0 ∧ v%w = v.tmod w+|w|) ∨ (¬ v.tmod w < 0 ∧ v%w = v.tmod w) := by
  have hlow := Int.emod_nonneg v hw
  have hhigh := Int.emod_lt_abs v hw
  have hrest := @Int.tmod_eq_emod v w
  rw [Int.abs_eq_natAbs] at hhigh ⊢
  split_ifs at hrest <;> omega

theorem Holds.remEuclid (hx : x.Holds v) (hy : y.Holds w) (hw : w ≠ 0) (h : Moderate v) (h' : Moderate w) :
    (x.remEuclid y).Holds (roundInt (v%w)) := by
  have hrem := hx.rem hy hw h
  have hsmall : Moderate (v%w) := by
    have hlow := Int.emod_nonneg v hw
    have hhigh := Int.emod_lt_abs v hw
    rw [Int.abs_eq_natAbs] at hhigh
    unfold Moderate at h' ⊢
    omega
  unfold Binary64.remEuclid
  obtain ⟨hneg,hmod⟩ | ⟨hpos,hmod⟩ := emod_cases v hw
  · rw [if_pos ((hrem.lt_iff holds_zero).mpr hneg),hmod]
    exact hrem.add hy.abs (hmod ▸ hsmall)
  · have hshort : Short (v.tmod w).natAbs := by
      obtain ⟨_,hshort,_,-,-⟩ := hrem
      exact short_ones.mp hshort
    rw [if_neg (fun hlt => hpos ((hrem.lt_iff holds_zero).mp hlt)),hmod,(roundInt_eq_iff _).mpr hshort]
    exact hrem

theorem Holds.toInt {low high : ℤ} (h : x.Holds v) : x.toInt low high = max low (min high v) := by
  obtain ⟨negative,_,_,rfl,hsign⟩ := h
  have hval := signed_natAbs hsign 1
  rw [Binary64.toInt,Nat.mul_div_cancel _ ones_pos]
  simp only [mul_one,Nat.cast_one] at hval
  rw [hval]

end Binary64

end Lib
