/-
The arctangent is accurate, relative to its size.

The arctangent is concave where it is positive, so that a relative error of its argument is one of the result as
well, and no larger. The angle is halved through the tangent until the argument is small, and the series of odd
powers gives its arctangent. Each halving adds a bounded number of units to the relative error of the angle that
is put together again at the end, `2 ^ j` times the arctangent of the tangent after `j` halvings; the first
halving leaves at most one, up to rounding, and each later one takes away nearly half. `HalvingInvariant` says so;
by it the halving comes to its own end before its bound.
-/
import Mathlib.Analysis.SpecialFunctions.Complex.Arctan
import Mathlib.Analysis.SpecialFunctions.Trigonometric.ArctanDeriv
import CliffordT.Proofs.BinFloat.OddSeries

namespace CliffordT.BinFloat

open Real (arctan)

/-! ## The arctangent of a number with an error -/

section Real

variable {a b c e t : ℝ}

/-- The slope between two positive numbers is between the slopes at them. -/
theorem arctan_sub_bounds (ha : 0 ≤ a) (hab : a ≤ b) :
    (b - a) / (1 + b ^ 2) ≤ arctan b - arctan a ∧ arctan b - arctan a ≤ (b - a) / (1 + a ^ 2) := by
  have hcont : ContinuousOn arctan (Set.Icc a b) := Real.continuous_arctan.continuousOn
  have hdiff : DifferentiableOn ℝ arctan (interior (Set.Icc a b)) := Real.differentiable_arctan.differentiableOn
  have hmem {s : ℝ} (hs : s ∈ interior (Set.Icc a b)) : a ^ 2 ≤ s ^ 2 ∧ s ^ 2 ≤ b ^ 2 := by
    obtain ⟨has, hsb⟩ := interior_subset hs
    exact ⟨pow_le_pow_left₀ ha has 2, pow_le_pow_left₀ (ha.trans has) hsb 2⟩
  rw [div_eq_inv_mul, div_eq_inv_mul]
  constructor
  · refine (convex_Icc a b).mul_sub_le_image_sub_of_le_deriv hcont hdiff (fun s hs => ?_) a
      (Set.left_mem_Icc.2 hab) b (Set.right_mem_Icc.2 hab) hab
    rw [(Real.hasDerivAt_arctan' s).deriv]
    exact inv_anti₀ (by positivity) (by linarith [(hmem hs).2])
  · refine (convex_Icc a b).image_sub_le_mul_sub_of_deriv_le hcont hdiff (fun s hs => ?_) a
      (Set.left_mem_Icc.2 hab) b (Set.right_mem_Icc.2 hab) hab
    rw [(Real.hasDerivAt_arctan' s).deriv]
    exact inv_anti₀ (by positivity) (by linarith [(hmem hs).1])

/-- The arctangent is concave: between zero and a positive number it is above the chord. -/
theorem mul_arctan_le (hb : 0 ≤ b) (hc : 0 ≤ c) (hc1 : c ≤ 1) : c * arctan b ≤ arctan (c * b) := by
  have hcb : 0 ≤ c * b := mul_nonneg hc hb
  have hbelow := (arctan_sub_bounds le_rfl hcb).1
  have habove := (arctan_sub_bounds hcb (mul_le_of_le_one_left hb hc1)).2
  rw [Real.arctan_zero, sub_zero, sub_zero] at hbelow
  have hchord : c * ((b - c * b) / (1 + (c * b) ^ 2)) = (1 - c) * (c * b / (1 + (c * b) ^ 2)) := by ring
  have hlower := mul_le_mul_of_nonneg_left hbelow (sub_nonneg.2 hc1)
  have hupper := mul_le_mul_of_nonneg_left habove hc
  linarith

/-- A relative error of the argument is not made larger. -/
theorem within_arctan (he : e ≤ 1) (h : Within e a b) : Within e (arctan a) (arctan b) := by
  wlog hb : 0 ≤ b generalizing a b
  · have hneg := this h.neg (by linarith)
    rw [Real.arctan_neg, Real.arctan_neg] at hneg
    simpa using hneg.neg
  rcases hb.eq_or_lt with rfl | hbpos
  · rw [h.eq_zero rfl]
    unfold Within
    rw [Real.arctan_zero, sub_self, abs_zero, mul_zero]
  have hsub := h.sub_le
  rw [abs_of_pos hbpos] at hsub
  obtain ⟨hlow, hhigh⟩ := abs_le.1 hsub
  have he0 : 0 ≤ e := by nlinarith
  have hinv : (1 + e)⁻¹ * ((1 + e) * b) = b := inv_mul_cancel_left₀ (by linarith) b
  have hupper := mul_arctan_le (b := (1 + e) * b) (c := (1 + e)⁻¹) (by positivity) (by positivity)
    (inv_le_one_of_one_le₀ (by linarith))
  rw [hinv, inv_mul_le_iff₀ (by linarith)] at hupper
  have hlower := mul_arctan_le hb (sub_nonneg.2 he) (by linarith : 1 - e ≤ 1)
  have hmono := Real.arctan_mono (by linarith : a ≤ (1 + e) * b)
  have hmono' := Real.arctan_mono (by linarith : (1 - e) * b ≤ a)
  unfold Within
  rw [abs_of_nonneg (Real.arctan_nonneg.2 hb), abs_le]
  constructor
  · linarith
  · linarith

/-- A number below one is at most twice its arctangent. -/
theorem abs_le_two_mul_abs_arctan (ht : |t| ≤ 1) : |t| ≤ 2 * |arctan t| := by
  wlog hpos : 0 ≤ t generalizing t
  · have hneg := this (t := -t) (by rwa [abs_neg]) (by linarith)
    rwa [Real.arctan_neg, abs_neg, abs_neg] at hneg
  rw [abs_of_nonneg hpos] at ht ⊢
  rw [abs_of_nonneg (Real.arctan_nonneg.2 hpos)]
  have hslope := (arctan_sub_bounds le_rfl hpos).1
  rw [Real.arctan_zero, sub_zero, sub_zero, div_le_iff₀ (by positivity)] at hslope
  have hsq : 1 + t ^ 2 ≤ 2 := by nlinarith
  have hle := mul_le_mul_of_nonneg_left hsq (Real.arctan_nonneg.2 hpos)
  linarith

/-! ## Half of the angle -/

noncomputable def halfTangent (t : ℝ) : ℝ := t / (1 + √(1 + t ^ 2))

theorem abs_halfTangent (t : ℝ) : |halfTangent t| = |t| / (1 + √(1 + t ^ 2)) := by
  unfold halfTangent
  rw [abs_div, abs_of_pos (by positivity : 0 < 1 + √(1 + t ^ 2))]

theorem abs_halfTangent_lt_one (t : ℝ) : |halfTangent t| < 1 := by
  have hroot : |t| ≤ √(1 + t ^ 2) := Real.abs_le_sqrt (by linarith)
  rw [abs_halfTangent, div_lt_one (by positivity)]
  linarith

theorem abs_halfTangent_le (t : ℝ) : |halfTangent t| ≤ |t| / 2 := by
  have hroot : 1 ≤ √(1 + t ^ 2) := Real.one_le_sqrt.2 (by nlinarith [sq_nonneg t])
  rw [abs_halfTangent]
  exact div_le_div_of_nonneg_left (abs_nonneg t) (by norm_num) (by linarith)

theorem two_mul_arctan_halfTangent (t : ℝ) : 2 * arctan (halfTangent t) = arctan t := by
  obtain ⟨hlow, hhigh⟩ := abs_lt.1 (abs_halfTangent_lt_one t)
  rw [Real.two_mul_arctan hlow hhigh]
  congr 1
  have hsq : √(1 + t ^ 2) ^ 2 = 1 + t ^ 2 := Real.sq_sqrt (by positivity)
  have hpos : 0 < 1 + √(1 + t ^ 2) := by positivity
  unfold halfTangent
  generalize √(1 + t ^ 2) = w at hsq hpos
  have hden : 1 - (t / (1 + w)) ^ 2 = 2 / (1 + w) := by
    field_simp
    linarith
  rw [hden]
  field_simp

end Real

/-! ## The computed halving -/

section Halving

variable {wp : Nat} {x t : BinFloat}

/-- One halving of the angle. -/
theorem halved_within (hwp : 34 ≤ wp) (hprec : t.prec = wp) :
    Within (56 * roundoff wp) (t / (one wp + (one wp + t * t).sqrt)).value (halfTangent t.value) := by
  have hu := roundoff_pos wp
  have hu1 : roundoff wp ≤ 1 / 2 ^ 34 := (roundoff_anti hwp).trans (roundoff_eq 34).le
  have hsq := value_mul_within (x := t) (y := t) (p := wp) (hprec ▸ le_max_left _ _)
  rw [← pow_two t.value] at hsq
  have hradicand := value_add_within (x := one wp) (y := t * t) (p := wp) (by simp)
  rw [value_one] at hradicand
  have hinner := hradicand.trans (by linarith) (by linarith) (hsq.one_add hu.le (sq_nonneg _))
  have hpos : 0 < (one wp + t * t).value := by
    have hbelow := (abs_le.1 hinner.sub_le).1
    rw [abs_of_pos (by positivity)] at hbelow
    nlinarith [sq_nonneg t.value]
  have hprec' : (one wp + t * t).prec = wp := by simp [hprec]
  have hsqrt := value_sqrt_within hpos
  rw [hprec'] at hsqrt
  have hroot := hsqrt.trans (by linarith) (by linarith) (hinner.sqrt hpos.le (by positivity))
  have hsum := value_add_within (x := one wp) (y := (one wp + t * t).sqrt) (p := wp) (by simp)
  rw [value_one] at hsum
  have hden := hsum.trans (by linarith) (by linarith)
    (hroot.one_add (by linarith) (Real.sqrt_nonneg _))
  have hne : (one wp + (one wp + t * t).sqrt).value ≠ 0 := hden.ne_zero (by linarith) (by positivity)
  have hquot := value_div_within (x := t) (y := one wp + (one wp + t * t).sqrt) (p := wp)
    (hprec ▸ le_max_left _ _) hne
  unfold halfTangent
  exact (hquot.trans (by linarith) (by linarith)
    ((Within.refl le_rfl t.value).div (by linarith) (by linarith) zero_le_one hden)).mono (by linarith)

/-- The state after `j` halvings at `wp` bits, against the angle with the tangent `x`. -/
structure HalvingInvariant (x : ℝ) (wp j : Nat) (s : BinFloat × Nat) : Prop where
  count : s.2 = j
  prec : s.1.prec = wp
  angle : Within ((1 + 112 * j) * roundoff wp) (2 ^ j * arctan s.1.value) (arctan x)
  small : 1 ≤ j → |s.1.value| ≤ 2 * (3 / 5) ^ j

theorem HalvingInvariant.start (x : BinFloat) (wp : Nat) :
    HalvingInvariant x.value wp 0 (x.withPrec wp, 0) where
  count := rfl
  prec := prec_withPrec x wp
  angle := by
    rw [pow_zero, one_mul, Nat.cast_zero, mul_zero, add_zero, one_mul]
    exact within_arctan (roundoff_le_one wp) (value_withPrec_within x wp)
  small h := absurd h (by norm_num)

/-- One halving; the first leaves a tangent of one at most. -/
theorem HalvingInvariant.step {x : ℝ} {j : Nat} {s s' : BinFloat × Nat} (hwp : 34 ≤ wp) (hj : j < halvingBound)
    (hs : HalvingInvariant x wp j s) (hstep : halveAngle (one wp) s = some s') :
    HalvingInvariant x wp (j + 1) s' := by
  obtain ⟨t, count⟩ := s
  have hu := roundoff_pos wp
  have hu1 : roundoff wp ≤ 1 / 2 ^ 34 := (roundoff_anti hwp).trans (roundoff_eq 34).le
  have hj' : (j : ℝ) ≤ 16 := by exact_mod_cast hj.le
  rw [halveAngle] at hstep
  split at hstep
  · cases hstep
    have hprec : t.prec = wp := hs.prec
    have hhalf := halved_within hwp hprec
    have harctan := (within_arctan (by linarith) hhalf).const_mul (2 ^ (j + 1))
    have hdouble : (2 : ℝ) ^ (j + 1) * arctan (halfTangent t.value) = 2 ^ j * arctan t.value := by
      rw [pow_succ, mul_assoc, two_mul_arctan_halfTangent]
    rw [hdouble] at harctan
    have hsum : (1 + 112 * (j : ℝ)) * roundoff wp ≤ 1 := by nlinarith
    refine ⟨congrArg (· + 1) hs.count, by simp [hprec],
      (harctan.trans (by linarith) hsum hs.angle).mono ?_, fun _ => ?_⟩
    · push_cast
      linarith
    · have hbound := hhalf.abs_le
      rcases Nat.eq_zero_or_pos j with rfl | hpos
      · have hone := abs_halfTangent_lt_one t.value
        norm_num
        nlinarith [abs_nonneg (halfTangent t.value)]
      · have hlast := hs.small hpos
        have hle := abs_halfTangent_le t.value
        rw [pow_succ]
        nlinarith [abs_nonneg (halfTangent t.value)]
  · cases hstep

/-- Where the halving stops, the tangent is below 1/16. -/
theorem abs_lt_of_halveAngle_eq_none {one : BinFloat} {count : Nat} (h : halveAngle one (t, count) = none) :
    |t.value| < 1 / 16 := by
  rw [halveAngle] at h
  split at h
  · cases h
  · rename_i hstop
    rw [Bool.and_eq_true, not_and_or, Bool.not_eq_true', Bool.not_eq_false, decide_eq_true_iff, not_lt] at hstop
    rcases hstop with hzero | htop
    · rw [isZero_iff.1 hzero, abs_zero]
      norm_num
    · refine (abs_value_lt_top t).trans_le ((zpow_le_zpow_right₀ (by norm_num) htop).trans ?_)
      norm_num

/-- The bound is never what ends the halving. -/
theorem halveAngle_eq_none {one : BinFloat} {count : Nat} (h : |t.value| < 1 / 16) :
    halveAngle one (t, count) = none := by
  unfold halveAngle
  refine if_neg fun hgo => ?_
  rw [Bool.and_eq_true, Bool.not_eq_true', decide_eq_true_iff] at hgo
  have hmant : t.mant ≠ 0 := by
    rw [← value_eq_zero_iff.ne, ← isZero_iff.ne, hgo.1]
    exact Bool.false_ne_true
  have hlow : (2 : ℝ) ^ (-4 : ℤ) ≤ |t.value| :=
    (zpow_le_zpow_right₀ (by norm_num) (by omega)).trans (two_zpow_top_le hmant)
  norm_num at hlow
  linarith

/-- **The halving**: it ends, with a small tangent, of which the angle is a known part of the one at the start. -/
theorem halving_spec (x : BinFloat) (hwp : 34 ≤ wp) :
    ∃ t count, iterate (halveAngle (one wp)) halvingBound (x.withPrec wp, 0) = (t, count) ∧
      halveAngle (one wp) (t, count) = none ∧ t.prec = wp ∧ |t.value| < 1 / 16 ∧
      Within (1793 * roundoff wp) (2 ^ count * arctan t.value) (arctan x.value) := by
  have hu := roundoff_pos wp
  obtain ⟨j, hj, hinv, hend⟩ := iterate_preserves (n := halvingBound) (P := HalvingInvariant x.value wp)
    (fun j s s' hj hs hstep => hs.step hwp hj hstep) (.start x wp)
  generalize iterate (halveAngle (one wp)) halvingBound (x.withPrec wp, 0) = v at hinv hend
  obtain ⟨t, count⟩ := v
  have hdone : halveAngle (one wp) (t, count) = none := by
    rcases hend with rfl | hnone
    · refine halveAngle_eq_none ((hinv.small (by decide)).trans_lt ?_)
      norm_num [halvingBound]
    · exact hnone
  have hj' : (j : ℝ) ≤ 16 := by exact_mod_cast hj
  refine ⟨t, count, rfl, hdone, hinv.prec, abs_lt_of_halveAngle_eq_none hdone, ?_⟩
  have hcount : count = j := hinv.count
  rw [hcount]
  exact hinv.angle.mono (mul_le_mul_of_nonneg_right (by linarith) hu.le)

end Halving

/-! ## The arctangent -/

/-- The loops of the arctangent, without bounds on their length, end: the halving, with the tangent that the
series starts from, and the series, whose sum is doubled as often as the angle was halved. -/
def AtanEnds (x : BinFloat) : Prop :=
  ∃ t count s,
    LoopEnds (untilDone (halveAngle (one (x.prec + 32)))) (x.withPrec (x.prec + 32), 0) (t, count) ∧
    LoopEnds (untilDone (atanStep (t * t) (x.prec + 32))) ⟨t, 1, t⟩ s ∧
    x.atan = (s.sum.scaleTwo count).withPrec x.prec

section Arctangent

variable {x t : BinFloat} {wp : Nat}

theorem hasSum_arctan {r : ℝ} (hr : |r| ≤ 3 / 8) : HasSum (oddTerm (-1) r) (arctan r) := by
  refine (Real.hasSum_arctan (by rw [Real.norm_eq_abs]; linarith)).congr_fun fun j => ?_
  unfold oddTerm
  rw [mul_div_assoc]

/-- The series of a small tangent. -/
theorem atanSeries_spec (hwp : 34 ≤ wp) (hprec : t.prec = wp) (ht : |t.value| < 1 / 16) :
    ∃ s, iterate (atanStep (t * t) wp) (seriesBound wp) ⟨t, 1, t⟩ = s ∧
      LoopEnds (untilDone (atanStep (t * t) wp)) ⟨t, 1, t⟩ s ∧
      Within ((32 * seriesBound wp + 34) * roundoff wp) s.sum.value (arctan t.value) := by
  have hu := roundoff_pos wp
  have hr : |t.value| ≤ 3 / 8 := by linarith
  obtain ⟨hend, hsum⟩ := oddSeries_spec (by rw [abs_neg, abs_one]) hr (hasSum_arctan hr) hwp hprec
    (.refl (by positivity) _) (sumsOddPowers_atanStep (t * t) wp)
  refine ⟨_, rfl, loopEnds_iterate hend, hsum.trans ?_⟩
  have hle := mul_le_mul_of_nonneg_left (abs_le_two_mul_abs_arctan (by linarith : |t.value| ≤ 1))
    (by positivity : 0 ≤ (16 * (seriesBound wp : ℝ) + 17) * roundoff wp)
  linarith

/-- **The arctangent**, computed for any number: its loops end, and what they lose is relative to the result. -/
theorem atan_spec (hlow : 2 ≤ x.prec) (hhigh : x.prec ≤ 2 ^ 20) :
    AtanEnds x ∧ Within (17 / 16 * roundoff x.prec) x.atan.value (arctan x.value) := by
  have hwp : 34 ≤ x.prec + 32 := by omega
  have hη := roundoff_pos x.prec
  have hη1 := roundoff_le_quarter hlow
  obtain ⟨t, count, hhalving, hdone, hprec, hsmall, hangle⟩ := halving_spec x hwp
  obtain ⟨s, hseries, hend, hsum⟩ := atanSeries_spec hwp hprec hsmall
  have hatan : x.atan = (s.sum.scaleTwo count).withPrec x.prec := by
    unfold atan
    dsimp only
    rw [hhalving]
    dsimp only
    rw [hseries]
  have hloop : LoopEnds (untilDone (halveAngle (one (x.prec + 32)))) (x.withPrec (x.prec + 32), 0) (t, count) :=
    hhalving ▸ loopEnds_iterate (n := halvingBound) (by rw [hhalving]; exact hdone)
  refine ⟨⟨t, count, s, hloop, hend, hatan⟩, ?_⟩
  have hscaled := hsum.const_mul (2 ^ count)
  have hvalue : (s.sum.scaleTwo count).value = 2 ^ count * s.sum.value := by
    rw [value_scaleTwo, zpow_natCast, mul_comm]
  have hround := value_withPrec_within (s.sum.scaleTwo count) x.prec
  rw [← hatan, hvalue] at hround
  have hp : (x.prec : ℝ) ≤ 2 ^ 20 := by exact_mod_cast hhigh
  rw [roundoff_add_eq_div] at hangle hscaled
  unfold seriesBound at hscaled
  push_cast at hscaled
  have hinner := hscaled.trans (by positivity) (by linarith) hangle
  have hunits : 1793 * (roundoff x.prec / 2 ^ 32) + 2 * ((32 * (x.prec + 32 + 16) + 34) * (roundoff x.prec / 2 ^ 32))
      ≤ 1 / 32 * roundoff x.prec := by
    have hcount : (1793 + 2 * (32 * ((x.prec : ℝ) + 32 + 16) + 34)) / 2 ^ 32 ≤ 1 / 32 := by
      rw [div_le_iff₀ (by positivity)]
      linarith
    have hmul := mul_le_mul_of_nonneg_right hcount hη.le
    linarith
  exact (hround.comp hη.le (hinner.mono hunits)).mono (by nlinarith)

end Arctangent

end CliffordT.BinFloat
