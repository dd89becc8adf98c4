/-
The angle of a point is accurate in all quadrants.

The quotient of the coordinates is taken so that it is at most one, and its arctangent is an angle of at most an
eighth of a turn. To it, or from it, half a turn or a quarter of a turn is added or taken away, by the signs of the
coordinates. The arctangent and the quotient have relative errors, which keep the sign of the angle, so that
the sum stays below four and is rounded by at most one unit of its last place; π is off by little more than that.
-/
import Mathlib.Analysis.SpecialFunctions.Complex.Arg
import CliffordT.Proofs.BinFloat.Arctangent
import CliffordT.Proofs.BinFloat.Compare
import CliffordT.Proofs.BinFloat.GuardBits
import CliffordT.Proofs.BinFloat.Pi

namespace CliffordT.BinFloat

open Real (arctan)

/-! ## The argument of a point -/

section Argument

variable {x y r θ : ℝ}

theorem arg_of_polar (hr : 0 < r) (hθ : θ ∈ Set.Ioc (-Real.pi) Real.pi) (hx : r * Real.cos θ = x)
    (hy : r * Real.sin θ = y) : Complex.arg ⟨x, y⟩ = θ := by
  have hpoint : (⟨x, y⟩ : ℂ) = r * (Complex.cos θ + Complex.sin θ * Complex.I) := by
    rw [← hx, ← hy]
    apply Complex.ext
    · simp [Complex.cos_ofReal_re]
    · simp [Complex.sin_ofReal_re, Complex.cos_ofReal_im]
  rw [hpoint, Complex.arg_mul_cos_add_sin_mul_I hr hθ]

/-- The lengths along and across, for the angle with the tangent `t`. -/
theorem mul_cos_arctan (c t : ℝ) :
    c * √(1 + t ^ 2) * Real.cos (arctan t) = c ∧ c * √(1 + t ^ 2) * Real.sin (arctan t) = c * t := by
  rw [Real.cos_arctan, Real.sin_arctan]
  constructor
  · field_simp
  · field_simp

theorem arctan_bounds (t : ℝ) : -(Real.pi / 2) < arctan t ∧ arctan t < Real.pi / 2 :=
  ⟨Real.neg_pi_div_two_lt_arctan t, Real.arctan_lt_pi_div_two t⟩

theorem arg_of_pos (hx : 0 < x) : Complex.arg ⟨x, y⟩ = arctan (y / x) := by
  obtain ⟨hcos, hsin⟩ := mul_cos_arctan x (y / x)
  obtain ⟨hlow, hhigh⟩ := arctan_bounds (y / x)
  refine arg_of_polar (r := x * √(1 + (y / x) ^ 2)) (by positivity)
    ⟨by linarith [Real.pi_pos], by linarith [Real.pi_pos]⟩ hcos ?_
  rw [hsin, mul_div_cancel₀ y hx.ne']

theorem arg_of_neg_of_nonneg (hx : x < 0) (hy : 0 ≤ y) : Complex.arg ⟨x, y⟩ = arctan (y / x) + Real.pi := by
  obtain ⟨hcos, hsin⟩ := mul_cos_arctan (-x) (y / x)
  have hθ : arctan (y / x) ≤ 0 := Real.arctan_le_zero.2 (div_nonpos_of_nonneg_of_nonpos hy hx.le)
  have hpos : 0 < -x * √(1 + (y / x) ^ 2) := mul_pos (neg_pos.2 hx) (Real.sqrt_pos.2 (by positivity))
  refine arg_of_polar hpos ⟨by linarith [(arctan_bounds (y / x)).1, Real.pi_pos], by linarith⟩ ?_ ?_
  · rw [Real.cos_add_pi, mul_neg, hcos, neg_neg]
  · rw [Real.sin_add_pi, mul_neg, hsin, neg_mul, neg_neg, mul_div_cancel₀ y hx.ne]

theorem arg_of_neg_of_neg (hx : x < 0) (hy : y < 0) : Complex.arg ⟨x, y⟩ = arctan (y / x) - Real.pi := by
  obtain ⟨hcos, hsin⟩ := mul_cos_arctan (-x) (y / x)
  have hθ : 0 < arctan (y / x) := Real.arctan_pos.2 (div_pos_of_neg_of_neg hy hx)
  have hpos : 0 < -x * √(1 + (y / x) ^ 2) := mul_pos (neg_pos.2 hx) (Real.sqrt_pos.2 (by positivity))
  refine arg_of_polar hpos ⟨by linarith, by linarith [(arctan_bounds (y / x)).2, Real.pi_pos]⟩ ?_ ?_
  · rw [Real.cos_sub_pi, mul_neg, hcos, neg_neg]
  · rw [Real.sin_sub_pi, mul_neg, hsin, neg_mul, neg_neg, mul_div_cancel₀ y hx.ne]

theorem arg_of_pos_im (hy : 0 < y) : Complex.arg ⟨x, y⟩ = Real.pi / 2 - arctan (x / y) := by
  obtain ⟨hcos, hsin⟩ := mul_cos_arctan y (x / y)
  obtain ⟨hlow, hhigh⟩ := arctan_bounds (x / y)
  refine arg_of_polar (r := y * √(1 + (x / y) ^ 2)) (by positivity)
    ⟨by linarith [Real.pi_pos], by linarith⟩ ?_ ?_
  · rw [Real.cos_pi_div_two_sub, hsin, mul_div_cancel₀ x hy.ne']
  · rw [Real.sin_pi_div_two_sub, hcos]

theorem arg_of_neg_im (hy : y < 0) : Complex.arg ⟨x, y⟩ = -(Real.pi / 2) - arctan (x / y) := by
  obtain ⟨hcos, hsin⟩ := mul_cos_arctan (-y) (x / y)
  obtain ⟨hlow, hhigh⟩ := arctan_bounds (x / y)
  have hpos : 0 < -y * √(1 + (x / y) ^ 2) := mul_pos (neg_pos.2 hy) (Real.sqrt_pos.2 (by positivity))
  have hangle : -(Real.pi / 2) - arctan (x / y) = -(arctan (x / y) + Real.pi / 2) := by ring
  refine arg_of_polar hpos ⟨by linarith, by linarith [Real.pi_pos]⟩ ?_ ?_
  · rw [hangle, Real.cos_neg, Real.cos_add_pi_div_two, mul_neg, hsin, neg_mul, neg_neg,
      mul_div_cancel₀ x hy.ne]
  · rw [hangle, Real.sin_neg, Real.sin_add_pi_div_two, mul_neg, hcos, neg_neg]

theorem abs_arctan_le_of_abs_le_one {t : ℝ} (ht : |t| ≤ 1) : |arctan t| ≤ Real.pi / 4 := by
  obtain ⟨hlow, hhigh⟩ := abs_le.1 ht
  have h1 := Real.arctan_mono hlow
  have h2 := Real.arctan_mono hhigh
  rw [Real.arctan_neg] at h1
  rw [Real.arctan_one] at h1 h2
  exact abs_le.2 ⟨h1, h2⟩

end Argument

/-! ## The parts of the angle -/

section Parts

variable {x y a c : BinFloat} {p : Nat}

theorem fits_pi (p : Nat) : (pi p).FitsPrecision := fits_ofScaled _ _ p

/-- Below four, rounding is by one unit of the last place that numbers just below four have. -/
theorem IsNearest.abs_sub_le_of_lt_four {v r : ℝ} (h : IsNearest p v r) (hp : 1 ≤ p) (hv : |v| < 4) :
    |r - v| ≤ 2 * roundoff p := by
  have hround := h.abs_sub_le hp (t := 2) (by norm_num; exact hv)
  rwa [show (2 : ℤ) - 1 = 1 from rfl, zpow_one] at hround

/-- The computed π, with the rounding counted by the unit of its last place. -/
theorem abs_pi_sub_le_units (hlow : 1 ≤ p) (hhigh : p ≤ 2 ^ 20) :
    |(pi p).value - Real.pi| ≤ 201 / 100 * roundoff p := by
  have hη := roundoff_pos p
  have hp : (p : ℝ) ≤ 2 ^ 20 := by exact_mod_cast hhigh
  have hround := (isNearest_ofScaled hlow (machinSum p) (-(p + 32 : Nat))).abs_sub_le_of_lt_four hlow
    ((abs_scaledMachin_le p).trans_lt (by norm_num))
  have hcoefficient : (3 * (p : ℝ) + 130) / 2 ^ 32 ≤ 1 / 100 := by
    rw [div_le_iff₀ (by positivity)]
    linarith
  have hless := mul_le_mul_of_nonneg_right hcoefficient hη.le
  rw [pi_eq]
  refine (abs_sub_le_add hround (abs_scaledMachin_sub_le p) rfl).trans ?_
  linarith

/-- The errors of the summands and the rounding of a sum below four add up. -/
theorem abs_add_sub_le {γ α ε δ : ℝ} (hc : c.FitsPrecision) (ha : a.FitsPrecision) (hcp : c.prec = p)
    (hap : a.prec = p) (hp : 1 ≤ p) (hγ : |c.value - γ| ≤ ε) (hα : |a.value - α| ≤ δ)
    (hfour : |c.value + a.value| < 4) : |(c + a).value - (γ + α)| ≤ 2 * roundoff p + (ε + δ) := by
  have hmax : max c.prec a.prec = p := by rw [hcp, hap, max_self]
  have hnearest := isNearest_add hc ha (hmax.symm ▸ hp)
  rw [hmax] at hnearest
  refine abs_sub_le_add (hnearest.abs_sub_le_of_lt_four hp hfour)
    ((abs_add_le (c.value - γ) (a.value - α)).trans (add_le_add hγ hα)) ?_
  ring

/-- The arctangent of a quotient that is at most one: an angle of at most an eighth of a turn, and its sign. -/
theorem quotientAngle_spec (hxp : x.prec = p) (hyp : y.prec = p) (hlow : 2 ≤ p) (hhigh : p ≤ 2 ^ 20)
    (hy : y.value ≠ 0) (hle : |x.value| ≤ |y.value|) :
    (atan (x / y)).prec = p ∧ (atan (x / y)).FitsPrecision ∧
      |(atan (x / y)).value - arctan (x.value / y.value)| ≤ 237 / 100 * roundoff p ∧
      |(atan (x / y)).value| ≤ 138 / 100 ∧
      SignType.sign (atan (x / y)).value = SignType.sign (arctan (x.value / y.value)) := by
  have hη := roundoff_pos p
  have hη1 := roundoff_le_quarter hlow
  have hmax : max x.prec y.prec = p := by rw [hxp, hyp, max_self]
  have hqp : (x / y).prec = p := by rw [prec_div, hmax]
  have hquot := value_div_within_three_halves x hy
  rw [hmax] at hquot
  have hatan := (atan_spec (x := x / y) (by rwa [hqp]) (by rwa [hqp])).2
  rw [hqp] at hatan
  have hwithin : Within (3 * roundoff p) (atan (x / y)).value (arctan (x.value / y.value)) :=
    (hatan.comp (by linarith) (within_arctan (by linarith) hquot)).mono (by nlinarith)
  have hone : |x.value / y.value| ≤ 1 := by
    rw [abs_div]
    exact div_le_one_of_le₀ hle (abs_nonneg _)
  have heighth : |arctan (x.value / y.value)| ≤ 786 / 1000 :=
    (abs_arctan_le_of_abs_le_one hone).trans (by linarith [Real.pi_lt_d4])
  refine ⟨(prec_withPrec _ _).trans hqp, fits_ofScaled _ _ _, ?_, ?_, sign_eq_of_within hwithin (by linarith)⟩
  · refine hwithin.sub_le.trans ((mul_le_mul_of_nonneg_left heighth (by linarith)).trans ?_)
    linarith
  · refine hwithin.abs_le.trans ?_
    have hmul := mul_le_mul (by linarith : 1 + 3 * roundoff p ≤ 7 / 4) heighth (abs_nonneg _) (by norm_num)
    linarith

end Parts

/-! ## The angle -/

section Angle

variable {x y : BinFloat}

/-- In the quadrants to the right and to the left. -/
theorem atan2_near_of_le (hprec : y.prec = x.prec) (hlow : 2 ≤ x.prec) (hhigh : x.prec ≤ 2 ^ 20)
    (hx : x.value ≠ 0) (hle : |y.value| ≤ |x.value|) :
    |(atan2 y x).value - Complex.arg ⟨x.value, y.value⟩| ≤ 8 * roundoff x.prec := by
  have hη1 := roundoff_le_quarter hlow
  have hp1 : 1 ≤ x.prec := by omega
  have hzero : ¬ (x.isZero && y.isZero) = true := by
    rw [Bool.and_eq_true, not_and_or]
    exact .inl (mt isZero_iff.1 hx)
  have habs : y.abs ≤ x.abs := by rwa [le_iff_value, value_abs, value_abs]
  obtain ⟨haprec, hafits, hanear, hasmall, hasign⟩ := quotientAngle_spec hprec rfl hlow hhigh hx hle
  have hpi := abs_pi_sub_le_units hp1 hhigh
  obtain ⟨hpi1, hpi2⟩ := abs_le.1 hpi
  have hπ := Real.pi_gt_d2
  have hπ' := Real.pi_lt_d2
  obtain ⟨ha1, ha2⟩ := abs_le.1 hasmall
  unfold atan2
  dsimp only
  rw [if_neg hzero, if_pos habs, hprec, max_self]
  generalize atan (y / x) = a at haprec hafits hanear hasmall hasign ha1 ha2
  rcases lt_or_gt_of_ne hx with hneg | hpos
  · have hnegative : ¬ (!x.isNegative) = true := by
      rw [Bool.not_eq_true', Bool.not_eq_false]
      exact isNegative_iff.2 hneg
    rw [if_neg hnegative]
    by_cases hy : y.value < 0
    · -- below the axis on the left: the angle of the quotient is positive
      have hquot : 0 < arctan (y.value / x.value) := Real.arctan_pos.2 (div_pos_of_neg_of_neg hy hneg)
      have ha0 : 0 < a.value := by rwa [sign_pos hquot, sign_eq_one_iff] at hasign
      rw [if_pos (isNegative_iff.2 hy), arg_of_neg_of_neg hneg hy, sub_eq_add_neg _ Real.pi]
      have hpi' : |(-pi x.prec).value - -Real.pi| ≤ 201 / 100 * roundoff x.prec := by
        rwa [value_neg, neg_sub_neg, abs_sub_comm]
      refine (abs_add_sub_le hafits (fits_pi _).neg haprec (prec_pi _) hp1 hanear hpi' ?_).trans
        (by linarith)
      rw [value_neg, abs_lt]
      exact ⟨by linarith, by linarith⟩
    · -- on the axis or above it on the left: the angle of the quotient is not positive
      have hquot : arctan (y.value / x.value) ≤ 0 :=
        Real.arctan_le_zero.2 (div_nonpos_of_nonneg_of_nonpos (not_lt.1 hy) hneg.le)
      have ha0 : a.value ≤ 0 := by rwa [← sign_nonpos_iff, hasign, sign_nonpos_iff]
      rw [if_neg (mt isNegative_iff.1 hy), arg_of_neg_of_nonneg hneg (not_lt.1 hy)]
      refine (abs_add_sub_le hafits (fits_pi _) haprec (prec_pi _) hp1 hanear hpi ?_).trans
        (by linarith)
      rw [abs_lt]
      exact ⟨by linarith, by linarith⟩
  · have hnegative : (!x.isNegative) = true := by
      rw [Bool.not_eq_true', ← Bool.not_eq_true, isNegative_iff]
      exact not_lt.2 hpos.le
    rw [if_pos hnegative, arg_of_pos hpos]
    exact hanear.trans (by linarith)

/-- In the quadrants above and below. -/
theorem atan2_near_of_lt (hprec : y.prec = x.prec) (hlow : 2 ≤ x.prec) (hhigh : x.prec ≤ 2 ^ 20)
    (hlt : |x.value| < |y.value|) :
    |(atan2 y x).value - Complex.arg ⟨x.value, y.value⟩| ≤ 8 * roundoff x.prec := by
  have hη1 := roundoff_le_quarter hlow
  have hp1 : 1 ≤ x.prec := by omega
  have hy : y.value ≠ 0 := abs_pos.1 ((abs_nonneg _).trans_lt hlt)
  have hzero : ¬ (x.isZero && y.isZero) = true := by
    rw [Bool.and_eq_true, not_and_or]
    exact .inr (mt isZero_iff.1 hy)
  have habs : ¬ y.abs ≤ x.abs := by
    rw [le_iff_value, value_abs, value_abs]
    exact not_le.2 hlt
  obtain ⟨haprec, hafits, hanear, hasmall, -⟩ := quotientAngle_spec rfl hprec hlow hhigh hy hlt.le
  have hneg : |(-atan (x / y)).value - -arctan (x.value / y.value)| ≤ 237 / 100 * roundoff x.prec := by
    rwa [value_neg, neg_sub_neg, abs_sub_comm]
  obtain ⟨hpi1, hpi2⟩ := abs_le.1 (abs_pi_sub_le_units hp1 hhigh)
  have hhalf : ((pi x.prec).scaleTwo (-1)).value = (pi x.prec).value / 2 := by
    rw [value_scaleTwo, zpow_neg_one, div_eq_mul_inv]
  have hhalfPi : |((pi x.prec).scaleTwo (-1)).value - Real.pi / 2| ≤ 101 / 100 * roundoff x.prec := by
    rw [hhalf, abs_le]
    exact ⟨by linarith, by linarith⟩
  have hhalfPi' : |(-(pi x.prec).scaleTwo (-1)).value - -(Real.pi / 2)| ≤ 101 / 100 * roundoff x.prec := by
    rwa [value_neg, neg_sub_neg, abs_sub_comm]
  have hhalfFits : ((pi x.prec).scaleTwo (-1)).FitsPrecision := (fits_pi _).scaleTwo _
  have hhalfPrec : ((pi x.prec).scaleTwo (-1)).prec = x.prec := by rw [prec_scaleTwo, prec_pi]
  have hπ := Real.pi_gt_d2
  have hπ' := Real.pi_lt_d2
  obtain ⟨ha1, ha2⟩ := abs_le.1 hasmall
  unfold atan2
  dsimp only
  rw [if_neg hzero, if_neg habs, hprec, max_self]
  rcases lt_or_gt_of_ne hy with hbelow | habove
  · rw [if_neg (by rw [isPositive_iff]; exact not_lt.2 hbelow.le), arg_of_neg_im hbelow,
      sub_eq_add_neg _ (arctan _)]
    refine (abs_add_sub_le hhalfFits.neg hafits.neg hhalfPrec haprec hp1 hhalfPi' hneg ?_).trans
      (by linarith)
    rw [value_neg, value_neg, hhalf, abs_lt]
    exact ⟨by linarith, by linarith⟩
  · rw [if_pos (isPositive_iff.2 habove), arg_of_pos_im habove, sub_eq_add_neg _ (arctan _)]
    refine (abs_add_sub_le hhalfFits hafits.neg hhalfPrec haprec hp1 hhalfPi hneg ?_).trans (by linarith)
    rw [value_neg, hhalf, abs_lt]
    exact ⟨by linarith, by linarith⟩

/-- **The angle of a point is accurate**: off by at most eight units behind its last place, in all quadrants, on the
axes and on the diagonals, with the cut on the left counted to the upper side. -/
theorem atan2_near (hprec : y.prec = x.prec) (hlow : 2 ≤ x.prec) (hhigh : x.prec ≤ 2 ^ 20)
    (hne : ¬ (x.value = 0 ∧ y.value = 0)) :
    |(atan2 y x).value - Complex.arg ⟨x.value, y.value⟩| ≤ 2 ^ (3 - x.prec : ℤ) := by
  have hpow : (2 : ℝ) ^ (3 - x.prec : ℤ) = 8 * roundoff x.prec := by
    rw [two_zpow_sub]
    norm_num
  rw [hpow]
  rcases le_or_gt |y.value| |x.value| with hle | hlt
  · refine atan2_near_of_le hprec hlow hhigh (fun hx => hne ⟨hx, ?_⟩) hle
    rw [hx, abs_zero] at hle
    exact abs_nonpos_iff.1 hle
  · exact atan2_near_of_lt hprec hlow hhigh hlt

end Angle

end CliffordT.BinFloat
