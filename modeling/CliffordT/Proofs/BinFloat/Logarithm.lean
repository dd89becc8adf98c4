/-
The natural logarithm is accurate.

The argument is reduced to a mantissa between one and two, of which the logarithm is a value of the inverse
hyperbolic tangent, a series of odd powers. The logarithm of two, which is a value of the same series, is added as
often as the exponent says. What the exponent multiplies the error by is made up for by the size of the result, so
that the error stays relative to it, or to one. `ln_accurate` puts this together with what the logarithm is at the
ends of its domain: there is none of a number that is not positive, and that of one is exactly zero.
-/
import Mathlib.Analysis.Complex.ExponentialBounds
import Mathlib.Analysis.SpecialFunctions.Log.Deriv
import CliffordT.Proofs.BinFloat.CorrectRounding
import CliffordT.Proofs.BinFloat.OddSeries

namespace CliffordT.BinFloat

/-! ## The inverse hyperbolic tangent -/

noncomputable def artanh (r : ℝ) : ℝ := (Real.log (1 + r) - Real.log (1 - r)) / 2

section Artanh

variable {r : ℝ} {t : BinFloat}

theorem hasSum_artanh (hr : |r| ≤ 3 / 8) : HasSum (oddTerm 1 r) (artanh r) := by
  have h := (Real.hasSum_log_sub_log_of_abs_lt_one (by linarith : |r| < 1)).mul_left (1 / 2)
  have hlimit : 1 / 2 * (Real.log (1 + r) - Real.log (1 - r)) = artanh r := by
    unfold artanh
    ring
  rw [hlimit] at h
  refine h.congr_fun fun j => ?_
  unfold oddTerm
  rw [one_pow, one_mul]
  push_cast
  field_simp

/-- The series for the inverse hyperbolic tangent of `t`, without a bound on its length, ends in the state `s`. -/
def AtanhEnds (t : BinFloat) (s : SeriesState) : Prop :=
  LoopEnds (untilDone (atanhStep (t * t) t.prec)) ⟨t, 1, t⟩ s

/-- The series ends, for a number that is near `r`. -/
theorem atanh_ends (hr : |r| ≤ 3 / 8) (hwp : 34 ≤ t.prec) (ht : Within (16 * roundoff t.prec) t.value r) :
    ∃ s, AtanhEnds t s ∧ t.atanh = s.sum :=
  ⟨_, loopEnds_iterate (oddSeries_spec abs_one hr (hasSum_artanh hr) hwp rfl ht
    (sumsOddPowers_atanhStep _ _)).1, rfl⟩

/-- **The inverse hyperbolic tangent** of a number that is near `r`. -/
theorem atanh_spec (hr : |r| ≤ 3 / 8) (hwp : 34 ≤ t.prec) (ht : Within (16 * roundoff t.prec) t.value r) :
    |t.atanh.value - artanh r| ≤ (8 * seriesBound t.prec + 9) * roundoff t.prec := by
  have hu := roundoff_pos t.prec
  have hN : (0 : ℝ) ≤ seriesBound t.prec := Nat.cast_nonneg _
  have hsum := (oddSeries_spec abs_one hr (hasSum_artanh hr) hwp rfl ht (sumsOddPowers_atanhStep _ _)).2
  have hscale := mul_le_mul_of_nonneg_left hr
    (by positivity : 0 ≤ (16 * (seriesBound t.prec : ℝ) + 17) * roundoff t.prec)
  have hNu := mul_nonneg hN hu.le
  refine (hsum.trans hscale).trans ?_
  linarith

end Artanh

/-! ## The reduction of the argument -/

theorem two_mul_artanh {m : ℝ} (hm : 0 < m) : 2 * artanh ((m - 1) / (m + 1)) = Real.log m := by
  have hplus : 1 + (m - 1) / (m + 1) = m * (2 / (m + 1)) := by
    field_simp
    ring
  have hminus : 1 - (m - 1) / (m + 1) = 2 / (m + 1) := by
    field_simp
    ring
  unfold artanh
  rw [hplus, hminus, Real.log_mul hm.ne' (by positivity)]
  ring

/-- A relative error is an absolute one of the logarithm. -/
theorem abs_log_sub_le_of_within {e a b : ℝ} (hb : 0 < b) (he : e ≤ 1 / 2) (h : Within e a b) :
    0 < a ∧ |Real.log a - Real.log b| ≤ 2 * e := by
  have h := abs_le.1 h.sub_le
  rw [abs_of_pos hb] at h
  have ha : 0 < a := by nlinarith
  refine ⟨ha, ?_⟩
  rw [← Real.log_div ha.ne' hb.ne']
  have hupper := Real.log_le_sub_one_of_pos (div_pos ha hb)
  have hlower := Real.one_sub_inv_le_log_of_pos (div_pos ha hb)
  have hupper' : a / b - 1 ≤ e := by
    rw [div_sub_one hb.ne', div_le_iff₀ hb]
    linarith
  have hab : b ≤ 2 * a := by nlinarith
  have hlower' : -(2 * e) ≤ 1 - (a / b)⁻¹ := by
    rw [inv_div, one_sub_div ha.ne', le_div_iff₀ ha]
    nlinarith
  refine abs_le.2 ⟨by linarith, by linarith⟩

section Parts

variable {m x : BinFloat} {wp : Nat}

/-- The quotient that the logarithm of a mantissa is computed from. -/
theorem sub_one_div_add_one_within (hprec : m.prec = wp) (hwp : 34 ≤ wp)
    (hm1 : 99 / 100 ≤ m.value) (hm2 : m.value ≤ 21 / 10) :
    |(m.value - 1) / (m.value + 1)| ≤ 3 / 8 ∧ ((m - one wp) / (m + one wp)).prec = wp ∧
      Within (16 * roundoff wp) ((m - one wp) / (m + one wp)).value ((m.value - 1) / (m.value + 1)) := by
  have hu := roundoff_pos wp
  have hu1 : roundoff wp ≤ 1 / 2 ^ 34 := (roundoff_anti hwp).trans (roundoff_eq 34).le
  have hsub := value_sub_within (x := m) (y := one wp) (p := wp) (by simp)
  have hadd := value_add_within (x := m) (y := one wp) (p := wp) (by simp)
  rw [value_one] at hsub hadd
  have hpos : 0 < m.value + 1 := by linarith
  have hne : (m + one wp).value ≠ 0 := hadd.ne_zero (by linarith) hpos.ne'
  have hquot := (value_div_within (x := m - one wp) (y := m + one wp) (p := wp) (by simp) hne).trans
    (by linarith) (by linarith) (hsub.div (by linarith) (by linarith) (by linarith) hadd)
  refine ⟨?_, by simp [hprec], hquot.mono (by linarith)⟩
  rw [abs_div, abs_of_pos hpos, div_le_iff₀ hpos]
  exact abs_le.2 ⟨by linarith, by linarith⟩

/-- One third, for the logarithm of two. -/
theorem third_within (hwp : 34 ≤ wp) :
    |((2 : ℝ) - 1) / (2 + 1)| ≤ 3 / 8 ∧ (one wp / ofInt 3 wp).prec = wp ∧
      Within (16 * roundoff wp) (one wp / ofInt 3 wp).value ((2 - 1) / (2 + 1)) := by
  have hu := roundoff_pos wp
  have hthree : (ofInt 3 wp).value = 3 := value_ofInt_of_fits (by show 2 ≤ wp; omega)
  have hquot := value_div_within (x := one wp) (y := ofInt 3 wp) (p := wp) (by simp)
    (by rw [hthree]; norm_num)
  have hthird : (1 : ℝ) / 3 = (2 - 1) / (2 + 1) := by norm_num
  rw [value_one, hthree, hthird] at hquot
  exact ⟨by rw [abs_of_nonneg (by norm_num)]; norm_num, by simp, hquot.mono (by linarith)⟩

/-- A logarithm as twice an inverse hyperbolic tangent. -/
theorem twoAtanh_spec {t : BinFloat} {w : ℝ} (hw : 0 < w) (hwp : 34 ≤ wp)
    (ht : |(w - 1) / (w + 1)| ≤ 3 / 8 ∧ t.prec = wp ∧
      Within (16 * roundoff wp) t.value ((w - 1) / (w + 1))) :
    |(t.atanh.scaleTwo 1).value - Real.log w| ≤ (16 * seriesBound wp + 18) * roundoff wp := by
  obtain ⟨hr, rfl, hwithin⟩ := ht
  have hspec := atanh_spec hr hwp hwithin
  rw [value_scaleTwo, zpow_one, ← two_mul_artanh hw, mul_comm, ← mul_sub, abs_mul, abs_two]
  linarith

def mantissa (x : BinFloat) : BinFloat := (x.withPrec (x.prec + 32)).scaleTwo (-(x.top - 1))

/-- The number whose inverse hyperbolic tangent is half the logarithm of the mantissa. -/
def mantissaQuotient (x : BinFloat) : BinFloat :=
  (x.mantissa - one (x.prec + 32)) / (x.mantissa + one (x.prec + 32))

/-- One third, at the working precision for `x`. -/
def workingThird (x : BinFloat) : BinFloat := one (x.prec + 32) / ofInt 3 (x.prec + 32)

theorem prec_mantissa (x : BinFloat) : x.mantissa.prec = x.prec + 32 := by simp [mantissa]

theorem exactMantissa_bounds (hx : 0 < x.value) :
    1 ≤ x.value * 2 ^ (-(x.top - 1)) ∧ x.value * 2 ^ (-(x.top - 1)) ≤ 2 := by
  have hlow := two_zpow_top_le fun h0 => hx.ne' (value_eq_zero_iff.2 h0)
  have hhigh := abs_value_lt_top x
  have hpow := two_zpow_pos (x.top - 1)
  have htop : x.top = x.top - 1 + 1 := by ring
  rw [abs_of_pos hx] at hlow hhigh
  rw [htop, two_zpow_add, zpow_one] at hhigh
  rw [zpow_neg, ← div_eq_mul_inv]
  constructor
  · rw [le_div_iff₀ hpow]
    linarith
  · rw [div_le_iff₀ hpow]
    linarith

theorem mantissa_within (x : BinFloat) :
    Within (roundoff (x.prec + 32)) x.mantissa.value (x.value * 2 ^ (-(x.top - 1))) := by
  unfold mantissa
  rw [value_scaleTwo, mul_comm, mul_comm x.value]
  exact (value_withPrec_within x (x.prec + 32)).const_mul _

theorem mantissa_bounds (hx : 0 < x.value) (hp : 2 ≤ x.prec) :
    99 / 100 ≤ x.mantissa.value ∧ x.mantissa.value ≤ 21 / 10 := by
  have hu1 : roundoff (x.prec + 32) ≤ 1 / 2 ^ 34 :=
    (roundoff_anti (by omega : 34 ≤ x.prec + 32)).trans (roundoff_eq 34).le
  obtain ⟨hm1, hm2⟩ := exactMantissa_bounds hx
  have hmant := abs_le.1 (mantissa_within x).sub_le
  rw [abs_of_pos (by linarith)] at hmant
  have hslack := mul_le_mul hu1 hm2 (by linarith only [hm1]) (by norm_num)
  exact ⟨by linarith only [hmant.1, hslack, hm1], by linarith only [hmant.2, hslack, hm2]⟩

/-- What the logarithm of the mantissa is computed from. -/
theorem mantissaQuotient_within (hx : 0 < x.value) (hp : 2 ≤ x.prec) :
    |(x.mantissa.value - 1) / (x.mantissa.value + 1)| ≤ 3 / 8 ∧
      x.mantissaQuotient.prec = x.prec + 32 ∧
      Within (16 * roundoff (x.prec + 32)) x.mantissaQuotient.value
        ((x.mantissa.value - 1) / (x.mantissa.value + 1)) := by
  obtain ⟨hlow, hhigh⟩ := mantissa_bounds hx hp
  exact sub_one_div_add_one_within (prec_mantissa x) (by omega) hlow hhigh

/-- The logarithm is that of the mantissa, and as often that of two as the exponent says. -/
theorem log_mantissa (hx : 0 < x.value) :
    Real.log (x.value * 2 ^ (-(x.top - 1))) = Real.log x.value - (x.top - 1 : ℤ) * Real.log 2 := by
  rw [Real.log_mul hx.ne' (two_zpow_pos _).ne', Real.log_zpow, Int.cast_neg]
  ring

end Parts

/-! ## The parts together -/

/-- The exponent times the logarithm of two, both rounded. -/
theorem exponent_mul_error {u N h e ê q : ℝ} (hu : 0 < u) (hu1 : u ≤ 1 / 2 ^ 33)
    (hNu : N * u ≤ 1 / 2 ^ 28) (hh : |h - Real.log 2| ≤ (16 * N + 18) * u) (hê : Within u ê e)
    (hq : Within u q (h * ê)) : |q - e * Real.log 2| ≤ (16 * N + 21) * u * |e| := by
  have hlog2 : Real.log 2 ≤ 7 / 10 := by linarith [Real.log_two_lt_d9]
  have hhabs : |h| ≤ 3 / 4 := by
    have htri := abs_sub_abs_le_abs_sub h (Real.log 2)
    rw [abs_of_nonneg (Real.log_nonneg (by norm_num : (1 : ℝ) ≤ 2))] at htri
    linarith
  have hexact : Within (4 * u) q (h * e) := by
    have hmul := (Within.refl le_rfl h).mul (by norm_num) hê
    exact (hq.comp hu.le hmul).mono (by nlinarith)
  have hsplit : q - e * Real.log 2 = (q - h * e) + (h - Real.log 2) * e := by ring
  rw [hsplit]
  refine (abs_add_le _ _).trans ?_
  have h1 := hexact.sub_le
  rw [abs_mul] at h1 ⊢
  have h2 := mul_le_mul_of_nonneg_right hh (abs_nonneg e)
  have h3 : 4 * u * (|h| * |e|) ≤ 4 * u * (3 / 4 * |e|) :=
    mul_le_mul_of_nonneg_left (mul_le_mul_of_nonneg_right hhabs (abs_nonneg e)) (by linarith)
  linarith

/-- The errors of the parts, and of the exponent times the logarithm of two, taken together. -/
theorem ln_error {u N l L h e ê q s w Λ : ℝ} (hu : 0 < u) (hN : 50 ≤ N) (hNu : N * u ≤ 1 / 2 ^ 28)
    (hl : |l - L| ≤ (16 * N + 18) * u) (hh : |h - Real.log 2| ≤ (16 * N + 18) * u)
    (hê : Within u ê e) (hq : Within u q (h * ê)) (hs : Within (2 * u) s (l + q))
    (hw : |L + e * Real.log 2 - w| ≤ 2 * u) (hΛ : 1 ≤ Λ) (hwΛ : |w| ≤ Λ) (heΛ : |e| ≤ 5 / 2 * Λ) :
    |s - w| ≤ 64 * (N + 1) * u * Λ := by
  have hu1 : u ≤ 1 / 2 ^ 33 := by
    have hle := mul_le_mul_of_nonneg_right hN hu.le
    linarith only [hle, hNu]
  have hq' := exponent_mul_error hu hu1 hNu hh hê hq
  have hsum : |l + q - w| ≤ (16 * N + 18) * u + (16 * N + 21) * u * (5 / 2 * Λ) + 2 * u := by
    have hsplit : l + q - w = (l - L) + (q - e * Real.log 2) + (L + e * Real.log 2 - w) := by ring
    rw [hsplit]
    have h1 := abs_add_le ((l - L) + (q - e * Real.log 2)) (L + e * Real.log 2 - w)
    have h2 := abs_add_le (l - L) (q - e * Real.log 2)
    have h3 := mul_le_mul_of_nonneg_left heΛ (by positivity : 0 ≤ (16 * N + 21) * u)
    linarith
  -- everything is counted in units of `u * Λ`
  have hNuΛ : u * Λ * N ≤ Λ / 2 ^ 28 := by
    have hle := mul_le_mul_of_nonneg_left hNu (zero_le_one.trans hΛ)
    linarith only [hle]
  have huΛ : u ≤ u * Λ := le_mul_of_one_le_right hu.le hΛ
  have hNuΛ' : N * u ≤ u * Λ * N := by
    have hle := mul_le_mul_of_nonneg_right huΛ (by linarith only [hN] : 0 ≤ N)
    linarith only [hle]
  have huΛ' : 50 * (u * Λ) ≤ u * Λ * N := by
    have hle := mul_le_mul_of_nonneg_left hN (hu.le.trans huΛ)
    linarith only [hle]
  have hlarge : |l + q| ≤ 2 * Λ := by
    have htri := abs_sub_abs_le_abs_sub (l + q) w
    linarith only [htri, hwΛ, hsum, hNuΛ, huΛ, hNuΛ', huΛ', hΛ]
  have hround := hs.sub_le.trans (mul_le_mul_of_nonneg_left hlarge (by linarith))
  have htri := abs_sub_le s (l + q) w
  linarith only [hround, htri, hsum, hu, huΛ, hNuΛ', huΛ']

section Sum

variable {x : BinFloat}

/-- The exponent of a number is bounded by its logarithm. -/
theorem abs_top_sub_one_le (hx : 0 < x.value) :
    |((x.top - 1 : ℤ) : ℝ)| ≤ 5 / 2 * max 1 |Real.log x.value| := by
  obtain ⟨hm1, hm2⟩ := exactMantissa_bounds hx
  have hlo : 0 ≤ Real.log (x.value * 2 ^ (-(x.top - 1))) := Real.log_nonneg hm1
  have hhi : Real.log (x.value * 2 ^ (-(x.top - 1))) ≤ Real.log 2 := Real.log_le_log (by linarith) hm2
  rw [log_mantissa hx] at hlo hhi
  generalize ((x.top - 1 : ℤ) : ℝ) = e at hlo hhi ⊢
  have hlog2 : (69 / 100 : ℝ) ≤ Real.log 2 := by linarith only [Real.log_two_gt_d9]
  have hone : 1 ≤ max 1 |Real.log x.value| := le_max_left _ _
  obtain ⟨hw1, hw2⟩ := abs_le.1 (le_max_right 1 |Real.log x.value|)
  generalize max 1 |Real.log x.value| = Λ at hone hw1 hw2 ⊢
  refine abs_le.2 ⟨?_, ?_⟩
  · by_contra hlt
    have hneg : 5 / 2 * Λ - 1 ≤ -e - 1 := by linarith only [hlt]
    have hle := mul_le_mul hneg hlog2 (by norm_num) (by linarith only [hneg, hone])
    linarith only [hle, hhi, hw1, hone]
  · by_contra hlt
    have hpos : 5 / 2 * Λ ≤ e := by linarith only [hlt]
    have hle := mul_le_mul hpos hlog2 (by norm_num) (by linarith only [hpos, hone])
    linarith only [hle, hlo, hw2, hone]

/-- The sum of the two parts at the working precision, before it is rounded. -/
theorem lnSum_sub_le (hx : 0 < x.value) (hp : 2 ≤ x.prec) :
    |(x.mantissaQuotient.atanh.scaleTwo 1
        + x.workingThird.atanh.scaleTwo 1 * ofInt (x.top - 1) (x.prec + 32)).value - Real.log x.value|
      ≤ 64 * (seriesBound (x.prec + 32) + 1) * roundoff (x.prec + 32) * max 1 |Real.log x.value| := by
  have hwp : 34 ≤ x.prec + 32 := by omega
  have hu := roundoff_pos (x.prec + 32)
  have hu1 : roundoff (x.prec + 32) ≤ 1 / 2 ^ 34 := (roundoff_anti hwp).trans (roundoff_eq 34).le
  obtain ⟨hm1, -⟩ := exactMantissa_bounds hx
  obtain ⟨hlow, -⟩ := mantissa_bounds hx hp
  have hmantissa := twoAtanh_spec (by linarith) hwp (mantissaQuotient_within hx hp)
  have htwo : |(x.workingThird.atanh.scaleTwo 1).value - Real.log 2|
      ≤ (16 * seriesBound (x.prec + 32) + 18) * roundoff (x.prec + 32) :=
    twoAtanh_spec (by norm_num) hwp (third_within hwp)
  have hlog : |Real.log x.mantissa.value + (x.top - 1 : ℤ) * Real.log 2 - Real.log x.value|
      ≤ 2 * roundoff (x.prec + 32) := by
    have hlogm := (abs_log_sub_le_of_within (by linarith) (by linarith) (mantissa_within x)).2
    rw [log_mantissa hx, ← sub_add] at hlogm
    rwa [add_sub_right_comm]
  have hbound : (50 : ℝ) ≤ seriesBound (x.prec + 32) := by
    unfold seriesBound
    exact_mod_cast (by omega : 50 ≤ x.prec + 32 + 16)
  exact ln_error hu hbound (seriesBound_mul_roundoff_le' hwp) hmantissa htwo (value_ofInt_within _ _)
    (value_mul_within (by simp)) (value_add_within (by simp)) hlog (le_max_left _ _) (le_max_right _ _)
    (abs_top_sub_one_le hx)

theorem ln_eq (x : BinFloat) :
    x.ln = (x.mantissaQuotient.atanh.scaleTwo 1
      + x.workingThird.atanh.scaleTwo 1 * ofInt (x.top - 1) (x.prec + 32)).withPrec x.prec := rfl

/-- **The logarithm is accurate**, relative to its size or to one. -/
theorem ln_spec (hx : 0 < x.value) (hp : 2 ≤ x.prec) :
    |x.ln.value - Real.log x.value|
      ≤ (1 + (x.prec + 49 : Nat) / 2 ^ 25) * roundoff x.prec * max 1 |Real.log x.value| := by
  have hsum := lnSum_sub_le hx hp
  have hη := roundoff_pos x.prec
  have hΛ := le_max_right 1 |Real.log x.value|
  have hΛ0 : 0 ≤ max 1 |Real.log x.value| := zero_le_one.trans (le_max_left _ _)
  rw [ln_eq]
  generalize x.mantissaQuotient.atanh.scaleTwo 1
    + x.workingThird.atanh.scaleTwo 1 * ofInt (x.top - 1) (x.prec + 32) = s at hsum ⊢
  generalize max 1 |Real.log x.value| = Λ at hsum hΛ hΛ0 ⊢
  rw [roundoff_add_eq_div] at hsum
  unfold seriesBound at hsum
  push_cast at hsum ⊢
  have hs : |s.value| ≤ Λ + 64 * ((x.prec : ℝ) + 32 + 16 + 1) * (roundoff x.prec / 2 ^ 32) * Λ := by
    linarith [abs_sub_abs_le_abs_sub s.value (Real.log x.value)]
  have hround := (value_withPrec_within s x.prec).sub_le.trans (mul_le_mul_of_nonneg_left hs hη.le)
  have htri := abs_sub_le (s.withPrec x.prec).value s.value (Real.log x.value)
  have hsmall : 64 * ((x.prec : ℝ) + 32 + 16 + 1) * (roundoff x.prec / 2 ^ 32) * Λ * roundoff x.prec
      ≤ 64 * ((x.prec : ℝ) + 32 + 16 + 1) * (roundoff x.prec / 2 ^ 32) * Λ :=
    mul_le_of_le_one_right (by positivity) (roundoff_le_one _)
  linarith

end Sum

/-! ## The ends of the domain -/

section Domain

variable {x : BinFloat}

theorem ln?_eq_none_iff : x.ln? = none ↔ x.value ≤ 0 := by
  unfold ln? isPositive
  rw [← not_lt, value_pos_iff]
  simp

theorem ln?_of_pos (hx : 0 < x.value) : x.ln? = some x.ln := by
  unfold ln? isPositive
  rw [if_pos (decide_eq_true (value_pos_iff.1 hx))]

/-- The series of zero has one term. -/
theorem value_atanh_of_isZero {t : BinFloat} (h : t.isZero = true) : t.atanh.value = 0 := by
  have hdone : atanhStep (t * t) t.prec ⟨t, 1, t⟩ = none := by
    unfold atanhStep SeriesState.goesOn
    simp [h]
  unfold atanh
  rw [iterate_of_done hdone]
  exact isZero_iff.1 h

/-- Nothing is lost in the mantissa of one. -/
theorem value_mantissa_of_eq_one (hx : x.value = 1) : x.top - 1 = 0 ∧ x.mantissa.value = 1 := by
  have htop : x.top = 1 := by
    rw [top_eq_leading (by rw [hx]; norm_num), hx]
    exact leading_eq (by norm_num) (by norm_num)
  have hbits : HasBits (x.prec + 32) x.value := by
    refine ⟨1, 0, ?_, by rw [hx]; norm_num⟩
    rw [abs_one]
    exact one_lt_pow₀ (by norm_num) (by omega)
  have hround : (x.withPrec (x.prec + 32)).value = x.value :=
    (isNearest_ofScaled (by omega) x.mant x.exp).eq_of_hasBits hbits
  have hexp : x.top - 1 = 0 := by omega
  unfold mantissa
  rw [value_scaleTwo, hround, hexp, hx]
  norm_num

/-- Of a one, in any representation, all parts are zero. -/
theorem ln_of_eq_one (hx : x.value = 1) (hp : 2 ≤ x.prec) : x.ln = zero x.prec := by
  obtain ⟨hexp, hmant⟩ := value_mantissa_of_eq_one hx
  have hquot : x.mantissaQuotient.value = 0 :=
    (mantissaQuotient_within (by rw [hx]; norm_num) hp).2.2.eq_zero (by rw [hmant]; norm_num)
  have hfirst : (x.mantissaQuotient.atanh.scaleTwo 1).value = 0 := by
    rw [value_scaleTwo, value_atanh_of_isZero (isZero_iff.2 hquot), zero_mul]
  have hsecond : (x.workingThird.atanh.scaleTwo 1 * ofInt (x.top - 1) (x.prec + 32)).value = 0 := by
    refine (value_mul_within le_rfl).eq_zero ?_
    rw [hexp, (value_ofInt_within 0 _).eq_zero Int.cast_zero, mul_zero]
  rw [ln_eq]
  refine withPrec_of_isZero (isZero_iff.2 ((value_add_within le_rfl).eq_zero ?_)) _
  rw [hfirst, hsecond, add_zero]

/-- **The logarithm is accurate, for every positive number.** There is none of a number that is not positive. For
any other one both series come to their own end, the result is put together from their sums, and it is off by at
most two units behind the last place of itself, or of one if it is smaller than one. The logarithm of one is
exactly zero, however the one is represented. -/
theorem ln_accurate (hlow : 2 ≤ x.prec) (hhigh : x.prec ≤ 2 ^ 20) :
    (x.ln? = none ↔ x.value ≤ 0) ∧
    (0 < x.value → ∃ s h z, AtanhEnds x.mantissaQuotient s ∧ AtanhEnds x.workingThird h ∧ x.ln? = some z ∧
      z = (s.sum.scaleTwo 1 + h.sum.scaleTwo 1 * ofInt (x.top - 1) (x.prec + 32)).withPrec x.prec ∧
      |z.value - Real.log x.value| ≤ 2 ^ (1 - x.prec : ℤ) * max 1 |Real.log x.value|) ∧
    (x.value = 1 → x.ln? = some (zero x.prec)) := by
  have hwp : 34 ≤ x.prec + 32 := by omega
  refine ⟨ln?_eq_none_iff, fun hx => ?_, fun hx => ?_⟩
  · obtain ⟨hr, hprec, hquot⟩ := mantissaQuotient_within hx hlow
    obtain ⟨hr', hprec', hthird⟩ := third_within hwp
    obtain ⟨s, hs, hsum⟩ := atanh_ends hr (by rwa [hprec]) (by rwa [hprec])
    obtain ⟨h, hh, hsum'⟩ := atanh_ends (t := x.workingThird) hr' (hwp.trans_eq hprec'.symm)
      (by rw [workingThird, hprec']; exact hthird)
    refine ⟨s, h, x.ln, hs, hh, ln?_of_pos hx, by rw [ln_eq, hsum, hsum'], ?_⟩
    have hp : (x.prec : ℝ) ≤ 2 ^ 20 := by exact_mod_cast hhigh
    have hpow : (2 : ℝ) ^ (1 - x.prec : ℤ) = 2 * roundoff x.prec := by
      rw [two_zpow_sub, zpow_one]
    rw [hpow]
    refine (ln_spec hx hlow).trans (mul_le_mul_of_nonneg_right ?_ (by positivity))
    refine mul_le_mul_of_nonneg_right ?_ (roundoff_pos _).le
    push_cast
    linarith
  · rw [ln?_of_pos (by rw [hx]; norm_num), ln_of_eq_one hx hlow]

/-- The largest number below one with eight bits, and a one that is written as `4 * 2⁻²`. -/
theorem ln_accurate_near_one :
    2 ≤ 8 ∧ 8 ≤ 2 ^ 20 ∧ (0 : ℝ) < 255 / 256 ∧
      (∃ z, ln? ⟨255, -8, 8⟩ = some z ∧
        |z.value - Real.log (255 / 256)| ≤ 2 ^ (1 - (8 : ℕ) : ℤ) * max 1 |Real.log (255 / 256)|) ∧
      ln? ⟨4, -2, 8⟩ = some (zero 8) := by
  have hbelow : (⟨255, -8, 8⟩ : BinFloat).value = 255 / 256 := by norm_num [value]
  have hone : (⟨4, -2, 8⟩ : BinFloat).value = 1 := by norm_num [value]
  obtain ⟨-, hpos, -⟩ := ln_accurate (x := ⟨255, -8, 8⟩) (by decide) (by decide)
  rw [hbelow] at hpos
  obtain ⟨-, -, z, -, -, hz, -, herr⟩ := hpos (by norm_num)
  have hexact := (ln_accurate (x := ⟨4, -2, 8⟩) (by decide) (by decide)).2.2 hone
  exact ⟨by decide, by decide, by norm_num, ⟨z, hz, herr⟩, hexact⟩

end Domain

end CliffordT.BinFloat
