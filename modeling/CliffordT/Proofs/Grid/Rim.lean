/-
What the searches on the line agree on, and what they do not.

The points with both embeddings in the intervals are found by all of them. Around the intervals the test of
membership tolerates a product of distances, and the searches that scale apply it after scaling: making an
interval narrow makes the product smaller, and a point outside that the plain search rejects is accepted.
-/
import CliffordT.Proofs.Grid.LineCompleteness

namespace CliffordT

open BinFloat

namespace GridPoints

open ZSqrt2 (real)

variable {o : Options} {ctx : Context} {a b : Interval} {x : ZSqrt2}

section Outsider

/-- An interval that zero is outside of, by very little. -/
def aboveZero : Interval := ⟨twoPow (-54) 148, twoPow 5 148⟩

/-- A narrow interval around zero. -/
def aroundZero : Interval := ⟨-twoPow (-6) 148, twoPow (-6) 148⟩

theorem near_aboveZero : aboveZero.Near 148 32 (1 / 2 ^ 54) (real 0) := by
  have hlo : aboveZero.lo.value = 1 / 2 ^ 54 := by
    rw [aboveZero, value_twoPow]
    norm_num
  have hhi : aboveZero.hi.value = 32 := by
    rw [aboveZero, value_twoPow]
    norm_num
  refine ⟨le_rfl, le_rfl, ?_, ?_, ?_, ?_, ?_⟩
  · rw [hlo, abs_of_pos (by positivity)]
    norm_num
  · rw [hhi, abs_of_pos (by norm_num)]
  · rw [hlo, hhi]
    norm_num
  · rw [hlo, map_zero, zero_add]
  · rw [hhi, map_zero]
    norm_num

theorem near_aroundZero : aroundZero.Near 148 32 0 (real (0 : ZSqrt2).dot) := by
  have hdot : (0 : ZSqrt2).dot = 0 := rfl
  have hhi : aroundZero.hi.value = 1 / 64 := by
    rw [aroundZero, value_twoPow]
    norm_num
  have hlo : aroundZero.lo.value = -(1 / 64) := by
    rw [aroundZero, value_neg, value_twoPow]
    norm_num
  rw [hdot, map_zero]
  refine ⟨le_rfl, le_rfl, ?_, ?_, ?_, ?_, ?_⟩
  · rw [hlo, abs_neg, abs_of_pos (by norm_num)]
    norm_num
  · rw [hhi, abs_of_pos (by norm_num)]
    norm_num
  · rw [hlo, hhi]
    norm_num
  · rw [hlo]
    norm_num
  · rw [hhi]
    norm_num

theorem width_aboveZero : 31 ≤ aboveZero.width.value ∧ aboveZero.width.value ≤ 33 := by
  have h := near_aboveZero.width_within.sub_le
  have hwidth : aboveZero.realWidth = 32 - 1 / 2 ^ 54 := by
    rw [Interval.realWidth, aboveZero, value_twoPow, value_twoPow]
    norm_num
  rw [hwidth, abs_of_pos (by norm_num : (0 : ℝ) < 32 - 1 / 2 ^ 54), roundoff_eq] at h
  obtain ⟨h1, h2⟩ := abs_le.1 h
  norm_num at h1 h2
  constructor
  · linarith
  · linarith

theorem lambdaReal_pow_four_bounds : 33.9 ≤ lambdaReal ^ 4 ∧ lambdaReal ^ 4 ≤ 34 := by
  have hlam := lambdaReal_bounds
  have hsq := lambdaReal_sq
  have hfour : lambdaReal ^ 4 = 12 * lambdaReal + 5 := by
    have hsplit : lambdaReal ^ 4 = (lambdaReal ^ 2) ^ 2 := by ring
    rw [hsplit, hsq]
    linarith
  rw [hfour]
  constructor
  · linarith
  · linarith

/-- The width asks for the fourth power. -/
theorem exactExponent_aboveZero : exactExponent aboveZero.width = 4 := by
  obtain ⟨hlow, hhigh⟩ := width_aboveZero
  have hpos : 0 < aboveZero.width.value := by linarith
  have hlam := lambdaReal_bounds
  have hfour := lambdaReal_pow_four_bounds.1
  have hthree : lambdaReal ^ 3 ≤ 31 := by
    have hpow := pow_le_pow_left₀ lambdaReal_pos.le hlam.2.le 3
    norm_num at hpow ⊢
    linarith
  have hfloor : ⌊Real.logb lambdaReal aboveZero.width.value⌋ = 3 := by
    rw [Int.floor_eq_iff]
    push_cast
    constructor
    · rw [Real.le_logb_iff_rpow_le one_lt_lambdaReal hpos]
      exact_mod_cast hthree.trans hlow
    · rw [Real.logb_lt_iff_lt_rpow one_lt_lambdaReal hpos]
      have : aboveZero.width.value < lambdaReal ^ (4 : ℕ) := by linarith
      norm_num
      exact_mod_cast this
  unfold exactExponent
  rw [hfloor]
  rfl

theorem tol_ge_one_digit : 4 / 2 ^ 52 ≤ (Constants.ofDigits 1).tol.value := by
  have h := Constants.le_tol_of_digits one_pos
  norm_num at h ⊢
  exact h

/-- A distance `δ` and a width `w` that are scaled by `q`, with the errors of the fourth power at one digit:
what is left of them, when the product of both is below the tolerance. -/
theorem slack_of_scaled {w δ q r D W : ℝ} (hq : 0 < q) (hqr : q ≤ r) (hδ : 0 ≤ δ) (hw : w ≤ 64)
    (hD : (δ + 12480 / 2 ^ 148) * r ≤ D) (hW : 65 * r ≤ W) (hhalf : D ≤ 2 / 2 ^ 52)
    (h : 2 * ((D + 25600 / 2 ^ 148) * (W + (D + 25600 / 2 ^ 148))) < 4 / 2 ^ 52) :
    (δ + (388 * roundoff 148 + 2 * roundoff 148) * 32) * q ≤ (Constants.ofDigits 1).tol.value / 2 ∧
      Interval.Slack ((δ + (388 * roundoff 148 + 2 * roundoff 148) * 32) * q + 20 * roundoff 148 * (32 * 40))
        ((w + 2 * ((388 * roundoff 148 + 2 * roundoff 148) * 32)) * q) (Constants.ofDigits 1).tol.value := by
  have htol := tol_ge_one_digit
  have hu : roundoff 148 = 1 / 2 ^ 148 := roundoff_eq 148
  have herror : (388 * roundoff 148 + 2 * roundoff 148) * 32 = 12480 / 2 ^ 148 := by
    rw [hu]
    norm_num
  have hround : 20 * roundoff 148 * (32 * 40) = 25600 / 2 ^ 148 := by
    rw [hu]
    norm_num
  have hdist : (δ + 12480 / 2 ^ 148) * q ≤ D :=
    (mul_le_mul_of_nonneg_left hqr (by positivity)).trans hD
  have hwidth : (w + 2 * (12480 / 2 ^ 148)) * q ≤ W := by
    have hle : w + 2 * (12480 / 2 ^ 148) ≤ 65 := by
      norm_num
      linarith
    exact ((mul_le_mul_of_nonneg_right hle hq.le).trans (by linarith)).trans hW
  have hW0 : 0 ≤ W := le_trans (by linarith) hW
  rw [herror, hround]
  exact ⟨hdist.trans (by linarith), .of_le (by positivity) (add_le_add hdist le_rfl) hwidth hW0
    (h.trans_le htol)⟩

/-- After scaling by the fourth power zero is outside by very little of a narrow interval. -/
theorem scalable_aboveZero : Scalable (Constants.ofDigits 1) aboveZero aroundZero 32 (1 / 2 ^ 54) 0 40
    4 (388 * roundoff 148) (388 * roundoff 148) := by
  have hfour := lambdaReal_pow_four_bounds
  have hpower : IsPower 1 4 := by
    refine isPower_of_pow_le one_pos ?_
    have hreach := (reach_bounds one_pos).1
    show lambdaReal ^ 4 ≤ _
    linarith
  have herr : ((96 * (4 : ℤ).natAbs + 4 : ℝ)) = 388 := by
    norm_num
  have hfst := hpower.fst
  have hsnd := hpower.snd
  rw [herr] at hfst hsnd
  have hz : lambdaReal ^ (4 : ℤ) ≤ 34 := by exact_mod_cast hfour.2
  have hinv : lambdaReal ^ (-4 : ℤ) ≤ 1 / 33 := by
    rw [zpow_neg, one_div]
    refine inv_anti₀ (by norm_num) ?_
    exact_mod_cast (by linarith : (33 : ℝ) ≤ lambdaReal ^ 4)
  have hfst_slack := slack_of_scaled (D := 1 / 2 ^ 59) (W := 2) (zpow_pos lambdaReal_pos (-4)) hinv
    (by positivity : (0 : ℝ) ≤ 1 / 2 ^ 54) (near_aboveZero.realWidth_le.trans (by norm_num)) (by norm_num)
    (by norm_num) (by norm_num) (by norm_num)
  have hsnd_slack := slack_of_scaled (D := 1 / 2 ^ 128) (W := 2210) (zpow_pos lambdaReal_pos 4) hz
    (le_refl (0 : ℝ)) (near_aroundZero.realWidth_le.trans (by norm_num)) (by norm_num)
    (by norm_num) (by norm_num) (by norm_num)
  have hsmall : 388 * roundoff 148 + 2 * roundoff 148 ≤ 1 := by
    rw [roundoff_eq]
    norm_num
  refine ⟨?_, hfst, hsnd, hsmall, hsmall, ?_, hfst_slack.1, hsnd_slack.1, hfst_slack.2, hsnd_slack.2⟩
  · show lambdaReal ^ 4 ≤ 40
    linarith
  · show 256 * roundoff 148 * (32 * 40) ≤ _
    rw [roundoff_eq]
    exact le_trans (by norm_num) tol_ge_one_digit

/-- The plain search tests zero against the interval as it is. -/
theorem not_contains_aboveZero :
    ¬ aboveZero.contains ((0 : ZSqrt2).toReal (Constants.ofDigits 1)) (Constants.ofDigits 1).tol = true := by
  have hzero : ((0 : ZSqrt2).toReal (Constants.ofDigits 1)).value = 0 := by
    have hreal : |real (0 : ZSqrt2)| ≤ 0 := by rw [map_zero, abs_zero]
    have hdot : |real (0 : ZSqrt2).dot| ≤ 0 := hreal
    have h := ZSqrt2.abs_toReal_sub_le (Constants.ofDigits_accurate one_pos) hreal hdot
    rw [map_zero, sub_zero, mul_zero] at h
    exact abs_eq_zero.1 (le_antisymm h (abs_nonneg _))
  have hlo : aboveZero.lo.value = 1 / 2 ^ 54 := by
    rw [aboveZero, value_twoPow]
    norm_num
  have hhi : aboveZero.hi.value = 32 := by
    rw [aboveZero, value_twoPow]
    norm_num
  have htol : (Constants.ofDigits 1).tol.value ≤ 11 / 10 * (1 / 10 ^ 15) := by
    have h := (abs_le.1 (Constants.tol_within 1).sub_le).2
    have hu1 := Constants.roundoff_le_of_digits 1
    norm_num at h hu1 ⊢
    linarith
  refine Interval.not_contains_of_lt (p := 148) (by norm_num) le_rfl le_rfl ?_ ?_
  · rw [hzero, hlo, hhi]
    norm_num
  · rw [hzero, hlo, hhi]
    norm_num at htol ⊢
    linarith

/-- Zero is found with any exponents that ask for the fourth power. -/
theorem mem_zero_of_exponent (exponent : BinFloat → Int) (hk : exponent aboveZero.width = 4) :
    (0 : ZSqrt2) ∈ onLineScaledBy exponent aboveZero aroundZero (Constants.ofDigits 1) ∧
      (0 : ZSqrt2) ∈ onLineBalancedBy exponent aboveZero aroundZero (Constants.ofDigits 1) := by
  have hpos : 0 < aboveZero.width.value := by linarith [width_aboveZero.1]
  have hscalable := scalable_aboveZero
  rw [← hk] at hscalable
  have hscaled : (0 : ZSqrt2) ∈ onLineScaledBy exponent aboveZero aroundZero (Constants.ofDigits 1) :=
    -- the exponent is given, as it is not found by unification
    @Scalable.mem_onLineScaledBy _ _ _ 0 32 40 (1 / 2 ^ 54) 0 _ _ exponent hscalable
      (Constants.ofDigits_accurateScale one_pos) hpos near_aboveZero near_aroundZero (by norm_num)
      (by norm_num) (by norm_num)
  have hwider : aroundZero.width ≤ aboveZero.width := by decide
  exact ⟨hscaled, mem_onLineBalancedBy (fun _ => hscaled) fun h => absurd hwider h⟩

end Outsider

end GridPoints

end CliffordT
