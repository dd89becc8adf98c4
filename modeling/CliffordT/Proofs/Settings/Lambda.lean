/-
The unit `λ = 1 + √2`, and the constants that are made from it.

The exponents of an ellipse are logarithms to base `λ`. What is compared with them are a few fixed
numbers, so that a few powers of `λ` with fractional exponents are enough; they are bounded here by
decimal numbers, with some room for the tolerance of the comparisons. The tolerance in turn is far above
the rounding errors: at least `2⁹⁶` of them.
-/
import Mathlib.Analysis.SpecialFunctions.Pow.Real
import CliffordT.Proofs.BinFloat.Logarithm
import CliffordT.Proofs.BinFloat.Scaled
import CliffordT.Proofs.Settings.Constants

namespace CliffordT

open BinFloat

noncomputable def lambdaReal : ℝ := 1 + √2

/-! ## Powers -/

theorem sqrt_two_bounds : 1.41421356 < √2 ∧ √2 < 1.41421357 := by
  constructor
  · exact Real.lt_sqrt_of_sq_lt (by norm_num)
  · exact (Real.sqrt_lt' (by norm_num)).2 (by norm_num)

theorem lambdaReal_bounds : 2.41421356 < lambdaReal ∧ lambdaReal < 2.41421357 := by
  have h := sqrt_two_bounds
  unfold lambdaReal
  constructor
  · linarith [h.1]
  · linarith [h.2]

theorem lambdaReal_pos : 0 < lambdaReal := by linarith [lambdaReal_bounds.1]

theorem one_lt_lambdaReal : 1 < lambdaReal := by linarith [lambdaReal_bounds.1]

theorem lambdaReal_sq : lambdaReal ^ 2 = 2 * lambdaReal + 1 := by
  have h : √2 ^ 2 = 2 := Real.sq_sqrt (by norm_num)
  unfold lambdaReal
  linarith

theorem inv_lambdaReal : lambdaReal⁻¹ = √2 - 1 := by
  have h : √2 ^ 2 = 2 := Real.sq_sqrt (by norm_num)
  refine inv_eq_of_mul_eq_one_right ?_
  unfold lambdaReal
  linarith

theorem log_lambdaReal_bounds : 0.86 < Real.log lambdaReal ∧ Real.log lambdaReal < 0.89 := by
  have hlog2 := Real.log_two_gt_d9
  have hlog2' := Real.log_two_lt_d9
  have hlam := lambdaReal_bounds
  have hlow : (2 : ℝ) ^ 10 ≤ lambdaReal ^ 8 :=
    le_trans (by norm_num : (2 : ℝ) ^ 10 ≤ 2.41421356 ^ 8)
      (pow_le_pow_left₀ (by norm_num) hlam.1.le 8)
  have hhigh : lambdaReal ^ 11 ≤ (2 : ℝ) ^ 14 :=
    le_trans (pow_le_pow_left₀ lambdaReal_pos.le hlam.2.le 11)
      (by norm_num : (2.41421357 : ℝ) ^ 11 ≤ 2 ^ 14)
  have hlow' := Real.log_le_log (by positivity) hlow
  have hhigh' := Real.log_le_log (pow_pos lambdaReal_pos 11) hhigh
  rw [Real.log_pow, Real.log_pow] at hlow' hhigh'
  push_cast at hlow' hhigh'
  constructor
  · linarith
  · linarith

theorem rpow_pow_eq {t : ℝ} {m n : Nat} (ht : n * t = m) : (lambdaReal ^ t) ^ n = lambdaReal ^ m := by
  rw [← Real.rpow_natCast, ← Real.rpow_mul lambdaReal_pos.le, mul_comm, ht, Real.rpow_natCast]

theorem lambdaReal_rpow_pos (t : ℝ) : 0 < lambdaReal ^ t := Real.rpow_pos_of_pos lambdaReal_pos t

/-- A fractional power is bounded through the integer power that it is a root of. -/
theorem rpow_bounds {t a b : ℝ} {m n : Nat} (hn : n ≠ 0) (hb : 0 ≤ b)
    (ht : n * t = m) (hlow : a ^ n ≤ 2.41421356 ^ m) (hhigh : 2.41421357 ^ m ≤ b ^ n) :
    a ≤ lambdaReal ^ t ∧ lambdaReal ^ t ≤ b := by
  have hpos := (lambdaReal_rpow_pos t).le
  have hlam := lambdaReal_bounds
  constructor
  · refine le_of_pow_le_pow_left₀ hn hpos ?_
    rw [rpow_pow_eq ht]
    exact hlow.trans (pow_le_pow_left₀ (by norm_num) hlam.1.le m)
  · refine le_of_pow_le_pow_left₀ hn hb ?_
    rw [rpow_pow_eq ht]
    exact (pow_le_pow_left₀ lambdaReal_pos.le hlam.2.le m).trans hhigh

theorem rpow_wide_bounds : 2.0235 ≤ lambdaReal ^ (8 / 10 : ℝ) ∧ lambdaReal ^ (8 / 10 : ℝ) ≤ 2.0245 :=
  rpow_bounds (m := 8) (n := 10) (by norm_num) (by norm_num) (by norm_num) (by norm_num)
    (by norm_num)

theorem rpow_narrow_bounds :
    1.3022 ≤ lambdaReal ^ (3 / 10 : ℝ) ∧ lambdaReal ^ (3 / 10 : ℝ) ≤ 1.3031 :=
  rpow_bounds (m := 3) (n := 10) (by norm_num) (by norm_num) (by norm_num) (by norm_num)
    (by norm_num)

theorem rpow_narrow_add_one_le : lambdaReal ^ (3 / 10 + 1 : ℝ) ≤ 3.147 := by
  have hnarrow := rpow_narrow_bounds
  have hlam := lambdaReal_bounds
  rw [Real.rpow_add lambdaReal_pos, Real.rpow_one]
  exact (mul_le_mul hnarrow.2 hlam.2.le lambdaReal_pos.le (by norm_num)).trans (by norm_num)

theorem rpow_below_bounds :
    1.1925 ≤ lambdaReal ^ (2 / 10 : ℝ) ∧ lambdaReal ^ (2 / 10 : ℝ) ≤ 1.193 :=
  rpow_bounds (m := 2) (n := 10) (by norm_num) (by norm_num) (by norm_num) (by norm_num)
    (by norm_num)

/-- A little room in the exponent is a little room in the power. -/
theorem rpow_le_of_le {z t : ℝ} (h : z ≤ t + 1 / 1000) :
    lambdaReal ^ z ≤ 1.0009 * lambdaReal ^ t := by
  have hlog := log_lambdaReal_bounds
  have hroom : lambdaReal ^ (1 / 1000 : ℝ) ≤ 1.0009 := by
    rw [Real.rpow_def_of_pos lambdaReal_pos]
    generalize hy : Real.log lambdaReal * (1 / 1000) = y
    have hpos := Real.exp_pos y
    have hneg := Real.add_one_le_exp (-y)
    have hmul := mul_le_mul_of_nonneg_right hneg hpos.le
    rw [← Real.exp_add, neg_add_cancel, Real.exp_zero] at hmul
    nlinarith
  refine (Real.rpow_le_rpow_of_exponent_le one_lt_lambdaReal.le h).trans ?_
  rw [Real.rpow_add lambdaReal_pos, mul_comm]
  exact mul_le_mul_of_nonneg_right hroom (lambdaReal_rpow_pos t).le

namespace BinFloat

/-- A square root has half the relative error, and no more than all of it. -/
theorem within_sqrt {e a b : ℝ} (hb : 0 < b) (he : e ≤ 1) (h : Within e a b) :
    Within e √a √b := by
  have h := abs_le.1 h.sub_le
  rw [abs_of_pos hb] at h
  have ha : 0 ≤ a := by nlinarith
  have hsa := Real.sq_sqrt ha
  have hsb := Real.sq_sqrt hb.le
  have hpa := Real.sqrt_nonneg a
  have hpb := Real.sqrt_pos.2 hb
  unfold Within
  rw [abs_of_pos hpb]
  have hprod : |√a - √b| * (√a + √b) ≤ e * √b * √b := by
    rw [← abs_of_nonneg (by positivity : 0 ≤ √a + √b), ← abs_mul]
    have hdiff : (√a - √b) * (√a + √b) = a - b := by linarith
    rw [hdiff, mul_assoc, ← sq, hsb]
    exact abs_le.2 h
  by_contra hlt
  nlinarith [mul_nonneg hpa (abs_nonneg (√a - √b))]

/-- The error of the logarithm at the precisions in use. -/
theorem ln_within_of_prec {x : BinFloat} {p : Nat} (hx : 0 < x.value) (hp : p ≤ x.prec)
    (hp2 : 2 ≤ p) (hp32 : p < 2 ^ 32) :
    |x.ln.value - Real.log x.value| ≤ 130 * roundoff p * max 1 |Real.log x.value| := by
  refine (ln_spec hx (hp2.trans hp)).trans (mul_le_mul_of_nonneg_right ?_ (by positivity))
  obtain ⟨q, hq⟩ := Nat.exists_eq_add_of_le hp
  have hu := roundoff_pos p
  have hq1 := mul_roundoff_le_one q
  have hq2 := roundoff_le_one q
  have hp32' : (p : ℝ) ≤ 2 ^ 32 := by exact_mod_cast hp32.le
  have hsum : (1 + ((p : ℝ) + q + 49) / 2 ^ 25) * roundoff q ≤ 130 := by
    have hpq : ((p : ℝ) + 49) * roundoff q ≤ (2 ^ 32 + 49) * 1 :=
      mul_le_mul (by linarith) hq2 (roundoff_pos q).le (by positivity)
    linarith
  rw [hq, roundoff_add]
  push_cast
  calc (1 + ((p : ℝ) + q + 49) / 2 ^ 25) * (roundoff p * roundoff q)
      = (1 + ((p : ℝ) + q + 49) / 2 ^ 25) * roundoff q * roundoff p := by ring
    _ ≤ 130 * roundoff p := mul_le_mul_of_nonneg_right hsum hu.le

end BinFloat

/-! ## The constants made from it -/

/-- The unit, its inverse, the square root of that and its logarithm are what they stand for, up to a
few rounding errors; the tolerance is far above them. -/
structure Constants.AccurateUnits (c : Constants) : Prop extends c.Accurate where
  prec_lt : c.prec < 2 ^ 32
  lambda : Within (5 * roundoff c.prec) c.lambda.value lambdaReal
  prec_lambda : c.lambda.prec = c.prec
  lambdaInv : Within (10 * roundoff c.prec) c.lambdaInv.value lambdaReal⁻¹
  prec_lambdaInv : c.lambdaInv.prec = c.prec
  sqrtLambdaInv : Within (14 * roundoff c.prec) c.sqrtLambdaInv.value √lambdaReal⁻¹
  prec_sqrtLambdaInv : c.sqrtLambdaInv.prec = c.prec
  logLambda : Within (200 * roundoff c.prec) c.logLambda.value (Real.log lambdaReal)
  prec_logLambda : c.logLambda.prec = c.prec
  prec_tol : c.tol.prec = c.prec
  le_tol : 2 ^ 96 * roundoff c.prec ≤ c.tol.value
  tol_le : c.tol.value ≤ 1 / 10 ^ 14

namespace Constants

theorem AccurateUnits.tol_pos {c : Constants} (hc : c.AccurateUnits) : 0 < c.tol.value :=
  lt_of_lt_of_le (mul_pos (by norm_num) (roundoff_pos c.prec)) hc.le_tol

variable {digits : Nat}

theorem roundoff_le_of_digits (digits : Nat) : roundoff (20 * digits + 128) ≤ 1 / 2 ^ 128 :=
  (roundoff_anti (by omega)).trans (roundoff_eq 128).le

theorem ofDigits_lambda (digits : Nat) :
    (ofDigits digits).lambda = BinFloat.one (20 * digits + 128) + (ofDigits digits).sqrt2 := by
  simp only [ofDigits]

theorem ofDigits_lambdaInv (digits : Nat) :
    (ofDigits digits).lambdaInv = (ofDigits digits).sqrt2 - BinFloat.one (20 * digits + 128) := by
  simp only [ofDigits]

theorem ofDigits_sqrtLambdaInv (digits : Nat) :
    (ofDigits digits).sqrtLambdaInv = (ofDigits digits).lambdaInv.sqrt := by
  simp only [ofDigits]

theorem lambda_within (digits : Nat) :
    Within (5 * roundoff (20 * digits + 128)) (ofDigits digits).lambda.value lambdaReal := by
  have hu := roundoff_pos (20 * digits + 128)
  have hu1 := roundoff_le_of_digits digits
  have hsqrt := Close.of_within (sqrt2_within digits)
  have hone := Close.exact (1 : ℝ)
  rw [← value_one (20 * digits + 128)] at hone
  have hsum := Close.value_add (x := BinFloat.one (20 * digits + 128)) (y := (ofDigits digits).sqrt2)
    (p := 20 * digits + 128) (le_max_left _ _) (by linarith) (hone.mono (by linarith)) hsqrt
  have hscale : |(BinFloat.one (20 * digits + 128)).value| + |√2| = |lambdaReal| := by
    rw [value_one, abs_one, abs_of_nonneg (Real.sqrt_nonneg 2), abs_of_pos lambdaReal_pos]
    rfl
  have hexact : (BinFloat.one (20 * digits + 128)).value + √2 = lambdaReal := by
    rw [value_one]
    rfl
  rw [hscale, hexact] at hsum
  rw [ofDigits_lambda]
  exact hsum.sub_le.trans (mul_le_mul_of_nonneg_right (by linarith) (abs_nonneg _))

theorem lambdaInv_within (digits : Nat) :
    Within (10 * roundoff (20 * digits + 128)) (ofDigits digits).lambdaInv.value lambdaReal⁻¹ := by
  have hu := roundoff_pos (20 * digits + 128)
  have hu1 := roundoff_le_of_digits digits
  have hroot := sqrt_two_bounds
  have hsqrt := (sqrt2_within digits).sub_le
  rw [abs_of_pos (by linarith : 0 < √2)] at hsqrt
  have hsub := (value_sub_within (x := (ofDigits digits).sqrt2) (y := BinFloat.one (20 * digits + 128))
    (p := 20 * digits + 128) (le_max_right _ _))
  rw [value_one] at hsub
  have hdiff : Within (7 * roundoff (20 * digits + 128)) ((ofDigits digits).sqrt2.value - 1)
      lambdaReal⁻¹ := by
    unfold Within
    rw [inv_lambdaReal, sub_sub_sub_cancel_right, abs_of_pos (by linarith : 0 < √2 - 1)]
    nlinarith
  rw [ofDigits_lambdaInv]
  exact (hsub.comp (by linarith) hdiff).mono (by nlinarith)

theorem prec_lambda (digits : Nat) : (ofDigits digits).lambda.prec = 20 * digits + 128 := by
  show (BinFloat.one (20 * digits + 128) + (ofInt 2 (20 * digits + 128)).sqrt).prec = _
  simp

theorem prec_lambdaInv (digits : Nat) : (ofDigits digits).lambdaInv.prec = 20 * digits + 128 := by
  show ((ofInt 2 (20 * digits + 128)).sqrt - BinFloat.one (20 * digits + 128)).prec = _
  simp

theorem sqrtLambdaInv_within (digits : Nat) :
    Within (14 * roundoff (20 * digits + 128)) (ofDigits digits).sqrtLambdaInv.value
      √lambdaReal⁻¹ := by
  have hu := roundoff_pos (20 * digits + 128)
  have hu1 := roundoff_le_of_digits digits
  have hlam : 0 < lambdaReal⁻¹ := inv_pos.2 lambdaReal_pos
  have hinv := lambdaInv_within digits
  have hpos : 0 < (ofDigits digits).lambdaInv.value := by
    have habs := abs_le.1 hinv.sub_le
    rw [abs_of_pos hlam] at habs
    nlinarith [habs.1]
  have hround := value_sqrt_within (x := (ofDigits digits).lambdaInv) hpos
  rw [prec_lambdaInv] at hround
  have hroot := within_sqrt hlam (by linarith) hinv
  rw [ofDigits_sqrtLambdaInv]
  exact (hround.comp (by linarith) hroot).mono (by nlinarith)

theorem logLambda_within (hprec : 20 * digits + 128 < 2 ^ 32) :
    Within (200 * roundoff (20 * digits + 128)) (ofDigits digits).logLambda.value
      (Real.log lambdaReal) := by
  have hu := roundoff_pos (20 * digits + 128)
  have hu1 := roundoff_le_of_digits digits
  have hlog := log_lambdaReal_bounds
  obtain ⟨hpos, hlam⟩ := abs_log_sub_le_of_within lambdaReal_pos (by linarith) (lambda_within digits)
  have hln := ln_within_of_prec hpos (prec_lambda digits).ge (by omega) hprec
  have hmax : max 1 |Real.log (ofDigits digits).lambda.value| = 1 := by
    refine max_eq_left ?_
    have habs := abs_le.1 hlam
    refine abs_le.2 ⟨by linarith [habs.1], by linarith [habs.2]⟩
  rw [hmax, mul_one] at hln
  have htri := abs_sub_le (ofDigits digits).logLambda.value
    (Real.log (ofDigits digits).lambda.value) (Real.log lambdaReal)
  have hdef : (ofDigits digits).logLambda = (ofDigits digits).lambda.ln := rfl
  rw [← hdef] at hln
  unfold Within
  rw [abs_of_pos (by linarith : 0 < Real.log lambdaReal)]
  have hrel : 0.86 * roundoff (20 * digits + 128)
      ≤ Real.log lambdaReal * roundoff (20 * digits + 128) :=
    mul_le_mul_of_nonneg_right hlog.1.le hu.le
  clear hprec
  linarith

/-- The tolerance is a power of ten that rounding errors do not come near. -/
theorem tol_bounds (hd : 0 < digits) :
    2 ^ 96 * roundoff (20 * digits + 128) ≤ (ofDigits digits).tol.value ∧
      (ofDigits digits).tol.value ≤ 1 / 10 ^ 14 := by
  have htol := abs_le.1 (tol_within digits).sub_le
  have hten : (0 : ℝ) < 1 / 10 ^ max 15 digits := by positivity
  rw [abs_of_pos hten] at htol
  have hsmall : (1 : ℝ) / 10 ^ max 15 digits ≤ 1 / 10 ^ 15 :=
    one_div_le_one_div_of_le (by positivity)
      (pow_le_pow_right₀ (by norm_num) (le_max_left 15 digits))
  have hlarge : 2 ^ 97 * roundoff (20 * digits + 128) ≤ 1 / 10 ^ max 15 digits := by
    rw [roundoff_eq, le_div_iff₀ (by positivity), mul_one_div, div_mul_eq_mul_div,
      div_le_one (by positivity)]
    have hpow : (10 : ℝ) ^ max 15 digits ≤ 2 ^ (20 * digits + 31) := by
      rcases Nat.lt_or_ge digits 16 with hlt | hge
      · rw [max_eq_left (by omega)]
        exact (by norm_num : (10 : ℝ) ^ 15 ≤ 2 ^ 51).trans
          (pow_le_pow_right₀ (by norm_num) (by omega))
      · rw [max_eq_right (by omega)]
        calc (10 : ℝ) ^ digits ≤ (2 ^ 4) ^ digits := pow_le_pow_left₀ (by norm_num) (by norm_num) _
          _ = 2 ^ (4 * digits) := (pow_mul 2 4 digits).symm
          _ ≤ 2 ^ (20 * digits + 31) := pow_le_pow_right₀ (by norm_num) (by omega)
    calc (2 : ℝ) ^ 97 * 10 ^ max 15 digits ≤ 2 ^ 97 * 2 ^ (20 * digits + 31) :=
          mul_le_mul_of_nonneg_left hpow (by positivity)
      _ = 2 ^ (20 * digits + 128) := by
          rw [← pow_add]
          congr 1
          omega
  constructor
  · nlinarith [htol.1]
  · nlinarith [htol.2]

theorem ofDigits_accurateUnits (hd : 0 < digits) (hprec : 20 * digits + 128 < 2 ^ 32) :
    (ofDigits digits).AccurateUnits where
  toAccurate := ofDigits_accurate hd
  prec_lt := hprec
  lambda := lambda_within digits
  prec_lambda := prec_lambda digits
  lambdaInv := lambdaInv_within digits
  prec_lambdaInv := prec_lambdaInv digits
  sqrtLambdaInv := sqrtLambdaInv_within digits
  prec_sqrtLambdaInv := (prec_sqrt _).trans (prec_lambdaInv digits)
  logLambda := logLambda_within hprec
  prec_logLambda := (prec_withPrec _ _).trans (prec_lambda digits)
  prec_tol := by
    rw [ofDigits_tol, prec_div,
      pow_ten_exact (ten_pow_lt (by omega)) (ten_pow_lt (n := 1) (by omega))]
    exact Nat.max_self _
  le_tol := (tol_bounds hd).1
  tol_le := (tol_bounds hd).2

end Constants

end CliffordT
