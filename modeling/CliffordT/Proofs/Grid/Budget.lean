/-
What the working precision and the tolerance leave room for on the line.

With `d` digits the ends of intervals may be up to `2^(16 + 4d)`. The powers of `λ` that bring an interval
of at least `2^-(16 + 4d)` to a width of about one are then bounded by the same number, up to a factor, and
their exponents grow with `d`. Errors that are cubic in the bound are far below the tolerance. Those of an
interval that is scaled up are of the fourth power, in proportion to `d`, and just below it.
-/
import CliffordT.Proofs.Grid.Scaling

namespace CliffordT

open BinFloat

/-! ## Room below the tolerance -/

/-- A bound of the ends of the intervals, with some room for the step of `1/√2`. -/
noncomputable def reach (d : ℕ) : ℝ := 2 ^ (16 + 4 * d) + 2

section Room

variable {d : ℕ}

theorem reach_bounds (hd : 0 < d) : 2 ^ 20 ≤ reach d ∧ reach d ≤ (1 + 1 / 2 ^ 19) * 2 ^ (16 + 4 * d) := by
  have hpow : (2 : ℝ) ^ 20 ≤ 2 ^ (16 + 4 * d) := pow_le_pow_right₀ (by norm_num) (by omega)
  unfold reach
  constructor
  · linarith
  · linarith

/-- The tolerance, from below. -/
theorem Constants.le_tol_of_digits (hd : 0 < d) :
    ((d : ℝ) + 3) / 2 ^ (4 * d + 48) ≤ (Constants.ofDigits d).tol.value := by
  have hu1 := roundoff_le_of_digits d
  have htol := (abs_le.1 (tol_within d).sub_le).1
  have hten : (0 : ℝ) < 1 / 10 ^ max 15 d := by positivity
  rw [abs_of_pos hten] at htol
  have hmain : ((d : ℝ) + 3) / 2 ^ (4 * d + 48) ≤ 9 / 10 * (1 / 10 ^ max 15 d) := by
    rw [mul_one_div, div_le_div_iff₀ (by positivity) (by positivity)]
    rcases Nat.lt_or_ge d 16 with hlt | hge
    · rw [max_eq_left (by omega)]
      have hlin : (d : ℝ) + 3 ≤ 4 * 2 ^ (4 * (d - 1)) := by
        have hnat : d + 3 ≤ 4 * 2 ^ (4 * (d - 1)) := by
          have := Nat.lt_two_pow_self (n := 4 * (d - 1))
          omega
        exact_mod_cast hnat
      have hsplit : (2 : ℝ) ^ (4 * d + 48) = 2 ^ 52 * 2 ^ (4 * (d - 1)) := by
        rw [← pow_add]
        congr 1
        omega
      rw [hsplit]
      nlinarith
    · rw [max_eq_right (by omega)]
      have hbern : 1 + (d : ℝ) * (3 / 5) ≤ (1 + 3 / 5) ^ d := one_add_mul_le_pow (by norm_num) d
      have hsplit : (2 : ℝ) ^ (4 * d + 48) = 2 ^ 48 * ((1 + 3 / 5) ^ d * 10 ^ d) := by
        rw [← mul_pow, pow_add, pow_mul, mul_comm]
        norm_num
      have hlin : ((d : ℝ) + 3) ≤ 9 / 10 * 2 ^ 48 * (1 + 3 / 5) ^ d := by
        linarith
      rw [hsplit]
      have := mul_le_mul_of_nonneg_right hlin (by positivity : (0 : ℝ) ≤ 10 ^ d)
      linarith
  have hsmall : 2 * roundoff (20 * d + 128) * (1 / 10 ^ max 15 d) ≤ 1 / 10 * (1 / 10 ^ max 15 d) :=
    mul_le_mul_of_nonneg_right (by linarith) hten.le
  linarith

/-- A roundoff times a power of the reach. -/
theorem roundoff_mul_reach_pow_le (hd : 0 < d) {m : ℕ} (hm : m ≤ 4) :
    roundoff (20 * d + 128) * reach d ^ m ≤ 1.00001 * (2 ^ ((16 + 4 * d) * m) / 2 ^ (20 * d + 128)) := by
  have hreach := reach_bounds hd
  have hone : (1 + 1 / 2 ^ 19 : ℝ) ^ m ≤ 1.00001 :=
    (pow_le_pow_right₀ (by norm_num) hm).trans (by norm_num)
  have hpow : reach d ^ m ≤ 1.00001 * 2 ^ ((16 + 4 * d) * m) := by
    refine (pow_le_pow_left₀ (by linarith) hreach.2 m).trans ?_
    rw [mul_pow, ← pow_mul]
    exact mul_le_mul_of_nonneg_right hone (by positivity)
  have hmul := mul_le_mul_of_nonneg_left hpow (roundoff_pos (20 * d + 128)).le
  refine hmul.trans (le_of_eq ?_)
  rw [roundoff_eq]
  ring

/-- What grows with the third power of the reach is far below the tolerance. -/
theorem cubic_lt_tol (hd : 0 < d) :
    100000 * (d * (roundoff (20 * d + 128) * reach d ^ 3)) < (Constants.ofDigits d).tol.value := by
  have hle := roundoff_mul_reach_pow_le hd (m := 3) (by norm_num)
  refine lt_of_lt_of_le ?_ (Constants.le_tol_of_digits hd)
  have hquot : (2 : ℝ) ^ ((16 + 4 * d) * 3) / 2 ^ (20 * d + 128) ≤ 1 / 2 ^ 32 * (1 / 2 ^ (4 * d + 48)) := by
    rw [one_div_mul_one_div, ← pow_add, div_le_div_iff₀ (by positivity) (by positivity), one_mul,
      ← pow_add]
    exact pow_le_pow_right₀ (by norm_num) (by omega)
  have hstep := mul_le_mul_of_nonneg_left (hle.trans (mul_le_mul_of_nonneg_left hquot (by norm_num)))
    (by linarith : (0 : ℝ) ≤ d)
  have hpos : (0 : ℝ) < 1 / 2 ^ (4 * d + 48) := by positivity
  have hdpos : 0 < (d : ℝ) * (1 / 2 ^ (4 * d + 48)) := by positivity
  rw [div_eq_mul_one_div ((d : ℝ) + 3)]
  linarith

/-- What grows with its fourth power, in proportion to the number of digits, is just below it. -/
theorem quartic_lt_tol (hd : 0 < d) :
    577 * ((250 + 45 * d) * (roundoff (20 * d + 128) * reach d ^ 4)) < (Constants.ofDigits d).tol.value := by
  have hle := roundoff_mul_reach_pow_le hd (m := 4) le_rfl
  refine lt_of_lt_of_le ?_ (Constants.le_tol_of_digits hd)
  have hquot : (2 : ℝ) ^ ((16 + 4 * d) * 4) / 2 ^ (20 * d + 128) = 1 / 2 ^ 16 * (1 / 2 ^ (4 * d + 48)) := by
    rw [one_div_mul_one_div, ← pow_add, div_eq_div_iff (by positivity) (by positivity), one_mul, ← pow_add]
    congr 1
    omega
  rw [hquot] at hle
  have hstep := mul_le_mul_of_nonneg_left hle (by positivity : (0 : ℝ) ≤ 250 + 45 * d)
  have hpos : (0 : ℝ) < 1 / 2 ^ (4 * d + 48) := by positivity
  have hdpos : 0 ≤ (d : ℝ) * (1 / 2 ^ (4 * d + 48)) := by positivity
  rw [div_eq_mul_one_div ((d : ℝ) + 3)]
  linarith

/-- The exponents that powers of `λ` below twelve times the reach have. -/
theorem exponent_le_of_pow_le (hd : 0 < d) {n : ℕ} (h : lambdaReal ^ n ≤ 12 * reach d) :
    (5 * n : ℝ) ≤ 80 + 16 * d := by
  have hreach := reach_bounds hd
  have hlam : (2 : ℝ) ^ 5 ≤ lambdaReal ^ 4 := by
    refine le_trans ?_ (pow_le_pow_left₀ (by norm_num) lambdaReal_bounds.1.le 4)
    norm_num
  have hup : lambdaReal ^ n ≤ 2 ^ (20 + 4 * d) := by
    have hsplit : (2 : ℝ) ^ (20 + 4 * d) = 16 * 2 ^ (16 + 4 * d) := by
      rw [pow_add, pow_add]
      norm_num
      ring
    rw [hsplit]
    linarith
  have hchain : (2 : ℝ) ^ (5 * n) ≤ 2 ^ (4 * (20 + 4 * d)) :=
    calc (2 : ℝ) ^ (5 * n) = (2 ^ 5) ^ n := pow_mul _ _ _
      _ ≤ (lambdaReal ^ 4) ^ n := pow_le_pow_left₀ (by norm_num) hlam n
      _ = (lambdaReal ^ n) ^ 4 := by rw [← pow_mul, ← pow_mul, mul_comm]
      _ ≤ (2 ^ (20 + 4 * d)) ^ 4 := pow_le_pow_left₀ (by have := lambdaReal_pos; positivity) hup 4
      _ = 2 ^ (4 * (20 + 4 * d)) := by rw [← pow_mul, mul_comm]
  have hnat : 5 * n ≤ 4 * (20 + 4 * d) := (pow_le_pow_iff_right₀ (by norm_num)).1 hchain
  have hreal : (5 * n : ℝ) ≤ 4 * (20 + 4 * d) := by exact_mod_cast hnat
  linarith

end Room

namespace GridPoints

variable {d : ℕ}

/-! ## Powers -/

/-- The base of the second power. -/
theorem neg_lambda_within (hd : 0 < d) : 20 * d + 128 ≤ (-(Constants.ofDigits d).lambda).prec ∧
    Within ((5 : ℕ) * roundoff (20 * d + 128)) (-(Constants.ofDigits d).lambda).value (-lambdaReal) := by
  have hc := Constants.ofDigits_accurateScale hd
  rw [prec_neg, value_neg]
  exact ⟨hc.prec_lambda.ge, by exact_mod_cast hc.lambda.neg⟩

/-- The powers that a problem is scaled by, with an error in proportion to the exponent. -/
theorem realPow_lambda_within (hd : 0 < d) {k : ℤ}
    (hsmall : 192 * (k.natAbs * roundoff (20 * d + 128)) ≤ 1) :
    Within ((96 * k.natAbs + 4) * roundoff (20 * d + 128))
      (realPow (Constants.ofDigits d).lambdaInv k).value (lambdaReal⁻¹ ^ k) ∧
    Within ((96 * k.natAbs + 4) * roundoff (20 * d + 128))
      (realPow (-(Constants.ofDigits d).lambda) k).value ((-lambdaReal) ^ k) := by
  have hc := Constants.ofDigits_accurateScale hd
  have hu := roundoff_pos (20 * d + 128)
  have hnu : 0 ≤ k.natAbs * roundoff (20 * d + 128) := by positivity
  obtain ⟨hprec, hbase⟩ := neg_lambda_within hd
  constructor
  · refine (realPow_within (m := 10) hc.prec_lambdaInv.ge (inv_ne_zero lambdaReal_pos.ne')
      (by exact_mod_cast hc.lambdaInv) ?_).mono ?_
    · show 16 * _ * roundoff (20 * d + 128) ≤ 1
      push_cast
      linarith
    · show (8 * _ + 4) * roundoff (20 * d + 128) ≤ _
      push_cast
      linarith
  · refine (realPow_within (p := 20 * d + 128) (x := -(Constants.ofDigits d).lambda) hprec
      (neg_ne_zero.2 lambdaReal_pos.ne') hbase ?_).mono ?_
    · push_cast
      linarith
    · push_cast
      linarith

/-- The powers of an exponent within reach, with their errors. -/
structure IsPower (d : ℕ) (k : ℤ) : Prop where
  pow_le : lambdaReal ^ k.natAbs ≤ 12 * reach d
  fst : Within ((96 * k.natAbs + 4) * roundoff (20 * d + 128))
    (realPow (Constants.ofDigits d).lambdaInv k).value (lambdaReal⁻¹ ^ k)
  snd : Within ((96 * k.natAbs + 4) * roundoff (20 * d + 128))
    (realPow (-(Constants.ofDigits d).lambda) k).value ((-lambdaReal) ^ k)
  snd_of_nonneg : 0 ≤ k → Within (14 * k.natAbs * roundoff (20 * d + 128))
    (realPow (-(Constants.ofDigits d).lambda) k).value ((-lambdaReal) ^ k)
  error_le : (96 * k.natAbs + 10) * roundoff (20 * d + 128) ≤ 1854 * d * roundoff (20 * d + 128)
  natAbs_le : 14 * (k.natAbs : ℝ) + 26 ≤ 250 + 45 * d

theorem mul_roundoff_le_of_digits (hd : 0 < d) : 100000 * (d * roundoff (20 * d + 128)) ≤ 1 := by
  have hu := roundoff_pos (20 * d + 128)
  have hT := (Constants.ofDigits_accurateScale hd).tol_le
  have hM : 1 ≤ reach d ^ 3 := one_le_pow₀ (le_trans (by norm_num) (reach_bounds hd).1)
  have := mul_le_mul_of_nonneg_left hM (by positivity : 0 ≤ d * roundoff (20 * d + 128))
  linarith [cubic_lt_tol hd]

theorem isPower_of_pow_le (hd : 0 < d) {k : ℤ} (hpow : lambdaReal ^ k.natAbs ≤ 12 * reach d) :
    IsPower d k := by
  have hu := roundoff_pos (20 * d + 128)
  have hd1 : (1 : ℝ) ≤ d := by exact_mod_cast hd
  have hn := exponent_le_of_pow_le hd hpow
  have hdu := mul_roundoff_le_of_digits hd
  have hud : roundoff (20 * d + 128) ≤ d * roundoff (20 * d + 128) := le_mul_of_one_le_left hu.le hd1
  have hnu : 5 * (k.natAbs * roundoff (20 * d + 128))
      ≤ 80 * roundoff (20 * d + 128) + 16 * (d * roundoff (20 * d + 128)) := by
    have := mul_le_mul_of_nonneg_right hn hu.le
    linarith
  obtain ⟨hfst, hsnd⟩ := realPow_lambda_within hd (k := k) (by linarith)
  obtain ⟨hprec, hbase⟩ := neg_lambda_within hd
  refine ⟨hpow, hfst, hsnd, fun hk => ?_, by linarith, by linarith⟩
  refine (realPow_within_of_nonneg (p := 20 * d + 128) (x := -(Constants.ofDigits d).lambda) hprec hbase
    hk ?_).mono ?_
  · push_cast
    linarith
  · push_cast
    linarith

/-! ## Budgets -/

/-- The budget of an interval that is not much wider than the reach after it is scaled. -/
theorem slack_of_moderate {u M T q w e : ℝ} (hd : (1 : ℝ) ≤ d) (hu : 0 < u) (hM : 2 ^ 20 ≤ M)
    (hT : T ≤ 1) (hG : 100000 * (d * (u * M ^ 3)) < T) (hq : 0 < q) (hqM : q ≤ 12 * M) (he : 0 ≤ e)
    (hed : 4 * u + e ≤ 1854 * d * u) (hw : w * q ≤ 2 * M) :
    (4 * u * M + e * M) * q ≤ T / 2 ∧
      Interval.Slack ((4 * u * M + e * M) * q + 20 * u * (M * (12 * M))) ((w + 2 * (e * M)) * q) T := by
  have hM0 : 0 < M := lt_of_lt_of_le (by norm_num) hM
  have hquad : u * M ^ 2 ≤ d * (u * M ^ 2) := le_mul_of_one_le_left (by positivity) hd
  have hcubic : 2 ^ 20 * (d * (u * M ^ 2)) ≤ d * (u * M ^ 3) := by
    have := mul_le_mul_of_nonneg_left hM (by positivity : 0 ≤ d * (u * M ^ 2))
    linarith
  have hmain : (4 * u * M + e * M) * q ≤ 22248 * (d * (u * M ^ 2)) := by
    calc (4 * u * M + e * M) * q = (4 * u + e) * M * q := by ring
      _ ≤ 1854 * d * u * M * (12 * M) := by
          refine mul_le_mul (mul_le_mul_of_nonneg_right hed hM0.le) hqM hq.le ?_
          positivity
      _ = 22248 * (d * (u * M ^ 2)) := by ring
  have heq : e * M * q ≤ (4 * u * M + e * M) * q := by
    refine mul_le_mul_of_nonneg_right ?_ hq.le
    have := mul_pos hu hM0
    linarith
  have heq0 : 0 ≤ e * M * q := by positivity
  have hD0 : 0 ≤ u * (M * (12 * M)) := by positivity
  have hD : (4 * u * M + e * M) * q + 20 * u * (M * (12 * M)) ≤ 22500 * (d * (u * M ^ 2)) := by
    linarith
  have hD1 : 0 ≤ (4 * u * M + e * M) * q + 20 * u * (M * (12 * M)) := by linarith
  refine ⟨by linarith, ?_⟩
  have hwidth : (w + 2 * (e * M)) * q ≤ 2 * M + 1 := by
    linarith
  refine Interval.Slack.of_le hD1 hD hwidth (by linarith) ?_
  have hwide : 2 * M + 1 + 22500 * (d * (u * M ^ 2)) ≤ 21 / 10 * M := by linarith
  calc 2 * (22500 * (d * (u * M ^ 2)) * (2 * M + 1 + 22500 * (d * (u * M ^ 2))))
      ≤ 2 * (22500 * (d * (u * M ^ 2)) * (21 / 10 * M)) := by
        refine mul_le_mul_of_nonneg_left (mul_le_mul_of_nonneg_left hwide ?_) (by norm_num)
        linarith
    _ = 94500 * (d * (u * M ^ 3)) := by ring
    _ < T := by linarith

/-- The budget of an interval that is scaled up, and as wide as the power of `λ` makes it. -/
theorem slack_of_wide {u M T q w C : ℝ} {n : ℕ} (hu : 0 < u) (hM : 2 ^ 20 ≤ M) (hT : T ≤ 1)
    (hG : 577 * (C * (u * M ^ 4)) < T) (hn : 14 * (n : ℝ) + 26 ≤ C) (hq : 0 < q) (hqM : q ≤ 12 * M)
    (hw : w ≤ 2 * M) :
    (4 * u * M + (14 * n + 2) * u * M) * q ≤ T / 2 ∧
      Interval.Slack ((4 * u * M + (14 * n + 2) * u * M) * q + 20 * u * (M * (12 * M)))
        ((w + 2 * ((14 * n + 2) * u * M)) * q) T := by
  have hM1 : 1 ≤ M := le_trans (by norm_num) hM
  have hC : 0 < C := by linarith
  have hquart : C * (u * M ^ 2) ≤ C * (u * M ^ 4) := by
    refine mul_le_mul_of_nonneg_left (mul_le_mul_of_nonneg_left ?_ hu.le) hC.le
    exact pow_le_pow_right₀ hM1 (by norm_num)
  have hlin : C * (u * M) ≤ C * (u * M ^ 4) := by
    refine mul_le_mul_of_nonneg_left (mul_le_mul_of_nonneg_left ?_ hu.le) hC.le
    exact le_self_pow₀ hM1 (by norm_num)
  have hfirst : (4 * u * M + (14 * n + 2) * u * M) * q ≤ (14 * n + 6) * u * M * (12 * M) := by
    have hsplit : (4 * u * M + (14 * n + 2) * u * M) * q = (14 * n + 6) * u * M * q := by ring
    rw [hsplit]
    exact mul_le_mul_of_nonneg_left hqM (by positivity)
  have hD : (4 * u * M + (14 * n + 2) * u * M) * q + 20 * u * (M * (12 * M)) ≤ 12 * (C * (u * M ^ 2)) := by
    have hA : (14 * n + 26) * (u * M ^ 2) ≤ C * (u * M ^ 2) :=
      mul_le_mul_of_nonneg_right hn (by positivity)
    linarith
  have hD0 : 0 ≤ (4 * u * M + (14 * n + 2) * u * M) * q := by positivity
  have hM0 : 0 ≤ 20 * u * (M * (12 * M)) := by positivity
  refine ⟨by linarith, ?_⟩
  have herr : 2 * ((14 * n + 2) * u * M) ≤ 1 := by
    have hle : (14 * (n : ℝ) + 2) * (u * M) ≤ C * (u * M) :=
      mul_le_mul_of_nonneg_right (by linarith) (by positivity)
    linarith
  have hwidth : (w + 2 * ((14 * n + 2) * u * M)) * q ≤ (2 * M + 1) * (12 * M) :=
    mul_le_mul (by linarith) hqM hq.le (by linarith)
  refine Interval.Slack.of_le (add_nonneg hD0 hM0) hD hwidth (by positivity) ?_
  have hwide : (2 * M + 1) * (12 * M) + 12 * (C * (u * M ^ 2)) ≤ 24.02 * M ^ 2 := by
    have hM2 := mul_le_mul_of_nonneg_right hM (by linarith : 0 ≤ M)
    linarith
  calc 2 * (12 * (C * (u * M ^ 2)) * ((2 * M + 1) * (12 * M) + 12 * (C * (u * M ^ 2))))
      ≤ 2 * (12 * (C * (u * M ^ 2)) * (24.02 * M ^ 2)) := by
        refine mul_le_mul_of_nonneg_left (mul_le_mul_of_nonneg_left hwide ?_) (by norm_num)
        positivity
    _ = 576.48 * (C * (u * M ^ 4)) := by ring
    _ ≤ 577 * (C * (u * M ^ 4)) := by linarith
    _ < T := hG

end GridPoints

end CliffordT
