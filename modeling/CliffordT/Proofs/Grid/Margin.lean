/-
The grid problem on the line, for numbers with a margin.

A number that is well inside of an interval is not lost to rounding, however wide the interval is: the test
of membership looks at the sign of a product, and a margin keeps the sign. So the ends may be larger here
than for numbers on the rim, up to where the rounding errors of the scaled ends use the margin up. The margin
is three quarters of the accuracy, which is what widening an interval by the accuracy gives.
-/
import CliffordT.Proofs.Grid.LineCompleteness
import CliffordT.Proofs.Grid.Points

namespace CliffordT

open BinFloat

/-! ## Room below the margin -/

/-- A bound of the ends of the intervals, with some room for the step of `1/√2`. -/
noncomputable def farReach (d : ℕ) : ℝ := 2 ^ (5 * d + 32) + 2

section Room

variable {d : ℕ}

theorem farReach_bounds (hd : 0 < d) :
    2 ^ 37 ≤ farReach d ∧ farReach d ≤ (1 + 1 / 2 ^ 30) * 2 ^ (5 * d + 32) := by
  have hpow : (2 : ℝ) ^ 37 ≤ 2 ^ (5 * d + 32) := pow_le_pow_right₀ (by norm_num) (by omega)
  unfold farReach
  constructor
  · linarith
  · linarith

theorem ten_pow_le_two_pow (d : ℕ) : (10 : ℝ) ^ d ≤ 2 ^ (4 * d) := by
  rw [pow_mul]
  exact pow_le_pow_left₀ (by norm_num) (by norm_num) d

/-- The accuracy is below the reach by far, and so are the digits. -/
theorem digits_le_farReach (hd : 0 < d) : (10 : ℝ) ^ d ≤ farReach d / 2 ^ 33 ∧ (d : ℝ) ≤ farReach d / 2 ^ 33 := by
  have hsplit : (2 : ℝ) ^ (5 * d + 32) = 2 ^ 33 * 2 ^ (5 * d - 1) := by
    rw [← pow_add]
    congr 1
    omega
  have hle : 2 ^ (5 * d - 1) ≤ farReach d / 2 ^ 33 := by
    unfold farReach
    rw [le_div_iff₀ (by norm_num)]
    linarith
  have hten : (10 : ℝ) ^ d ≤ 2 ^ (5 * d - 1) :=
    (ten_pow_le_two_pow d).trans (pow_le_pow_right₀ (by norm_num) (by omega))
  have hself : (d : ℝ) ≤ 10 ^ d := by exact_mod_cast (Nat.lt_pow_self (by norm_num)).le
  exact ⟨hten.trans hle, hself.trans (hten.trans hle)⟩

/-- What grows with the third power of the reach is below the accuracy. -/
theorem farReach_cubic_le (hd : 0 < d) :
    2 ^ 14 * (roundoff (20 * d + 128) * farReach d ^ 3) ≤ 1 / 10 ^ d := by
  have hreach := farReach_bounds hd
  have hcube : farReach d ^ 3 ≤ 2 * 2 ^ (3 * (5 * d + 32)) := by
    refine (pow_le_pow_left₀ (by linarith) hreach.2 3).trans ?_
    rw [mul_pow, mul_comm 3, pow_mul]
    exact mul_le_mul_of_nonneg_right (by norm_num) (by positivity)
  have hquot : 2 ^ 15 * (2 : ℝ) ^ (3 * (5 * d + 32)) / 2 ^ (20 * d + 128) ≤ 1 / 2 ^ (4 * d) := by
    rw [← pow_add, div_le_div_iff₀ (by positivity) (by positivity), one_mul, ← pow_add]
    exact pow_le_pow_right₀ (by norm_num) (by omega)
  have hten : (1 : ℝ) / 2 ^ (4 * d) ≤ 1 / 10 ^ d :=
    one_div_le_one_div_of_le (by positivity) (ten_pow_le_two_pow d)
  have hmul := mul_le_mul_of_nonneg_left hcube (roundoff_pos (20 * d + 128)).le
  refine le_trans ?_ (hquot.trans hten)
  have hscale : 2 ^ 15 * (2 : ℝ) ^ (3 * (5 * d + 32)) / 2 ^ (20 * d + 128)
      = 2 ^ 14 * (roundoff (20 * d + 128) * (2 * 2 ^ (3 * (5 * d + 32)))) := by
    rw [roundoff_eq]
    ring
  rw [hscale]
  exact mul_le_mul_of_nonneg_left hmul (by norm_num)

/-- What grows with its second power is below the tolerance. -/
theorem farReach_quadratic_le (hd : 0 < d) :
    3072 * (roundoff (20 * d + 128) * farReach d ^ 2) ≤ (Constants.ofDigits d).tol.value := by
  have hreach := farReach_bounds hd
  have hsq : farReach d ^ 2 ≤ 4 / 3 * 2 ^ (2 * (5 * d + 32)) := by
    refine (pow_le_pow_left₀ (by linarith) hreach.2 2).trans ?_
    rw [mul_pow, mul_comm 2, pow_mul]
    exact mul_le_mul_of_nonneg_right (by norm_num) (by positivity)
  have hquot : 2 ^ 12 * (2 : ℝ) ^ (2 * (5 * d + 32)) / 2 ^ (20 * d + 128) ≤ 1 / 2 ^ (4 * d + 48) := by
    rw [← pow_add, div_le_div_iff₀ (by positivity) (by positivity), one_mul, ← pow_add]
    exact pow_le_pow_right₀ (by norm_num) (by omega)
  have htol : (1 : ℝ) / 2 ^ (4 * d + 48) ≤ (Constants.ofDigits d).tol.value := by
    refine le_trans ?_ (Constants.le_tol_of_digits hd)
    exact div_le_div_of_nonneg_right (by linarith [(Nat.cast_nonneg d : (0 : ℝ) ≤ d)]) (by positivity)
  have hmul := mul_le_mul_of_nonneg_left hsq (roundoff_pos (20 * d + 128)).le
  refine le_trans ?_ (hquot.trans htol)
  have hscale : 2 ^ 12 * (2 : ℝ) ^ (2 * (5 * d + 32)) / 2 ^ (20 * d + 128)
      = 3072 * (roundoff (20 * d + 128) * (4 / 3 * 2 ^ (2 * (5 * d + 32)))) := by
    rw [roundoff_eq]
    ring
  rw [hscale]
  exact mul_le_mul_of_nonneg_left hmul (by norm_num)

/-- The exponents that powers of `λ` below twelve times the reach have. -/
theorem natAbs_le_of_pow_le_farReach (hd : 0 < d) {n : ℕ} (h : lambdaReal ^ n ≤ 12 * farReach d) :
    n ≤ 5 * d + 36 := by
  have hreach := farReach_bounds hd
  have hpow : (2 : ℝ) ^ n ≤ 2 ^ (5 * d + 36) := by
    refine (pow_le_pow_left₀ (by norm_num) (by linarith [lambdaReal_bounds.1]) n).trans (h.trans ?_)
    have hsplit : (2 : ℝ) ^ (5 * d + 36) = 16 * 2 ^ (5 * d + 32) := by
      rw [pow_add, pow_add]
      norm_num
      ring
    rw [hsplit]
    linarith
  exact (pow_le_pow_iff_right₀ (by norm_num)).1 hpow

end Room

namespace GridPoints

open ZSqrt2 (real)

variable {d : ℕ} {i a b : Interval} {y : ℝ} {k : ℤ}

/-- The number is in the interval, with a margin of three quarters of the accuracy. -/
def IsInside (d : ℕ) (i : Interval) (y : ℝ) : Prop :=
  i.Near (20 * d + 128) (farReach d) (-(3 / 4 * (1 / 10 ^ d))) y

/-- The interval has twice the margin for its width. -/
theorem IsInside.le_realWidth (h : IsInside d i y) : 3 / 2 * (1 / 10 ^ d) ≤ i.realWidth := by
  have := h.lo_le
  have := h.le_hi
  unfold Interval.realWidth
  linarith

/-- What the exponents are given for. -/
theorem IsInside.width_bounds (h : IsInside d i y) (hd : 0 < d) :
    1 / 10 ^ d ≤ i.width.value ∧ i.width.value ≤ 2.002 * farReach d := by
  have hu1 := Constants.roundoff_le_of_digits d
  have hreach := farReach_bounds hd
  have hten : (0 : ℝ) < 1 / 10 ^ d := by positivity
  have hle := h.le_realWidth
  have hle' := Interval.Near.realWidth_le h
  have hwidth := (Interval.Near.width_within h).sub_le
  rw [abs_of_nonneg (by linarith : 0 ≤ i.realWidth)] at hwidth
  have hsmall : 2 * roundoff (20 * d + 128) * i.realWidth ≤ 1 / 1000 * i.realWidth :=
    mul_le_mul_of_nonneg_right (by linarith) (by linarith)
  obtain ⟨h1, h2⟩ := abs_le.1 hwidth
  constructor
  · linarith
  · linarith

/-- The power of `λ` that brings its width to about one is bounded by the reach. -/
theorem IsInside.pow_le (h : IsInside d i y) (hd : 0 < d)
    (hscale : lambdaReal ^ (-2 : ℤ) ≤ lambdaReal ^ (-k) * i.width.value)
    (hscale' : lambdaReal ^ (-k) * i.width.value ≤ lambdaReal) :
    lambdaReal ^ k.natAbs ≤ 12 * farReach d := by
  have hten : (0 : ℝ) < 1 / 10 ^ d := by positivity
  obtain ⟨hlow, hhigh⟩ := h.width_bounds hd
  refine pow_natAbs_le_of_scaled (hten.trans_le hlow) (by linarith) ?_ hscale hscale'
  have hmul := mul_le_mul_of_nonneg_left hlow (by linarith : 0 ≤ 12 * farReach d)
  have hbig : 12 ≤ 12 * farReach d * (1 / 10 ^ d) := by
    rw [mul_one_div, le_div_iff₀ (by positivity)]
    linarith [(digits_le_farReach hd).1]
  linarith [lambdaReal_bounds.2]

/-- What a power of `λ` takes of the margin: its errors and those of the ends, when it is within reach. -/
theorem margin_room (hd : 0 < d) {n : ℕ} (hpow : lambdaReal ^ n ≤ 12 * farReach d) :
    (96 * n + 6) * roundoff (20 * d + 128) ≤ 1 / 4 ∧
      (96 * n + 6) * roundoff (20 * d + 128) * farReach d ≤ 1 / 4 * (1 / 10 ^ d) := by
  have hu := roundoff_pos (20 * d + 128)
  obtain ⟨hreach, -⟩ := farReach_bounds hd
  have hM : 0 < farReach d := by linarith
  have hn : (n : ℝ) ≤ 5 * d + 36 := by exact_mod_cast natAbs_le_of_pow_le_farReach hd hpow
  have hten1 : (1 : ℝ) / 10 ^ d ≤ 1 := (div_le_one (by positivity)).2 (one_le_pow₀ (by norm_num))
  have hlin : 96 * (n : ℝ) + 6 ≤ farReach d := by
    obtain ⟨-, hdM⟩ := digits_le_farReach hd
    rw [le_div_iff₀ (by norm_num)] at hdM
    linarith
  have herror : (96 * (n : ℝ) + 6) * roundoff (20 * d + 128) * farReach d ≤ 1 / 4 * (1 / 10 ^ d) := by
    have hsq : farReach d ^ 2 ≤ farReach d ^ 3 := pow_le_pow_right₀ (by linarith) (by norm_num)
    have hcubic := farReach_cubic_le hd
    have hten : (0 : ℝ) < 1 / 10 ^ d := by positivity
    calc (96 * (n : ℝ) + 6) * roundoff (20 * d + 128) * farReach d
        ≤ farReach d * roundoff (20 * d + 128) * farReach d :=
          mul_le_mul_of_nonneg_right (mul_le_mul_of_nonneg_right hlin hu.le) hM.le
      _ = roundoff (20 * d + 128) * farReach d ^ 2 := by ring
      _ ≤ roundoff (20 * d + 128) * farReach d ^ 3 := mul_le_mul_of_nonneg_left hsq hu.le
      _ ≤ 1 / 4 * (1 / 10 ^ d) := by linarith
  refine ⟨?_, herror⟩
  have hle : (96 * (n : ℝ) + 6) * roundoff (20 * d + 128)
      ≤ (96 * (n : ℝ) + 6) * roundoff (20 * d + 128) * farReach d :=
    le_mul_of_one_le_right (by positivity) (by linarith)
  linarith

/-- Half of the margin, scaled by a power within reach, is more than what rounding takes. -/
theorem margin_scaled_neg (hd : 0 < d) {e q : ℝ} (he : e ≤ 1 / 4 * (1 / 10 ^ d))
    (hq : 1 ≤ q * (12 * farReach d)) :
    (-(3 / 4 * (1 / 10 ^ d)) + e) * q
      + 20 * roundoff (20 * d + 128) * (farReach d * (12 * farReach d)) < 0 := by
  have hu := roundoff_pos (20 * d + 128)
  have hM : 0 < farReach d := lt_of_lt_of_le (by norm_num) (farReach_bounds hd).1
  have hten : (0 : ℝ) < 1 / 10 ^ d := by positivity
  have hq0 : 0 < q := pos_of_mul_pos_left (by linarith) (by linarith : 0 ≤ 12 * farReach d)
  have hbig : 240 * (roundoff (20 * d + 128) * farReach d ^ 2)
      ≤ 2880 * (roundoff (20 * d + 128) * farReach d ^ 3) * q := by
    have hmul := mul_le_mul_of_nonneg_left hq
      (by positivity : 0 ≤ 240 * (roundoff (20 * d + 128) * farReach d ^ 2))
    calc 240 * (roundoff (20 * d + 128) * farReach d ^ 2)
        = 240 * (roundoff (20 * d + 128) * farReach d ^ 2) * 1 := (mul_one _).symm
      _ ≤ 240 * (roundoff (20 * d + 128) * farReach d ^ 2) * (q * (12 * farReach d)) := hmul
      _ = 2880 * (roundoff (20 * d + 128) * farReach d ^ 3) * q := by ring
  have hhalf := mul_le_mul_of_nonneg_right he hq0.le
  have hpart := mul_le_mul_of_nonneg_right (farReach_cubic_le hd) hq0.le
  have hpos : 0 < 1 / 10 ^ d * q := mul_pos hten hq0
  have hring : 20 * roundoff (20 * d + 128) * (farReach d * (12 * farReach d))
      = 240 * (roundoff (20 * d + 128) * farReach d ^ 2) := by ring
  rw [hring]
  linarith

/-- **One exponent suits both intervals**, as the rounding errors leave some of the margin. -/
theorem IsInside.scalable (ha : IsInside d a y) (hd : 0 < d)
    (hscale : lambdaReal ^ (-2 : ℤ) ≤ lambdaReal ^ (-k) * a.width.value)
    (hscale' : lambdaReal ^ (-k) * a.width.value ≤ lambdaReal) :
    Scalable (Constants.ofDigits d) a b (farReach d) (-(3 / 4 * (1 / 10 ^ d)))
      (-(3 / 4 * (1 / 10 ^ d))) (12 * farReach d) k
      ((96 * k.natAbs + 4) * roundoff (20 * d + 128)) ((96 * k.natAbs + 4) * roundoff (20 * d + 128)) := by
  have hu := roundoff_pos (20 * d + 128)
  have hM : 0 < farReach d := lt_of_lt_of_le (by norm_num) (farReach_bounds hd).1
  have htol0 := (Constants.ofDigits_accurateScale hd).tol_pos
  have hpow := ha.pow_le hd hscale hscale'
  obtain ⟨hsmall, herror⟩ := margin_room hd hpow
  obtain ⟨hfst, hsnd⟩ := realPow_lambda_within hd (k := k) (by linarith)
  have hsum : (96 * (k.natAbs : ℝ) + 4) * roundoff (20 * d + 128) + 2 * roundoff (20 * d + 128)
      = (96 * k.natAbs + 6) * roundoff (20 * d + 128) := by ring
  have hprec : (Constants.ofDigits d).prec = 20 * d + 128 := rfl
  have hpowers : 1 ≤ lambdaReal ^ k * (12 * farReach d) ∧ 1 ≤ lambdaReal ^ (-k) * (12 * farReach d) := by
    obtain ⟨hk, hk'⟩ := lambdaReal_zpow_le hpow
    have hinv : lambdaReal ^ k * lambdaReal ^ (-k) = 1 := by
      rw [← zpow_add₀ lambdaReal_pos.ne', add_neg_cancel, zpow_zero]
    constructor
    · rw [← hinv]
      exact mul_le_mul_of_nonneg_left hk' (zpow_pos lambdaReal_pos k).le
    · rw [← hinv, mul_comm]
      exact mul_le_mul_of_nonneg_left hk (zpow_pos lambdaReal_pos (-k)).le
  have hroom {q : ℝ} (hq : 1 ≤ q * (12 * farReach d)) := margin_scaled_neg hd herror hq
  have hroom0 : 0 ≤ 20 * roundoff (20 * d + 128) * (farReach d * (12 * farReach d)) := by positivity
  refine ⟨hpow, hfst, hsnd, ?_, ?_, ?_, ?_, ?_, .inl ?_, .inl ?_⟩
  all_goals rw [hprec]
  · linarith
  · linarith
  · exact (le_of_eq (by ring)).trans (farReach_quadratic_le hd)
  · rw [hsum]
    linarith [hroom hpowers.2]
  · rw [hsum]
    linarith [hroom hpowers.1]
  · rw [hsum]
    exact hroom hpowers.2
  · rw [hsum]
    exact hroom hpowers.1

section Search

variable {exponent : BinFloat → Int} {x : ZSqrt2}

/-- **Completeness of the scaled search**, with a margin. -/
theorem mem_onLineScaledBy_of_inside (hd : 0 < d)
    (hexp : Scales exponent (1 / 10 ^ d) (2 ^ (5 * d + 34))) (ha : IsInside d a (real x))
    (hb : IsInside d b (real x.dot)) : x ∈ onLineScaledBy exponent a b (Constants.ofDigits d) := by
  obtain ⟨hlow, hhigh⟩ := ha.width_bounds hd
  have hreach := farReach_bounds hd
  have hhigh' : (2.002 : ℝ) * farReach d ≤ 2 ^ (5 * d + 34) := by
    have hsplit : (2 : ℝ) ^ (5 * d + 34) = 4 * 2 ^ (5 * d + 32) := by
      rw [pow_add, pow_add]
      norm_num
      ring
    rw [hsplit]
    linarith
  obtain ⟨hscale, hscale'⟩ := hexp a.width hlow (hhigh.trans hhigh')
  have hten : (0 : ℝ) < 1 / 10 ^ d := by positivity
  have hM : 1 ≤ farReach d := by linarith
  exact (ha.scalable hd hscale hscale').mem_onLineScaledBy (Constants.ofDigits_accurateScale hd)
    (hten.trans_le hlow) ha hb hM (by linarith) (by linarith)

/-- **Completeness of the balanced search**, with a margin. -/
theorem mem_onLineBalancedBy_of_inside (hd : 0 < d)
    (hexp : Scales exponent (1 / 10 ^ d) (2 ^ (5 * d + 34))) (ha : IsInside d a (real x))
    (hb : IsInside d b (real x.dot)) : x ∈ onLineBalancedBy exponent a b (Constants.ofDigits d) := by
  refine mem_onLineBalancedBy (fun _ => ?_) fun _ => ?_
  · exact mem_onLineScaledBy_of_inside hd hexp ha hb
  · exact mem_onLineScaledBy_of_inside hd hexp hb (by rwa [ZSqrt2.dot_dot])

end Search

/-! ## In the plane -/

section Moved

variable {σ : ℝ} {s : BinFloat}

/-- An interval before it is moved: the number is in it with a little more of a margin. -/
def IsWellInside (d : ℕ) (i : Interval) (y : ℝ) : Prop :=
  i.Near (20 * d + 128) (2 ^ (5 * d + 32)) (-(7 / 8 * (1 / 10 ^ d))) y

theorem IsWellInside.isInside (h : IsWellInside d i y) : IsInside d i y := by
  have hten : (0 : ℝ) < 1 / 10 ^ d := by positivity
  refine Interval.Near.mono h ?_ (by linarith)
  unfold farReach
  linarith

/-- The interval moved. -/
theorem IsWellInside.add (h : IsWellInside d i y) (hd : 0 < d) (hσ : |σ| ≤ 1)
    (hs : Within (12 * roundoff (20 * d + 128)) s.value σ) : IsInside d (i.add s) (y + σ) := by
  have hu := roundoff_pos (20 * d + 128)
  have hp : 20 ≤ 20 * d + 128 := by omega
  have hten : (0 : ℝ) < 1 / 10 ^ d := by positivity
  have hten1 : (1 : ℝ) / 10 ^ d ≤ 1 := (div_le_one (by positivity)).2 (one_le_pow₀ (by norm_num))
  have hM : (2 : ℝ) ^ 37 ≤ 2 ^ (5 * d + 32) := pow_le_pow_right₀ (by norm_num) (by omega)
  have hsmall : 4 * roundoff (20 * d + 128) * 2 ^ (5 * d + 32) ≤ 1 / 8 * (1 / 10 ^ d) := by
    have hle : (2 : ℝ) ^ (5 * d + 32) ≤ farReach d ^ 3 := by
      have hreach := (farReach_bounds hd).1
      refine le_trans ?_ (le_self_pow₀ (by linarith) (by norm_num))
      unfold farReach
      linarith
    have hmul := mul_le_mul_of_nonneg_left hle hu.le
    linarith [farReach_cubic_le hd]
  have hlo := abs_le.1 (Interval.Near.abs_add_sub_le hp h.prec_lo h.abs_lo_le (by linarith) hσ hs)
  have hhi := abs_le.1 (Interval.Near.abs_add_sub_le hp h.prec_hi h.abs_hi_le (by linarith) hσ hs)
  have hord : (i.add s).lo.value ≤ (i.add s).hi.value := by
    show (i.lo + s).value ≤ (i.hi + s).value
    linarith [hlo.2, hhi.1, h.lo_le, h.le_hi]
  exact (Interval.Near.add h hp (by linarith) (by linarith) hσ hs hord).mono le_rfl (by linarith)

end Moved

/-- **Completeness in the plane, with a margin**: a point that is well inside of the first rectangle, with its
conjugate well inside of the second, is found, and is listed once. -/
theorem count_inRectanglesBy_of_inside {exponent : BinFloat → Int} {a b : Rectangle} {u : ZOmega}
    (hd : 0 < d) (hexp : Scales exponent (1 / 10 ^ d) (2 ^ (5 * d + 34)))
    (hre : IsWellInside d a.x (ZOmega.toComplex u).re) (him : IsWellInside d a.y (ZOmega.toComplex u).im)
    (hre' : IsWellInside d b.x (ZOmega.toComplex u.dot).re)
    (him' : IsWellInside d b.y (ZOmega.toComplex u.dot).im) :
    (inRectanglesBy exponent a b (Constants.ofDigits d)).count u = 1 := by
  have hmoved (i : Interval) (y : ℝ) (w : Bool) := moved_of_add (P := IsWellInside d) (Q := IsInside d)
    (i := i) (y := y) (fun _ h => h.isInside) (fun _ _ _ h hσ hs => h.add hd hσ hs) w
  rw [ZOmega.re_eq_alpha] at hre
  rw [ZOmega.im_eq_beta] at him
  rw [ZOmega.re_dot_eq_alpha] at hre'
  rw [ZOmega.im_dot_eq_beta] at him'
  refine count_inRectanglesBy (mem_inRectanglesWith ?_ ?_)
  · exact mem_onLineBalancedBy_of_inside hd hexp ((hmoved _ _ _).1 hre) ((hmoved _ _ _).2 hre')
  · exact mem_onLineBalancedBy_of_inside hd hexp ((hmoved _ _ _).1 him) ((hmoved _ _ _).2 him')

end GridPoints

end CliffordT
