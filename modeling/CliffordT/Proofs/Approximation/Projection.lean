/-
The test of a grid point, in exact terms.

A point `z` is tested at the exponent `k` by its projection `(Re z cos θ + Im z sin θ) / √2ᵏ`, which
has to exceed `1 - ε²/2`. Everything in it is rounded: sine and cosine, the embedding, the scale and
the bound. For a point whose absolute value and conjugate are at most `√2ᵏ` the computed projection is
within `480 · 2⁻ᵖ` of the true one, so that a point that passes has a true projection above the bound,
up to that much.
-/
import CliffordT.Approximation.Search
import CliffordT.Proofs.BinFloat.Trigonometry
import CliffordT.Proofs.Ring.Embedding

namespace CliffordT.Approximation

open BinFloat

variable {c : Constants} {k : Nat}

/-! ## The scale -/

theorem sqrt_two_pow_mul_two (n : Nat) : √2 ^ (2 * n) = (2 : ℝ) ^ n := by
  rw [pow_mul, Real.sq_sqrt (by norm_num)]

theorem prec_levelScales (hc : c.Accurate) (k : Nat) : (levelScales k c).1.prec = c.prec := by
  unfold levelScales
  dsimp only
  split
  · rfl
  · simp [hc.prec_sqrt2]

theorem prec_levelScales_dot (hc : c.Accurate) (k : Nat) : (levelScales k c).2.prec = c.prec := by
  have h := prec_levelScales hc k
  unfold levelScales at h ⊢
  dsimp only at h ⊢
  split
  · rfl
  · rename_i hodd
    rwa [if_neg hodd] at h

/-- The scale is a power of two, or one times `√2`. -/
theorem levelScales_within (hc : c.Accurate) (k : Nat) :
    Within (6 * roundoff c.prec) (levelScales k c).1.value (√2 ^ k) := by
  have hη := roundoff_pos c.prec
  have hη' : roundoff c.prec ≤ 1 / 2 ^ 148 := (roundoff_anti hc.prec_ge).trans (roundoff_eq 148).le
  have hk := Nat.div_add_mod k 2
  have hpow : √2 ^ k = (2 : ℝ) ^ (k / 2) * √2 ^ (k % 2) := by
    rw [← sqrt_two_pow_mul_two, ← pow_add, hk]
  unfold levelScales
  dsimp only
  split
  · rename_i heven
    rw [hpow, heven, pow_zero, mul_one, value_twoPow, zpow_natCast]
    exact .refl (by linarith) _
  · rename_i hodd
    have hodd : k % 2 = 1 := by omega
    rw [hpow, hodd, pow_one]
    have hexact := (Within.refl (le_refl 0) ((2 : ℝ) ^ (k / 2))).mul (by norm_num) hc.sqrt2
    have hround := value_mul_within (x := twoPow (k / 2 : Nat) c.prec) (y := c.sqrt2) (p := c.prec)
      (le_max_left _ _)
    rw [value_twoPow, zpow_natCast] at hround
    exact (hround.trans hη.le (by linarith) hexact).mono (by linarith)

/-- The scale of the conjugates has the sign of the odd powers. -/
theorem levelScales_dot_within (hc : c.Accurate) (k : Nat) :
    Within (6 * roundoff c.prec) (levelScales k c).2.value ((-√2) ^ k) := by
  have h := levelScales_within hc k
  unfold levelScales at h ⊢
  dsimp only at h ⊢
  split
  · rename_i heven
    rw [if_pos heven] at h
    rwa [(Nat.even_iff.2 heven).neg_pow]
  · rename_i hodd
    rw [if_neg hodd] at h
    rw [(Nat.not_even_iff_odd.1 (mt Nat.even_iff.1 hodd)).neg_pow, value_neg]
    exact h.neg

/-! ## The bound -/

structure Target.Accurate (target : Target) (c : Constants) : Prop where
  cos : |target.cos.value - Real.cos target.theta.value| ≤ 200 * roundoff c.prec
  sin : |target.sin.value - Real.sin target.theta.value| ≤ 200 * roundoff c.prec
  prec_cos : c.prec ≤ target.cos.prec
  prec_sin : c.prec ≤ target.sin.prec
  threshold : 1 - c.eps.value ^ 2 / 2 - 3 * roundoff c.prec ≤ target.threshold.value

/-- The bound is computed from the square of the accuracy. -/
theorem threshold_ge (hc : c.Accurate) :
    1 - c.eps.value ^ 2 / 2 - 3 * roundoff c.prec
      ≤ (c.one - (c.eps * c.eps).scaleTwo (-1)).value := by
  have hη := roundoff_pos c.prec
  have hη' : roundoff c.prec ≤ 1 / 2 ^ 148 := (roundoff_anti hc.prec_ge).trans (roundoff_eq 148).le
  have hsq := (value_mul_within (x := c.eps) (y := c.eps) (p := c.prec)
    (hc.prec_eps.symm ▸ le_max_left _ _)).sub_le
  rw [← sq, abs_of_nonneg (sq_nonneg c.eps.value)] at hsq
  have hsq1 : c.eps.value ^ 2 ≤ 1 := pow_le_one₀ hc.eps_nonneg hc.eps_le_one
  have hsq' := abs_le.1 (hsq.trans (mul_le_of_le_one_right hη.le hsq1))
  have hhalf : ((c.eps * c.eps).scaleTwo (-1)).value = (c.eps * c.eps).value / 2 := by
    rw [value_scaleTwo, zpow_neg_one, div_eq_mul_inv]
  have hround := value_sub_within (x := c.one) (y := (c.eps * c.eps).scaleTwo (-1)) (p := c.prec)
    (le_max_left _ _)
  have hone : c.one.value = 1 := value_one _
  rw [hone, hhalf] at hround
  have hle : |1 - (c.eps * c.eps).value / 2| ≤ 5 / 4 := by
    refine abs_le.2 ⟨?_, ?_⟩
    · linarith [hsq'.2]
    · linarith [hsq'.1, sq_nonneg c.eps.value]
  have hround' := abs_le.1 (hround.sub_le.trans (mul_le_mul_of_nonneg_left hle (by linarith)))
  linarith [hround'.1, hsq'.2]

/-! ## The projection -/

/-- One product of the projection, with its rounding. -/
theorem abs_product_sub_le {u S a a' γ γ' r : ℝ} (hu : 0 < u) (hu' : u ≤ 1 / 2 ^ 148)
    (ha : |a| ≤ S) (hγ : |γ| ≤ 1) (ha' : |a' - a| ≤ 20 * u * S) (hγ' : |γ' - γ| ≤ 200 * u)
    (hr : Within u r (a' * γ')) : |r - a * γ| ≤ 224 * u * S := by
  have hS : 0 ≤ S := (abs_nonneg a).trans ha
  have hγ'' : |γ'| ≤ 11 / 10 := by linarith [abs_sub_abs_le_abs_sub γ' γ]
  have hexact : |a' * γ' - a * γ| ≤ 222 * u * S := by
    have hsplit : a' * γ' - a * γ = (a' - a) * γ' + a * (γ' - γ) := by ring
    rw [hsplit]
    refine (abs_add_le _ _).trans ?_
    rw [abs_mul, abs_mul]
    calc |a' - a| * |γ'| + |a| * |γ' - γ| ≤ 20 * u * S * (11 / 10) + S * (200 * u) :=
          add_le_add (mul_le_mul ha' hγ'' (abs_nonneg _) (by positivity))
            (mul_le_mul ha hγ' (abs_nonneg _) hS)
      _ = 222 * u * S := by ring
  have hprod : |a' * γ'| ≤ S + 222 * u * S := by
    have hle : |a * γ| ≤ S := by
      rw [abs_mul]
      exact (mul_le_of_le_one_right (abs_nonneg a) hγ).trans ha
    linarith [abs_sub_abs_le_abs_sub (a' * γ') (a * γ)]
  calc |r - a * γ| ≤ |r - a' * γ'| + |a' * γ' - a * γ| := abs_sub_le _ _ _
    _ ≤ u * (S + 222 * u * S) + 222 * u * S :=
        add_le_add (hr.sub_le.trans (mul_le_mul_of_nonneg_left hprod hu.le)) hexact
    _ = (223 + 222 * u) * (u * S) := by ring
    _ ≤ 224 * (u * S) := mul_le_mul_of_nonneg_right (by linarith) (by positivity)
    _ = 224 * u * S := by ring

/-- The division by the scale, with its rounding. -/
theorem abs_quotient_sub_le {u S A V s r : ℝ} (hu : 0 < u) (hu' : u ≤ 1 / 2 ^ 148) (hS : 0 < S)
    (hV : |V| ≤ S) (hA : |A - V| ≤ 451 * u * S) (hs : Within (6 * u) s S)
    (hr : Within (2 * u) r (A / s)) : |r - V / S| ≤ 480 * u := by
  have hVS : |V / S| ≤ 1 := by
    rw [abs_div, abs_of_pos hS]
    exact div_le_one_of_le₀ hV hS.le
  have hAV : |A / S - V / S| ≤ 451 * u := by
    rw [← sub_div, abs_div, abs_of_pos hS]
    exact div_le_of_le_mul₀ hS.le (by linarith) hA
  have hAS : |A / S| ≤ 101 / 100 := by linarith [abs_sub_abs_le_abs_sub (A / S) (V / S)]
  have hscale := ((Within.refl (le_refl 0) A).div (by linarith) (by linarith) (by norm_num)
    hs).sub_le
  have hscale' : |A / s - A / S| ≤ 25 * u := by
    refine hscale.trans ((mul_le_mul_of_nonneg_left hAS (by linarith)).trans ?_)
    linarith
  have hAs : |A / s| ≤ 102 / 100 := by linarith [abs_sub_abs_le_abs_sub (A / s) (A / S)]
  have hround : |r - A / s| ≤ 3 * u := by
    refine hr.sub_le.trans ((mul_le_mul_of_nonneg_left hAs (by linarith)).trans ?_)
    linarith
  linarith [abs_sub_le r (A / s) (V / S), abs_sub_le (A / s) (A / S) (V / S)]

/-- The true projection of an element on the direction `θ`, at the scale `√2ᵏ`. -/
noncomputable def projection (z : ZOmega) (k : Nat) (θ : ℝ) : ℝ :=
  ((ZOmega.toComplex z).re * Real.cos θ + (ZOmega.toComplex z).im * Real.sin θ) / √2 ^ k

/-- Factors `√2` of an element do not show in its projection. -/
theorem projection_sqrt2_pow_mul (v k : Nat) (u : ZOmega) (θ : ℝ) :
    projection (ZOmega.sqrt2 ^ v * u) (v + k) θ = projection u k θ := by
  have hne : √2 ^ v ≠ (0 : ℝ) := by positivity
  unfold projection
  rw [ZOmega.toComplex_sqrt2_pow_mul, ← Complex.ofReal_pow, Complex.re_ofReal_mul,
    Complex.im_ofReal_mul, mul_assoc, mul_assoc, ← mul_add, pow_add, mul_div_mul_left _ _ hne]

/-- The projection of a bounded element on a direction does not exceed the bound. -/
theorem abs_inner_le {z : ZOmega} {S : ℝ} (hz : z.Bounded S) (θ : ℝ) :
    |(ZOmega.toComplex z).re * Real.cos θ + (ZOmega.toComplex z).im * Real.sin θ| ≤ S := by
  refine abs_le_of_sq_le_sq ?_ hz.nonneg
  have hle := hz.normSq
  rw [Complex.normSq_apply] at hle
  generalize (ZOmega.toComplex z).re = a at hle ⊢
  generalize (ZOmega.toComplex z).im = b at hle ⊢
  -- Lagrange's identity, with `cos² + sin² = 1`
  have hcs := Real.sin_sq_add_cos_sq θ
  have hid : (a * Real.cos θ + b * Real.sin θ) ^ 2 + (a * Real.sin θ - b * Real.cos θ) ^ 2
      = a * a + b * b := by
    linear_combination (a ^ 2 + b ^ 2) * hcs
  linarith [sq_nonneg (a * Real.sin θ - b * Real.cos θ)]

/-- The computed projection of a bounded element is near the true one. -/
theorem abs_projection_sub_le {target : Target} (hc : c.Accurate) (ht : target.Accurate c)
    {z : ZOmega} (hz : z.Bounded (√2 ^ k)) :
    |((z.re c * target.cos + z.im c * target.sin) / (levelScales k c).1).value
      - projection z k target.theta.value| ≤ 480 * roundoff c.prec := by
  have hη := roundoff_pos c.prec
  have hη' : roundoff c.prec ≤ 1 / 2 ^ 148 := (roundoff_anti hc.prec_ge).trans (roundoff_eq 148).le
  have hS : 0 < √2 ^ k := by positivity
  have hscale := levelScales_within hc k
  have hscale0 : (levelScales k c).1.value ≠ 0 := by
    refine abs_pos.1 (lt_of_lt_of_le (mul_pos ?_ (abs_pos.2 hS.ne')) hscale.le_abs)
    linarith
  have hre := abs_product_sub_le hη hη' hz.abs_re_le (Real.abs_cos_le_one _) (hz.abs_re_sub_le hc)
    ht.cos (value_mul_within (x := z.re c) (y := target.cos) (le_max_of_le_right ht.prec_cos))
  have him := abs_product_sub_le hη hη' hz.abs_im_le (Real.abs_sin_le_one _) (hz.abs_im_sub_le hc)
    ht.sin (value_mul_within (x := z.im c) (y := target.sin) (le_max_of_le_right ht.prec_sin))
  have hprec : c.prec ≤ (z.re c * target.cos).prec := by
    rw [prec_mul]
    exact le_max_of_le_right ht.prec_cos
  generalize z.re c * target.cos = x at hre hprec ⊢
  generalize z.im c * target.sin = y at him ⊢
  have hV := abs_inner_le hz target.theta.value
  unfold projection
  generalize (ZOmega.toComplex z).re * Real.cos target.theta.value = v at hre hV ⊢
  generalize (ZOmega.toComplex z).im * Real.sin target.theta.value = w at him hV ⊢
  have hsum : |x.value + y.value - (v + w)| ≤ 448 * roundoff c.prec * √2 ^ k := by
    rw [add_sub_add_comm]
    refine (abs_add_le _ _).trans ((add_le_add hre him).trans (le_of_eq ?_))
    ring
  have hsmall : 448 * roundoff c.prec * √2 ^ k ≤ 1 / 2 * √2 ^ k :=
    mul_le_mul_of_nonneg_right (by linarith) hS.le
  have hlarge : |x.value + y.value| ≤ 3 / 2 * √2 ^ k := by
    linarith [abs_sub_abs_le_abs_sub (x.value + y.value) (v + w)]
  have hadd := (value_add_within (x := x) (y := y) (le_max_of_le_left hprec)).sub_le
  have hA : |(x + y).value - (v + w)| ≤ 451 * roundoff c.prec * √2 ^ k := by
    have hround := hadd.trans (mul_le_mul_of_nonneg_left hlarge (by linarith))
    linarith [abs_sub_le (x + y).value (x.value + y.value) (v + w)]
  exact abs_quotient_sub_le hη hη' hS hV hA hscale
    (value_div_within ((prec_levelScales hc k).symm ▸ le_max_right _ _) hscale0)

/-- A point that passes the test has its projection above the bound. -/
theorem lt_projection {target : Target} (hc : c.Accurate) (ht : target.Accurate c) {z : ZOmega}
    (hz : z.Bounded (√2 ^ k))
    (htest : ¬ (z.re c * target.cos + z.im c * target.sin) / (levelScales k c).1
      ≤ target.threshold) :
    1 - c.eps.value ^ 2 / 2 - 483 * roundoff c.prec < projection z k target.theta.value := by
  rw [le_iff_value, not_le] at htest
  have hnear := abs_le.1 (abs_projection_sub_le hc ht hz)
  linarith [ht.threshold, hnear.2]

end CliffordT.Approximation
