/-
Positive definite quadratic forms in two variables, exactly.

The form `p x² + 2b xy + q y²` has the determinant `d = pq - b²`, the size `e = √(pq)`, so that
`e² = b² + d`, and the exponent `z` with `q / p = λ^{2z}`. A matrix pulls it back. The form is compared
with its diagonal: it is at most twice the diagonal, and at least the part `d / 2e²` of it. How much
cancellation there may be when a matrix is applied to a vector, in the weights `√p` and `√q` of the form,
is what `Tame` bounds; that is all that the rounding errors of a change of the form depend on.
-/
import Mathlib.LinearAlgebra.Matrix.Determinant.Basic
import Mathlib.LinearAlgebra.Matrix.Notation
import CliffordT.Proofs.Settings.Lambda

namespace CliffordT

/-- The quadratic form `p x² + 2b xy + q y²`. -/
@[ext]
structure Form where
  p : ℝ
  b : ℝ
  q : ℝ

namespace Form

def eval (F : Form) (x y : ℝ) : ℝ := F.p * x ^ 2 + 2 * F.b * x * y + F.q * y ^ 2

def det (F : Form) : ℝ := F.p * F.q - F.b ^ 2

noncomputable def size (F : Form) : ℝ := √(F.p * F.q)

noncomputable def ratio (F : Form) : ℝ := √(F.q / F.p)

/-- The exponent: the logarithm of the ratio to base `λ`. -/
noncomputable def z (F : Form) : ℝ := Real.log (F.q / F.p) / (2 * Real.log lambdaReal)

def pull (F : Form) (R : Matrix (Fin 2) (Fin 2) ℝ) : Form where
  p := F.eval (R 0 0) (R 1 0)
  b := F.p * R 0 0 * R 0 1 + F.b * (R 0 0 * R 1 1 + R 0 1 * R 1 0) + F.q * R 1 0 * R 1 1
  q := F.eval (R 0 1) (R 1 1)

structure IsPos (F : Form) : Prop where
  p_pos : 0 < F.p
  q_pos : 0 < F.q
  det_pos : 0 < F.det

/-! ## Pulling back -/

theorem eval_pull (F : Form) (R : Matrix (Fin 2) (Fin 2) ℝ) (x y : ℝ) :
    (F.pull R).eval x y = F.eval (R 0 0 * x + R 0 1 * y) (R 1 0 * x + R 1 1 * y) := by
  simp only [pull, eval]
  ring

theorem det_pull (F : Form) (R : Matrix (Fin 2) (Fin 2) ℝ) :
    (F.pull R).det = R.det ^ 2 * F.det := by
  rw [Matrix.det_fin_two]
  simp only [pull, eval, det]
  ring

theorem pull_mul (F : Form) (R S : Matrix (Fin 2) (Fin 2) ℝ) :
    F.pull (R * S) = (F.pull R).pull S := by
  ext
  all_goals
    simp only [pull, eval, Matrix.mul_apply, Fin.sum_univ_two]
    ring

@[simp] theorem pull_one (F : Form) : F.pull 1 = F := by
  ext
  all_goals simp [pull, eval]

/-! ## Positive forms -/

namespace IsPos

variable {F : Form} (h : F.IsPos)
include h

theorem size_sq : F.size ^ 2 = F.p * F.q := Real.sq_sqrt (mul_pos h.p_pos h.q_pos).le

theorem size_sq' : F.size ^ 2 = F.b ^ 2 + F.det := by
  rw [h.size_sq, det]
  ring

theorem size_pos : 0 < F.size := Real.sqrt_pos.2 (mul_pos h.p_pos h.q_pos)

theorem abs_b_le : |F.b| ≤ F.size := by
  refine abs_le_of_sq_le_sq ?_ h.size_pos.le
  rw [h.size_sq']
  linarith [h.det_pos]

theorem det_le_size_sq : F.det ≤ F.size ^ 2 := by
  rw [h.size_sq']
  linarith [sq_nonneg F.b]

theorem sqrt_det_le_size : √F.det ≤ F.size := Real.sqrt_le_iff.2 ⟨h.size_pos.le, h.det_le_size_sq⟩

/-- The square of the size is not below the determinant. -/
theorem one_le_of_size_sq_le {K : ℝ} (hK : F.size ^ 2 ≤ K * F.det) : 1 ≤ K := by
  refine le_of_mul_le_mul_right ?_ h.det_pos
  rw [one_mul]
  exact h.det_le_size_sq.trans hK

theorem ratio_pos : 0 < F.ratio := Real.sqrt_pos.2 (div_pos h.q_pos h.p_pos)

theorem ratio_sq : F.ratio ^ 2 = F.q / F.p := Real.sq_sqrt (div_pos h.q_pos h.p_pos).le

theorem size_eq : F.size = F.p * F.ratio := by
  have hpos := mul_pos h.p_pos h.ratio_pos
  refine (pow_left_inj₀ h.size_pos.le hpos.le two_ne_zero).1 ?_
  rw [h.size_sq, mul_pow, h.ratio_sq]
  field_simp

theorem p_eq : F.p = F.size / F.ratio := by
  rw [h.size_eq, mul_div_cancel_right₀ _ h.ratio_pos.ne']

theorem q_eq : F.q = F.size * F.ratio := by
  rw [h.size_eq, mul_assoc, ← sq, h.ratio_sq, mul_div_cancel₀ _ h.p_pos.ne']

theorem sqrt_q : √F.q = F.ratio * √F.p := by
  rw [ratio, ← Real.sqrt_mul (div_pos h.q_pos h.p_pos).le, div_mul_cancel₀ _ h.p_pos.ne']

/-- The ratio is the power of `λ` that the exponent says. -/
theorem ratio_eq_rpow : F.ratio = lambdaReal ^ F.z := by
  have hlog := log_lambdaReal_bounds
  have hne : Real.log lambdaReal ≠ 0 := by linarith
  have hpos := div_pos h.q_pos h.p_pos
  rw [Real.rpow_def_of_pos lambdaReal_pos, z, ratio, Real.sqrt_eq_rpow, Real.rpow_def_of_pos hpos]
  congr 1
  field_simp

/-- The form is at most twice its diagonal. -/
theorem eval_le (x y : ℝ) : F.eval x y ≤ 2 * (F.p * x ^ 2 + F.q * y ^ 2) := by
  have hp := h.p_pos
  have hd := h.det_pos
  have hsq : 0 ≤ F.p * (F.p * x ^ 2 + F.q * y ^ 2 - 2 * F.b * x * y) := by
    have hsplit : F.p * (F.p * x ^ 2 + F.q * y ^ 2 - 2 * F.b * x * y)
        = (F.p * x - F.b * y) ^ 2 + F.det * y ^ 2 := by
      rw [det]
      ring
    rw [hsplit]
    positivity
  have := nonneg_of_mul_nonneg_right hsq hp
  unfold eval
  linarith

/-- The form is at least the part `d / 2e²` of its diagonal. -/
theorem le_eval (x y : ℝ) :
    F.det * (F.p * x ^ 2 + F.q * y ^ 2) ≤ 2 * F.size ^ 2 * F.eval x y := by
  have hp := h.p_pos
  have hq := h.q_pos
  -- the difference is a form with the coefficients `p s`, `2pqb`, `q s`, and completes to a square
  have hs : 0 < F.p * (F.p * F.q + F.b ^ 2) := by positivity
  have hsq : 0 ≤ F.p * (F.p * F.q + F.b ^ 2)
      * (2 * (F.p * F.q) * F.eval x y - F.det * (F.p * x ^ 2 + F.q * y ^ 2)) := by
    have hsplit : F.p * (F.p * F.q + F.b ^ 2)
        * (2 * (F.p * F.q) * F.eval x y - F.det * (F.p * x ^ 2 + F.q * y ^ 2))
        = (F.p * (F.p * F.q + F.b ^ 2) * x + 2 * F.p * F.q * F.b * y) ^ 2
          + F.p * F.q * F.det ^ 2 * y ^ 2 := by
      rw [det, eval]
      ring
    rw [hsplit]
    positivity
  rw [h.size_sq]
  linarith [nonneg_of_mul_nonneg_right hsq hs]

theorem eval_nonneg (x y : ℝ) : 0 ≤ F.eval x y := by
  have hdiag : 0 ≤ F.det * (F.p * x ^ 2 + F.q * y ^ 2) := by
    have := h.p_pos
    have := h.q_pos
    have := h.det_pos
    positivity
  have hle := hdiag.trans (h.le_eval x y)
  exact nonneg_of_mul_nonneg_right hle (by have := h.size_pos; positivity)

theorem eval_pos {x y : ℝ} (hxy : x ≠ 0 ∨ y ≠ 0) : 0 < F.eval x y := by
  have hp := h.p_pos
  have hq := h.q_pos
  have hdiag : 0 < F.det * (F.p * x ^ 2 + F.q * y ^ 2) := by
    refine mul_pos h.det_pos ?_
    rcases hxy with hx | hy
    · positivity
    · positivity
  exact pos_of_mul_pos_right (hdiag.trans_le (h.le_eval x y))
    (by have := h.size_pos; positivity)

/-- A regular matrix pulls a positive form back to one. -/
theorem pull {R : Matrix (Fin 2) (Fin 2) ℝ} (hR : R.det ≠ 0) : (F.pull R).IsPos where
  p_pos := h.eval_pos (by
    by_contra hzero
    push Not at hzero
    exact hR (by rw [Matrix.det_fin_two, hzero.1, hzero.2]; ring))
  q_pos := h.eval_pos (by
    by_contra hzero
    push Not at hzero
    exact hR (by rw [Matrix.det_fin_two, hzero.1, hzero.2]; ring))
  det_pos := by
    rw [det_pull]
    have := h.det_pos
    positivity

end IsPos

/-! ## Cancellation -/

/-- The sum of the absolute values of the coordinates, in the weights of the form. -/
noncomputable def weight (F : Form) (x y : ℝ) : ℝ := √F.p * |x| + √F.q * |y|

theorem weight_nonneg (F : Form) (x y : ℝ) : 0 ≤ F.weight x y := by
  unfold weight
  positivity

theorem IsPos.weight_sq_le {F : Form} (h : F.IsPos) (x y : ℝ) :
    F.det * F.weight x y ^ 2 ≤ 4 * F.size ^ 2 * F.eval x y := by
  have hle := h.le_eval x y
  have hp := Real.sq_sqrt h.p_pos.le
  have hq := Real.sq_sqrt h.q_pos.le
  have hsq : F.weight x y ^ 2 ≤ 2 * (F.p * x ^ 2 + F.q * y ^ 2) := by
    have hcross := two_mul_le_add_sq (√F.p * |x|) (√F.q * |y|)
    have hsplit : F.weight x y ^ 2
        = (√F.p * |x|) ^ 2 + 2 * (√F.p * |x|) * (√F.q * |y|) + (√F.q * |y|) ^ 2 := by
      unfold weight
      ring
    rw [hsplit]
    rw [mul_pow, mul_pow, hp, hq, sq_abs, sq_abs] at hcross ⊢
    linarith
  nlinarith [mul_le_mul_of_nonneg_left hsq h.det_pos.le]

theorem IsPos.eval_le_weight_sq {F : Form} (h : F.IsPos) (x y : ℝ) :
    F.eval x y ≤ 2 * F.weight x y ^ 2 := by
  have hle := h.eval_le x y
  have hp := Real.sq_sqrt h.p_pos.le
  have hq := Real.sq_sqrt h.q_pos.le
  have hsq : F.p * x ^ 2 + F.q * y ^ 2 ≤ F.weight x y ^ 2 := by
    have hcross : 0 ≤ 2 * (√F.p * |x|) * (√F.q * |y|) := by positivity
    have hsplit : F.weight x y ^ 2
        = (√F.p * |x|) ^ 2 + 2 * (√F.p * |x|) * (√F.q * |y|) + (√F.q * |y|) ^ 2 := by
      unfold weight
      ring
    rw [hsplit, mul_pow, mul_pow, hp, hq, sq_abs, sq_abs]
    linarith
  linarith

/-- The cancellation when the matrix or its inverse is applied is bounded by `K`, in the weights of the
form: that is the size of `|R| |R⁻¹|`. -/
structure Tame (K : ℝ) (F : Form) (R : Matrix (Fin 2) (Fin 2) ℝ) : Prop where
  abs_det : |R.det| = 1
  fst : |R 0 0 * R 1 1| + |R 0 1 * R 1 0| + 2 * |R 1 0 * R 1 1| * F.ratio ≤ K
  snd : |R 0 0 * R 1 1| + |R 0 1 * R 1 0| + 2 * |R 0 0 * R 0 1| / F.ratio ≤ K

theorem Tame.det_sq {K : ℝ} {F : Form} {R : Matrix (Fin 2) (Fin 2) ℝ} (h : Tame K F R) :
    R.det ^ 2 = 1 := by
  rw [← sq_abs, h.abs_det, one_pow]

theorem Tame.det_ne_zero {K : ℝ} {F : Form} {R : Matrix (Fin 2) (Fin 2) ℝ} (h : Tame K F R) :
    R.det ≠ 0 := by
  intro h0
  have := h.abs_det
  rw [h0, abs_zero] at this
  norm_num at this

/-- What the absolute values of the entries make of the absolute values `s`, `t`, when those are at most
what the absolute values of the inverse make of `x`, `y`. -/
theorem Tame.weight_le {K : ℝ} {F : Form} (hF : F.IsPos) {R : Matrix (Fin 2) (Fin 2) ℝ}
    (h : Tame K F R) {s t x y : ℝ} (hs : s ≤ |R 1 1| * |x| + |R 0 1| * |y|)
    (ht : t ≤ |R 1 0| * |x| + |R 0 0| * |y|) :
    √F.p * (|R 0 0| * s + |R 0 1| * t) + √F.q * (|R 1 0| * s + |R 1 1| * t)
      ≤ K * F.weight x y := by
  have hfst := h.fst
  have hsnd := h.snd
  have hX := hF.ratio_pos
  have hp := Real.sqrt_nonneg F.p
  simp only [abs_mul] at hfst hsnd
  have h1 := mul_le_mul_of_nonneg_left hs (abs_nonneg (R 0 0))
  have h2 := mul_le_mul_of_nonneg_left ht (abs_nonneg (R 0 1))
  have h3 := mul_le_mul_of_nonneg_left hs (abs_nonneg (R 1 0))
  have h4 := mul_le_mul_of_nonneg_left ht (abs_nonneg (R 1 1))
  have hup := mul_le_mul_of_nonneg_left (add_le_add h1 h2) hp
  have hdown := mul_le_mul_of_nonneg_left (add_le_add h3 h4) (Real.sqrt_nonneg F.q)
  refine (add_le_add hup hdown).trans ?_
  have hx := mul_le_mul_of_nonneg_left hfst (mul_nonneg hp (abs_nonneg x))
  have hy := mul_le_mul_of_nonneg_left hsnd
    (mul_nonneg (Real.sqrt_nonneg F.q) (abs_nonneg y))
  unfold weight
  rw [hF.sqrt_q] at hy ⊢
  have hcancel : F.ratio * √F.p * |y| * (2 * (|R 0 0| * |R 0 1|) / F.ratio)
      = √F.p * |y| * (2 * (|R 0 0| * |R 0 1|)) := by
    field_simp
  rw [mul_add, mul_add] at hy
  rw [hcancel] at hy
  linarith

/-- The image of a vector whose coordinates are small against the images of `x`, `y` under the absolute
values of the inverse. -/
theorem Tame.weight_image_le {K : ℝ} {F : Form} (hF : F.IsPos) {R : Matrix (Fin 2) (Fin 2) ℝ}
    (h : Tame K F R) {ε s t x y : ℝ} (hε : 0 ≤ ε) (hs : |s| ≤ ε * (|R 1 1| * |x| + |R 0 1| * |y|))
    (ht : |t| ≤ ε * (|R 1 0| * |x| + |R 0 0| * |y|)) :
    F.weight (R 0 0 * s + R 0 1 * t) (R 1 0 * s + R 1 1 * t) ≤ ε * (K * F.weight x y) := by
  have htame := h.weight_le hF (x := x) (y := y) le_rfl le_rfl
  have habs (b b' : ℝ) : |b * s + b' * t|
      ≤ ε * (|b| * (|R 1 1| * |x| + |R 0 1| * |y|) + |b'| * (|R 1 0| * |x| + |R 0 0| * |y|)) := by
    refine (abs_add_le _ _).trans ?_
    rw [abs_mul, abs_mul]
    have h1 := mul_le_mul_of_nonneg_left hs (abs_nonneg b)
    have h2 := mul_le_mul_of_nonneg_left ht (abs_nonneg b')
    linarith
  unfold weight at htame ⊢
  have h1 := mul_le_mul_of_nonneg_left (habs (R 0 0) (R 0 1)) (Real.sqrt_nonneg F.p)
  have h2 := mul_le_mul_of_nonneg_left (habs (R 1 0) (R 1 1)) (Real.sqrt_nonneg F.q)
  have h3 := mul_le_mul_of_nonneg_left htame hε
  linarith

/-- The weights of the columns, against the weight of the image of a point. -/
theorem Tame.weight_columns_le {K : ℝ} {F : Form} (hF : F.IsPos) {R : Matrix (Fin 2) (Fin 2) ℝ}
    (h : Tame K F R) (x y : ℝ) :
    F.weight (R 0 0) (R 1 0) * |x| + F.weight (R 0 1) (R 1 1) * |y|
      ≤ K * F.weight (R 0 0 * x + R 0 1 * y) (R 1 0 * x + R 1 1 * y) := by
  have hdet := h.abs_det
  rw [Matrix.det_fin_two] at hdet
  generalize hw₀ : R 0 0 * x + R 0 1 * y = w₀
  generalize hw₁ : R 1 0 * x + R 1 1 * y = w₁
  have hx : |x| ≤ |R 1 1| * |w₀| + |R 0 1| * |w₁| := by
    have hsolve : (R 0 0 * R 1 1 - R 0 1 * R 1 0) * x = R 1 1 * w₀ - R 0 1 * w₁ := by
      rw [← hw₀, ← hw₁]
      ring
    have habs := congrArg abs hsolve
    rw [abs_mul, hdet, one_mul] at habs
    rw [habs, ← abs_mul, ← abs_mul]
    exact abs_sub _ _
  have hy : |y| ≤ |R 1 0| * |w₀| + |R 0 0| * |w₁| := by
    have hsolve : (R 0 0 * R 1 1 - R 0 1 * R 1 0) * y = R 0 0 * w₁ - R 1 0 * w₀ := by
      rw [← hw₀, ← hw₁]
      ring
    have habs := congrArg abs hsolve
    rw [abs_mul, hdet, one_mul] at habs
    rw [habs, add_comm, ← abs_mul, ← abs_mul]
    exact abs_sub _ _
  refine le_trans (le_of_eq ?_) (h.weight_le hF hx hy)
  unfold weight
  ring

/-- The weight of a column. -/
theorem IsPos.weight_column_sq_le {F : Form} (h : F.IsPos) (x y : ℝ) :
    F.weight x y ^ 2 ≤ 4 * (F.size ^ 2 / F.det) * F.eval x y := by
  have hle := h.weight_sq_le x y
  rw [mul_div_assoc', div_mul_eq_mul_div, le_div_iff₀ h.det_pos]
  linarith

/-- The weights of the two columns together. -/
theorem Tame.weight_mul_weight_le {K : ℝ} {F : Form} (hF : F.IsPos) {R : Matrix (Fin 2) (Fin 2) ℝ}
    (h : Tame K F R) : F.weight (R 0 0) (R 1 0) * F.weight (R 0 1) (R 1 1) ≤ K * F.size := by
  have hX := hF.ratio_pos
  have hp := Real.mul_self_sqrt hF.p_pos.le
  have hfst := mul_le_mul_of_nonneg_left h.fst hF.size_pos.le
  have hsnd := mul_le_mul_of_nonneg_left h.snd hF.size_pos.le
  simp only [abs_mul, hF.size_eq] at hfst hsnd
  have hcancel : F.p * F.ratio * (2 * (|R 0 0| * |R 0 1|) / F.ratio) = F.p * (2 * (|R 0 0| * |R 0 1|)) := by
    field_simp
  rw [mul_add _ _ (2 * (|R 0 0| * |R 0 1|) / F.ratio), hcancel] at hsnd
  have hsplit : F.weight (R 0 0) (R 1 0) * F.weight (R 0 1) (R 1 1) = √F.p * √F.p
      * (|R 0 0| * |R 0 1| + F.ratio * (|R 0 0| * |R 1 1| + |R 0 1| * |R 1 0|)
        + F.ratio * F.ratio * (|R 1 0| * |R 1 1|)) := by
    unfold weight
    rw [hF.sqrt_q]
    ring
  rw [hsplit, hp, hF.size_eq]
  linarith

end Form

end CliffordT
