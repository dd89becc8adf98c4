/-
The ellipse of the search covers the slice.

There is nothing to spare in the exact ellipse, which touches the slice in three points, and the entries of
the computed form are of the size `9/ε⁴`, with values of the form that are at most one. The errors do not
grow with the entries, though: the form as it is computed, and its value at a point as it is computed, are
off by a part of the value, in proportion to the ratio `12/ε²` of the eigenvalues; and the errors of the
center and of the difference from it are small in the norm of the form. Together they are below `2¹⁸ u/ε²`
for the unit roundoff `u`, and the working precision puts this far below the tolerance of the test.
-/
import CliffordT.Proofs.Approximation.Prepare
import CliffordT.Proofs.BinFloat.CorrectRounding

namespace CliffordT

open BinFloat

/-! ## The computed value of a form -/

namespace Mat2

/-- The value of a form, in the order of the products `xᵀ A y`. -/
theorem quadraticForm_eq (m : Mat2) (v : Vec2) :
    m.quadraticForm v = (v.x * m.m00 + v.y * m.m01) * v.x + (v.x * m.m10 + v.y * m.m11) * v.y := by
  show v.x * (m.m00 * v.x + m.m01 * v.y) + v.y * (m.m10 * v.x + m.m11 * v.y) = _
  rw [multiplication_comm v.x (_ + _), multiplication_comm v.y (_ + _), multiplication_comm m.m00,
    multiplication_comm m.m01, multiplication_comm m.m10, multiplication_comm m.m11]

section QuadraticForm

variable {p : ℕ} {η : ℝ} {m : Mat2} {F : Form} {v : Vec2}

theorem le_prec_quadraticForm (h : p ≤ v.x.prec) : p ≤ (m.quadraticForm v).prec := by
  rw [quadraticForm_eq, prec_add, prec_mul, prec_add, prec_mul]
  exact le_max_of_le_left (le_max_of_le_left (le_max_of_le_left (le_max_of_le_left h)))

/-- The rounding errors of the value of a form, which the absolute values of the products bound. -/
theorem abs_quadraticForm_sub_evalForm_le (hx : p ≤ v.x.prec) (hy : p ≤ v.y.prec)
    (hp : 10 * roundoff p ≤ 1 / 4) :
    |(m.quadraticForm v).value - m.evalForm v.x.value v.y.value|
      ≤ 10 * roundoff p * bilinearScale m.m00.value m.m01.value m.m10.value m.m11.value v.x.value v.y.value
        v.x.value v.y.value := by
  have hentry : |((v.x * m.m00 + v.y * m.m01) * v.x + (v.x * m.m10 + v.y * m.m11) * v.y).value
      - bilinear m.m00.value m.m10.value m.m01.value m.m11.value v.x.value v.y.value v.x.value v.y.value|
      ≤ (3 * 0 + 10 * roundoff p) * bilinearScale m.m00.value m.m10.value m.m01.value m.m11.value v.x.value
        v.y.value v.x.value v.y.value :=
    entry_close hx hy le_rfl (by linarith) (.refl le_rfl _) (.refl le_rfl _) (.refl le_rfl _)
      (.refl le_rfl _)
  rw [← quadraticForm_eq, mul_zero, zero_add] at hentry
  -- the transposed entries, which do not show where both columns are the same
  have hexact : bilinear m.m00.value m.m10.value m.m01.value m.m11.value v.x.value v.y.value v.x.value
      v.y.value = m.evalForm v.x.value v.y.value := by
    unfold bilinear evalForm
    ring
  have hswap : bilinearScale m.m00.value m.m10.value m.m01.value m.m11.value v.x.value v.y.value
      v.x.value v.y.value = bilinearScale m.m00.value m.m01.value m.m10.value m.m11.value v.x.value
      v.y.value v.x.value v.y.value := by
    unfold bilinearScale bilinear
    ring
  rwa [hexact, hswap] at hentry

/-- The value of a form is computed up to a part of it, however large the entries are. -/
theorem Near.abs_quadraticForm_sub_le (hF : F.IsPos) (h : m.Near η 0 F) (hη : η ≤ 1 / 4)
    (hx : p ≤ v.x.prec) (hy : p ≤ v.y.prec) (hp : 10 * roundoff p ≤ 1 / 4) :
    |(m.quadraticForm v).value - F.eval v.x.value v.y.value|
      ≤ (η + 80 * roundoff p * (F.size ^ 2 / F.det)) * F.eval v.x.value v.y.value := by
  have hu := roundoff_pos p
  have hentry := abs_quadraticForm_sub_evalForm_le (m := m) hx hy hp
  have hscale := h.bilinearScale_le hF hη hF.size_pos.le v.x.value v.y.value v.x.value v.y.value
  have hweight := hF.weight_column_sq_le v.x.value v.y.value
  have hform := h.eval v.x.value v.y.value
  generalize F.eval v.x.value v.y.value = f at hweight hform ⊢
  generalize m.evalForm v.x.value v.y.value = g at hentry hform
  have hround : |(m.quadraticForm v).value - g| ≤ 80 * roundoff p * (F.size ^ 2 / F.det) * f :=
    calc |(m.quadraticForm v).value - g|
        ≤ 10 * roundoff p * (2 * (4 * (F.size ^ 2 / F.det) * f)) := by
          refine hentry.trans (mul_le_mul_of_nonneg_left (hscale.trans ?_) (by linarith))
          rw [← sq]
          linarith
      _ = 80 * roundoff p * (F.size ^ 2 / F.det) * f := by ring
  have htri := abs_sub_le (m.quadraticForm v).value g f
  rw [add_mul]
  linarith

end QuadraticForm

end Mat2

/-! ## The test -/

namespace Ellipse

/-- A value up to a quarter of the tolerance above one passes. -/
theorem contains_of_value_le {E : Ellipse} {v : Vec2} {tol : BinFloat} (hprec : 3 ≤ v.x.prec)
    (htol : 0 < tol.value)
    (h : (E.form.quadraticForm (v - E.center)).value ≤ 1 + tol.value / 4) : E.contains v tol = true := by
  unfold contains
  dsimp only
  have hprec' : 3 ≤ (E.form.quadraticForm (v - E.center)).prec :=
    Mat2.le_prec_quadraticForm (by
      show 3 ≤ (v.x - E.center.x).prec
      rw [prec_sub]
      exact le_max_of_le_left hprec)
  generalize E.form.quadraticForm (v - E.center) = x at h hprec'
  rw [Bool.or_eq_true, decide_eq_true_iff, decide_eq_true_iff, lt_iff_value, lt_iff_value, value_abs,
    value_one]
  refine (lt_or_ge x.value 1).imp_right fun hge => ?_
  have hdiff := abs_sub_value_le (x := x) (y := BinFloat.one x.prec) (le_max_of_le_left hprec')
  rw [value_one, abs_of_nonneg (by linarith : 0 ≤ x.value - 1)] at hdiff
  linarith

/-! ## The ellipse around the slice -/

section Slice

variable {p : ℕ} {ε θ : ℝ} {E : Ellipse} {v : Vec2}

/-- A coordinate of the difference from the center, as it is computed. -/
theorem abs_sub_center_sub_le {x c : BinFloat} {γ : ℝ} (hx : p ≤ x.prec) (hx1 : |x.value| ≤ 1)
    (hγ : |γ| ≤ 1) (hu : roundoff p ≤ 1 / 2 ^ 64) (hc : |c.value - γ| ≤ 600 * roundoff p) :
    |(x - c).value - (x.value - γ)| ≤ 605 * roundoff p := by
  have hpos := roundoff_pos p
  have hround := (value_sub_within (x := x) (y := c) (p := p) (hx.trans (le_max_left _ _))).sub_le
  have hsize : |x.value - c.value| ≤ 17 / 8 := by
    have hsplit : x.value - c.value = x.value - γ - (c.value - γ) := by ring
    rw [hsplit]
    have h1 := abs_sub (x.value - γ) (c.value - γ)
    have h2 := abs_sub x.value γ
    linarith
  have hscaled := mul_le_mul_of_nonneg_left hsize (by linarith : 0 ≤ 2 * roundoff p)
  have hsplit : (x - c).value - (x.value - γ) = (x - c).value - (x.value - c.value) - (c.value - γ) := by
    ring
  rw [hsplit]
  have htri := abs_sub ((x - c).value - (x.value - c.value)) (c.value - γ)
  linarith

/-- The difference from the center, as it is computed, in the norm of the form. -/
theorem Renders.norm_sub_center_le {η : ℝ} (h : E.Renders p η (600 * roundoff p) (.slice ε θ))
    (hε : 0 < ε) (hε1 : ε ≤ 1) (hu : roundoff p ≤ 1 / 2 ^ 64) (hx : p ≤ v.x.prec) (hy : p ≤ v.y.prec)
    (hnorm : v.x.value ^ 2 + v.y.value ^ 2 ≤ 1)
    (hslice : 1 - ε ^ 2 / 2 ≤ v.x.value * Real.cos θ + v.y.value * Real.sin θ) :
    (ExactEllipse.slice ε θ).form.norm (v - E.center).x.value (v - E.center).y.value
      ≤ 1 + 3630 * (roundoff p / ε ^ 2) := by
  have hpos := roundoff_pos p
  have hF := ExactEllipse.isPos_slice hε hε1 θ
  have hQP := (ExactEllipse.slice_eigenvalues hε hε1).2.1
  have hunit {a b : ℝ} (hab : a ^ 2 + b ^ 2 ≤ 1) : |a| ≤ 1 :=
    abs_le_of_sq_le_sq (by linarith [sq_nonneg b]) zero_le_one
  have hcenter := ExactEllipse.abs_center_slice_le hε hε1 θ
  have hdx : |(v - E.center).x.value - (v.x.value - (ExactEllipse.slice ε θ).center 0)|
      ≤ 605 * roundoff p :=
    abs_sub_center_sub_le hx (hunit hnorm) (hcenter 0) hu h.abs_x_sub_le
  have hdy : |(v - E.center).y.value - (v.y.value - (ExactEllipse.slice ε θ).center 1)|
      ≤ 605 * roundoff p :=
    abs_sub_center_sub_le hy (hunit (by linarith : v.y.value ^ 2 + v.x.value ^ 2 ≤ 1)) (hcenter 1) hu
      h.abs_y_sub_le
  have hinside : (ExactEllipse.slice ε θ).form.norm (v.x.value - (ExactEllipse.slice ε θ).center 0)
      (v.y.value - (ExactEllipse.slice ε θ).center 1) ≤ 1 :=
    Real.sqrt_le_one.2
      (ExactEllipse.contains_slice hε hε1 θ (v := ![v.x.value, v.y.value]) hslice hnorm)
  generalize hwx : v.x.value - (ExactEllipse.slice ε θ).center 0 = wx at hdx hinside
  generalize hwy : v.y.value - (ExactEllipse.slice ε θ).center 1 = wy at hdy hinside
  generalize (v - E.center).x.value = zx at hdx ⊢
  generalize (v - E.center).y.value = zy at hdy ⊢
  have hoff : (ExactEllipse.slice ε θ).form.norm (zx - wx) (zy - wy) ≤ 3630 * (roundoff p / ε ^ 2) := by
    refine Real.sqrt_le_iff.2 ⟨by positivity, ?_⟩
    have hsum : (zx - wx) ^ 2 + (zy - wy) ^ 2 ≤ (1210 * roundoff p) ^ 2 := by
      have h1 := sq_le_sq' (abs_le.1 hdx).1 (abs_le.1 hdx).2
      have h2 := sq_le_sq' (abs_le.1 hdy).1 (abs_le.1 hdy).2
      linarith [sq_nonneg (roundoff p)]
    calc (ExactEllipse.slice ε θ).form.eval (zx - wx) (zy - wy)
        ≤ (3 / ε ^ 2) ^ 2 * ((zx - wx) ^ 2 + (zy - wy) ^ 2) := (Form.eval_ofAxes_bounds θ _ _ hQP).2
      _ ≤ (3 / ε ^ 2) ^ 2 * (1210 * roundoff p) ^ 2 := mul_le_mul_of_nonneg_left hsum (by positivity)
      _ = (3630 * (roundoff p / ε ^ 2)) ^ 2 := by ring
  have htri := hF.norm_add_le wx wy (zx - wx) (zy - wy)
  rw [add_sub_cancel, add_sub_cancel] at htri
  linarith

/-- The value of the computed form at a point of the slice. -/
theorem Renders.quadraticForm_le (h : E.Renders p (120000 * roundoff p / ε ^ 2) (600 * roundoff p)
    (.slice ε θ)) (hε : 0 < ε) (hε1 : ε ≤ 1) (hu : roundoff p / ε ^ 2 ≤ 1 / 2 ^ 64) (hx : p ≤ v.x.prec)
    (hy : p ≤ v.y.prec) (hnorm : v.x.value ^ 2 + v.y.value ^ 2 ≤ 1)
    (hslice : 1 - ε ^ 2 / 2 ≤ v.x.value * Real.cos θ + v.y.value * Real.sin θ) :
    (E.form.quadraticForm (v - E.center)).value ≤ 1 + 2 ^ 18 * (roundoff p / ε ^ 2) := by
  have hpos := roundoff_pos p
  have hε2 : 0 < ε ^ 2 := by positivity
  have hF := ExactEllipse.isPos_slice hε hε1 θ
  have hu' : roundoff p ≤ roundoff p / ε ^ 2 :=
    le_div_self hpos.le hε2 (pow_le_one₀ hε.le hε1)
  have hcancel : (ExactEllipse.slice ε θ).form.size ^ 2 / (ExactEllipse.slice ε θ).form.det ≤ 12 / ε ^ 2 :=
    (div_le_iff₀ hF.det_pos).2 (ExactEllipse.size_sq_slice_le hε hε1 θ)
  have hnear := h.norm_sub_center_le hε hε1 (hu'.trans hu) hx hy hnorm hslice
  have hvalue := h.near.abs_quadraticForm_sub_le (p := p) (v := v - E.center) hF
    (by
      rw [mul_div_assoc]
      linarith)
    (by
      show p ≤ (v.x - E.center.x).prec
      rw [prec_sub]
      exact le_max_of_le_left hx)
    (by
      show p ≤ (v.y - E.center.y).prec
      rw [prec_sub]
      exact le_max_of_le_left hy)
    (by linarith)
  rw [← hF.norm_sq] at hvalue
  have hnonneg := (ExactEllipse.slice ε θ).form.norm_nonneg (v - E.center).x.value (v - E.center).y.value
  generalize (ExactEllipse.slice ε θ).form.norm (v - E.center).x.value (v - E.center).y.value = r
    at hnear hvalue hnonneg
  generalize (E.form.quadraticForm (v - E.center)).value = q at hvalue ⊢
  -- in units of `u/ε²`
  have hrate : 120000 * roundoff p / ε ^ 2 + 80 * roundoff p
      * ((ExactEllipse.slice ε θ).form.size ^ 2 / (ExactEllipse.slice ε θ).form.det)
      ≤ 120960 * (roundoff p / ε ^ 2) := by
    have h12 := mul_le_mul_of_nonneg_left hcancel (by linarith : 0 ≤ 80 * roundoff p)
    have hsum : 120000 * roundoff p / ε ^ 2 + 80 * roundoff p * (12 / ε ^ 2)
        = 120960 * (roundoff p / ε ^ 2) := by ring
    linarith
  have hw : 0 ≤ roundoff p / ε ^ 2 := by positivity
  generalize roundoff p / ε ^ 2 = w at hu hnear hrate hw ⊢
  have hw2 : w * w ≤ 1 / 2 ^ 64 * w := mul_le_mul_of_nonneg_right hu hw
  have hr : r ^ 2 ≤ 1 + 8000 * w := (pow_le_pow_left₀ hnonneg hnear 2).trans (by linarith)
  have hq := (abs_le.1 (hvalue.trans (mul_le_mul_of_nonneg_right hrate (sq_nonneg r)))).2
  have hpart := mul_le_mul_of_nonneg_left hr (by linarith : 0 ≤ 120960 * w)
  linarith

end Slice

end Ellipse

/-! ## The room below the tolerance -/

namespace Approximation

/-- The unit roundoff, against the eigenvalues. -/
theorem roundoff_div_sq_le (d : ℕ) :
    roundoff (20 * d + 128) / (Constants.ofDigits d).eps.value ^ 2 ≤ 1 / 2 ^ (12 * d + 127) := by
  have hratio := mul_le_mul_of_nonneg_left (twelve_div_sq_le d) (roundoff_pos (20 * d + 128)).le
  have hpow := roundoff_mul_sq_le_pow d
  have hten : 0 ≤ roundoff (20 * d + 128) * (10 ^ d) ^ 2 :=
    mul_nonneg (roundoff_pos _).le (by positivity)
  have hsplit : roundoff (20 * d + 128) * (12 / (Constants.ofDigits d).eps.value ^ 2)
      = 12 * (roundoff (20 * d + 128) / (Constants.ofDigits d).eps.value ^ 2) := by ring
  have hhalf : (1 : ℝ) / 2 ^ (12 * d + 127) = 2 * (1 / 2 ^ (12 * d + 128)) := by
    rw [pow_succ _ (12 * d + 127)]
    field_simp
  rw [hsplit] at hratio
  rw [hhalf]
  linarith

/-- The errors at the working precision are far below the tolerance. -/
theorem roundoff_div_sq_le_tol {d : ℕ} (hd : 0 < d) : 2 ^ 18 *
    (roundoff (20 * d + 128) / (Constants.ofDigits d).eps.value ^ 2)
      ≤ (Constants.ofDigits d).tol.value / 4 := by
  have hpow : (2 : ℝ) ^ 18 * (4 * 2 ^ (11 * d + 39)) ≤ 2 ^ (12 * d + 127) := by
    have hsplit : (2 : ℝ) ^ 18 * (4 * 2 ^ (11 * d + 39)) = 2 ^ (11 * d + 59) := by
      rw [pow_add, pow_add]
      ring
    rw [hsplit]
    exact pow_le_pow_right₀ (by norm_num) (by omega)
  calc 2 ^ 18 * (roundoff (20 * d + 128) / (Constants.ofDigits d).eps.value ^ 2)
      ≤ 2 ^ 18 * (1 / 2 ^ (12 * d + 127)) :=
        mul_le_mul_of_nonneg_left (roundoff_div_sq_le d) (by positivity)
    _ ≤ 1 / 2 ^ (11 * d + 39) / 4 := by
        rw [mul_one_div, div_div, div_le_div_iff₀ (by positivity) (by positivity), mul_comm _ (4 : ℝ), one_mul]
        exact hpow
    _ ≤ (Constants.ofDigits d).tol.value / 4 :=
        div_le_div_of_nonneg_right (Constants.two_pow_le_tol hd) (by norm_num)

end Approximation

/-! ## Coverage -/

end CliffordT
