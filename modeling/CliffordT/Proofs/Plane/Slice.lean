/-
The ellipses of the problem.

The slice `Re (p e^{-iθ}) ≥ 1 - ε²/2` of the unit disk lies in the ellipse about `(1 - ε²/3) e^{iθ}` with the
semi-axes `ε²/3` and `2/√3 ε √(1 - ε²/4)`, which touches it in three points: at the two corners and in the
middle of the arc. There is nothing to spare, and what is computed for the ellipse need not contain the
slice; it is compared with the exact one instead.
-/
import CliffordT.Proofs.Plane.Axes

namespace CliffordT

open BinFloat

/-! ## The exact ellipses of the problem -/

namespace ExactEllipse

noncomputable def slice (ε θ : ℝ) : ExactEllipse where
  form := Form.ofAxes ((3 / ε ^ 2) ^ 2) (3 / (ε ^ 2 * (4 - ε ^ 2))) θ
  center := ![(1 - ε ^ 2 / 3) * Real.cos θ, (1 - ε ^ 2 / 3) * Real.sin θ]

noncomputable def disk : ExactEllipse where
  form := ⟨1, 0, 1⟩
  center := ![0, 0]

theorem isPos_disk : disk.form.IsPos where
  p_pos := one_pos
  q_pos := one_pos
  det_pos := by
    show (0 : ℝ) < 1 * 1 - 0 ^ 2
    norm_num

theorem contains_disk {v : Fin 2 → ℝ} (hnorm : v 0 ^ 2 + v 1 ^ 2 ≤ 1) : disk.Contains v := by
  show 1 * (v 0 - 0) ^ 2 + 2 * 0 * (v 0 - 0) * (v 1 - 0) + 1 * (v 1 - 0) ^ 2 ≤ 1
  linarith

section Slice

variable {ε : ℝ} (hε : 0 < ε) (hε1 : ε ≤ 1) (θ : ℝ)
include hε hε1

/-- The eigenvalues of the form, and their ratio. -/
theorem slice_eigenvalues : 0 < 3 / (ε ^ 2 * (4 - ε ^ 2)) ∧
    3 / (ε ^ 2 * (4 - ε ^ 2)) ≤ (3 / ε ^ 2) ^ 2 ∧
    (3 / ε ^ 2) ^ 2 / (3 / (ε ^ 2 * (4 - ε ^ 2))) ≤ 12 / ε ^ 2 := by
  have hε2 : ε ^ 2 ≤ 1 := pow_le_one₀ hε.le hε1
  have hε0 : 0 < ε ^ 2 := by positivity
  have hden : 0 < ε ^ 2 * (4 - ε ^ 2) := mul_pos hε0 (by linarith)
  refine ⟨by positivity, ?_, ?_⟩
  · have hle : 3 / (ε ^ 2 * (4 - ε ^ 2)) ≤ 3 / ε ^ 2 := by
      refine div_le_div_of_nonneg_left (by norm_num) hε0 ?_
      nlinarith
    have hone : 1 ≤ 3 / ε ^ 2 := by
      rw [le_div_iff₀ hε0]
      linarith
    exact hle.trans (le_self_pow₀ hone two_ne_zero)
  · have hratio : (3 / ε ^ 2) ^ 2 / (3 / (ε ^ 2 * (4 - ε ^ 2))) = 3 * (4 - ε ^ 2) / ε ^ 2 := by
      field_simp
    rw [hratio, div_le_div_iff_of_pos_right hε0]
    linarith

theorem isPos_slice : (slice ε θ).form.IsPos :=
  Form.isPos_ofAxes θ (slice_eigenvalues hε hε1).1 (slice_eigenvalues hε hε1).2.1

/-- The size of the form, against its determinant. -/
theorem size_sq_slice_le : (slice ε θ).form.size ^ 2 ≤ 12 / ε ^ 2 * (slice ε θ).form.det := by
  obtain ⟨hQ, hQP, hratio⟩ := slice_eigenvalues hε hε1
  exact (Form.size_sq_ofAxes_le θ hQ hQP).trans
    (mul_le_mul_of_nonneg_right hratio (isPos_slice hε hε1 θ).det_pos.le)

omit hε hε1 in
/-- The value at a point, from its distances along the direction and across it. -/
theorem eval_slice_sub (v : Fin 2 → ℝ) :
    (slice ε θ).form.eval (v 0 - (slice ε θ).center 0) (v 1 - (slice ε θ).center 1)
      = (3 / ε ^ 2) ^ 2 * (v 0 * Real.cos θ + v 1 * Real.sin θ - (1 - ε ^ 2 / 3)) ^ 2
        + 3 / (ε ^ 2 * (4 - ε ^ 2)) * (v 1 * Real.cos θ - v 0 * Real.sin θ) ^ 2 := by
  have hcs := Real.sin_sq_add_cos_sq θ
  have halong : (v 0 - (1 - ε ^ 2 / 3) * Real.cos θ) * Real.cos θ
      + (v 1 - (1 - ε ^ 2 / 3) * Real.sin θ) * Real.sin θ
      = v 0 * Real.cos θ + v 1 * Real.sin θ - (1 - ε ^ 2 / 3) := by
    linear_combination -(1 - ε ^ 2 / 3) * hcs
  have hacross : (v 1 - (1 - ε ^ 2 / 3) * Real.sin θ) * Real.cos θ
      - (v 0 - (1 - ε ^ 2 / 3) * Real.cos θ) * Real.sin θ = v 1 * Real.cos θ - v 0 * Real.sin θ := by
    ring
  show (Form.ofAxes _ _ θ).eval (v 0 - (1 - ε ^ 2 / 3) * Real.cos θ)
    (v 1 - (1 - ε ^ 2 / 3) * Real.sin θ) = _
  rw [Form.eval_ofAxes, halong, hacross]

omit θ in
/-- On the circle the value is one at the ends of the arc and in the middle, and less in between. -/
theorem slice_arc (x : ℝ) :
    (3 / ε ^ 2) ^ 2 * (x - (1 - ε ^ 2 / 3)) ^ 2 + 3 / (ε ^ 2 * (4 - ε ^ 2)) * (1 - x ^ 2)
      = 1 - ((3 / ε ^ 2) ^ 2 - 3 / (ε ^ 2 * (4 - ε ^ 2))) * ((1 - x) * (x - (1 - ε ^ 2 / 2))) := by
  have hε2 : ε ^ 2 ≤ 1 := pow_le_one₀ hε.le hε1
  have h4 : 4 - ε ^ 2 ≠ 0 := by linarith
  field_simp
  ring

/-- **The slice is in its ellipse**, which touches it at the two corners and in the middle of the arc. -/
theorem contains_slice {v : Fin 2 → ℝ} (hv : 1 - ε ^ 2 / 2 ≤ v 0 * Real.cos θ + v 1 * Real.sin θ)
    (hnorm : v 0 ^ 2 + v 1 ^ 2 ≤ 1) : (slice ε θ).Contains v := by
  obtain ⟨hQ, hQP, -⟩ := slice_eigenvalues hε hε1
  have hrot := Form.rotation_sq θ (v 0) (v 1)
  unfold Contains
  rw [eval_slice_sub]
  generalize v 0 * Real.cos θ + v 1 * Real.sin θ = x at hv hrot ⊢
  generalize v 1 * Real.cos θ - v 0 * Real.sin θ = y at hrot ⊢
  have harc := slice_arc hε hε1 x
  have hx1 : x ≤ 1 := (abs_le_of_sq_le_sq' (by linarith [sq_nonneg y]) zero_le_one).2
  have hprod := mul_nonneg (sub_nonneg.2 hQP)
    (mul_nonneg (sub_nonneg.2 hx1) (sub_nonneg.2 hv))
  have hy := mul_le_mul_of_nonneg_left (by linarith : y ^ 2 ≤ 1 - x ^ 2) hQ.le
  linarith

/-- The ellipse has nothing to spare in the middle of the arc and at the two corners. -/
theorem eval_slice_eq_one {v : Fin 2 → ℝ} (hnorm : v 0 ^ 2 + v 1 ^ 2 = 1)
    (hv : v 0 * Real.cos θ + v 1 * Real.sin θ = 1 ∨
      v 0 * Real.cos θ + v 1 * Real.sin θ = 1 - ε ^ 2 / 2) :
    (slice ε θ).form.eval (v 0 - (slice ε θ).center 0) (v 1 - (slice ε θ).center 1) = 1 := by
  have hrot := Form.rotation_sq θ (v 0) (v 1)
  rw [eval_slice_sub]
  generalize v 0 * Real.cos θ + v 1 * Real.sin θ = x at hv hrot ⊢
  generalize v 1 * Real.cos θ - v 0 * Real.sin θ = y at hrot ⊢
  have harc := slice_arc hε hε1 x
  have hend : (1 - x) * (x - (1 - ε ^ 2 / 2)) = 0 := by
    rcases hv with h | h
    · rw [h, sub_self, zero_mul]
    · rw [h, sub_self, mul_zero]
  have hy : y ^ 2 = 1 - x ^ 2 := by linarith
  rw [hy, harc, hend, mul_zero, sub_zero]

/-- The center is in the disk, and so are its coordinates. -/
theorem abs_center_slice_le (i : Fin 2) : |(slice ε θ).center i| ≤ 1 := by
  have hε2 : ε ^ 2 ≤ 1 := pow_le_one₀ hε.le hε1
  have hr : |1 - ε ^ 2 / 3| ≤ 1 := abs_le.2 ⟨by linarith, by linarith [sq_nonneg ε]⟩
  have hcoord {t : ℝ} (ht : |t| ≤ 1) : |(1 - ε ^ 2 / 3) * t| ≤ 1 := by
    rw [abs_mul]
    exact mul_le_one₀ hr (abs_nonneg t) ht
  fin_cases i
  · exact hcoord (Real.abs_cos_le_one θ)
  · exact hcoord (Real.abs_sin_le_one θ)

/-- The offset of the center. -/
theorem offset_slice_le : (slice ε θ).offset ≤ 3 / ε ^ 2 := by
  have hε2 : ε ^ 2 ≤ 1 := pow_le_one₀ hε.le hε1
  have hcs := Real.sin_sq_add_cos_sq θ
  have hvalue : (slice ε θ).form.eval ((slice ε θ).center 0) ((slice ε θ).center 1)
      = (3 / ε ^ 2) ^ 2 * (1 - ε ^ 2 / 3) ^ 2 := by
    show (Form.ofAxes _ _ θ).eval ((1 - ε ^ 2 / 3) * Real.cos θ) ((1 - ε ^ 2 / 3) * Real.sin θ) = _
    rw [Form.eval_ofAxes]
    linear_combination (3 / ε ^ 2) ^ 2 * (1 - ε ^ 2 / 3) ^ 2
      * (Real.sin θ ^ 2 + Real.cos θ ^ 2 + 1) * hcs
  unfold offset Form.norm
  rw [hvalue, ← mul_pow]
  refine Real.sqrt_le_iff.2 ⟨by positivity, ?_⟩
  refine pow_le_pow_left₀ (mul_nonneg (by positivity) (by linarith)) ?_ 2
  exact mul_le_of_le_one_right (by positivity) (by linarith [sq_nonneg ε])

omit θ in
/-- The square of the larger semi-axis. -/
theorem sq_semiMajor : (2 / √3 * ε * √(1 - ε ^ 2 / 4)) ^ 2 = ε ^ 2 * (4 - ε ^ 2) / 3 := by
  have hε2 : ε ^ 2 ≤ 1 := pow_le_one₀ hε.le hε1
  rw [mul_pow, mul_pow, div_pow, Real.sq_sqrt (by norm_num), Real.sq_sqrt (by linarith)]
  ring

omit θ in
theorem semiMinor_le_semiMajor : ε ^ 2 / 3 ≤ 2 / √3 * ε * √(1 - ε ^ 2 / 4) := by
  have hε2 : ε ^ 2 ≤ 1 := pow_le_one₀ hε.le hε1
  refine (abs_le_of_sq_le_sq' ?_ (by positivity)).2
  rw [sq_semiMajor hε hε1]
  nlinarith [sq_nonneg ε]

/-- The form from its semi-axes. -/
theorem ofAxes_semiAxes : Form.ofAxes (1 / (ε ^ 2 / 3) ^ 2) (1 / (2 / √3 * ε * √(1 - ε ^ 2 / 4)) ^ 2) θ
    = (slice ε θ).form := by
  have hminor : (ε ^ 2 / 3) ^ 2 = 1 / (3 / ε ^ 2) ^ 2 := by
    field_simp
  rw [sq_semiMajor hε hε1, hminor, one_div_one_div, one_div_div]
  rfl

omit θ in
/-- The ratio of the eigenvalues, from the semi-axes. -/
theorem semiAxes_ratio_le : (2 / √3 * ε * √(1 - ε ^ 2 / 4)) ^ 2 / (ε ^ 2 / 3) ^ 2 ≤ 12 / ε ^ 2 := by
  have hvalue : ε ^ 2 * (4 - ε ^ 2) / 3 / (ε ^ 2 / 3) ^ 2
      = (3 / ε ^ 2) ^ 2 / (3 / (ε ^ 2 * (4 - ε ^ 2))) := by
    field_simp
  rw [sq_semiMajor hε hε1, hvalue]
  exact (slice_eigenvalues hε hε1).2.2

end Slice

end ExactEllipse

namespace Ellipse

/-! ## The computed ellipses -/

/-- A difference whose second part is at most half of the first one. -/
theorem value_sub_within_of_le_half {p : ℕ} {x y : BinFloat} {v w : ℝ} (hu : 2 * roundoff p ≤ 1)
    (hx : p ≤ x.prec) (hxv : x.value = v) (hv : 0 < v) (hy : |y.value - w| ≤ 2 * roundoff p * (v / 2))
    (hwv : w ≤ v / 2) : Within (6 * roundoff p) (x - y).value (v - w) := by
  have hu0 := roundoff_pos p
  have hround := value_sub_within (x := x) (y := y) (p := p) (hx.trans (le_max_left _ _))
  have hexact : Within (2 * roundoff p) (x.value - y.value) (v - w) := by
    unfold Within
    have hsplit : x.value - y.value - (v - w) = -(y.value - w) := by
      rw [hxv]
      ring
    rw [hsplit, abs_neg, abs_of_nonneg (by linarith : 0 ≤ v - w)]
    exact hy.trans (mul_le_mul_of_nonneg_left (by linarith) (by linarith))
  exact (hround.trans (by linarith) hu hexact).mono (by linarith)

section Problem

variable {c : Constants} {theta eps : BinFloat} {ε : ℝ}

section Axes

variable (hp : 64 ≤ c.prec) (heps : c.prec ≤ eps.prec) (hε : eps.value = ε)
include hp

/-- A small integer at the working precision. -/
theorem value_int_of_small {n : ℤ} (hn : bitLength n ≤ 2) : (c.int n).value = n :=
  value_ofInt_of_fits (hn.trans (by omega))

/-- A third of a computed number. -/
theorem div_three_within {x : BinFloat} {v e : ℝ} (hx : c.prec ≤ x.prec) (he : e ≤ 1)
    (h : Within e x.value v) : Within (e + 4 * roundoff c.prec) (x / c.int 3).value (v / 3) := by
  have h3 : Within 0 (c.int 3).value 3 := by
    rw [value_int_of_small hp (by decide)]
    exact_mod_cast Within.refl le_rfl (3 : ℝ)
  exact (value_div_of_within (hx.trans (le_max_left _ _)) three_ne_zero le_rfl (by norm_num)
    (by linarith) h h3).2.mono (by linarith)

omit hp in
include heps hε in
theorem eps_sq_within : Within (2 * roundoff c.prec) (eps * eps).value (ε ^ 2) := by
  have heps0 : Within 0 eps.value ε := hε ▸ .refl le_rfl _
  rw [sq]
  exact (value_mul_of_within (heps.trans (le_max_left _ _)) le_rfl (by norm_num) heps0 heps0).mono
    (by linarith)

include heps hε

/-- The computed smaller semi-axis of the ellipse around the slice. -/
theorem semiMinor_within : Within (50 * roundoff c.prec) (eps * eps / c.int 3).value (ε ^ 2 / 3) := by
  have hu := roundoff_pos c.prec
  have hu1 : roundoff c.prec ≤ 1 / 2 ^ 64 := (roundoff_anti hp).trans (roundoff_eq 64).le
  exact (div_three_within hp (by simp [heps]) (by linarith) (eps_sq_within heps hε)).mono (by linarith)

variable (hε0 : 0 < ε) (hε1 : ε ≤ 1)
include hε0 hε1

/-- The computed distance of the center from the origin. -/
theorem radius_within :
    Within (50 * roundoff c.prec) ((c.int 3 - eps * eps) / c.int 3).value (1 - ε ^ 2 / 3) := by
  have hu := roundoff_pos c.prec
  have hu1 : roundoff c.prec ≤ 1 / 2 ^ 64 := (roundoff_anti hp).trans (roundoff_eq 64).le
  have hε2 : ε ^ 2 ≤ 1 := pow_le_one₀ hε0.le hε1
  have hprec3 : c.prec ≤ (c.int 3).prec := (prec_ofInt _ _).ge
  have h3 : (c.int 3).value = 3 := by exact_mod_cast value_int_of_small hp (n := 3) (by decide)
  have hsq := (eps_sq_within heps hε).sub_le
  rw [abs_of_nonneg (sq_nonneg ε)] at hsq
  have hsmall := mul_le_mul_of_nonneg_left hε2 (by linarith : 0 ≤ 2 * roundoff c.prec)
  have hrest : Within (6 * roundoff c.prec) (c.int 3 - eps * eps).value (3 - ε ^ 2) :=
    value_sub_within_of_le_half (by linarith) hprec3 h3 (by norm_num) (by linarith) (by linarith)
  have hthird := div_three_within hp (by
    rw [prec_sub]
    exact hprec3.trans (le_max_left _ _)) (by linarith) hrest
  rw [sub_div, div_self three_ne_zero] at hthird
  exact hthird.mono (by linarith)

/-- What is computed under the root of the larger semi-axis. -/
theorem chord_within :
    Within (6 * roundoff c.prec) (c.one - (eps * eps).scaleTwo (-2)).value (1 - ε ^ 2 / 4) := by
  have hu := roundoff_pos c.prec
  have hu1 : roundoff c.prec ≤ 1 / 2 ^ 64 := (roundoff_anti hp).trans (roundoff_eq 64).le
  have hε2 : ε ^ 2 ≤ 1 := pow_le_one₀ hε0.le hε1
  have hsq := (eps_sq_within heps hε).sub_le
  rw [abs_of_nonneg (sq_nonneg ε)] at hsq
  have hsmall := mul_le_mul_of_nonneg_left hε2 (by linarith : 0 ≤ 2 * roundoff c.prec)
  have hquarter : ((eps * eps).scaleTwo (-2)).value = (eps * eps).value / 4 := by
    rw [value_scaleTwo]
    norm_num
    ring
  refine value_sub_within_of_le_half (by linarith) (le_refl c.prec) (value_one _) one_pos ?_ (by linarith)
  rw [hquarter, ← sub_div, abs_div, abs_of_pos (by norm_num : (0 : ℝ) < 4)]
  linarith

/-- The computed larger semi-axis. -/
theorem semiMajor_within :
    Within (50 * roundoff c.prec) (c.int 2 / (c.int 3).sqrt * eps
      * (c.one - (eps * eps).scaleTwo (-2)).sqrt).value (2 / √3 * ε * √(1 - ε ^ 2 / 4)) := by
  have hu := roundoff_pos c.prec
  have hu1 : roundoff c.prec ≤ 1 / 2 ^ 64 := (roundoff_anti hp).trans (roundoff_eq 64).le
  have hε2 : ε ^ 2 ≤ 1 := pow_le_one₀ hε0.le hε1
  have hexact {x : BinFloat} {v : ℝ} (h : x.value = v) : Within 0 x.value v := h ▸ .refl le_rfl _
  have h2 : (c.int 2).value = 2 := by exact_mod_cast value_int_of_small hp (n := 2) (by decide)
  have h3 : (c.int 3).value = 3 := by exact_mod_cast value_int_of_small hp (n := 3) (by decide)
  have hprecroot : c.prec ≤ (c.int 3).sqrt.prec := by
    rw [prec_sqrt]
    exact (prec_ofInt _ _).ge
  have hroot3 := value_sqrt_of_within (prec_ofInt 3 c.prec).ge three_pos (by norm_num) (hexact h3)
  have hquot := (value_div_of_within (x := c.int 2) (hprecroot.trans (le_max_right _ _))
    (by positivity : √(3 : ℝ) ≠ 0) (by linarith) (by linarith) (by linarith) (hexact h2) hroot3).2
  have hprecquot : c.prec ≤ (c.int 2 / (c.int 3).sqrt).prec := by
    rw [prec_div]
    exact hprecroot.trans (le_max_right _ _)
  have hprod := value_mul_of_within (heps.trans (le_max_right _ _)) le_rfl (by linarith) hquot (hexact hε)
  have hroot := value_sqrt_of_within (x := c.one - (eps * eps).scaleTwo (-2)) (p := c.prec)
    (by
      rw [prec_sub]
      exact le_max_left _ _) (by linarith) (by linarith) (chord_within hp heps hε hε0 hε1)
  refine (value_mul_of_within (p := c.prec) ?_ (by linarith) (by linarith) hprod hroot).mono (by linarith)
  rw [prec_mul]
  exact le_max_of_le_left (hprecquot.trans (le_max_left _ _))

/-- A computed coordinate of the center. -/
theorem abs_radius_mul_sub_le {x : BinFloat} {v : ℝ} (hx : |x.value - v| ≤ 200 * roundoff c.prec)
    (hv : |v| ≤ 1) :
    |((c.int 3 - eps * eps) / c.int 3 * x).value - (1 - ε ^ 2 / 3) * v| ≤ 600 * roundoff c.prec := by
  have hu := roundoff_pos c.prec
  have hu1 : roundoff c.prec ≤ 1 / 2 ^ 64 := (roundoff_anti hp).trans (roundoff_eq 64).le
  have hε2 : ε ^ 2 ≤ 1 := pow_le_one₀ hε0.le hε1
  have hprec : c.prec ≤ ((c.int 3 - eps * eps) / c.int 3).prec := by
    rw [prec_div, prec_sub]
    exact le_max_of_le_left ((prec_ofInt _ _).ge.trans (le_max_left _ _))
  have hradius : Close (50 * roundoff c.prec) 1 ((c.int 3 - eps * eps) / c.int 3).value (1 - ε ^ 2 / 3) :=
    (Close.of_within (radius_within hp heps hε hε0 hε1)).widen (by linarith)
      (abs_le.2 ⟨by linarith, by linarith [sq_nonneg ε]⟩)
  have hmul := Close.value_mul (p := c.prec) (hprec.trans (le_max_left _ _)) (by linarith)
    (by linarith) (by linarith) (by linarith) hradius ⟨hv, hx.trans (mul_one _).ge⟩
  exact hmul.sub_le.trans (by linarith)

end Axes

/-- What is computed for an exact ellipse: a matrix whose form is off by a part `η`, and a center that is
off by `δ` in both coordinates. -/
structure Renders (p : ℕ) (η δ : ℝ) (E : Ellipse) (X : ExactEllipse) : Prop where
  prec : E.form.HasPrec p
  near : E.form.Near η 0 X.form
  abs_x_sub_le : |E.center.x.value - X.center 0| ≤ δ
  abs_y_sub_le : |E.center.y.value - X.center 1| ≤ δ

/-- **The ellipse around the slice**, as it is computed. -/
theorem exists_epsilonRegion (hp : 64 ≤ c.prec) (htheta : c.prec ≤ theta.prec) (hrange : theta.InRange)
    (heps : c.prec ≤ eps.prec) (hε : eps.value = ε) (hε0 : 0 < ε) (hε1 : ε ≤ 1) :
    ∃ E, epsilonRegion theta eps c = .ok E ∧
      E.Renders c.prec (120000 * roundoff c.prec / ε ^ 2) (600 * roundoff c.prec)
        (.slice ε theta.value) := by
  have hu := roundoff_pos c.prec
  obtain ⟨sin, cos, htrig, -, -, hsin, hcos⟩ := sinCos_spec (hp.trans htheta) hrange
  have hanti := mul_le_mul_of_nonneg_left (roundoff_anti htheta) (by norm_num : (0 : ℝ) ≤ 200)
  have hx := abs_radius_mul_sub_le hp heps hε hε0 hε1 (hcos.trans hanti) (Real.abs_cos_le_one _)
  have hy := abs_radius_mul_sub_le hp heps hε hε0 hε1 (hsin.trans hanti) (Real.abs_sin_le_one _)
  obtain ⟨E, hE, hcenter, hprec, hnear⟩ := exists_ofAxes (c := c)
    ⟨(c.int 3 - eps * eps) / c.int 3 * cos, (c.int 3 - eps * eps) / c.int 3 * sin⟩ hp htheta hrange (by positivity)
    (ExactEllipse.semiMinor_le_semiMajor hε0 hε1)
    (by
      rw [prec_mul, prec_mul]
      exact le_max_of_le_left (heps.trans (le_max_right _ _)))
    (by
      rw [prec_div]
      exact le_max_of_le_left (by simp [heps]))
    (semiMajor_within hp heps hε hε0 hε1) (semiMinor_within hp heps hε)
  rw [ExactEllipse.ofAxes_semiAxes hε0 hε1] at hnear
  have hregion : epsilonRegion theta eps c = .ok E := by
    unfold epsilonRegion
    rw [htrig]
    exact hE
  refine ⟨E, hregion, hprec, hnear.mono (ExactEllipse.isPos_slice hε0 hε1 _) ?_ le_rfl, ?_, ?_⟩
  · calc 10000 * roundoff c.prec * ((2 / √3 * ε * √(1 - ε ^ 2 / 4)) ^ 2 / (ε ^ 2 / 3) ^ 2)
        ≤ 10000 * roundoff c.prec * (12 / ε ^ 2) :=
          mul_le_mul_of_nonneg_left (ExactEllipse.semiAxes_ratio_le hε0 hε1) (by linarith)
      _ = 120000 * roundoff c.prec / ε ^ 2 := by ring
  all_goals
    rw [hcenter]
    assumption

/-- **The unit disk**, as it is computed. -/
theorem exists_unitDisk (hp : 64 ≤ c.prec) (hprec : c.prec + 32 < 2 ^ 32) :
    ∃ E, unitDisk c = .ok E ∧ E.Renders c.prec (120000 * roundoff c.prec) 0 .disk := by
  have hu := roundoff_pos c.prec
  have hrange : c.zero.InRange := hprec
  have hone : Within (50 * roundoff c.prec) c.one.value 1 := by
    show Within _ (BinFloat.one c.prec).value 1
    rw [value_one]
    exact .refl (by linarith) 1
  have hzero : (BinFloat.zero c.prec).value = 0 := value_zero _
  obtain ⟨E, hE, hcenter, hform, hnear⟩ := exists_ofAxes (c := c) (Vec2.zero c.prec) hp
    (le_refl c.prec) hrange one_pos le_rfl (le_refl c.prec) (le_refl c.prec) hone hone
  have hdisk (θ : ℝ) : Form.ofAxes (1 / 1 ^ 2) (1 / 1 ^ 2) θ = ExactEllipse.disk.form := by
    ext
    · simp [Form.ofAxes, ExactEllipse.disk]
    · simp [Form.ofAxes, ExactEllipse.disk]
    · simp [Form.ofAxes, ExactEllipse.disk]
  rw [hdisk] at hnear
  refine ⟨E, hE, hform, hnear.mono ExactEllipse.isPos_disk (by linarith) le_rfl, ?_, ?_⟩
  all_goals rw [hcenter]
  · show |(BinFloat.zero c.prec).value - 0| ≤ 0
    rw [hzero, sub_zero, abs_zero]
  · show |(BinFloat.zero c.prec).value - 0| ≤ 0
    rw [hzero, sub_zero, abs_zero]

end Problem

end Ellipse

end CliffordT
