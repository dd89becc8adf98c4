/-
The computed exponent of an ellipse, next to that of its exact form.

A relative error of the diagonal entries is an absolute error of the logarithm of their ratio. What the
logarithm and the division by that of `λ` add is in proportion to the exponent itself.
-/
import CliffordT.Proofs.Plane.Preimage

namespace CliffordT

open BinFloat

namespace Form

variable {F : Form}

/-- The logarithm of the ratio of the diagonal entries. -/
theorem log_ratio_eq (F : Form) : Real.log (F.q / F.p) = F.z * (2 * Real.log lambdaReal) := by
  have hlog := log_lambdaReal_bounds
  rw [z, div_mul_cancel₀]
  linarith

end Form

namespace Ellipse

variable {c : Constants} {p : Nat} {η a H : ℝ} {E : Ellipse} {F : Form}

/-- The computed ratio of the diagonal entries. -/
theorem ratio_within (hF : F.IsPos) (h : E.form.Near η a F) (hprec : E.form.HasPrec p) (hη : 0 ≤ η)
    (hη' : η ≤ 1 / 100) :
    E.form.m00.value ≠ 0 ∧
      Within (5 * η + 4 * roundoff p) (E.form.m11 / E.form.m00).value (F.q / F.p) := by
  have hu := roundoff_pos p
  have h00 := h.m00_within hF
  have h11 := h.m11_within hF
  have hne : E.form.m00.value ≠ 0 := h00.ne_zero (by linarith) hF.p_pos.ne'
  have hround := value_div_within (x := E.form.m11) (y := E.form.m00) (p := p)
    (hprec.m11.trans (le_max_left _ _)) hne
  have hdiv := h11.div hη (by linarith) (by linarith) h00
  exact ⟨hne, (hround.trans (by linarith) (by linarith) hdiv).mono (by linarith)⟩

theorem prec_ratio (hprec : E.form.HasPrec p) : p ≤ (E.form.m11 / E.form.m00).prec := by
  rw [prec_div]
  exact hprec.m11.trans (le_max_left _ _)

/-- The exponent, where the ratio of the diagonal entries has a logarithm. -/
theorem z_eq (hne : E.form.m00.value ≠ 0) (hpos : 0 < (E.form.m11 / E.form.m00).value) :
    E.z c = (E.form.m11 / E.form.m00).ln.scaleTwo (-1) / c.logLambda := by
  have hpositive : (E.form.m11 / E.form.m00).isPositive = true := by
    unfold isPositive
    rw [decide_eq_true_iff]
    have hmant := pos_of_mul_pos_left hpos (two_zpow_pos (E.form.m11 / E.form.m00).exp).le
    exact_mod_cast hmant
  unfold z
  rw [div?_eq_some hne, Option.bind_some, ln?, if_pos hpositive]

/-- The computed logarithm of the ratio. -/
theorem abs_ln_ratio_sub_le (hF : F.IsPos) (h : E.form.Near η a F) (hprec : E.form.HasPrec p) (hη : 0 ≤ η)
    (hη' : η ≤ 1 / 100) (hp2 : 2 ≤ p) (hp32 : p < 2 ^ 32) (hu1 : roundoff p ≤ 1 / 2000) :
    0 < (E.form.m11 / E.form.m00).value ∧
      |(E.form.m11 / E.form.m00).ln.value - F.z * (2 * Real.log lambdaReal)|
        ≤ 10 * η + 270 * (roundoff p * |F.z| + roundoff p) := by
  have hu := roundoff_pos p
  have hlog := log_lambdaReal_bounds
  have hz0 := abs_nonneg F.z
  have hrprec := prec_ratio hprec
  have hratio := (ratio_within hF h hprec hη hη').2
  generalize E.form.m11 / E.form.m00 = r at hratio hrprec
  obtain ⟨hrpos, hrlog⟩ := abs_log_sub_le_of_within (div_pos hF.q_pos hF.p_pos) (by linarith) hratio
  refine ⟨hrpos, ?_⟩
  have hrln := ln_within_of_prec hrpos hrprec hp2 hp32
  rw [F.log_ratio_eq] at hrlog
  generalize Real.log lambdaReal = L at hlog hrlog
  have hzL : |F.z * (2 * L)| ≤ |F.z| * 1.78 := by
    rw [abs_mul, abs_of_pos (by linarith : 0 < 2 * L)]
    exact mul_le_mul_of_nonneg_left (by linarith) hz0
  have hmax : max 1 |Real.log r.value| ≤ 1.78 * |F.z| + 2 := by
    refine max_le (by linarith) ?_
    linarith [abs_sub_abs_le_abs_sub (Real.log r.value) (F.z * (2 * L))]
  have htri := abs_sub_le r.ln.value (Real.log r.value) (F.z * (2 * L))
  have hmul := mul_le_mul_of_nonneg_left hmax (by linarith : 0 ≤ 130 * roundoff p)
  linarith [mul_nonneg hu.le hz0]

/-- An error of the logarithm, in units of the logarithm of `λ²`. -/
theorem abs_half_div_sub_le {t z e L : ℝ} (hL : 0.86 < L) (h : |t - z * (2 * L)| ≤ e) :
    |t / 2 / L - z| ≤ 59 / 100 * e := by
  have he : 0 ≤ e := (abs_nonneg _).trans h
  have hsplit : t / 2 / L - z = (t - z * (2 * L)) / (2 * L) := by
    rw [sub_div, mul_div_cancel_right₀ _ (by linarith), div_div]
  rw [hsplit, abs_div, abs_of_pos (by linarith : 0 < 2 * L), div_le_iff₀ (by linarith)]
  have hunit := mul_le_mul_of_nonneg_left (by linarith : 1 ≤ 59 / 100 * (2 * L)) he
  linarith

/-- **The computed exponent** is off by the error of the matrix and by rounding. -/
theorem abs_z_sub_le (hc : c.AccurateUnits) (hF : F.IsPos) (h : E.form.Near η a F)
    (hprec : E.form.HasPrec c.prec) (hη : 0 ≤ η) (hη' : η ≤ 1 / 100)
    (hsmall : 1000 * roundoff c.prec * (|F.z| + 1) ≤ 1 / 2) :
    |(E.z c).value - F.z| ≤ 6 * η + 1000 * roundoff c.prec * (|F.z| + 1) := by
  have hu := roundoff_pos c.prec
  have hlog := log_lambdaReal_bounds.1
  have huz : 0 ≤ roundoff c.prec * |F.z| := mul_nonneg hu.le (abs_nonneg F.z)
  have hu1 : roundoff c.prec ≤ 1 / 2000 := by linarith
  have hprec2 : 2 ≤ c.prec := by
    by_contra hlt
    have hanti := roundoff_anti (by omega : c.prec ≤ 1)
    rw [roundoff_eq 1] at hanti
    linarith
  obtain ⟨hrpos, hln⟩ := abs_ln_ratio_sub_le hF h hprec hη hη' hprec2 hc.prec_lt hu1
  rw [z_eq (ratio_within hF h hprec hη hη').1 hrpos]
  have hlogLambda := hc.logLambda
  have hLne : c.logLambda.value ≠ 0 := hlogLambda.ne_zero (by linarith) (by linarith)
  have hround := value_div_within (x := (E.form.m11 / E.form.m00).ln.scaleTwo (-1)) (y := c.logLambda)
    (p := c.prec) (hc.prec_logLambda.ge.trans (le_max_right _ _)) hLne
  rw [value_scaleTwo, zpow_neg_one, ← div_eq_mul_inv] at hround
  generalize (E.form.m11 / E.form.m00).ln.scaleTwo (-1) / c.logLambda = d at hround ⊢
  generalize (E.form.m11 / E.form.m00).ln.value = t at hround hln
  generalize Real.log lambdaReal = L at hlog hln hlogLambda
  have hquot := abs_half_div_sub_le hlog hln
  have hdiv := (Within.refl (le_refl 0) (t / 2)).div (by linarith) (by linarith) zero_le_one hlogLambda
  have hfinal := (hround.trans (by linarith) (by linarith) hdiv).sub_le
  have hquotabs : |t / 2 / L| ≤ |F.z| + 1 := by
    linarith [abs_sub_abs_le_abs_sub (t / 2 / L) F.z]
  have hmul := mul_le_mul_of_nonneg_left hquotabs
    (by linarith : 0 ≤ 0 + 4 * (200 * roundoff c.prec) + 2 * (2 * roundoff c.prec))
  have htri := abs_sub_le d.value (t / 2 / L) F.z
  linarith

end Ellipse

end CliffordT
