/-
Ellipses scaled about the origin, and their bounding boxes.

Scaling by `s` divides the form by `s²` and keeps the offset of the center. In the scale in which the
determinant of the form is about one, what is computed for an exact ellipse follows it in the sense of the
reductions; and what follows an exact ellipse there renders the one at the old scale when it is scaled back.
The normalizer is a computed number, but whatever its value is, it is the same in both directions.
-/
import CliffordT.Proofs.Plane.Slice

namespace CliffordT

open BinFloat

/-! ## Multiples of forms -/

namespace Form

instance : SMul ℝ Form := ⟨fun t F => ⟨t * F.p, t * F.b, t * F.q⟩⟩

section Multiple

variable (t s : ℝ) (F : Form)

@[simp] theorem smul_p : (t • F).p = t * F.p := rfl

@[simp] theorem smul_b : (t • F).b = t * F.b := rfl

@[simp] theorem smul_q : (t • F).q = t * F.q := rfl

@[simp] theorem eval_smul (x y : ℝ) : (t • F).eval x y = t * F.eval x y := by
  simp only [eval, smul_p, smul_b, smul_q]
  ring

@[simp] theorem det_smul : (t • F).det = t ^ 2 * F.det := by
  simp only [det, smul_p, smul_b, smul_q]
  ring

theorem smul_smul : t • s • F = (t * s) • F := by
  ext
  all_goals
    simp only [smul_p, smul_b, smul_q]
    ring

theorem pull_smul (R : Matrix (Fin 2) (Fin 2) ℝ) : (t • F).pull R = t • F.pull R := by
  ext
  all_goals
    simp only [pull, eval, smul_p, smul_b, smul_q]
    ring

variable {t F} (ht : 0 < t)
include ht

theorem IsPos.smul (h : F.IsPos) : (t • F).IsPos where
  p_pos := mul_pos ht h.p_pos
  q_pos := mul_pos ht h.q_pos
  det_pos := by
    rw [det_smul]
    have := h.det_pos
    positivity

theorem size_smul : (t • F).size = t * F.size := by
  have hsplit : t * F.p * (t * F.q) = t ^ 2 * (F.p * F.q) := by ring
  unfold size
  rw [smul_p, smul_q, hsplit, Real.sqrt_mul (sq_nonneg t), Real.sqrt_sq ht.le]

theorem z_smul : (t • F).z = F.z := by
  unfold z
  rw [smul_p, smul_q, mul_div_mul_left _ _ ht.ne']

/-- The norm of the form is scaled by the square root. -/
theorem norm_smul_sq (x y : ℝ) : (t ^ 2 • F).norm x y = t * F.norm x y := by
  unfold norm
  rw [eval_smul, Real.sqrt_mul (sq_nonneg t), Real.sqrt_sq ht.le]

theorem norm_mul (x y : ℝ) : F.norm (t * x) (t * y) = t * F.norm x y := by
  have heval : F.eval (t * x) (t * y) = t ^ 2 * F.eval x y := by
    simp only [eval]
    ring
  unfold norm
  rw [heval, Real.sqrt_mul (sq_nonneg t), Real.sqrt_sq ht.le]

/-- The bound of the size against the determinant is that of the form. -/
theorem size_sq_smul_le {K : ℝ} (h : F.size ^ 2 ≤ K * F.det) : (t • F).size ^ 2 ≤ K * (t • F).det := by
  rw [size_smul ht, det_smul, mul_pow]
  have := mul_le_mul_of_nonneg_left h (sq_nonneg t)
  linarith

theorem sqrt_det_smul : √(t • F).det = t * √F.det := by
  rw [det_smul, Real.sqrt_mul (sq_nonneg t), Real.sqrt_sq ht.le]

end Multiple

/-- A form below a multiple of the squared length has a norm below the sum of the coordinates. -/
theorem norm_le_mul_abs_add {F : Form} {Γ : ℝ} (h : ∀ x y, F.eval x y ≤ Γ ^ 2 * (x ^ 2 + y ^ 2)) (hΓ : 0 ≤ Γ)
    (x y : ℝ) : F.norm x y ≤ Γ * (|x| + |y|) := by
  refine Real.sqrt_le_iff.2 ⟨by positivity, (h x y).trans ?_⟩
  rw [mul_pow]
  refine mul_le_mul_of_nonneg_left ?_ (sq_nonneg Γ)
  have hxy := mul_nonneg (abs_nonneg x) (abs_nonneg y)
  rw [add_sq, sq_abs, sq_abs]
  linarith

end Form

namespace ExactEllipse

noncomputable def scale (X : ExactEllipse) (s : ℝ) : ExactEllipse where
  form := (s⁻¹ ^ 2) • X.form
  center i := s * X.center i

section Scale

variable (X : ExactEllipse) {s : ℝ} (hs : 0 < s)

@[simp] theorem scale_form (s : ℝ) : (X.scale s).form = (s⁻¹ ^ 2) • X.form := rfl

theorem scale_pull (s : ℝ) (R : Matrix (Fin 2) (Fin 2) ℝ) : (X.scale s).pull R = (X.pull R).scale s := by
  refine ExactEllipse.ext (Form.pull_smul _ _ R) ?_
  show R⁻¹.mulVec (s • X.center) = s • R⁻¹.mulVec X.center
  rw [Matrix.mulVec_smul]

include hs

theorem scale_inv_scale : (X.scale s).scale s⁻¹ = X := by
  refine ExactEllipse.ext ?_ ?_
  · show (s⁻¹⁻¹ ^ 2) • (s⁻¹ ^ 2) • X.form = X.form
    rw [Form.smul_smul, inv_inv, ← mul_pow, mul_inv_cancel₀ hs.ne', one_pow]
    ext
    all_goals simp
  · funext i
    show s⁻¹ * (s * X.center i) = X.center i
    rw [inv_mul_cancel_left₀ hs.ne']

/-- The offset is the same before and after. -/
theorem offset_scale : (X.scale s).offset = X.offset := by
  show ((s⁻¹ ^ 2) • X.form).norm (s * X.center 0) (s * X.center 1) = X.form.norm (X.center 0) (X.center 1)
  rw [Form.norm_smul_sq (inv_pos.2 hs), Form.norm_mul hs, inv_mul_cancel_left₀ hs.ne']

end Scale

end ExactEllipse

/-! ## Rounded multiples -/

/-- A rounded multiple of a matrix that is near a form. -/
theorem Mat2.Near.scale {m n : Mat2} {F : Form} {η a e ρ : ℝ} (hF : F.IsPos) (h : m.Near η a F)
    (hη : η ≤ 1 / 4) (ha : a ≤ F.size) (hρ : 0 < ρ) (he : 0 ≤ e)
    (h00 : |n.m00.value - m.m00.value * ρ| ≤ e * |m.m00.value * ρ|)
    (h01 : |n.m01.value - m.m01.value * ρ| ≤ e * |m.m01.value * ρ|)
    (h10 : |n.m10.value - m.m10.value * ρ| ≤ e * |m.m10.value * ρ|)
    (h11 : |n.m11.value - m.m11.value * ρ| ≤ e * |m.m11.value * ρ|) :
    n.Near (η + 8 * e * (F.size ^ 2 / F.det)) (ρ * (a + 4 * e * F.size)) (ρ • F) where
  eval x y := by
    have hsplit : n.evalForm x y - (ρ • F).eval x y
        = (n.m00.value - m.m00.value * ρ) * (x * x) + (n.m01.value - m.m01.value * ρ) * (x * y)
          + (n.m10.value - m.m10.value * ρ) * (x * y) + (n.m11.value - m.m11.value * ρ) * (y * y)
          + ρ * (m.evalForm x y - F.eval x y) := by
      rw [Form.eval_smul]
      unfold evalForm
      ring
    have hscale := h.bilinearScale_le hF hη ha x y x y
    have hweight := hF.weight_column_sq_le x y
    have hterm {u v : BinFloat} {r : ℝ} (hv : |v.value - u.value * ρ| ≤ e * |u.value * ρ|) :
        |(v.value - u.value * ρ) * r| ≤ e * ρ * (|u.value| * |r|) := by
      rw [abs_mul]
      refine (mul_le_mul_of_nonneg_right hv (abs_nonneg r)).trans (le_of_eq ?_)
      rw [abs_mul, abs_of_pos hρ]
      ring
    have hrest : |ρ * (m.evalForm x y - F.eval x y)| ≤ ρ * (η * F.eval x y) := by
      rw [abs_mul, abs_of_pos hρ]
      exact mul_le_mul_of_nonneg_left (h.eval x y) hρ.le
    have hsum : |m.m00.value| * |x * x| + |m.m01.value| * |x * y| + |m.m10.value| * |x * y|
        + |m.m11.value| * |y * y| ≤ 8 * (F.size ^ 2 / F.det) * F.eval x y := by
      unfold bilinearScale bilinear at hscale
      simp only [abs_mul]
      linarith
    have herror := mul_le_mul_of_nonneg_left hsum (mul_nonneg he hρ.le)
    rw [hsplit, Form.eval_smul]
    refine (abs_add_le _ _).trans ?_
    refine (add_le_add ((abs_add_le _ _).trans (add_le_add ((abs_add_le _ _).trans
      (add_le_add ((abs_add_le _ _).trans (add_le_add (hterm h00) (hterm h01))) (hterm h10)))
        (hterm h11))) hrest).trans ?_
    linarith
  asym := by
    obtain ⟨hsize01, hsize10⟩ := h.abs_off_diagonal_le hF hη ha
    rw [abs_mul, abs_of_pos hρ] at h01 h10
    have hsplit : n.m01.value - n.m10.value = (n.m01.value - m.m01.value * ρ)
        - (n.m10.value - m.m10.value * ρ) + (m.m01.value - m.m10.value) * ρ := by ring
    have hexact : |(m.m01.value - m.m10.value) * ρ| ≤ a * ρ := by
      rw [abs_mul, abs_of_pos hρ]
      exact mul_le_mul_of_nonneg_right h.asym hρ.le
    have e01 := mul_le_mul_of_nonneg_left hsize01 (mul_nonneg he hρ.le)
    have e10 := mul_le_mul_of_nonneg_left hsize10 (mul_nonneg he hρ.le)
    rw [hsplit]
    have htri₁ := abs_add_le ((n.m01.value - m.m01.value * ρ) - (n.m10.value - m.m10.value * ρ))
      ((m.m01.value - m.m10.value) * ρ)
    have htri₂ := abs_sub (n.m01.value - m.m01.value * ρ) (n.m10.value - m.m10.value * ρ)
    linarith

namespace Ellipse

section Rescale

variable {c : Constants} {E : Ellipse} {X : ExactEllipse} {F : Form} {s : BinFloat}
  {η a α δ σ ω H K Γ : ℝ}

/-- The ellipse scaled by a computed number. -/
theorem exists_rescale (hp : 64 ≤ c.prec) (hsp : c.prec ≤ s.prec) (hσ : 0 < σ)
    (hs : Within (2 * roundoff c.prec) s.value σ) (hF : F.IsPos) (hprec : E.form.HasPrec c.prec)
    (h : E.form.Near η a F) (hη : η ≤ 1 / 4) (ha : a ≤ F.size) :
    ∃ E', E.rescale s c = .ok E' ∧ E'.center = E.center.scale s ∧ E'.form.HasPrec c.prec ∧
      E'.form.Near (η + 640 * roundoff c.prec * (F.size ^ 2 / F.det))
        (σ⁻¹ ^ 2 * (a + 320 * roundoff c.prec * F.size)) ((σ⁻¹ ^ 2) • F) := by
  have hu := roundoff_pos c.prec
  have hu1 : roundoff c.prec ≤ 1 / 2 ^ 64 := (roundoff_anti hp).trans (roundoff_eq 64).le
  have hone : Within 0 c.one.value 1 := by
    show Within 0 (BinFloat.one c.prec).value 1
    rw [value_one]
    exact .refl le_rfl 1
  have hsq := value_mul_of_within (hsp.trans (le_max_left _ _)) (by linarith) (by linarith) hs hs
  have hsqprec : c.prec ≤ (s * s).prec := by simp [hsp]
  obtain ⟨hne, hdiv⟩ := value_div_of_within (x := c.one) (y := s * s) (p := c.prec)
    (hsqprec.trans (le_max_right _ _)) (mul_pos hσ hσ).ne' (by linarith) (by linarith) (by linarith)
    hone hsq
  have hr : Within (36 * roundoff c.prec) (c.one / (s * s)).value (σ⁻¹ ^ 2) := by
    have hexact : 1 / (σ * σ) = σ⁻¹ ^ 2 := by
      field_simp
    rw [hexact] at hdiv
    exact hdiv.mono (by linarith)
  have hentry {x : BinFloat} (hx : c.prec ≤ x.prec) : c.prec ≤ (x * (c.one / (s * s))).prec ∧
      |(x * (c.one / (s * s))).value - x.value * σ⁻¹ ^ 2|
        ≤ 80 * roundoff c.prec * |x.value * σ⁻¹ ^ 2| := by
    refine ⟨by simp [hx], ?_⟩
    exact ((value_mul_of_within (hx.trans (le_max_left _ _)) (by linarith) (by linarith)
      (.refl le_rfl x.value) hr).mono (by linarith)).sub_le
  obtain ⟨hp00, h00⟩ := hentry hprec.m00
  obtain ⟨hp01, h01⟩ := hentry hprec.m01
  obtain ⟨hp10, h10⟩ := hentry hprec.m10
  obtain ⟨hp11, h11⟩ := hentry hprec.m11
  refine ⟨{ E with
    form := E.form.scale (c.one / (s * s))
    semiMajor := E.semiMajor * s.abs
    semiMinor := E.semiMinor * s.abs
    center := E.center.scale s }, ?_, rfl, ⟨hp00, hp01, hp10, hp11⟩, ?_⟩
  · unfold rescale
    rw [div?_eq_some hne]
    rfl
  · refine (h.scale (n := E.form.scale (c.one / (s * s))) hF hη ha (by positivity) (by linarith) h00 h01
      h10 h11).mono (hF.smul (by positivity)) (by linarith) (le_of_eq (by ring))

/-! ## To the scale of the reductions -/

/-- The computed determinant. -/
theorem determinant_within (hp : 8 ≤ c.prec) (hF : F.IsPos) (hprec : E.form.HasPrec c.prec)
    (h : E.form.Near η (α * √F.det) F) (hη : η ≤ 1 / 4) (hα1 : α ≤ 1)
    (hK : F.size ^ 2 ≤ K * F.det) :
    Within (3 * η + α ^ 2 + 40 * roundoff c.prec * K) E.determinant.value F.det := by
  have hu := roundoff_pos c.prec
  have hD := hF.det_pos
  have hη0 := h.nonneg hF
  have hroot := Real.sq_sqrt hD.le
  have hasym : α * √F.det ≤ F.size :=
    (mul_le_of_le_one_left (Real.sqrt_nonneg _) hα1).trans hF.sqrt_det_le_size
  obtain ⟨hlow, hhigh⟩ := h.determinant_bounds hF (by linarith)
  rw [mul_pow, hroot] at hhigh
  have hround := Mat2.abs_determinant_sub_le hprec hp (h.determinant_scale_le hF hη hasym)
  have hsq : η ^ 2 * F.det ≤ η * F.det := by
    refine mul_le_mul_of_nonneg_right ?_ hD.le
    nlinarith
  have hsq0 := mul_nonneg (sq_nonneg η) hD.le
  have hαD := mul_nonneg (sq_nonneg α) hD.le
  have hexact : |E.form.m00.value * E.form.m11.value - E.form.m01.value * E.form.m10.value - F.det|
      ≤ (3 * η + α ^ 2) * F.det := by
    refine abs_le.2 ⟨?_, ?_⟩
    · linarith
    · linarith
  have hscale := mul_le_mul_of_nonneg_left hK (by linarith : 0 ≤ 40 * roundoff c.prec)
  have htri := abs_sub_le E.determinant.value
    (E.form.m00.value * E.form.m11.value - E.form.m01.value * E.form.m10.value) F.det
  have hround' : |E.determinant.value
      - (E.form.m00.value * E.form.m11.value - E.form.m01.value * E.form.m10.value)|
        ≤ 5 * roundoff c.prec * (8 * F.size ^ 2) := hround
  unfold Within
  rw [abs_of_pos hD]
  linarith

theorem le_prec_determinant (hprec : E.form.HasPrec c.prec) : c.prec ≤ E.determinant.prec := by
  have := hprec.m00
  show c.prec ≤ (E.form.m00 * E.form.m11 - E.form.m01 * E.form.m10).prec
  simp [this]

/-- The computed normalizer is the fourth root of the determinant, up to a small part. -/
theorem normalizer_within (hp : 64 ≤ c.prec) (hF : F.IsPos) (hprec : E.form.HasPrec c.prec)
    (h : E.form.Near η 0 F) (hK : F.size ^ 2 ≤ K * F.det)
    (hsmall : 3 * η + 40 * roundoff c.prec * K ≤ 1 / 1000) (hK0 : 0 ≤ K) :
    c.prec ≤ E.normalizer.prec ∧ Within (1 / 900) E.normalizer.value √√F.det := by
  have hu := roundoff_pos c.prec
  have hu1 : roundoff c.prec ≤ 1 / 2 ^ 64 := (roundoff_anti hp).trans (roundoff_eq 64).le
  have hD := hF.det_pos
  have huK : 0 ≤ roundoff c.prec * K := mul_nonneg hu.le hK0
  have hdet : Within (1 / 1000) E.determinant.value F.det :=
    (determinant_within (α := 0) (by omega) hF hprec (by rwa [zero_mul]) (by linarith) zero_le_one
      hK).mono (by linarith)
  have hroot := value_sqrt_of_within (le_prec_determinant hprec) hD (by norm_num) hdet
  have hprecroot : c.prec ≤ E.determinant.sqrt.prec := by
    rw [prec_sqrt]
    exact le_prec_determinant hprec
  refine ⟨?_, (value_sqrt_of_within hprecroot (Real.sqrt_pos.2 hD) (by linarith) hroot).mono (by linarith)⟩
  show c.prec ≤ E.determinant.sqrt.sqrt.prec
  rwa [prec_sqrt]

/-- At that scale the determinant is near one. -/
theorem det_scale_bounds (hF : F.IsPos) (hσ : Within (1 / 900) σ √√F.det) :
    0 < σ ∧ 99 / 100 ≤ ((σ⁻¹ ^ 2) • F).det ∧ ((σ⁻¹ ^ 2) • F).det ≤ 101 / 100 := by
  have hD := hF.det_pos
  have hq : 0 < √√F.det := Real.sqrt_pos.2 (Real.sqrt_pos.2 hD)
  have hfourth : √√F.det ^ 4 = F.det := by
    have h1 := Real.sq_sqrt (Real.sqrt_nonneg F.det)
    have h2 := Real.sq_sqrt hD.le
    calc √√F.det ^ 4 = (√√F.det ^ 2) ^ 2 := by ring
      _ = F.det := by rw [h1, h2]
  have hpos := pos_of_within hq (by norm_num) hσ
  have hsub := abs_le.1 hσ.sub_le
  rw [abs_of_pos hq] at hsub
  have hlow := pow_le_pow_left₀ (by positivity) (by linarith : 899 / 900 * √√F.det ≤ σ) 4
  have hhigh := pow_le_pow_left₀ hpos.le (by linarith : σ ≤ 901 / 900 * √√F.det) 4
  rw [mul_pow, hfourth] at hlow hhigh
  have hdet : ((σ⁻¹ ^ 2) • F).det = F.det / σ ^ 4 := by
    rw [Form.det_smul]
    field_simp
  rw [hdet, le_div_iff₀ (by positivity), div_le_iff₀ (by positivity)]
  refine ⟨hpos, ?_, ?_⟩
  · linarith
  · linarith

/-- The size at that scale, for a form that is not too oblong. -/
theorem fits_scale (hF : F.IsPos) (hσ : Within (1 / 900) σ √√F.det) (hK : F.size ^ 2 ≤ K * F.det)
    (hK0 : 0 ≤ K) (hKH : 2 * K ≤ H ^ 2) (hH : 0 ≤ H) : ((σ⁻¹ ^ 2) • F).Fits H := by
  obtain ⟨hpos, hlow, hhigh⟩ := det_scale_bounds hF hσ
  refine ⟨hF.smul (by positivity), hlow, hhigh, (abs_le_of_sq_le_sq' ?_ hH).2⟩
  have hscaled := Form.size_sq_smul_le (by positivity : 0 < σ⁻¹ ^ 2) hK
  have hdetK := mul_le_mul_of_nonneg_left hhigh hK0
  linarith

/-- A coordinate of the center that is scaled by a computed number: the error before, and a rounding. -/
theorem abs_mul_scale_sub_le {x : BinFloat} {v Λ : ℝ} (hu : 600 * roundoff c.prec ≤ 1) (hsp : c.prec ≤ s.prec)
    (hs : 0 < s.value) (hx : |x.value - v| ≤ 600 * roundoff c.prec) (hΛ : 1 ≤ Λ) (hv : |v| ≤ Λ) :
    |(x * s).value - s.value * v| ≤ 602 * roundoff c.prec * (Λ * s.value) := by
  have hu0 := roundoff_pos c.prec
  have hround := (value_mul_within (x := x) (y := s) (p := c.prec) (hsp.trans (le_max_right _ _))).sub_le
  have hsize : |x.value| ≤ 2 * Λ := by linarith [abs_sub_abs_le_abs_sub x.value v]
  have hexact : |x.value * s.value - s.value * v| ≤ 600 * roundoff c.prec * s.value := by
    have hsplit : x.value * s.value - s.value * v = (x.value - v) * s.value := by ring
    rw [hsplit, abs_mul, abs_of_pos hs]
    exact mul_le_mul_of_nonneg_right hx hs.le
  rw [abs_mul, abs_of_pos hs] at hround
  have hbound := mul_le_mul_of_nonneg_left (mul_le_mul_of_nonneg_right hsize hs.le) hu0.le
  have hone := mul_le_mul_of_nonneg_left (mul_le_mul_of_nonneg_right hΛ hs.le) hu0.le
  linarith [abs_sub_le (x * s).value (x.value * s.value) (s.value * v)]

/-- The center of a rendered ellipse that is scaled, in the norm of the scaled form. -/
theorem Renders.centered_scale {E' : Ellipse} {Λ : ℝ} (h : E.Renders c.prec η (600 * roundoff c.prec) X)
    (hu : 600 * roundoff c.prec ≤ 1) (hsp : c.prec ≤ s.prec) (hs : 0 < s.value) (hΓ0 : 0 ≤ Γ) (hΛ : 1 ≤ Λ)
    (hcenter : ∀ i, |X.center i| ≤ Λ) (hΓ : ∀ x y, X.form.eval x y ≤ (Γ / Λ) ^ 2 * (x ^ 2 + y ^ 2))
    (hE' : E'.center = E.center.scale s) :
    E'.Centered (1204 * roundoff c.prec * Γ) (X.scale s.value).form ((X.scale s.value).center 0)
      ((X.scale s.value).center 1) := by
  have hinv := inv_pos.2 hs
  have hΛ0 : 0 < Λ := by linarith
  have hx := abs_mul_scale_sub_le hu hsp hs h.abs_x_sub_le hΛ (hcenter 0)
  have hy := abs_mul_scale_sub_le hu hsp hs h.abs_y_sub_le hΛ (hcenter 1)
  unfold Centered
  rw [hE']
  show ((s.value⁻¹ ^ 2) • X.form).norm ((E.center.x * s).value - s.value * X.center 0)
    ((E.center.y * s).value - s.value * X.center 1) ≤ _
  generalize (E.center.x * s).value - s.value * X.center 0 = x at hx
  generalize (E.center.y * s).value - s.value * X.center 1 = y at hy
  have hsum : |x| + |y| ≤ 1204 * roundoff c.prec * (Λ * s.value) := by linarith
  have hΓΛ : 0 ≤ Γ / Λ := div_nonneg hΓ0 hΛ0.le
  rw [Form.norm_smul_sq hinv]
  calc s.value⁻¹ * X.form.norm x y ≤ s.value⁻¹ * (Γ / Λ * (1204 * roundoff c.prec * (Λ * s.value))) :=
        mul_le_mul_of_nonneg_left ((Form.norm_le_mul_abs_add hΓ hΓΛ x y).trans
          (mul_le_mul_of_nonneg_left hsum hΓΛ)) hinv.le
    _ = 1204 * roundoff c.prec * (Γ / Λ * Λ) * (s.value⁻¹ * s.value) := by ring
    _ = 1204 * roundoff c.prec * Γ := by rw [inv_mul_cancel₀ hs.ne', mul_one, div_mul_cancel₀ _ hΛ0.ne']

/-- **What is computed for an exact ellipse follows it**, when both are scaled by the normalizer. -/
theorem Renders.exists_follows {Λ : ℝ} (hp : 64 ≤ c.prec)
    (h : E.Renders c.prec (10000 * roundoff c.prec * K) (600 * roundoff c.prec) X) (hF : X.form.IsPos)
    (hK : X.form.size ^ 2 ≤ K * X.form.det) (hKH : 2 * K ≤ H ^ 2) (hH : 1 ≤ H)
    (hsmall : 31000 * roundoff c.prec * K ≤ 1 / 1000)
    (hΓ0 : 0 ≤ Γ) (hΛ : 1 ≤ Λ) (hcenter : ∀ i, |X.center i| ≤ Λ)
    (hΓ : ∀ x y, X.form.eval x y ≤ (Γ / Λ) ^ 2 * (x ^ 2 + y ^ 2)) (hoffset : X.offset ≤ Γ) :
    c.prec ≤ E.normalizer.prec ∧ 0 < E.normalizer.value ∧ ∃ E', E.rescale E.normalizer c = .ok E' ∧
      E'.Follows c.prec (51 * roundoff c.prec) H Γ (X.scale E.normalizer.value) := by
  have hu := roundoff_pos c.prec
  have hD := hF.det_pos
  have hK1 := hF.one_le_of_size_sq_le hK
  have huK : roundoff c.prec ≤ roundoff c.prec * K := le_mul_of_one_le_right hu.le hK1
  obtain ⟨hnprec, hnormal⟩ := normalizer_within hp hF h.prec h.near hK (by linarith)
    (by linarith)
  have hfits := fits_scale hF hnormal hK (by linarith) hKH (by linarith)
  obtain ⟨hpos, -, -⟩ := det_scale_bounds hF hnormal
  generalize E.normalizer = s at *
  obtain ⟨E', hE', hcenter', hprec', hnear'⟩ := exists_rescale hp hnprec hpos (.refl (by linarith) s.value)
    hF h.prec h.near (by linarith) hF.size_pos.le
  refine ⟨hnprec, hpos, E', hE', ⟨hprec', hnear'.mono hfits.toIsPos ?_ ?_, hfits⟩, ?_, ?_⟩
  · -- the part that is lost of the form
    have hratio : X.form.size ^ 2 / X.form.det ≤ K := (div_le_iff₀ hD).2 hK
    have h1 := mul_le_mul_of_nonneg_left hratio (by linarith : 0 ≤ 640 * roundoff c.prec)
    have h2 := mul_le_mul_of_nonneg_left hKH hu.le
    linarith
  · -- the asymmetry
    have hasym : s.value⁻¹ ^ 2 * (0 + 320 * roundoff c.prec * X.form.size)
        = 320 * roundoff c.prec * ((s.value⁻¹ ^ 2) • X.form).size := by
      rw [Form.size_smul (by positivity)]
      ring
    rw [hasym]
    have h1 := mul_le_mul_of_nonneg_left hfits.size_le (by linarith : 0 ≤ 320 * roundoff c.prec)
    have h2 : 0 ≤ roundoff c.prec * H := mul_nonneg hu.le (by linarith)
    linarith
  · refine (h.centered_scale (by linarith) hnprec hpos hΓ0 hΛ hcenter hΓ hcenter').trans ?_
    refine mul_le_mul_of_nonneg_right ?_ hΓ0
    have := mul_le_mul_of_nonneg_left hH hu.le
    linarith
  · rw [X.offset_scale hpos]
    exact hoffset

/-! ## And back -/

/-- What is known of a computed ellipse at its own scale: its form is off by a part `η`, its matrix is
symmetric up to `α` times the root of the determinant, and its center is off by `θ` in the norm of the form. -/
structure Outlines (p : ℕ) (η α K θ : ℝ) (E : Ellipse) (X : ExactEllipse) : Prop where
  prec : E.form.HasPrec p
  isPos : X.form.IsPos
  near : E.form.Near η (α * √X.form.det) X.form
  size_le : X.form.size ^ 2 ≤ K * X.form.det
  centered : E.Centered θ X.form (X.center 0) (X.center 1)

/-- The center of an ellipse that is scaled back: the error before, and a rounding in both coordinates. -/
theorem Follows.centered_scale {t : BinFloat} {E' : Ellipse} {σ : ℝ} (hσ : 0 < σ) (htp : c.prec ≤ t.prec)
    (ht : Within (2 * roundoff c.prec) t.value σ⁻¹) (h : E.Follows c.prec ω H Γ X)
    (hω : 51 * roundoff c.prec ≤ ω) (hH : 1 ≤ H) (h1 : 700 * ω * H ≤ 1)
    (hcenter : E'.center = E.center.scale t) (hu1 : 6 * roundoff c.prec ≤ 1) :
    E'.Centered (702 * ω * H * Γ) (X.scale σ⁻¹).form ((X.scale σ⁻¹).center 0)
      ((X.scale σ⁻¹).center 1) := by
  have hu := roundoff_pos c.prec
  have hinv := inv_pos.2 hσ
  have hpos := h.tracks.fits.toIsPos
  have hΓ0 : 0 ≤ Γ := (Form.norm_nonneg _ _ _).trans h.offset_le
  have hround {x : BinFloat} {v : ℝ} : ∃ d, (x * t).value - σ⁻¹ * v = σ⁻¹ * (x.value - v + d) ∧
      |d| ≤ 6 * roundoff c.prec * |x.value| := by
    have hmul := (value_mul_of_within (htp.trans (le_max_right _ _)) (by linarith) (by linarith)
      (.refl le_rfl x.value) ht).sub_le
    refine ⟨σ * ((x * t).value - x.value * σ⁻¹), ?_, ?_⟩
    · field_simp
      ring
    · rw [abs_mul, abs_of_pos hinv] at hmul
      rw [abs_mul, abs_of_pos hσ]
      refine (mul_le_mul_of_nonneg_left hmul hσ.le).trans (le_of_eq ?_)
      field_simp
      ring
  obtain ⟨dx, hx, hdx⟩ := hround (x := E.center.x) (v := X.center 0)
  obtain ⟨dy, hy, hdy⟩ := hround (x := E.center.y) (v := X.center 1)
  have hcancel (x y : ℝ) : (X.scale σ⁻¹).form.norm (σ⁻¹ * x) (σ⁻¹ * y) = X.form.norm x y := by
    rw [ExactEllipse.scale_form, inv_inv, Form.norm_smul_sq hσ, Form.norm_mul hinv,
      mul_inv_cancel_left₀ hσ.ne']
  unfold Centered
  rw [hcenter]
  show (X.scale σ⁻¹).form.norm ((E.center.x * t).value - σ⁻¹ * X.center 0)
    ((E.center.y * t).value - σ⁻¹ * X.center 1) ≤ _
  rw [hx, hy, hcancel]
  have hcentered : X.form.norm (E.center.x.value - X.center 0) (E.center.y.value - X.center 1)
      ≤ 700 * ω * H * Γ := h.centered
  have hnorm : X.form.norm E.center.x.value E.center.y.value ≤ 2 * Γ := by
    have htri := hpos.norm_add_le (X.center 0) (X.center 1) (E.center.x.value - X.center 0)
      (E.center.y.value - X.center 1)
    rw [add_sub_cancel, add_sub_cancel] at htri
    have hoffset : X.form.norm (X.center 0) (X.center 1) ≤ Γ := h.offset_le
    linarith [mul_le_of_le_one_left hΓ0 h1]
  have hweight : X.form.weight dx dy
      ≤ 6 * roundoff c.prec * X.form.weight E.center.x.value E.center.y.value := by
    have e1 := mul_le_mul_of_nonneg_left hdx (Real.sqrt_nonneg X.form.p)
    have e2 := mul_le_mul_of_nonneg_left hdy (Real.sqrt_nonneg X.form.q)
    unfold Form.weight
    linarith
  have hd := h.tracks.fits.norm_le_of_weight_le (by linarith) hweight
  have hdΓ := mul_le_mul_of_nonneg_left hnorm (by positivity : 0 ≤ 3 * (6 * roundoff c.prec) * H)
  have hωHΓ := mul_le_mul_of_nonneg_right (mul_le_mul_of_nonneg_right hω (by linarith : 0 ≤ H)) hΓ0
  have htri := hpos.norm_add_le (E.center.x.value - X.center 0) (E.center.y.value - X.center 1) dx dy
  have huHΓ : 0 ≤ roundoff c.prec * H * Γ := by positivity
  linarith

/-- **What follows an exact ellipse outlines it**, when both are scaled back by the same number. -/
theorem Follows.exists_outlines (hp : 64 ≤ c.prec) (hsp : c.prec ≤ s.prec) (hs : 0 < s.value)
    (h : E.Follows c.prec ω H Γ X) (hω : 51 * roundoff c.prec ≤ ω) (hH : 1 ≤ H)
    (h2 : 204 * ω * H ^ 2 ≤ 1 / 100) :
    ∃ E', E.rescale (c.one / s) c = .ok E' ∧
      E'.Outlines c.prec (217 * ω * H ^ 2) (27 * ω * H) (102 / 100 * H ^ 2) (702 * ω * H * Γ)
        (X.scale s.value⁻¹) := by
  have hu := roundoff_pos c.prec
  have hu1 : roundoff c.prec ≤ 1 / 2 ^ 64 := (roundoff_anti hp).trans (roundoff_eq 64).le
  have hinv := inv_pos.2 hs
  have hfits := h.tracks.fits
  have hratio := hfits.size_sq_div_det_le
  have hquot := (value_div_within (x := c.one) (y := s) (p := c.prec) (hsp.trans (le_max_right _ _)) hs.ne')
  have honevalue : c.one.value = 1 := value_one _
  rw [honevalue, one_div] at hquot
  have hprec : c.prec ≤ (c.one / s).prec := by
    rw [prec_div]
    exact hsp.trans (le_max_right _ _)
  have hωH0 : 0 ≤ ω * H := mul_nonneg (by linarith) (by linarith)
  have hωHH : ω * H ≤ ω * H ^ 2 := mul_le_mul_of_nonneg_left (le_self_pow₀ hH two_ne_zero) (by linarith)
  obtain ⟨E', hE', hcenter, hprec', hnear⟩ := exists_rescale hp hprec hinv hquot hfits.toIsPos
    h.tracks.prec h.tracks.near (by linarith) (by linarith [hfits.le_size])
  have hωH2 : 51 * (roundoff c.prec * H ^ 2) ≤ ω * H ^ 2 := by
    have := mul_le_mul_of_nonneg_right hω (sq_nonneg H)
    linarith
  have hωH : 51 * (roundoff c.prec * H) ≤ ω * H := by
    have := mul_le_mul_of_nonneg_right hω (by linarith : 0 ≤ H)
    linarith
  have hscale : ((s.value⁻¹)⁻¹ ^ 2 : ℝ) = s.value ^ 2 := by rw [inv_inv]
  rw [hscale] at hnear
  have hs2 : 0 < s.value ^ 2 := by positivity
  have hform : (X.scale s.value⁻¹).form = (s.value ^ 2) • X.form := by
    rw [ExactEllipse.scale_form, inv_inv]
  refine ⟨E', hE', hprec', hform ▸ hfits.toIsPos.smul hs2, ?_, ?_, ?_⟩
  · rw [hform]
    refine hnear.mono (hfits.toIsPos.smul hs2) ?_ ?_
    · have hmul := mul_le_mul_of_nonneg_left hratio (by linarith : 0 ≤ 640 * roundoff c.prec)
      have huH : 0 ≤ roundoff c.prec * H ^ 2 := by positivity
      linarith
    · have hroot : 99 / 100 ≤ √X.form.det :=
        Real.le_sqrt_of_sq_le (by linarith [hfits.le_det])
      have hasym : 20 * ω * H + 320 * roundoff c.prec * X.form.size ≤ 27 * ω * H * √X.form.det := by
        have hsize := mul_le_mul_of_nonneg_left hfits.size_le (by linarith : 0 ≤ 320 * roundoff c.prec)
        have hmul := mul_le_mul_of_nonneg_left hroot (by linarith : 0 ≤ 27 * (ω * H))
        linarith
      rw [Form.sqrt_det_smul hs2]
      have := mul_le_mul_of_nonneg_left hasym hs2.le
      linarith
  · rw [hform]
    exact Form.size_sq_smul_le hs2 ((div_le_iff₀ hfits.det_pos).1 hratio)
  · exact h.centered_scale hs hprec hquot hω hH (by linarith) hcenter (by linarith)

end Rescale

end Ellipse

end CliffordT
