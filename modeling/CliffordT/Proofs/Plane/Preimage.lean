/-
The preimage of an ellipse under a rounded matrix.

`Fits H F` collects what the exact form of an ellipse has while its skew is reduced: it is positive, its
determinant is near one, and its size is at most `H`. `Tracks` says of an ellipse that its matrix has such
a form next to it. A preimage under a matrix of determinant one or minus one then exists, since neither the
determinant of the matrix nor that of the new form can come out as zero, and it is tracked again. The
centers are compared in the norm of the form, which is the same before and after.
-/
import CliffordT.Plane.Ellipse
import CliffordT.Proofs.Plane.Congruence

namespace CliffordT

open BinFloat

/-! ## Determinants -/

namespace Form

/-- The determinant of a form that is nowhere negative is not negative. -/
theorem det_nonneg {F : Form} (h : ∀ x y, 0 ≤ F.eval x y) : 0 ≤ F.det := by
  have hp : 0 ≤ F.p := by simpa [eval] using h 1 0
  rcases hp.eq_or_lt with hp0 | hp0
  · -- without a square in it, the form is linear in `x`
    have hb : F.b = 0 := by
      by_contra hne
      have hlin := h (-(F.q + 1) / (2 * F.b)) 1
      have hvalue : 2 * F.b * (-(F.q + 1) / (2 * F.b)) = -(F.q + 1) := by
        field_simp
      simp only [eval, ← hp0, hvalue] at hlin
      linarith
    simp [det, ← hp0, hb]
  · have hb := h (-F.b) F.p
    have hsplit : F.eval (-F.b) F.p = F.p * F.det := by
      simp only [eval, det]
      ring
    rw [hsplit] at hb
    exact nonneg_of_mul_nonneg_right hb hp0

/-- A larger form has the larger determinant. -/
theorem det_le_det {F G : Form} (hF : ∀ x y, 0 ≤ F.eval x y)
    (hle : ∀ x y, F.eval x y ≤ G.eval x y) : F.det ≤ G.det := by
  have hdiff (x y : ℝ) : 0 ≤ (Form.mk (G.p - F.p) (G.b - F.b) (G.q - F.q)).eval x y := by
    have h := hle x y
    simp only [eval] at h ⊢
    linarith
  have hdF := det_nonneg hF
  have hdD := det_nonneg hdiff
  have hp : 0 ≤ F.p := by simpa [eval] using hF 1 0
  have hq : 0 ≤ F.q := by simpa [eval] using hF 0 1
  have hp' : 0 ≤ G.p - F.p := by simpa [eval] using hdiff 1 0
  have hq' : 0 ≤ G.q - F.q := by simpa [eval] using hdiff 0 1
  simp only [det] at hdF hdD ⊢
  have hmixed : 2 * (F.b * (G.b - F.b)) ≤ F.p * (G.q - F.q) + (G.p - F.p) * F.q := by
    refine (abs_le_of_sq_le_sq' ?_ (by positivity)).2
    have hmul : F.b ^ 2 * (G.b - F.b) ^ 2 ≤ F.p * F.q * ((G.p - F.p) * (G.q - F.q)) :=
      mul_le_mul (by linarith) (by linarith) (sq_nonneg _) (by positivity)
    have hsq := sq_nonneg (F.p * (G.q - F.q) - (G.p - F.p) * F.q)
    nlinarith
  linarith

/-! ## The norm of a form -/

noncomputable def norm (F : Form) (x y : ℝ) : ℝ := √(F.eval x y)

theorem norm_nonneg (F : Form) (x y : ℝ) : 0 ≤ F.norm x y := Real.sqrt_nonneg _

theorem IsPos.norm_sq {F : Form} (h : F.IsPos) (x y : ℝ) : F.norm x y ^ 2 = F.eval x y :=
  Real.sq_sqrt (h.eval_nonneg x y)

theorem IsPos.norm_add_le {F : Form} (h : F.IsPos) (x y x' y' : ℝ) :
    F.norm (x + x') (y + y') ≤ F.norm x y + F.norm x' y' := by
  have h1 := h.norm_sq x y
  have h2 := h.norm_sq x' y'
  have hn1 := F.norm_nonneg x y
  have hn2 := F.norm_nonneg x' y'
  -- the inner product is bounded by the product of the norms
  have hcs : F.p * x * x' + F.b * (x * y' + x' * y) + F.q * y * y' ≤ F.norm x y * F.norm x' y' := by
    refine (abs_le_of_sq_le_sq' ?_ (mul_nonneg hn1 hn2)).2
    rw [mul_pow, h1, h2]
    have hdet : 0 ≤ F.det * (x * y' - x' * y) ^ 2 := mul_nonneg h.det_pos.le (sq_nonneg _)
    have hsplit : F.eval x y * F.eval x' y'
        = (F.p * x * x' + F.b * (x * y' + x' * y) + F.q * y * y') ^ 2
          + F.det * (x * y' - x' * y) ^ 2 := by
      simp only [eval, det]
      ring
    linarith
  refine Real.sqrt_le_iff.2 ⟨add_nonneg hn1 hn2, ?_⟩
  have hsplit : F.eval (x + x') (y + y') = F.eval x y + F.eval x' y'
      + 2 * (F.p * x * x' + F.b * (x * y' + x' * y) + F.q * y * y') := by
    simp only [eval]
    ring
  rw [hsplit]
  linarith

/-- A point whose image under the inverse is known up to `s` and `t`, in the norm of the form that the
matrix pulls back. -/
theorem norm_pull_sub {F : Form} {R : Matrix (Fin 2) (Fin 2) ℝ} {cx cy cx' cy' s t x y : ℝ} (hdet : R.det ≠ 0)
    (hs : cx' - (R 1 1 / R.det * cx + -(R 0 1 / R.det) * cy) = s)
    (ht : cy' - (-(R 1 0 / R.det) * cx + R 0 0 / R.det * cy) = t) :
    (F.pull R).norm (cx' - x) (cy' - y)
      = F.norm ((R 0 0 * s + R 0 1 * t) + (cx - (R 0 0 * x + R 0 1 * y)))
          ((R 1 0 * s + R 1 1 * t) + (cy - (R 1 0 * x + R 1 1 * y))) := by
  have hexpand : R.det = R 0 0 * R 1 1 - R 0 1 * R 1 0 := Matrix.det_fin_two R
  have himage₀ : R 0 0 * (cx' - x) + R 0 1 * (cy' - y)
      = (R 0 0 * s + R 0 1 * t) + (cx - (R 0 0 * x + R 0 1 * y)) := by
    rw [← hs, ← ht]
    field_simp
    rw [hexpand]
    ring
  have himage₁ : R 1 0 * (cx' - x) + R 1 1 * (cy' - y)
      = (R 1 0 * s + R 1 1 * t) + (cy - (R 1 0 * x + R 1 1 * y)) := by
    rw [← hs, ← ht]
    field_simp
    rw [hexpand]
    ring
  unfold norm
  rw [eval_pull, himage₀, himage₁]

/-! ## The regime of a reduction -/

/-- The forms that a reduction goes through. -/
structure Fits (H : ℝ) (F : Form) : Prop extends F.IsPos where
  le_det : 99 / 100 ≤ F.det
  det_le : F.det ≤ 101 / 100
  size_le : F.size ≤ H

namespace Fits

variable {H K : ℝ} {F : Form} {R : Matrix (Fin 2) (Fin 2) ℝ}

theorem le_size (h : F.Fits H) : 99 / 100 ≤ F.size := by
  have hsq := h.size_sq'
  nlinarith [h.le_det, sq_nonneg F.b, h.size_pos]

theorem pull (h : F.Fits H) (hR : R.det ^ 2 = 1) (hsize : (F.pull R).size ≤ H) :
    (F.pull R).Fits H where
  toIsPos := h.toIsPos.pull (by
    intro h0
    rw [h0] at hR
    norm_num at hR)
  le_det := by
    rw [det_pull, hR, one_mul]
    exact h.le_det
  det_le := by
    rw [det_pull, hR, one_mul]
    exact h.det_le
  size_le := hsize

/-- The condition number of the form, as it comes into the rounding errors. -/
theorem size_sq_div_det_le (h : F.Fits H) : F.size ^ 2 / F.det ≤ 102 / 100 * H ^ 2 := by
  have hsq := pow_le_pow_left₀ h.size_pos.le h.size_le 2
  rw [div_le_iff₀ h.det_pos]
  nlinarith [h.le_det, sq_nonneg H]

/-- Small in the weights of the form is small in its norm. -/
theorem norm_le_of_weight_le (h : F.Fits H) {ε x y x' y' : ℝ} (hε : 0 ≤ ε)
    (hw : F.weight x y ≤ ε * F.weight x' y') : F.norm x y ≤ 3 * ε * H * F.norm x' y' := by
  have hpos := h.toIsPos
  have hH : 0 ≤ H := hpos.size_pos.le.trans h.size_le
  refine Real.sqrt_le_iff.2 ⟨by have := F.norm_nonneg x' y'; positivity, ?_⟩
  have hκ := h.size_sq_div_det_le
  have heval := hpos.eval_nonneg x' y'
  calc F.eval x y ≤ 2 * F.weight x y ^ 2 := hpos.eval_le_weight_sq _ _
    _ ≤ 2 * (ε * F.weight x' y') ^ 2 := by
        have := pow_le_pow_left₀ (F.weight_nonneg x y) hw 2
        linarith
    _ = 2 * ε ^ 2 * F.weight x' y' ^ 2 := by ring
    _ ≤ 2 * ε ^ 2 * (4 * (F.size ^ 2 / F.det) * F.eval x' y') :=
        mul_le_mul_of_nonneg_left (hpos.weight_column_sq_le x' y') (by positivity)
    _ ≤ 2 * ε ^ 2 * (4 * (102 / 100 * H ^ 2) * F.eval x' y') := by gcongr
    _ ≤ 9 * ε ^ 2 * H ^ 2 * F.eval x' y' := by
        have : 0 ≤ ε ^ 2 * H ^ 2 * F.eval x' y' := by positivity
        linarith
    _ = (3 * ε * H * F.norm x' y') ^ 2 := by
        rw [mul_pow, hpos.norm_sq]
        ring

end Fits

end Form

/-! ## Inverses of rounded matrices -/

namespace Mat2

section Determinant

variable {p : Nat} {e η a K H : ℝ} {m d : Mat2} {R : Matrix (Fin 2) (Fin 2) ℝ} {F : Form}

/-- The determinant of a rounded matrix, against the products in it. -/
theorem Approximates.abs_determinant_sub_le (hm : m.Approximates e R) (hprec : m.HasPrec p) (he : 0 ≤ e)
    (hsmall : 3 * e + 5 * roundoff p ≤ 1 / 4) :
    |m.determinant.value - R.det|
      ≤ (3 * e + 5 * roundoff p) * (|R 0 0 * R 1 1| + |R 0 1 * R 1 0|) := by
  have hu := roundoff_pos p
  rw [Matrix.det_fin_two, abs_mul, abs_mul]
  exact ((Close.value_mul_sub_mul hprec.m00 hprec.m01 he he (by linarith) hm.m00 hm.m11 hm.m01
    hm.m10).mono (by linarith)).sub_le

/-- The determinant of the values of a matrix, up to rounding. -/
theorem abs_determinant_sub_le {s : ℝ} (hprec : d.HasPrec p) (hp : 8 ≤ p)
    (hs : |d.m00.value * d.m11.value| + |d.m01.value * d.m10.value| ≤ s) :
    |d.determinant.value - (d.m00.value * d.m11.value - d.m01.value * d.m10.value)|
      ≤ 5 * roundoff p * s := by
  have hu := roundoff_pos p
  have hu1 : roundoff p ≤ 1 / 2 ^ 8 := (roundoff_anti hp).trans (roundoff_eq 8).le
  have hexact : d.Approximates 0 !![d.m00.value, d.m01.value; d.m10.value, d.m11.value] :=
    ⟨.refl le_rfl _, .refl le_rfl _, .refl le_rfl _, .refl le_rfl _⟩
  have hround := hexact.abs_determinant_sub_le hprec le_rfl (by linarith)
  rw [Matrix.det_fin_two_of] at hround
  refine hround.trans ?_
  rw [mul_zero, zero_add]
  exact mul_le_mul_of_nonneg_left hs (by linarith)

/-- The determinant of a matrix near a form is near that of the form. -/
theorem Near.determinant_bounds (hF : F.IsPos) (h : d.Near η a F) (hη1 : η ≤ 1) :
    (1 - η) ^ 2 * F.det ≤ d.m00.value * d.m11.value - d.m01.value * d.m10.value ∧
      d.m00.value * d.m11.value - d.m01.value * d.m10.value
        ≤ (1 + η) ^ 2 * F.det + a ^ 2 / 4 := by
  -- the symmetric part of the matrix as a form, between two multiples of `F`
  let G : Form := ⟨d.m00.value, (d.m01.value + d.m10.value) / 2, d.m11.value⟩
  have hG (x y : ℝ) : G.eval x y = d.evalForm x y := by
    simp only [G, Form.eval, evalForm]
    ring
  have hscale (t x y : ℝ) : (Form.mk (t * F.p) (t * F.b) (t * F.q)).eval x y = t * F.eval x y := by
    simp only [Form.eval]
    ring
  have hbounds (x y : ℝ) := abs_le.1 (h.eval x y)
  have hdet (t : ℝ) : (Form.mk (t * F.p) (t * F.b) (t * F.q)).det = t ^ 2 * F.det := by
    simp only [Form.det]
    ring
  have hlow := Form.det_le_det (F := ⟨(1 - η) * F.p, (1 - η) * F.b, (1 - η) * F.q⟩) (G := G)
    (fun x y => by
      rw [hscale]
      exact mul_nonneg (by linarith) (hF.eval_nonneg x y))
    (fun x y => by
      rw [hscale, hG]
      linarith [(hbounds x y).1])
  have hhigh := Form.det_le_det (F := G) (G := ⟨(1 + η) * F.p, (1 + η) * F.b, (1 + η) * F.q⟩)
    (fun x y => by
      rw [hG]
      have := mul_nonneg (by linarith : 0 ≤ 1 - η) (hF.eval_nonneg x y)
      linarith [(hbounds x y).1])
    (fun x y => by
      rw [hscale, hG]
      linarith [(hbounds x y).2])
  rw [hdet] at hlow hhigh
  have hasym : (d.m01.value - d.m10.value) ^ 2 ≤ a ^ 2 := by
    rw [← sq_abs]
    exact pow_le_pow_left₀ (abs_nonneg _) h.asym 2
  have hGdet : G.det = d.m00.value * d.m11.value - d.m01.value * d.m10.value
      - (d.m01.value - d.m10.value) ^ 2 / 4 := by
    simp only [G, Form.det]
    ring
  rw [hGdet] at hlow hhigh
  constructor
  · linarith [sq_nonneg (d.m01.value - d.m10.value)]
  · linarith

/-- The products in the determinant, against the size of the form. -/
theorem Near.determinant_scale_le (hF : F.IsPos) (h : d.Near η a F) (hη : η ≤ 1 / 4)
    (ha : a ≤ F.size) :
    |d.m00.value * d.m11.value| + |d.m01.value * d.m10.value| ≤ 8 * F.size ^ 2 := by
  have h00 := (h.m00_within hF).abs_le
  have h11 := (h.m11_within hF).abs_le
  rw [abs_of_pos hF.p_pos] at h00
  rw [abs_of_pos hF.q_pos] at h11
  have hsize := hF.size_pos
  obtain ⟨h01, h10⟩ := h.abs_off_diagonal_le hF hη ha
  have hdiag : |d.m00.value| * |d.m11.value| ≤ (2 * F.p) * (2 * F.q) :=
    mul_le_mul (by nlinarith [hF.p_pos]) (by nlinarith [hF.q_pos]) (abs_nonneg _)
      (by linarith [hF.p_pos])
  have hcross : |d.m01.value| * |d.m10.value| ≤ (2 * F.size) * (2 * F.size) :=
    mul_le_mul h01 h10 (abs_nonneg _) (by linarith)
  have hsq := hF.size_sq
  rw [abs_mul, abs_mul]
  nlinarith

/-- The computed determinant of a matrix near a form of the regime is positive. -/
theorem Near.determinant_pos (hF : F.Fits H) (h : d.Near η a F) (hprec : d.HasPrec p) (hp : 8 ≤ p)
    (hη1 : η ≤ 1 / 100) (ha : a ≤ 1 / 100) (hH : roundoff p * H ^ 2 ≤ 1 / 100) :
    0 < d.determinant.value := by
  have hu := roundoff_pos p
  have hsize := hF.le_size
  have hround := abs_le.1 (abs_determinant_sub_le hprec hp
    (h.determinant_scale_le hF.toIsPos (by linarith) (by linarith)))
  have hlow := (h.determinant_bounds hF.toIsPos (by linarith)).1
  have hsq := pow_le_pow_left₀ hF.size_pos.le hF.size_le 2
  have hsmall : 5 * roundoff p * (8 * F.size ^ 2) ≤ 40 / 100 := by
    nlinarith
  have hdet : 97 / 100 ≤ (1 - η) ^ 2 * F.det := by
    nlinarith [hF.le_det]
  linarith [hround.1]

/-- The entries of a computed inverse are those of the inverse, up to a relative error. -/
structure InverseNear (p : Nat) (e : ℝ) (m : Mat2) (R : Matrix (Fin 2) (Fin 2) ℝ) : Prop
    extends m.HasPrec p where
  m00_within : Within e m.m00.value (R 1 1 / R.det)
  m01_within : Within e m.m01.value (-(R 0 1 / R.det))
  m10_within : Within e m.m10.value (-(R 1 0 / R.det))
  m11_within : Within e m.m11.value (R 0 0 / R.det)

/-- The products in the determinant of a matrix that is tame do not cancel by more than a factor five. -/
theorem Approximates.determinant_within (hF : F.IsPos) (hm : m.Approximates e R) (hprec : m.HasPrec p)
    (hK : F.Tame 5 R) (he : 0 ≤ e) (hsmall : 3 * e + 5 * roundoff p ≤ 1 / 4) :
    Within (5 * (3 * e + 5 * roundoff p)) m.determinant.value R.det := by
  have hu := roundoff_pos p
  have hX := hF.ratio_pos
  have hscale : |R 0 0 * R 1 1| + |R 0 1 * R 1 0| ≤ 5 := by
    have hfst := hK.fst
    have hnonneg : 0 ≤ 2 * |R 1 0 * R 1 1| * F.ratio := by positivity
    linarith
  unfold Within
  rw [hK.abs_det, mul_one]
  refine (hm.abs_determinant_sub_le hprec he hsmall).trans ?_
  have := mul_le_mul_of_nonneg_left hscale (by linarith : 0 ≤ 3 * e + 5 * roundoff p)
  linarith

/-- A rounded matrix of determinant one or minus one has an inverse. -/
theorem exists_inverse (hF : F.IsPos) (hm : m.Approximates e R) (hprec : m.HasPrec p)
    (hK : F.Tame 5 R) (he : 0 ≤ e) (hsmall : 3 * e + 10 * roundoff p ≤ 1 / 100) :
    ∃ inv, m.inverse = .ok inv ∧ inv.InverseNear p (64 * e + 128 * roundoff p) R := by
  have hu := roundoff_pos p
  have hdet := hm.determinant_within hF hprec hK he (by linarith)
  have hne : m.determinant.value ≠ 0 := hdet.ne_zero (by linarith) hK.det_ne_zero
  have hdetprec : p ≤ m.determinant.prec := by
    have := hprec.m00
    show p ≤ (m.m00 * m.m11 - m.m01 * m.m10).prec
    simp [this]
  generalize hr : BinFloat.one m.determinant.prec / m.determinant = r
  have hrval : Within (30 * e + 54 * roundoff p) r.value R.det⁻¹ := by
    have hround := value_div_within (x := BinFloat.one m.determinant.prec) (y := m.determinant)
      (p := p) (hdetprec.trans (le_max_right _ _)) hne
    rw [value_one, one_div, hr] at hround
    exact (hround.trans (by linarith) (by linarith)
      (hdet.inv (by linarith) (by linarith))).mono (by linarith)
  have hentry {x : BinFloat} {s : ℝ} (hxp : p ≤ x.prec) (hx : Within e x.value s) :
      p ≤ (x * r).prec ∧ Within (64 * e + 128 * roundoff p) (x * r).value (s / R.det) := by
    refine ⟨by simp [hxp], ?_⟩
    have hround := value_mul_within (x := x) (y := r) (p := p) (hxp.trans (le_max_left _ _))
    rw [div_eq_mul_inv]
    exact (hround.trans hu.le (by linarith) (hx.mul (by linarith) hrval)).mono (by linarith)
  have h00 := hentry hprec.m11 hm.m11
  have h01 := hentry hprec.m01 hm.m01
  have h10 := hentry hprec.m10 hm.m10
  have h11 := hentry hprec.m00 hm.m00
  refine ⟨⟨m.m11 * r, -(m.m01 * r), -(m.m10 * r), m.m00 * r⟩, ?_, ?_⟩
  · unfold inverse
    dsimp only
    rw [div?_eq_some hne, hr]
  · refine ⟨⟨h00.1, h01.1, h10.1, h11.1⟩, h00.2, ?_, ?_, h11.2⟩
    · rw [value_neg]
      exact h01.2.neg
    · rw [value_neg]
      exact h10.2.neg

/-- The image of a vector under a computed inverse, up to rounding. -/
theorem InverseNear.apply_sub_le (h : m.InverseNear p e R) (hdet : |R.det| = 1) (he : 0 ≤ e)
    (he1 : e + 5 * roundoff p ≤ 1 / 4) (v : Vec2) :
    |(m.apply v).x.value - (R 1 1 / R.det * v.x.value + -(R 0 1 / R.det) * v.y.value)|
        ≤ (e + 5 * roundoff p) * (|R 1 1| * |v.x.value| + |R 0 1| * |v.y.value|) ∧
      |(m.apply v).y.value - (-(R 1 0 / R.det) * v.x.value + R 0 0 / R.det * v.y.value)|
        ≤ (e + 5 * roundoff p) * (|R 1 0| * |v.x.value| + |R 0 0| * |v.y.value|) := by
  have hu := roundoff_pos p
  have hentry (s : ℝ) : |s / R.det| = |s| := by rw [abs_div, hdet, div_one]
  have hrow {b b' : BinFloat} {s t : ℝ} (hb : p ≤ b.prec) (hb' : p ≤ b'.prec)
      (h1 : Within e b.value s) (h2 : Within e b'.value t) :
      |(b * v.x + b' * v.y).value - (s * v.x.value + t * v.y.value)|
        ≤ (e + 5 * roundoff p) * (|s| * |v.x.value| + |t| * |v.y.value|) :=
    ((Close.value_mul_add_mul hb hb' he le_rfl (by linarith) h1 (.refl le_rfl _) h2
      (.refl le_rfl _)).mono (by linarith)).sub_le
  have hx := hrow h.m00 h.m01 h.m00_within h.m01_within
  have hy := hrow h.m10 h.m11 h.m10_within h.m11_within
  rw [abs_neg, hentry, hentry] at hx hy
  exact ⟨hx, hy⟩

end Determinant

end Mat2

/-! ## Preimages of ellipses -/

namespace Ellipse

/-- An ellipse is found for every matrix whose determinant is not computed as zero. -/
theorem exists_ofMatrix {d : Mat2} (hd : d.determinant.value ≠ 0) (center : Vec2) (c : Constants) :
    ∃ E, ofMatrix d center c = .ok E ∧ E.form = d ∧ E.center = center := by
  unfold ofMatrix axesOf
  rw [div?_eq_some hd]
  exact ⟨_, rfl, rfl, rfl⟩

/-- The matrix of the ellipse has an exact form of the regime next to it. -/
structure Tracks (p : Nat) (η a H : ℝ) (E : Ellipse) (F : Form) : Prop where
  prec : E.form.HasPrec p
  near : E.form.Near η a F
  fits : F.Fits H

/-- The center of the ellipse is the point `(x, y)`, up to `θ` in the norm of the form. -/
def Centered (θ : ℝ) (E : Ellipse) (F : Form) (x y : ℝ) : Prop :=
  F.norm (E.center.x.value - x) (E.center.y.value - y) ≤ θ

section Preimage

variable {p : Nat} {e η a H : ℝ} {E E' : Ellipse} {F : Form} {m inv : Mat2}
  {R : Matrix (Fin 2) (Fin 2) ℝ}

/-- The preimage exists and is tracked. -/
theorem Tracks.exists_preimage (h : E.Tracks p η a H F) (hm : m.Approximates e R)
    (hprec : m.HasPrec p) (hp : 8 ≤ p) (hK : F.Tame 5 R) (he : 0 ≤ e)
    (hsize : (F.pull R).size ≤ H) (hη : 0 ≤ η)
    (hη' : η + 204 * (3 * e + 10 * roundoff p) * H ^ 2 ≤ 1 / 100)
    (ha' : a + 20 * (3 * e + 10 * roundoff p) * H ≤ 1 / 100) (c : Constants) :
    ∃ inv E', m.inverse = .ok inv ∧ inv.InverseNear p (64 * e + 128 * roundoff p) R ∧
      E.preimage m c = .ok E' ∧ E'.center = inv.apply E.center ∧
      E'.Tracks p (η + 204 * (3 * e + 10 * roundoff p) * H ^ 2)
        (a + 20 * (3 * e + 10 * roundoff p) * H) H (F.pull R) := by
  have hu := roundoff_pos p
  have hpos := h.fits.toIsPos
  have hH : 99 / 100 ≤ H := h.fits.le_size.trans h.fits.size_le
  have hH2 := pow_le_pow_left₀ (by norm_num) hH 2
  have hε0 : 0 ≤ 3 * e + 10 * roundoff p := by linarith
  have hεH0 : 0 ≤ (3 * e + 10 * roundoff p) * H ^ 2 := by positivity
  have hεH : (3 * e + 10 * roundoff p) * H ^ 2 ≤ 1 / 20400 := by linarith
  have hε : 3 * e + 10 * roundoff p ≤ 1 / 100 := by
    have hle := mul_le_mul_of_nonneg_left hH2 hε0
    linarith only [hle, hεH, hε0]
  have hεH1 : 0 ≤ (3 * e + 10 * roundoff p) * H := mul_nonneg hε0 (by linarith)
  obtain ⟨inv, hinv, hnear⟩ := Mat2.exists_inverse hpos hm hprec hK he hε
  have hfits := h.fits.pull hK.det_sq hsize
  have hκ := h.fits.size_sq_div_det_le
  have hcongr := h.near.congruence hpos (by linarith) (by linarith [h.fits.le_size]) hm hprec he
    (by linarith) hK
  have hcongr' : (m.congruence E.form).Near (η + 204 * (3 * e + 10 * roundoff p) * H ^ 2)
      (a + 20 * (3 * e + 10 * roundoff p) * H) (F.pull R) := by
    refine hcongr.mono hfits.toIsPos ?_ ?_
    · have hle := mul_le_mul_of_nonneg_left hκ hε0
      linarith only [hle]
    · have hle := mul_le_mul_of_nonneg_left h.fits.size_le hε0
      linarith only [hle]
  have hprec' := Mat2.hasPrec_congruence (d := E.form) hprec
  have hdet := hcongr'.determinant_pos hfits hprec' hp hη' ha' (by
    have hle := mul_le_mul_of_nonneg_right (by linarith only [he, hu] : roundoff p ≤ 3 * e + 10 * roundoff p)
      (sq_nonneg H)
    linarith only [hle, hεH])
  obtain ⟨E', hE', hform, hcenter⟩ := exists_ofMatrix hdet.ne' (inv.apply E.center) c
  refine ⟨inv, E', hinv, hnear, ?_, hcenter, ?_⟩
  · unfold preimage
    rw [hinv]
    exact hE'
  · exact ⟨hform ▸ hprec', hform ▸ hcongr', hfits⟩

/-- The center of a preimage, in the norm of the form, which the matrix preserves. -/
theorem Centered.preimage {θ Γ x y x' y' : ℝ} (hF : F.Fits H) (hK : F.Tame 5 R)
    (hinv : inv.InverseNear p e R) (he : 0 ≤ e) (he1 : e + 5 * roundoff p ≤ 1 / 8)
    (hcenter : E'.center = inv.apply E.center) (h : E.Centered θ F x y) (hΓ : F.norm x y ≤ Γ)
    (hx : R 0 0 * x' + R 0 1 * y' = x) (hy : R 1 0 * x' + R 1 1 * y' = y) :
    E'.Centered (θ + 15 * (e + 5 * roundoff p) * H * (Γ + θ)) (F.pull R) x' y' := by
  have hu := roundoff_pos p
  have hpos := hF.toIsPos
  have hH : 0 ≤ H := hpos.size_pos.le.trans hF.size_le
  unfold Centered at h ⊢
  rw [hcenter]
  -- the new center is the image of the old one, up to the errors `s` and `t`
  obtain ⟨hs, ht⟩ := hinv.apply_sub_le hK.abs_det he (by linarith) E.center
  generalize (inv.apply E.center).x.value = cx' at hs ⊢
  generalize (inv.apply E.center).y.value = cy' at ht ⊢
  generalize E.center.x.value = cx at *
  generalize E.center.y.value = cy at *
  generalize hs' : cx' - (R 1 1 / R.det * cx + -(R 0 1 / R.det) * cy) = s at hs
  generalize ht' : cy' - (-(R 1 0 / R.det) * cx + R 0 0 / R.det * cy) = t at ht
  rw [Form.norm_pull_sub hK.det_ne_zero hs' ht', hx, hy]
  refine (hpos.norm_add_le _ _ _ _).trans ?_
  have hweight := hK.weight_image_le hpos (by linarith) hs ht
  have herror := hF.norm_le_of_weight_le (ε := 5 * (e + 5 * roundoff p)) (by linarith)
    (hweight.trans (le_of_eq (by ring)))
  have hold : F.norm cx cy ≤ Γ + θ := by
    have htri := hpos.norm_add_le x y (cx - x) (cy - y)
    rw [add_sub_cancel, add_sub_cancel] at htri
    linarith
  have hmul := mul_le_mul_of_nonneg_left hold
    (mul_nonneg (by linarith) hH : 0 ≤ 15 * (e + 5 * roundoff p) * H)
  linarith

end Preimage

end Ellipse

end CliffordT
