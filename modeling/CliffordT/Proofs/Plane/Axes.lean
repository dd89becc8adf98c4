/-
Ellipses with given axes.

The matrix that is computed for given semi-axes has errors in proportion to its larger eigenvalue, in all
four entries. Against the form these are errors in proportion to the ratio of the two eigenvalues, as the
smaller one is what the form is bounded by from below.
-/
import CliffordT.Proofs.BinFloat.Trigonometry
import CliffordT.Proofs.Plane.Exact

namespace CliffordT

open BinFloat

/-! ## Rounded operations on numbers with errors -/

namespace BinFloat

section Operations

variable {x y : BinFloat} {p : Nat} {e f a b : ℝ}

theorem value_mul_of_within (hp : p ≤ max x.prec y.prec) (hf : 0 ≤ f) (hef : e + 2 * f ≤ 1)
    (h : Within e x.value a) (h' : Within f y.value b) :
    Within (e + 2 * f + 2 * roundoff p) (x * y).value (a * b) :=
  (value_mul_within hp).trans (roundoff_pos p).le hef (h.mul (by linarith) h')

theorem value_div_of_within (hp : p ≤ max x.prec y.prec) (hb : b ≠ 0) (hf : 0 ≤ f)
    (hf' : f ≤ 1 / 2) (hef : e + 4 * f ≤ 1) (h : Within e x.value a) (h' : Within f y.value b) :
    y.value ≠ 0 ∧ Within (e + 4 * f + 4 * roundoff p) (x / y).value (a / b) := by
  have hne : y.value ≠ 0 := by
    have hpos := abs_pos.2 hb
    refine abs_pos.1 (lt_of_lt_of_le (mul_pos ?_ hpos) h'.le_abs)
    linarith
  refine ⟨hne, ?_⟩
  have hu := roundoff_pos p
  exact ((value_div_within hp hne).trans (by linarith) hef (h.div hf hf' (by linarith) h')).mono
    (by linarith)

theorem value_sqrt_of_within (hp : p ≤ x.prec) (ha : 0 < a) (he : e ≤ 1 / 2) (h : Within e x.value a) :
    Within (e + 4 * roundoff p) x.sqrt.value √a := by
  have hu := roundoff_pos p
  have hpos : 0 < x.value := by
    have hsub := (abs_le.1 h.sub_le).1
    rw [abs_of_pos ha] at hsub
    have := mul_le_mul_of_nonneg_right he ha.le
    linarith
  have hround := (value_sqrt_within hpos).mono
    (mul_le_mul_of_nonneg_left (roundoff_anti hp) (by norm_num : (0 : ℝ) ≤ 2))
  exact (hround.trans (by linarith) (by linarith) (within_sqrt ha (by linarith) h)).mono (by linarith)

/-- A number that is known up to a factor is not zero, and has the sign of what it stands for. -/
theorem pos_of_within (ha : 0 < a) (he : e < 1) (h : Within e b a) : 0 < b := by
  have hsub := (abs_le.1 h.sub_le).1
  rw [abs_of_pos ha] at hsub
  have := mul_pos (sub_pos.2 he) ha
  linarith

end Operations

end BinFloat

/-! ## Forms with given eigenvalues -/

namespace Form

/-- The form with the eigenvalue `P` in direction `θ` and `Q` across it. -/
noncomputable def ofAxes (P Q θ : ℝ) : Form where
  p := P * Real.cos θ ^ 2 + Q * Real.sin θ ^ 2
  b := (P - Q) * (Real.cos θ * Real.sin θ)
  q := P * Real.sin θ ^ 2 + Q * Real.cos θ ^ 2

section Axes

variable {P Q : ℝ} (θ x y : ℝ)

theorem eval_ofAxes : (ofAxes P Q θ).eval x y
    = P * (x * Real.cos θ + y * Real.sin θ) ^ 2 + Q * (y * Real.cos θ - x * Real.sin θ) ^ 2 := by
  simp only [ofAxes, eval]
  ring

theorem det_ofAxes : (ofAxes P Q θ).det = P * Q := by
  simp only [ofAxes, det]
  linear_combination P * Q * (Real.sin θ ^ 2 + Real.cos θ ^ 2 + 1) * Real.sin_sq_add_cos_sq θ

/-- The diagonal entries are between the eigenvalues. -/
theorem ofAxes_bounds (h : Q ≤ P) : (Q ≤ (ofAxes P Q θ).p ∧ (ofAxes P Q θ).p ≤ P) ∧
    Q ≤ (ofAxes P Q θ).q ∧ (ofAxes P Q θ).q ≤ P := by
  have hcs := Real.sin_sq_add_cos_sq θ
  have hc := mul_nonneg (sub_nonneg.2 h) (sq_nonneg (Real.cos θ))
  have hs := mul_nonneg (sub_nonneg.2 h) (sq_nonneg (Real.sin θ))
  have hQ : Q * (Real.sin θ ^ 2 + Real.cos θ ^ 2) = Q := by rw [hcs, mul_one]
  have hP : P * (Real.sin θ ^ 2 + Real.cos θ ^ 2) = P := by rw [hcs, mul_one]
  simp only [ofAxes]
  refine ⟨⟨?_, ?_⟩, ?_, ?_⟩
  all_goals linarith

theorem isPos_ofAxes (hQ : 0 < Q) (h : Q ≤ P) : (ofAxes P Q θ).IsPos where
  p_pos := hQ.trans_le (ofAxes_bounds θ h).1.1
  q_pos := hQ.trans_le (ofAxes_bounds θ h).2.1
  det_pos := by
    rw [det_ofAxes]
    exact mul_pos (hQ.trans_le h) hQ

theorem rotation_sq : (x * Real.cos θ + y * Real.sin θ) ^ 2 + (y * Real.cos θ - x * Real.sin θ) ^ 2
    = x ^ 2 + y ^ 2 := by
  linear_combination (x ^ 2 + y ^ 2) * Real.sin_sq_add_cos_sq θ

/-- The form is between the eigenvalues times the square of the length. -/
theorem eval_ofAxes_bounds (h : Q ≤ P) : Q * (x ^ 2 + y ^ 2) ≤ (ofAxes P Q θ).eval x y ∧
    (ofAxes P Q θ).eval x y ≤ P * (x ^ 2 + y ^ 2) := by
  have hx := mul_nonneg (sub_nonneg.2 h) (sq_nonneg (x * Real.cos θ + y * Real.sin θ))
  have hy := mul_nonneg (sub_nonneg.2 h) (sq_nonneg (y * Real.cos θ - x * Real.sin θ))
  rw [eval_ofAxes, ← rotation_sq θ x y]
  constructor
  · linarith
  · linarith

/-- The size, against the determinant. -/
theorem size_sq_ofAxes_le (hQ : 0 < Q) (h : Q ≤ P) :
    (ofAxes P Q θ).size ^ 2 ≤ P / Q * (ofAxes P Q θ).det := by
  have hP := hQ.trans_le h
  obtain ⟨⟨hp, hp'⟩, hq, hq'⟩ := ofAxes_bounds θ h
  have hsplit : P / Q * (P * Q) = P * P := by
    field_simp
  rw [(isPos_ofAxes θ hQ h).size_sq, det_ofAxes, hsplit]
  exact mul_le_mul hp' hq' (hQ.le.trans hq) hP.le

end Axes

end Form

/-! ## The computed matrices -/

/-- A symmetric matrix with entries that are off by `E`, next to a form with the smaller eigenvalue `Q`. -/
theorem Mat2.near_of_entries {m : Mat2} {F : Form} {E Q : ℝ} (hQ : 0 < Q)
    (hF : ∀ x y, Q * (x ^ 2 + y ^ 2) ≤ F.eval x y) (hsymm : m.m10 = m.m01)
    (h00 : |m.m00.value - F.p| ≤ E) (h01 : |m.m01.value - F.b| ≤ E) (h11 : |m.m11.value - F.q| ≤ E) :
    m.Near (2 * E / Q) 0 F where
  eval x y := by
    have hE : 0 ≤ E := (abs_nonneg _).trans h00
    have hsplit : m.evalForm x y - F.eval x y = (m.m00.value - F.p) * (x * x)
        + (m.m01.value - F.b) * (2 * (x * y)) + (m.m11.value - F.q) * (y * y) := by
      unfold evalForm Form.eval
      rw [hsymm]
      ring
    have hxx := mul_le_mul_of_nonneg_right h00 (abs_nonneg (x * x))
    have hxy := mul_le_mul_of_nonneg_right h01 (abs_nonneg (2 * (x * y)))
    have hyy := mul_le_mul_of_nonneg_right h11 (abs_nonneg (y * y))
    have hcross : |2 * (x * y)| ≤ x ^ 2 + y ^ 2 := by
      refine abs_le.2 ⟨?_, ?_⟩
      · linarith [sq_nonneg (x + y)]
      · linarith [sq_nonneg (x - y)]
    have hsum := mul_le_mul_of_nonneg_left hcross hE
    have hscale : 2 * E * (x ^ 2 + y ^ 2) ≤ 2 * E / Q * F.eval x y := by
      calc 2 * E * (x ^ 2 + y ^ 2) = 2 * E / Q * (Q * (x ^ 2 + y ^ 2)) := by
            field_simp
        _ ≤ 2 * E / Q * F.eval x y := mul_le_mul_of_nonneg_left (hF x y) (by positivity)
    rw [hsplit]
    have htri₁ := abs_add_le ((m.m00.value - F.p) * (x * x) + (m.m01.value - F.b) * (2 * (x * y)))
      ((m.m11.value - F.q) * (y * y))
    have htri₂ := abs_add_le ((m.m00.value - F.p) * (x * x)) ((m.m01.value - F.b) * (2 * (x * y)))
    rw [abs_mul] at htri₁
    rw [abs_mul, abs_mul (m.m01.value - F.b)] at htri₂
    rw [abs_mul_self x] at hxx htri₂
    rw [abs_mul_self y] at hyy htri₁
    linarith
  asym := by rw [hsymm, sub_self, abs_zero]

section Entries

variable {p : ℕ} {s t P' Q' : BinFloat} {θ P Q : ℝ}

/-- The matrix of a form with given eigenvalues, from a computed direction and computed eigenvalues. -/
theorem Mat2.near_ofAxes (hp : 64 ≤ p) (hps : p ≤ s.prec) (hpt : p ≤ t.prec)
    (hpP : p ≤ P'.prec) (hs : Close (200 * roundoff p) 1 s.value (Real.sin θ))
    (ht : Close (200 * roundoff p) 1 t.value (Real.cos θ)) (hP : Close (830 * roundoff p) P P'.value P)
    (hQ : Close (830 * roundoff p) Q Q'.value Q) (hQpos : 0 < Q) (hQP : Q ≤ P) :
    (Mat2.mk (t * t * P' + s * s * Q') (t * s * (P' - Q')) (t * s * (P' - Q'))
      (s * s * P' + t * t * Q')).Near (10000 * roundoff p * (P / Q)) 0 (Form.ofAxes P Q θ) := by
  have hu := roundoff_pos p
  have hu1 : roundoff p ≤ 1 / 2 ^ 64 := (roundoff_anti hp).trans (roundoff_eq 64).le
  have hterm {x y z : BinFloat} {v w S Z e : ℝ} (hx : p ≤ x.prec) (he : 0 ≤ e)
      (he1 : e ≤ 840 * roundoff p) (h : Close (200 * roundoff p) 1 x.value v)
      (h' : Close (200 * roundoff p) 1 y.value w) (hz : Close e S z.value Z) :
      Close (602 * roundoff p + 2 * e + 2 * roundoff p) S (x * y * z).value (v * w * Z) := by
    have hmul := Close.value_mul (hx.trans (le_max_left _ _)) (by linarith) (by linarith) (by linarith)
      (by linarith) h h'
    have hmul' := Close.value_mul (x := x * y) (y := z) (p := p) (by simp [hx]) (by linarith)
      (by linarith) he (by linarith) (hmul.mono (by linarith : _ ≤ 602 * roundoff p)) hz
    rwa [one_mul, one_mul] at hmul'
  have hdiag {x y : BinFloat} {v w : ℝ} (hx : p ≤ x.prec) (hy : p ≤ y.prec)
      (h : Close (200 * roundoff p) 1 x.value v) (h' : Close (200 * roundoff p) 1 y.value w) :
      |(x * x * P' + y * y * Q').value - (P * v ^ 2 + Q * w ^ 2)| ≤ 2400 * roundoff p * (P + Q) := by
    have hadd := Close.value_add (x := x * x * P') (y := y * y * Q') (p := p) (by simp [hx])
      (by linarith) (hterm hx (by linarith) (by linarith) h h hP)
      (hterm hy (by linarith) (by linarith) h' h' hQ)
    have hsplit : P * v ^ 2 + Q * w ^ 2 = v * v * P + w * w * Q := by ring
    rw [hsplit]
    exact hadd.sub_le.trans (mul_le_mul_of_nonneg_right (by linarith) (by linarith))
  have hoff : |(t * s * (P' - Q')).value - (P - Q) * (Real.cos θ * Real.sin θ)|
      ≤ 2400 * roundoff p * (P + Q) := by
    have hsub := Close.value_sub (x := P') (y := Q') (p := p) (hpP.trans (le_max_left _ _))
      (by linarith) hP hQ
    have hmul := hterm hpt (by linarith) (by linarith) ht hs (hsub.mono (by linarith : _ ≤ 840 * roundoff p))
    rw [mul_comm (P - Q)]
    exact hmul.sub_le.trans (mul_le_mul_of_nonneg_right (by linarith) (by linarith))
  have h00 := hdiag hpt hps ht hs
  have h11 := hdiag hps hpt hs ht
  generalize t * t * P' + s * s * Q' = m00 at h00 ⊢
  generalize t * s * (P' - Q') = m01 at hoff ⊢
  generalize s * s * P' + t * t * Q' = m11 at h11 ⊢
  have hnear := Mat2.near_of_entries (m := ⟨m00, m01, m01, m11⟩) (F := Form.ofAxes P Q θ) hQpos
    (fun x y => (Form.eval_ofAxes_bounds θ x y hQP).1) rfl h00 hoff h11
  refine hnear.mono (Form.isPos_ofAxes θ hQpos hQP) ?_ le_rfl
  rw [mul_div_assoc', div_le_div_iff_of_pos_right hQpos]
  have hscale := mul_le_mul_of_nonneg_left hQP hu.le
  have hpos := mul_pos hu hQpos
  linarith

end Entries

namespace Ellipse

section Matrix

variable {c : Constants} {semiMajor semiMinor angle : BinFloat} {A B : ℝ}

/-- The inverse square of a semi-axis. -/
theorem inverseSquare_close {x : BinFloat} {X : ℝ} (hu1 : roundoff c.prec ≤ 1 / 2 ^ 64)
    (hX : 0 < X) (hx : Within (50 * roundoff c.prec) x.value X) (hp : c.prec ≤ x.prec) :
    ∃ r, c.one.div? x = some r ∧ c.prec ≤ (r.pow 2).prec ∧
      Close (830 * roundoff c.prec) (1 / X ^ 2) (r.pow 2).value (1 / X ^ 2) := by
  have hu := roundoff_pos c.prec
  have hone : Within 0 c.one.value 1 := by
    show Within 0 (BinFloat.one c.prec).value 1
    rw [value_one]
    exact .refl le_rfl 1
  obtain ⟨hne, hdiv⟩ := value_div_of_within (x := c.one) (hp.trans (le_max_right _ _)) hX.ne'
    (by linarith) (by linarith) (by linarith) hone hx
  have hprec : c.prec ≤ (c.one / x).prec := by
    rw [prec_div]
    exact hp.trans (le_max_right _ _)
  have hpow := value_pow_within (n := 2) (m := 204) hprec (hdiv.mono (by push_cast; linarith))
    (by push_cast; linarith)
  rw [div_pow, one_pow] at hpow
  have hpos : 0 < 1 / X ^ 2 := by positivity
  refine ⟨c.one / x, div?_eq_some hne, by rwa [prec_pow], (abs_of_pos hpos).le, ?_⟩
  have hsub := hpow.sub_le
  rw [abs_of_pos hpos] at hsub
  refine hsub.trans (mul_le_mul_of_nonneg_right ?_ hpos.le)
  push_cast
  linarith

/-- **The computed matrix** is near the exact form. -/
theorem exists_matrixOf (hp : 64 ≤ c.prec) (hangle : c.prec ≤ angle.prec) (hrange : angle.InRange)
    (hB : 0 < B) (hBA : B ≤ A) (hpa : c.prec ≤ semiMajor.prec) (hpb : c.prec ≤ semiMinor.prec)
    (ha : Within (50 * roundoff c.prec) semiMajor.value A)
    (hb : Within (50 * roundoff c.prec) semiMinor.value B) :
    ∃ m, matrixOf semiMajor semiMinor angle c = .ok m ∧ m.HasPrec c.prec ∧
      m.Near (10000 * roundoff c.prec * (A ^ 2 / B ^ 2)) 0
        (Form.ofAxes (1 / B ^ 2) (1 / A ^ 2) angle.value) := by
  have hu1 : roundoff c.prec ≤ 1 / 2 ^ 64 := (roundoff_anti hp).trans (roundoff_eq 64).le
  have hA := hB.trans_le hBA
  obtain ⟨rp, hrp, hpp, hP⟩ := inverseSquare_close hu1 hB hb hpb
  obtain ⟨rq, hrq, hpq, hQ⟩ := inverseSquare_close hu1 hA ha hpa
  have hanti := mul_le_mul_of_nonneg_left (roundoff_anti hangle) (by norm_num : (0 : ℝ) ≤ 200)
  obtain ⟨s, t, htrig, hps, hpt, hsin, hcos⟩ := sinCos_spec (hp.trans hangle) hrange
  replace hps : c.prec ≤ s.prec := hps ▸ hangle
  replace hpt : c.prec ≤ t.prec := hpt ▸ hangle
  have hQP : 1 / A ^ 2 ≤ 1 / B ^ 2 :=
    one_div_le_one_div_of_le (by positivity) (pow_le_pow_left₀ hB.le hBA 2)
  have hnear := Mat2.near_ofAxes hp hps hpt hpp ⟨Real.abs_sin_le_one _, by linarith⟩
    ⟨Real.abs_cos_le_one _, by linarith⟩ hP hQ (by positivity) hQP
  have hratio : 1 / B ^ 2 / (1 / A ^ 2) = A ^ 2 / B ^ 2 := by
    field_simp
  rw [hratio] at hnear
  refine ⟨_, by
    unfold matrixOf
    rw [htrig, hrp, hrq]
    rfl, ?_, hnear⟩
  have hsum {x y z w : BinFloat} (h : c.prec ≤ x.prec) : c.prec ≤ (x * y * z + w).prec := by
    simp only [prec_add, prec_mul]
    exact le_max_of_le_left (le_max_of_le_left (le_max_of_le_left h))
  have hproduct {x y z : BinFloat} (h : c.prec ≤ x.prec) : c.prec ≤ (x * y * z).prec := by
    simp only [prec_mul]
    exact le_max_of_le_left (le_max_of_le_left h)
  exact ⟨hsum hpt, hproduct hpt, hproduct hpt, hsum hps⟩

/-- An ellipse with given axes. -/
theorem exists_ofAxes (center : Vec2) (hp : 64 ≤ c.prec) (hangle : c.prec ≤ angle.prec)
    (hrange : angle.InRange) (hB : 0 < B) (hBA : B ≤ A) (hpa : c.prec ≤ semiMajor.prec)
    (hpb : c.prec ≤ semiMinor.prec) (ha : Within (50 * roundoff c.prec) semiMajor.value A)
    (hb : Within (50 * roundoff c.prec) semiMinor.value B) :
    ∃ E, ofAxes center semiMajor semiMinor angle c = .ok E ∧ E.center = center ∧
      E.form.HasPrec c.prec ∧ E.form.Near (10000 * roundoff c.prec * (A ^ 2 / B ^ 2)) 0
        (Form.ofAxes (1 / B ^ 2) (1 / A ^ 2) angle.value) := by
  obtain ⟨m, hm, hprec, hnear⟩ := exists_matrixOf hp hangle hrange hB hBA hpa hpb ha hb
  refine ⟨⟨m, center, semiMajor, semiMinor, angle⟩, ?_, rfl, hprec, hnear⟩
  unfold ofAxes
  rw [hm]
  rfl

end Matrix

end Ellipse

end CliffordT
