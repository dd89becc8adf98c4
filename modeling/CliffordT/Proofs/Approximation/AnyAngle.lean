/-
The region of an angle of any precision.

Below the precision of the context the matrix of the region is not that of the slice: its entries are made from the
rounded squares and the rounded product of the direction. But they are computed from these accurately, so that the
computed ellipse renders an exact one, of which the determinant is bounded from below. A determinant that is negative
or zero shows in the computed one, and then the ellipse cannot be scaled and the preparation fails.
-/
import CliffordT.Proofs.Approximation.Prepare
import CliffordT.Proofs.Approximation.RoundedDirection
import CliffordT.Proofs.BinFloat.FarAngle
import CliffordT.Proofs.BinFloat.GuardBits

namespace CliffordT

open BinFloat

/-! ## Matrices with accurate entries -/

namespace Mat2

/-- A symmetric matrix whose entries are those of a form up to a part `e` of each. -/
structure HasEntries (e : ℝ) (m : Mat2) (F : Form) : Prop where
  m00 : Within e m.m00.value F.p
  m01 : Within e m.m01.value F.b
  m11 : Within e m.m11.value F.q
  symm : m.m10 = m.m01

variable {m : Mat2} {F : Form} {e K : ℝ} {p : ℕ}

/-- Accurate entries make a matrix that is near the form. -/
theorem HasEntries.near (h : m.HasEntries e F) (he : 0 ≤ e) (hF : F.IsPos) (hK : F.size ^ 2 ≤ K * F.det) :
    m.Near (4 * e * K) 0 F where
  eval x y := by
    have hD := hF.det_pos
    have hp := hF.p_pos
    have hq := hF.q_pos
    have hsplit : m.evalForm x y - F.eval x y = (m.m00.value - F.p) * x ^ 2
        + (m.m01.value - F.b) * (2 * (x * y)) + (m.m11.value - F.q) * y ^ 2 := by
      unfold evalForm Form.eval
      rw [h.symm]
      ring
    have hxx := mul_le_mul_of_nonneg_right h.m00.sub_le (abs_nonneg (x ^ 2))
    have hxy := mul_le_mul_of_nonneg_right h.m01.sub_le (abs_nonneg (2 * (x * y)))
    have hyy := mul_le_mul_of_nonneg_right h.m11.sub_le (abs_nonneg (y ^ 2))
    rw [abs_of_pos hp, abs_of_nonneg (sq_nonneg x)] at hxx
    rw [abs_of_pos hq, abs_of_nonneg (sq_nonneg y)] at hyy
    -- the entry off the diagonal is bounded by the diagonal
    have hcross : |F.b| * |2 * (x * y)| ≤ F.p * x ^ 2 + F.q * y ^ 2 := by
      rw [← abs_mul]
      have hneg : 0 ≤ F.eval x (-y) := hF.eval_nonneg x (-y)
      have hpos : 0 ≤ F.eval x y := hF.eval_nonneg x y
      unfold Form.eval at hneg hpos
      exact abs_le.2 ⟨by linarith, by linarith⟩
    have hoff := mul_le_mul_of_nonneg_left hcross he
    have hdiag : F.p * x ^ 2 + F.q * y ^ 2 ≤ 2 * K * F.eval x y := by
      have heval := hF.eval_nonneg x y
      refine le_of_mul_le_mul_left ((hF.le_eval x y).trans ?_) hD
      have := mul_le_mul_of_nonneg_right hK heval
      linarith
    have hscaled := mul_le_mul_of_nonneg_left hdiag he
    rw [hsplit]
    have htri₁ := abs_add_le ((m.m00.value - F.p) * x ^ 2 + (m.m01.value - F.b) * (2 * (x * y)))
      ((m.m11.value - F.q) * y ^ 2)
    have htri₂ := abs_add_le ((m.m00.value - F.p) * x ^ 2) ((m.m01.value - F.b) * (2 * (x * y)))
    rw [abs_mul, abs_of_nonneg (sq_nonneg y)] at htri₁
    rw [abs_mul, abs_mul (m.m01.value - F.b), abs_of_nonneg (sq_nonneg x)] at htri₂
    linarith
  asym := by rw [h.symm, sub_self, abs_zero]

/-- A determinant that is not too small has the sign that is computed. -/
theorem HasEntries.det_pos (h : m.HasEntries e F) (hprec : m.HasPrec p) (he : 0 ≤ e) (hp : 0 ≤ F.p) (hq : 0 ≤ F.q)
    (hK : F.p * F.q ≤ K * |F.det|) (hK0 : 0 ≤ K) (hsmall : (3 * e + 5 * roundoff p) * (2 * K + 1) ≤ 1 / 4)
    (hpos : 0 < m.determinant.value) : 0 < F.det := by
  have hu := roundoff_pos p
  have h10 : Within e m.m10.value F.b := h.symm ▸ h.m01
  have hsub := (Close.value_mul_sub_mul hprec.m00 hprec.m01 he he (by nlinarith) h.m00 h.m11 h.m01 h10).sub_le
  have hdet : F.p * F.q - F.b * F.b = F.det := by
    unfold Form.det
    ring
  rw [hdet, abs_of_nonneg hp, abs_of_nonneg hq, abs_mul_abs_self] at hsub
  have hdeterminant : (m.m00 * m.m11 - m.m01 * m.m10).value = m.determinant.value := rfl
  rw [hdeterminant] at hsub
  have hbb : F.b * F.b ≤ K * |F.det| + |F.det| := by
    have := neg_abs_le F.det
    linarith
  have hbound : (e + 2 * e + 5 * roundoff p) * (F.p * F.q + F.b * F.b) ≤ 1 / 4 * |F.det| := by
    calc (e + 2 * e + 5 * roundoff p) * (F.p * F.q + F.b * F.b)
        ≤ (e + 2 * e + 5 * roundoff p) * (K * |F.det| + (K * |F.det| + |F.det|)) :=
          mul_le_mul_of_nonneg_left (add_le_add hK hbb) (by linarith)
      _ = (3 * e + 5 * roundoff p) * (2 * K + 1) * |F.det| := by ring
      _ ≤ 1 / 4 * |F.det| := mul_le_mul_of_nonneg_right hsmall (abs_nonneg _)
  by_contra hneg
  rw [not_lt] at hneg
  have habs := abs_of_nonpos hneg
  have hle := (abs_le.1 (hsub.trans hbound)).2
  linarith

end Mat2

/-! ## Bounds that take whatever there is -/

/-- An exact ellipse is bounded, if nothing is said about how far. -/
theorem ExactEllipse.exists_bounded {X : ExactEllipse} {K N : ℝ} (hX : X.form.IsPos)
    (hK : X.form.size ^ 2 ≤ K * X.form.det) (hN : |X.form.z| ≤ N) : ∃ Γ, 1 ≤ Γ ∧ X.Bounded K Γ N := by
  have hp := hX.p_pos
  have hq := hX.q_pos
  obtain ⟨Λ, hΛ, hcenter⟩ : ∃ Λ, 1 ≤ Λ ∧ ∀ i, |X.center i| ≤ Λ :=
    ⟨1 + |X.center 0| + |X.center 1|, by linarith [abs_nonneg (X.center 0), abs_nonneg (X.center 1)],
      Fin.forall_fin_two.2 ⟨by linarith [abs_nonneg (X.center 1)], by linarith [abs_nonneg (X.center 0)]⟩⟩
  -- the sum of the diagonal entries bounds the form
  obtain ⟨P, hP, heval⟩ : ∃ P, 1 ≤ P ∧ ∀ x y, 2 * X.form.eval x y ≤ P ^ 2 * (x ^ 2 + y ^ 2) := by
    refine ⟨1 + 2 * (X.form.p + X.form.q), by linarith, fun x y => ?_⟩
    have hle := hX.eval_le x y
    have hsum : 4 * (X.form.p + X.form.q) ≤ (1 + 2 * (X.form.p + X.form.q)) ^ 2 := by
      linarith [sq_nonneg (1 - 2 * (X.form.p + X.form.q)), sq_nonneg (X.form.p + X.form.q)]
    have hscaled := mul_le_mul_of_nonneg_right hsum (by positivity : 0 ≤ x ^ 2 + y ^ 2)
    have hpx := mul_nonneg hp.le (sq_nonneg y)
    have hqx := mul_nonneg hq.le (sq_nonneg x)
    linarith
  have hpos : 0 < Λ := by linarith
  refine ⟨P * Λ, one_le_mul_of_one_le_of_one_le hP hΛ, hX, hK, ⟨Λ, hΛ, hcenter, fun x y => ?_⟩, ?_, hN⟩
  · rw [mul_div_cancel_right₀ _ hpos.ne']
    linarith [heval x y, hX.eval_nonneg x y]
  · refine Real.sqrt_le_iff.2 ⟨by positivity, ?_⟩
    have hcoord (i : Fin 2) : X.center i ^ 2 ≤ Λ ^ 2 := by
      rw [← sq_abs]
      exact pow_le_pow_left₀ (abs_nonneg _) (hcenter i) 2
    have hscaled := mul_le_mul_of_nonneg_left (add_le_add (hcoord 0) (hcoord 1)) (sq_nonneg P)
    rw [mul_pow]
    linarith [heval (X.center 0) (X.center 1)]

/-! ## Ellipses that can be scaled -/

/-- An ellipse that can be scaled by its normalizer has a positive determinant. -/
theorem Ellipse.determinant_pos_of_rescale {E E' : Ellipse} {c : Constants}
    (h : E.rescale E.normalizer c = .ok E') : 0 < E.determinant.value := by
  by_contra hneg
  rw [not_lt] at hneg
  have hroot : E.normalizer.value = 0 := value_sqrt_of_nonpos (value_sqrt_of_nonpos hneg).le
  have hsq : (E.normalizer * E.normalizer).value = 0 :=
    (value_mul_within (Nat.zero_le _)).eq_zero (by rw [hroot, zero_mul])
  have hzero : (E.normalizer * E.normalizer).isZero := decide_eq_true (value_eq_zero_iff.1 hsq)
  have hdiv : c.one.div? (E.normalizer * E.normalizer) = none := if_pos hzero
  unfold rescale at h
  rw [hdiv] at h
  cases h

/-- An optimization scales the first ellipse by its normalizer. -/
theorem EllipsePair.exists_rescale_of_optimize {c : Constants} {a b : Ellipse} {g : GridOperator} {s : EllipsePair}
    (h : (optimize c).Yields ⟨a, b⟩ g s) : ∃ a', a.rescale a.normalizer c = .ok a' := by
  unfold optimize at h
  have hfirst := (OnPair.yields_get _).of_bind h
  have hsecond := (OnPair.yields_get _).of_bind hfirst
  have hrun := (OnPair.yields_get _).of_bind hsecond
  obtain ⟨a', s', hscale, -⟩ := hrun.exists_of_bind
  cases hrescale : a.rescale a.normalizer c with
  | error e =>
    rw [hrescale] at hscale
    cases hscale
  | ok a' => exact ⟨a', rfl⟩

namespace Approximation

open EllipsePair

/-! ## The eigenvalues -/

/-- The smaller eigenvalue of the slice for `d` digits. -/
noncomputable def sliceWeight (d : ℕ) : ℝ := 3 / ((1 / 10 ^ d) ^ 2 * (4 - (1 / 10 ^ d) ^ 2))

theorem inv_ten_pow_bounds (d : ℕ) : (0 : ℝ) < 1 / 10 ^ d ∧ (1 / 10 ^ d : ℝ) ^ 2 ≤ 1 := by
  have hpow : (1 : ℝ) ≤ 10 ^ d := one_le_pow₀ (by norm_num)
  have hpos : (0 : ℝ) < 1 / 10 ^ d := by positivity
  exact ⟨hpos, pow_le_one₀ hpos.le ((div_le_one (by linarith)).2 hpow)⟩

theorem sliceWeight_pos (d : ℕ) : 0 < sliceWeight d := by
  obtain ⟨hpos, hle⟩ := inv_ten_pow_bounds d
  exact div_pos three_pos (mul_pos (by positivity) (by linarith))

theorem hundred_pow_eq (d : ℕ) : (100 : ℝ) ^ d = (10 ^ d) ^ 2 := by
  rw [← pow_mul, mul_comm, pow_mul]
  norm_num

/-- The larger eigenvalue. -/
theorem axisRatio_mul_sliceWeight (d : ℕ) : axisRatio d * sliceWeight d = 9 / (1 / 10 ^ d) ^ 4 := by
  obtain ⟨hpos, hle⟩ := inv_ten_pow_bounds d
  have hratio : (axisRatio d : ℝ) = 3 * (4 - (1 / 10 ^ d) ^ 2) / (1 / 10 ^ d) ^ 2 := by
    unfold axisRatio
    push_cast
    rw [hundred_pow_eq]
    field_simp
    ring
  unfold sliceWeight
  rw [hratio]
  generalize (1 / 10 ^ d : ℝ) = ε at *
  have hfour : 4 - ε ^ 2 ≠ 0 := by linarith
  field_simp
  ring

/-- The inverse squares of the semi-axes, for an accuracy that is a power of ten up to a part `u`. -/
theorem inverse_squares_within {ε u : ℝ} {d : ℕ} (hu : 0 ≤ u) (hu1 : 1000 * u ≤ 1) (hε : 0 < ε) (hε1 : ε ≤ 1)
    (h : Within (2 * u) ε (1 / 10 ^ d)) :
    Within (36 * u) (1 / (ε ^ 2 / 3) ^ 2) (axisRatio d * sliceWeight d) ∧
      Within (36 * u) (1 / (2 / √3 * ε * √(1 - ε ^ 2 / 4)) ^ 2) (sliceWeight d) := by
  obtain ⟨hpos, hle⟩ := inv_ten_pow_bounds d
  have hsq : Within (6 * u) (ε ^ 2) ((1 / 10 ^ d) ^ 2) := by
    rw [sq, sq]
    exact (h.mul (by linarith) h).mono (by linarith)
  rw [axisRatio_mul_sliceWeight, ExactEllipse.sq_semiMajor hε hε1, sliceWeight]
  generalize (1 / 10 ^ d : ℝ) = δ at *
  have hfourth : Within (18 * u) ((ε ^ 2) ^ 2) ((δ ^ 2) ^ 2) := by
    rw [sq (ε ^ 2), sq (δ ^ 2)]
    exact (hsq.mul (by linarith) hsq).mono (by linarith)
  have hrest : Within (6 * u) (4 - ε ^ 2) (4 - δ ^ 2) := by
    have hsub := hsq.sub_le
    rw [abs_of_nonneg (sq_nonneg δ)] at hsub
    unfold Within
    rw [sub_sub_sub_cancel_left, abs_sub_comm, abs_of_pos (by linarith : 0 < 4 - δ ^ 2)]
    exact hsub.trans (mul_le_mul_of_nonneg_left (by linarith) (by linarith))
  have hprod := (hsq.mul (by linarith) hrest).mono (by linarith : 6 * u + 2 * (6 * u) ≤ 18 * u)
  have hminor := (hfourth.inv (by linarith) (by linarith)).const_mul 9
  have hmajor := (hprod.inv (by linarith) (by linarith)).const_mul 3
  constructor
  · have hε4 : 1 / (ε ^ 2 / 3) ^ 2 = 9 * ((ε ^ 2) ^ 2)⁻¹ := by
      field_simp
      norm_num
    have hδ4 : 9 / δ ^ 4 = 9 * ((δ ^ 2) ^ 2)⁻¹ := by
      rw [div_eq_mul_inv]
      ring
    rw [hε4, hδ4]
    exact hminor.mono (by linarith)
  · rw [one_div_div, div_eq_mul_inv, div_eq_mul_inv]
    exact hmajor.mono (by linarith)

/-! ## The form -/

/-- The form of the region for `d` digits, from the squares and the product of its direction as they are computed. -/
noncomputable def tiltedForm (d : ℕ) (A B C : ℝ) : Form where
  p := sliceWeight d * (axisRatio d * A + B)
  b := sliceWeight d * ((axisRatio d - 1) * C)
  q := sliceWeight d * (axisRatio d * B + A)

theorem det_tiltedForm (d : ℕ) (A B C : ℝ) :
    (tiltedForm d A B C).det = sliceWeight d ^ 2 * RoundedDirection.det d A B C := by
  unfold tiltedForm Form.det RoundedDirection.det
  ring

theorem diag_tiltedForm (d : ℕ) (A B C : ℝ) :
    (tiltedForm d A B C).p * (tiltedForm d A B C).q = sliceWeight d ^ 2 * RoundedDirection.diag d A B := by
  unfold tiltedForm RoundedDirection.diag
  ring

theorem p_tiltedForm_nonneg {d : ℕ} {A B : ℝ} (hd : 0 < d) (hA : 0 ≤ A) (hB : 0 ≤ B) (C : ℝ) :
    0 ≤ (tiltedForm d A B C).p := by
  obtain ⟨hM, -⟩ := axisRatio_bounds hd
  exact mul_nonneg (sliceWeight_pos d).le (add_nonneg (mul_nonneg (by linarith) hA) hB)

/-- One diagonal entry is at most the ratio of the eigenvalues times the other one. -/
theorem p_tiltedForm_le {d : ℕ} {A B : ℝ} (hd : 0 < d) (hA : 0 ≤ A) (hB : 0 ≤ B) (C : ℝ) :
    (tiltedForm d A B C).p ≤ (lambdaReal ^ (3 * d + 2)) ^ 2 * (tiltedForm d A B C).q := by
  obtain ⟨hM, hM'⟩ := axisRatio_bounds hd
  have hle : (axisRatio d : ℝ) ≤ (lambdaReal ^ (3 * d + 2)) ^ 2 := by
    rw [hundred_pow_eq] at hM'
    linarith [slice_exponent_le d, sq_nonneg ((10 : ℝ) ^ d)]
  have hsq := mul_le_mul_of_nonneg_right (one_le_pow₀ (by linarith) : 1 ≤ (axisRatio d : ℝ) ^ 2) hB
  calc (tiltedForm d A B C).p ≤ sliceWeight d * (axisRatio d * (axisRatio d * B + A)) :=
        mul_le_mul_of_nonneg_left (by linarith) (sliceWeight_pos d).le
    _ = axisRatio d * (tiltedForm d A B C).q := mul_left_comm _ _ _
    _ ≤ _ := mul_le_mul_of_nonneg_right hle (p_tiltedForm_nonneg hd hB hA C)

section Entries

variable {d p : ℕ} {P Q : BinFloat} (hd : 0 < d) (hp : 64 ≤ p) (hpP : p ≤ P.prec)
  (hP : Within (1700 * roundoff p) P.value (axisRatio d * sliceWeight d))
  (hQ : Within (1700 * roundoff p) Q.value (sliceWeight d))
include hd hp hpP hP hQ

/-- A computed diagonal entry, in which nothing cancels. -/
theorem diagonal_within (hpQ : p ≤ Q.prec) (x y : BinFloat) :
    Within (1800 * roundoff p) (x * x * P + y * y * Q).value
      (sliceWeight d * (axisRatio d * (x * x).value + (y * y).value)) := by
  have hu := roundoff_pos p
  have hu1 : roundoff p ≤ 1 / 2 ^ 64 := (roundoff_anti hp).trans (roundoff_eq 64).le
  have hw := sliceWeight_pos d
  obtain ⟨hM, -⟩ := axisRatio_bounds hd
  have hx : 0 ≤ (x * x).value * (axisRatio d * sliceWeight d) :=
    mul_nonneg (value_mul_self_nonneg x) (mul_nonneg (by linarith) hw.le)
  have hy : 0 ≤ (y * y).value * sliceWeight d := mul_nonneg (value_mul_self_nonneg y) hw.le
  have hfst := (value_mul_within (x := x * x) (hpP.trans (le_max_right _ _))).trans hu.le (by linarith)
    (hP.const_mul (x * x).value)
  have hsnd := (value_mul_within (x := y * y) (hpQ.trans (le_max_right _ _))).trans hu.le (by linarith)
    (hQ.const_mul (y * y).value)
  have hprec : p ≤ (x * x * P).prec := by
    rw [prec_mul]
    exact hpP.trans (le_max_right _ _)
  have hsum := (Close.value_add (hprec.trans (le_max_left _ _)) (by linarith) (.of_within hfst)
    (.of_within hsnd)).sub_le
  rw [abs_of_nonneg hx, abs_of_nonneg hy] at hsum
  have hsplit : sliceWeight d * (axisRatio d * (x * x).value + (y * y).value)
      = (x * x).value * (axisRatio d * sliceWeight d) + (y * y).value * sliceWeight d := by ring
  unfold Within
  rw [hsplit, abs_of_nonneg (add_nonneg hx hy)]
  exact hsum.trans (mul_le_mul_of_nonneg_right (by linarith) (add_nonneg hx hy))

/-- The computed difference of the eigenvalues: their ratio is so large that it is about as large as their sum. -/
theorem difference_within :
    Within (1750 * roundoff p) (P - Q).value ((axisRatio d - 1) * sliceWeight d) := by
  have hu := roundoff_pos p
  have hu1 : roundoff p ≤ 1 / 2 ^ 64 := (roundoff_anti hp).trans (roundoff_eq 64).le
  have hw := sliceWeight_pos d
  obtain ⟨hM, -⟩ := axisRatio_bounds hd
  have hratio := mul_le_mul_of_nonneg_right hM hw.le
  have hdiff : 0 ≤ (axisRatio d - 1) * sliceWeight d := mul_nonneg (by linarith) hw.le
  have hle : axisRatio d * sliceWeight d + sliceWeight d ≤ 1002 / 1000 * ((axisRatio d - 1) * sliceWeight d) := by
    linarith
  have hsub := (Close.value_sub (hpP.trans (le_max_left _ _)) (by linarith) (.of_within hP) (.of_within hQ)).sub_le
  rw [abs_of_nonneg (mul_nonneg (by linarith) hw.le), abs_of_pos hw, ← sub_one_mul] at hsub
  have hscaled := mul_le_mul_of_nonneg_left hle (by linarith : 0 ≤ 1703 * roundoff p)
  have hpos := mul_nonneg hu.le hdiff
  unfold Within
  rw [abs_of_nonneg hdiff]
  linarith

/-- **The computed matrix** has the entries of the form. -/
theorem hasEntries_tiltedForm (hpQ : p ≤ Q.prec) (s t : BinFloat) :
    (Mat2.mk (t * t * P + s * s * Q) (t * s * (P - Q)) (t * s * (P - Q)) (s * s * P + t * t * Q)).HasEntries
      (1800 * roundoff p) (tiltedForm d (t * t).value (s * s).value (t * s).value) := by
  have hu := roundoff_pos p
  have hu1 : roundoff p ≤ 1 / 2 ^ 64 := (roundoff_anti hp).trans (roundoff_eq 64).le
  refine ⟨diagonal_within hd hp hpP hP hQ hpQ t s, ?_, diagonal_within hd hp hpP hP hQ hpQ s t, rfl⟩
  have hprec : p ≤ (P - Q).prec := by
    rw [prec_sub]
    exact hpP.trans (le_max_left _ _)
  have hoff := (value_mul_within (x := t * s) (hprec.trans (le_max_right _ _))).trans hu.le (by linarith)
    ((difference_within hd hp hpP hP hQ).const_mul (t * s).value)
  have hsplit : (tiltedForm d (t * t).value (s * s).value (t * s).value).b
      = (t * s).value * ((axisRatio d - 1) * sliceWeight d) := by
    unfold tiltedForm
    ring
  rw [hsplit]
  exact hoff.mono (by linarith)

end Entries

/-! ## The region -/

section Region

variable {d : ℕ} {theta sin cos : BinFloat} {A : Ellipse}

/-- The region of any angle has the form that its computed direction gives. -/
theorem hasEntries_of_epsilonRegion (hd : 0 < d) (htrig : theta.sinCos = .ok (sin, cos))
    (hA : Ellipse.epsilonRegion theta (Constants.ofDigits d).eps (Constants.ofDigits d) = .ok A) :
    A.form.HasPrec (20 * d + 128) ∧ A.form.HasEntries (1800 * roundoff (20 * d + 128))
      (tiltedForm d (cos * cos).value (sin * sin).value (cos * sin).value) := by
  have hp : 64 ≤ (Constants.ofDigits d).prec := by
    show 64 ≤ 20 * d + 128
    omega
  have hu := roundoff_pos (Constants.ofDigits d).prec
  have hu1 : roundoff (Constants.ofDigits d).prec ≤ 1 / 2 ^ 64 := (roundoff_anti hp).trans (roundoff_eq 64).le
  have hc := Constants.ofDigits_accurate hd
  have hε := eps_pos d
  have hε2 : (Constants.ofDigits d).eps.value ^ 2 ≤ 1 := pow_le_one₀ hε.le hc.eps_le_one
  have hroot : 0 < √(1 - (Constants.ofDigits d).eps.value ^ 2 / 4) := Real.sqrt_pos.2 (by linarith)
  have hprec := hc.prec_eps.ge
  -- both inverse squares are accurate for the power of ten that the accuracy is computed for
  obtain ⟨hminor, hmajor⟩ := inverse_squares_within hu.le (by linarith) hε hc.eps_le_one (Constants.eps_within d)
  obtain ⟨P, hP, hpP, hcloseP⟩ := Ellipse.inverseSquare_close hu1 (by positivity)
    (Ellipse.semiMinor_within hp hprec rfl) (by
      rw [prec_div, prec_mul]
      exact le_max_of_le_left (hprec.trans (le_max_left _ _)))
  obtain ⟨Q, hQ, hpQ, hcloseQ⟩ := Ellipse.inverseSquare_close hu1 (by positivity)
    (Ellipse.semiMajor_within hp hprec rfl hε hc.eps_le_one) (by
      rw [prec_mul, prec_mul]
      exact le_max_of_le_left (hprec.trans (le_max_right _ _)))
  have hcompose {x v w : ℝ} (hv : 0 ≤ v) (h : Close (830 * roundoff (Constants.ofDigits d).prec) v x v)
      (h' : Within (36 * roundoff (Constants.ofDigits d).prec) v w) :
      Within (1700 * roundoff (Constants.ofDigits d).prec) x w := by
    have hwithin : Within (830 * roundoff (Constants.ofDigits d).prec) x v := by
      have hsub := h.sub_le
      unfold Within
      rwa [abs_of_nonneg hv]
    exact (hwithin.trans (by linarith) (by linarith) h').mono (by linarith)
  have hentries := hasEntries_tiltedForm hd hp hpP (hcompose (by positivity) hcloseP hminor)
    (hcompose (by positivity) hcloseQ hmajor) hpQ sin cos
  unfold Ellipse.epsilonRegion Ellipse.ofAxes Ellipse.matrixOf at hA
  rw [htrig] at hA
  dsimp only at hA
  rw [hP, hQ] at hA
  cases hA
  refine ⟨?_, hentries⟩
  have hproduct {x y : BinFloat} (h : (Constants.ofDigits d).prec ≤ y.prec) :
      (Constants.ofDigits d).prec ≤ (x * y).prec := by
    rw [prec_mul]
    exact h.trans (le_max_right _ _)
  have hsum {x y z : BinFloat} (h : (Constants.ofDigits d).prec ≤ y.prec) :
      (Constants.ofDigits d).prec ≤ (x * y + z).prec := by
    rw [prec_add]
    exact (hproduct h).trans (le_max_left _ _)
  have hdifference : (Constants.ofDigits d).prec ≤ (P.pow 2 - Q.pow 2).prec := by
    rw [prec_sub]
    exact hpP.trans (le_max_left _ _)
  exact ⟨hsum hpP, hproduct hdifference, hproduct hdifference, hsum hpP⟩

/-- The product of the diagonal entries, next to the determinant. -/
noncomputable def tiltRoom (d : ℕ) : ℝ := 2 ^ (20 * d + 60) / d

/-- The determinant of the form is not far smaller than the product of the diagonal entries, whichever sign it has. -/
theorem diag_tiltedForm_le (hd : 0 < d) (hd' : d ≤ 214748364) (htrig : theta.sinCos = .ok (sin, cos)) :
    (tiltedForm d (cos * cos).value (sin * sin).value (cos * sin).value).p
        * (tiltedForm d (cos * cos).value (sin * sin).value (cos * sin).value).q
      ≤ tiltRoom d * |(tiltedForm d (cos * cos).value (sin * sin).value (cos * sin).value).det| := by
  obtain ⟨hsin, hcos⟩ := prec_of_sinCos htrig
  have hle := (RoundedDirection.of_mul hsin hcos).diag_le_det hd hd'
    (fun hlow hhigh => (squares_of_sinCos hlow (by omega) htrig).1 hhigh)
    fun hlow hhigh => (squares_of_sinCos (by omega) (by omega) htrig).2 hlow
  have hd0 : (0 : ℝ) < d := by exact_mod_cast hd
  rw [diag_tiltedForm, det_tiltedForm, abs_mul, abs_of_nonneg (sq_nonneg _), tiltRoom,
    div_mul_eq_mul_div, le_div_iff₀ hd0]
  have := mul_le_mul_of_nonneg_left hle (sq_nonneg (sliceWeight d))
  linarith

/-! ## Room for the reductions -/

theorem roundoff_mul_tiltRoom (hd : 0 < d) : d * (roundoff (20 * d + 128) * tiltRoom d) = 1 / 2 ^ 68 := by
  have hd0 : (d : ℝ) ≠ 0 := by exact_mod_cast hd.ne'
  have hpow : (2 : ℝ) ^ (20 * d + 128) = 2 ^ (20 * d + 60) * 2 ^ 68 := by rw [← pow_add]
  rw [tiltRoom, roundoff_eq, hpow]
  field_simp

theorem roundoff_mul_tiltRoom_le (hd : 0 < d) :
    0 ≤ roundoff (20 * d + 128) * tiltRoom d ∧ roundoff (20 * d + 128) * tiltRoom d ≤ 1 / 2 ^ 68 := by
  have hu := roundoff_pos (20 * d + 128)
  have hd1 : (1 : ℝ) ≤ d := by exact_mod_cast hd
  have hpos : 0 ≤ roundoff (20 * d + 128) * tiltRoom d := by
    unfold tiltRoom
    positivity
  exact ⟨hpos, (le_mul_of_one_le_left hpos hd1).trans (roundoff_mul_tiltRoom hd).le⟩

/-- A bound of the sizes at the scale of the reductions. -/
noncomputable def tiltSize (d : ℕ) : ℝ := √(4 * tiltRoom d)

theorem tiltSize_sq (d : ℕ) : tiltSize d ^ 2 = 4 * tiltRoom d :=
  Real.sq_sqrt (by
    unfold tiltRoom
    positivity)

theorem tiltRoom_bounds (hd : 0 < d) : 12 ≤ tiltRoom d ∧ tiltRoom d ≤ 2 ^ (20 * d + 60) := by
  have hd1 : (1 : ℝ) ≤ d := by exact_mod_cast hd
  have hself : (d : ℝ) ≤ 2 ^ d := by exact_mod_cast Nat.lt_two_pow_self.le
  have hpow : (2 : ℝ) ^ (d + 4) ≤ 2 ^ (20 * d + 60) := pow_le_pow_right₀ (by norm_num) (by omega)
  rw [pow_add] at hpow
  exact ⟨(le_div_iff₀ (by linarith)).2 (by linarith), div_le_self (by positivity) hd1⟩

theorem tiltSize_bounds (hd : 0 < d) : 1 ≤ tiltSize d ∧ tiltSize d ≤ 2 ^ (10 * d + 31) := by
  obtain ⟨hroom, hroom'⟩ := tiltRoom_bounds hd
  refine ⟨Real.one_le_sqrt.2 (by linarith), Real.sqrt_le_iff.2 ⟨by positivity, ?_⟩⟩
  have hsplit : ((2 : ℝ) ^ (10 * d + 31)) ^ 2 = 4 * 2 ^ (20 * d + 60) := by
    rw [← pow_mul, show (10 * d + 31) * 2 = 20 * d + 60 + 2 by ring, pow_add]
    ring
  rw [hsplit]
  linarith

/-- **The working precision affords the reductions** that are tried, for a region of any angle. -/
theorem affords_tilted (hd : 0 < d) (hprec : 20 * d + 128 < 2 ^ 32) :
    Affords (Constants.ofDigits d) (1 / 10000) maxReductions (51 * roundoff (20 * d + 128))
      (27000000 * (d * roundoff (20 * d + 128))) (tiltSize d) (3 * d + 2 : ℕ) (24 * d + 80 : ℕ) := by
  have hu := roundoff_pos (20 * d + 128)
  have hd1 : (1 : ℝ) ≤ d := by exact_mod_cast hd
  have hdu : roundoff (20 * d + 128) ≤ d * roundoff (20 * d + 128) := le_mul_of_one_le_left hu.le hd1
  have hmax : (maxReductions : ℝ) = 1000 := by norm_num [maxReductions]
  have hself : (d : ℝ) ≤ 2 ^ d := by exact_mod_cast Nat.lt_two_pow_self.le
  have h32 : (20 : ℝ) * d + 128 < 2 ^ 32 := by exact_mod_cast hprec
  obtain ⟨hsize, hsize'⟩ := tiltSize_bounds hd
  refine ⟨by positivity, Nat.cast_nonneg _, Nat.cast_nonneg _, ?_, ⟨?_, le_rfl, ?_⟩, ?_, ?_⟩
  · show 250 * (((3 * d + 2 : ℕ) : ℝ) + maxReductions * ((24 * d + 80 : ℕ) + 2) + 2 + 1)
      * roundoff (20 * d + 128) ≤ _
    rw [hmax]
    push_cast
    linarith
  · exact (Constants.tol_bounds hd).2.trans (by norm_num)
  · -- the precision exceeds the digits of the determinant by as much as a thousand reductions take
    have hroom := roundoff_mul_tiltRoom hd
    obtain ⟨-, hroom'⟩ := roundoff_mul_tiltRoom_le hd
    rw [tiltSize_sq, hmax]
    linarith
  · refine inRange_of_le (w := d + 18) hd (by positivity) ?_ ?_ (by omega)
    · rw [hmax]
      push_cast
      linarith
    · rw [hmax, pow_add]
      push_cast
      linarith
  · have hlam : (2 : ℝ) ^ 5 ≤ lambdaReal ^ 4 :=
      le_trans (by norm_num) (pow_le_pow_left₀ (by norm_num) lambdaReal_bounds.1.le 4)
    have hcube := pow_le_pow_left₀ (by linarith) hsize' 3
    rw [Real.rpow_natCast]
    calc 70 * tiltSize d ^ 3 ≤ 2 ^ 7 * (2 ^ (10 * d + 31)) ^ 3 :=
          mul_le_mul (by norm_num) hcube (by positivity) (by positivity)
      _ = (2 ^ 5) ^ (6 * d + 20) := by
          rw [← pow_mul, ← pow_mul, ← pow_add]
          congr 1
          ring
      _ ≤ (lambdaReal ^ 4) ^ (6 * d + 20) := pow_le_pow_left₀ (by positivity) hlam _
      _ = lambdaReal ^ (24 * d + 80) := by
          rw [← pow_mul]
          congr 1
          ring

/-! ## What is prepared -/

/-- The region of any angle renders an exact ellipse that is bounded, once it can be scaled. -/
theorem exists_rendered_of_rescale {A' : Ellipse} (hd : 0 < d) (hd' : d ≤ 214748364)
    (htrig : theta.sinCos = .ok (sin, cos))
    (hA : Ellipse.epsilonRegion theta (Constants.ofDigits d).eps (Constants.ofDigits d) = .ok A)
    (hscale : A.rescale A.normalizer (Constants.ofDigits d) = .ok A') :
    ∃ X Γ, 1 ≤ Γ ∧ ExactEllipse.Bounded (tiltRoom d) Γ (3 * d + 2 : ℕ) X ∧
      A.Renders (20 * d + 128) (10000 * roundoff (20 * d + 128) * tiltRoom d)
        (600 * roundoff (20 * d + 128)) X := by
  have hu := roundoff_pos (20 * d + 128)
  have hu1 : roundoff (20 * d + 128) ≤ 1 / 2 ^ 128 := (roundoff_anti (by omega)).trans (roundoff_eq 128).le
  obtain ⟨hroom, hroom'⟩ := roundoff_mul_tiltRoom_le hd
  have hroom0 : 0 ≤ tiltRoom d := nonneg_of_mul_nonneg_right hroom hu
  have hcos := value_mul_self_nonneg cos
  have hsin := value_mul_self_nonneg sin
  obtain ⟨hprec, hentries⟩ := hasEntries_of_epsilonRegion hd htrig hA
  have hdiag := diag_tiltedForm_le hd hd' htrig
  have hp := p_tiltedForm_nonneg hd hcos hsin (cos * sin).value
  have hq : 0 ≤ (tiltedForm d (cos * cos).value (sin * sin).value (cos * sin).value).q :=
    p_tiltedForm_nonneg hd hsin hcos (cos * sin).value
  have hpq : (tiltedForm d (cos * cos).value (sin * sin).value (cos * sin).value).p
      ≤ (lambdaReal ^ (3 * d + 2)) ^ 2 * (tiltedForm d (cos * cos).value (sin * sin).value (cos * sin).value).q :=
    p_tiltedForm_le hd hcos hsin _
  have hqp : (tiltedForm d (cos * cos).value (sin * sin).value (cos * sin).value).q
      ≤ (lambdaReal ^ (3 * d + 2)) ^ 2 * (tiltedForm d (cos * cos).value (sin * sin).value (cos * sin).value).p :=
    p_tiltedForm_le hd hsin hcos (cos * sin).value
  generalize tiltedForm d (cos * cos).value (sin * sin).value (cos * sin).value = F at *
  have hdet := hentries.det_pos hprec (by positivity) hp hq hdiag hroom0 (by linarith)
    (Ellipse.determinant_pos_of_rescale hscale)
  have hprod : 0 < F.p * F.q := by
    have hsq := sq_nonneg F.b
    unfold Form.det at hdet
    linarith
  have hpos : F.IsPos := ⟨pos_of_mul_pos_left hprod hq, pos_of_mul_pos_right hprod hp, hdet⟩
  rw [abs_of_pos hdet, ← hpos.size_sq] at hdiag
  obtain ⟨Γ, hΓ, hbounded⟩ := ExactEllipse.exists_bounded (X := ⟨F, ![A.center.x.value, A.center.y.value]⟩) hpos
    hdiag (hpos.abs_z_le hqp hpq)
  refine ⟨_, Γ, hΓ, hbounded, hprec, (hentries.near (by positivity) hpos hdiag).mono hpos (by linarith) le_rfl, ?_, ?_⟩
  · show |A.center.x.value - A.center.x.value| ≤ _
    rw [sub_self, abs_zero]
    positivity
  · show |A.center.y.value - A.center.y.value| ≤ _
    rw [sub_self, abs_zero]
    positivity

/-- **What is prepared for any angle** outlines the preimages of two exact ellipses. -/
theorem exists_optimized_of_prepare {target : Target} {pair : EllipsePair} (hd : 0 < d)
    (hprec : 20 * d + 128 + 32 < 2 ^ 32) (h : prepare theta (Constants.ofDigits d) = .ok (target, pair)) :
    ∃ ω H Γ X Y σ, Bears (Constants.ofDigits d) (1 / 10000) H ω ∧ 51 * roundoff (20 * d + 128) ≤ ω ∧ 1 ≤ H ∧
      Optimized (20 * d + 128) ω H Γ X Y σ target.op pair := by
  have hu := roundoff_pos (20 * d + 128)
  have hp : 64 ≤ (Constants.ofDigits d).prec := by
    show 64 ≤ 20 * d + 128
    omega
  obtain ⟨hroom, hroom'⟩ := roundoff_mul_tiltRoom_le hd
  obtain ⟨hsize, -⟩ := tiltSize_bounds hd
  obtain ⟨A, B, op, sin, cos, hA, hB, hrun, htrig, rfl⟩ := prepare_eq_ok h
  have hyields : (optimize (Constants.ofDigits d)).Yields ⟨A, B⟩ op pair := hrun
  obtain ⟨A', hscale⟩ := exists_rescale_of_optimize hyields
  obtain ⟨X, Γ, hΓ, hX, hrenderA⟩ := exists_rendered_of_rescale hd (by omega) htrig hA hscale
  obtain ⟨B', hB', hrenderB⟩ := Ellipse.exists_unitDisk (c := Constants.ofDigits d) hp hprec
  rw [hB] at hB'
  cases hB'
  have hdisk : ExactEllipse.disk.Bounded (tiltRoom d) Γ (3 * d + 2 : ℕ) := ExactEllipse.bounded_disk hX.one_le hΓ
  have hroom := affords_tilted hd (by omega)
  have hdiskRoom := mul_le_mul_of_nonneg_left (tiltRoom_bounds hd).1 hu.le
  rcases optimize_cases (Constants.ofDigits_accurateUnits hd (by omega)) hX hdisk hrenderA
    (hrenderB.mono ExactEllipse.isPos_disk (by
      show 120000 * roundoff (20 * d + 128) ≤ 10000 * roundoff (20 * d + 128) * tiltRoom d
      linarith) (by positivity)) (tiltSize_sq d).ge hsize (by
        show 31000 * roundoff (20 * d + 128) * _ ≤ _
        linarith) hroom rfl with
    ⟨σ, g, s, hyields', hopt⟩ | ⟨⟨e, s, hfail⟩, -⟩
  · have heq := hyields.symm.trans hyields'
    cases heq
    exact ⟨_, _, _, _, _, _, hroom.bears, le_add_of_nonneg_right (by positivity), hsize, hopt⟩
  · rw [hrun] at hfail
    cases hfail

end Region

end Approximation

end CliffordT
