/-
Exact ellipses, and the computed ones that follow them.

An exact ellipse is a form with a center. `Follows` says that a computed ellipse is one of these up to the
rounding errors made so far; those are measured by one number `ω`, in which the error of the form, its
asymmetry and the error of the center are in proportion to powers of the bound `H` of the size. A preimage
under a rounded matrix follows the exact preimage, and `ω` grows by the error of the matrix.
-/
import Mathlib.LinearAlgebra.Matrix.NonsingularInverse
import CliffordT.Proofs.Plane.Preimage

namespace CliffordT

open BinFloat

/-- The points `v` with `F (v - center) ≤ 1`. -/
@[ext]
structure ExactEllipse where
  form : Form
  center : Fin 2 → ℝ

namespace ExactEllipse

variable {R S : Matrix (Fin 2) (Fin 2) ℝ}

def Contains (X : ExactEllipse) (v : Fin 2 → ℝ) : Prop :=
  X.form.eval (v 0 - X.center 0) (v 1 - X.center 1) ≤ 1

/-- The distance of the center from the origin, in the norm of the form. -/
noncomputable def offset (X : ExactEllipse) : ℝ := X.form.norm (X.center 0) (X.center 1)

noncomputable def pull (X : ExactEllipse) (R : Matrix (Fin 2) (Fin 2) ℝ) : ExactEllipse :=
  ⟨X.form.pull R, R⁻¹.mulVec X.center⟩

@[simp] theorem pull_form (X : ExactEllipse) (R : Matrix (Fin 2) (Fin 2) ℝ) :
    (X.pull R).form = X.form.pull R := rfl

@[simp] theorem pull_one (X : ExactEllipse) : X.pull 1 = X := by
  unfold pull
  rw [inv_one, Matrix.one_mulVec, Form.pull_one]

theorem pull_mul (X : ExactEllipse) (R S : Matrix (Fin 2) (Fin 2) ℝ) :
    X.pull (R * S) = (X.pull R).pull S := by
  unfold pull
  rw [Matrix.mul_inv_rev, ← Matrix.mulVec_mulVec, Form.pull_mul]

/-- The matrix takes the new center to the old one. -/
theorem mulVec_pull_center (X : ExactEllipse) (hR : R.det ≠ 0) :
    R.mulVec (X.pull R).center = X.center := by
  show R.mulVec (R⁻¹.mulVec X.center) = X.center
  rw [Matrix.mulVec_mulVec, Matrix.mul_nonsing_inv R (isUnit_iff_ne_zero.2 hR), Matrix.one_mulVec]

theorem mulVec_zero' (R : Matrix (Fin 2) (Fin 2) ℝ) (v : Fin 2 → ℝ) :
    R.mulVec v 0 = R 0 0 * v 0 + R 0 1 * v 1 := by
  simp [Matrix.mulVec, dotProduct, Fin.sum_univ_two]

theorem mulVec_one' (R : Matrix (Fin 2) (Fin 2) ℝ) (v : Fin 2 → ℝ) :
    R.mulVec v 1 = R 1 0 * v 0 + R 1 1 * v 1 := by
  simp [Matrix.mulVec, dotProduct, Fin.sum_univ_two]

/-- The preimage contains what the matrix takes into the ellipse. -/
theorem contains_pull (X : ExactEllipse) (hR : R.det ≠ 0) (v : Fin 2 → ℝ) :
    (X.pull R).Contains v ↔ X.Contains (R.mulVec v) := by
  have h := X.mulVec_pull_center hR
  have h0 := congrFun h 0
  have h1 := congrFun h 1
  rw [mulVec_zero'] at h0
  rw [mulVec_one'] at h1
  unfold Contains
  rw [pull_form, Form.eval_pull, mulVec_zero', mulVec_one', ← h0, ← h1]
  have e0 : R 0 0 * (v 0 - (X.pull R).center 0) + R 0 1 * (v 1 - (X.pull R).center 1)
      = R 0 0 * v 0 + R 0 1 * v 1 - (R 0 0 * (X.pull R).center 0 + R 0 1 * (X.pull R).center 1) := by
    ring
  have e1 : R 1 0 * (v 0 - (X.pull R).center 0) + R 1 1 * (v 1 - (X.pull R).center 1)
      = R 1 0 * v 0 + R 1 1 * v 1 - (R 1 0 * (X.pull R).center 0 + R 1 1 * (X.pull R).center 1) := by
    ring
  rw [e0, e1]

/-- The offset is the same before and after. -/
theorem offset_pull (X : ExactEllipse) (hR : R.det ≠ 0) : (X.pull R).offset = X.offset := by
  have h := X.mulVec_pull_center hR
  have h0 := congrFun h 0
  have h1 := congrFun h 1
  rw [mulVec_zero'] at h0
  rw [mulVec_one'] at h1
  unfold offset Form.norm
  rw [pull_form, Form.eval_pull, h0, h1]

end ExactEllipse

namespace Ellipse

/-- The computed ellipse is the exact one, up to rounding errors of `ω` so far. -/
structure Follows (p : Nat) (ω H Γ : ℝ) (E : Ellipse) (X : ExactEllipse) : Prop where
  tracks : E.Tracks p (204 * ω * H ^ 2) (20 * ω * H) H X.form
  centered : E.Centered (700 * ω * H * Γ) X.form (X.center 0) (X.center 1)
  offset_le : X.offset ≤ Γ

theorem Follows.mono {p : Nat} {ω ω' H Γ : ℝ} {E : Ellipse} {X : ExactEllipse}
    (h : E.Follows p ω H Γ X) (hω : ω ≤ ω') : E.Follows p ω' H Γ X := by
  have hH : 0 ≤ H := h.tracks.fits.size_pos.le.trans h.tracks.fits.size_le
  have hΓ : 0 ≤ Γ := (Form.norm_nonneg _ _ _).trans h.offset_le
  refine ⟨⟨h.tracks.prec, h.tracks.near.mono h.tracks.fits.toIsPos ?_ ?_, h.tracks.fits⟩,
    h.centered.trans ?_, h.offset_le⟩
  · exact mul_le_mul_of_nonneg_right (by linarith) (sq_nonneg H)
  · exact mul_le_mul_of_nonneg_right (by linarith) hH
  · exact mul_le_mul_of_nonneg_right (mul_le_mul_of_nonneg_right (by linarith) hH) hΓ

section Preimage

variable {p : Nat} {e δ ω H Γ : ℝ} {E : Ellipse} {X : ExactEllipse} {m : Mat2}
  {R : Matrix (Fin 2) (Fin 2) ℝ}

/-- **The preimage of a computed ellipse** follows that of the exact one. -/
theorem Follows.exists_preimage (h : E.Follows p ω H Γ X) (hm : m.Approximates e R)
    (hprec : m.HasPrec p) (hp : 8 ≤ p) (hK : X.form.Tame 5 R) (he : 0 ≤ e)
    (hsize : (X.form.pull R).size ≤ H) (hω : 0 ≤ ω) (hδ : 3 * e + 10 * roundoff p ≤ δ)
    (h2 : 204 * (ω + δ) * H ^ 2 ≤ 1 / 100) (c : Constants) :
    ∃ E', E.preimage m c = .ok E' ∧ E'.Follows p (ω + δ) H Γ (X.pull R) := by
  have hu := roundoff_pos p
  have hfits := h.tracks.fits
  have hH : 99 / 100 ≤ H := hfits.le_size.trans hfits.size_le
  have hH2 : 0 ≤ H ^ 2 := sq_nonneg H
  have hΓ : 0 ≤ Γ := (Form.norm_nonneg _ _ _).trans h.offset_le
  have hδ2 := mul_le_mul_of_nonneg_right hδ hH2
  have hδ1 := mul_le_mul_of_nonneg_right hδ (by linarith : 0 ≤ H)
  have hωδ : 0 ≤ ω + δ := by linarith
  have hωH : (ω + δ) * H ≤ 1 / 20000 := by
    have hmul := mul_le_mul_of_nonneg_left hH (by positivity : 0 ≤ (ω + δ) * H)
    linarith
  obtain ⟨inv, E', -, hnear, hE', hcenter, htracks⟩ := h.tracks.exists_preimage hm hprec hp hK he
    hsize (by positivity) (by linarith) (by linarith) c
  have hdet := hK.det_ne_zero
  refine ⟨E', hE', ⟨?_, ?_, ?_⟩⟩
  · -- the errors of the form are those of the step
    exact ⟨htracks.prec, htracks.near.mono htracks.fits.toIsPos (by linarith) (by linarith),
      htracks.fits⟩
  · have hv := X.mulVec_pull_center hdet
    have hv0 := congrFun hv 0
    have hv1 := congrFun hv 1
    rw [ExactEllipse.mulVec_zero'] at hv0
    rw [ExactEllipse.mulVec_one'] at hv1
    have hδH : δ * (99 / 100) ≤ (ω + δ) * H :=
      mul_le_mul (by linarith) hH (by norm_num) hωδ
    have hnew := h.centered.preimage hfits hK hnear (by linarith) (by linarith) hcenter h.offset_le
      hv0 hv1
    refine le_trans hnew ?_
    have hωΓ : 700 * ω * H * Γ ≤ 1 / 20 * Γ := by
      refine mul_le_mul_of_nonneg_right ?_ hΓ
      have : 0 ≤ δ * H := by
        have : 0 ≤ δ := by linarith
        positivity
      linarith
    have hstep : 15 * (64 * e + 128 * roundoff p + 5 * roundoff p) * H * (Γ + 700 * ω * H * Γ)
        ≤ 15 * (35 * δ) * H * (21 / 20 * Γ) := by
      have h1 : 15 * (64 * e + 128 * roundoff p + 5 * roundoff p) * H ≤ 15 * (35 * δ) * H :=
        mul_le_mul_of_nonneg_right (by linarith) (by linarith)
      have hδ0 : 0 ≤ δ := by linarith
      exact mul_le_mul h1 (by linarith) (by positivity) (by positivity)
    have hδHΓ : 0 ≤ δ * H * Γ := by
      have : 0 ≤ δ := by linarith
      positivity
    linarith
  · rw [X.offset_pull hdet]
    exact h.offset_le

end Preimage

end Ellipse

end CliffordT
