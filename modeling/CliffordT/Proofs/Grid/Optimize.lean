/-
The optimization of a pair of ellipses.

Both ellipses are scaled to determinants of about one, the pair is reduced there, and what is left is scaled
back by the same numbers. What is computed for two exact ellipses ends up as outlines of their preimages
under the operator that is found and its conjugate. An optimization that fails has started from a skew that
is still large after as many reductions as are tried.
-/
import CliffordT.Proofs.Grid.Repeated
import CliffordT.Proofs.Plane.BoundingBox

namespace CliffordT

open BinFloat

namespace ExactEllipse

structure Bounded (K Γ N : ℝ) (X : ExactEllipse) : Prop where
  isPos : X.form.IsPos
  size_le : X.form.size ^ 2 ≤ K * X.form.det
  /-- A bound of the center, and one of the form that makes up for it. -/
  reach : ∃ Λ, 1 ≤ Λ ∧ (∀ i, |X.center i| ≤ Λ) ∧ ∀ x y, X.form.eval x y ≤ (Γ / Λ) ^ 2 * (x ^ 2 + y ^ 2)
  offset_le : X.offset ≤ Γ
  abs_z_le : |X.form.z| ≤ N

namespace Bounded

variable {K Γ N s : ℝ} {X : ExactEllipse}

theorem one_le (h : X.Bounded K Γ N) : 1 ≤ K := h.isPos.one_le_of_size_sq_le h.size_le

theorem nonneg (h : X.Bounded K Γ N) : 0 ≤ Γ := (Form.norm_nonneg _ _ _).trans h.offset_le

/-- The entry off the diagonal, in the scale of the reductions. -/
theorem b_sq_scale_le (h : X.Bounded K Γ N) (hdet : (X.scale s).form.det ≤ 101 / 100) :
    (X.scale s).form.b ^ 2 ≤ 101 / 100 * (K - 1) := by
  have hsize := h.isPos.size_sq'
  have hb : X.form.b ^ 2 ≤ (K - 1) * X.form.det := by linarith [h.size_le]
  have hK := h.one_le
  rw [scale_form, Form.det_smul] at hdet
  rw [scale_form, Form.smul_b, mul_pow]
  have hscaled := mul_le_mul_of_nonneg_left hb (sq_nonneg (s⁻¹ ^ 2))
  have hbound := mul_le_mul_of_nonneg_left hdet (by linarith : 0 ≤ K - 1)
  linarith

end Bounded

end ExactEllipse

namespace Ellipse

theorem Renders.mono {p : ℕ} {η η' δ δ' : ℝ} {E : Ellipse} {X : ExactEllipse} (h : E.Renders p η δ X)
    (hX : X.form.IsPos) (hη : η ≤ η') (hδ : δ ≤ δ') : E.Renders p η' δ' X :=
  ⟨h.prec, h.near.mono hX hη le_rfl, h.abs_x_sub_le.trans hδ, h.abs_y_sub_le.trans hδ⟩

end Ellipse

namespace EllipsePair

variable {c : Constants} {a b a₁ b₁ a₂ b₂ : Ellipse} {g : GridOperator} {s : EllipsePair} {e : Fault}

section Run

variable (ha : a.rescale a.normalizer c = .ok a₁) (hb : b.rescale b.normalizer c = .ok b₁)
include ha hb

/-- An optimization whose two ellipses can be scaled goes on with the reductions. -/
theorem run_optimize : (optimize c).run ⟨a, b⟩ = (do
    let g ← reduceAll c maxReductions GridOperator.identity
    set { (← get) with a := ← (← get).a.rescale (c.one / a.normalizer) c }
    set { (← get) with b := ← (← get).b.rescale (c.one / b.normalizer) c }
    return g : OnPair GridOperator).run ⟨a₁, b₁⟩ := by
  unfold optimize
  rw [(OnPair.yields_get _).run_bind, (OnPair.yields_get _).run_bind, (OnPair.yields_get _).run_bind,
    (OnPair.yields_lift ha _).run_bind, (OnPair.yields_set _ _).run_bind,
    (OnPair.yields_get _).run_bind, (OnPair.yields_get _).run_bind, (OnPair.yields_get _).run_bind,
    (OnPair.yields_lift hb _).run_bind, (OnPair.yields_set _ _).run_bind]

theorem optimize_yields
    (hrun : (reduceAll c maxReductions GridOperator.identity).Yields ⟨a₁, b₁⟩ g s)
    (ha₂ : s.a.rescale (c.one / a.normalizer) c = .ok a₂)
    (hb₂ : s.b.rescale (c.one / b.normalizer) c = .ok b₂) :
    (optimize c).Yields ⟨a, b⟩ g ⟨a₂, b₂⟩ := by
  unfold OnPair.Yields
  rw [run_optimize ha hb, hrun.run_bind, (OnPair.yields_get _).run_bind, (OnPair.yields_get _).run_bind,
    (OnPair.yields_lift ha₂ _).run_bind, (OnPair.yields_set _ _).run_bind,
    (OnPair.yields_get _).run_bind, (OnPair.yields_get _).run_bind,
    (OnPair.yields_lift hb₂ _).run_bind, (OnPair.yields_set _ _).run_bind]
  exact OnPair.yields_pure g _

theorem optimize_error
    (hrun : (reduceAll c maxReductions GridOperator.identity).run ⟨a₁, b₁⟩ = (.error e, s)) :
    (optimize c).run ⟨a, b⟩ = (.error e, s) := by
  rw [run_optimize ha hb]
  exact OnPair.run_bind_of_error hrun

end Run

section Optimize

variable {X Y : ExactEllipse} {t K Γ N H D δ ω : ℝ}

/-- What a successful optimization leaves of a pair: outlines of the preimages under the operator and, up to
a sign, its conjugate. -/
structure Optimized (p : ℕ) (ω H Γ : ℝ) (X Y : ExactEllipse) (σ : ℝ) (g : GridOperator)
    (s : EllipsePair) : Prop where
  sign : σ * σ = 1
  special : g.IsSpecialGrid
  fst : s.a.Outlines p (217 * ω * H ^ 2) (27 * ω * H) (102 / 100 * H ^ 2) (702 * ω * H * Γ)
    (X.pull g.real)
  snd : s.b.Outlines p (217 * ω * H ^ 2) (27 * ω * H) (102 / 100 * H ^ 2) (702 * ω * H * Γ)
    (Y.pull (σ • g.dot.real))

/-- Two ellipses that follow bounded ones in the scale of the reductions are where the reductions start. -/
theorem reached_start (hX : X.Bounded K Γ N) (hY : Y.Bounded K Γ N) {t u : ℝ} (ht : 0 < t) (hu : 0 < u)
    (ha : a₁.Follows c.prec ω H Γ (X.scale t)) (hb : b₁.Follows c.prec ω H Γ (Y.scale u)) :
    Reached c ω δ H Γ N D (X.scale t) (Y.scale u) 0 1 GridOperator.identity ⟨a₁, b₁⟩ := by
  refine Reached.start ⟨ha, hb⟩ ?_ ?_
  · rw [ExactEllipse.scale_form, Form.z_smul (by positivity)]
    exact hX.abs_z_le
  · rw [ExactEllipse.scale_form, Form.z_smul (by positivity)]
    exact hY.abs_z_le

/-- What reductions leave outlines the preimages, when it is scaled back. -/
theorem exists_optimized {v u : BinFloat} {σ : ℝ} (hc : c.AccurateUnits) (hpv : c.prec ≤ v.prec)
    (hpu : c.prec ≤ u.prec) (hv : 0 < v.value) (hu : 0 < u.value) (hH : 1 ≤ H) (hω : 51 * roundoff c.prec ≤ ω)
    (hbears : Bears c t H ω) (hσ : σ * σ = 1) (hg : g.IsSpecialGrid)
    (h : s.Follows c.prec ω H Γ ((X.scale v.value).pull g.real) ((Y.scale u.value).pull (σ • g.dot.real))) :
    ∃ a₂ b₂, s.a.rescale (c.one / v) c = .ok a₂ ∧ s.b.rescale (c.one / u) c = .ok b₂ ∧
      Optimized c.prec ω H Γ X Y σ g ⟨a₂, b₂⟩ := by
  have hp : 64 ≤ c.prec := (by norm_num : 64 ≤ 96).trans hc.le_prec
  obtain ⟨a₂, ha₂, houta⟩ := h.fst.exists_outlines hp hpv hv hω hH hbears.form_le'
  obtain ⟨b₂, hb₂, houtb⟩ := h.snd.exists_outlines hp hpu hu hω hH hbears.form_le'
  rw [ExactEllipse.scale_pull, ExactEllipse.scale_inv_scale _ hv] at houta
  rw [ExactEllipse.scale_pull, ExactEllipse.scale_inv_scale _ hu] at houtb
  exact ⟨a₂, b₂, ha₂, hb₂, hσ, hg, houta, houtb⟩

/-- **An optimization** of what is computed for two exact ellipses, unless it fails. Where the exponents are
known to the tolerance of the tests it only fails when the skew is too much for the reductions that are tried. -/
theorem optimize_cases (hc : c.AccurateUnits) (hX : X.Bounded K Γ N) (hY : Y.Bounded K Γ N)
    (ha : a.Renders c.prec (10000 * roundoff c.prec * K) (600 * roundoff c.prec) X)
    (hb : b.Renders c.prec (10000 * roundoff c.prec * K) (600 * roundoff c.prec) Y)
    (hKH : 4 * K ≤ H ^ 2) (hH : 1 ≤ H) (hsmall : 31000 * roundoff c.prec * K ≤ 1 / 1000)
    (hroom : Affords c t maxReductions (51 * roundoff c.prec) δ H N D)
    (hω : 51 * roundoff c.prec + maxReductions * (5 * δ) = ω) :
    (∃ σ g s, (optimize c).Yields ⟨a, b⟩ g s ∧ Optimized c.prec ω H Γ X Y σ g s) ∨
      (∃ e s, (optimize c).run ⟨a, b⟩ = (.error e, s)) ∧
        (c.tol.value < t ∨ 149 / 10 ≤ (88 / 100 : ℝ) ^ maxReductions * H ^ 2) := by
  have hp : 64 ≤ c.prec := (by norm_num : 64 ≤ 96).trans hc.le_prec
  have hu := roundoff_pos c.prec
  have hK := hX.one_le
  have hδ := hroom.step_nonneg
  have hbears : Bears c t H ω := hω ▸ hroom.bears
  obtain ⟨ΛX, hΛX, hcenterX, hΓX⟩ := hX.reach
  obtain ⟨ΛY, hΛY, hcenterY, hΓY⟩ := hY.reach
  obtain ⟨hpa, hposa, a₁, ha₁, hfa⟩ := ha.exists_follows hp hX.isPos hX.size_le (by linarith) hH hsmall
    hX.nonneg hΛX hcenterX hΓX hX.offset_le
  obtain ⟨hpb, hposb, b₁, hb₁, hfb⟩ := hb.exists_follows hp hY.isPos hY.size_le (by linarith) hH hsmall
    hY.nonneg hΛY hcenterY hΓY hY.offset_le
  have hskew : (X.scale a.normalizer.value).form.b ^ 2 + (Y.scale b.normalizer.value).form.b ^ 2
      + 101 / 100 ≤ H ^ 2 := by
    have hbX := hX.b_sq_scale_le hfa.tracks.fits.det_le
    have hbY := hY.b_sq_scale_le hfb.tracks.fits.det_le
    linarith
  have hstart : Reached c (51 * roundoff c.prec) δ H Γ N D (X.scale a.normalizer.value)
      (Y.scale b.normalizer.value) 0 1 GridOperator.identity ⟨a₁, b₁⟩ :=
    reached_start hX hY hposa hposb hfa hfb
  have herror {j : ℕ} (hj : j ≤ maxReductions) : 51 * roundoff c.prec + j * (5 * δ) ≤ ω :=
    hω ▸ hroom.error_le hj
  rcases hstart.reduceAll hc hroom hskew (k := maxReductions) (Nat.zero_add _).le with
    ⟨j, σ, g, s, hj, hreached, hrun⟩ | ⟨⟨e, s, hfail⟩, hwhy⟩
  · left
    have hj0 : 0 ≤ (j : ℝ) * (5 * δ) := by positivity
    obtain ⟨a₂, b₂, ha₂, hb₂, hopt⟩ := exists_optimized hc hpa hpb hposa hposb hH
      ((le_add_of_nonneg_right hj0).trans (herror hj)) hbears hreached.sign hreached.special
      (hreached.follows.mono (herror hj))
    exact ⟨σ, g, _, optimize_yields ha₁ hb₁ hrun ha₂ hb₂, hopt⟩
  · refine .inr ⟨⟨e, s, optimize_error ha₁ hb₁ hfail⟩, hwhy.imp_right ?_⟩
    rintro ⟨σ, g, s', hreached, hmore⟩
    rw [Nat.zero_add] at hreached
    have hless := hreached.skew_left hc (by positivity) (hbears.mono (herror le_rfl)) hmore
    exact hless.trans (mul_le_mul_of_nonneg_left (by linarith) (by positivity))

/-! ## Bounding boxes -/

section Boxes

variable {σ : ℝ} (hc : c.AccurateUnits) (hbears : Bears c t H ω) (hω : 51 * roundoff c.prec ≤ ω) (hH : 1 ≤ H)
include hc hbears hω hH

omit hc in
/-- The errors of an outline that an optimization leaves. -/
theorem outline_errors_le : 13 * (217 * ω * H ^ 2) + 4 * (27 * ω * H) ^ 2
      + 160 * roundoff c.prec * (102 / 100 * H ^ 2) ≤ 1 / 4 ∧ 27 * ω * H ≤ 1 ∧
    3 * (217 * ω * H ^ 2) + 27 * ω * H + 3000 * roundoff c.prec * (102 / 100 * H ^ 2) ≤ 1 / 4 := by
  have hu := roundoff_pos c.prec
  have hω0 : 0 ≤ ω := by linarith
  have hform : ω * H ^ 2 ≤ 1 / 500000000 := by linarith [hbears.form_le, hbears.le]
  have hlin : ω * H ≤ ω * H ^ 2 := mul_le_mul_of_nonneg_left (le_self_pow₀ hH two_ne_zero) hω0
  have hlin0 : 0 ≤ ω * H := mul_nonneg hω0 (by linarith)
  have hround := mul_le_mul_of_nonneg_right hω (sq_nonneg H)
  have hsq : (27 * ω * H) ^ 2 ≤ 1 ^ 2 := pow_le_pow_left₀ (by linarith) (by linarith) 2
  have hsq' : (27 * ω * H) ^ 2 = 729 * (ω * H * (ω * H)) := by ring
  have hprod : ω * H * (ω * H) ≤ 1 / 500000000 * (ω * H) := mul_le_mul_of_nonneg_right (by linarith) hlin0
  refine ⟨?_, by linarith, by linarith⟩
  rw [hsq']
  linarith

/-- **What an optimization leaves has bounding boxes.** -/
theorem Optimized.exists_boxes (h : Optimized c.prec ω H Γ X Y σ g s) :
    (∃ r, s.a.boundingBox = .ok r) ∧ ∃ r, s.b.boundingBox = .ok r := by
  have hp : 64 ≤ c.prec := (by norm_num : 64 ≤ 96).trans hc.le_prec
  obtain ⟨hsmall, hα, -⟩ := outline_errors_le hbears hω hH
  obtain ⟨a, ha, -⟩ := h.fst.exists_boundingBox hp hα hsmall le_rfl
  obtain ⟨b, hb, -⟩ := h.snd.exists_boundingBox hp hα hsmall le_rfl
  exact ⟨⟨a, ha⟩, b, hb⟩

/-- It has them after it is scaled, too. -/
theorem Optimized.exists_rescaled_boxes (h : Optimized c.prec ω H Γ X Y σ g s) {v w : BinFloat}
    (hpv : c.prec ≤ v.prec) (hv : v.value ≠ 0) (hpw : c.prec ≤ w.prec) (hw : w.value ≠ 0) :
    (∃ E r, s.a.rescale v c = .ok E ∧ E.boundingBox = .ok r) ∧
      ∃ E r, s.b.rescale w c = .ok E ∧ E.boundingBox = .ok r := by
  have hp : 64 ≤ c.prec := (by norm_num : 64 ≤ 96).trans hc.le_prec
  have hα : 0 ≤ 27 * ω * H := by
    have := roundoff_pos c.prec
    have hω0 : 0 ≤ ω := by linarith
    positivity
  obtain ⟨-, -, hsmall⟩ := outline_errors_le hbears hω hH
  exact ⟨h.fst.exists_rescaled_boundingBox hp hpv hv hα hsmall,
    h.snd.exists_rescaled_boundingBox hp hpw hw hα hsmall⟩

end Boxes

end Optimize

end EllipsePair

end CliffordT
