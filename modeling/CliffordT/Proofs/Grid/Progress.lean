/-
Reduction always makes progress.

For a pair whose skew is worth a reduction, the shift and the orientation lead to one of the cases of the
table, the operator that is chosen takes more than a tenth of the exact skew away, and the computed skew
shows that. Therefore a reduction neither finds the table without a case nor the skew too little changed.
-/
import CliffordT.Proofs.Grid.Regime

namespace CliffordT

open BinFloat

namespace EllipsePair

open GridOperator (sigmaReal tauReal)

section Chosen

variable {c : Constants} {t ω H Γ N : ℝ} {X Y : ExactEllipse} {s : EllipsePair}

section Oriented

variable (hc : c.AccurateUnits) (h : s.Follows c.prec ω H Γ X Y) (hω : 0 ≤ ω) (hbears : Bears c t H ω)
  (hN : InRange c N) (hX : |X.form.z| ≤ N) (hY : |Y.form.z| ≤ N) (hor : Oriented t X.form Y.form)
include hc h hω hbears hN hX hY hor

/-- The computed exponents of an oriented pair. -/
theorem exponents_of_oriented : |(s.b.z c).value - (s.a.z c).value| ≤ 1 + 5 / 16 * t ∧
    -(3 / 16) * t ≤ (s.a.z c).value + (s.b.z c).value := by
  have hz := abs_le.1 (abs_z_sub_le hc h.fst hω hbears hN hX)
  have hζ := abs_le.1 (abs_z_sub_le hc h.snd hω hbears hN hY)
  have hdiff := abs_le.1 hor.diff_le
  have htol := hc.tol_pos.trans_le hbears.tol_le
  refine ⟨abs_le.2 ⟨?_, ?_⟩, ?_⟩
  · linarith only [hdiff.1, hz.2, hζ.1]
  · linarith only [hdiff.2, hz.1, hζ.2]
  · linarith only [hor.sum_ge, hz.1, hζ.1, htol]

/-- **What is chosen for an oriented pair** reduces the skew. -/
theorem reduces_of_choose? {op : GridOperator} (hskew : 149 / 10 ≤ X.form.b ^ 2 + Y.form.b ^ 2)
    (hop : choose? s.a.form.m01.isNegative (s.a.z c) (s.b.z c) c = some op) : Reduces op X.form Y.form := by
  have hu := roundoff_pos c.prec
  have ht := hbears.le
  have htol := hc.tol_le
  have hz := abs_z_sub_le hc h.fst hω hbears hN hX
  have hζ := abs_z_sub_le hc h.snd hω hbears hN hY
  have hdiff := (exponents_of_oriented hc h hω hbears hN hX hY hor).1
  -- the integer part of the smaller exponent is small enough for its power to be computed well
  have hfloor : 28000 * ((⌊|min (s.a.z c).value (s.b.z c).value|⌋₊ : ℝ) + 1) * roundoff c.prec ≤ 1 := by
    obtain ⟨hz1, hz2⟩ := abs_le.1 hz
    obtain ⟨hζ1, hζ2⟩ := abs_le.1 hζ
    have hmin : |min (s.a.z c).value (s.b.z c).value| ≤ N + 1 := by
      rw [abs_le] at hX hY
      refine abs_le.2 ⟨le_min ?_ ?_, (min_le_left _ _).trans ?_⟩
      · linarith only [hX.1, hz1, ht]
      · linarith only [hY.1, hζ1, ht]
      · linarith only [hX.2, hz2, ht]
    have hle := (Nat.floor_le (abs_nonneg _)).trans hmin
    have hmul := mul_le_mul_of_nonneg_right hle hu.le
    have hNu := mul_nonneg hN.nonneg hu.le
    linarith only [hN.small, hmul, hNu, hu, htol]
  have hn : GridOperator.IsAmount _ (shearAmount (s.a.z c) (s.b.z c) c) := isAmount_shearAmount hc hfloor
  have hs : Skewed X.form Y.form := ⟨h.fst.tracks.fits.toIsPos, h.snd.tracks.fits.toIsPos,
    h.fst.tracks.fits.det_le, h.snd.tracks.fits.det_le, hskew⟩
  refine (choice_of_choose? hc hop).reduces hs (hz.trans (by linarith only [ht]))
    (hζ.trans (by linarith only [ht])) (hdiff.trans (by linarith only [ht])) hor.b_ge hn ?_ ?_
  · intro hneg
    exact neg_slightness_le_b h.fst hω hbears (not_lt.1 (mt isNegative_iff.2 (Bool.eq_false_iff.1 hneg)))
  · intro hneg
    exact b_le_slightness h.fst hω hbears (isNegative_iff.1 hneg)

end Oriented

/-- An operator that reduces the skew keeps the sizes below the bound that comes from the skew. -/
theorem Reduces.suits {op : GridOperator} {F G : Form} (h : Reduces op F G) (hF : F.Fits H)
    (hG : G.Fits H) (hH : F.b ^ 2 + G.b ^ 2 + 101 / 100 ≤ H ^ 2) : Suits H op F G := by
  have hH0 : 0 ≤ H := hF.size_pos.le.trans hF.size_le
  have hskew := h.skew
  have hS : 0 ≤ F.b ^ 2 + G.b ^ 2 := by positivity
  have hsize {F : Form} {R : Matrix (Fin 2) (Fin 2) ℝ} (hF : F.Fits H) (hK : F.Tame 5 R)
      (hb : (F.pull R).b ^ 2 + 101 / 100 ≤ H ^ 2) : (F.pull R).size ≤ H := by
    refine (abs_le_of_sq_le_sq' ?_ hH0).2
    rw [(hF.toIsPos.pull hK.det_ne_zero).size_sq', Form.det_pull, hK.det_sq, one_mul]
    linarith [hF.det_le]
  refine ⟨h.stable, h.stable_dot, h.tame, h.tame_dot, hsize hF h.tame ?_, hsize hG h.tame_dot ?_⟩
  · linarith [sq_nonneg (G.pull op.dot.real).b]
  · linarith [sq_nonneg (F.pull op.real).b]

end Chosen

/-! ## The whole reduction -/

/-- What the skew of a pair has to be for a reduction, and what is left of it. -/
theorem value_skewThreshold (hc : (c : Constants).AccurateUnits) : (skewThreshold c).value = 15 := by
  have hfits : bitLength 15 ≤ c.prec := by
    have hlen : bitLength 15 ≤ 96 := by decide
    exact hlen.trans hc.le_prec
  have h := value_ofInt_of_fits hfits
  exact_mod_cast h

/-- A reduction, taken apart: what its parts do to a pair, one after the other. -/
structure Reduction (c : Constants) (s : EllipsePair) (k : ℤ) (g₀ op : GridOperator)
    (s₁ s₂ s' : EllipsePair) : Prop where
  unbias : (unbias c).Yields s k s₁
  orient : (orient c).Yields s₁ g₀ s₂
  choose : choose? s₂.a.form.m01.isNegative (s₂.a.z c) (s₂.b.z c) c = some op
  reduce : (reduce c).Yields s ((g₀ * op).shift k) s'

/-- The computed skew after a reduction is nine tenths of the one before at most, and the test of that
passes. -/
theorem skew_falls {c : Constants} (hc : c.AccurateUnits) {x y : BinFloat} {S S' : ℝ}
    (hprec : c.prec ≤ x.prec) (hx : |x.value - S| ≤ (S + 1) / 1000)
    (hy : |y.value - S'| ≤ (S' + 1) / 1000) (hS : 149 / 10 ≤ S) (hS' : S' ≤ 88 / 100 * S) :
    y.value ≤ 9 / 10 * x.value ∧ ¬ x * c.ratio 9 10 < y := by
  have hu1 : roundoff c.prec ≤ 1 / 2 ^ 96 := (roundoff_anti hc.le_prec).trans (roundoff_eq 96).le
  have hratio := hc.abs_ratio_sub_le (m := 9) (n := 10) (by norm_num) (by norm_num)
  push_cast at hratio
  obtain ⟨hr1, -⟩ := abs_le.1 hratio
  have hround := (value_mul_within (x := x) (y := c.ratio 9 10) (p := c.prec)
    (hprec.trans (le_max_left _ _))).sub_le
  obtain ⟨hx1, hx2⟩ := abs_le.1 hx
  obtain ⟨-, hy2⟩ := abs_le.1 hy
  have htol := hc.tol_le
  have hx0 : 0 < x.value := by linarith
  have hr0 : 8999 / 10000 ≤ (c.ratio 9 10).value := by linarith
  have hprod : 8999 / 10000 * x.value ≤ (c.ratio 9 10).value * x.value :=
    mul_le_mul_of_nonneg_right hr0 hx0.le
  constructor
  · linarith
  · rw [lt_iff_value, not_lt]
    have hpos : 0 < x.value * (c.ratio 9 10).value := by
      positivity
    rw [abs_of_pos hpos] at hround
    have hsmall := mul_le_mul_of_nonneg_right hu1 hpos.le
    linarith [(abs_le.1 hround).1]

/-! ## The exponents after a reduction -/

section Growth

variable {H D : ℝ} {F : Form} {R : Matrix (Fin 2) (Fin 2) ℝ}

/-- The first diagonal entry after a change that keeps its column of moderate size. -/
theorem pull_p_bounds (hF : F.Fits H)
    (hcol : 1 / 32 ≤ R 0 0 ^ 2 + (F.ratio * R 1 0) ^ 2 ∧ R 0 0 ^ 2 + (F.ratio * R 1 0) ^ 2 ≤ 32) :
    (F.pull R).p ≤ 64 * F.p ∧ F.p ≤ 66 * H ^ 2 * (F.pull R).p := by
  have hp := hF.p_pos
  have hdiag : F.p * R 0 0 ^ 2 + F.q * R 1 0 ^ 2
      = F.p * (R 0 0 ^ 2 + (F.ratio * R 1 0) ^ 2) := by
    rw [mul_pow, hF.ratio_sq]
    field_simp
  have hle := hF.eval_le (R 0 0) (R 1 0)
  have hge := hF.le_eval (R 0 0) (R 1 0)
  rw [hdiag] at hle hge
  have hsq := pow_le_pow_left₀ hF.size_pos.le hF.size_le 2
  have heval := hF.eval_nonneg (R 0 0) (R 1 0)
  show F.eval (R 0 0) (R 1 0) ≤ 64 * F.p ∧ F.p ≤ 66 * H ^ 2 * F.eval (R 0 0) (R 1 0)
  generalize F.eval (R 0 0) (R 1 0) = p' at *
  constructor
  · have := mul_le_mul_of_nonneg_left hcol.2 hp.le
    linarith
  · have hcol' := mul_le_mul_of_nonneg_left hcol.1 hp.le
    have hdet := mul_le_mul hF.le_det hcol' (by linarith) hF.det_pos.le
    have hup := mul_le_mul_of_nonneg_right hsq heval
    linarith

/-- Such a change moves the exponent by a bounded amount. -/
theorem abs_z_pull_sub_le (hF : F.Fits H) (hR : (F.pull R).Fits H)
    (hcol : 1 / 32 ≤ R 0 0 ^ 2 + (F.ratio * R 1 0) ^ 2 ∧ R 0 0 ^ 2 + (F.ratio * R 1 0) ^ 2 ≤ 32)
    (hD : 70 * H ^ 3 ≤ lambdaReal ^ D) : |(F.pull R).z - F.z| ≤ D := by
  obtain ⟨hup, hdown⟩ := pull_p_bounds hF hcol
  have hH : 99 / 100 ≤ H := hF.le_size.trans hF.size_le
  have hp := hF.p_pos
  have hmain {F G : Form} {C : ℝ} (hF : F.Fits H) (hG : G.Fits H) (hp : F.p ≤ C * G.p)
      (hC : C ≤ 66 * H ^ 2) : G.z - F.z ≤ D := by
    rw [← Real.rpow_le_rpow_left_iff one_lt_lambdaReal]
    refine le_trans ?_ hD
    rw [Real.rpow_sub lambdaReal_pos, ← hF.ratio_eq_rpow, ← hG.ratio_eq_rpow,
      div_le_iff₀ hF.ratio_pos]
    have hGp := hG.p_pos
    have hratio : G.ratio * G.p ≤ H := by
      rw [mul_comm, ← hG.size_eq]
      exact hG.size_le
    have hratio' : 99 / 100 ≤ F.ratio * F.p := by
      rw [mul_comm, ← hF.size_eq]
      exact hF.le_size
    have hchain : G.ratio * G.p ≤ 70 * H ^ 3 * F.ratio * G.p := by
      have hC' : F.ratio * F.p ≤ F.ratio * (66 * H ^ 2 * G.p) := by
        refine mul_le_mul_of_nonneg_left (hp.trans ?_) hF.ratio_pos.le
        exact mul_le_mul_of_nonneg_right hC hGp.le
      have hH0 : 0 ≤ H := by linarith
      have hscaled := mul_le_mul_of_nonneg_left (hratio'.trans hC') hH0
      linarith
    exact le_of_mul_le_mul_right hchain hGp
  refine abs_le.2 ⟨?_, hmain hF hR hdown le_rfl⟩
  linarith [hmain hR hF hup (by nlinarith)]

end Growth

section Pull

variable {X : ExactEllipse} {g₀ op : GridOperator} (k : ℤ) (hg₀ : g₀.IsGrid) (hop : op.IsGrid)
include hg₀ hop

/-- The changes of a reduction together, on the first ellipse. -/
theorem pull_shift : (((X.pull (sigmaReal k)).pull g₀.real).pull op.real).pull (sigmaReal k)
    = X.pull ((g₀ * op).shift k).real := by
  rw [← GridOperator.sigmaReal_mul_real, GridOperator.real_mul hg₀ hop]
  simp only [← ExactEllipse.pull_mul, Matrix.mul_assoc]

/-- On the second one they leave a sign. -/
theorem pull_dot_shift :
    (((X.pull (tauReal k)).pull g₀.dot.real).pull op.dot.real).pull (tauReal k)
      = X.pull ((-1 : ℝ) ^ k • ((g₀ * op).shift k).dot.real) := by
  rw [← GridOperator.tauReal_mul_real, GridOperator.dot_mul, GridOperator.real_mul hg₀.dot hop.dot]
  simp only [← ExactEllipse.pull_mul, Matrix.mul_assoc]

end Pull

/-- The exponents after the shift back: the first one is that of the second form before, or its own
negative, up to what the operator changes. -/
theorem exponents_after {z ζ z₂ ζ₂ z₃ ζ₃ k N D : ℝ} (hz : |z| ≤ N) (hζ : |ζ| ≤ N)
    (hdiff : |ζ - z + 2 * k| ≤ 2)
    (hturned : (z₂ = z - k ∧ ζ₂ = ζ + k) ∨ (z₂ = -(z - k) ∧ ζ₂ = -(ζ + k))) (h₃ : |z₃ - z₂| ≤ D)
    (hζ₃ : |ζ₃ - ζ₂| ≤ D) : |z₃ - k| ≤ N + 2 + D ∧ |ζ₃ + k| ≤ N + 2 + D := by
  simp only [abs_le] at *
  rcases hturned with ⟨h1, h2⟩ | ⟨h1, h2⟩
  · subst h1 h2
    refine ⟨⟨?_, ?_⟩, ?_, ?_⟩
    all_goals linarith
  · subst h1 h2
    refine ⟨⟨?_, ?_⟩, ?_, ?_⟩
    all_goals linarith

section Reduce

variable {c : Constants} {t ω δ H Γ N : ℝ} {X Y : ExactEllipse} {s : EllipsePair}

/-- The pair after the shift by `k` and the orientation by `g₀`, with the exact pair that it follows. -/
structure Prepared (c : Constants) (t ω H Γ N : ℝ) (X Y : ExactEllipse) (k : ℤ) (g₀ : GridOperator)
    (s₂ : EllipsePair) : Prop where
  abs_le : |(k : ℝ)| ≤ N + 2
  diff_le : |Y.form.z - X.form.z + 2 * k| ≤ 1 + t / 4
  grid : g₀.IsGrid
  special : g₀.isSpecial = true
  follows : s₂.Follows c.prec ω H Γ ((X.pull (sigmaReal k)).pull g₀.real)
    ((Y.pull (tauReal k)).pull g₀.dot.real)
  oriented : Oriented t ((X.pull (sigmaReal k)).pull g₀.real).form
    ((Y.pull (tauReal k)).pull g₀.dot.real).form
  b_sq : ((X.pull (sigmaReal k)).pull g₀.real).form.b ^ 2 = X.form.b ^ 2
  b_sq_dot : ((Y.pull (tauReal k)).pull g₀.dot.real).form.b ^ 2 = Y.form.b ^ 2
  z : (((X.pull (sigmaReal k)).pull g₀.real).form.z = X.form.z - k ∧
      ((Y.pull (tauReal k)).pull g₀.dot.real).form.z = Y.form.z + k) ∨
    (((X.pull (sigmaReal k)).pull g₀.real).form.z = -(X.form.z - k) ∧
      ((Y.pull (tauReal k)).pull g₀.dot.real).form.z = -(Y.form.z + k))

/-- The exponents of a prepared pair. -/
theorem Prepared.abs_z_le {k : ℤ} {g₀ : GridOperator} {s₂ : EllipsePair}
    (h : Prepared c t ω H Γ N X Y k g₀ s₂) (hX : |X.form.z| ≤ N) (hY : |Y.form.z| ≤ N) :
    |((X.pull (sigmaReal k)).pull g₀.real).form.z| ≤ 2 * N + 2 ∧
      |((Y.pull (tauReal k)).pull g₀.dot.real).form.z| ≤ 2 * N + 2 := by
  have hk := h.abs_le
  have hX₁ : |X.form.z - k| ≤ 2 * N + 2 := (abs_sub _ _).trans (by linarith)
  have hY₁ : |Y.form.z + k| ≤ 2 * N + 2 := (abs_add_le _ _).trans (by linarith)
  rcases h.z with ⟨h1, h2⟩ | ⟨h1, h2⟩
  · rw [h1, h2]
    exact ⟨hX₁, hY₁⟩
  · rw [h1, h2, abs_neg, abs_neg]
    exact ⟨hX₁, hY₁⟩

theorem step_error_le (hδ : stepError c (N + 2) = δ) (hN0 : 0 ≤ N) : stepError c 0 ≤ δ ∧ 0 ≤ δ := by
  have hδ0 : stepError c 0 ≤ δ := by
    rw [← hδ]
    unfold stepError
    exact mul_le_mul_of_nonneg_right (by linarith) (roundoff_pos c.prec).le
  exact ⟨hδ0, (stepError_nonneg (c := c) le_rfl).trans hδ0⟩

/-- **The shift and the orientation** of a reduction. -/
theorem exists_prepared (hc : c.AccurateUnits) (h : s.Follows c.prec ω H Γ X Y) (hω : 0 ≤ ω)
    (hδ : stepError c (N + 2) = δ) (hbears : Bears c t H (ω + δ + δ + δ)) (hN : InRange c (2 * N + 2))
    (hN0 : 0 ≤ N) (hX : |X.form.z| ≤ N) (hY : |Y.form.z| ≤ N) :
    ∃ k g₀ s₁ s₂, (unbias c).Yields s k s₁ ∧ (orient c).Yields s₁ g₀ s₂ ∧
      Prepared c t (ω + δ + δ + δ) H Γ N X Y k g₀ s₂ := by
  have hu := roundoff_pos c.prec
  obtain ⟨hδ0, hδ1⟩ := step_error_le hδ hN0
  obtain ⟨k, s₁, hs₁, hk, hdiff, hf₁⟩ := exists_unbias hc h hω
    (by rw [hδ]; exact hbears.mono (by linarith)) (hN.mono hN0 (by linarith)) hX hY
  rw [hδ] at hf₁
  have hXz := z_pull_sigma h.fst.tracks.fits.toIsPos k
  have hYz := z_pull_tau h.snd.tracks.fits.toIsPos k
  have hX₁ : |(X.pull (sigmaReal k)).form.z| ≤ 2 * N + 2 := by
    rw [ExactEllipse.pull_form, hXz]
    exact (abs_sub _ _).trans (by linarith)
  have hY₁ : |(Y.pull (tauReal k)).form.z| ≤ 2 * N + 2 := by
    rw [ExactEllipse.pull_form, hYz]
    exact (abs_add_le _ _).trans (by linarith)
  have hdiff₁ : |(Y.pull (tauReal k)).form.z - (X.pull (sigmaReal k)).form.z|
      ≤ 1 + t / 4 := by
    rw [ExactEllipse.pull_form, ExactEllipse.pull_form, hXz, hYz]
    have hring : Y.form.z + k - (X.form.z - k) = Y.form.z - X.form.z + 2 * k := by ring
    rwa [hring]
  obtain ⟨g₀, s₂, hs₂, hg₀, hg₀', hf₂, hturned, hor⟩ := exists_orient hc hf₁ (by linarith) hδ0 hbears hN
    hX₁ hY₁ hdiff₁
  refine ⟨k, g₀, s₁, s₂, hs₁, hs₂, hk, hdiff, hg₀, hg₀', hf₂, hor,
    hturned.b_sq.trans (b_sq_pull_sigma X.form k), hturned.b_sq_dot.trans (b_sq_pull_tau Y.form k), ?_⟩
  have hz := hturned.z
  rw [ExactEllipse.pull_form X, ExactEllipse.pull_form Y, hXz, hYz] at hz
  exact hz

/-- The skew after the operator and the shift back. -/
theorem Prepared.skew_after_le {k : ℤ} {g₀ op : GridOperator} {s₂ : EllipsePair}
    (h : Prepared c t ω H Γ N X Y k g₀ s₂)
    (hred : Reduces op ((X.pull (sigmaReal k)).pull g₀.real).form
      ((Y.pull (tauReal k)).pull g₀.dot.real).form) :
    (X.pull ((g₀ * op).shift k).real).form.b ^ 2
        + (Y.pull ((-1 : ℝ) ^ k • ((g₀ * op).shift k).dot.real)).form.b ^ 2
      ≤ 88 / 100 * (X.form.b ^ 2 + Y.form.b ^ 2) := by
  rw [← pull_shift k h.grid hred.grid, ← pull_dot_shift k h.grid hred.grid]
  have hskew := hred.skew
  rw [h.b_sq, h.b_sq_dot] at hskew
  exact le_trans (le_of_eq (congrArg₂ (· + ·) (b_sq_pull_sigma _ k) (b_sq_pull_tau _ k))) hskew

/-- The exponents after them. -/
theorem Prepared.abs_z_after_le {k : ℤ} {g₀ op : GridOperator} {s₂ s₃ : EllipsePair} {ω' D : ℝ}
    (ht : t ≤ 1 / 10000) (h : Prepared c t ω H Γ N X Y k g₀ s₂) (hX : |X.form.z| ≤ N) (hY : |Y.form.z| ≤ N)
    (hred : Reduces op ((X.pull (sigmaReal k)).pull g₀.real).form
      ((Y.pull (tauReal k)).pull g₀.dot.real).form)
    (hf₃ : s₃.Follows c.prec ω' H Γ (((X.pull (sigmaReal k)).pull g₀.real).pull op.real)
      (((Y.pull (tauReal k)).pull g₀.dot.real).pull op.dot.real))
    (hD : 70 * H ^ 3 ≤ lambdaReal ^ D) :
    |(X.pull ((g₀ * op).shift k).real).form.z| ≤ N + 2 + D ∧
      |(Y.pull ((-1 : ℝ) ^ k • ((g₀ * op).shift k).dot.real)).form.z| ≤ N + 2 + D := by
  have hX₃ := abs_z_pull_sub_le h.follows.fst.tracks.fits hf₃.fst.tracks.fits hred.column hD
  have hY₃ := abs_z_pull_sub_le h.follows.snd.tracks.fits hf₃.snd.tracks.fits hred.column_dot hD
  have hzX := z_pull_sigma hf₃.fst.tracks.fits.toIsPos k
  have hzY := z_pull_tau hf₃.snd.tracks.fits.toIsPos k
  have hafter := exponents_after hX hY (h.diff_le.trans (by linarith)) h.z hX₃ hY₃
  rw [← pull_shift k h.grid hred.grid, ← pull_dot_shift k h.grid hred.grid]
  simp only [ExactEllipse.pull_form] at hzX hzY hafter ⊢
  rw [hzX, hzY]
  exact hafter

/-- The program of a reduction, from its parts. -/
theorem reduce_yields {k : ℤ} {g₀ op : GridOperator} {s₁ s₂ s₃ s' : EllipsePair}
    (hskew : ¬ s.skew < skewThreshold c) (hs₁ : (unbias c).Yields s k s₁) (hs₂ : (orient c).Yields s₁ g₀ s₂)
    (hop : choose? s₂.a.form.m01.isNegative (s₂.a.z c) (s₂.b.z c) c = some op)
    (hs₃ : (step c g₀ op).Yields s₂ (g₀ * op) s₃) (hs' : s₃.shift k c = .ok s')
    (hfalls : ¬ s.skew * c.ratio 9 10 < s'.skew) : (reduce c).Yields s ((g₀ * op).shift k) s' := by
  have hchosen : (stepChosen c g₀).Yields s₂ (g₀ * op) s₃ := by
    refine (OnPair.yields_get s₂).bind ?_
    dsimp only
    rw [hop]
    exact hs₃
  refine (OnPair.yields_get s).bind ?_
  rw [if_neg hskew]
  refine hs₁.bind (hs₂.bind (hchosen.bind ((OnPair.yields_get s₃).bind
    ((OnPair.yields_lift hs' s₃).bind ((OnPair.yields_set s₃ s').bind
      ((OnPair.yields_get s').bind ?_))))))
  rw [if_neg hfalls]
  exact OnPair.yields_pure _ _

/-- A pair that does not count as upright has an exact skew that is worth a reduction. -/
theorem Follows.le_skew (hc : c.AccurateUnits) (h : s.Follows c.prec ω H Γ X Y) (hω : 0 ≤ ω)
    (hbears : Bears c t H ω) (hskew : ¬ s.skew < skewThreshold c) :
    149 / 10 ≤ X.form.b ^ 2 + Y.form.b ^ 2 := by
  rw [lt_iff_value, value_skewThreshold hc, not_lt] at hskew
  linarith [(abs_le.1 (abs_skew_sub_le hc h hω hbears)).2]

/-- Where the table has no case for a pair, the reduction fails. -/
theorem reduce_error {k : ℤ} {g₀ : GridOperator} {s₁ s₂ : EllipsePair} (hskew : ¬ s.skew < skewThreshold c)
    (hs₁ : (unbias c).Yields s k s₁) (hs₂ : (orient c).Yields s₁ g₀ s₂)
    (hop : choose? s₂.a.form.m01.isNegative (s₂.a.z c) (s₂.b.z c) c = none) :
    ∃ e, (reduce c).run s = (.error e, s₂) := by
  have hchosen : (stepChosen c g₀).run s₂ = (.error (.internal ("no skew reduction applies to z = "
      ++ (s₂.a.z c).toDecimal 6 ++ ", zeta = " ++ (s₂.b.z c).toDecimal 6)), s₂) := by
    unfold stepChosen
    rw [(OnPair.yields_get s₂).run_bind]
    dsimp only
    rw [hop]
    rfl
  have hrest : (reduce c).run s = (stepChosen c g₀ >>= fun g => do
      set (← (← get).shift k c)
      let final := (← get).skew
      if s.skew * c.ratio 9 10 < final then
        throw (.internal ("skew went from " ++ s.skew.toDecimal 6 ++ " to " ++ final.toDecimal 6
          ++ ", less than a 10% reduction"))
      return g.shift k).run s₂ := by
    unfold reduce
    rw [(OnPair.yields_get s).run_bind, if_neg hskew, hs₁.run_bind, hs₂.run_bind]
  exact ⟨_, hrest.trans (OnPair.run_bind_of_error hchosen)⟩

/-- A reduction of a pair that follows `X` and `Y`: it is followed exactly, and takes a tenth of the skew away
at a bounded change of the exponents. -/
structure FollowedReduction (c : Constants) (ω H Γ N : ℝ) (X Y : ExactEllipse) (s : EllipsePair) (k : ℤ)
    (g₀ op : GridOperator) (s₁ s₂ s' : EllipsePair) : Prop extends Reduction c s k g₀ op s₁ s₂ s' where
  grid : (g₀ * op).IsGrid
  special : (g₀ * op).isSpecial = true
  follows : s'.Follows c.prec ω H Γ (X.pull ((g₀ * op).shift k).real)
    (Y.pull ((-1 : ℝ) ^ k • ((g₀ * op).shift k).dot.real))
  skew_le : s'.skew.value ≤ 9 / 10 * s.skew.value
  b_sq_le : (X.pull ((g₀ * op).shift k).real).form.b ^ 2
      + (Y.pull ((-1 : ℝ) ^ k • ((g₀ * op).shift k).dot.real)).form.b ^ 2
    ≤ 88 / 100 * (X.form.b ^ 2 + Y.form.b ^ 2)
  abs_z_le : ∀ D : ℝ, 70 * H ^ 3 ≤ lambdaReal ^ D →
    |(X.pull ((g₀ * op).shift k).real).form.z| ≤ N + 2 + D ∧
    |(Y.pull ((-1 : ℝ) ^ k • ((g₀ * op).shift k).dot.real)).form.z| ≤ N + 2 + D

section Follow

variable (hc : c.AccurateUnits) (h : s.Follows c.prec ω H Γ X Y) (hω : 0 ≤ ω)
  (hδ : stepError c (N + 2) = δ) (hbears : Bears c t H (ω + 5 * δ)) (hN : InRange c (2 * N + 2))
  (hN0 : 0 ≤ N) (hX : |X.form.z| ≤ N) (hY : |Y.form.z| ≤ N)
  (hH : X.form.b ^ 2 + Y.form.b ^ 2 + 101 / 100 ≤ H ^ 2) (hskew : ¬ s.skew < skewThreshold c)
include hc h hω hδ hbears hN hN0 hX hY hH hskew

/-- **A reduction succeeds** once an operator is chosen for the prepared pair. -/
theorem Prepared.exists_reduction {k : ℤ} {g₀ op : GridOperator} {s₁ s₂ : EllipsePair}
    (hs₁ : (unbias c).Yields s k s₁) (hs₂ : (orient c).Yields s₁ g₀ s₂)
    (hprep : Prepared c t (ω + δ + δ + δ) H Γ N X Y k g₀ s₂)
    (hop : choose? s₂.a.form.m01.isNegative (s₂.a.z c) (s₂.b.z c) c = some op) :
    ∃ s', FollowedReduction c (ω + 5 * δ) H Γ N X Y s k g₀ op s₁ s₂ s' := by
  obtain ⟨hδ0, hδ1⟩ := step_error_le hδ hN0
  have hbears₀ : Bears c t H ω := hbears.mono (by linarith)
  have hS := h.le_skew hc hω hbears₀ hskew
  have hf₂ := hprep.follows
  have hz₂ := hprep.abs_z_le hX hY
  have hreduces := reduces_of_choose? hc hf₂ (by linarith) (hbears.mono (by linarith)) hN hz₂.1 hz₂.2
    hprep.oriented (by rw [hprep.b_sq, hprep.b_sq_dot]; exact hS) hop
  have hsuits := Reduces.suits hreduces hf₂.fst.tracks.fits hf₂.snd.tracks.fits
    (by rw [hprep.b_sq, hprep.b_sq_dot]; exact hH)
  obtain ⟨s₃, hs₃, hf₃⟩ := exists_step hc hf₂ (by linarith) hsuits hδ0 (hbears.mono (by linarith)) g₀
  obtain ⟨s', hs', hf'⟩ := hf₃.exists_shift hc (by linarith) hprep.abs_le
    (by rw [hδ]; exact hbears.mono (by linarith))
  have hω5 : ω + δ + δ + δ + δ + δ = ω + 5 * δ := by ring
  rw [hδ, hω5, pull_shift k hprep.grid hreduces.grid, pull_dot_shift k hprep.grid hreduces.grid] at hf'
  have hexact := hprep.skew_after_le hreduces
  have hfalls := skew_falls hc (x := s.skew) (y := s'.skew) (by
      have := h.fst.tracks.prec.m01
      unfold skew
      simp [this]) (abs_skew_sub_le hc h hω hbears₀) (abs_skew_sub_le hc hf' (by linarith) hbears) hS hexact
  exact ⟨s', ⟨hs₁, hs₂, hop, reduce_yields hskew hs₁ hs₂ hop hs₃ hs' hfalls.2⟩,
    hprep.grid.mul hreduces.grid,
    GridOperator.isSpecial_mul hprep.grid hreduces.grid hprep.special hreduces.special, hf', hfalls.1,
    hexact, fun D hD => hprep.abs_z_after_le hbears.le hX hY hreduces hf₃ hD⟩

/-- **A reduction** is followed exactly, unless it fails. Where the exponents are known to the tolerance of the
tests it does not fail. -/
theorem reduction_cases :
    (∃ k g₀ op s₁ s₂ s', FollowedReduction c (ω + 5 * δ) H Γ N X Y s k g₀ op s₁ s₂ s') ∨
      c.tol.value < t ∧ ∃ e s', (reduce c).run s = (.error e, s') := by
  obtain ⟨hδ0, hδ1⟩ := step_error_le hδ hN0
  obtain ⟨k, g₀, s₁, s₂, hs₁, hs₂, hprep⟩ := exists_prepared hc h hω hδ (hbears.mono (by linarith)) hN hN0
    hX hY
  cases hop : choose? s₂.a.form.m01.isNegative (s₂.a.z c) (s₂.b.z c) c with
  | some op =>
    obtain ⟨s', hs'⟩ := hprep.exists_reduction hc h hω hδ hbears hN hN0 hX hY hH hskew hs₁ hs₂ hop
    exact .inl ⟨k, g₀, op, s₁, s₂, s', hs'⟩
  | none =>
    obtain ⟨e, he⟩ := reduce_error hskew hs₁ hs₂ hop
    refine .inr ⟨lt_of_le_of_ne hbears.tol_le ?_, e, s₂, he⟩
    rintro rfl
    have hz₂ := hprep.abs_z_le hX hY
    obtain ⟨hdiff, hsum⟩ := exponents_of_oriented hc hprep.follows (by linarith) (hbears.mono (by linarith)) hN
      hz₂.1 hz₂.2 hprep.oriented
    obtain ⟨op, hop'⟩ := exists_choose? hc s₂.a.form.m01.isNegative hdiff hsum
    rw [hop'] at hop
    cases hop

end Follow

end Reduce

/-! ## Pairs that are made from matrices -/

/-- The matrix of a symmetric positive definite form at the working precision, with a determinant within
`2^(-prec/2)` of one and entries below `2^(prec/5)`. -/
structure IsUnitForm (c : Constants) (m : Mat2) : Prop where
  prec : m.HasPrec c.prec
  symmetric : m.m10.value = m.m01.value
  m00_pos : 0 < m.m00.value
  det_near : |m.m00.value * m.m11.value - m.m01.value ^ 2 - 1| ≤ (2 : ℝ) ^ (-(c.prec : ℝ) / 2)
  m00_lt : |m.m00.value| < (2 : ℝ) ^ ((c.prec : ℝ) / 5)
  m01_lt : |m.m01.value| < (2 : ℝ) ^ ((c.prec : ℝ) / 5)
  m11_lt : |m.m11.value| < (2 : ℝ) ^ ((c.prec : ℝ) / 5)

noncomputable def formOf (m : Mat2) : Form := ⟨m.m00.value, m.m01.value, m.m11.value⟩

/-- The bound of the entries, as a whole power of two. -/
theorem lt_two_pow_of_lt {d : ℕ} {x : ℝ}
    (hx : |x| < (2 : ℝ) ^ (((Constants.ofDigits d).prec : ℝ) / 5)) : |x| < 2 ^ (4 * d + 26) := by
  refine hx.trans_le ?_
  rw [← Real.rpow_natCast]
  refine Real.rpow_le_rpow_of_exponent_le (by norm_num) ?_
  show ((20 * d + 128 : ℕ) : ℝ) / 5 ≤ _
  push_cast
  linarith

namespace IsUnitForm

variable {d : ℕ} {m : Mat2} (h : IsUnitForm (Constants.ofDigits d) m)
include h

theorem det_bounds : 99 / 100 ≤ (formOf m).det ∧ (formOf m).det ≤ 101 / 100 := by
  have hsmall : (2 : ℝ) ^ (-((Constants.ofDigits d).prec : ℝ) / 2) ≤ 1 / 100 := by
    calc (2 : ℝ) ^ (-((Constants.ofDigits d).prec : ℝ) / 2) ≤ (2 : ℝ) ^ (-7 : ℝ) := by
          refine Real.rpow_le_rpow_of_exponent_le (by norm_num) ?_
          show -((20 * d + 128 : ℕ) : ℝ) / 2 ≤ -7
          push_cast
          linarith [(Nat.cast_nonneg d : (0 : ℝ) ≤ d)]
      _ ≤ 1 / 100 := by
          rw [Real.rpow_neg (by norm_num)]
          norm_num
  have hdet := abs_le.1 (h.det_near.trans hsmall)
  show 99 / 100 ≤ m.m00.value * m.m11.value - m.m01.value ^ 2 ∧
    m.m00.value * m.m11.value - m.m01.value ^ 2 ≤ 101 / 100
  constructor
  · linarith [hdet.1]
  · linarith [hdet.2]

theorem isPos : (formOf m).IsPos where
  p_pos := h.m00_pos
  q_pos := by
    have hdet := h.det_bounds.1
    have hp := h.m00_pos
    show 0 < m.m11.value
    by_contra hneg
    have hprod : m.m00.value * m.m11.value ≤ 0 := mul_nonpos_of_nonneg_of_nonpos hp.le (not_lt.1 hneg)
    have hform : (formOf m).det = m.m00.value * m.m11.value - m.m01.value ^ 2 := rfl
    linarith [sq_nonneg m.m01.value]
  det_pos := by linarith [h.det_bounds.1]

theorem diagonal_lt : (formOf m).p < 2 ^ (4 * d + 26) ∧ (formOf m).q < 2 ^ (4 * d + 26) :=
  ⟨(le_abs_self _).trans_lt (lt_two_pow_of_lt h.m00_lt),
    (le_abs_self _).trans_lt (lt_two_pow_of_lt h.m11_lt)⟩

theorem fits : (formOf m).Fits (2 ^ (4 * d + 27)) := by
  have hpos := h.isPos
  refine ⟨hpos, h.det_bounds.1, h.det_bounds.2, ?_⟩
  refine (abs_le_of_sq_le_sq' ?_ (by positivity)).2
  obtain ⟨hp, hq⟩ := h.diagonal_lt
  have hmul := mul_le_mul hp.le hq.le hpos.q_pos.le (by positivity)
  rw [hpos.size_sq, pow_succ 2 (4 * d + 26), mul_pow]
  refine hmul.trans ?_
  have hsq : (0 : ℝ) ≤ 2 ^ (4 * d + 26) * 2 ^ (4 * d + 26) := by positivity
  linarith

/-- The exponent is below the precision. -/
theorem abs_z_le : |(formOf m).z| ≤ 20 * d + 128 := by
  have hpos := h.isPos
  obtain ⟨hp, hq⟩ := h.diagonal_lt
  have hlog := log_lambdaReal_bounds
  -- of two numbers with a product of about one, none is far below the inverse of the other
  have hquot {x y : ℝ} (hx : 0 < x) (hy : 0 < y) (hxy : 99 / 100 ≤ x * y) (hyB : y < 2 ^ (4 * d + 26)) :
      Real.log (y / x) ≤ (8 * d + 53) * 0.6932 := by
    have hle : y / x ≤ 2 ^ (8 * d + 53) := by
      rw [div_le_iff₀ hx]
      have hB : y * y ≤ 2 ^ (4 * d + 26) * 2 ^ (4 * d + 26) :=
        mul_le_mul hyB.le hyB.le hy.le (by positivity)
      have hpow : (2 : ℝ) ^ (8 * d + 53) = 2 * (2 ^ (4 * d + 26) * 2 ^ (4 * d + 26)) := by
        rw [← pow_add, ← pow_succ']
        congr 1
        omega
      rw [hpow]
      have hmul := mul_le_mul_of_nonneg_right hB hx.le
      have hchain := mul_le_mul_of_nonneg_left hxy hy.le
      linarith
    have hlog2 := Real.log_two_lt_d9
    calc Real.log (y / x) ≤ Real.log (2 ^ (8 * d + 53)) := Real.log_le_log (div_pos hy hx) hle
      _ = (8 * d + 53) * Real.log 2 := by
          rw [Real.log_pow]
          push_cast
          ring
      _ ≤ (8 * d + 53) * 0.6932 := mul_le_mul_of_nonneg_left (by linarith) (by linarith)
  have hprod : 99 / 100 ≤ (formOf m).p * (formOf m).q := by
    have hdet := h.det_bounds.1
    rw [Form.det] at hdet
    linarith [sq_nonneg (formOf m).b]
  have hup := hquot hpos.p_pos hpos.q_pos hprod hq
  have hdown := hquot hpos.q_pos hpos.p_pos (mul_comm (formOf m).p _ ▸ hprod) hp
  rw [← inv_div, Real.log_inv] at hdown
  unfold Form.z
  rw [abs_div, abs_of_pos (by linarith : 0 < 2 * Real.log lambdaReal), div_le_iff₀ (by linarith)]
  have hscale : (20 * (d : ℝ) + 128) * 1.72 ≤ (20 * d + 128) * (2 * Real.log lambdaReal) :=
    mul_le_mul_of_nonneg_left (by linarith) (by linarith)
  refine abs_le.2 ⟨?_, ?_⟩
  · linarith
  · linarith

/-- An ellipse made from the matrix follows the exact one. -/
theorem follows {E : Ellipse} {center : Vec2} {c : Constants} {Γ : ℝ}
    (hE : Ellipse.ofMatrix m center c = .ok E)
    (hΓ : (formOf m).norm center.x.value center.y.value ≤ Γ) :
    E.Follows (20 * d + 128) 0 (2 ^ (4 * d + 27)) Γ
      ⟨formOf m, ![center.x.value, center.y.value]⟩ := by
  have hdet : m.determinant.value ≠ 0 := by
    intro h0
    unfold Ellipse.ofMatrix Ellipse.axesOf at hE
    have hnone : c.one.div? m.determinant = none := by
      unfold div?
      dsimp only
      rw [if_pos (isZero_iff.2 h0)]
    rw [hnone] at hE
    cases hE
  obtain ⟨E', hE', hform, hcenter⟩ := Ellipse.exists_ofMatrix hdet center c
  obtain rfl : E' = E := by
    rw [hE'] at hE
    exact Except.ok.inj hE
  refine ⟨⟨hform ▸ h.prec, ⟨fun x y => ?_, ?_⟩, h.fits⟩, ?_, hΓ⟩
  · rw [hform]
    simp only [Mat2.evalForm, Form.eval, formOf, h.symmetric]
    rw [mul_zero, zero_mul, zero_mul]
    refine le_of_eq (abs_eq_zero.2 ?_)
    ring
  · rw [hform, h.symmetric, sub_self, abs_zero, mul_zero, zero_mul]
  · unfold Ellipse.Centered
    rw [hcenter]
    show (formOf m).norm (center.x.value - center.x.value) (center.y.value - center.y.value) ≤ _
    rw [sub_self, sub_self, Form.norm, Form.eval]
    simp

end IsUnitForm

/-- A polynomial below a power of two. -/
theorem mul_add_le_two_pow {d : ℕ} (hd : 0 < d) : 1250 * (20 * d + 131) ≤ 2 ^ (d + 17) := by
  induction d, hd using Nat.le_induction with
  | base => norm_num
  | succ n hn ih =>
    have hstep : 2 ^ (n + 1 + 17) = 2 * 2 ^ (n + 17) := by ring
    omega

/-- A matrix with small integers for its entries. -/
theorem isUnitForm_ofInt {d : ℕ} {x y z : ℤ} (hx : 0 < x) (hy : 0 ≤ y) (hz : 0 ≤ z) (hx5 : x < 2 ^ 5)
    (hy5 : y < 2 ^ 5) (hz5 : z < 2 ^ 5) (hdet : x * z - y ^ 2 = 1) :
    IsUnitForm (Constants.ofDigits d) ⟨ofInt x (20 * d + 128), ofInt y (20 * d + 128),
      ofInt y (20 * d + 128), ofInt z (20 * d + 128)⟩ := by
  have hvalue {x : ℤ} (hx : 0 ≤ x) (hx5 : x < 2 ^ 5) : (ofInt x (20 * d + 128)).value = x := by
    obtain ⟨n, rfl⟩ := Int.eq_ofNat_of_zero_le hx
    exact value_ofInt_of_fits ((bitLength_le_of_lt (by exact_mod_cast hx5)).trans (by omega))
  have hbound {x : ℤ} (hx : 0 ≤ x) (hx5 : x < 2 ^ 5) :
      |(x : ℝ)| < (2 : ℝ) ^ (((20 * d + 128 : ℕ) : ℝ) / 5) := by
    have hx5' : (x : ℝ) < 2 ^ 5 := by exact_mod_cast hx5
    rw [abs_of_nonneg (by exact_mod_cast hx)]
    refine hx5'.trans_le ?_
    rw [← Real.rpow_natCast]
    refine Real.rpow_le_rpow_of_exponent_le (by norm_num) ?_
    push_cast
    linarith [(Nat.cast_nonneg d : (0 : ℝ) ≤ d)]
  refine ⟨⟨?_, ?_, ?_, ?_⟩, rfl, ?_, ?_, ?_, ?_, ?_⟩
  · exact (prec_ofInt _ _).ge
  · exact (prec_ofInt _ _).ge
  · exact (prec_ofInt _ _).ge
  · exact (prec_ofInt _ _).ge
  · rw [hvalue hx.le hx5]
    exact_mod_cast hx
  · rw [hvalue hx.le hx5, hvalue hy hy5, hvalue hz hz5]
    have hzero : (x : ℝ) * z - (y : ℝ) ^ 2 - 1 = 0 := by
      have : ((x * z - y ^ 2 : ℤ) : ℝ) = 1 := by exact_mod_cast hdet
      push_cast at this
      linarith
    rw [hzero, abs_zero]
    positivity
  · rw [hvalue hx.le hx5]
    exact hbound hx.le hx5
  · rw [hvalue hy hy5]
    exact hbound hy hy5
  · rw [hvalue hz hz5]
    exact hbound hz hz5

end EllipsePair

end CliffordT
