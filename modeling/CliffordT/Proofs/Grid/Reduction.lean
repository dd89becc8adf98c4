/-
One reduction of the skew.

A reduction shifts the pair until the exponents are near each other, exchanges or reflects the coordinates
until their sum and the second entry off the diagonal are not negative, applies the operator that is chosen,
and shifts back. Each of these is followed by an exact pair; the computed exponents, signs and skews are near
enough to the exact ones that the choice covers all cases and the skew falls by a tenth in the computed
numbers too.
-/
import CliffordT.Proofs.Grid.Pair

namespace CliffordT

open BinFloat

namespace EllipsePair

open GridOperator (sigmaReal tauReal)

/-! ## Measures -/

/-- Exponents up to `N` are computed to a part of the tolerance, and fit into a shift. -/
structure InRange (c : Constants) (N : ℝ) : Prop where
  nonneg : 0 ≤ N
  le : N ≤ 2 ^ 60
  small : 4000 * (N + 3) * roundoff c.prec ≤ c.tol.value / 256

theorem InRange.mono {c : Constants} {N M : ℝ} (h : InRange c N) (hM : 0 ≤ M) (hMN : M ≤ N) :
    InRange c M where
  nonneg := hM
  le := hMN.trans h.le
  small := by
    have := mul_le_mul_of_nonneg_right hMN (roundoff_pos c.prec).le
    linarith [h.small]

/-- Rounding a sum or a difference of exponents. -/
theorem InRange.abs_sub_le {c : Constants} {N b t : ℝ} (hN : InRange c N)
    (hround : |b - t| ≤ 2 * roundoff c.prec * |t|) (ht : |t| ≤ 2 * N + 2) : |b - t| ≤ c.tol.value / 256 := by
  have hu := roundoff_pos c.prec
  have hmul := mul_le_mul_of_nonneg_left ht (by linarith : 0 ≤ 2 * roundoff c.prec)
  have hNu := mul_nonneg hN.nonneg hu.le
  linarith [hN.small]

/-- Such a power fits into 64 bits. -/
theorem InRange.fits {c : Constants} {N : ℝ} (hN : InRange c N) {k : ℤ} (hk : |(k : ℝ)| ≤ N + 2) :
    -((1 : Int) <<< (63 : Nat)) ≤ k ∧ k < (1 : Int) <<< (63 : Nat) := by
  have hpow : (1 : Int) <<< (63 : Nat) = 2 ^ 63 := by decide
  have hle := hN.le
  obtain ⟨hk1, hk2⟩ := abs_le.1 hk
  rw [hpow]
  constructor
  · have : (-(2 : ℝ) ^ 63) ≤ k := by linarith
    exact_mod_cast this
  · have : (k : ℝ) < 2 ^ 63 := by linarith
    exact_mod_cast this

section Measures

variable {c : Constants} {t ω H Γ N : ℝ} {E : Ellipse} {X Y : ExactEllipse} {s : EllipsePair}

theorem prec_z (hc : c.AccurateUnits) (E : Ellipse) : c.prec ≤ (E.z c).prec := by
  unfold Ellipse.z
  split
  · rw [prec_div, hc.prec_logLambda]
    exact le_max_right _ _
  · exact le_rfl

/-- The computed exponent of an ellipse. -/
theorem abs_z_sub_le (hc : c.AccurateUnits) (h : E.Follows c.prec ω H Γ X) (hω : 0 ≤ ω)
    (hbears : Bears c t H ω) (hN : InRange c N) (hz : |X.form.z| ≤ N) :
    |(E.z c).value - X.form.z| ≤ t / 32 := by
  have hu := roundoff_pos c.prec
  have htol := hc.tol_le
  have hη0 : 0 ≤ 204 * ω * H ^ 2 := by positivity
  have hsmall : 1000 * roundoff c.prec * (|X.form.z| + 1) ≤ c.tol.value / 256 := by
    have h1 := mul_le_mul_of_nonneg_left hz hu.le
    linarith [hN.small, mul_nonneg hN.nonneg hu.le]
  have hle := Ellipse.abs_z_sub_le hc h.tracks.fits.toIsPos h.tracks.near h.tracks.prec hη0 hbears.form_le'
    (by linarith)
  linarith [hbears.form_le, hbears.tol_le]

/-- The computed entry off the diagonal, relative to the exact one. -/
theorem abs_m01_sub_le (h : E.Follows c.prec ω H Γ X) (hω : 0 ≤ ω) (hbears : Bears c t H ω) :
    |E.form.m01.value - X.form.b| ≤ slightness / 2 * (|X.form.b| + 1) := by
  have hν : slightness = 1 / 2 ^ 20 := rfl
  have hfits := h.tracks.fits
  have hH : 99 / 100 ≤ H := hfits.le_size.trans hfits.size_le
  have hle := h.tracks.near.abs_m01_sub_le hfits.toIsPos
  have hb0 := abs_nonneg X.form.b
  have hsize : X.form.size ≤ |X.form.b| + 1.005 := by
    refine (abs_le_of_sq_le_sq' ?_ (by linarith)).2
    rw [hfits.size_sq', add_sq, sq_abs]
    linarith [hfits.det_le]
  have hη : 204 * ω * H ^ 2 ≤ 1 / 2560000 := by linarith [hbears.form_le, hbears.le]
  have hform : 204 * ω * H ^ 2 * X.form.size ≤ 1 / 2560000 * (|X.form.b| + 1.005) :=
    mul_le_mul hη hsize hfits.size_pos.le (by norm_num)
  have hasym : ω * H * (99 / 100) ≤ ω * H * H := mul_le_mul_of_nonneg_left hH (by positivity)
  rw [hν]
  linarith

/-- The sign of the computed entry is nearly that of the exact one. -/
theorem neg_slightness_le_b (h : E.Follows c.prec ω H Γ X) (hω : 0 ≤ ω) (hbears : Bears c t H ω)
    (hm : 0 ≤ E.form.m01.value) : -slightness ≤ X.form.b := by
  have hν : slightness = 1 / 2 ^ 20 := rfl
  have hle := (abs_le.1 (abs_m01_sub_le h hω hbears)).2
  by_contra hlt
  rw [not_le] at hlt
  rw [abs_of_neg (by linarith)] at hle
  rw [hν] at hle hlt
  linarith

theorem b_le_slightness (h : E.Follows c.prec ω H Γ X) (hω : 0 ≤ ω) (hbears : Bears c t H ω)
    (hm : E.form.m01.value < 0) : X.form.b ≤ slightness := by
  have hν : slightness = 1 / 2 ^ 20 := rfl
  have hle := (abs_le.1 (abs_m01_sub_le h hω hbears)).1
  by_contra hlt
  rw [not_le] at hlt
  rw [abs_of_pos (by linarith)] at hle
  rw [hν] at hle hlt
  linarith

/-- A square, when the number is known up to a part of itself and of one. -/
theorem abs_sq_sub_sq_le {x y ν : ℝ} (h : |x - y| ≤ ν * (|y| + 1)) (hν : ν ≤ 1) :
    |x ^ 2 - y ^ 2| ≤ ν * (5 * y ^ 2 + 3) := by
  have hy := abs_nonneg y
  have hν0 : 0 ≤ ν := nonneg_of_mul_nonneg_left ((abs_nonneg _).trans h) (by linarith)
  have hx : |x + y| ≤ 2 * |y| + 1 * (|y| + 1) := by
    have htri := abs_add_le (x - y) (2 * y)
    have hstep := mul_le_mul_of_nonneg_right hν (by linarith : 0 ≤ |y| + 1)
    rw [abs_mul, abs_two, show x - y + 2 * y = x + y by ring] at htri
    linarith
  have hsplit : x ^ 2 - y ^ 2 = (x - y) * (x + y) := by ring
  rw [hsplit, abs_mul]
  calc |x - y| * |x + y| ≤ ν * (|y| + 1) * (2 * |y| + 1 * (|y| + 1)) :=
        mul_le_mul h hx (abs_nonneg _) (by positivity)
    _ = ν * (3 * |y| ^ 2 + 4 * |y| + 1) := by ring
    _ ≤ ν * (5 * y ^ 2 + 3) := by
        refine mul_le_mul_of_nonneg_left ?_ hν0
        rw [← sq_abs y]
        linarith [sq_nonneg (|y| - 1)]

/-- **The computed skew** is that of the exact pair, to a thousandth. -/
theorem abs_skew_sub_le (hc : c.AccurateUnits) (h : s.Follows c.prec ω H Γ X Y) (hω : 0 ≤ ω)
    (hbears : Bears c t H ω) :
    |s.skew.value - (X.form.b ^ 2 + Y.form.b ^ 2)|
      ≤ (X.form.b ^ 2 + Y.form.b ^ 2 + 1) / 1000 := by
  have hu1 : roundoff c.prec ≤ 1 / 2 ^ 96 := (roundoff_anti hc.le_prec).trans (roundoff_eq 96).le
  have hν : slightness / 2 = 1 / 2 ^ 21 := by norm_num [slightness]
  have ha := abs_m01_sub_le h.fst hω hbears
  have hb := abs_m01_sub_le h.snd hω hbears
  have hpa := h.fst.tracks.prec.m01
  have hpb := h.snd.tracks.prec.m01
  unfold skew
  generalize s.a.form.m01 = x at ha hpa ⊢
  generalize s.b.form.m01 = y at hb hpb ⊢
  generalize X.form.b = b at ha ⊢
  generalize Y.form.b = β at hb ⊢
  have hround := (Close.value_mul_add_mul hpa hpb le_rfl le_rfl (by linarith) (.refl le_rfl x.value)
    (.refl le_rfl x.value) (.refl le_rfl y.value) (.refl le_rfl y.value)).sub_le
  rw [abs_mul_abs_self, abs_mul_abs_self, ← sq, ← sq] at hround
  have hx := abs_sq_sub_sq_le ha (by rw [hν]; norm_num)
  have hy := abs_sq_sub_sq_le hb (by rw [hν]; norm_num)
  rw [hν] at hx hy
  have hM : 0 ≤ x.value ^ 2 + y.value ^ 2 := by positivity
  have hb0 := sq_nonneg b
  have hβ0 := sq_nonneg β
  generalize x.value ^ 2 = m at *
  generalize y.value ^ 2 = n at *
  generalize b ^ 2 = b2 at *
  generalize β ^ 2 = β2 at *
  have huM : roundoff c.prec * (m + n) ≤ 1 / 2 ^ 96 * (m + n) := mul_le_mul_of_nonneg_right hu1 hM
  obtain ⟨hlow, hhigh⟩ := abs_le.1 hround
  obtain ⟨hx1, hx2⟩ := abs_le.1 hx
  obtain ⟨hy1, hy2⟩ := abs_le.1 hy
  refine abs_le.2 ⟨?_, ?_⟩
  · linarith
  · linarith

end Measures

/-! ## Shifting -/

section Unbias

variable {c : Constants} {t ω H Γ N : ℝ} {X Y : ExactEllipse} {s : EllipsePair}

theorem sigmaReal_zero : sigmaReal 0 = 1 := by
  unfold GridOperator.sigmaReal
  rw [neg_zero, zpow_zero, Matrix.one_fin_two]

theorem tauReal_zero : tauReal 0 = 1 := by
  unfold GridOperator.tauReal
  rw [neg_zero, zpow_zero, zpow_zero, one_mul, Matrix.one_fin_two]

theorem z_pull_sigma {F : Form} (hF : F.IsPos) (k : ℤ) : (F.pull (sigmaReal k)).z = F.z - k := by
  have h (k : ℤ) : (√lambdaReal ^ k) ^ 2 = lambdaReal ^ k := by
    rw [sq, GridOperator.sqrt_lambdaReal_zpow_mul_self]
  rw [Form.pull_diag F rfl rfl]
  exact Form.z_scale hF (h k) (h (-k))

theorem z_pull_tau {F : Form} (hF : F.IsPos) (k : ℤ) : (F.pull (tauReal k)).z = F.z + k := by
  have h (k : ℤ) : (√lambdaReal ^ k) ^ 2 = lambdaReal ^ k := by
    rw [sq, GridOperator.sqrt_lambdaReal_zpow_mul_self]
  have hsign : ((-1 : ℝ) ^ k * √lambdaReal ^ k) ^ 2 = lambdaReal ^ (- -k) := by
    rw [mul_pow, h, neg_neg, ← sq_abs, GridOperator.abs_neg_one_zpow, one_pow, one_mul]
  rw [Form.pull_diag F rfl rfl]
  have hz := Form.z_scale (b := tauReal k 0 0 * tauReal k 1 1 * F.b) hF (h (-k)) hsign
  rw [Int.cast_neg, sub_neg_eq_add] at hz
  exact hz

theorem b_sq_pull_sigma (F : Form) (k : ℤ) : (F.pull (sigmaReal k)).b ^ 2 = F.b ^ 2 := by
  rw [Form.pull_diag F rfl rfl, GridOperator.sigmaReal_diag, one_mul]

theorem b_sq_pull_tau (F : Form) (k : ℤ) : (F.pull (tauReal k)).b ^ 2 = F.b ^ 2 := by
  rw [Form.pull_diag F rfl rfl, GridOperator.tauReal_diag, mul_pow, ← sq_abs ((-1 : ℝ) ^ k),
    GridOperator.abs_neg_one_zpow, one_pow, one_mul]

/-- The computed bias. -/
theorem abs_bias_sub_le (hc : c.AccurateUnits) (h : s.Follows c.prec ω H Γ X Y) (hω : 0 ≤ ω)
    (hbears : Bears c t H ω) (hN : InRange c N) (hX : |X.form.z| ≤ N) (hY : |Y.form.z| ≤ N) :
    |(s.bias c).value - (Y.form.z - X.form.z)| ≤ t / 12 := by
  have ht := hbears.le
  have htol := hbears.tol_le
  have hz := abs_z_sub_le hc h.fst hω hbears hN hX
  have hζ := abs_z_sub_le hc h.snd hω hbears hN hY
  have hround := (value_sub_within (x := s.b.z c) (y := s.a.z c) (p := c.prec)
    ((prec_z hc _).trans (le_max_left _ _))).sub_le
  unfold bias
  generalize (s.b.z c - s.a.z c).value = b at hround ⊢
  generalize (s.a.z c).value = z at hz hround
  generalize (s.b.z c).value = ζ at hζ hround
  have hdiff : |ζ - z| ≤ 2 * N + 2 := by
    rw [abs_le] at *
    constructor
    · linarith
    · linarith
  have hb := hN.abs_sub_le hround hdiff
  rw [abs_le] at *
  constructor
  · linarith
  · linarith

/-- The computed sum of the exponents. -/
theorem abs_exponent_sum_sub_le (hc : c.AccurateUnits) (h : s.Follows c.prec ω H Γ X Y) (hω : 0 ≤ ω)
    (hbears : Bears c t H ω) (hN : InRange c N) (hX : |X.form.z| ≤ N) (hY : |Y.form.z| ≤ N) :
    |(s.b.z c + s.a.z c).value - (X.form.z + Y.form.z)| ≤ t / 12 := by
  have ht := hbears.le
  have htol := hbears.tol_le
  have hz := abs_z_sub_le hc h.fst hω hbears hN hX
  have hζ := abs_z_sub_le hc h.snd hω hbears hN hY
  have hround := (value_add_within (x := s.b.z c) (y := s.a.z c) (p := c.prec)
    ((prec_z hc _).trans (le_max_left _ _))).sub_le
  generalize (s.b.z c + s.a.z c).value = b at hround ⊢
  generalize (s.a.z c).value = z at hz hround
  generalize (s.b.z c).value = ζ at hζ hround
  have hadd : |ζ + z| ≤ 2 * N + 2 := by
    rw [abs_le] at *
    constructor
    · linarith
    · linarith
  have hb := hN.abs_sub_le hround hadd
  rw [abs_le] at *
  constructor
  · linarith
  · linarith

/-- The power of the shift brings the bias between minus one and one. -/
theorem shiftExponent_spec (hc : c.AccurateUnits) (h : s.Follows c.prec ω H Γ X Y) (hω : 0 ≤ ω)
    (hbears : Bears c t H ω) (hN : InRange c N) (hX : |X.form.z| ≤ N) (hY : |Y.form.z| ≤ N) :
    |((s.shiftExponent c : ℤ) : ℝ)| ≤ N + 2 ∧
      |Y.form.z - X.form.z + 2 * s.shiftExponent c| ≤ 1 + t / 4 := by
  have ht := hbears.le
  have htol := hbears.tol_le
  have hbias := abs_bias_sub_le hc h hω hbears hN hX hY
  have hround := (value_sub_within (x := c.one) (y := s.bias c) (p := c.prec)
    (le_max_of_le_left (prec_one _).ge)).sub_le
  have hone : c.one.value = 1 := value_one _
  rw [hone] at hround
  unfold shiftExponent
  dsimp only
  rw [floor_eq, value_scaleTwo, zpow_neg_one]
  generalize (c.one - s.bias c).value = v at hround ⊢
  generalize (s.bias c).value = b at hbias hround
  rw [abs_le] at hX hY
  have hb : |1 - b| ≤ 2 * N + 2 := by
    rw [abs_le] at *
    constructor
    · linarith
    · linarith
  have hv := hN.abs_sub_le hround hb
  have hfloor := Int.floor_le (v * 2⁻¹)
  have hfloor' := Int.lt_floor_add_one (v * 2⁻¹)
  generalize ⌊v * 2⁻¹⌋ = k at hfloor hfloor' ⊢
  obtain ⟨hv1, hv2⟩ := abs_le.1 hv
  obtain ⟨hb1, hb2⟩ := abs_le.1 hb
  obtain ⟨hbias1, hbias2⟩ := abs_le.1 hbias
  have hkN : |(k : ℝ)| ≤ N + 2 := by
    refine abs_le.2 ⟨?_, ?_⟩
    · linarith
    · linarith
  rw [if_pos (hN.fits hkN)]
  refine ⟨hkN, abs_le.2 ⟨?_, ?_⟩⟩
  · linarith
  · linarith

/-- **The shift of a reduction.** -/
theorem exists_unbias (hc : c.AccurateUnits) (h : s.Follows c.prec ω H Γ X Y) (hω : 0 ≤ ω)
    (hbears : Bears c t H (ω + stepError c (N + 2))) (hN : InRange c N) (hX : |X.form.z| ≤ N)
    (hY : |Y.form.z| ≤ N) :
    ∃ k s', (unbias c).Yields s k s' ∧ |(k : ℝ)| ≤ N + 2 ∧
      |Y.form.z - X.form.z + 2 * k| ≤ 1 + t / 4 ∧
      s'.Follows c.prec (ω + stepError c (N + 2)) H Γ (X.pull (sigmaReal k)) (Y.pull (tauReal k)) := by
  have hN0 := hN.nonneg
  have hδ := stepError_nonneg (c := c) (by linarith : 0 ≤ N + 2)
  have hbears0 := hbears.mono (by linarith : ω ≤ ω + stepError c (N + 2))
  have hbias := abs_bias_sub_le hc h hω hbears0 hN hX hY
  have hone : c.one.value = 1 := value_one _
  by_cases hlarge : c.one < (s.bias c).abs
  · obtain ⟨hk, hdiff⟩ := shiftExponent_spec hc h hω hbears0 hN hX hY
    obtain ⟨s', hs', hfollows⟩ := h.exists_shift hc hω hk hbears
    refine ⟨_, s', ?_, hk, hdiff, hfollows⟩
    refine (OnPair.yields_get s).bind ?_
    rw [if_pos hlarge]
    refine (OnPair.yields_get s).bind ((OnPair.yields_get s).bind ?_)
    exact (OnPair.yields_lift hs' s).bind ((OnPair.yields_set s s').bind (OnPair.yields_pure _ _))
  · refine ⟨0, s, ?_, ?_, ?_, ?_⟩
    · refine (OnPair.yields_get s).bind ?_
      rw [if_neg hlarge]
      exact OnPair.yields_pure _ _
    · rw [Int.cast_zero, abs_zero]
      linarith
    · rw [lt_iff_value, value_abs, hone, not_lt] at hlarge
      rw [Int.cast_zero, mul_zero, add_zero]
      rw [abs_le] at *
      constructor
      · linarith
      · linarith
    · rw [sigmaReal_zero, tauReal_zero, ExactEllipse.pull_one, ExactEllipse.pull_one]
      exact h.mono (by linarith)

end Unbias

/-! ## Applying operators -/

section Step

variable {c : Constants} {t ω δ H Γ : ℝ} {X Y : ExactEllipse} {s : EllipsePair}

theorem pull_real_mul (X : ExactEllipse) {f g : GridOperator} (hf : f.IsGrid) (hg : g.IsGrid) :
    X.pull (f * g).real = (X.pull f.real).pull g.real := by
  rw [GridOperator.real_mul hf hg, ExactEllipse.pull_mul]

theorem pull_dot_real_mul (X : ExactEllipse) {f g : GridOperator} (hf : f.IsGrid) (hg : g.IsGrid) :
    X.pull (f * g).dot.real = (X.pull f.dot.real).pull g.dot.real := by
  rw [GridOperator.dot_mul, GridOperator.real_mul hf.dot hg.dot, ExactEllipse.pull_mul]

/-- A step applies the operator and multiplies what was found so far. -/
theorem exists_step (hc : c.AccurateUnits) (h : s.Follows c.prec ω H Γ X Y) (hω : 0 ≤ ω)
    {op : GridOperator} (hop : Suits H op X.form Y.form) (hδ : stepError c 0 ≤ δ)
    (hbears : Bears c t H (ω + δ)) (g : GridOperator) :
    ∃ s', (step c g op).Yields s (g * op) s' ∧
      s'.Follows c.prec (ω + δ) H Γ (X.pull op.real) (Y.pull op.dot.real) := by
  obtain ⟨s', hs', hfollows⟩ := h.exists_apply hc hω hop (hbears.mono (by linarith))
  refine ⟨s', ?_, hfollows.mono (by linarith)⟩
  refine (OnPair.yields_get s).bind ((OnPair.yields_lift hs' s).bind ?_)
  exact (OnPair.yields_set s s').bind (OnPair.yields_pure _ _)

end Step

/-! ## Orienting -/

section Orient

variable {c : Constants} {t ω δ H Γ N : ℝ} {X Y : ExactEllipse} {s : EllipsePair} {F : Form}

theorem identity_real : GridOperator.identity.real = 1 := by
  rw [Matrix.one_fin_two]
  unfold GridOperator.real GridOperator.realEntry
  simp [GridOperator.identity]

theorem pull_swap_real (F : Form) : F.pull GridOperator.swap.real = ⟨F.q, F.b, F.p⟩ := by
  refine Form.pull_swap F ?_ ?_ ?_ ?_
  all_goals simp [GridOperator.swap, GridOperator.realEntry]

theorem swap_dot : GridOperator.swap.dot = GridOperator.swap := by decide

theorem reflection_dot : GridOperator.reflection.dot = GridOperator.reflection := by decide

theorem pull_reflection_real (F : Form) :
    F.pull GridOperator.reflection.real = ⟨F.p, -F.b, F.q⟩ := by
  rw [Form.pull_diag F (by simp [GridOperator.reflection, GridOperator.realEntry])
    (by simp [GridOperator.reflection, GridOperator.realEntry])]
  simp [GridOperator.reflection, GridOperator.realEntry]

theorem suits_swap {G : Form} (hF : F.size ≤ H) (hG : G.size ≤ H) :
    Suits H .swap F G := by
  have htame (F : Form) : F.Tame 5 GridOperator.swap.real := by
    refine Form.tame_swap ?_ ?_ ?_ ?_
    all_goals simp [GridOperator.swap, GridOperator.realEntry]
  have hstable : GridOperator.swap.IsStable :=
    ⟨GridOperator.isStableEntry_int _, GridOperator.isStableEntry_int _,
      GridOperator.isStableEntry_int _, GridOperator.isStableEntry_int _⟩
  refine ⟨hstable, hstable, htame F, htame G, ?_, ?_⟩
  · rwa [pull_swap_real, Form.size_swap]
  · rwa [swap_dot, pull_swap_real, Form.size_swap]

theorem suits_reflection {G : Form} (hF : F.size ≤ H) (hG : G.size ≤ H) :
    Suits H .reflection F G := by
  have htame (F : Form) : F.Tame 5 GridOperator.reflection.real := by
    refine Form.tame_diag ?_ ?_ ?_
    all_goals simp [GridOperator.reflection, GridOperator.realEntry]
  have hstable : GridOperator.reflection.IsStable :=
    ⟨GridOperator.isStableEntry_int _, GridOperator.isStableEntry_int _,
      GridOperator.isStableEntry_int _, GridOperator.isStableEntry_int _⟩
  refine ⟨hstable, hstable, htame F, htame G, ?_, ?_⟩
  · rwa [pull_reflection_real]
  · rwa [reflection_dot, pull_reflection_real]

/-- Two forms after an exchange or a reflection of the coordinates, or neither. -/
structure Turned (F G F' G' : Form) : Prop where
  b_sq : F'.b ^ 2 = F.b ^ 2
  b_sq_dot : G'.b ^ 2 = G.b ^ 2
  z : (F'.z = F.z ∧ G'.z = G.z) ∨ (F'.z = -F.z ∧ G'.z = -G.z)

/-- The forms of a pair when an operator is chosen for it. -/
structure Oriented (t : ℝ) (F G : Form) : Prop where
  diff_le : |G.z - F.z| ≤ 1 + t / 4
  sum_ge : -(t / 12) ≤ F.z + G.z
  b_ge : -slightness ≤ G.b

/-- The exchange of the coordinates, when the exponents have a negative sum. -/
theorem exists_exchange (hc : c.AccurateUnits) (h : s.Follows c.prec ω H Γ X Y) (hω : 0 ≤ ω)
    (hδ : stepError c 0 ≤ δ) (hbears : Bears c t H (ω + δ)) (hN : InRange c N)
    (hX : |X.form.z| ≤ N) (hY : |Y.form.z| ≤ N) :
    ∃ g s', (exchange c).Yields s g s' ∧
      g.IsGrid ∧ g.isSpecial = true ∧
      s'.Follows c.prec (ω + δ) H Γ (X.pull g.real) (Y.pull g.dot.real) ∧
      Turned X.form Y.form (X.pull g.real).form (Y.pull g.dot.real).form ∧
      -(t / 12) ≤ (X.pull g.real).form.z + (Y.pull g.dot.real).form.z := by
  have hδ0 := (stepError_nonneg (c := c) le_rfl).trans hδ
  have hbears0 := hbears.mono (by linarith : ω ≤ ω + δ)
  obtain ⟨hsum1, hsum2⟩ := abs_le.1 (abs_exponent_sum_sub_le hc h hω hbears0 hN hX hY)
  by_cases hneg : (s.b.z c + s.a.z c).isNegative = true
  · have hsize {E : Ellipse} {X : ExactEllipse} (h : E.Follows c.prec ω H Γ X) : X.form.size ≤ H :=
      h.tracks.fits.size_le
    obtain ⟨s', hs', hfollows⟩ := exists_step hc h hω (suits_swap (hsize h.fst) (hsize h.snd)) hδ
      hbears .identity
    have hmul : GridOperator.identity * GridOperator.swap = GridOperator.swap := by decide
    rw [hmul] at hs'
    refine ⟨.swap, s', ?_, by decide, by decide, hfollows, ?_, ?_⟩
    · refine (OnPair.yields_get s).bind ?_
      rwa [if_pos hneg]
    · rw [swap_dot, ExactEllipse.pull_form, ExactEllipse.pull_form, pull_swap_real, pull_swap_real]
      exact ⟨rfl, rfl, .inr ⟨Form.z_swap _ _, Form.z_swap _ _⟩⟩
    · rw [swap_dot, ExactEllipse.pull_form, ExactEllipse.pull_form, pull_swap_real, pull_swap_real,
        Form.z_swap, Form.z_swap]
      linarith [isNegative_iff.1 hneg]
  · have hdot : GridOperator.identity.dot = GridOperator.identity := by decide
    refine ⟨.identity, s, ?_, by decide, by decide, ?_, ?_, ?_⟩
    · refine (OnPair.yields_get s).bind ?_
      rw [if_neg hneg]
      exact OnPair.yields_pure _ _
    · rw [hdot, identity_real, ExactEllipse.pull_one, ExactEllipse.pull_one]
      exact h.mono (by linarith)
    · rw [hdot, identity_real, ExactEllipse.pull_one, ExactEllipse.pull_one]
      exact ⟨rfl, rfl, .inl ⟨rfl, rfl⟩⟩
    · rw [hdot, identity_real, ExactEllipse.pull_one, ExactEllipse.pull_one]
      linarith [not_lt.1 (mt isNegative_iff.2 hneg)]

/-- The reflection, when the second entry off the diagonal is negative. -/
theorem exists_reflect (hc : c.AccurateUnits) (h : s.Follows c.prec ω H Γ X Y) (hω : 0 ≤ ω)
    (hδ : stepError c 0 ≤ δ) (hbears : Bears c t H (ω + δ)) (g : GridOperator) (hg : g.IsGrid)
    (hg' : g.isSpecial = true) {X₀ Y₀ : ExactEllipse} (hX : X = X₀.pull g.real)
    (hY : Y = Y₀.pull g.dot.real) :
    ∃ g' s', (reflect c g).Yields s g' s' ∧
      g'.IsGrid ∧ g'.isSpecial = true ∧
      s'.Follows c.prec (ω + δ) H Γ (X₀.pull g'.real) (Y₀.pull g'.dot.real) ∧
      Turned X.form Y.form (X₀.pull g'.real).form (Y₀.pull g'.dot.real).form ∧
      (X₀.pull g'.real).form.z = X.form.z ∧ (Y₀.pull g'.dot.real).form.z = Y.form.z ∧
      -slightness ≤ (Y₀.pull g'.dot.real).form.b := by
  have hδ0 := (stepError_nonneg (c := c) le_rfl).trans hδ
  have hbears0 := hbears.mono (by linarith : ω ≤ ω + δ)
  by_cases hneg : s.b.form.m01.isNegative = true
  · obtain ⟨s', hs', hfollows⟩ := exists_step hc h hω
      (suits_reflection h.fst.tracks.fits.size_le h.snd.tracks.fits.size_le) hδ hbears g
    have hr : GridOperator.reflection.IsGrid := by decide
    have hpull : X₀.pull (g * .reflection).real = X.pull GridOperator.reflection.real := by
      rw [hX, pull_real_mul X₀ hg hr]
    have hpull' : Y₀.pull (g * .reflection).dot.real = Y.pull GridOperator.reflection.real := by
      rw [hY, pull_dot_real_mul Y₀ hg hr, reflection_dot]
    rw [reflection_dot] at hfollows
    refine ⟨g * .reflection, s', ?_, hg.mul hr,
      GridOperator.isSpecial_mul hg hr hg' (by decide), ?_, ?_, ?_, ?_, ?_⟩
    · refine (OnPair.yields_get s).bind ?_
      rwa [if_pos hneg]
    · rwa [hpull, hpull']
    · rw [hpull, hpull', ExactEllipse.pull_form, ExactEllipse.pull_form, pull_reflection_real,
        pull_reflection_real]
      exact ⟨neg_sq _, neg_sq _, .inl ⟨rfl, rfl⟩⟩
    · rw [hpull, ExactEllipse.pull_form, pull_reflection_real]
      rfl
    · rw [hpull', ExactEllipse.pull_form, pull_reflection_real]
      rfl
    · rw [hpull', ExactEllipse.pull_form, pull_reflection_real]
      exact neg_le_neg (b_le_slightness h.snd hω hbears0 (isNegative_iff.1 hneg))
  · refine ⟨g, s, ?_, hg, hg', ?_, ?_, ?_, ?_, ?_⟩
    · refine (OnPair.yields_get s).bind ?_
      rw [if_neg hneg]
      exact OnPair.yields_pure _ _
    · rw [← hX, ← hY]
      exact h.mono (by linarith)
    · rw [← hX, ← hY]
      exact ⟨rfl, rfl, .inl ⟨rfl, rfl⟩⟩
    · rw [← hX]
    · rw [← hY]
    · rw [← hY]
      exact neg_slightness_le_b h.snd hω hbears0 (not_lt.1 (mt isNegative_iff.2 hneg))

/-- **The orientation of a pair.** -/
theorem exists_orient (hc : c.AccurateUnits) (h : s.Follows c.prec ω H Γ X Y) (hω : 0 ≤ ω)
    (hδ : stepError c 0 ≤ δ) (hbears : Bears c t H (ω + δ + δ)) (hN : InRange c N)
    (hX : |X.form.z| ≤ N) (hY : |Y.form.z| ≤ N)
    (hdiff : |Y.form.z - X.form.z| ≤ 1 + t / 4) :
    ∃ g s', (orient c).Yields s g s' ∧ g.IsGrid ∧ g.isSpecial = true ∧
      s'.Follows c.prec (ω + δ + δ) H Γ (X.pull g.real) (Y.pull g.dot.real) ∧
      Turned X.form Y.form (X.pull g.real).form (Y.pull g.dot.real).form ∧
      Oriented t (X.pull g.real).form (Y.pull g.dot.real).form := by
  have hδ0 := (stepError_nonneg (c := c) le_rfl).trans hδ
  obtain ⟨g₁, s₁, hs₁, hg₁, hsp₁, hf₁, ht₁, hsum⟩ := exists_exchange hc h hω hδ
    (hbears.mono (by linarith)) hN hX hY
  obtain ⟨g₂, s₂, hs₂, hg₂, hsp₂, hf₂, ht₂, hz, hζ, hb⟩ := exists_reflect hc hf₁ (by linarith) hδ hbears
    g₁ hg₁ hsp₁ rfl rfl
  refine ⟨g₂, s₂, ?_, hg₂, hsp₂, hf₂, ?_, ?_, ?_, hb⟩
  · exact hs₁.bind hs₂
  · refine ⟨ht₂.b_sq.trans ht₁.b_sq, ht₂.b_sq_dot.trans ht₁.b_sq_dot, ?_⟩
    rw [hz, hζ]
    exact ht₁.z
  · rw [hz, hζ]
    rcases ht₁.z with ⟨h1, h2⟩ | ⟨h1, h2⟩
    · rwa [h1, h2]
    · rwa [h1, h2, neg_sub_neg, abs_sub_comm]
  · rwa [hz, hζ]

end Orient

end EllipsePair

end CliffordT
