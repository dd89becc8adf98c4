/-
A shift is the conjugation of an operator by a power of `σ`.

On the entries a shift is a loop of integer additions. As matrices, `k` rounds of it are the product with
`σᵏ` from both sides, and on the conjugate side, up to the sign `(-1)ᵏ`, the one with `τᵏ`. So shifts add
up, and go back. A quadratic form does not see the sign; so a pair of forms that is shifted, changed by an
operator, and shifted again has been changed by the shifted operator. This is the operator that a
reduction gives out: its run consists of a shift, of operators one after the other, and of the same shift
again.
-/
import Mathlib.LinearAlgebra.Matrix.ZPow
import CliffordT.Proofs.Grid.Action
import CliffordT.Proofs.Grid.Reduction

namespace CliffordT

namespace GridOperator

/-! ## The powers of `σ` and `τ` -/

/-- The matrix `σ = λ^{-1/2} diag(λ, 1)`. -/
noncomputable def sigmaMatrix : Matrix (Fin 2) (Fin 2) ℝ := (√lambdaReal)⁻¹ • !![lambdaReal, 0; 0, 1]

/-- The matrix `τ = λ^{-1/2} diag(1, -λ)`. -/
noncomputable def tauMatrix : Matrix (Fin 2) (Fin 2) ℝ := (√lambdaReal)⁻¹ • !![1, 0; 0, -lambdaReal]

/-- Matrices that multiply as their exponents add are the powers of the first one. -/
theorem eq_zpow_of_add {M : ℤ → Matrix (Fin 2) (Fin 2) ℝ} (hzero : M 0 = 1)
    (hadd : ∀ j k, M (j + k) = M j * M k) (k : ℤ) : M k = M 1 ^ k := by
  have hinv : M 1 * M (-1) = 1 := by rw [← hadd, add_neg_cancel, hzero]
  have hdet : IsUnit (M 1).det := Matrix.isUnit_det_of_right_inverse hinv
  induction k using Int.induction_on with
  | zero => rw [hzero, zpow_zero]
  | succ n ih => rw [hadd, ih, Matrix.zpow_add_one hdet]
  | pred n ih =>
    rw [Matrix.zpow_sub_one hdet, Matrix.inv_eq_right_inv hinv, sub_eq_add_neg, hadd, ih]

theorem inv_sqrt_mul_lambdaReal : (√lambdaReal)⁻¹ * lambdaReal = √lambdaReal := by
  rw [inv_mul_eq_iff_eq_mul₀ sqrt_lambdaReal_ne_zero, Real.mul_self_sqrt lambdaReal_pos.le]

theorem sigmaReal_add (j k : ℤ) : sigmaReal (j + k) = sigmaReal j * sigmaReal k := by
  have hne := sqrt_lambdaReal_ne_zero
  unfold sigmaReal
  rw [Matrix.mul_fin_two, neg_add, zpow_add₀ hne, zpow_add₀ hne]
  simp

theorem tauReal_add (j k : ℤ) : tauReal (j + k) = tauReal j * tauReal k := by
  have hne := sqrt_lambdaReal_ne_zero
  have hsign : (-1 : ℝ) ≠ 0 := by norm_num
  unfold tauReal
  rw [Matrix.mul_fin_two, neg_add, zpow_add₀ hne, zpow_add₀ hsign, zpow_add₀ hne, mul_mul_mul_comm]
  simp

theorem sigmaReal_eq_zpow (k : ℤ) : sigmaReal k = sigmaMatrix ^ k := by
  have hone : sigmaReal 1 = sigmaMatrix := by simp [sigmaReal, sigmaMatrix, inv_sqrt_mul_lambdaReal]
  rw [eq_zpow_of_add EllipsePair.sigmaReal_zero sigmaReal_add, hone]

theorem tauReal_eq_zpow (k : ℤ) : tauReal k = tauMatrix ^ k := by
  have hone : tauReal 1 = tauMatrix := by simp [tauReal, tauMatrix, inv_sqrt_mul_lambdaReal]
  rw [eq_zpow_of_add EllipsePair.tauReal_zero tauReal_add, hone]

/-! ## Shifts of operators -/

theorem neg_one_zpow_mul_self (k : ℤ) : (-1 : ℝ) ^ k * (-1) ^ k = 1 := by
  rw [← mul_zpow, neg_one_mul, neg_neg, one_zpow]

/-- **A shift is the product with `σᵏ` from both sides.** -/
theorem real_shift_eq (g : GridOperator) (k : ℤ) :
    (g.shift k).real = sigmaMatrix ^ k * g.real * sigmaMatrix ^ k := by
  rw [← sigmaReal_eq_zpow, sigmaReal_mul_real]

/-- On the conjugate side it is the one with `τᵏ`, and a sign. -/
theorem dot_real_shift_eq (g : GridOperator) (k : ℤ) :
    (g.shift k).dot.real = (-1 : ℝ) ^ k • (tauMatrix ^ k * g.dot.real * tauMatrix ^ k) := by
  rw [← tauReal_eq_zpow, tauReal_mul_real, smul_smul, neg_one_zpow_mul_self, one_smul]

theorem shift_shift (g : GridOperator) (j k : ℤ) : (g.shift j).shift k = g.shift (j + k) := by
  apply real_injective
  rw [real_shift, real_shift, real_shift, scaleEnds_scaleEnds, ← zpow_add₀ lambdaReal_pos.ne',
    add_comm]

theorem shift_zero (g : GridOperator) : g.shift 0 = g := by
  apply real_injective
  rw [real_shift, zpow_zero, scaleEnds_one]

theorem shift_shift_neg (g : GridOperator) (k : ℤ) : (g.shift k).shift (-k) = g := by
  rw [shift_shift, add_neg_cancel, shift_zero]

theorem detSign_shift {g : GridOperator} (hg : g.isSpecial = true) (k : ℤ) :
    (g.shift k).detSign = g.detSign := by
  have h : ((g.shift k).detSign : ℝ) = g.detSign := by
    rw [cast_detSign (isSpecial_shift hg k), cast_detSign hg, real_shift,
      det_scaleEnds (zpow_ne_zero k lambdaReal_pos.ne')]
  exact_mod_cast h

end GridOperator

/-! ## Pairs of forms -/

/-- A sign of the matrix does not show in the form that is pulled back. -/
theorem Form.pull_smul_matrix {s : ℝ} (hs : s ^ 2 = 1) (F : Form) (R : Matrix (Fin 2) (Fin 2) ℝ) :
    F.pull (s • R) = F.pull R := by
  ext
  all_goals simp only [pull, eval, Matrix.smul_apply, smul_eq_mul]
  · linear_combination (F.p * R 0 0 ^ 2 + 2 * F.b * R 0 0 * R 1 0 + F.q * R 1 0 ^ 2) * hs
  · linear_combination (F.p * R 0 0 * R 0 1 + F.b * (R 0 0 * R 1 1 + R 0 1 * R 1 0)
      + F.q * R 1 0 * R 1 1) * hs
  · linear_combination (F.p * R 0 1 ^ 2 + 2 * F.b * R 0 1 * R 1 1 + F.q * R 1 1 ^ 2) * hs

/-- Two quadratic forms over the real numbers: those of a pair of ellipses, without rounding. -/
structure FormPair where
  a : Form
  b : Form

namespace FormPair

open GridOperator (sigmaMatrix tauMatrix)

noncomputable def apply (P : FormPair) (g : GridOperator) : FormPair :=
  ⟨P.a.pull g.real, P.b.pull g.dot.real⟩

noncomputable def shift (P : FormPair) (k : ℤ) : FormPair :=
  ⟨P.a.pull (sigmaMatrix ^ k), P.b.pull (tauMatrix ^ k)⟩

variable (P : FormPair)

theorem apply_identity : P.apply .identity = P := by
  have hdot : GridOperator.identity.dot = GridOperator.identity := by decide
  unfold apply
  rw [hdot, GridOperator.real_identity, Form.pull_one, Form.pull_one]

theorem apply_mul {f g : GridOperator} (hf : f.IsGrid) (hg : g.IsGrid) :
    P.apply (f * g) = (P.apply f).apply g := by
  unfold apply
  rw [GridOperator.dot_mul, GridOperator.real_mul hf hg, GridOperator.real_mul hf.dot hg.dot,
    Form.pull_mul, Form.pull_mul]

/-- **A shift, an operator and the shift again** do to a pair of forms what the shifted operator does. -/
theorem shift_apply_shift (g : GridOperator) (k : ℤ) :
    ((P.shift k).apply g).shift k = P.apply (g.shift k) := by
  have hsign : ((-1 : ℝ) ^ k) ^ 2 = 1 := by
    rw [sq, GridOperator.neg_one_zpow_mul_self]
  unfold apply shift
  rw [GridOperator.real_shift_eq, GridOperator.dot_real_shift_eq, Form.pull_smul_matrix hsign]
  simp only [Form.pull_mul]

/-- Operators that are applied one after the other do what their product does. -/
theorem foldl_apply {ops : List GridOperator} (hops : ∀ op ∈ ops, op.IsGrid) {g : GridOperator}
    (hg : g.IsGrid) : ops.foldl apply (P.apply g) = P.apply (ops.foldl (· * ·) g) := by
  induction ops generalizing g with
  | nil => rfl
  | cons op ops ih =>
    have hop := hops op List.mem_cons_self
    rw [List.foldl_cons, List.foldl_cons, ← P.apply_mul hg hop]
    exact ih (fun op' hop' => hops op' (List.mem_cons_of_mem _ hop')) (hg.mul hop)

end FormPair

/-! ## The run of a reduction -/

namespace EllipsePair

def applyAll (s : EllipsePair) (ops : List GridOperator) (c : Constants) : Except Fault EllipsePair :=
  ops.foldlM (fun s op => s.apply op c) s

/-- Whenever the computation goes through, it has applied special operators to the pair, one after the
other, and has multiplied them onto `g`. -/
def Multiplies (c : Constants) (g : GridOperator) (m : OnPair GridOperator) : Prop :=
  ∀ s g' s', m.Yields s g' s' → ∃ ops : List GridOperator, (∀ op ∈ ops, op.IsSpecialGrid) ∧
    s.applyAll ops c = .ok s' ∧ g' = ops.foldl (· * ·) g

section Multiplies

variable {c : Constants} {g : GridOperator}

theorem multiplies_pure (g : GridOperator) : Multiplies c g (pure g) := by
  intro s g' s' h
  cases h
  exact ⟨[], by simp, rfl, rfl⟩

theorem Multiplies.bind {m : OnPair GridOperator} {f : GridOperator → OnPair GridOperator}
    (hm : Multiplies c g m) (hf : ∀ g', Multiplies c g' (f g')) : Multiplies c g (m >>= f) := by
  intro s g'' s'' h
  obtain ⟨g', s', hfirst, hrest⟩ := h.exists_of_bind
  obtain ⟨front, hfront, hs', hg'⟩ := hm s g' s' hfirst
  obtain ⟨back, hback, hs'', hg''⟩ := hf g' s' g'' s'' hrest
  refine ⟨front ++ back, List.forall_mem_append.2 ⟨hfront, hback⟩, ?_, ?_⟩
  · unfold applyAll at hs' hs'' ⊢
    rw [List.foldlM_append, hs']
    exact hs''
  · rw [List.foldl_append, ← hg', hg'']

theorem multiplies_get {f : EllipsePair → OnPair GridOperator} (hf : ∀ s, Multiplies c g (f s)) :
    Multiplies c g (get >>= f) := by
  intro s g' s' h
  exact hf s s g' s' ((OnPair.yields_get s).of_bind h)

theorem multiplies_step {op : GridOperator} (hop : op.IsSpecialGrid) : Multiplies c g (step c g op) := by
  intro s g' s' h
  obtain ⟨s₁, happly, h⟩ := ((OnPair.yields_get s).of_bind h).exists_of_replace
  cases h
  refine ⟨[op], List.forall_mem_singleton.2 hop, ?_, rfl⟩
  unfold applyAll
  rw [List.foldlM_cons, happly]
  rfl

theorem multiplies_exchange : Multiplies c .identity (exchange c) := by
  refine multiplies_get fun s => ?_
  split
  · exact multiplies_step (by decide)
  · exact multiplies_pure _

theorem multiplies_reflect (g : GridOperator) : Multiplies c g (reflect c g) := by
  refine multiplies_get fun s => ?_
  split
  · exact multiplies_step (by decide)
  · exact multiplies_pure _

/-- The operators of the decision table are special. -/
theorem isSpecialGrid_of_choose? {negative : Bool} {z zeta : BinFloat} {op : GridOperator}
    (h : choose? negative z zeta c = some op) : op.IsSpecialGrid := by
  unfold choose? at h
  dsimp only at h
  split_ifs at h
  all_goals cases h
  · exact GridOperator.Named.rotation.isSpecialGrid
  · exact (GridOperator.Named.shearSqrt2 _).isSpecialGrid
  · exact GridOperator.Named.k.isSpecialGrid
  · exact (GridOperator.Named.shear _).isSpecialGrid
  · exact GridOperator.Named.k.isSpecialGrid.dot

theorem multiplies_stepChosen (g : GridOperator) : Multiplies c g (stepChosen c g) := by
  refine multiplies_get fun s => ?_
  dsimp only
  split
  · rename_i op hop
    exact multiplies_step (isSpecialGrid_of_choose? hop)
  · intro s g' s' h
    cases h

end Multiplies

/-- The run of a reduction that goes through: the pair is shifted by `k`, unless its bias is small and `k`
is zero, changed by special operators one after the other, and shifted by `k` again. -/
structure ReductionRun (c : Constants) (s : EllipsePair) (k : ℤ) (ops : List GridOperator)
    (s' : EllipsePair) : Prop where
  special : ∀ op ∈ ops, op.IsSpecialGrid
  steps : ∃ s₁ s₂, (s.shift k c = .ok s₁ ∨ k = 0 ∧ s₁ = s) ∧ s₁.applyAll ops c = .ok s₂ ∧
    s₂.shift k c = .ok s'

section Run

variable {c : Constants} {s s' : EllipsePair}

theorem shift_of_unbias {k : ℤ} (h : (unbias c).Yields s k s') :
    s.shift k c = .ok s' ∨ k = 0 ∧ s' = s := by
  have hcases := (OnPair.yields_get s).of_bind h
  by_cases hlarge : c.one < (s.bias c).abs
  · rw [if_pos hlarge] at hcases
    have hshift := (OnPair.yields_get s).of_bind hcases
    dsimp only at hshift
    obtain ⟨s₁, hs₁, hend⟩ := ((OnPair.yields_get s).of_bind hshift).exists_of_replace
    cases hend
    exact .inl hs₁
  · rw [if_neg hlarge] at hcases
    cases hcases
    exact .inr ⟨rfl, rfl⟩

/-- A pair that counts as upright is left alone. -/
theorem eq_of_reduce {r : GridOperator} (hskew : s.skew < skewThreshold c)
    (h : (reduce c).Yields s r s') : r = .identity ∧ s' = s := by
  have hcases := (OnPair.yields_get s).of_bind h
  rw [if_pos hskew] at hcases
  cases hcases
  exact ⟨rfl, rfl⟩

/-- **A reduction gives the product of its operators, shifted.** -/
theorem exists_reductionRun {r : GridOperator} (hskew : ¬ s.skew < skewThreshold c)
    (h : (reduce c).Yields s r s') :
    ∃ k ops, ReductionRun c s k ops s' ∧ r = (ops.foldl (· * ·) GridOperator.identity).shift k := by
  have hrun := (OnPair.yields_get s).of_bind h
  rw [if_neg hskew] at hrun
  obtain ⟨k, s₁, hunbias, hrun⟩ := hrun.exists_of_bind
  obtain ⟨g₀, s₂, horient, hrun⟩ := hrun.exists_of_bind
  obtain ⟨g, s₃, hchosen, hrun⟩ := hrun.exists_of_bind
  have hproduct : Multiplies c .identity (orient c >>= stepChosen c) :=
    (multiplies_exchange.bind multiplies_reflect).bind multiplies_stepChosen
  obtain ⟨ops, hops, happly, hg⟩ := hproduct s₁ g s₃ (horient.bind hchosen)
  obtain ⟨s₄, hshift, hrun⟩ := ((OnPair.yields_get s₃).of_bind hrun).exists_of_replace
  have hend := (OnPair.yields_get s₄).of_bind hrun
  dsimp only at hend
  by_cases hless : s.skew * c.ratio 9 10 < s₄.skew
  · rw [if_pos hless] at hend
    cases hend
  · rw [if_neg hless] at hend
    cases hend
    exact ⟨k, ops, ⟨hops, s₁, s₃, shift_of_unbias hunbias, happly, hshift⟩, by rw [hg]⟩

end Run

end EllipsePair

/-! ## Shifting as conjugation -/

namespace GridOperator

/-- **Shifting an operator is its conjugation by a power of `σ`.** The matrix of the shifted operator is
`σᵏ G σᵏ`, that of its conjugate `(-1)ᵏ τᵏ G• τᵏ`; shifts add up and go back, and keep the parity conditions
and the sign of the determinant. The powers of `σ` and `τ` are those that a pair of ellipses is shifted by,
there computed with rounding. Over the real numbers a shift, the operator and the shift again change a pair
of forms as the shifted operator does; and what a reduction gives out is the product of the operators that
it applied between its two shifts, shifted by as much. -/
theorem shift_conjugates {g : GridOperator} (hg : g.IsSpecialGrid) (j k : ℤ) :
    ((g.shift k).real = sigmaMatrix ^ k * g.real * sigmaMatrix ^ k ∧
      (g.shift k).dot.real = (-1 : ℝ) ^ k • (tauMatrix ^ k * g.dot.real * tauMatrix ^ k)) ∧
    ((g.shift j).shift k = g.shift (j + k) ∧ (g.shift k).shift (-k) = g) ∧
    ((g.shift k).IsSpecialGrid ∧ (g.shift k).detSign = g.detSign) ∧
    (∀ o ctx, Context.ofOptions o = .ok ctx → ctx.prec < 2 ^ 32 →
      80 * ((k.natAbs : ℝ) + 1) * BinFloat.roundoff ctx.prec ≤ 1 / 2 →
      (EllipsePair.sigma k ctx.toConstants).Approximates
          (80 * (k.natAbs + 1) * BinFloat.roundoff ctx.prec) (sigmaMatrix ^ k) ∧
        (EllipsePair.tau k ctx.toConstants).Approximates
          (80 * (k.natAbs + 1) * BinFloat.roundoff ctx.prec) (tauMatrix ^ k)) ∧
    (∀ P : FormPair, ((P.shift k).apply g).shift k = P.apply (g.shift k)) ∧
    ∀ c s r s', (EllipsePair.reduce c).Yields s r s' →
      (s.skew < EllipsePair.skewThreshold c → r = identity ∧ s' = s) ∧
      (¬ s.skew < EllipsePair.skewThreshold c → ∃ k ops, EllipsePair.ReductionRun c s k ops s' ∧
        r = (ops.foldl (· * ·) identity).shift k ∧
        ∀ P : FormPair, (ops.foldl FormPair.apply (P.shift k)).shift k = P.apply r) := by
  refine ⟨⟨real_shift_eq g k, dot_real_shift_eq g k⟩, ⟨shift_shift g j k, shift_shift_neg g k⟩,
    ⟨hg.shift k, detSign_shift hg.special k⟩, ?_, fun P => P.shift_apply_shift g k, ?_⟩
  · intro o ctx hctx hprec hk
    obtain ⟨hd, hdigits⟩ := Context.eq_ofDigits hctx
    have hprec' : ctx.toConstants.prec < 2 ^ 32 := hprec
    rw [hdigits] at hprec'
    have hc : ctx.toConstants.AccurateUnits := by
      rw [hdigits]
      exact Constants.ofDigits_accurateUnits hd hprec'
    rw [← sigmaReal_eq_zpow, ← tauReal_eq_zpow]
    exact ⟨EllipsePair.sigma_approximates hc hk, EllipsePair.tau_approximates hc hk⟩
  · intro c s r s' h
    refine ⟨fun hskew => EllipsePair.eq_of_reduce hskew h, fun hskew => ?_⟩
    obtain ⟨k, ops, hrun, hr⟩ := EllipsePair.exists_reductionRun hskew h
    refine ⟨k, ops, hrun, hr, fun P => ?_⟩
    have hops : ∀ op ∈ ops, op.IsGrid := fun op hop => (hrun.special op hop).toIsGrid
    have hfold := (P.shift k).foldl_apply hops (g := identity) (by decide)
    rw [FormPair.apply_identity] at hfold
    rw [hfold, hr, FormPair.shift_apply_shift]

/-- The operator `K`, which has odd `√2`-parts, shifted up by three and down by two. -/
theorem shift_conjugates_k :
    k.IsSpecialGrid ∧ (k.shift 3).shift (-2) = k.shift 1 ∧ (k.shift (-2)).detSign = k.detSign ∧
      (k.shift (-2)).real = sigmaMatrix ^ (-2 : ℤ) * k.real * sigmaMatrix ^ (-2 : ℤ) ∧
      ∀ P : FormPair, ((P.shift (-2)).apply k).shift (-2) = P.apply (k.shift (-2)) := by
  have hk : k.IsSpecialGrid := by decide
  obtain ⟨hreal, hshift, hkeeps, -, hforms, -⟩ := shift_conjugates hk 3 (-2)
  exact ⟨hk, hshift.1, hkeeps.2, hreal.1, hforms⟩

end GridOperator

end CliffordT
