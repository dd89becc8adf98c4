/-
Runs of reductions.

Every reduction pulls the exact pair back along a special grid operator and its conjugate, so that a run of
them pulls it back along their product, up to a sign of the second matrix. The rounding errors add up, the
exponents move by a bounded amount each time, and the skew falls geometrically. With room for all of that no
reduction fails, and the only way for a run to fail is that it uses up the reductions it is given.
-/
import CliffordT.Proofs.Grid.Action
import CliffordT.Proofs.Grid.Progress

namespace CliffordT

open BinFloat

namespace EllipsePair

section ReduceAll

variable {c : Constants} {s : EllipsePair} (k : ℕ) (g : GridOperator)

/-- An upright pair is left as it is. -/
theorem reduceAll_yields (h : s.skew < skewThreshold c) : (reduceAll c k g).Yields s g s := by
  cases k <;>
  · refine (OnPair.yields_get s).bind ?_
    dsimp only
    rw [if_pos h]
    exact OnPair.yields_pure g s

/-- Without reductions left, the search for an upright pair is given up. -/
theorem run_reduceAll_zero (h : ¬ s.skew < skewThreshold c) : (reduceAll c 0 g).run s =
    (.error (.internal ("skew still " ++ s.skew.toDecimal 6 ++ " after " ++ toString maxReductions
      ++ " reductions")), s) := by
  refine (OnPair.yields_get s).run_bind.trans ?_
  dsimp only
  rw [if_neg h]
  rfl

/-- Any other pair is reduced once, and then by what is left. -/
theorem run_reduceAll_succ (h : ¬ s.skew < skewThreshold c) :
    (reduceAll c (k + 1) g).run s = (reduce c >>= fun op => reduceAll c k (g * op)).run s := by
  refine (OnPair.yields_get s).run_bind.trans ?_
  dsimp only
  rw [if_neg h]

end ReduceAll

section Run

variable {c : Constants} {t ω δ H Γ N D : ℝ} {X Y : ExactEllipse} {m n : ℕ} {σ : ℝ} {g : GridOperator}
  {s : EllipsePair}

/-- The room that `n` reductions need, when each of them adds `5 δ` to the rounding errors and `D + 2` to the
bound of the exponents. -/
structure Affords (c : Constants) (t : ℝ) (n : ℕ) (ω δ H N D : ℝ) : Prop where
  error_nonneg : 0 ≤ ω
  exponent_nonneg : 0 ≤ N
  growth_nonneg : 0 ≤ D
  step_le : stepError c (N + n * (D + 2) + 2) ≤ δ
  bears : Bears c t H (ω + n * (5 * δ))
  inRange : InRange c (2 * (N + n * (D + 2)) + 2)
  growth : 70 * H ^ 3 ≤ lambdaReal ^ D

namespace Affords

variable (h : Affords c t n ω δ H N D) (hm : m ≤ n)
include h hm

theorem exponent_le : N + m * (D + 2) ≤ N + n * (D + 2) := by
  have hD := h.growth_nonneg
  have hmn : (m : ℝ) ≤ n := by exact_mod_cast hm
  linarith [mul_le_mul_of_nonneg_right hmn (by linarith : 0 ≤ D + 2)]

/-- The error of a step after `m` reductions. -/
theorem step_le_of_le : stepError c (N + m * (D + 2) + 2) ≤ δ := by
  refine le_trans ?_ h.step_le
  unfold stepError
  exact mul_le_mul_of_nonneg_right (by linarith [h.exponent_le hm]) (roundoff_pos c.prec).le

omit hm in
theorem grown_nonneg (m : ℕ) : 0 ≤ N + m * (D + 2) := by
  have hN := h.exponent_nonneg
  have hD := h.growth_nonneg
  positivity

omit hm in
theorem step_nonneg : 0 ≤ δ :=
  (stepError_nonneg (by linarith [h.grown_nonneg n])).trans h.step_le

theorem error_le : ω + m * (5 * δ) ≤ ω + n * (5 * δ) := by
  have hδ := h.step_nonneg
  have hmn : (m : ℝ) ≤ n := by exact_mod_cast hm
  linarith [mul_le_mul_of_nonneg_right hmn (by linarith : 0 ≤ 5 * δ)]

end Affords

/-- What `m` reductions have made of a pair that follows `X` and `Y`: it follows the preimages under `g` and
its conjugate, the latter up to the sign `σ`, with the errors, exponents and skew that `m` reductions leave. -/
structure Reached (c : Constants) (ω δ H Γ N D : ℝ) (X Y : ExactEllipse) (m : ℕ) (σ : ℝ)
    (g : GridOperator) (s : EllipsePair) : Prop where
  sign : σ * σ = 1
  special : g.IsSpecialGrid
  follows : s.Follows c.prec (ω + m * (5 * δ)) H Γ (X.pull g.real) (Y.pull (σ • g.dot.real))
  abs_z_le : |(X.pull g.real).form.z| ≤ N + m * (D + 2)
  abs_z_dot_le : |(Y.pull (σ • g.dot.real)).form.z| ≤ N + m * (D + 2)
  skew_le : (X.pull g.real).form.b ^ 2 + (Y.pull (σ • g.dot.real)).form.b ^ 2
    ≤ (88 / 100) ^ m * (X.form.b ^ 2 + Y.form.b ^ 2)

/-- Before the first reduction. -/
theorem Reached.start (h : s.Follows c.prec ω H Γ X Y) (hX : |X.form.z| ≤ N) (hY : |Y.form.z| ≤ N) :
    Reached c ω δ H Γ N D X Y 0 1 GridOperator.identity s := by
  have hdot : GridOperator.identity.dot = GridOperator.identity := by decide
  have hX1 : X.pull GridOperator.identity.real = X := by
    rw [GridOperator.real_identity, ExactEllipse.pull_one]
  have hY1 : Y.pull ((1 : ℝ) • GridOperator.identity.dot.real) = Y := by
    rw [one_smul, hdot, GridOperator.real_identity, ExactEllipse.pull_one]
  refine ⟨one_mul 1, by decide, ?_, ?_, ?_, ?_⟩
  · rw [hX1, hY1, Nat.cast_zero, zero_mul, add_zero]
    exact h
  · rw [hX1, Nat.cast_zero, zero_mul, add_zero]
    exact hX
  · rw [hY1, Nat.cast_zero, zero_mul, add_zero]
    exact hY
  · rw [hX1, hY1, pow_zero, one_mul]

/-- The signs of two pull backs come together. -/
theorem pull_smul_dot_mul {f : GridOperator} (τ : ℝ) (hg : g.IsGrid) (hf : f.IsGrid) :
    Y.pull ((σ * τ) • (g * f).dot.real) = (Y.pull (σ • g.dot.real)).pull (τ • f.dot.real) := by
  rw [← ExactEllipse.pull_mul, GridOperator.dot_mul, GridOperator.real_mul hg.dot hf.dot,
    Matrix.smul_mul, Matrix.mul_smul, smul_smul]

/-- A pair that is not upright after `m` reductions had a skew for all of them. -/
theorem Reached.skew_left (hc : c.AccurateUnits) (h : Reached c ω δ H Γ N D X Y m σ g s)
    (hω : 0 ≤ ω + m * (5 * δ)) (hbears : Bears c t H (ω + m * (5 * δ))) (hskew : ¬ s.skew < skewThreshold c) :
    149 / 10 ≤ (88 / 100 : ℝ) ^ m * (X.form.b ^ 2 + Y.form.b ^ 2) :=
  (h.follows.le_skew hc hω hbears hskew).trans h.skew_le

variable (hc : c.AccurateUnits) (hroom : Affords c t n ω δ H N D)
  (hH : X.form.b ^ 2 + Y.form.b ^ 2 + 101 / 100 ≤ H ^ 2)
include hc hroom hH

/-- **One more reduction**, of a pair that is not upright yet, unless it fails. -/
theorem Reached.reduce_cases (h : Reached c ω δ H Γ N D X Y m σ g s) (hm : m < n)
    (hskew : ¬ s.skew < skewThreshold c) :
    (∃ op τ s', (reduce c).Yields s op s' ∧ Reached c ω δ H Γ N D X Y (m + 1) τ (g * op) s') ∨
      c.tol.value < t ∧ ∃ e s', (reduce c).run s = (.error e, s') := by
  have hω := hroom.error_nonneg
  have hN := hroom.grown_nonneg m
  have hδ := hroom.step_le_of_le hm.le
  have hδ0 := hroom.step_nonneg
  have hgrown := hroom.exponent_le hm.le
  have htotal := hroom.error_le hm
  push_cast at htotal
  have herror : ω + m * (5 * δ) + 5 * stepError c (N + m * (D + 2) + 2) ≤ ω + (m + 1) * (5 * δ) := by
    linarith
  have hfall : (88 / 100 : ℝ) ^ m * (X.form.b ^ 2 + Y.form.b ^ 2) ≤ X.form.b ^ 2 + Y.form.b ^ 2 :=
    mul_le_of_le_one_left (by positivity) (pow_le_one₀ (by norm_num) (by norm_num))
  refine (reduction_cases hc h.follows (by positivity) rfl (hroom.bears.mono (herror.trans htotal))
    (hroom.inRange.mono (by linarith) (by linarith)) hN h.abs_z_le h.abs_z_dot_le
    (by linarith [h.skew_le]) hskew).imp_left ?_
  rintro ⟨k, g₀, op, s₁, s₂, s', hred⟩
  obtain ⟨hz, hz'⟩ := hred.abs_z_le D hroom.growth
  have hfollows := hred.follows
  have hless := hred.b_sq_le
  have hyields := hred.reduce
  have hf := GridOperator.IsSpecialGrid.shift ⟨hred.grid, hred.special⟩ k
  generalize (g₀ * op).shift k = f at *
  rw [← pull_real_mul X h.special.toIsGrid hf.toIsGrid] at hfollows hless hz
  rw [← pull_smul_dot_mul _ h.special.toIsGrid hf.toIsGrid] at hfollows hless hz'
  have hsign : σ * (-1) ^ k * (σ * (-1) ^ k) = 1 := by
    rw [mul_mul_mul_comm, h.sign, ← mul_zpow, neg_one_mul, neg_neg, one_zpow, one_mul]
  refine ⟨f, σ * (-1) ^ k, s', hyields, hsign, h.special.mul hf, ?_, ?_, ?_, ?_⟩
  · push_cast
    exact hfollows.mono herror
  · push_cast
    linarith
  · push_cast
    linarith
  · rw [pow_succ' (88 / 100 : ℝ)]
    linarith [h.skew_le]

/-- **A run of reductions** ends in a pair that counts as upright, or fails. Where the exponents are known to
the tolerance of the tests it only fails when it has used up all reductions. -/
theorem Reached.reduceAll {k : ℕ} (h : Reached c ω δ H Γ N D X Y m σ g s) (hm : m + k ≤ n) :
    (∃ j τ g' s', j ≤ n ∧ Reached c ω δ H Γ N D X Y j τ g' s' ∧ (reduceAll c k g).Yields s g' s') ∨
      (∃ e s', (reduceAll c k g).run s = (.error e, s')) ∧ (c.tol.value < t ∨
        ∃ τ g' s', Reached c ω δ H Γ N D X Y (m + k) τ g' s' ∧ ¬ s'.skew < skewThreshold c) := by
  induction k generalizing m σ g s with
  | zero =>
    by_cases hskew : s.skew < skewThreshold c
    · exact .inl ⟨m, σ, g, s, hm, h, reduceAll_yields 0 g hskew⟩
    · exact .inr ⟨⟨_, s, run_reduceAll_zero g hskew⟩, .inr ⟨σ, g, s, h, hskew⟩⟩
  | succ k ih =>
    by_cases hskew : s.skew < skewThreshold c
    · exact .inl ⟨m, σ, g, s, by omega, h, reduceAll_yields (k + 1) g hskew⟩
    have hrun := run_reduceAll_succ k g hskew
    rcases h.reduce_cases hc hroom hH (by omega) hskew with
      ⟨op, τ, s₁, hs₁, hnext⟩ | ⟨ht, e, s', hfail⟩
    · have hsame : (EllipsePair.reduceAll c (k + 1) g).run s = (EllipsePair.reduceAll c k (g * op)).run s₁ :=
        hrun.trans hs₁.run_bind
      unfold OnPair.Yields
      rw [hsame, show m + (k + 1) = m + 1 + k by ring]
      exact ih hnext (by omega)
    · exact .inr ⟨⟨e, s', hrun.trans (OnPair.run_bind_of_error hfail)⟩, .inl ht⟩

end Run

end EllipsePair

end CliffordT
