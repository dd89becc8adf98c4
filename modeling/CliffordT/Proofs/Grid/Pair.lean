/-
Pairs of computed ellipses next to pairs of exact ones.

`EllipsePair.Follows` says of both ellipses that they follow exact ones. It is kept by an operator that
suits the exact forms, and by a shift, with a little more error. A shift and the two operators that orient
a pair are diagonal or exchange the coordinates, so that they leave the size alone and do to the exponents
what their names say.

Computations that change a pair are reasoned about by `OnPair.Yields`, which says what one of them gives and
which pair it leaves.
-/
import CliffordT.Proofs.Grid.Choice
import CliffordT.Proofs.Plane.Exact

namespace CliffordT

open BinFloat

/-! ## Computations on a pair -/

namespace OnPair

variable {α β : Type} {m : OnPair α} {f : α → OnPair β} {a : α} {b : β} {s s' s'' : EllipsePair}

/-- The computation succeeds on the pair `s` with the value `a`, and leaves the pair `s'`. -/
def Yields (m : OnPair α) (s : EllipsePair) (a : α) (s' : EllipsePair) : Prop :=
  m.run s = (.ok a, s')

theorem yields_pure (a : α) (s : EllipsePair) : Yields (pure a) s a s := rfl

theorem yields_get (s : EllipsePair) : Yields get s s s := rfl

theorem yields_set (s s' : EllipsePair) : Yields (set s') s () s' := rfl

theorem yields_lift {x : Except Fault α} (h : x = .ok a) (s : EllipsePair) :
    Yields (liftM x) s a s := by
  subst h
  rfl

theorem Yields.bind (h : Yields m s a s') (h' : Yields (f a) s' b s'') :
    Yields (m >>= f) s b s'' := by
  unfold Yields at h h' ⊢
  show ExceptT.bindCont f (m.run s).1 (m.run s).2 = _
  rw [h]
  exact h'

/-- What follows a computation that succeeds is run on what it yields. -/
theorem Yields.run_bind (h : Yields m s a s') : (m >>= f).run s = (f a).run s' := by
  unfold Yields at h
  show ExceptT.bindCont f (m.run s).1 (m.run s).2 = _
  rw [h]
  rfl

/-- Nothing is run after one that fails. -/
theorem run_bind_of_error {e : Fault} (h : m.run s = (.error e, s')) : (m >>= f).run s = (.error e, s') := by
  show ExceptT.bindCont f (m.run s).1 (m.run s).2 = _
  rw [h]
  rfl

/-- What a computation yields after a first part is what its rest yields. -/
theorem Yields.of_bind (h : Yields m s a s') (h' : Yields (m >>= f) s b s'') :
    Yields (f a) s' b s'' := by
  unfold Yields at h h' ⊢
  change ExceptT.bindCont f (m.run s).1 (m.run s).2 = _ at h'
  rw [h] at h'
  exact h'

/-- A sequence yields a value only if its first part does. -/
theorem Yields.exists_of_bind (h : Yields (m >>= f) s b s'') :
    ∃ a s', Yields m s a s' ∧ Yields (f a) s' b s'' := by
  rcases hm : m.run s with ⟨r, s'⟩
  cases r with
  | error e =>
    change ExceptT.bindCont f (m.run s).1 (m.run s).2 = _ at h
    rw [hm] at h
    cases h
  | ok a => exact ⟨a, s', hm, Yields.of_bind hm h⟩

/-- A sequence that first replaces the pair by what may fail goes on with the pair that is there. -/
theorem Yields.exists_of_replace {x : Except Fault EllipsePair} {f : Unit → OnPair β}
    (h : Yields (liftM x >>= fun s₁ => set s₁ >>= f) s b s'') :
    ∃ s₁, x = .ok s₁ ∧ Yields (f ()) s₁ b s'' := by
  obtain ⟨s₁, s₂, hlift, hset⟩ := h.exists_of_bind
  cases x with
  | error e => cases hlift
  | ok s₃ =>
    cases hlift
    exact ⟨s₁, rfl, Yields.of_bind (yields_set s s₁) hset⟩

end OnPair

/-! ## Exact forms under diagonal matrices -/

namespace Form

variable {F : Form} {R : Matrix (Fin 2) (Fin 2) ℝ}

theorem pull_diag (F : Form) (h01 : R 0 1 = 0) (h10 : R 1 0 = 0) :
    F.pull R = ⟨R 0 0 ^ 2 * F.p, R 0 0 * R 1 1 * F.b, R 1 1 ^ 2 * F.q⟩ := by
  ext
  all_goals
    simp only [pull, eval, h01, h10]
    ring

theorem pull_swap (F : Form) (h00 : R 0 0 = 0) (h01 : R 0 1 = 1) (h10 : R 1 0 = 1)
    (h11 : R 1 1 = 0) : F.pull R = ⟨F.q, F.b, F.p⟩ := by
  ext
  all_goals
    simp only [pull, eval, h00, h01, h10, h11]
    ring

theorem tame_diag (h01 : R 0 1 = 0) (h10 : R 1 0 = 0) (hdet : |R 0 0 * R 1 1| = 1) :
    F.Tame 5 R := by
  refine ⟨?_, ?_, ?_⟩
  · rw [Matrix.det_fin_two, h01, h10, mul_zero, sub_zero]
    exact hdet
  · rw [hdet, h01, h10]
    norm_num
  · rw [hdet, h01, h10]
    norm_num

theorem tame_swap (h00 : R 0 0 = 0) (h01 : R 0 1 = 1) (h10 : R 1 0 = 1) (h11 : R 1 1 = 0) :
    F.Tame 5 R := by
  refine ⟨?_, ?_, ?_⟩
  · rw [Matrix.det_fin_two, h00, h01, h10, h11]
    norm_num
  · rw [h00, h01, h10, h11]
    norm_num
  · rw [h00, h01, h10, h11]
    norm_num

/-- Scaling the variables apart moves the exponent. -/
theorem z_scale (hF : F.IsPos) {b s t : ℝ} {k : ℤ} (hs : s ^ 2 = lambdaReal ^ k)
    (ht : t ^ 2 = lambdaReal ^ (-k)) : (Form.mk (s ^ 2 * F.p) b (t ^ 2 * F.q)).z = F.z - k := by
  have hlog := log_lambdaReal_bounds
  have hpos := div_pos hF.q_pos hF.p_pos
  have hquot : t ^ 2 * F.q / (s ^ 2 * F.p) = lambdaReal ^ (-2 * k) * (F.q / F.p) := by
    rw [hs, ht, mul_div_mul_comm, ← zpow_sub₀ lambdaReal_pos.ne']
    congr 2
    ring
  unfold z
  rw [hquot, Real.log_mul (zpow_pos lambdaReal_pos _).ne' hpos.ne', Real.log_zpow]
  have hne : Real.log lambdaReal ≠ 0 := by linarith
  field_simp
  push_cast
  ring

theorem z_swap (F : Form) (b : ℝ) : (Form.mk F.q b F.p).z = -F.z := by
  unfold z
  dsimp only
  rw [← inv_div F.q F.p, Real.log_inv, neg_div]

theorem size_swap (F : Form) (b : ℝ) : (Form.mk F.q b F.p).size = F.size := by
  unfold size
  dsimp only
  rw [mul_comm]

theorem size_scale (F : Form) {b s t : ℝ} (h : s ^ 2 * t ^ 2 = 1) :
    (Form.mk (s ^ 2 * F.p) b (t ^ 2 * F.q)).size = F.size := by
  unfold size
  dsimp only
  congr 1
  linear_combination F.p * F.q * h

end Form

namespace EllipsePair

open GridOperator (sigmaReal tauReal)

structure Follows (p : Nat) (ω H Γ : ℝ) (s : EllipsePair) (X Y : ExactEllipse) : Prop where
  fst : s.a.Follows p ω H Γ X
  snd : s.b.Follows p ω H Γ Y

theorem Follows.mono {p : Nat} {ω ω' H Γ : ℝ} {s : EllipsePair} {X Y : ExactEllipse}
    (h : s.Follows p ω H Γ X Y) (hω : ω ≤ ω') : s.Follows p ω' H Γ X Y :=
  ⟨h.fst.mono hω, h.snd.mono hω⟩

/-- An operator that may be applied to a pair with these exact forms: it can be computed with, and the
forms stay of bounded size. -/
structure Suits (H : ℝ) (op : GridOperator) (F G : Form) : Prop where
  stable : op.IsStable
  stable_dot : op.dot.IsStable
  tame : F.Tame 5 op.real
  tame_dot : G.Tame 5 op.dot.real
  size_le : (F.pull op.real).size ≤ H
  size_le_dot : (G.pull op.dot.real).size ≤ H

/-- The rounding error of one step, with a shift by up to `K`. -/
noncomputable def stepError (c : Constants) (K : ℝ) : ℝ := 250 * (K + 1) * roundoff c.prec

theorem stepError_nonneg {c : Constants} {K : ℝ} (hK : 0 ≤ K) : 0 ≤ stepError c K := by
  have := roundoff_pos c.prec
  unfold stepError
  positivity

/-- The rounding errors that a reduction can bear: they are a small part of the forms, and leave the exponents
within a part of `t`, which is the tolerance of the tests or more. -/
structure Bears (c : Constants) (t H ω : ℝ) : Prop where
  tol_le : c.tol.value ≤ t
  le : t ≤ 1 / 10000
  form_le : 204 * ω * H ^ 2 ≤ t / 256

namespace Bears

variable {c : Constants} {t H ω ω' : ℝ}

theorem mono (h : Bears c t H ω) (hω : ω' ≤ ω) : Bears c t H ω' where
  tol_le := h.tol_le
  le := h.le
  form_le := by
    have := mul_le_mul_of_nonneg_right hω (sq_nonneg H)
    linarith [h.form_le]

theorem form_le' (h : Bears c t H ω) : 204 * ω * H ^ 2 ≤ 1 / 100 := by
  linarith [h.form_le, h.le]

end Bears

section Steps

variable {c : Constants} {t ω H Γ : ℝ} {s : EllipsePair} {X Y : ExactEllipse} (hc : c.AccurateUnits)
  (h : s.Follows c.prec ω H Γ X Y) (hω : 0 ≤ ω)
include hc h hω

/-- **An operator that suits the exact pair** can be applied to the computed one. -/
theorem Follows.exists_apply {op : GridOperator} (hop : Suits H op X.form Y.form)
    (hbears : Bears c t H (ω + stepError c 0)) :
    ∃ s', s.apply op c = .ok s' ∧
      s'.Follows c.prec (ω + stepError c 0) H Γ (X.pull op.real) (Y.pull op.dot.real) := by
  have hu := roundoff_pos c.prec
  have hprec := hc.le_prec
  have hδ : 3 * (80 * roundoff c.prec) + 10 * roundoff c.prec ≤ stepError c 0 := by
    unfold stepError
    linarith
  obtain ⟨a', ha, hfst⟩ := h.fst.exists_preimage
    (GridOperator.toMatrix_approximates hc.toAccurate hop.stable) (GridOperator.hasPrec_toMatrix op)
    (by omega) hop.tame (by linarith) hop.size_le hω hδ hbears.form_le' c
  obtain ⟨b', hb, hsnd⟩ := h.snd.exists_preimage
    (GridOperator.toMatrix_approximates hc.toAccurate hop.stable_dot)
    (GridOperator.hasPrec_toMatrix op.dot) (by omega) hop.tame_dot (by linarith) hop.size_le_dot hω hδ
    hbears.form_le' c
  refine ⟨⟨a', b'⟩, ?_, hfst, hsnd⟩
  unfold apply
  rw [ha, hb]
  rfl

/-- **A shift** can be applied to a computed pair, and does to the exact one what it says. -/
theorem Follows.exists_shift {k : ℤ} {K : ℝ} (hk : |(k : ℝ)| ≤ K)
    (hbears : Bears c t H (ω + stepError c K)) :
    ∃ s', s.shift k c = .ok s' ∧
      s'.Follows c.prec (ω + stepError c K) H Γ (X.pull (sigmaReal k)) (Y.pull (tauReal k)) := by
  have hu := roundoff_pos c.prec
  have hprec := hc.le_prec
  have hK : 0 ≤ K := (abs_nonneg _).trans hk
  have hnat : (k.natAbs : ℝ) = |(k : ℝ)| := by
    rw [Nat.cast_natAbs, Int.cast_abs]
  have herror : 80 * ((k.natAbs : ℝ) + 1) * roundoff c.prec ≤ 80 * (K + 1) * roundoff c.prec := by
    rw [hnat]
    exact mul_le_mul_of_nonneg_right (by linarith) hu.le
  have hK1 : roundoff c.prec ≤ (K + 1) * roundoff c.prec := by
    have := mul_nonneg hK hu.le
    linarith
  have hδ : 3 * (80 * ((k.natAbs : ℝ) + 1) * roundoff c.prec) + 10 * roundoff c.prec
      ≤ stepError c K := by
    unfold stepError
    linarith
  have he0 : 0 ≤ 80 * ((k.natAbs : ℝ) + 1) * roundoff c.prec := by positivity
  have hsmall : 80 * ((k.natAbs : ℝ) + 1) * roundoff c.prec ≤ 1 / 2 := by
    have hH : 99 / 100 ≤ H := h.fst.tracks.fits.le_size.trans h.fst.tracks.fits.size_le
    have h2 := hbears.form_le'
    have hmono : stepError c K * (99 / 100) ^ 2 ≤ (ω + stepError c K) * H ^ 2 :=
      mul_le_mul (by linarith) (pow_le_pow_left₀ (by norm_num) hH 2) (by norm_num)
        (by linarith [stepError_nonneg (c := c) hK])
    linarith
  have hsize {F : Form} (hF : F.size ≤ H) {R : Matrix (Fin 2) (Fin 2) ℝ} (h01 : R 0 1 = 0)
      (h10 : R 1 0 = 0) (hdet : |R 0 0 * R 1 1| = 1) : (F.pull R).size ≤ H := by
    rw [Form.pull_diag F h01 h10, Form.size_scale F]
    · exact hF
    · rw [← mul_pow, ← sq_abs, hdet, one_pow]
  have hsigma : |sigmaReal k 0 0 * sigmaReal k 1 1| = 1 := by
    rw [GridOperator.sigmaReal_diag, abs_one]
  have htau : |tauReal k 0 0 * tauReal k 1 1| = 1 := by
    rw [GridOperator.tauReal_diag, GridOperator.abs_neg_one_zpow]
  obtain ⟨a', ha, hfst⟩ := h.fst.exists_preimage (sigma_approximates hc hsmall) (hasPrec_sigma hc k)
    (by omega) (Form.tame_diag rfl rfl hsigma) he0
    (hsize h.fst.tracks.fits.size_le rfl rfl hsigma) hω hδ hbears.form_le' c
  obtain ⟨b', hb, hsnd⟩ := h.snd.exists_preimage (tau_approximates hc hsmall) (hasPrec_tau hc k)
    (by omega) (Form.tame_diag rfl rfl htau) he0
    (hsize h.snd.tracks.fits.size_le rfl rfl htau) hω hδ hbears.form_le' c
  refine ⟨⟨a', b'⟩, ?_, hfst, hsnd⟩
  unfold shift
  rw [ha, hb]
  rfl

end Steps

end EllipsePair

end CliffordT
