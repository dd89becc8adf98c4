/-
What the search finds is an approximation.

The first column of a unitary has length one, so that its distance to `(e^{iθ}, 0)` is a matter of the
projection of the upper left entry alone: the square is `2 - 2p`. The factors `√2` that are taken out
of a point after its test change numerator and denominator alike, and so does the reduction of the
unitary. The test therefore bounds the distance of the whole matrix, whatever the points are that the
search tries. The shortcut for an angle below the tolerance returns the identity, for which the square
is at most `θ²`.
-/
import CliffordT.Proofs.Approximation.Projection
import CliffordT.Proofs.Norm.Safety
import CliffordT.Proofs.Random.Ensures
import CliffordT.Proofs.Unitary.Group

namespace CliffordT

open BinFloat
open ZOmega (sqrt2 toComplex)

namespace Unitary

/-! ## The distance to a rotation -/

/-- The square of the distance of the first column, over `√2ᵏ`, from `(e^{iθ}, 0)`. -/
noncomputable def distSq (m : Unitary) (θ : ℝ) : ℝ :=
  ‖toComplex m.u / ((√2 : ℝ) : ℂ) ^ m.k - Complex.exp (θ * Complex.I)‖ ^ 2
    + ‖toComplex m.t / ((√2 : ℝ) : ℂ) ^ m.k‖ ^ 2

/-- With a first column of length one the distance is a matter of one projection. -/
theorem distSq_eq {m : Unitary} (h : m.HasUnitLength) (θ : ℝ) :
    m.distSq θ = 2 - 2 * Approximation.projection m.u m.k.toNat θ := by
  obtain ⟨hk, hlen⟩ := h
  obtain ⟨n, hn⟩ := Int.eq_ofNat_of_zero_le hk
  have hsq : √2 ^ n * √2 ^ n = (2 : ℝ) ^ n := by
    rw [← mul_pow, Real.mul_self_sqrt (by norm_num)]
  have hunit := congrArg ZSqrt2.real hlen
  rw [map_add, map_pow, map_ofNat, ← ZOmega.normSq_toComplex, ← ZOmega.normSq_toComplex, hn,
    Complex.normSq_apply, Complex.normSq_apply] at hunit
  have hcs := Real.sin_sq_add_cos_sq θ
  unfold distSq Approximation.projection
  rw [hn, zpow_natCast, ← Complex.ofReal_pow, Complex.sq_norm, Complex.sq_norm,
    Complex.normSq_apply, Complex.normSq_apply, Complex.sub_re, Complex.sub_im,
    Complex.exp_ofReal_mul_I_re, Complex.exp_ofReal_mul_I_im]
  simp only [Complex.div_ofReal_re, Complex.div_ofReal_im, Int.toNat_natCast] at hunit ⊢
  have hnorm : (toComplex m.u).re / √2 ^ n * ((toComplex m.u).re / √2 ^ n)
      + (toComplex m.u).im / √2 ^ n * ((toComplex m.u).im / √2 ^ n)
      + ((toComplex m.t).re / √2 ^ n * ((toComplex m.t).re / √2 ^ n)
        + (toComplex m.t).im / √2 ^ n * ((toComplex m.t).im / √2 ^ n)) = 1 := by
    rw [div_mul_div_comm, div_mul_div_comm, div_mul_div_comm, div_mul_div_comm, ← add_div,
      ← add_div, ← add_div, hsq, hunit, div_self (by positivity)]
  linear_combination hnorm + hcs

/-- The distance does not depend on the tuple that is chosen for the matrix. -/
theorem distSq_of_scales {j : Nat} {m n : Unitary} (h : Scales j m n) (θ : ℝ) :
    m.distSq θ = n.distSq θ := by
  have hne : ((√2 : ℝ) : ℂ) ≠ 0 := by
    rw [Complex.ofReal_ne_zero]
    positivity
  unfold distSq
  rw [h.u, h.t, h.k, ZOmega.toComplex_sqrt2_pow_mul, ZOmega.toComplex_sqrt2_pow_mul,
    zpow_add₀ hne, zpow_natCast, mul_comm (((√2 : ℝ) : ℂ) ^ n.k),
    mul_div_mul_left _ _ (pow_ne_zero j hne), mul_div_mul_left _ _ (pow_ne_zero j hne)]

end Unitary

namespace Approximation

/-! ## Completing a point -/

/-- What a found approximation is sure to be: in normal form and of determinant one, with a first
column of length one and a bounded exponent, near the rotation. -/
structure Sound (a : Approximation) (θ : ℝ) (kmax : Nat) (bound : ℝ) : Prop where
  l : a.unitary.l = 0
  unit : a.unitary.HasUnitLength
  k_le : a.unitary.k ≤ kmax
  reduced : a.unitary.isReducible = false
  dist : a.unitary.distSq θ ≤ bound

/-- The unitary of a first column has passed the check. -/
theorem mk?_of_ofColumn {u t : ZOmega} {k : Int} {theta : BinFloat} {c : Constants}
    {a : Approximation} (h : ofColumn u t k theta c = .ok a) : Unitary.mk? u t k 0 = .ok a.unitary := by
  unfold ofColumn at h
  split at h
  · cases h
  · cases h
  · rename_i m hm
    cases htrig : theta.sinCos with
    | error e =>
      rw [htrig] at h
      cases h
    | ok p =>
      rw [htrig] at h
      cases h
      exact hm

/-- It is the column, reduced. -/
theorem unitary_of_ofColumn {u t : ZOmega} {k : Int} {theta : BinFloat} {c : Constants}
    {a : Approximation} (h : ofColumn u t k theta c = .ok a) :
    a.unitary = Unitary.reduce ⟨u, t, k, 0⟩ := by
  obtain ⟨_, -, hm⟩ := Unitary.mk?_eq_ok_iff.1 (mk?_of_ofColumn h)
  exact hm

/-- A column of length one that is near the rotation gives a sound approximation. -/
theorem sound_of_ofColumn {u t : ZOmega} {k kmax : Nat} {theta : BinFloat} {c : Constants}
    {a : Approximation} {θ bound : ℝ} (h : ofColumn u t k theta c = .ok a)
    (hlen : u.norm + t.norm = (2 : ZSqrt2) ^ k) (hk : k ≤ kmax)
    (hdist : 2 - 2 * projection u k θ ≤ bound) : a.Sound θ kmax bound := by
  have hunitary := unitary_of_ofColumn h
  have hunit : Unitary.HasUnitLength ⟨u, t, k, 0⟩ := ⟨Int.natCast_nonneg k, hlen⟩
  obtain ⟨⟨j, hj⟩, hred⟩ := Unitary.reduce_spec ⟨u, t, k, 0⟩
  rw [← hunitary] at hj hred
  have hkj : (k : Int) = a.unitary.k + j := hj.k
  refine ⟨hj.l.symm, hunit.of_scales hj, by omega, hred, ?_⟩
  rw [← Unitary.distSq_of_scales hj, Unitary.distSq_eq hunit]
  exact hdist

/-- An element without its factors `√2` bounds the element, when it is part of a column of length
one. -/
theorem bounded_of_column {z u t : ZOmega} {v k : Nat} (hz : z = sqrt2 ^ v * u)
    (hlen : u.norm + t.norm = (2 : ZSqrt2) ^ k) : z.Bounded (√2 ^ (v + k)) := by
  have hsq : (√2 ^ (v + k)) ^ 2 = (2 : ℝ) ^ v * 2 ^ k := by
    rw [← pow_mul, mul_comm (v + k), sqrt_two_pow_mul_two, pow_add]
  refine ⟨by positivity, ?_, ?_⟩
  · have hpow : (2 : ZSqrt2) ^ v * u.norm = ⟨2 ^ v * u.norm.a, 2 ^ v * u.norm.b⟩ := by
      rw [Unitary.two_pow_eq]
      ext
      · simp
      · simp
    have hua : u.norm.a ≤ 2 ^ k := by
      rw [Unitary.two_pow_eq] at hlen
      have ha : u.norm.a + t.norm.a = 2 ^ k := congrArg ZSqrt2.a hlen
      have := t.norm_a_nonneg
      omega
    have hua' : (u.norm.a : ℝ) ≤ 2 ^ k := by exact_mod_cast hua
    rw [hsq, hz, ZOmega.norm_mul, ZOmega.norm_pow, ZOmega.norm_sqrt2, hpow]
    push_cast
    exact mul_le_mul_of_nonneg_left hua' (by positivity)
  · have hnorm : Complex.normSq (((√2 : ℝ) : ℂ) ^ v) = 2 ^ v := by
      rw [map_pow, Complex.normSq_ofReal, Real.mul_self_sqrt (by norm_num)]
    rw [hsq, hz, ZOmega.toComplex_sqrt2_pow_mul, Complex.normSq_mul, hnorm]
    exact mul_le_mul_of_nonneg_left (ZOmega.normSq_toComplex_le hlen) (by positivity)

section Search

variable {ctx : Context} {target : Target}

noncomputable def errorBound (c : Constants) : ℝ := c.eps.value ^ 2 + 2 ^ (10 - (c.prec : ℤ))

theorem errorBound_eq (c : Constants) :
    errorBound c = c.eps.value ^ 2 + 1024 * roundoff c.prec := by
  have h1024 : (2 : ℝ) ^ (10 : ℤ) = 1024 := by norm_num
  rw [errorBound, sub_eq_add_neg, two_zpow_add, h1024, roundoff]

/-- A point that is completed to a unitary has passed the test, and the unitary is near the
rotation. -/
theorem tryPoint_gives (hc : ctx.toConstants.Accurate) (ht : target.Accurate ctx.toConstants)
    (point : ZOmega) (k : Nat) :
    (target.tryPoint point k (levelScales k ctx.toConstants).1 ctx).Gives fun r =>
      ∀ a, r = some a → a.Sound target.theta.value k (errorBound ctx.toConstants) := by
  have hnone : ∀ a : Approximation, (none : Option Approximation) = some a →
      a.Sound target.theta.value k (errorBound ctx.toConstants) := by
    intro a h
    cases h
  unfold Target.tryPoint
  dsimp only
  generalize target.op.act point = z
  split
  · exact .pure hnone
  · rename_i htest
    split
    · exact .pure hnone
    · rename_i hv
      obtain ⟨e, he⟩ := Nat.exists_eq_add_of_le (Nat.le_of_not_lt hv)
      have hke : k - z.sqrt2Valuation = e := by omega
      rw [hke]
      have hz := (ZOmega.sqrt2_pow_mul_withoutSqrt2 z).symm
      refine (NormEquation.solve_ensures _ ctx).gives.bind fun t? hsolve => ?_
      cases t? with
      | none => exact .pure hnone
      | some t =>
        have hlen : z.withoutSqrt2.norm + t.norm = (2 : ZSqrt2) ^ e := by
          rw [hsolve t rfl, add_sub_cancel, Unitary.two_pow_eq, Int.shiftLeft_eq, one_mul]
          rfl
        refine (Search.Gives.lift fun a ha => ?_).bind fun a ha => .pure ha
        intro b hb
        cases hb
        refine sound_of_ofColumn ha hlen (by omega) ?_
        have hpass := lt_projection hc ht (he ▸ bounded_of_column hz hlen) htest
        rw [hz, he, projection_sqrt2_pow_mul] at hpass
        rw [errorBound_eq]
        linarith [roundoff_pos ctx.toConstants.prec]

/-- What is found at one of successive exponents. -/
theorem searchLevels_gives {α : Type} {P : α → Prop} {step : Nat → Search (Option α)} {n k : Nat}
    (hstep : ∀ j, k ≤ j → j < k + n → (step j).Gives fun r => ∀ a, r = some a → P a) :
    (searchLevels step n k).Gives fun r => ∀ a, r = some a → P a := by
  induction n generalizing k with
  | zero =>
    refine .pure fun a h => ?_
    cases h
  | succ n ih =>
    unfold searchLevels
    refine (hstep k (Nat.le_refl k) (by omega)).bind fun r hr => ?_
    cases r with
    | some a => exact .pure hr
    | none => exact ih fun j hj hlt => hstep j (by omega) (by omega)

theorem Sound.mono {a : Approximation} {θ bound : ℝ} {k kmax : Nat} (h : a.Sound θ k bound)
    (hk : k ≤ kmax) : a.Sound θ kmax bound :=
  ⟨h.l, h.unit, by have := h.k_le; omega, h.reduced, h.dist⟩

/-- What is found among any points, at the exponents in the limits. -/
theorem searchPoints_gives (hc : ctx.toConstants.Accurate) (ht : target.Accurate ctx.toConstants)
    (points : Nat → Except Fault (List ZOmega)) :
    (searchPoints target points ctx).Gives fun r =>
      ∀ a, r = some a → a.Sound target.theta.value ctx.kmax (errorBound ctx.toConstants) := by
  refine searchLevels_gives fun k hlow hhigh => ?_
  refine (Search.Gives.trivial _).bind fun l _ => ?_
  refine .findSomeM fun p => ?_
  intro s r s' hrun a ha
  exact (tryPoint_gives hc ht p k s r s' hrun a ha).mono (by omega)

/-- What the target and the pair are made from. -/
theorem prepare_eq_ok {theta : BinFloat} {c : Constants} {pair : EllipsePair}
    (h : prepare theta c = .ok (target, pair)) :
    ∃ a b op sin cos, Ellipse.epsilonRegion theta c.eps c = .ok a ∧ Ellipse.unitDisk c = .ok b ∧
      (EllipsePair.optimize c).run ⟨a, b⟩ = (.ok op, pair) ∧ theta.sinCos = .ok (sin, cos) ∧
      target = { theta, cos, sin, threshold := c.one - (c.eps * c.eps).scaleTwo (-1), op } := by
  unfold prepare at h
  cases heps : Ellipse.epsilonRegion theta c.eps c with
  | error e =>
    rw [heps] at h
    cases h
  | ok a =>
    rw [heps] at h
    cases hdisk : Ellipse.unitDisk c with
    | error e =>
      rw [hdisk] at h
      cases h
    | ok b =>
      rw [hdisk] at h
      change (((EllipsePair.optimize c).run ⟨a, b⟩).1 >>= fun op => theta.sinCos >>= fun p => pure _) = _ at h
      cases hop : ((EllipsePair.optimize c).run ⟨a, b⟩).1 with
      | error e =>
        rw [hop] at h
        cases h
      | ok op =>
        cases htrig : theta.sinCos with
        | error e =>
          rw [hop, htrig] at h
          cases h
        | ok p =>
          rw [hop, htrig] at h
          cases h
          exact ⟨a, b, op, _, _, rfl, rfl, Prod.ext hop rfl, rfl, rfl⟩

/-- An angle for which the problem is prepared is in range, unless bits of it were not counted. -/
theorem inRange_of_prepare {theta : BinFloat} {c : Constants} {pair : EllipsePair}
    (h : prepare theta c = .ok (target, pair)) (hbits : theta.integerBits < 2 ^ 32) : theta.InRange := by
  obtain ⟨-, -, -, _, _, -, -, -, htrig, -⟩ := prepare_eq_ok h
  exact inRange_of_sinCos htrig hbits

/-- The target is computed at the precision of the angle. -/
theorem prepare_accurate {theta : BinFloat} {c : Constants} {pair : EllipsePair}
    (hc : c.Accurate) (hprec : c.prec ≤ theta.prec) (hbits : theta.integerBits < 2 ^ 32)
    (h : prepare theta c = .ok (target, pair)) : target.theta = theta ∧ target.Accurate c := by
  have hlow : 64 ≤ theta.prec := le_trans (by norm_num) (hc.prec_ge.trans hprec)
  have hanti := mul_le_mul_of_nonneg_left (roundoff_anti hprec) (by norm_num : (0 : ℝ) ≤ 200)
  obtain ⟨-, -, op, sin, cos, -, -, -, htrig, htarget⟩ := prepare_eq_ok h
  obtain ⟨sin', cos', htrig', hsinPrec, hcosPrec, hsin, hcos⟩ := sinCos_spec hlow (inRange_of_prepare h hbits)
  rw [htrig] at htrig'
  cases htrig'
  subst htarget
  exact ⟨rfl, hcos.trans hanti, hsin.trans hanti, hcosPrec ▸ hprec, hsinPrec ▸ hprec, threshold_ge hc⟩

/-- The identity is near a rotation by less than the tolerance. -/
theorem identity_sound {theta : BinFloat} {c : Constants} {a : Approximation} (hc : c.Accurate)
    (htol : theta.abs < c.tol) (h : identity theta c = .ok a) (kmax : Nat) :
    a.Sound theta.value kmax (errorBound c) := by
  refine sound_of_ofColumn (k := 0) h (by rw [pow_zero]; rfl) (Nat.zero_le kmax) ?_
  rw [lt_iff_value, value_abs] at htol
  have hproj : projection 1 0 theta.value = Real.cos theta.value := by
    unfold projection
    rw [map_one, Complex.one_re, Complex.one_im, pow_zero]
    ring
  have hcos := Real.one_sub_sq_div_two_le_cos (x := theta.value)
  have hsq : theta.value ^ 2 ≤ c.eps.value ^ 2 :=
    sq_le_sq' (by linarith [neg_abs_le theta.value, hc.tol_le_eps])
      (by linarith [le_abs_self theta.value, hc.tol_le_eps])
  rw [hproj, errorBound_eq]
  linarith [roundoff_pos c.prec]

theorem find_gives {theta : BinFloat} (hc : ctx.toConstants.Accurate) (hprec : ctx.prec ≤ theta.prec)
    (hbits : theta.integerBits < 2 ^ 32) : (find theta ctx).Gives fun r =>
      ∀ a, r = some a → a.Sound theta.value ctx.kmax (errorBound ctx.toConstants) := by
  unfold find
  dsimp only
  refine (Search.Gives.lift fun p hp => prepare_accurate hc hprec hbits hp).bind fun p hp => ?_
  obtain ⟨target, pair⟩ := p
  refine (Search.Gives.trivial _).bind fun a _ => (Search.Gives.trivial _).bind fun b _ => ?_
  exact hp.1 ▸ searchPoints_gives hc hp.2 _

theorem findInEllipses_gives {theta : BinFloat} (hc : ctx.toConstants.Accurate)
    (hprec : ctx.prec ≤ theta.prec) (hbits : theta.integerBits < 2 ^ 32) :
    (findInEllipses theta ctx).Gives fun r =>
      ∀ a, r = some a → a.Sound theta.value ctx.kmax (errorBound ctx.toConstants) := by
  unfold findInEllipses
  dsimp only
  split
  · rename_i htol
    refine (Search.Gives.lift fun a ha => ?_).bind fun a ha => .pure ha
    intro b hb
    cases hb
    exact identity_sound hc htol ha ctx.kmax
  · refine (Search.Gives.lift fun p hp => prepare_accurate hc hprec hbits hp).bind fun p hp => ?_
    obtain ⟨target, pair⟩ := p
    exact hp.1 ▸ searchPoints_gives hc hp.2 _

end Search

/-- The constants of a context that was found valid. -/
theorem accurate_of_ofOptions {o : Options} {ctx : Context} (h : Context.ofOptions o = .ok ctx) :
    ctx.toConstants.Accurate := by
  obtain ⟨hd, hdigits⟩ := Context.eq_ofDigits h
  exact hdigits ▸ Constants.ofDigits_accurate hd

end Approximation

end CliffordT
