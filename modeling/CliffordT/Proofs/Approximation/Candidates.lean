/-
The search misses no candidate.

A candidate for the exponent `k` is an element that lies over `√2ᵏ` in the slice, and whose conjugate lies
over `√2ᵏ` in the disk. The inverse of the operator takes it to a point that lies over `√2ᵏ` in the preimage
of the slice, with its conjugate over `(-√2)ᵏ` in that of the disk. The bounding boxes enclose these up to
much less than the accuracy, as long as they do not reach out too far. They are widened by the accuracy, so
that the point is well inside of them, and the grid problem is complete for what is well inside.
-/
import CliffordT.Proofs.Approximation.Prepare
import CliffordT.Proofs.Grid.Margin

namespace CliffordT

open BinFloat
open ZOmega (toComplex)

namespace Approximation

/-! ## Boxes at an exponent -/

section Side

variable {d : ℕ} {i : Interval} {s : BinFloat} {σ y : ℝ}

/-- How far out a side reaches, before it is rounded and widened. -/
theorem abs_mul_le_of_fatten {R : ℝ} (hd : 0 < d)
    (hs : Within (6 * roundoff (20 * d + 128)) s.value σ)
    (hprec : 20 * d + 128 ≤ i.lo.prec ∧ 20 * d + 128 ≤ i.hi.prec) (hR : 2 ^ 30 ≤ R)
    (hlo : |((i.mul s).fatten (Constants.ofDigits d).eps).lo.value| ≤ R)
    (hhi : |((i.mul s).fatten (Constants.ofDigits d).eps).hi.value| ≤ R) :
    |i.lo.value * σ| ≤ 2 * R ∧ |i.hi.value * σ| ≤ 2 * R := by
  have hc := Constants.ofDigits_accurate hd
  have hu1 := Constants.roundoff_le_of_digits d
  have hu := roundoff_pos (20 * d + 128)
  have hε := abs_of_nonneg hc.eps_nonneg
  have hε1 := hc.eps_le_one
  have hexact {v w e B : ℝ} (h : Within e v w) (he : e ≤ 1 / 1000) (hv : |v| ≤ B) :
      |w| ≤ 101 / 100 * B := by
    have hle := (mul_le_mul_of_nonneg_right (by linarith : 999 / 1000 ≤ 1 - e) (abs_nonneg w)).trans h.le_abs
    linarith [abs_nonneg w]
  have hprec_eps : 20 * d + 128 ≤ (Constants.ofDigits d).eps.prec := hc.prec_eps.ge
  have hlow : |(i.mul s).lo.value| ≤ 3 / 2 * R := by
    have h := hexact (value_sub_within (x := (i.mul s).lo) (p := 20 * d + 128)
      (hprec_eps.trans (le_max_right _ _))) (by linarith) hlo
    linarith [abs_sub_abs_le_abs_sub (i.mul s).lo.value (Constants.ofDigits d).eps.value]
  have hhigh : |(i.mul s).hi.value| ≤ 3 / 2 * R := by
    have h := hexact (value_add_within (x := (i.mul s).hi) (p := 20 * d + 128)
      (hprec_eps.trans (le_max_right _ _))) (by linarith) hhi
    have htri := abs_sub_abs_le_abs_sub (i.mul s).hi.value (-(Constants.ofDigits d).eps.value)
    rw [sub_neg_eq_add, abs_neg] at htri
    linarith
  obtain ⟨hx, hy⟩ := Interval.abs_le_of_abs_spanning_le (i.lo * s) (i.hi * s) hlow hhigh
  have hmul {x : BinFloat} (hx : 20 * d + 128 ≤ x.prec) (h : |(x * s).value| ≤ 3 / 2 * R) :
      |x.value * σ| ≤ 2 * R := by
    have := hexact (value_mul_of_within (hx.trans (le_max_left _ _)) (by linarith) (by linarith)
      (.refl le_rfl x.value) hs) (by linarith) h
    linarith
  exact ⟨hmul hprec.1 hx, hmul hprec.2 hy⟩

/-- **A side of a bounding box**, scaled to an exponent and widened, has the coordinate well inside. -/
theorem isWellInside_side (hd : 0 < d) (hs : Within (6 * roundoff (20 * d + 128)) s.value σ)
    (hi : ∀ M, |i.lo.value| ≤ M → |i.hi.value| ≤ M → i.Near (20 * d + 128) M (boxError d * M) y)
    (hlo : |((i.mul s).fatten (Constants.ofDigits d).eps).lo.value| ≤ 2 ^ (5 * d + 32))
    (hhi : |((i.mul s).fatten (Constants.ofDigits d).eps).hi.value| ≤ 2 ^ (5 * d + 32)) :
    GridPoints.IsWellInside d ((i.mul s).fatten (Constants.ofDigits d).eps) (y * σ) := by
  have hu := roundoff_pos (20 * d + 128)
  have hu1 := Constants.roundoff_le_of_digits d
  have hten : (0 : ℝ) < 1 / 10 ^ d := by positivity
  have hε := le_eps d
  have hε1 := (Constants.ofDigits_accurate hd).eps_le_one
  have hnear := hi (max |i.lo.value| |i.hi.value|) (le_max_left _ _) (le_max_right _ _)
  have hR : (2 : ℝ) ^ 30 ≤ 2 ^ (5 * d + 32) := pow_le_pow_right₀ (by norm_num) (by omega)
  obtain ⟨hσlo, hσhi⟩ := abs_mul_le_of_fatten hd hs ⟨hnear.prec_lo, hnear.prec_hi⟩ hR hlo hhi
  generalize hM : max |i.lo.value| |i.hi.value| = M at hnear
  have hMσ : M * |σ| ≤ 2 * 2 ^ (5 * d + 32) := by
    rw [abs_mul] at hσlo hσhi
    rw [← hM, max_mul_of_nonneg _ _ (abs_nonneg σ)]
    exact max_le hσlo hσhi
  have hbox : boxError d * (M * |σ|) ≤ 1 / 2 ^ 40 * (1 / 10 ^ d) := by
    have hpos : 0 ≤ boxError d := le_trans (by positivity) (roundoff_le_boxError hd)
    have := mul_le_mul_of_nonneg_left hMσ hpos
    linarith [boxError_mul_le d]
  have hround : roundoff (20 * d + 128) * (M * |σ| + 1) ≤ 1 / 2 ^ 40 * (1 / 10 ^ d) := by
    have hreach : M * |σ| + 1 ≤ 3 * 2 ^ (5 * d + 32) := by linarith
    have hmul := mul_le_mul_of_nonneg_left hreach hu.le
    have hle := mul_le_mul_of_nonneg_right (roundoff_le_boxError hd)
      (by positivity : (0 : ℝ) ≤ 2 ^ (5 * d + 32))
    linarith [boxError_mul_le d]
  have herror : (boxError d * M + (6 * roundoff (20 * d + 128) + 2 * roundoff (20 * d + 128)) * M) * |σ|
      + 2 * roundoff (20 * d + 128) * (2 * M * |σ| + (Constants.ofDigits d).eps.value)
        ≤ 1 / 100 * (1 / 10 ^ d) := by
    have hε2 := mul_le_mul_of_nonneg_left hε1 hu.le
    linarith
  have hscaled := hnear.mul (e := 6 * roundoff (20 * d + 128)) (by linarith) hs
  exact (hscaled.fatten (eps_pos d).le (by linarith) hlo hhi).mono le_rfl (by linarith)

end Side

/-! ## Candidates -/

/-- The element is a candidate for an upper left entry at the exponent `k`: over `√2ᵏ` it is in the slice of
the disk in direction `θ`, and its conjugate is in the disk. -/
structure IsCandidate (u : ZOmega) (k : ℕ) (θ ε : ℝ) : Prop where
  lt_projection : 1 - ε ^ 2 / 2 < projection u k θ
  normSq_le : Complex.normSq (toComplex u) ≤ 2 ^ k
  normSq_dot_le : Complex.normSq (toComplex u.dot) ≤ 2 ^ k

section Candidate

variable {u : ZOmega} {k : ℕ} {θ ε σ : ℝ} {g : GridOperator}

theorem plane_sq (z : ZOmega) : z.plane 0 ^ 2 + z.plane 1 ^ 2 = Complex.normSq (toComplex z) := by
  rw [Complex.normSq_apply, sq, sq]
  rfl

/-- A point of the plane over a scale of absolute value `√2ᵏ`. -/
theorem smul_plane_sq_le {z : ZOmega} {t : ℝ} (ht : t ^ 2 = 2 ^ k)
    (hz : Complex.normSq (toComplex z) ≤ 2 ^ k) :
    ((t⁻¹ • z.plane) 0) ^ 2 + ((t⁻¹ • z.plane) 1) ^ 2 ≤ 1 := by
  have hpos : (0 : ℝ) < 2 ^ k := by positivity
  have hsum : ((t⁻¹ • z.plane) 0) ^ 2 + ((t⁻¹ • z.plane) 1) ^ 2
      = Complex.normSq (toComplex z) / 2 ^ k := by
    rw [Pi.smul_apply, Pi.smul_apply, smul_eq_mul, smul_eq_mul, mul_pow, mul_pow, ← mul_add, plane_sq,
      inv_pow, ht, inv_mul_eq_div]
  rw [hsum]
  exact div_le_one_of_le₀ hz hpos.le

/-- Taken back by the operator, a candidate is in the preimage of the slice. -/
theorem IsCandidate.contains_slice (hu : IsCandidate u k θ ε) (hε : 0 < ε) (hε1 : ε ≤ 1)
    (hg : g.IsSpecialGrid) : ((ExactEllipse.slice ε θ).pull g.real).Contains
      ((√2 ^ k)⁻¹ • (g.inverse.act u).plane) := by
  have hscale : (√2 ^ k) ^ 2 = (2 : ℝ) ^ k := by
    rw [← pow_mul, mul_comm, pow_mul, Real.sq_sqrt (by norm_num)]
  rw [ExactEllipse.contains_pull _ hg.det_ne_zero, Matrix.mulVec_smul,
    ← GridOperator.plane_act hg.toIsGrid, hg.act_inverse_act]
  refine ExactEllipse.contains_slice hε hε1 θ ?_ (smul_plane_sq_le hscale hu.normSq_le)
  have hproj : ((√2 ^ k)⁻¹ • u.plane) 0 * Real.cos θ + ((√2 ^ k)⁻¹ • u.plane) 1 * Real.sin θ
      = projection u k θ := by
    show (√2 ^ k)⁻¹ * (toComplex u).re * Real.cos θ + (√2 ^ k)⁻¹ * (toComplex u).im * Real.sin θ = _
    unfold projection
    ring
  rw [hproj]
  exact hu.lt_projection.le

/-- Its conjugate is in the preimage of the disk. -/
theorem IsCandidate.contains_disk (hu : IsCandidate u k θ ε) (hg : g.IsSpecialGrid) (hσ : σ * σ = 1) :
    (ExactEllipse.disk.pull (σ • g.dot.real)).Contains
      (((-√2) ^ k)⁻¹ • (g.inverse.act u).dot.plane) := by
  have hscale : (σ * (-√2) ^ k) ^ 2 = (2 : ℝ) ^ k := by
    rw [mul_pow, sq σ, hσ, one_mul, ← pow_mul, mul_comm, pow_mul, neg_sq, Real.sq_sqrt (by norm_num)]
  have hinv : σ * ((-√2) ^ k)⁻¹ = (σ * (-√2) ^ k)⁻¹ := by
    rw [mul_inv, inv_eq_of_mul_eq_one_left hσ]
  have hdet : (σ • g.dot.real).det ≠ 0 := by
    rw [Matrix.det_smul, Fintype.card_fin, sq, hσ, one_mul]
    exact hg.dot.det_ne_zero
  rw [ExactEllipse.contains_pull _ hdet, Matrix.smul_mulVec, Matrix.mulVec_smul,
    ← GridOperator.plane_act hg.toIsGrid.dot, ← GridOperator.act_dot, hg.act_inverse_act, smul_smul, hinv]
  exact ExactEllipse.contains_disk (smul_plane_sq_le hscale hu.normSq_dot_le)

end Candidate

end Approximation

namespace Rectangle

/-- All sides have their ends below `2ⁿ` in absolute value. -/
structure IsBelow (r : Rectangle) (n : ℕ) : Prop where
  x_lo : |r.x.lo.value| < 2 ^ n
  x_hi : |r.x.hi.value| < 2 ^ n
  y_lo : |r.y.lo.value| < 2 ^ n
  y_hi : |r.y.hi.value| < 2 ^ n

theorem isBelow_iff {r : Rectangle} {n : ℕ} : r.IsBelow n ↔
    (r.x.lo.abs < twoPow n 1 ∧ r.x.hi.abs < twoPow n 1) ∧
      r.y.lo.abs < twoPow n 1 ∧ r.y.hi.abs < twoPow n 1 := by
  simp only [lt_iff_value, value_abs, value_twoPow, zpow_natCast]
  exact ⟨fun h => ⟨⟨h.x_lo, h.x_hi⟩, h.y_lo, h.y_hi⟩, fun h => ⟨h.1.1, h.1.2, h.2.1, h.2.2⟩⟩

instance (r : Rectangle) (n : ℕ) : Decidable (r.IsBelow n) := decidable_of_iff _ isBelow_iff.symm

end Rectangle

namespace Approximation

open GridPoints (Scales inRectangles inRectanglesBy scaleExponent)

section Search

variable {d k : ℕ} {u : ZOmega} {θ : ℝ} {g : GridOperator} {a b : Rectangle} {theta : BinFloat}
  {target : Target} {pair : EllipsePair}

/-- **A candidate is listed** for an upright problem, at every exponent with boxes that do not reach out too
far. -/
theorem IsUpright.mem_inRectanglesBy (h : IsUpright d θ g a b) (hd : 0 < d) {exponent : BinFloat → Int}
    (hexp : Scales exponent (1 / 10 ^ d) (2 ^ (5 * d + 34)))
    (hA : (levelBoxes a b k (Constants.ofDigits d)).1.IsBelow (5 * d + 32))
    (hB : (levelBoxes a b k (Constants.ofDigits d)).2.IsBelow (5 * d + 32))
    (hu : IsCandidate u k θ (Constants.ofDigits d).eps.value) :
    g.inverse.act u ∈ inRectanglesBy exponent (levelBoxes a b k (Constants.ofDigits d)).1
      (levelBoxes a b k (Constants.ofDigits d)).2 (Constants.ofDigits d) := by
  have hc := Constants.ofDigits_accurate hd
  obtain ⟨hg, hfst, σ, hσ, hsnd⟩ := h
  have hfst := fun M => hfst _ M (hu.contains_slice (eps_pos d) hc.eps_le_one hg)
  have hsnd := fun M => hsnd _ M (hu.contains_disk hg hσ)
  have hs := levelScales_within hc k
  have hs' := levelScales_dot_within hc k
  have hunscale {t : ℝ} (ht : t ≠ 0) (z : ZOmega) (j : Fin 2) : (t⁻¹ • z.plane) j * t = z.plane j := by
    rw [Pi.smul_apply, smul_eq_mul, mul_right_comm, inv_mul_cancel₀ ht, one_mul]
  have hne : (√2 ^ k : ℝ) ≠ 0 := by positivity
  have hne' : ((-√2) ^ k : ℝ) ≠ 0 := pow_ne_zero k (neg_ne_zero.2 (by positivity))
  have hre := isWellInside_side hd hs (fun M => (hfst M).1) hA.x_lo.le hA.x_hi.le
  have him := isWellInside_side hd hs (fun M => (hfst M).2) hA.y_lo.le hA.y_hi.le
  have hre' := isWellInside_side hd hs' (fun M => (hsnd M).1) hB.x_lo.le hB.x_hi.le
  have him' := isWellInside_side hd hs' (fun M => (hsnd M).2) hB.y_lo.le hB.y_hi.le
  rw [hunscale hne] at hre him
  rw [hunscale hne'] at hre' him'
  have hcount := GridPoints.count_inRectanglesBy_of_inside (u := g.inverse.act u)
    (a := (levelBoxes a b k (Constants.ofDigits d)).1) (b := (levelBoxes a b k (Constants.ofDigits d)).2)
    hd hexp hre him hre' him'
  exact List.count_pos_iff.1 (hcount.symm ▸ Nat.one_pos)

/-- The lists that the search goes through, once the problem is prepared and has bounding boxes. -/
theorem find_eq {ctx : Context} (hprepare : prepare theta ctx.toConstants = .ok (target, pair))
    (ha : pair.a.boundingBox = .ok a) (hb : pair.b.boundingBox = .ok b) :
    find theta ctx = searchPoints target (fun k => .ok (inRectangles
      (levelBoxes a b k ctx.toConstants).1 (levelBoxes a b k ctx.toConstants).2 ctx.toConstants)) ctx := by
  have hlift {α β : Type} (x : α) (f : α → Search β) : (liftM (Except.ok x : Except Fault α) >>= f) = f x :=
    rfl
  unfold find
  dsimp only
  rw [hprepare, hlift]
  dsimp only
  rw [ha, hlift, hb, hlift]
  rfl

end Search

/-- The upright ellipses of a problem that was prepared have bounding boxes. -/
theorem exists_isUpright {o : Options} {ctx : Context} {theta : BinFloat} {target : Target} {pair : EllipsePair}
    (hctx : Context.ofOptions o = .ok ctx) (hprec : ctx.prec ≤ theta.prec) (hbits : theta.integerBits < 2 ^ 32)
    (hprepare : prepare theta ctx.toConstants = .ok (target, pair)) :
    ∃ a b, pair.a.boundingBox = .ok a ∧ pair.b.boundingBox = .ok b ∧
      IsUpright o.precision theta.value target.op a b := by
  obtain ⟨hd, hdigits⟩ := Context.eq_ofDigits hctx
  have hrange := inRange_of_prepare hprepare hbits
  have hprec' : ctx.toConstants.prec ≤ theta.prec := hprec
  rw [hdigits] at hprepare hprec'
  rcases prepare_cases hd hprec' hrange with ⟨target', pair', a, b, h, ha, hb, hup⟩ | ⟨-, e, h⟩
  · rw [hprepare] at h
    cases h
    exact ⟨a, b, ha, hb, hup⟩
  · rw [hprepare] at h
    cases h

/-- The root of two is a candidate at the angle zero. -/
theorem isCandidate_sqrt2 {ε : ℝ} (hε : 0 < ε) : IsCandidate ZOmega.sqrt2 1 0 ε := by
  have hnorm : Complex.normSq (((√2 : ℝ) : ℂ)) = 2 := by
    rw [Complex.normSq_ofReal, Real.mul_self_sqrt (by norm_num)]
  have hdot : ZOmega.sqrt2.dot = -ZOmega.sqrt2 := by decide
  refine ⟨?_, ?_, ?_⟩
  · have hproj : projection ZOmega.sqrt2 1 0 = 1 := by
      unfold projection
      rw [ZOmega.toComplex_sqrt2, Complex.ofReal_re, Complex.ofReal_im, Real.cos_zero, mul_one, zero_mul,
        add_zero, pow_one, div_self (by positivity)]
    rw [hproj]
    linarith [pow_pos hε 2]
  · rw [ZOmega.toComplex_sqrt2, hnorm, pow_one]
  · rw [hdot, map_neg, Complex.normSq_neg, ZOmega.toComplex_sqrt2, hnorm, pow_one]

/-- The boxes for the angle zero and the first two exponents, at one digit. -/
theorem isBelow_levelBoxes_zero {target : Target} {pair : EllipsePair} {a b : Rectangle}
    (h : prepare (zero 148) (Constants.ofDigits 1) = .ok (target, pair))
    (ha : pair.a.boundingBox = .ok a) (hb : pair.b.boundingBox = .ok b) {k : ℕ} (hk : k < 2) :
    (levelBoxes a b k (Constants.ofDigits 1)).1.IsBelow 37 ∧
      (levelBoxes a b k (Constants.ofDigits 1)).2.IsBelow 37 := by
  have hcomputed : ∀ k < 2, ((do
      let prepared ← prepare (zero 148) (Constants.ofDigits 1)
      return levelBoxes (← prepared.2.a.boundingBox) (← prepared.2.b.boundingBox) k (Constants.ofDigits 1) :
      Except Fault (Rectangle × Rectangle)).toOption.any
        fun r => decide (r.1.IsBelow 37 ∧ r.2.IsBelow 37)) = true := by decide +kernel
  have hboxes := hcomputed k hk
  rw [h] at hboxes
  change (((do return levelBoxes (← pair.a.boundingBox) (← pair.b.boundingBox) k _) :
    Except Fault (Rectangle × Rectangle)).toOption.any _) = true at hboxes
  rw [ha, hb] at hboxes
  exact of_decide_eq_true hboxes

end Approximation

end CliffordT
