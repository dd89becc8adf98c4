/-
What the search finds, and when it finds something.

What either search returns is an approximation: in normal form, of determinant one, with a first column of
length one exactly, and near the rotation by the true angle. The search in the bounding boxes returns something
as soon as a candidate at one of its exponents is listed, passes the test as computed, and can be completed:
the points before it on the list do not stop the search, and neither do the exponents before it.
-/
import CliffordT.Proofs.Approximation.Totality

namespace CliffordT

open BinFloat

namespace Approximation

open GridPoints (Scales scaleExponent inRectangles)

/-! ## Finding something -/

section Answers

variable {ctx : Context} {target : Target} {theta : BinFloat} {pair : EllipsePair} {k : ℕ}

/-- A point that passes gives an approximation if its norm equation is solved. -/
theorem tryPoint_isSome {p : BinFloat × BinFloat} {point : ZOmega} (htrig : target.theta.sinCos = .ok p)
    (hpass : target.Passes (target.op.act point) k ctx.toConstants)
    (hk : (target.op.act point).sqrt2Valuation ≤ k)
    (hsolve : (NormEquation.solve (completion (target.op.act point).withoutSqrt2
      (k - (target.op.act point).sqrt2Valuation)) ctx).Ensures fun t => t.isSome = true) :
    (target.tryPoint point k (levelScales k ctx.toConstants).1 ctx).Ensures fun r => r.isSome = true := by
  unfold Target.tryPoint
  dsimp only
  rw [if_neg hpass, if_neg (not_lt.2 hk)]
  intro s
  obtain ⟨t?, s', hrun, hsome⟩ := hsolve s
  obtain ⟨t, rfl⟩ := Option.isSome_iff_exists.1 hsome
  have hnorm := (NormEquation.solve_ensures _ ctx).gives s _ s' hrun t rfl
  obtain ⟨a, ha⟩ := exists_ofColumn (hasUnitLength_of_completion hnorm) htrig ctx.toConstants
  refine ⟨some a, s', ?_, rfl⟩
  rw [completion] at hrun
  rw [Search.run_bind_of_ok hrun]
  dsimp only
  rw [ha]
  rfl

theorem searchLevels_isSome {α : Type} {step : ℕ → Search (Option α)} {n k₀ : ℕ}
    (hstep : ∀ j, (step j).Ensures fun _ => True) (hlow : k₀ ≤ k) (hhigh : k < k₀ + n)
    (hk : (step k).Ensures fun r => r.isSome = true) :
    (searchLevels step n k₀).Ensures fun r => r.isSome = true := by
  induction n generalizing k₀ with
  | zero => omega
  | succ n ih =>
    unfold searchLevels
    rcases Nat.eq_or_lt_of_le hlow with rfl | hlt
    · refine hk.bind fun r hr => ?_
      cases r with
      | none => cases hr
      | some a => exact .pure hr
    · refine (hstep k₀).bind fun r _ => ?_
      cases r with
      | none => exact ih hlt (by omega)
      | some a => exact .pure rfl

/-- **The search answers** if a candidate at one of its exponents passes and can be completed. -/
theorem find_isSome {a b : Rectangle} {u : ZOmega} (hprepare : prepare theta ctx.toConstants = .ok (target, pair))
    (ha : pair.a.boundingBox = .ok a) (hb : pair.b.boundingBox = .ok b) (hg : target.op.IsSpecialGrid)
    (hlow : ctx.kmin ≤ k) (hhigh : k ≤ ctx.kmax)
    (hlisted : target.op.inverse.act u ∈ inRectangles (levelBoxes a b k ctx.toConstants).1
      (levelBoxes a b k ctx.toConstants).2 ctx.toConstants)
    (hpass : target.Passes u k ctx.toConstants) (hk : u.sqrt2Valuation ≤ k)
    (hsolve : (NormEquation.solve (completion u.withoutSqrt2 (k - u.sqrt2Valuation)) ctx).Ensures
      fun t => t.isSome = true) : (find theta ctx).Ensures fun r => r.isSome = true := by
  obtain ⟨htheta, p, htrig⟩ := sinCos_of_prepare hprepare
  have htrig' : target.theta.sinCos = .ok p := htheta ▸ htrig
  have hact : target.op.act (target.op.inverse.act u) = u := hg.act_inverse_act u
  rw [find_eq hprepare ha hb]
  refine searchLevels_isSome (fun j => ?_) hlow (by omega) ?_
  · refine Search.Ensures.bind (P := fun _ => True) (fun s => ⟨_, s, rfl, True.intro⟩) fun l _ => ?_
    exact .findSomeM_trivial (fun q => tryPoint_ensures htrig' q j _ ctx) l
  · refine Search.Ensures.bind (P := fun l => target.op.inverse.act u ∈ l) (fun s => ⟨_, s, rfl, hlisted⟩)
      fun l hl => ?_
    exact .findSomeM hl (fun q => tryPoint_ensures htrig' q k _ ctx)
      (tryPoint_isSome htrig' (hact.symm ▸ hpass) (hact.symm ▸ hk) (hact.symm ▸ hsolve))

end Answers

/-- An angle below the tolerance is answered by the identity. -/
theorem run_findInEllipses_of_lt {theta : BinFloat} {p : BinFloat × BinFloat} (htrig : theta.sinCos = .ok p)
    (ctx : Context) (s : SearchState) (h : theta.abs < ctx.tol) :
    ∃ a, (findInEllipses theta ctx).run s = (.ok (some a), s) := by
  obtain ⟨a, ha⟩ := exists_ofColumn (u := 1) (t := 0) (k := 0)
    ⟨le_rfl, by rw [Int.toNat_zero, pow_zero]; rfl⟩ htrig ctx.toConstants
  unfold findInEllipses identity
  dsimp only
  rw [if_pos h, ha]
  exact ⟨a, rfl⟩

/-! ## Angles near zero -/

instance (target : Target) (z : ZOmega) (k : ℕ) (c : Constants) : Decidable (target.Passes z k c) :=
  inferInstanceAs (Decidable (¬ _ ≤ _))

/-- What is computed for the angle admits one at the exponent zero: it passes, and the boxes are small enough for it
to be listed. -/
def admitsOne (theta : BinFloat) (c : Constants) : Bool :=
  match prepare theta c with
  | .error _ => false
  | .ok (target, pair) =>
    match pair.a.boundingBox, pair.b.boundingBox with
    | .ok a, .ok b => decide (target.Passes 1 0 c ∧ (levelBoxes a b 0 c).1.IsBelow (5 * c.digits + 32) ∧
        (levelBoxes a b 0 c).2.IsBelow (5 * c.digits + 32))
    | _, _ => false

theorem isCandidate_one {θ ε : ℝ} (h : 1 - ε ^ 2 / 2 < Real.cos θ) : IsCandidate 1 0 θ ε := by
  have hproj : projection 1 0 θ = Real.cos θ := by
    unfold projection
    rw [map_one, Complex.one_re, Complex.one_im, pow_zero, one_mul, zero_mul, add_zero, div_one]
  have hdot : (1 : ZOmega).dot = 1 := by decide
  refine ⟨?_, ?_, ?_⟩
  · rwa [hproj]
  · rw [map_one, map_one, pow_zero]
  · rw [hdot, map_one, map_one, pow_zero]

/-- **An angle near zero is answered**, by the identity if by nothing else, from the exponent zero on. -/
theorem find_isSome_of_admitsOne {o : Options} {ctx : Context} {theta : BinFloat}
    (hctx : Context.ofOptions o = .ok ctx) (hprec : ctx.prec ≤ theta.prec) (hbits : theta.integerBits < 2 ^ 32)
    (hmin : ctx.kmin = 0) (hcos : 1 - ctx.eps.value ^ 2 / 2 < Real.cos theta.value)
    (hadmits : admitsOne theta ctx.toConstants = true)
    (hexp : Scales (scaleExponent · ctx.toConstants) (1 / 10 ^ ctx.digits) (2 ^ (5 * ctx.digits + 34))) :
    (find theta ctx).Ensures fun r => r.isSome = true := by
  unfold admitsOne at hadmits
  cases hprepare : prepare theta ctx.toConstants with
  | error e =>
    rw [hprepare] at hadmits
    cases hadmits
  | ok prepared =>
    obtain ⟨target, pair⟩ := prepared
    obtain ⟨hd, hdigits⟩ := Context.eq_ofDigits hctx
    obtain ⟨a, b, ha, hb, hup⟩ := exists_isUpright hctx hprec hbits hprepare
    rw [hprepare] at hadmits
    dsimp only at hadmits
    rw [ha, hb] at hadmits
    obtain ⟨hpass, hA, hB⟩ := of_decide_eq_true hadmits
    have hlisted : target.op.inverse.act 1 ∈ inRectangles (levelBoxes a b 0 ctx.toConstants).1
        (levelBoxes a b 0 ctx.toConstants).2 ctx.toConstants := by
      rw [hdigits] at hA hB hcos hexp ⊢
      exact hup.mem_inRectanglesBy hd hexp hA hB (isCandidate_one hcos)
    refine find_isSome hprepare ha hb hup.special (by omega) (Nat.zero_le _) hlisted hpass (by decide +kernel) fun s =>
      ⟨some 0, s, ?_, rfl⟩
    have hzero : completion (1 : ZOmega).withoutSqrt2 (0 - (1 : ZOmega).sqrt2Valuation) = 0 := by decide +kernel
    rw [hzero]
    rfl

/-! ## Soundness -/

end Approximation

end CliffordT
