/-
Once the problem is prepared the search does not fail.

What could go wrong with a point is a loop that takes out factors `√2` without end, a square of an absolute
value that is not real, a solution that gives no unitary, or a division by zero. The loop ends for every
element but zero, and zero does not pass the test, since its projection is zero and the bound is positive. A
solution `t` has `|u|² + |t|² = 2ᵏ` exactly, which is what a unitary is checked for, and taking out further
factors `√2` keeps it. None of this depends on how well the target was computed, so that it holds for an angle
of any precision. Nor is there a division by zero, as the ellipses have bounding boxes for every angle for which
the problem is prepared.
-/
import CliffordT.Proofs.Approximation.AnyAngle
import CliffordT.Proofs.Approximation.Candidates
import CliffordT.Proofs.Loop

namespace CliffordT

open BinFloat

namespace Approximation

/-- A column of length one gives an approximation of an angle that has a sine and a cosine. -/
theorem exists_ofColumn {u t : ZOmega} {k : ℤ} (h : Unitary.HasUnitLength ⟨u, t, k, 0⟩) {theta : BinFloat}
    {p : BinFloat × BinFloat} (htrig : theta.sinCos = .ok p) (c : Constants) :
    ∃ a, ofColumn u t k theta c = .ok a := by
  have hmk : Unitary.mk? u t k 0 = .ok (Unitary.reduce ⟨u, t, k, 0⟩) := Unitary.mk?_of_hasUnitLength h
  unfold ofColumn
  rw [hmk, htrig]
  exact ⟨_, rfl⟩

/-! ## Trying a point -/

section Point

variable {ctx : Context} {target : Target}

/-- The projection of a candidate exceeds the bound, as computed. -/
def Target.Passes (target : Target) (candidate : ZOmega) (k : ℕ) (c : Constants) : Prop :=
  ¬ (candidate.re c * target.cos + candidate.im c * target.sin) / (levelScales k c).1 ≤ target.threshold

theorem value_levelScales_ne_zero {c : Constants} (hc : c.Accurate) (k : ℕ) :
    (levelScales k c).1.value ≠ 0 ∧ (levelScales k c).2.value ≠ 0 := by
  have hu : roundoff c.prec ≤ 1 / 2 ^ 148 := (roundoff_anti hc.prec_ge).trans (roundoff_eq 148).le
  have hroot : √2 ≠ 0 := by positivity
  have hne {v w : ℝ} (h : Within (6 * roundoff c.prec) v w) (hw : w ≠ 0) : v ≠ 0 :=
    h.ne_zero (by linarith) hw
  exact ⟨hne (levelScales_within hc k) (pow_ne_zero k hroot),
    hne (levelScales_dot_within hc k) (pow_ne_zero k (neg_ne_zero.2 hroot))⟩

/-- Zero does not pass, for a positive bound: its computed projection is exactly zero. -/
theorem Target.Passes.ne_zero {c : Constants} {z : ZOmega} {k : ℕ} (h : target.Passes z k c)
    (hc : c.Accurate) (hbound : 0 < target.threshold.value) : z ≠ 0 := by
  rintro rfl
  have hzero : (0 : ZOmega).Bounded 0 := by
    refine ⟨le_rfl, ?_, ?_⟩
    · norm_num [ZOmega.norm]
    · rw [map_zero, map_zero, sq, mul_zero]
  have hpart {v : ℝ} (hv : |v - 0| ≤ 20 * roundoff c.prec * 0) : v = 0 := by
    rw [sub_zero, mul_zero] at hv
    exact abs_nonpos_iff.1 hv
  have hre : ((0 : ZOmega).re c).value = 0 := hpart (by
    have h := hzero.abs_re_sub_le hc
    rwa [map_zero, Complex.zero_re] at h)
  have him : ((0 : ZOmega).im c).value = 0 := hpart (by
    have h := hzero.abs_im_sub_le hc
    rwa [map_zero, Complex.zero_im] at h)
  have hx : ((0 : ZOmega).re c * target.cos).value = 0 :=
    (value_mul_within (Nat.zero_le _)).eq_zero (by rw [hre, zero_mul])
  have hy : ((0 : ZOmega).im c * target.sin).value = 0 :=
    (value_mul_within (Nat.zero_le _)).eq_zero (by rw [him, zero_mul])
  have hsum : ((0 : ZOmega).re c * target.cos + (0 : ZOmega).im c * target.sin).value = 0 :=
    (value_add_within (Nat.zero_le _)).eq_zero (by rw [hx, hy, add_zero])
  have hprojection := (value_div_within (Nat.zero_le _) (value_levelScales_ne_zero hc k).1).eq_zero
    (by rw [hsum, zero_div])
  refine h (le_iff_value.2 ?_)
  rw [hprojection]
  exact hbound.le

/-- What `|t|²` has to be for a column `(u, t)` of length one over `√2ⁿ`. -/
def completion (u : ZOmega) (n : ℕ) : ZSqrt2 := ZSqrt2.ofInt ((1 : Int) <<< n) - u.norm

theorem hasUnitLength_of_completion {u t : ZOmega} {n : ℕ} (h : t.norm = completion u n) :
    Unitary.HasUnitLength ⟨u, t, n, 0⟩ := by
  refine ⟨Int.natCast_nonneg n, ?_⟩
  rw [h, completion, add_sub_cancel, Unitary.two_pow_eq, Int.shiftLeft_eq, one_mul]
  rfl

/-- Nothing can go wrong with the candidate `z` at the exponent `k`: no division is by zero, the loop that takes
out the factors `√2` ends, and so do those of the solver, whose solutions all give a unitary. -/
structure Target.IsSafeFor (target : Target) (z : ZOmega) (k : ℕ) (ctx : Context) : Prop where
  scale_ne_zero : (levelScales k ctx.toConstants).1.value ≠ 0
  /-- The scale that the entries of a column are divided by. -/
  column_scale_ne_zero : ∀ n, (ctx.sqrt2.pow n).value ≠ 0
  ne_zero : target.Passes z k ctx.toConstants → z ≠ 0
  loop_ends : target.Passes z k ctx.toConstants →
    LoopEnds ZOmega.sqrt2Round (z, k) (z.withoutSqrt2, k - z.sqrt2Valuation)
  norm_real : (z.withoutSqrt2 * z.withoutSqrt2.conj).toZSqrt2 = .ok z.withoutSqrt2.norm
  solver_ends : ∀ n g fs, ((factorize (completion z.withoutSqrt2 n).norm ctx.toLimits).run g).1 = some fs →
    ∀ pe ∈ fs, NormEquation.LoopsEnd (completion z.withoutSqrt2 n) pe.1
  unitary : ∀ (n : ℕ) s t s',
    (NormEquation.solve (completion z.withoutSqrt2 n) ctx).run s = (.ok (some t), s') →
      Unitary.mk? z.withoutSqrt2 t n 0 = .ok (Unitary.reduce ⟨z.withoutSqrt2, t, n, 0⟩)

/-- **Every candidate is safe**, for a positive bound. -/
theorem Target.isSafeFor (hc : ctx.toConstants.Accurate) (hbound : 0 < target.threshold.value) (z : ZOmega)
    (k : ℕ) : target.IsSafeFor z k ctx where
  scale_ne_zero := (value_levelScales_ne_zero hc k).1
  column_scale_ne_zero := by
    have hprec : 1 ≤ ctx.sqrt2.prec := hc.prec_sqrt2.symm ▸ le_trans (by norm_num) hc.prec_ge
    have hu : roundoff ctx.prec ≤ 1 / 2 ^ 148 := (roundoff_anti hc.prec_ge).trans (roundoff_eq 148).le
    exact value_pow_ne_zero hprec (hc.sqrt2.ne_zero (by linarith) (by positivity))
  ne_zero hpass := hpass.ne_zero hc hbound
  loop_ends hpass := ZOmega.sqrt2Round_ends (hpass.ne_zero hc hbound) k
  norm_real := by rw [ZOmega.mul_conj, ZOmega.toZSqrt2_ofZSqrt2]
  solver_ends := by
    intro n g fs hfs pe hpe
    obtain ⟨hp, htwo⟩ := factorize_spec _ ctx.toLimits g fs hfs pe hpe
    refine NormEquation.loopsEnd ?_ hp htwo
    intro h0
    rw [h0] at hfs
    cases hfs
  unitary := by
    intro n s t s' hrun
    have hnorm := (NormEquation.solve_ensures (completion z.withoutSqrt2 n) ctx).gives s _ s' hrun t rfl
    exact Unitary.mk?_of_hasUnitLength (hasUnitLength_of_completion hnorm)

/-- Trying a point comes to a value, whatever else the target is. -/
theorem tryPoint_ensures {target : Target} {p : BinFloat × BinFloat} (htrig : target.theta.sinCos = .ok p)
    (point : ZOmega) (k : ℕ) (scale : BinFloat) (ctx : Context) :
    (target.tryPoint point k scale ctx).Ensures fun _ => True := by
  unfold Target.tryPoint
  dsimp only
  generalize target.op.act point = z
  split
  · exact .pure True.intro
  split
  · exact .pure True.intro
  refine (NormEquation.solve_ensures _ ctx).bind fun t? hsolve => ?_
  cases t? with
  | none => exact .pure True.intro
  | some t =>
    obtain ⟨a, ha⟩ := exists_ofColumn (hasUnitLength_of_completion (hsolve t rfl)) htrig
      ctx.toConstants
    dsimp only
    rw [ha]
    exact .pure True.intro

end Point

/-! ## The faults of the search -/

section Search

variable {ctx : Context} {target : Target} {theta : BinFloat} {pair : EllipsePair} {Q : Fault → Prop}

theorem searchLevels_faults {α : Type} {step : ℕ → Search (Option α)} {n k : ℕ}
    (hstep : ∀ k, (step k).Faults Q) : (searchLevels step n k).Faults Q := by
  induction n generalizing k with
  | zero => exact .pure none
  | succ n ih =>
    unfold searchLevels
    refine (hstep k).bind fun r => ?_
    cases r with
    | none => exact ih
    | some a => exact .pure (some a)

/-- What can go wrong is that there are no points to try. -/
theorem searchPoints_faults {points : ℕ → Except Fault (List ZOmega)} {p : BinFloat × BinFloat}
    (htrig : target.theta.sinCos = .ok p) (hpoints : ∀ k e, points k = .error e → Q e) :
    (searchPoints target points ctx).Faults Q :=
  searchLevels_faults fun k => (Search.Faults.lift (hpoints k)).bind fun _ =>
    .findSomeM fun point => (tryPoint_ensures htrig point k _ ctx).faults

/-- The target is for the angle, which has a sine and a cosine. -/
theorem sinCos_of_prepare {c : Constants} (h : prepare theta c = .ok (target, pair)) :
    target.theta = theta ∧ ∃ p, theta.sinCos = .ok p := by
  obtain ⟨-, -, -, sin, cos, -, -, -, htrig, rfl⟩ := prepare_eq_ok h
  exact ⟨rfl, _, htrig⟩

/-- A fault of the search in the bounding boxes is one of the boxes. -/
theorem find_faults (hprepare : prepare theta ctx.toConstants = .ok (target, pair))
    (ha : ∀ e, pair.a.boundingBox = .error e → Q e) (hb : ∀ e, pair.b.boundingBox = .error e → Q e) :
    (find theta ctx).Faults Q := by
  unfold find
  dsimp only
  rw [hprepare]
  obtain ⟨htheta, p, htrig⟩ := sinCos_of_prepare hprepare
  refine (Search.Faults.lift ha).bind fun a => (Search.Faults.lift hb).bind fun b => ?_
  refine searchPoints_faults (htheta ▸ htrig) fun k e h => ?_
  cases h

/-- The points in two ellipses are listed unless one of these cannot be computed, or has no box. -/
theorem error_of_inEllipsesWidened {x y : Except Fault Ellipse} {eps : BinFloat} {c : Constants} {e : Fault}
    (h : (do GridPoints.inEllipsesWidened ⟨← x, ← y⟩ eps c) = .error e) :
    (x >>= Ellipse.boundingBox) = .error e ∨ (y >>= Ellipse.boundingBox) = .error e := by
  rcases error_of_bind h with hx | ⟨E, hE, h⟩
  · rw [hx]
    exact .inl rfl
  rcases error_of_bind h with hy | ⟨F, hF, h⟩
  · rw [hy]
    exact .inr rfl
  rw [hE, hF]
  rcases error_of_bind h with ha | ⟨a, -, h⟩
  · exact .inl ha
  rcases error_of_bind h with hb | ⟨b, -, h⟩
  · exact .inr hb
  · cases h

/-- A fault of the search in the ellipses is one of the boxes of the scaled ellipses. -/
theorem findInEllipses_faults (hprepare : prepare theta ctx.toConstants = .ok (target, pair))
    (ha : ∀ k e, (pair.a.rescale (levelScales k ctx.toConstants).1 ctx.toConstants >>= Ellipse.boundingBox)
      = .error e → Q e)
    (hb : ∀ k e, (pair.b.rescale (levelScales k ctx.toConstants).2 ctx.toConstants >>= Ellipse.boundingBox)
      = .error e → Q e) : (findInEllipses theta ctx).Faults Q := by
  obtain ⟨htheta, p, htrig⟩ := sinCos_of_prepare hprepare
  unfold findInEllipses
  dsimp only
  split
  · obtain ⟨a, h⟩ := exists_ofColumn (u := 1) (t := 0) (k := 0) ⟨le_rfl, by rw [Int.toNat_zero, pow_zero]; rfl⟩
      htrig ctx.toConstants
    rw [identity, h]
    exact .pure (some a)
  · rw [hprepare]
    exact searchPoints_faults (htheta ▸ htrig) fun k e h => (error_of_inEllipsesWidened h).elim (ha k e) (hb k e)

end Search

/-- The bound that a target is prepared with is positive. -/
theorem threshold_pos_of_prepare {theta : BinFloat} {c : Constants} {target : Target} {pair : EllipsePair}
    (hc : c.Accurate) (h : prepare theta c = .ok (target, pair)) : 0 < target.threshold.value := by
  have hu : roundoff c.prec ≤ 1 / 2 ^ 148 := (roundoff_anti hc.prec_ge).trans (roundoff_eq 148).le
  have hsq : c.eps.value ^ 2 ≤ 1 := pow_le_one₀ hc.eps_nonneg hc.eps_le_one
  obtain ⟨-, -, op, -, -, -, -, -, -, rfl⟩ := prepare_eq_ok h
  refine lt_of_lt_of_le ?_ (threshold_ge hc)
  linarith

/-- Both ellipses of a problem have bounding boxes, and so have the scaled ones. -/
theorem exists_boxes {o : Options} {ctx : Context} {theta : BinFloat} {target : Target} {pair : EllipsePair}
    (hctx : Context.ofOptions o = .ok ctx) (hprepare : prepare theta ctx.toConstants = .ok (target, pair)) :
    ((∃ r, pair.a.boundingBox = .ok r) ∧ ∃ r, pair.b.boundingBox = .ok r) ∧
      ∀ k, (∃ r, (pair.a.rescale (levelScales k ctx.toConstants).1 ctx.toConstants >>= Ellipse.boundingBox)
          = .ok r) ∧
        ∃ r, (pair.b.rescale (levelScales k ctx.toConstants).2 ctx.toConstants >>= Ellipse.boundingBox)
          = .ok r := by
  have hprec : ctx.toConstants.prec + 32 < 2 ^ 32 := Context.prec_lt hctx
  have hc := accurate_of_ofOptions hctx
  obtain ⟨hd, hdigits⟩ := Context.eq_ofDigits hctx
  rw [hdigits] at hprec hc hprepare ⊢
  have hunits := Constants.ofDigits_accurateUnits hd ((Nat.le_add_right _ 32).trans_lt hprec)
  obtain ⟨ω, H, Γ, X, Y, σ, hbears, hω, hH, hopt⟩ := exists_optimized_of_prepare hd hprec hprepare
  refine ⟨hopt.exists_boxes hunits hbears hω hH, fun k => ?_⟩
  obtain ⟨hs, hs'⟩ := value_levelScales_ne_zero hc k
  obtain ⟨⟨E, r, hE, hr⟩, F, r', hF, hr'⟩ := hopt.exists_rescaled_boxes hunits hbears hω hH
    (prec_levelScales hc k).ge hs (prec_levelScales_dot hc k).ge hs'
  rw [hE, hF]
  exact ⟨⟨r, hr⟩, r', hr'⟩

/-- **Once the problem is prepared the search does not fail.** For a context made from valid options and any angle
for which the problem is prepared: every point is safe to try at every exponent, trying it comes to a value from
every state, and so do both searches. -/
theorem search_total {o : Options} {ctx : Context} {theta : BinFloat} {target : Target} {pair : EllipsePair}
    (hctx : Context.ofOptions o = .ok ctx) (hprepare : prepare theta ctx.toConstants = .ok (target, pair)) :
    (∀ point k, target.IsSafeFor (target.op.act point) k ctx ∧
      ∀ s, ∃ r s', (target.tryPoint point k (levelScales k ctx.toConstants).1 ctx).run s = (.ok r, s')) ∧
    ∀ s, (∃ r s', (find theta ctx).run s = (.ok r, s')) ∧
      ∃ r s', (findInEllipses theta ctx).run s = (.ok r, s') := by
  have hc := accurate_of_ofOptions hctx
  obtain ⟨htheta, p, htrig⟩ := sinCos_of_prepare hprepare
  refine ⟨fun point k => ⟨target.isSafeFor hc (threshold_pos_of_prepare hc hprepare) _ k, fun s => ?_⟩, fun s => ?_⟩
  · obtain ⟨r, s', hrun, -⟩ := tryPoint_ensures (htheta ▸ htrig) point k (levelScales k ctx.toConstants).1 ctx s
    exact ⟨r, s', hrun⟩
  obtain ⟨⟨⟨a, ha⟩, b, hb⟩, hscaled⟩ := exists_boxes hctx hprepare
  have hok {α : Type} {x : Except Fault α} {r : α} (h : x = .ok r) (e : Fault) : x = .error e → False := by
    rw [h]
    intro h'
    cases h'
  refine ⟨(find_faults hprepare (hok ha) (hok hb)).exists_run s, ?_⟩
  refine (findInEllipses_faults hprepare (fun k => ?_) fun k => ?_).exists_run s
  · obtain ⟨r, hr⟩ := (hscaled k).1
    exact hok hr
  · obtain ⟨r, hr⟩ := (hscaled k).2
    exact hok hr

/-- The angle `1/16` with eight bits, far below the precision of a context for one digit: both searches come to a
value. -/
theorem search_total_two_pow_neg_four :
    ∃ ctx target pair, Context.ofOptions (Options.withPrecision 1) = .ok ctx ∧
      prepare (twoPow (-4) 8) ctx.toConstants = .ok (target, pair) ∧
      target.IsSafeFor (target.op.act ZOmega.sqrt2) 1 ctx ∧
      ∀ s, (∃ r s', (find (twoPow (-4) 8) ctx).run s = (.ok r, s')) ∧
        ∃ r s', (findInEllipses (twoPow (-4) 8) ctx).run s = (.ok r, s') := by
  obtain ⟨ctx, hctx⟩ : ∃ ctx, Context.ofOptions (Options.withPrecision 1) = .ok ctx := ⟨_, rfl⟩
  have hdigits : ctx.toConstants = Constants.ofDigits 1 := (Context.eq_ofDigits hctx).2
  obtain ⟨⟨target, pair⟩, hprepare⟩ : ∃ p, prepare (twoPow (-4) 8) (Constants.ofDigits 1) = .ok p := by
    have hok : (prepare (twoPow (-4) 8) (Constants.ofDigits 1)).toBool := by decide +kernel
    cases h : prepare (twoPow (-4) 8) (Constants.ofDigits 1) with
    | error e =>
      rw [h] at hok
      cases hok
    | ok p => exact ⟨p, rfl⟩
  rw [← hdigits] at hprepare
  obtain ⟨hsafe, hvalue⟩ := search_total hctx hprepare
  exact ⟨ctx, target, pair, hctx, hprepare, (hsafe ZOmega.sqrt2 1).1, hvalue⟩

end Approximation

end CliffordT
