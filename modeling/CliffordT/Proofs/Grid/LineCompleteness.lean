/-
Completeness of the grid problem on the line.

For intervals that are points or not too narrow, every point with both embeddings in them is found by the
plain search and by those that scale, whatever the exponent, as long as it brings the scaled interval to a
width of about one. What is found besides is another matter: the test of membership tolerates a product of
distances, and scaling changes products. A number just outside a wide interval can be tolerated after that
interval is made narrow and not before.
-/
import Mathlib.Analysis.SpecialFunctions.Log.Base
import CliffordT.Proofs.BinFloat.Nearest
import CliffordT.Proofs.Grid.Budget

namespace CliffordT

open BinFloat

namespace GridPoints

open ZSqrt2 (real)

/-- The exponents that are given for widths between `low` and `high` bring them to about one. -/
def Scales (exponent : BinFloat → Int) (low high : ℝ) : Prop :=
  ∀ w : BinFloat, low ≤ w.value → w.value ≤ high →
    lambdaReal ^ (-2 : ℤ) ≤ lambdaReal ^ (-exponent w) * w.value ∧
      lambdaReal ^ (-exponent w) * w.value ≤ lambdaReal

/-- The exponent that an exact logarithm gives. -/
noncomputable def exactExponent (w : BinFloat) : ℤ := ⌊Real.logb lambdaReal w.value⌋ + 1

theorem scales_exactExponent {low high : ℝ} (hlow : 0 < low) : Scales exactExponent low high := by
  intro w hw _
  have hpos : 0 < w.value := hlow.trans_le hw
  have hvalue : lambdaReal ^ Real.logb lambdaReal w.value = w.value :=
    Real.rpow_logb lambdaReal_pos one_lt_lambdaReal.ne' hpos
  have hfloor := Int.floor_le (Real.logb lambdaReal w.value)
  have hlt := Int.lt_floor_add_one (Real.logb lambdaReal w.value)
  unfold exactExponent
  generalize hL : Real.logb lambdaReal w.value = L at hvalue hfloor hlt ⊢
  rw [← hvalue, ← Real.rpow_intCast, ← Real.rpow_intCast, ← Real.rpow_add lambdaReal_pos]
  push_cast
  constructor
  · exact Real.rpow_le_rpow_of_exponent_le one_lt_lambdaReal.le (by linarith)
  · exact (Real.rpow_le_rpow_of_exponent_le one_lt_lambdaReal.le (by linarith)).trans
      (Real.rpow_one _).le

/-- Such an exponent is bounded by what the width is bounded by. -/
theorem pow_natAbs_le_of_scaled {w P : ℝ} {k : ℤ} (hw : 0 < w) (hup : 5.83 * w ≤ P)
    (hdown : lambdaReal ≤ P * w) (hscale : lambdaReal ^ (-2 : ℤ) ≤ lambdaReal ^ (-k) * w)
    (hscale' : lambdaReal ^ (-k) * w ≤ lambdaReal) : lambdaReal ^ k.natAbs ≤ P := by
  rw [← zpow_natCast]
  rcases Int.natAbs_eq k with habs | habs
  · rw [← habs]
    have hsq : lambdaReal ^ (2 : ℤ) ≤ 5.83 := by
      rw [zpow_ofNat, lambdaReal_sq]
      linarith [lambdaReal_bounds.2]
    have hmul := mul_le_mul_of_nonneg_left hscale (zpow_pos lambdaReal_pos (k + 2)).le
    rw [← mul_assoc, ← zpow_add₀ lambdaReal_pos.ne', ← zpow_add₀ lambdaReal_pos.ne',
      add_neg_cancel_right, add_neg_cancel_comm] at hmul
    exact hmul.trans ((mul_le_mul_of_nonneg_right hsq hw.le).trans hup)
  · have hneg : (k.natAbs : ℤ) = -k := by omega
    rw [hneg]
    exact le_of_mul_le_mul_right (hscale'.trans hdown) hw

/-! ## One coordinate -/

section Coordinate

variable {c : Constants} {d : ℕ} {i a b : Interval} {x : ZSqrt2} {y : ℝ}

/-- An interval of one of the problems on the line: near the number it is for, and a point or not too
narrow. -/
structure IsCoordinate (d : ℕ) (i : Interval) (y : ℝ) : Prop where
  near : i.Near (20 * d + 128) (reach d) (4 * roundoff (20 * d + 128) * reach d) y
  width : i.realWidth = 0 ∨ 3 / 4 / 2 ^ (16 + 4 * d) ≤ i.realWidth

/-- The computed width of such an interval. -/
theorem IsCoordinate.abs_width_sub_le (h : IsCoordinate d i y) :
    |i.width.value - i.realWidth| ≤ 1 / 1000 * i.realWidth := by
  have hu1 := Constants.roundoff_le_of_digits d
  have hwidth := h.near.width_within.sub_le
  rw [abs_of_nonneg h.near.realWidth_nonneg] at hwidth
  exact hwidth.trans (mul_le_mul_of_nonneg_right (by linarith) h.near.realWidth_nonneg)

/-- What the exponents are given for. -/
theorem IsCoordinate.width_bounds (hd : 0 < d) (h : IsCoordinate d i y) (hw : 0 < i.width.value) :
    1 / 2 ^ (17 + 4 * d) ≤ i.width.value ∧ i.width.value ≤ 2 ^ (18 + 4 * d) := by
  have hreach := reach_bounds hd
  have hwidth := abs_le.1 h.abs_width_sub_le
  have hle := h.near.realWidth_le
  have hlow : 3 / 4 / 2 ^ (16 + 4 * d) ≤ i.realWidth := by
    refine h.width.resolve_left fun h0 => ?_
    rw [h0] at hwidth
    linarith [hwidth.2]
  have h17 : (2 : ℝ) ^ (17 + 4 * d) = 2 * 2 ^ (16 + 4 * d) := by
    rw [← pow_succ']
    congr 1
    omega
  have h18 : (2 : ℝ) ^ (18 + 4 * d) = 4 * 2 ^ (16 + 4 * d) := by
    rw [pow_add, pow_add]
    norm_num
    ring
  rw [h17, h18, ← div_div]
  constructor
  · have hfrac : (1 : ℝ) / 2 / 2 ^ (16 + 4 * d) ≤ 2 / 3 * (3 / 4 / 2 ^ (16 + 4 * d)) := by
      rw [← mul_div_assoc]
      norm_num
    linarith [hwidth.1]
  · linarith [hwidth.2]

/-- The power of `λ` that brings a width to about one is bounded by the reach, and so is its inverse. -/
theorem IsCoordinate.pow_le (hd : 0 < d) (h : IsCoordinate d i y) (hpos : 0 < i.width.value) {k : ℤ}
    (hscale : lambdaReal ^ (-2 : ℤ) ≤ lambdaReal ^ (-k) * i.width.value)
    (hscale' : lambdaReal ^ (-k) * i.width.value ≤ lambdaReal) :
    lambdaReal ^ k.natAbs ≤ 12 * reach d := by
  have hle := h.near.realWidth_le
  have hwidth := (abs_le.1 h.abs_width_sub_le).2
  refine pow_natAbs_le_of_scaled hpos (by linarith) ?_ hscale hscale'
  have hlow := mul_le_mul_of_nonneg_left (h.width_bounds hd hpos).1 (by linarith : 0 ≤ 12 * reach d)
  have hpow : (2 : ℝ) ^ (17 + 4 * d) ≤ 2 * reach d := by
    have hsplit : (2 : ℝ) ^ (17 + 4 * d) = 2 * 2 ^ (16 + 4 * d) := by
      rw [← pow_succ']
      congr 1
      omega
    unfold reach
    rw [hsplit]
    linarith
  have hsix : 6 ≤ 12 * reach d * (1 / 2 ^ (17 + 4 * d)) := by
    rw [mul_one_div, le_div_iff₀ (by positivity)]
    linarith
  linarith [lambdaReal_bounds.2]

/-- **One exponent suits both intervals**: that of the first, if it is not a point. -/
theorem exists_scalable (hd : 0 < d) {k : ℤ} {z : ℝ} (ha : IsCoordinate d a y) (hb : IsCoordinate d b z)
    (hpos : 0 < a.width.value)
    (hscale : lambdaReal ^ (-2 : ℤ) ≤ lambdaReal ^ (-k) * a.width.value)
    (hscale' : lambdaReal ^ (-k) * a.width.value ≤ lambdaReal) :
    ∃ e f, Scalable (Constants.ofDigits d) a b (reach d) (4 * roundoff (20 * d + 128) * reach d)
      (4 * roundoff (20 * d + 128) * reach d) (12 * reach d) k e f := by
  have hd1 : (1 : ℝ) ≤ d := by exact_mod_cast hd
  have hu := roundoff_pos (20 * d + 128)
  have hreach := (reach_bounds hd).1
  have hT : (Constants.ofDigits d).tol.value ≤ 1 :=
    (Constants.ofDigits_accurateScale hd).tol_le.trans (by norm_num)
  have hpow := ha.pow_le hd hpos hscale hscale'
  obtain ⟨hk, hk'⟩ := lambdaReal_zpow_le hpow
  have hkpos := zpow_pos lambdaReal_pos k
  have hkpos' := zpow_pos lambdaReal_pos (-k)
  have hpower : IsPower d k := isPower_of_pow_le hd hpow
  have hdu := mul_roundoff_le_of_digits hd
  have herror := hpower.error_le
  have hsmall : 256 * roundoff (20 * d + 128) * (reach d * (12 * reach d))
      ≤ (Constants.ofDigits d).tol.value := by
    have hcubic := cubic_lt_tol hd
    have hpow : reach d ^ 2 ≤ reach d ^ 3 := pow_le_pow_right₀ (by linarith) (by norm_num)
    have hstep := mul_le_mul_of_nonneg_left hpow hu.le
    have hmul := mul_le_mul_of_nonneg_right hd1
      (by positivity : 0 ≤ roundoff (20 * d + 128) * reach d ^ 3)
    linarith [(by positivity : 0 ≤ roundoff (20 * d + 128) * reach d ^ 2)]
  have hwidth : a.realWidth * lambdaReal ^ (-k) ≤ 2 * reach d := by
    have hw : a.realWidth ≤ 1.002 * a.width.value := by
      linarith [(abs_le.1 ha.abs_width_sub_le).1, ha.near.realWidth_nonneg]
    have hmul := mul_le_mul_of_nonneg_right hw hkpos'.le
    linarith [lambdaReal_bounds.2]
  have hfst := slack_of_moderate (d := d) (M := reach d) (q := lambdaReal ^ (-k)) (w := a.realWidth)
    (e := (96 * k.natAbs + 4) * roundoff (20 * d + 128) + 2 * roundoff (20 * d + 128)) hd1 hu hreach hT
    (cubic_lt_tol hd) hkpos' hk' (by positivity) (by linarith) hwidth
  have hfst_small : (96 * k.natAbs + 4) * roundoff (20 * d + 128) + 2 * roundoff (20 * d + 128) ≤ 1 := by
    linarith
  rcases le_or_gt 0 k with hsign | hsign
  · have herr : 14 * k.natAbs * roundoff (20 * d + 128) + 2 * roundoff (20 * d + 128)
        = (14 * k.natAbs + 2) * roundoff (20 * d + 128) := by ring
    have hsnd := slack_of_wide (C := 250 + 45 * d) (n := k.natAbs) (q := lambdaReal ^ k) hu hreach hT
      (quartic_lt_tol hd) hpower.natAbs_le hkpos hk hb.near.realWidth_le
    have hsnd_small : (14 * k.natAbs + 2) * roundoff (20 * d + 128) ≤ 1 := by
      linarith [(by positivity : 0 ≤ k.natAbs * roundoff (20 * d + 128))]
    rw [← herr] at hsnd hsnd_small
    exact ⟨_, _, hpower.pow_le, hpower.fst, hpower.snd_of_nonneg hsign, hfst_small, hsnd_small, hsmall,
      hfst.1, hsnd.1, hfst.2, hsnd.2⟩
  · -- the power of `λ` makes the second interval narrower
    have hle : lambdaReal ^ k ≤ 1 := zpow_le_one_of_nonpos₀ one_lt_lambdaReal.le hsign.le
    have hwidth' : b.realWidth * lambdaReal ^ k ≤ 2 * reach d :=
      (mul_le_of_le_one_right hb.near.realWidth_nonneg hle).trans hb.near.realWidth_le
    have hsnd := slack_of_moderate (d := d) (M := reach d) (q := lambdaReal ^ k) (w := b.realWidth)
      (e := (96 * k.natAbs + 4) * roundoff (20 * d + 128) + 2 * roundoff (20 * d + 128)) hd1 hu hreach hT
      (cubic_lt_tol hd) hkpos hk (by positivity) (by linarith) hwidth'
    exact ⟨_, _, hpower.pow_le, hpower.fst, hpower.snd, hfst_small, hfst_small, hsmall, hfst.1, hsnd.1,
      hfst.2, hsnd.2⟩

/-- **Completeness of the plain search**, and with it of the others for a first interval that is a
point. -/
theorem mem_onLine_of_coordinates (hd : 0 < d) (ha : IsCoordinate d a (real x))
    (hb : IsCoordinate d b (real x.dot)) : x ∈ onLine a b (Constants.ofDigits d) := by
  have hc := Constants.ofDigits_accurateScale hd
  have hd1 : (1 : ℝ) ≤ d := by exact_mod_cast hd
  have hu := roundoff_pos (20 * d + 128)
  have hM := (reach_bounds hd).1
  have hcubic := cubic_lt_tol hd
  have hT : (Constants.ofDigits d).tol.value ≤ 1 := hc.tol_le.trans (by norm_num)
  have hpos : 0 < roundoff (20 * d + 128) * reach d := mul_pos hu (by linarith)
  have hroom : roundoff (20 * d + 128) * reach d * reach d
      ≤ d * (roundoff (20 * d + 128) * reach d ^ 3) := by
    have hpow : reach d ^ 2 ≤ reach d ^ 3 := pow_le_pow_right₀ (by linarith) (by norm_num)
    have hstep := mul_le_mul_of_nonneg_left hpow hu.le
    have hmul := mul_le_mul_of_nonneg_right hd1
      (by positivity : 0 ≤ roundoff (20 * d + 128) * reach d ^ 3)
    linarith
  have hlin : roundoff (20 * d + 128) * reach d ≤ roundoff (20 * d + 128) * reach d * reach d :=
    le_mul_of_one_le_right hpos.le (by linarith)
  have hsize {i : Interval} {y : ℝ} (h : IsCoordinate d i y) : |y| ≤ 2 * reach d := by
    have := h.near.abs_le_add
    linarith
  have hnear : NearBoth (Constants.ofDigits d) a b (2 * reach d)
      (4 * roundoff (20 * d + 128) * reach d) (4 * roundoff (20 * d + 128) * reach d) x :=
    ⟨ha.near.mono (by linarith) le_rfl, hb.near.mono (by linarith) le_rfl, hsize ha, hsize hb⟩
  have hsmall : 128 * roundoff (20 * d + 128) * (2 * reach d) ≤ (Constants.ofDigits d).tol.value := by
    linarith
  have hδ : 4 * roundoff (20 * d + 128) * reach d ≤ (Constants.ofDigits d).tol.value / 2 := by linarith
  have hslack {i : Interval} {y : ℝ} (h : IsCoordinate d i y) :
      Interval.Slack (4 * roundoff (20 * d + 128) * reach d
        + 10 * roundoff (20 * d + 128) * (2 * reach d)) i.realWidth (Constants.ofDigits d).tol.value := by
    refine Interval.Slack.of_le (by linarith) (by linarith : _ ≤ 24 * (roundoff (20 * d + 128) * reach d))
      h.near.realWidth_le (by linarith) ?_
    have hone : 24 * (roundoff (20 * d + 128) * reach d) ≤ reach d := by linarith
    have hmul := mul_le_mul_of_nonneg_left (add_le_add_right hone (2 * reach d))
      (by linarith : 0 ≤ 24 * (roundoff (20 * d + 128) * reach d))
    linarith
  exact hnear.mem_onLine hc (by linarith) hsmall hδ hδ (hnear.isOnLine hc (hslack ha) (hslack hb))

/-- **Completeness of the scaled search.** -/
theorem mem_onLineScaledBy_of_coordinates (hd : 0 < d) {exponent : BinFloat → Int}
    (hexp : Scales exponent (1 / 2 ^ (17 + 4 * d)) (2 ^ (18 + 4 * d)))
    (ha : IsCoordinate d a (real x)) (hb : IsCoordinate d b (real x.dot)) :
    x ∈ onLineScaledBy exponent a b (Constants.ofDigits d) := by
  by_cases hpos : 0 < a.width.value
  · have hM : 1 ≤ reach d := le_trans (by norm_num) (reach_bounds hd).1
    have hδ : 4 * roundoff (20 * d + 128) * reach d ≤ reach d := by
      have hu1 := Constants.roundoff_le_of_digits d
      exact mul_le_of_le_one_left (by linarith) (by linarith)
    obtain ⟨hlow, hhigh⟩ := ha.width_bounds hd hpos
    obtain ⟨hscale, hscale'⟩ := hexp a.width hlow hhigh
    obtain ⟨e, f, hscalable⟩ := exists_scalable hd ha hb hpos hscale hscale'
    exact hscalable.mem_onLineScaledBy (Constants.ofDigits_accurateScale hd) hpos ha.near hb.near hM hδ hδ
  · unfold onLineScaledBy
    rw [if_neg (mt isPositive_iff.1 hpos)]
    exact mem_onLine_of_coordinates hd ha hb

/-- **Completeness of the balanced search**, whichever interval is the wider one. -/
theorem mem_onLineBalancedBy_of_coordinates (hd : 0 < d) {exponent : BinFloat → Int}
    (hexp : Scales exponent (1 / 2 ^ (17 + 4 * d)) (2 ^ (18 + 4 * d)))
    (ha : IsCoordinate d a (real x)) (hb : IsCoordinate d b (real x.dot)) :
    x ∈ onLineBalancedBy exponent a b (Constants.ofDigits d) := by
  refine mem_onLineBalancedBy (fun _ => ?_) fun _ => ?_
  · exact mem_onLineScaledBy_of_coordinates hd hexp ha hb
  · exact mem_onLineScaledBy_of_coordinates hd hexp hb (by rwa [ZSqrt2.dot_dot])

end Coordinate

/-! ## Moderate intervals -/

section Moderate

variable {d : ℕ} {i : Interval} {y σ : ℝ} {s : BinFloat}

/-- An interval as it is. -/
theorem isCoordinate_of_moderate (hd : 0 < d) (h : i.IsModerate (20 * d + 128) (16 + 4 * d))
    (hold : i.Holds y) : IsCoordinate d i y := by
  have hu := roundoff_pos (20 * d + 128)
  have hM : 0 ≤ 4 * roundoff (20 * d + 128) * reach d := by
    have := (reach_bounds hd).1
    exact mul_nonneg (by linarith) (by linarith)
  have hpos : (0 : ℝ) < 2 ^ (16 + 4 * d) := by positivity
  refine ⟨⟨h.prec_lo.ge, h.prec_hi.ge, ?_, ?_, hold.1.trans hold.2, ?_, ?_⟩, h.width.imp_right fun hw => ?_⟩
  · exact h.abs_lo_le.trans (by unfold reach; linarith)
  · exact h.abs_hi_le.trans (by unfold reach; linarith)
  · linarith [hold.1]
  · linarith [hold.2]
  · refine le_trans ?_ hw
    rw [div_le_div_iff_of_pos_right hpos]
    norm_num

/-- The interval moved: two ends with one value stay together, and ends that are apart stay apart. -/
theorem isCoordinate_add (hd : 0 < d) (h : i.IsModerate (20 * d + 128) (16 + 4 * d)) (hold : i.Holds y)
    (hσ : |σ| ≤ 1) (hs : Within (12 * roundoff (20 * d + 128)) s.value σ) :
    IsCoordinate d (i.add s) (y + σ) := by
  have hu := roundoff_pos (20 * d + 128)
  have hp : 20 ≤ 20 * d + 128 := by omega
  have hpow : (2 : ℝ) ^ 20 ≤ 2 ^ (16 + 4 * d) := pow_le_pow_right₀ (by norm_num) (by omega)
  have hnear : i.Near (20 * d + 128) (2 ^ (16 + 4 * d)) 0 y :=
    ⟨h.prec_lo.ge, h.prec_hi.ge, h.abs_lo_le, h.abs_hi_le, hold.1.trans hold.2, by linarith [hold.1],
      by linarith [hold.2]⟩
  have hsmall : 64 * roundoff (20 * d + 128) * 2 ^ (16 + 4 * d) ≤ 1 / 2 ^ (16 + 4 * d) := by
    have h64 : (64 : ℝ) = 2 ^ 6 := by norm_num
    rw [roundoff_eq, h64, mul_one_div, div_mul_eq_mul_div,
      div_le_div_iff₀ (by positivity) (by positivity), one_mul, ← pow_add, ← pow_add]
    exact pow_le_pow_right₀ (by norm_num) (by omega)
  have hle1 : (1 : ℝ) / 2 ^ (16 + 4 * d) ≤ 1 := (div_le_one (by positivity)).2 (by linarith)
  have hlo := abs_le.1 (Interval.Near.abs_add_sub_le hp h.prec_lo.ge h.abs_lo_le (by linarith) hσ hs)
  have hhi := abs_le.1 (Interval.Near.abs_add_sub_le hp h.prec_hi.ge h.abs_hi_le (by linarith) hσ hs)
  have hwidth : (i.add s).realWidth = 0 ∨ 3 / 4 / 2 ^ (16 + 4 * d) ≤ (i.add s).realWidth := by
    refine h.width.imp (fun h0 => ?_) fun hw => ?_
    · exact sub_eq_zero.2 (value_add_congr (sub_eq_zero.1 h0) (h.prec_hi.trans h.prec_lo.symm))
    · have hsplit : (3 : ℝ) / 4 / 2 ^ (16 + 4 * d) = 1 / 2 ^ (16 + 4 * d) * (3 / 4) := by ring
      show _ ≤ (i.hi + s).value - (i.lo + s).value
      rw [hsplit]
      linarith [hlo.2, hhi.1]
  have hord : (i.add s).lo.value ≤ (i.add s).hi.value := by
    have hpos : (0 : ℝ) ≤ 3 / 4 / 2 ^ (16 + 4 * d) := by positivity
    rcases hwidth with h0 | hw
    · exact (sub_eq_zero.1 h0).ge
    · exact sub_nonneg.1 (hpos.trans hw)
  have hmoved := hnear.add hp (by linarith) (by linarith) hσ hs hord
  refine ⟨hmoved.mono le_rfl ?_, hwidth⟩
  rw [zero_add]
  refine mul_le_mul_of_nonneg_left ?_ (by linarith)
  unfold reach
  linarith

end Moderate

/-! ## Every member once -/

section Once

variable {o : Options} {ctx : Context} {a b : Interval} {x : ZSqrt2}

/-- A member is found by the plain search, and by those that scale, whatever the exponents are that bring widths
to about one. -/
theorem mem_of_moderate (hctx : Context.ofOptions o = .ok ctx)
    (ha : a.IsModerate ctx.prec (16 + 4 * ctx.digits)) (hb : b.IsModerate ctx.prec (16 + 4 * ctx.digits))
    (hx : a.Holds (real x)) (hdot : b.Holds (real x.dot)) :
    x ∈ onLine a b ctx.toConstants ∧
      ∀ exponent, Scales exponent (1 / 2 ^ (17 + 4 * ctx.digits)) (2 ^ (18 + 4 * ctx.digits)) →
        x ∈ onLineScaledBy exponent a b ctx.toConstants ∧ x ∈ onLineBalancedBy exponent a b ctx.toConstants := by
  obtain ⟨hd, hdigits⟩ := Context.eq_ofDigits hctx
  rw [hdigits] at ha hb ⊢
  have hfst := isCoordinate_of_moderate hd ha hx
  have hsnd := isCoordinate_of_moderate hd hb hdot
  exact ⟨mem_onLine_of_coordinates hd hfst hsnd, fun exponent hexp =>
    ⟨mem_onLineScaledBy_of_coordinates hd hexp hfst hsnd, mem_onLineBalancedBy_of_coordinates hd hexp hfst hsnd⟩⟩

end Once

end GridPoints

end CliffordT
