/-
The grid problem on the line.

For an `x` of `ℤ[√2]` with both embeddings near the two intervals, the bounds of the enumeration are wide
enough for its two coefficients, and what is left is the test of membership. Scaling the first interval by
a power of `λ` and the second by the conjugate of that power scales the two embeddings of `x`, so that the
scaled problem has `x` times a unit among its solutions. Every list has each of its elements once.
-/
import CliffordT.Grid.Points
import CliffordT.Proofs.Plane.Interval
import CliffordT.Proofs.Ring.Powers

namespace CliffordT

open BinFloat

/-! ## The constants of the line -/

/-- The constants that the line needs are what they stand for, up to a few rounding errors; the tolerance
is far above them. -/
structure Constants.AccurateScale (c : Constants) : Prop extends c.Accurate where
  lambda : Within (5 * roundoff c.prec) c.lambda.value lambdaReal
  prec_lambda : c.lambda.prec = c.prec
  lambdaInv : Within (10 * roundoff c.prec) c.lambdaInv.value lambdaReal⁻¹
  prec_lambdaInv : c.lambdaInv.prec = c.prec
  halfInvSqrt2 : Within (12 * roundoff c.prec) c.halfInvSqrt2.value (1 / √2 / 2)
  prec_halfInvSqrt2 : c.halfInvSqrt2.prec = c.prec
  le_tol : 2 ^ 96 * roundoff c.prec ≤ c.tol.value
  tol_le : c.tol.value ≤ 1 / 10 ^ 14

theorem Constants.ofDigits_accurateScale {digits : Nat} (hd : 0 < digits) :
    (Constants.ofDigits digits).AccurateScale where
  toAccurate := ofDigits_accurate hd
  lambda := lambda_within digits
  prec_lambda := prec_lambda digits
  lambdaInv := lambdaInv_within digits
  prec_lambdaInv := prec_lambdaInv digits
  halfInvSqrt2 := by
    have h := (ofDigits_accurate hd).invSqrt2
    have hvalue : (ofDigits digits).halfInvSqrt2.value = (ofDigits digits).invSqrt2.value * 2 ^ (-1 : ℤ) :=
      value_scaleTwo _ _
    have hhalf : (2 : ℝ) ^ (-1 : ℤ) = 1 / 2 := by norm_num
    have hsplit : (ofDigits digits).invSqrt2.value * (1 / 2) - 1 / √2 / 2
        = ((ofDigits digits).invSqrt2.value - 1 / √2) * (1 / 2) := by ring
    unfold Within
    rw [hvalue, hhalf, hsplit, abs_mul, abs_div (1 / √2), abs_of_pos (by norm_num : (0 : ℝ) < 1 / 2),
      abs_of_pos (by norm_num : (0 : ℝ) < 2)]
    have := h.sub_le
    linarith
  prec_halfInvSqrt2 := (prec_scaleTwo _ _).trans (ofDigits_accurate hd).prec_invSqrt2
  le_tol := (tol_bounds hd).1
  tol_le := (tol_bounds hd).2

theorem Constants.AccurateScale.tol_pos {c : Constants} (hc : c.AccurateScale) : 0 < c.tol.value :=
  lt_of_lt_of_le (mul_pos (by norm_num) (roundoff_pos c.prec)) hc.le_tol

namespace ZSqrt2

/-! ## The two embeddings -/

variable {x : ZSqrt2} {S : ℝ}

/-- The coefficients are sums and differences of the embeddings. -/
theorem abs_coefficients_le (h : |real x| ≤ S) (h' : |real x.dot| ≤ S) :
    |(x.a : ℝ)| ≤ S ∧ |(x.b : ℝ) * √2| ≤ S := by
  rw [real_apply] at h
  rw [real_dot] at h'
  obtain ⟨h1, h2⟩ := abs_le.1 h
  obtain ⟨h3, h4⟩ := abs_le.1 h'
  exact ⟨abs_le.2 ⟨by linarith, by linarith⟩, abs_le.2 ⟨by linarith, by linarith⟩⟩

/-! ## The computed embeddings -/

section Rounded

variable {c : Constants}

theorem root_within (hc : c.Accurate) (n : ℤ) :
    Within (6 * roundoff c.prec) (c.int n * c.sqrt2).value (n * √2) := by
  have hu := roundoff_pos c.prec
  have hu1 := roundoff_le_of_le (hc.prec_ge.trans' (by norm_num))
  have hexact := hc.sqrt2.mul (by linarith) (value_ofInt_within n c.prec)
  rw [mul_comm c.sqrt2.value, mul_comm √2] at hexact
  have hround := value_mul_within (x := c.int n) (y := c.sqrt2) (p := c.prec)
    (hc.prec_sqrt2.symm ▸ le_max_right _ _)
  exact (hround.trans hu.le (by linarith) hexact).mono (by linarith)

/-- The sum of a computed integer and a computed multiple of the root. -/
theorem abs_int_add_sub_le (hc : c.Accurate) {m : ℤ} {z : BinFloat} {w : ℝ} (hm : |(m : ℝ)| ≤ S)
    (hz : |z.value - w| ≤ 6 * roundoff c.prec * S) (hsum : |m + w| ≤ S) :
    |(c.int m + z).value - (m + w)| ≤ 10 * roundoff c.prec * S := by
  have hu := roundoff_pos c.prec
  have hu1 := roundoff_le_of_le (hc.prec_ge.trans' (by norm_num))
  have hS : 0 ≤ S := (abs_nonneg _).trans hm
  have hint : |(c.int m).value - m| ≤ roundoff c.prec * S :=
    (value_ofInt_within m c.prec).sub_le.trans (mul_le_mul_of_nonneg_left hm hu.le)
  have hexact : |(c.int m).value + z.value - (m + w)| ≤ 7 * roundoff c.prec * S := by
    rw [add_sub_add_comm]
    exact (abs_add_le _ _).trans (by linarith)
  have hsize : |(c.int m).value + z.value| ≤ 3 / 2 * S := by
    have htri := abs_sub_abs_le_abs_sub ((c.int m).value + z.value) (m + w)
    have hsmall := mul_le_mul_of_nonneg_right hu1 hS
    linarith
  have hround := (value_add_within (x := c.int m) (y := z) (p := c.prec)
    ((prec_ofInt m c.prec).symm ▸ le_max_left _ _)).sub_le
  have hscale : 2 * roundoff c.prec * |(c.int m).value + z.value| ≤ 2 * roundoff c.prec * (3 / 2 * S) :=
    mul_le_mul_of_nonneg_left hsize (by linarith)
  have htri := abs_sub_le (c.int m + z).value ((c.int m).value + z.value) (m + w)
  linarith

theorem abs_toReal_sub_le (hc : c.Accurate) (h : |real x| ≤ S) (h' : |real x.dot| ≤ S) :
    |(x.toReal c).value - real x| ≤ 10 * roundoff c.prec * S := by
  have hu := roundoff_pos c.prec
  obtain ⟨ha, hb⟩ := abs_coefficients_le h h'
  rw [real_apply] at h ⊢
  exact abs_int_add_sub_le hc ha
    ((root_within hc x.b).sub_le.trans (mul_le_mul_of_nonneg_left hb (by linarith))) h

theorem abs_toRealDot_sub_le (hc : c.Accurate) (h : |real x| ≤ S) (h' : |real x.dot| ≤ S) :
    |(x.toRealDot c).value - real x.dot| ≤ 10 * roundoff c.prec * S := by
  have hu := roundoff_pos c.prec
  obtain ⟨ha, hb⟩ := abs_coefficients_le h h'
  rw [real_dot, sub_eq_add_neg] at h' ⊢
  refine abs_int_add_sub_le hc ha (z := -(c.int x.b * c.sqrt2)) ?_ h'
  rw [value_neg, neg_sub_neg, abs_sub_comm]
  exact (root_within hc x.b).sub_le.trans (mul_le_mul_of_nonneg_left hb (by linarith))

end Rounded

end ZSqrt2

namespace GridPoints

open ZSqrt2 (real)

/-! ## The enumeration -/

section Enumeration

variable {c : Constants} {S δ η : ℝ}

theorem ceil_eq (x : BinFloat) : x.ceil = ⌈x.value⌉ := by
  unfold BinFloat.ceil
  rw [floor_eq, value_neg, Int.floor_neg, neg_neg]

/-- An integer between two computed numbers, up to three quarters of the tolerance. -/
theorem mem_integersWithin (hc : c.AccurateScale) {lo hi : BinFloat} {n : ℤ} (hS : 1 ≤ S)
    (hsmall : 128 * roundoff c.prec * S ≤ c.tol.value) (hprec_lo : c.prec ≤ lo.prec)
    (hprec_hi : c.prec ≤ hi.prec) (habs_lo : |lo.value| ≤ 4 * S) (habs_hi : |hi.value| ≤ 4 * S)
    (hlo : lo.value ≤ n + 3 / 4 * c.tol.value) (hhi : n ≤ hi.value + 3 / 4 * c.tol.value) :
    n ∈ integersWithin lo hi c := by
  have hu := roundoff_pos c.prec
  have htol := hc.tol_le
  have htol0 := hc.tol_pos
  have hround_lo := (value_sub_within (x := lo) (y := c.tol) (p := c.prec)
    (hprec_lo.trans (le_max_left _ _))).sub_le
  have hround_hi := (value_add_within (x := hi) (y := c.tol) (p := c.prec)
    (hprec_hi.trans (le_max_left _ _))).sub_le
  have hsub : |lo.value - c.tol.value| ≤ 5 * S := by
    have := abs_sub lo.value c.tol.value
    rw [abs_of_pos htol0] at this
    linarith
  have hadd : |hi.value + c.tol.value| ≤ 5 * S := by
    have := abs_add_le hi.value c.tol.value
    rw [abs_of_pos htol0] at this
    linarith
  have hlo' := mul_le_mul_of_nonneg_left hsub (by linarith : 0 ≤ 2 * roundoff c.prec)
  have hhi' := mul_le_mul_of_nonneg_left hadd (by linarith : 0 ≤ 2 * roundoff c.prec)
  unfold integersWithin
  rw [mem_integersBetween, ceil_eq, floor_eq, Int.ceil_le, Int.le_floor]
  constructor
  · linarith [(abs_le.1 hround_lo).2]
  · linarith [(abs_le.1 hround_hi).1]

theorem half_inv_sqrt_two_bounds : 0 < 1 / √2 / 2 ∧ 1 / √2 / 2 ≤ 1 / 2 := by
  have hroot := sqrt_two_bounds
  have hpos : 0 < √2 := by linarith
  refine ⟨by positivity, ?_⟩
  rw [div_le_div_iff_of_pos_right (by norm_num), div_le_one hpos]
  linarith

/-- The difference of two ends gives a bound of the multiple of the root. -/
theorem abs_bound_sub_le (hc : c.AccurateScale) {y z : BinFloat} (hprec : c.prec ≤ y.prec)
    (hy : |y.value| ≤ S) (hz : |z.value| ≤ S) :
    |((y - z) * c.halfInvSqrt2).value - (y.value - z.value) * (1 / √2 / 2)|
      ≤ 18 * roundoff c.prec * S ∧
    |((y - z) * c.halfInvSqrt2).value| ≤ 4 * S := by
  have hu := roundoff_pos c.prec
  have hu1 := roundoff_le_of_le (hc.prec_ge.trans' (by norm_num))
  have hhalf := half_inv_sqrt_two_bounds
  have hS : 0 ≤ S := (abs_nonneg _).trans hy
  have hsub := value_sub_within (x := y) (y := z) (p := c.prec) (hprec.trans (le_max_left _ _))
  have hround := value_mul_within (x := y - z) (y := c.halfInvSqrt2) (p := c.prec)
    (hc.prec_halfInvSqrt2.symm ▸ le_max_right _ _)
  have hexact := hc.halfInvSqrt2.mul (by linarith) hsub
  rw [mul_comm c.halfInvSqrt2.value, mul_comm (1 / √2 / 2)] at hexact
  have hprod := (hround.trans hu.le (by linarith) hexact).mono (f := 18 * roundoff c.prec) (by linarith)
  have hsize : |(y.value - z.value) * (1 / √2 / 2)| ≤ S := by
    rw [abs_mul, abs_of_pos hhalf.1]
    have hdiff : |y.value - z.value| ≤ 2 * S := (abs_sub _ _).trans (by linarith)
    have := mul_le_mul hdiff hhalf.2 hhalf.1.le (by linarith)
    linarith
  constructor
  · exact hprod.sub_le.trans (mul_le_mul_of_nonneg_left hsize (by linarith))
  · refine hprod.abs_le.trans ((mul_le_mul_of_nonneg_left hsize (by linarith)).trans ?_)
    exact mul_le_mul_of_nonneg_right (by linarith) hS

/-- An end less a multiple of the root gives a bound of the integer part. -/
theorem abs_offset_sub_le (hc : c.AccurateScale) {y : BinFloat} {n : ℤ} (hprec : c.prec ≤ y.prec)
    (hy : |y.value| ≤ S) (hn : |(n : ℝ) * √2| ≤ S) :
    |(y - c.int n * c.sqrt2).value - (y.value - n * √2)| ≤ 12 * roundoff c.prec * S ∧
      |(y - c.int n * c.sqrt2).value| ≤ 4 * S := by
  have hu := roundoff_pos c.prec
  have hu1 := roundoff_le_of_le (hc.prec_ge.trans' (by norm_num))
  have hoffset : |(c.int n * c.sqrt2).value - n * √2| ≤ 6 * roundoff c.prec * S :=
    (ZSqrt2.root_within hc.toAccurate n).sub_le.trans (mul_le_mul_of_nonneg_left hn (by linarith))
  generalize c.int n * c.sqrt2 = offset at hoffset ⊢
  have hround := (value_sub_within (x := y) (y := offset) (p := c.prec)
    (hprec.trans (le_max_left _ _))).sub_le
  have hS : 0 ≤ S := (abs_nonneg _).trans hy
  have hus : roundoff c.prec * S ≤ 1 / 2 ^ 20 * S := mul_le_mul_of_nonneg_right hu1 hS
  have habs : |offset.value| ≤ 2 * S := by
    have := abs_sub_abs_le_abs_sub offset.value (n * √2)
    linarith
  have hdiff : |y.value - offset.value| ≤ 3 * S := (abs_sub _ _).trans (by linarith)
  have hscale : 2 * roundoff c.prec * |y.value - offset.value| ≤ 2 * roundoff c.prec * (3 * S) :=
    mul_le_mul_of_nonneg_left hdiff (by linarith)
  constructor
  · have htri := abs_sub_le (y - offset).value (y.value - offset.value) (y.value - n * √2)
    rw [sub_sub_sub_cancel_left, abs_sub_comm (n * √2 : ℝ)] at htri
    linarith
  · have htri := abs_sub_abs_le_abs_sub (y - offset).value (y.value - offset.value)
    linarith

/-- The embeddings of an `x` near two intervals. -/
structure NearBoth (c : Constants) (a b : Interval) (S δ η : ℝ) (x : ZSqrt2) : Prop where
  fst : a.Near c.prec S δ (real x)
  snd : b.Near c.prec S η (real x.dot)
  abs_fst_le : |real x| ≤ S
  abs_snd_le : |real x.dot| ≤ S

variable {a b : Interval} {x : ZSqrt2}

/-- The multiple of the root is among those that are looked at. -/
theorem NearBoth.mem_multiples (h : NearBoth c a b S δ η x) (hc : c.AccurateScale) (hS : 1 ≤ S)
    (hsmall : 128 * roundoff c.prec * S ≤ c.tol.value) (hδ : δ ≤ c.tol.value / 2)
    (hη : η ≤ c.tol.value / 2) :
    x.b ∈ integersWithin ((a.lo - b.hi) * c.halfInvSqrt2) ((a.hi - b.lo) * c.halfInvSqrt2) c := by
  have htol0 := hc.tol_pos
  have hhalf := half_inv_sqrt_two_bounds
  have hy : (real x - real x.dot) * (1 / √2 / 2) = x.b := by
    rw [ZSqrt2.real_apply, ZSqrt2.real_dot]
    field_simp
    ring
  have hroom : (δ + η) * (1 / √2 / 2) ≤ c.tol.value / 2 := by
    rcases le_or_gt (δ + η) 0 with hneg | hpos
    · have := mul_nonpos_of_nonpos_of_nonneg hneg hhalf.1.le
      linarith
    · have := mul_le_mul_of_nonneg_left hhalf.2 hpos.le
      linarith
  have hlo : (a.lo.value - b.hi.value) * (1 / √2 / 2) ≤ x.b + c.tol.value / 2 := by
    have hle : a.lo.value - b.hi.value ≤ (real x - real x.dot) + (δ + η) := by
      linarith [h.fst.lo_le, h.snd.le_hi]
    have := mul_le_mul_of_nonneg_right hle hhalf.1.le
    linarith
  have hhi : (x.b : ℝ) ≤ (a.hi.value - b.lo.value) * (1 / √2 / 2) + c.tol.value / 2 := by
    have hle : real x - real x.dot ≤ (a.hi.value - b.lo.value) + (δ + η) := by
      linarith [h.fst.le_hi, h.snd.lo_le]
    have := mul_le_mul_of_nonneg_right hle hhalf.1.le
    linarith
  have hprec {y z : BinFloat} (hy : c.prec ≤ y.prec) : c.prec ≤ ((y - z) * c.halfInvSqrt2).prec := by
    rw [prec_mul, prec_sub]
    exact le_max_of_le_left (le_max_of_le_left hy)
  obtain ⟨hlow, hlow_abs⟩ :=
    abs_bound_sub_le hc (z := b.hi) h.fst.prec_lo h.fst.abs_lo_le h.snd.abs_hi_le
  obtain ⟨hhigh, hhigh_abs⟩ :=
    abs_bound_sub_le hc (z := b.lo) h.fst.prec_hi h.fst.abs_hi_le h.snd.abs_lo_le
  exact mem_integersWithin hc hS hsmall (hprec h.fst.prec_lo) (hprec h.fst.prec_hi) hlow_abs hhigh_abs
    (by linarith [(abs_le.1 hlow).2]) (by linarith [(abs_le.1 hhigh).1])

/-- **The enumeration reaches** every `x` with embeddings near the intervals; what is left to do is the
test of membership. -/
theorem NearBoth.mem_onLine (h : NearBoth c a b S δ η x) (hc : c.AccurateScale) (hS : 1 ≤ S)
    (hsmall : 128 * roundoff c.prec * S ≤ c.tol.value) (hδ : δ ≤ c.tol.value / 2)
    (hη : η ≤ c.tol.value / 2) (hon : isOnLine a b c x = true) : x ∈ onLine a b c := by
  have htol0 := hc.tol_pos
  obtain ⟨-, hxb⟩ := ZSqrt2.abs_coefficients_le h.abs_fst_le h.abs_snd_le
  have heq := ZSqrt2.real_apply x
  obtain ⟨hfirst, hfirst_abs⟩ := abs_offset_sub_le hc h.fst.prec_lo h.fst.abs_lo_le hxb
  obtain ⟨hlast, hlast_abs⟩ := abs_offset_sub_le hc h.fst.prec_hi h.fst.abs_hi_le hxb
  have hprec {y : BinFloat} (hy : c.prec ≤ y.prec) : c.prec ≤ (y - c.int x.b * c.sqrt2).prec := by
    rw [prec_sub]
    exact le_max_of_le_left hy
  have hmem : x.a ∈ integersWithin (a.lo - c.int x.b * c.sqrt2) (a.hi - c.int x.b * c.sqrt2) c :=
    mem_integersWithin hc hS hsmall (hprec h.fst.prec_lo) (hprec h.fst.prec_hi) hfirst_abs hlast_abs
      (by linarith [(abs_le.1 hfirst).2, h.fst.lo_le]) (by linarith [(abs_le.1 hlast).1, h.fst.le_hi])
  unfold onLine
  rw [List.mem_flatMap]
  exact ⟨x.b, h.mem_multiples hc hS hsmall hδ hη,
    List.mem_filter.2 ⟨List.mem_map.2 ⟨x.a, hmem, rfl⟩, hon⟩⟩

/-- **The test of membership** accepts every `x` whose embeddings are outside by no more than the slack
of the intervals. -/
theorem NearBoth.isOnLine (h : NearBoth c a b S δ η x) (hc : c.AccurateScale)
    (ha : Interval.Slack (δ + 10 * roundoff c.prec * S) a.realWidth c.tol.value)
    (hb : Interval.Slack (η + 10 * roundoff c.prec * S) b.realWidth c.tol.value) :
    isOnLine a b c x = true := by
  have hp : 20 ≤ c.prec := hc.prec_ge.trans' (by norm_num)
  have hx := abs_le.1 (ZSqrt2.abs_toReal_sub_le hc.toAccurate h.abs_fst_le h.abs_snd_le)
  have hx' := abs_le.1 (ZSqrt2.abs_toRealDot_sub_le hc.toAccurate h.abs_fst_le h.abs_snd_le)
  unfold GridPoints.isOnLine
  rw [Bool.and_eq_true]
  constructor
  · exact Interval.contains_of_slack hp h.fst.prec_lo h.fst.prec_hi (by linarith [h.fst.lo_le])
      (by linarith [h.fst.le_hi]) ha
  · exact Interval.contains_of_slack hp h.snd.prec_lo h.snd.prec_hi (by linarith [h.snd.lo_le])
      (by linarith [h.snd.le_hi]) hb

end Enumeration

end GridPoints

end CliffordT
