/-
The accuracy of sine and cosine.

At the working precision of `p + 32` bits and one more for each bit of the integer part, the argument less a
multiple of the computed 2π is near the argument less that multiple of 2π, and at most about π. What the computed
2π is off by, `C` units behind its last place, counts once for each whole turn; the bits that are added for the
integer part take this up, so that `C * 2⁻ᵖ⁻³²` is what the reduction costs altogether. The series then give sine
and cosine up to their rounding errors, of some hundred units for each of a little more than `wp` steps.

Two ranges of the argument are worked out: `sinCos_spec` for every argument that the machine's numbers can hold,
where `C` may be as large as `2 ^ 36`; and `sinCos_accurate` for a precision and a size of at most about a million
bits, where the guard bits leave little more than the last rounding.
-/
import Mathlib.Analysis.SpecialFunctions.Trigonometric.Bounds
import CliffordT.Proofs.BinFloat.Compare
import CliffordT.Proofs.BinFloat.Pi
import CliffordT.Proofs.BinFloat.Series

namespace CliffordT.BinFloat

/-! ## The reduction of the argument -/

theorem abs_value_le_integerBits (x : BinFloat) : |x.value| ≤ 2 ^ integerBits x := by
  unfold integerBits
  split
  · rename_i hzero
    rw [isZero_iff.1 hzero, abs_zero]
    positivity
  · refine (abs_value_lt_top x).le.trans ?_
    rw [← zpow_natCast]
    exact zpow_le_zpow_right₀ (by norm_num) (by omega)

theorem integerBits_le_of_abs_lt {x : BinFloat} {I : Nat} (hx : |x.value| < 2 ^ I) : integerBits x ≤ I := by
  unfold integerBits
  split
  · exact Nat.zero_le I
  · rename_i hzero
    have hmant : x.mant ≠ 0 := by rwa [isZero_iff, value_eq_zero_iff] at hzero
    rw [← zpow_natCast] at hx
    have htop : x.top - 1 < I :=
      (zpow_lt_zpow_iff_right₀ (by norm_num)).1 ((two_zpow_top_le hmant).trans_lt hx)
    omega

/-- Sine and cosine are computed with a working precision of 32 bits, in which the integer bits of the argument are
counted in full. -/
def InRange (x : BinFloat) : Prop := x.prec + 32 + x.integerBits < 2 ^ 32

instance (x : BinFloat) : Decidable x.InRange := inferInstanceAs (Decidable (_ < _))

section

variable {x : BinFloat}

theorem InRange.trigPrec_eq (hx : x.InRange) : trigPrec x = x.prec + 32 + integerBits x := by
  unfold InRange at hx
  rw [trigPrec, Nat.mod_eq_of_lt (by omega)]

theorem InRange.trigPrec_lt (hx : x.InRange) : trigPrec x < 2 ^ 32 := hx.trigPrec_eq ▸ hx

/-- Without room for the working precision there is neither sine nor cosine. -/
theorem sinCos_eq_overflow (h : 2 ^ 32 ≤ trigPrec x) : x.sinCos = .error .overflow := if_pos h

/-- What has a sine is in range, unless bits of it were not counted. -/
theorem inRange_of_sinCos {p : BinFloat × BinFloat} (h : x.sinCos = .ok p) (hbits : x.integerBits < 2 ^ 32) :
    x.InRange := by
  unfold sinCos at h
  dsimp only at h
  split at h
  · cases h
  · rename_i hwp
    rw [trigPrec, Nat.mod_eq_of_lt (show x.integerBits < 1 <<< 32 from hbits)] at hwp
    exact not_le.1 hwp

end

/-- The computed 2π. -/
theorem abs_turn_sub_le {wp : Nat} {C : ℝ} (hC : 7.3 + (6 * (wp : ℝ) + 260) / 2 ^ 32 ≤ C) :
    |((pi wp).scaleTwo 1).value - 2 * Real.pi| ≤ C * roundoff wp := by
  have hη := roundoff_pos wp
  have hsplit : ((pi wp).scaleTwo 1).value - 2 * Real.pi = 2 * ((pi wp).value - Real.pi) := by
    rw [value_scaleTwo, zpow_one]
    ring
  rw [hsplit, abs_mul, abs_two]
  calc 2 * |(pi wp).value - Real.pi|
      ≤ 2 * ((3.65 + (3 * (wp : ℝ) + 130) / 2 ^ 32) * roundoff wp) := by linarith [abs_pi_sub_le wp]
    _ = (7.3 + (6 * (wp : ℝ) + 260) / 2 ^ 32) * roundoff wp := by ring
    _ ≤ C * roundoff wp := mul_le_mul_of_nonneg_right hC hη.le

section Reduction

/-! With `t` for the computed 2π, `n` for the number of turns, `xw` for the argument at the working
precision, `pr` for the computed product of `t` and `n`, and `r` for what is left: `u` is the rounding
error, `C` what the computed 2π is off by in units of it, `w` a bound of the argument, and `v` the product
of `u` and `w`. -/

variable {t n xw pr r x u w v q C : ℝ}

/-- The turns come within half a turn of the argument. -/
theorem abs_turns_sub_le (ht0 : 0 < t) (hu : 0 < u) (hu1 : 2 * u ≤ 1) (hv : v = u * w)
    (hxw : |xw| ≤ w + v) (hq : Within (2 * u) q (xw / t)) (hn : |n - q| ≤ 1 / 2) :
    |t * n - xw| ≤ t / 2 + 3 * v := by
  have hwv : 0 ≤ w + v := (abs_nonneg xw).trans hxw
  have hw0 : 0 ≤ w := by
    rw [hv] at hwv
    nlinarith
  have hv0 : 0 ≤ v := hv ▸ mul_nonneg hu.le hw0
  have hround : |t * q - xw| ≤ 3 * v := by
    have hsplit : t * q - xw = t * (q - xw / t) := by
      rw [mul_sub, mul_div_cancel₀ xw ht0.ne']
    rw [hsplit, abs_mul, abs_of_pos ht0]
    calc t * |q - xw / t| ≤ t * (2 * u * |xw / t|) := mul_le_mul_of_nonneg_left hq.sub_le ht0.le
      _ = 2 * u * |xw| := by
          rw [abs_div, abs_of_pos ht0]
          field_simp
      _ ≤ 2 * u * (w + v) := mul_le_mul_of_nonneg_left hxw (by linarith)
      _ = 2 * v + 2 * u * v := by
          rw [hv]
          ring
      _ ≤ 3 * v := by nlinarith
  refine abs_sub_le_add (b := t * q) ?_ hround rfl
  rw [← mul_sub, abs_mul, abs_of_pos ht0]
  linarith [mul_le_mul_of_nonneg_left hn ht0.le]

/-- What is left is near the argument less the turns, and at most about π. -/
theorem reduction_bounds (hv : v = u * w) (hu : 0 < u) (hw : 1 ≤ w) (hC : 128 ≤ C) (hCv : C * v ≤ 1 / 2 ^ 12)
    (ht : |t - 2 * Real.pi| ≤ C * u) (hx : |x| ≤ w) (hxw : Within u xw x)
    (hq : Within (2 * u) q (xw / t)) (hn : |n - q| ≤ 1 / 2) (hpr : Within (4 * u) pr (t * n))
    (hr : Within (2 * u) r (xw - pr)) :
    |r - (x - 2 * Real.pi * n)| ≤ C * v ∧ |r| ≤ 3.16 := by
  have hpi3 := Real.pi_gt_d2
  have hpi4 := Real.pi_lt_d2
  have huv : u ≤ v := by
    rw [hv]
    exact le_mul_of_one_le_right hu.le hw
  have h128 := mul_le_mul_of_nonneg_right hC (hu.le.trans huv)
  have hv' : v ≤ 1 / 2 ^ 19 := by linarith only [h128, hCv]
  have ht' := abs_le.1 (ht.trans ((mul_le_mul_of_nonneg_left huv (by linarith only [hC])).trans hCv))
  have ht0 : 6.27 ≤ t := by linarith only [ht'.1, hpi3]
  have ht1 : t ≤ 6.31 := by linarith only [ht'.2, hpi4]
  have hxw1 : |xw - x| ≤ v := by
    rw [hv]
    exact hxw.sub_le.trans (mul_le_mul_of_nonneg_left hx hu.le)
  have hxw2 : |xw| ≤ w + v := by linarith [abs_sub_abs_le_abs_sub xw x]
  have hturns := abs_turns_sub_le (by linarith) hu (by linarith) hv hxw2 hq hn
  have htn : |t * n| ≤ 4.2 * w := by linarith [abs_sub_abs_le_abs_sub (t * n) xw]
  have hpr1 : |pr - t * n| ≤ 17 * v := by
    refine hpr.sub_le.trans ((mul_le_mul_of_nonneg_left htn (by linarith)).trans ?_)
    have hpos : 0 ≤ u * w := mul_nonneg hu.le (zero_le_one.trans hw)
    rw [hv]
    linarith only [hpos]
  have hleft : |xw - pr| ≤ 3.157 := by
    have hle := abs_sub_le_add (a := pr) hpr1 hturns rfl
    rw [abs_sub_comm]
    linarith only [hle, hv', ht1]
  have hr1 : |r - (xw - pr)| ≤ 7 * v := by
    refine hr.sub_le.trans ((mul_le_mul_of_nonneg_left hleft (by linarith only [hu])).trans ?_)
    linarith only [hu, huv]
  have hn1 : |n| ≤ 7 / 10 * w := by
    rw [abs_mul, abs_of_pos (by linarith : (0 : ℝ) < t)] at htn
    have hle := mul_le_mul_of_nonneg_right ht0 (abs_nonneg n)
    linarith only [hle, htn, hw]
  have hpi : |(t - 2 * Real.pi) * n| ≤ 7 / 10 * (C * v) := by
    rw [abs_mul]
    calc |t - 2 * Real.pi| * |n| ≤ C * u * (7 / 10 * w) :=
          mul_le_mul ht hn1 (abs_nonneg n) ((abs_nonneg _).trans ht)
      _ = 7 / 10 * (C * v) := by
          rw [hv]
          ring
  constructor
  · have hsplit : r - (x - 2 * Real.pi * n)
        = (r - (xw - pr)) + (xw - x) - (pr - t * n) - (t - 2 * Real.pi) * n := by ring
    rw [hsplit]
    have h1 := abs_sub ((r - (xw - pr)) + (xw - x) - (pr - t * n)) ((t - 2 * Real.pi) * n)
    have h2 := abs_sub ((r - (xw - pr)) + (xw - x)) (pr - t * n)
    have h3 := abs_add_le (r - (xw - pr)) (xw - x)
    linarith only [h1, h2, h3, hr1, hxw1, hpr1, hpi, hu, huv, h128]
  · linarith only [abs_sub_abs_le_abs_sub r (xw - pr), hleft, hr1, hv']

end Reduction

/-- The guard bits take up the size of the argument. -/
theorem roundoff_trigPrec_mul {x : BinFloat} (hx : x.InRange) :
    roundoff (trigPrec x) * 2 ^ integerBits x = roundoff x.prec / 2 ^ 32 := by
  rw [hx.trigPrec_eq, roundoff_add, mul_assoc, roundoff_mul_two_pow, roundoff_add, roundoff_eq 32]
  ring

theorem roundoff_trigPrec_le (x : BinFloat) : roundoff (trigPrec x) ≤ 1 / 2 ^ 32 * roundoff x.prec := by
  rw [← roundoff_eq 32, mul_comm, ← roundoff_add]
  exact roundoff_anti (by rw [trigPrec]; omega)

theorem prec_reduceTurn (x : BinFloat) (wp : Nat) : (reduceTurn x wp).prec = wp := by
  simp [reduceTurn, prec_pi]

/-- The argument is reduced by whole turns, at a cost that its size is a factor of. -/
theorem reduceTurn_spec {x : BinFloat} {w : ℝ} (wp : Nat) (C : ℝ) (hsize : |x.value| ≤ w) (hw : 1 ≤ w)
    (hC : 128 ≤ C) (hturn : 7.3 + (6 * (wp : ℝ) + 260) / 2 ^ 32 ≤ C)
    (hsmall : C * (roundoff wp * w) ≤ 1 / 2 ^ 12) :
    (∃ n : Int, |(reduceTurn x wp).value - (x.value - 2 * Real.pi * n)| ≤ C * (roundoff wp * w)) ∧
      |(reduceTurn x wp).value| ≤ 3.16 := by
  have hu := roundoff_pos wp
  have huw : roundoff wp ≤ roundoff wp * w := le_mul_of_one_le_right hu.le hw
  have hCu : C * roundoff wp ≤ 1 / 2 ^ 12 :=
    (mul_le_mul_of_nonneg_left huw (by linarith only [hC])).trans hsmall
  have hu' : 128 * roundoff wp ≤ 1 / 2 ^ 12 := (mul_le_mul_of_nonneg_right hC hu.le).trans hCu
  have hturn := abs_turn_sub_le hturn
  have hprec : ((pi wp).scaleTwo 1).prec = wp := by
    rw [prec_scaleTwo, prec_pi]
  unfold reduceTurn
  dsimp only
  generalize (pi wp).scaleTwo 1 = turn at hturn hprec ⊢
  have hxw := value_withPrec_within x wp
  have hxwprec := prec_withPrec x wp
  generalize x.withPrec wp = xw at hxw hxwprec ⊢
  have hturn0 : turn.value ≠ 0 := by
    intro h0
    rw [h0, zero_sub, abs_neg, abs_of_pos Real.two_pi_pos] at hturn
    linarith [Real.pi_gt_three]
  have hq : Within (2 * roundoff wp) (xw / turn).value (xw.value / turn.value) :=
    value_div_within (by simp [hprec]) hturn0
  have hn := abs_round_sub_le (xw / turn)
  generalize (xw / turn).round = n at hn ⊢
  have hprod : Within (4 * roundoff wp) (turn * ofInt n wp).value (turn.value * n) := by
    have hexact := (Within.refl le_rfl turn.value).mul (by norm_num) (value_ofInt_within n wp)
    have hround := value_mul_within (x := turn) (y := ofInt n wp) (p := wp) (by simp)
    exact (hround.trans hu.le (by linarith) hexact).mono (by linarith)
  have hr : Within (2 * roundoff wp) (xw - turn * ofInt n wp).value
      (xw.value - (turn * ofInt n wp).value) := value_sub_within (by simp [hxwprec])
  obtain ⟨hnear, hle⟩ := reduction_bounds rfl hu hw hC hsmall hturn hsize hxw hq hn hprod hr
  exact ⟨⟨n, hnear⟩, hle⟩

/-! ## Sine and cosine -/

/-- The rounding errors of all steps of a series together, against those of the last rounding. -/
theorem seriesBound_mul_roundoff_le {x : BinFloat} {P : Nat} (hx : x.InRange) (hp : x.prec ≤ P) :
    (seriesBound (trigPrec x) : ℝ) * roundoff (trigPrec x) ≤ (P + 48) / 2 ^ 32 * roundoff x.prec := by
  have hsteps : seriesBound (trigPrec x) ≤ (P + 48) * 2 ^ integerBits x := by
    have hpow : integerBits x + 1 ≤ 2 ^ integerBits x := Nat.lt_two_pow_self
    rw [seriesBound, hx.trigPrec_eq]
    nlinarith
  have hsteps' : (seriesBound (trigPrec x) : ℝ) ≤ (P + 48) * 2 ^ integerBits x := by
    exact_mod_cast hsteps
  calc (seriesBound (trigPrec x) : ℝ) * roundoff (trigPrec x)
      ≤ (P + 48) * 2 ^ integerBits x * roundoff (trigPrec x) :=
        mul_le_mul_of_nonneg_right hsteps' (roundoff_pos _).le
    _ = (P + 48) * (roundoff (trigPrec x) * 2 ^ integerBits x) := by ring
    _ = (P + 48) / 2 ^ 32 * roundoff x.prec := by
        rw [roundoff_trigPrec_mul hx]
        ring

/-- One of the two series, for a reduced argument: it ends, and how near its sum is. -/
theorem trigSeries_spec {r y : BinFloat} {wp i : Nat} {limit : ℝ} (hr : |r.value| ≤ 3.16) (hprec : r.prec = wp)
    (hbits : 4 ≤ wp) (hsmall : 180 * (seriesBound wp : ℝ) * roundoff wp ≤ 1) (hi : i = 0 ∨ i = 1)
    (hlim : HasSum (seriesTerm r.value i) limit) (hy : y.prec = wp) (hy0 : y.value = seriesTerm r.value i 0) :
    (iterate (trigStep (r * r) wp) (seriesBound wp) ⟨y, i, y⟩).goesOn wp = false ∧
      LoopEnds (untilDone (trigStep (r * r) wp)) ⟨y, i, y⟩
        (iterate (trigStep (r * r) wp) (seriesBound wp) ⟨y, i, y⟩) ∧
      |(iterate (trigStep (r * r) wp) (seriesBound wp) ⟨y, i, y⟩).sum.value - limit|
        ≤ (180 * seriesBound wp + 3) * roundoff wp := by
  have hr10 : r.value ^ 2 ≤ 10 := by
    rw [← sq_abs]
    nlinarith [abs_nonneg r.value]
  have hr2 : Within (roundoff wp) (r * r).value (r.value ^ 2) := by
    rw [sq]
    exact value_mul_within (by simp [hprec])
  obtain ⟨hdone, hsum⟩ := series_spec hr10 hi hlim hbits hsmall hr2 (by simp [hprec]) (.start hy hy0)
  exact ⟨trigStep_eq_none_iff.1 hdone, loopEnds_iterate hdone, hsum⟩

/-- Both series end, and their sums are near sine and cosine of the reduced argument. -/
theorem sinCos_series {x r : BinFloat} {wp : Nat} (hx : x.InRange) (hwp : wp = trigPrec x)
    (hreduce : r = reduceTurn x wp) (hr : |r.value| ≤ 3.16) (hsmall : 180 * (seriesBound wp : ℝ) * roundoff wp ≤ 1) :
    ∃ s c : SeriesState,
      (LoopEnds (untilDone (trigStep (r * r) wp)) ⟨r, 1, r⟩ s ∧
        LoopEnds (untilDone (trigStep (r * r) wp)) ⟨one wp, 0, one wp⟩ c ∧
        x.sinCos = .ok (s.sum.withPrec x.prec, c.sum.withPrec x.prec)) ∧
      |s.sum.value - Real.sin r.value| ≤ (180 * seriesBound wp + 3) * roundoff wp ∧
      |c.sum.value - Real.cos r.value| ≤ (180 * seriesBound wp + 3) * roundoff wp := by
  have hprec : r.prec = wp := by rw [hreduce, prec_reduceTurn]
  have hbits : 4 ≤ wp := by
    rw [hwp, trigPrec]
    omega
  obtain ⟨hsinOver, hsinEnds, hsin⟩ := trigSeries_spec hr hprec hbits hsmall (.inr rfl) (Real.hasSum_sin _) hprec
    (seriesTerm_one_zero _).symm
  obtain ⟨hcosOver, hcosEnds, hcos⟩ := trigSeries_spec hr hprec hbits hsmall (.inl rfl) (Real.hasSum_cos _) (prec_one _)
    ((value_one _).trans (seriesTerm_zero_zero _).symm)
  subst hwp hreduce
  refine ⟨_, _, ⟨hsinEnds, hcosEnds, ?_⟩, hsin, hcos⟩
  refine (if_neg (not_le.2 hx.trigPrec_lt)).trans ?_
  rw [hsinOver, hcosOver]
  rfl

/-- The last rounding, of a sum `s` that is near the function's value `f r` at a reduced argument, which is near the
value `f x` at the argument. -/
theorem trig_error {s fr y fx η a b : ℝ} (hη : 0 < η) (hseries : |s - fr| ≤ b) (hreduce : |fr - fx| ≤ a)
    (hfx : |fx| ≤ 1) (hround : Within η y s) : |y - fx| ≤ η * (1 + (a + b)) + (a + b) := by
  have hs : |s - fx| ≤ a + b := by linarith [abs_sub_le s fr fx]
  have hs1 : |s| ≤ 1 + (a + b) := by linarith [abs_sub_abs_le_abs_sub s fx]
  have hround' := hround.sub_le.trans (mul_le_mul_of_nonneg_left hs1 hη.le)
  linarith [abs_sub_le y s fx]

/-- Sine and cosine, from what the reduction of the argument and what the series cost. -/
theorem sinCos_error {x : BinFloat} {n : Int} {a b : ℝ} (hx : x.InRange)
    (hreduce : |(reduceTurn x (trigPrec x)).value - (x.value - 2 * Real.pi * n)| ≤ a)
    (hr : |(reduceTurn x (trigPrec x)).value| ≤ 3.16)
    (hseries : (180 * (seriesBound (trigPrec x) : ℝ) + 3) * roundoff (trigPrec x) ≤ b) (hb : b ≤ 1) :
    ∃ s c : SeriesState,
      (LoopEnds (untilDone (trigStep (reduceTurn x (trigPrec x) * reduceTurn x (trigPrec x)) (trigPrec x)))
          ⟨reduceTurn x (trigPrec x), 1, reduceTurn x (trigPrec x)⟩ s ∧
        LoopEnds (untilDone (trigStep (reduceTurn x (trigPrec x) * reduceTurn x (trigPrec x)) (trigPrec x)))
          ⟨one (trigPrec x), 0, one (trigPrec x)⟩ c ∧
        x.sinCos = .ok (s.sum.withPrec x.prec, c.sum.withPrec x.prec)) ∧
      |(s.sum.withPrec x.prec).value - Real.sin x.value| ≤ roundoff x.prec * (1 + (a + b)) + (a + b) ∧
      |(c.sum.withPrec x.prec).value - Real.cos x.value| ≤ roundoff x.prec * (1 + (a + b)) + (a + b) := by
  have hη := roundoff_pos x.prec
  obtain ⟨s, c, hends, hs, hc⟩ := sinCos_series hx rfl rfl hr (by linarith [roundoff_pos (trigPrec x)])
  refine ⟨s, c, hends, ?_, ?_⟩
  · have hsin := (Real.abs_sin_sub_sin_le _ _).trans hreduce
    rw [mul_comm (2 * Real.pi), Real.sin_sub_int_mul_two_pi] at hsin
    exact trig_error hη (hs.trans hseries) hsin (Real.abs_sin_le_one _) (value_withPrec_within _ _)
  · have hcos := (Real.abs_cos_sub_cos_le _ _).trans hreduce
    rw [mul_comm (2 * Real.pi), Real.cos_sub_int_mul_two_pi] at hcos
    exact trig_error hη (hc.trans hseries) hcos (Real.abs_cos_le_one _) (value_withPrec_within _ _)

/-- **Sine and cosine are accurate.** Both are within `200 · 2⁻ᵖ`, at `p` bits. -/
theorem sinCos_spec {x : BinFloat} (hlow : 64 ≤ x.prec) (hx : x.InRange) :
    ∃ s c, x.sinCos = .ok (s, c) ∧ s.prec = x.prec ∧ c.prec = x.prec ∧
      |s.value - Real.sin x.value| ≤ 200 * roundoff x.prec ∧
      |c.value - Real.cos x.value| ≤ 200 * roundoff x.prec := by
  have hη := roundoff_pos x.prec
  have hη64 : roundoff x.prec ≤ 1 / 2 ^ 64 := (roundoff_anti hlow).trans (roundoff_eq 64).le
  have hbits : (trigPrec x : ℝ) ≤ 2 ^ 32 := by exact_mod_cast hx.trigPrec_lt.le
  have hprec : x.prec ≤ 2 ^ 32 := by
    unfold InRange at hx
    omega
  have hsteps := seriesBound_mul_roundoff_le hx hprec
  have hunit := roundoff_trigPrec_le x
  have hcost : 2 ^ 36 * (roundoff (trigPrec x) * 2 ^ integerBits x) = 16 * roundoff x.prec := by
    rw [roundoff_trigPrec_mul hx]
    ring
  obtain ⟨⟨n, hn⟩, hr⟩ := reduceTurn_spec (trigPrec x) (2 ^ 36) (abs_value_le_integerBits x)
    (one_le_pow₀ (by norm_num)) (by norm_num) (by linarith) (by linarith)
  rw [hcost] at hn
  obtain ⟨s, c, ⟨-, -, heq⟩, hsin, hcos⟩ := sinCos_error (b := 182 * roundoff x.prec) hx hn hr
    (by push_cast at hsteps; linarith) (by linarith)
  have htotal : roundoff x.prec * (1 + (16 * roundoff x.prec + 182 * roundoff x.prec))
      + (16 * roundoff x.prec + 182 * roundoff x.prec) ≤ 200 * roundoff x.prec := by
    nlinarith
  exact ⟨_, _, heq, prec_withPrec _ _, prec_withPrec _ _, hsin.trans htotal, hcos.trans htotal⟩

/-- Sine and cosine at a precision of up to `2 ^ 20` bits: the guard bits leave little more than the last rounding. -/
theorem sinCos_within {x : BinFloat} (hlow : 2 ≤ x.prec) (hhigh : x.prec ≤ 2 ^ 20) (hrange : x.InRange) :
    ∃ (wp : Nat) (r : BinFloat) (s c : SeriesState), wp = trigPrec x ∧ r = reduceTurn x wp ∧
      (LoopEnds (untilDone (trigStep (r * r) wp)) ⟨r, 1, r⟩ s ∧
        LoopEnds (untilDone (trigStep (r * r) wp)) ⟨one wp, 0, one wp⟩ c ∧
        x.sinCos = .ok (s.sum.withPrec x.prec, c.sum.withPrec x.prec)) ∧
      |(s.sum.withPrec x.prec).value - Real.sin x.value| ≤ 2 * roundoff x.prec ∧
      |(c.sum.withPrec x.prec).value - Real.cos x.value| ≤ 2 * roundoff x.prec := by
  have hη := roundoff_pos x.prec
  have hη4 : roundoff x.prec ≤ 1 / 4 := roundoff_le_quarter hlow
  have hcost : 128 * (roundoff (trigPrec x) * 2 ^ integerBits x) ≤ 1 / 2 ^ 10 * roundoff x.prec := by
    rw [roundoff_trigPrec_mul hrange]
    linarith
  have hwp : (trigPrec x : ℝ) ≤ 2 ^ 32 := by exact_mod_cast hrange.trigPrec_lt.le
  have hsteps := seriesBound_mul_roundoff_le hrange hhigh
  have hunit := roundoff_trigPrec_le x
  have hseries : (180 * (seriesBound (trigPrec x) : ℝ) + 3) * roundoff (trigPrec x) ≤ 1 / 16 * roundoff x.prec := by
    push_cast at hsteps
    linarith
  obtain ⟨⟨n, hn⟩, hr⟩ := reduceTurn_spec (trigPrec x) 128 (abs_value_le_integerBits x)
    (one_le_pow₀ (by norm_num)) le_rfl (by linarith) (by linarith)
  obtain ⟨s, c, hends, hsin, hcos⟩ := sinCos_error hrange (hn.trans hcost) hr hseries (by linarith)
  have htotal : roundoff x.prec * (1 + (1 / 2 ^ 10 * roundoff x.prec + 1 / 16 * roundoff x.prec))
      + (1 / 2 ^ 10 * roundoff x.prec + 1 / 16 * roundoff x.prec) ≤ 2 * roundoff x.prec := by
    nlinarith
  exact ⟨_, _, s, c, rfl, rfl, hends, hsin.trans htotal, hcos.trans htotal⟩

end CliffordT.BinFloat
