/-
Intervals with rounded ends, and the numbers they are meant to hold.

`Near` says that a real number is between the ends of an interval, up to some distance; a negative
distance is a margin. Moving and scaling an interval moves and scales the number, and adds the rounding
errors of the ends to the distance. The test of membership looks at a product of two distances, whose sign
is never lost to rounding: a number inside is always found inside, and one outside is tolerated as long as
its distance times the width is small, which `Slack` makes precise.
-/
import CliffordT.Plane.Interval
import CliffordT.Proofs.BinFloat.Compare

namespace CliffordT

open BinFloat

namespace BinFloat

theorem roundoff_le_of_le {p : Nat} (hp : 20 ≤ p) : roundoff p ≤ 1 / 2 ^ 20 :=
  (roundoff_anti hp).trans (roundoff_eq 20).le

end BinFloat

namespace Interval

/-- The number is in the interval, the ends included. -/
def Holds (i : Interval) (y : ℝ) : Prop := i.lo.value ≤ y ∧ y ≤ i.hi.value

/-- The ends of the interval have `p` bits and are at most `2ⁿ`, and it is a point or at least `2⁻ⁿ`
wide. -/
structure IsModerate (i : Interval) (p n : ℕ) : Prop where
  prec_lo : i.lo.prec = p
  prec_hi : i.hi.prec = p
  abs_lo_le : |i.lo.value| ≤ 2 ^ n
  abs_hi_le : |i.hi.value| ≤ 2 ^ n
  width : i.hi.value - i.lo.value = 0 ∨ 1 / 2 ^ n ≤ i.hi.value - i.lo.value

/-! ## Where a number is -/

noncomputable def realWidth (i : Interval) : ℝ := i.hi.value - i.lo.value

/-- The ends of `i` have `p` bits or more and are at most `M`, and `x` is between them up to `δ`. -/
structure Near (i : Interval) (p : Nat) (M δ x : ℝ) : Prop where
  prec_lo : p ≤ i.lo.prec
  prec_hi : p ≤ i.hi.prec
  abs_lo_le : |i.lo.value| ≤ M
  abs_hi_le : |i.hi.value| ≤ M
  ordered : i.lo.value ≤ i.hi.value
  lo_le : i.lo.value ≤ x + δ
  le_hi : x ≤ i.hi.value + δ

section Spanning

variable (x y : BinFloat)

theorem value_lo_spanning : (spanning x y).lo.value = min x.value y.value := by
  unfold spanning
  split
  · rename_i h
    rw [min_eq_left (le_iff_value.1 h)]
  · rename_i h
    rw [min_eq_right (not_le.1 (mt le_iff_value.2 h)).le]

theorem value_hi_spanning : (spanning x y).hi.value = max x.value y.value := by
  unfold spanning
  split
  · rename_i h
    rw [max_eq_right (le_iff_value.1 h)]
  · rename_i h
    rw [max_eq_left (not_le.1 (mt le_iff_value.2 h)).le]

theorem realWidth_spanning : (spanning x y).realWidth = |y.value - x.value| := by
  unfold realWidth
  rw [value_lo_spanning, value_hi_spanning, max_sub_min_eq_abs]

/-- What both numbers satisfy the ends do. -/
theorem spanning_ends {P : BinFloat → Prop} (hx : P x) (hy : P y) :
    P (spanning x y).lo ∧ P (spanning x y).hi := by
  unfold spanning
  split
  · exact ⟨hx, hy⟩
  · exact ⟨hy, hx⟩

/-- A bound of the ends is one of both numbers, whichever of them is the lower end. -/
theorem abs_le_of_abs_spanning_le {M : ℝ} (hlo : |(spanning x y).lo.value| ≤ M)
    (hhi : |(spanning x y).hi.value| ≤ M) : |x.value| ≤ M ∧ |y.value| ≤ M := by
  rw [value_lo_spanning] at hlo
  rw [value_hi_spanning] at hhi
  rcases le_total x.value y.value with hle | hle
  · rw [min_eq_left hle] at hlo
    rw [max_eq_right hle] at hhi
    exact ⟨hlo, hhi⟩
  · rw [min_eq_right hle] at hlo
    rw [max_eq_left hle] at hhi
    exact ⟨hhi, hlo⟩

end Spanning

namespace Near

variable {i : Interval} {p : Nat} {M N δ η x σ e : ℝ} {s : BinFloat}

theorem mono (h : i.Near p M δ x) (hM : M ≤ N) (hδ : δ ≤ η) : i.Near p N η x where
  prec_lo := h.prec_lo
  prec_hi := h.prec_hi
  abs_lo_le := h.abs_lo_le.trans hM
  abs_hi_le := h.abs_hi_le.trans hM
  ordered := h.ordered
  lo_le := h.lo_le.trans (by linarith)
  le_hi := h.le_hi.trans (by linarith)

theorem nonneg (h : i.Near p M δ x) : 0 ≤ M := (abs_nonneg _).trans h.abs_lo_le

theorem realWidth_nonneg (h : i.Near p M δ x) : 0 ≤ i.realWidth := sub_nonneg.2 h.ordered

theorem realWidth_le (h : i.Near p M δ x) : i.realWidth ≤ 2 * M := by
  have hlo := abs_le.1 h.abs_lo_le
  have hhi := abs_le.1 h.abs_hi_le
  unfold realWidth
  linarith

theorem abs_le_add (h : i.Near p M δ x) : |x| ≤ M + δ := by
  have hlo := abs_le.1 h.abs_lo_le
  have hhi := abs_le.1 h.abs_hi_le
  refine abs_le.2 ⟨?_, ?_⟩
  · linarith [h.lo_le]
  · linarith [h.le_hi]

/-- The computed width. -/
theorem width_within (h : i.Near p M δ x) : Within (2 * roundoff p) i.width.value i.realWidth :=
  value_sub_within (h.prec_hi.trans (le_max_left _ _))

/-! ## Moving and scaling -/

/-- A number that is moved. -/
theorem abs_add_sub_le {y : BinFloat} (hp : 20 ≤ p) (hy : p ≤ y.prec) (hyM : |y.value| ≤ M)
    (hM : 20 ≤ M) (hσ : |σ| ≤ 1) (hs : Within (12 * roundoff p) s.value σ) :
    |(y + s).value - (y.value + σ)| ≤ 4 * roundoff p * M := by
  have hu := roundoff_pos p
  have hu1 := roundoff_le_of_le hp
  have hsσ : |s.value - σ| ≤ 12 * roundoff p :=
    hs.sub_le.trans (mul_le_of_le_one_right (by linarith) hσ)
  have hsum : |y.value + s.value| ≤ M + 2 := by
    have htri := abs_sub_abs_le_abs_sub s.value σ
    exact (abs_add_le _ _).trans (by linarith)
  have hround := (value_add_within (x := y) (y := s) (p := p) (hy.trans (le_max_left _ _))).sub_le
  have htri := abs_sub_le (y + s).value (y.value + s.value) (y.value + σ)
  rw [add_sub_add_left_eq_sub] at htri
  have hscale : 2 * roundoff p * |y.value + s.value| ≤ 2 * roundoff p * (M + 2) :=
    mul_le_mul_of_nonneg_left hsum (by linarith)
  have hroom : roundoff p * 20 ≤ roundoff p * M := mul_le_mul_of_nonneg_left hM hu.le
  linarith

/-- The interval moved. The order of its ends is not for free, as both are rounded. -/
theorem add (h : i.Near p M δ x) (hp : 20 ≤ p) (hM : 20 ≤ M) (hu : 4 * roundoff p * M ≤ 1)
    (hσ : |σ| ≤ 1) (hs : Within (12 * roundoff p) s.value σ)
    (hord : (i.add s).lo.value ≤ (i.add s).hi.value) :
    (i.add s).Near p (M + 2) (δ + 4 * roundoff p * M) (x + σ) := by
  have hlo := abs_add_sub_le hp h.prec_lo h.abs_lo_le hM hσ hs
  have hhi := abs_add_sub_le hp h.prec_hi h.abs_hi_le hM hσ hs
  have hsize {y : BinFloat} (hy : |y.value| ≤ M)
      (hys : |(y + s).value - (y.value + σ)| ≤ 4 * roundoff p * M) : |(y + s).value| ≤ M + 2 := by
    have htri := abs_sub_abs_le_abs_sub (y + s).value (y.value + σ)
    have hadd := abs_add_le y.value σ
    linarith
  refine ⟨?_, ?_, hsize h.abs_lo_le hlo, hsize h.abs_hi_le hhi, hord, ?_, ?_⟩
  · exact h.prec_lo.trans ((le_max_left _ _).trans (prec_add _ _).ge)
  · exact h.prec_hi.trans ((le_max_left _ _).trans (prec_add _ _).ge)
  · show (i.lo + s).value ≤ _
    linarith [(abs_le.1 hlo).2, h.lo_le]
  · show _ ≤ (i.hi + s).value + _
    linarith [(abs_le.1 hhi).1, h.le_hi]

/-- A number that is scaled. -/
theorem abs_mul_sub_le {y : BinFloat} (he : e ≤ 1) (hy : p ≤ y.prec) (hyM : |y.value| ≤ M)
    (hs : Within e s.value σ) :
    |(y * s).value - y.value * σ| ≤ (e + 2 * roundoff p) * M * |σ| := by
  have hu := roundoff_pos p
  have hround := value_mul_within (x := y) (y := s) (p := p) (hy.trans (le_max_left _ _))
  have hexact := hs.mul he (Within.refl le_rfl y.value)
  rw [mul_comm s.value, mul_comm σ, mul_zero, add_zero] at hexact
  have hprod := (hround.trans hu.le he hexact).sub_le
  have he0 : 0 ≤ e * |σ| := (abs_nonneg _).trans hs.sub_le
  rw [abs_mul] at hprod
  refine hprod.trans ?_
  have hcoeff : 0 ≤ (e + 2 * roundoff p) * |σ| := by
    have := mul_nonneg hu.le (abs_nonneg σ)
    linarith
  calc (e + 2 * roundoff p) * (|y.value| * |σ|) = (e + 2 * roundoff p) * |σ| * |y.value| := by ring
    _ ≤ (e + 2 * roundoff p) * |σ| * M := mul_le_mul_of_nonneg_left hyM hcoeff
    _ = (e + 2 * roundoff p) * M * |σ| := by ring

/-- The number scaled, between the ends scaled: a negative factor exchanges these. -/
theorem mul_between (h : i.Near p M δ x) (σ : ℝ) :
    min (i.lo.value * σ) (i.hi.value * σ) ≤ x * σ + δ * |σ| ∧
      x * σ ≤ max (i.lo.value * σ) (i.hi.value * σ) + δ * |σ| := by
  rcases le_or_gt 0 σ with hσ | hσ
  · rw [abs_of_nonneg hσ]
    refine ⟨(min_le_left _ _).trans ?_, le_trans ?_ (add_le_add_left (le_max_right _ _) _)⟩
    · nlinarith [h.lo_le]
    · nlinarith [h.le_hi]
  · rw [abs_of_neg hσ]
    refine ⟨(min_le_right _ _).trans ?_, le_trans ?_ (add_le_add_left (le_max_left _ _) _)⟩
    · nlinarith [h.le_hi]
    · nlinarith [h.lo_le]

/-- The interval scaled. -/
theorem mul (h : i.Near p M δ x) (he : e + 2 * roundoff p ≤ 1) (hs : Within e s.value σ) :
    (i.mul s).Near p (2 * M * |σ|) ((δ + (e + 2 * roundoff p) * M) * |σ|) (x * σ) := by
  have hu := roundoff_pos p
  have hM := h.nonneg
  have he1 : e ≤ 1 := by linarith
  have hlo := abs_mul_sub_le he1 h.prec_lo h.abs_lo_le hs
  have hhi := abs_mul_sub_le he1 h.prec_hi h.abs_hi_le hs
  have hsize {y : BinFloat} (hy : |y.value| ≤ M)
      (hys : |(y * s).value - y.value * σ| ≤ (e + 2 * roundoff p) * M * |σ|) :
      |(y * s).value| ≤ 2 * M * |σ| := by
    have htri := abs_sub_abs_le_abs_sub (y * s).value (y.value * σ)
    rw [abs_mul y.value] at htri
    have hyσ := mul_le_mul_of_nonneg_right hy (abs_nonneg σ)
    have heσ : (e + 2 * roundoff p) * M * |σ| ≤ 1 * M * |σ| :=
      mul_le_mul_of_nonneg_right (mul_le_mul_of_nonneg_right he hM) (abs_nonneg σ)
    linarith
  obtain ⟨hprec_lo, hprec_hi⟩ := spanning_ends (i.lo * s) (i.hi * s) (P := fun y => p ≤ y.prec)
    (h.prec_lo.trans ((le_max_left _ _).trans (prec_mul _ _).ge))
    (h.prec_hi.trans ((le_max_left _ _).trans (prec_mul _ _).ge))
  obtain ⟨habs_lo, habs_hi⟩ := spanning_ends (i.lo * s) (i.hi * s)
    (P := fun y => |y.value| ≤ 2 * M * |σ|) (hsize h.abs_lo_le hlo) (hsize h.abs_hi_le hhi)
  have hmin := value_lo_spanning (i.lo * s) (i.hi * s)
  have hmax := value_hi_spanning (i.lo * s) (i.hi * s)
  have hbetween := h.mul_between σ
  refine ⟨hprec_lo, hprec_hi, habs_lo, habs_hi, ?_, ?_, ?_⟩
  · show (spanning _ _).lo.value ≤ (spanning _ _).hi.value
    rw [hmin, hmax]
    exact min_le_max
  · show (spanning _ _).lo.value ≤ _
    rw [hmin]
    have hshift : min (i.lo * s).value (i.hi * s).value
        ≤ min (i.lo.value * σ) (i.hi.value * σ) + (e + 2 * roundoff p) * M * |σ| := by
      rw [← min_add_add_right]
      exact min_le_min (by linarith [(abs_le.1 hlo).2]) (by linarith [(abs_le.1 hhi).2])
    linarith [hbetween.1]
  · show _ ≤ (spanning _ _).hi.value + _
    rw [hmax]
    have hshift : max (i.lo.value * σ) (i.hi.value * σ)
        ≤ max (i.lo * s).value (i.hi * s).value + (e + 2 * roundoff p) * M * |σ| := by
      rw [← max_add_add_right]
      exact max_le_max (by linarith [(abs_le.1 hlo).1]) (by linarith [(abs_le.1 hhi).1])
    linarith [hbetween.2]

/-- The interval widened by more than the distance of the number, which has a margin then. -/
theorem fatten {R : ℝ} {eps : BinFloat} (h : i.Near p M δ x) (heps : 0 ≤ eps.value)
    (hδ : δ + 2 * roundoff p * (M + eps.value) ≤ eps.value) (hlo : |(i.fatten eps).lo.value| ≤ R)
    (hhi : |(i.fatten eps).hi.value| ≤ R) :
    (i.fatten eps).Near p R (δ + 2 * roundoff p * (M + eps.value) - eps.value) x := by
  have hu := roundoff_pos p
  have hround {v w : ℝ} (hv : Within (2 * roundoff p) v w) (hw : |w| ≤ M + eps.value) :
      |v - w| ≤ 2 * roundoff p * (M + eps.value) :=
    hv.sub_le.trans (mul_le_mul_of_nonneg_left hw (by linarith))
  have hsub := hround (value_sub_within (x := i.lo) (y := eps) (p := p) (h.prec_lo.trans (le_max_left _ _)))
    ((abs_sub _ _).trans (add_le_add h.abs_lo_le (abs_of_nonneg heps).le))
  have hadd := hround (value_add_within (x := i.hi) (y := eps) (p := p) (h.prec_hi.trans (le_max_left _ _)))
    ((abs_add_le _ _).trans (add_le_add h.abs_hi_le (abs_of_nonneg heps).le))
  have hlow : (i.fatten eps).lo.value
      ≤ x + (δ + 2 * roundoff p * (M + eps.value) - eps.value) := by
    show (i.lo - eps).value ≤ _
    linarith [(abs_le.1 hsub).2, h.lo_le]
  have hhigh : x ≤ (i.fatten eps).hi.value
      + (δ + 2 * roundoff p * (M + eps.value) - eps.value) := by
    show _ ≤ (i.hi + eps).value + _
    linarith [(abs_le.1 hadd).1, h.le_hi]
  refine ⟨?_, ?_, hlo, hhi, by linarith, hlow, hhigh⟩
  · exact h.prec_lo.trans ((le_max_left _ _).trans (prec_sub _ _).ge)
  · exact h.prec_hi.trans ((le_max_left _ _).trans (prec_add _ _).ge)

/-- The width of the interval scaled. -/
theorem realWidth_mul_le (h : i.Near p M δ x) (he : e ≤ 1) (hs : Within e s.value σ) :
    (i.mul s).realWidth ≤ (i.realWidth + 2 * ((e + 2 * roundoff p) * M)) * |σ| := by
  have hlo := abs_le.1 (abs_mul_sub_le he h.prec_lo h.abs_lo_le hs)
  have hhi := abs_le.1 (abs_mul_sub_le he h.prec_hi h.abs_hi_le hs)
  have hexact : |i.hi.value * σ - i.lo.value * σ| = i.realWidth * |σ| := by
    rw [← sub_mul, abs_mul]
    exact congrArg (· * |σ|) (abs_of_nonneg h.realWidth_nonneg)
  obtain ⟨h1, h2⟩ := abs_le.1 hexact.le
  show (spanning _ _).realWidth ≤ _
  rw [realWidth_spanning]
  refine abs_le.2 ⟨?_, ?_⟩
  · linarith [hlo.2, hhi.1]
  · linarith [hlo.1, hhi.2]

end Near

/-! ## Membership -/

/-- How far outside an interval of width `w` a number may be, if the tolerance is `T`; not at all, where
the distance `D` is a margin. -/
def Slack (D w T : ℝ) : Prop := D < 0 ∨ 2 * (D * (w + D)) < T

theorem Slack.mono {D E w v T : ℝ} (h : Slack E v T) (hD : D ≤ E) (hw : w ≤ v) (hw0 : 0 ≤ w) :
    Slack D w T := by
  rcases h with h | h
  · exact .inl (hD.trans_lt h)
  · rcases lt_or_ge D 0 with hneg | hpos
    · exact .inl hneg
    · refine .inr (lt_of_le_of_lt ?_ h)
      have := mul_le_mul hD (add_le_add hw hD) (add_nonneg hw0 hpos) (hpos.trans hD)
      linarith

/-- Bounds of the distance and of the width. -/
theorem Slack.of_le {D E w v T : ℝ} (hD0 : 0 ≤ D) (hD : D ≤ E) (hw : w ≤ v) (hv : 0 ≤ v)
    (h : 2 * (E * (v + E)) < T) : Slack D w T := by
  refine .inr (lt_of_le_of_lt ?_ h)
  have h1 := mul_le_mul_of_nonneg_left (add_le_add hw hD) hD0
  have h2 := mul_le_mul_of_nonneg_right hD (add_nonneg hv (hD0.trans hD))
  linarith

section Contains

variable {i : Interval} {y tol : BinFloat} {p : Nat} {D : ℝ}

/-- The computed product of the distances to the ends. -/
theorem product_within (hp : 20 ≤ p) (hprec_lo : p ≤ i.lo.prec) (hprec_hi : p ≤ i.hi.prec) :
    Within (8 * roundoff p) ((i.hi - y) * (y - i.lo)).value
      ((i.hi.value - y.value) * (y.value - i.lo.value)) := by
  have hu := roundoff_pos p
  have hu1 := roundoff_le_of_le hp
  have hleft := value_sub_within (x := i.hi) (y := y) (p := p) (hprec_hi.trans (le_max_left _ _))
  have hright := value_sub_within (x := y) (y := i.lo) (p := p) (hprec_lo.trans (le_max_right _ _))
  have hround := value_mul_within (x := i.hi - y) (y := y - i.lo) (p := p)
    (by
      rw [prec_sub, prec_sub]
      exact le_max_of_le_left (le_max_of_le_left hprec_hi))
  exact (hround.trans hu.le (by linarith) (hleft.mul (by linarith) hright)).mono (by linarith)

theorem contains_iff : i.contains y tol = true ↔ 0 < ((i.hi - y) * (y - i.lo)).value ∨
    |((i.hi - y) * (y - i.lo)).value| < tol.value := by
  unfold contains
  dsimp only
  rw [Bool.or_eq_true, isPositive_iff, decide_eq_true_iff, lt_iff_value, value_abs]

/-- **The test of membership** accepts what is outside by less than the slack. -/
theorem contains_of_slack (hp : 20 ≤ p) (hprec_lo : p ≤ i.lo.prec) (hprec_hi : p ≤ i.hi.prec)
    (hlo : i.lo.value ≤ y.value + D) (hhi : y.value ≤ i.hi.value + D)
    (hD : Slack D i.realWidth tol.value) : i.contains y tol = true := by
  have hu1 := roundoff_le_of_le hp
  -- the sign of the product is right, and its size up to a factor two
  have hhalf := ((product_within (y := y) hp hprec_lo hprec_hi).mono (f := 1 / 2) (by linarith)).sub_le
  rw [contains_iff]
  generalize ((i.hi - y) * (y - i.lo)).value = P at hhalf ⊢
  rcases lt_or_ge 0 ((i.hi.value - y.value) * (y.value - i.lo.value)) with hin | hout
  · left
    rw [abs_of_pos hin] at hhalf
    linarith [(abs_le.1 hhalf).1]
  · right
    rw [abs_of_nonpos hout] at hhalf
    have hD0 : 0 ≤ D := by
      by_contra hneg
      have h1 : 0 < i.hi.value - y.value := by linarith
      have h2 : 0 < y.value - i.lo.value := by linarith
      exact absurd (mul_pos h1 h2) (not_lt.2 hout)
    have hbound : -((i.hi.value - y.value) * (y.value - i.lo.value)) ≤ D * (i.realWidth + D) := by
      unfold realWidth
      rcases le_or_gt (i.hi.value - y.value) 0 with hneg | hpos
      · nlinarith
      · have hneg : y.value - i.lo.value ≤ 0 := by
          by_contra hlt
          exact absurd (mul_pos hpos (not_le.1 hlt)) (not_lt.2 hout)
        nlinarith
    have hslack := hD.resolve_left (not_lt.2 hD0)
    refine abs_lt.2 ⟨?_, ?_⟩
    · linarith [(abs_le.1 hhalf).1]
    · linarith [(abs_le.1 hhalf).2]

/-- It rejects what is outside by a product of distances above the tolerance. -/
theorem not_contains_of_lt (hp : 20 ≤ p) (hprec_lo : p ≤ i.lo.prec) (hprec_hi : p ≤ i.hi.prec)
    (h0 : (i.hi.value - y.value) * (y.value - i.lo.value) ≤ 0)
    (h : 101 / 100 * tol.value < -((i.hi.value - y.value) * (y.value - i.lo.value))) :
    ¬ i.contains y tol = true := by
  have hu1 := roundoff_le_of_le hp
  have hprod := ((product_within (y := y) hp hprec_lo hprec_hi).mono (f := 1 / 1000) (by linarith)).sub_le
  rw [abs_of_nonpos h0] at hprod
  rw [contains_iff, not_or, not_lt, not_lt]
  obtain ⟨h1, h2⟩ := abs_le.1 hprod
  have hneg : ((i.hi - y) * (y - i.lo)).value ≤ 0 := by linarith
  rw [abs_of_nonpos hneg]
  exact ⟨hneg, by linarith⟩

end Contains

end Interval

end CliffordT
