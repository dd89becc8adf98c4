/-
Rounded operations keep the order.

A sum and a product are the exact ones rounded to the nearest number, and rounding is monotone. A positive
quotient is the exact one rounded, too. A negative one is cut off towards zero before that, to two bits more than
are kept, and those bits are counted from the leading one: at a power of two the cut becomes coarser. It moves a
quotient by less than two different quotients are apart, however, since dividends with few bits differ by a unit of
their last place, and so it cannot exchange them.
-/
import CliffordT.Proofs.BinFloat.GuardBits

namespace CliffordT.BinFloat

/-! ## Quotients that are cut off -/

section Quotients

variable {x y s : BinFloat} {p : ℕ}

theorem nearest_mono (hp : 1 ≤ p) {v w : ℝ} (h : v ≤ w) : nearest p v ≤ nearest p w :=
  (isNearest_nearest hp v).monotone (isNearest_nearest hp w) h

/-- For numbers of different signs, cutting off towards zero is rounding up. -/
theorem tdiv_eq_ceil {m n : ℤ} (h : (m : ℝ) / n < 0) : m.tdiv n = ⌈(m : ℝ) / n⌉ := by
  have hpos : 0 < ((-m : ℤ) : ℝ) / n := by
    rw [Int.cast_neg, neg_div]
    exact neg_pos.2 h
  have hfloor := tdiv_eq_floor hpos
  rw [Int.neg_tdiv, Int.cast_neg, neg_div, Int.floor_neg, neg_inj] at hfloor
  exact hfloor

/-- A multiple of the grid `2 ^ g`, next above. -/
noncomputable def ceilTo (g : ℤ) (v : ℝ) : ℝ := ⌈v / 2 ^ g⌉ * 2 ^ g

theorem le_ceilTo (g : ℤ) (v : ℝ) : v ≤ ceilTo g v := by
  unfold ceilTo
  rw [← div_le_iff₀ (two_zpow_pos g)]
  exact Int.le_ceil _

theorem ceilTo_lt (g : ℤ) (v : ℝ) : ceilTo g v < v + 2 ^ g := by
  have hpos := two_zpow_pos g
  have hlt := mul_lt_mul_of_pos_right (Int.ceil_lt_add_one (v / 2 ^ g)) hpos
  rwa [add_mul, one_mul, div_mul_cancel₀ v hpos.ne'] at hlt

/-- The place down to which a quotient is developed. -/
noncomputable def quotientGrid (v w : ℝ) (p : ℕ) : ℤ := leading v - leading w - p - 2

/-- A negative quotient is rounded up to the grid, and then to the nearest number. -/
theorem value_div_of_neg (hx : x.FitsPrecision) (hneg : x.value / s.value < 0) :
    (x / s).value = nearest (max x.prec s.prec)
      (ceilTo (quotientGrid x.value s.value (max x.prec s.prec)) (x.value / s.value)) := by
  have hx0 : x.value ≠ 0 := fun h => by simp [h] at hneg
  have hs0 : s.value ≠ 0 := fun h => by simp [h] at hneg
  have hlen := hx.bitLength_le
  rw [div_eq hx0 hs0, value_ofScaled]
  generalize hshift : max x.prec s.prec + 2 + bitLength s.mant - bitLength x.mant = n
  have hgrid : x.exp - s.exp - (n : ℤ) = quotientGrid x.value s.value (max x.prec s.prec) := by
    have hn : (n : ℤ) = max x.prec s.prec + 2 + bitLength s.mant - bitLength x.mant := by omega
    unfold quotientGrid
    rw [← top_eq_leading hx0, ← top_eq_leading hs0, hn]
    unfold top
    push_cast
    ring
  have hexact := quotient_mul_two_zpow x hs0 n
  have hpos := two_zpow_pos (x.exp - s.exp - (n : ℤ))
  have hw : ((x.mant <<< n : ℤ) : ℝ) / s.mant = x.value / s.value / 2 ^ (x.exp - s.exp - (n : ℤ)) := by
    rw [eq_div_iff hpos.ne', hexact]
  have hwneg : ((x.mant <<< n : ℤ) : ℝ) / s.mant < 0 := by
    rw [hw]
    exact div_neg_of_neg_of_pos hneg hpos
  rw [tdiv_eq_ceil hwneg, hw, hgrid]
  rfl

/-- Two different quotients by one number are farther apart than the steps of the grid. -/
theorem quotientGrid_lt (hx : HasBits p x.value) (hy : HasBits p y.value) (hp : 1 ≤ p) (hx0 : x.value ≠ 0)
    (hs0 : s.value ≠ 0) (hne : y.value ≠ x.value) :
    (2 : ℝ) ^ quotientGrid x.value s.value p < |y.value / s.value - x.value / s.value| := by
  have hsep := hx.separated hy hp hx0 hne
  have hspos : 0 < |s.value| := abs_pos.2 hs0
  have hsplit : (2 : ℝ) ^ (leading x.value - 1 - p) =
      2 * (2 ^ quotientGrid x.value s.value p * 2 ^ leading s.value) := by
    have hexp : leading x.value - 1 - p = 1 + (quotientGrid x.value s.value p + leading s.value) := by
      unfold quotientGrid
      ring
    rw [hexp, two_zpow_add, two_zpow_add, zpow_one]
  have hscale := mul_lt_mul_of_pos_left (abs_lt_two_zpow_leading s.value)
    (two_zpow_pos (quotientGrid x.value s.value p))
  have hpos := mul_pos (two_zpow_pos (quotientGrid x.value s.value p)) hspos
  rw [← sub_div, abs_div, lt_div_iff₀ hspos, abs_sub_comm]
  linarith

/-- **Quotients by one number** have the order of the exact ones. -/
theorem value_div_mono (hx : x.FitsPrecision) (hy : y.FitsPrecision) (hp1 : 1 ≤ x.prec) (hp : x.prec = y.prec)
    (hs0 : s.value ≠ 0) (hle : x.value / s.value ≤ y.value / s.value) : (x / s).value ≤ (y / s).value := by
  have hP : 1 ≤ max x.prec s.prec := hp1.trans (le_max_left _ _)
  have hP' : 1 ≤ max y.prec s.prec := hp ▸ hP
  rcases lt_or_ge 0 (x.value / s.value) with hpos | hnonpos
  · -- both are correctly rounded
    have hx' := isNearest_div hP hpos
    have hy' := isNearest_div hP' (hpos.trans_le hle)
    rw [← hp] at hy'
    exact hx'.monotone hy' hle
  rcases lt_or_ge (y.value / s.value) 0 with hneg | hnonneg
  · -- both are cut off
    have hneg' := hle.trans_lt hneg
    have hx0 : x.value ≠ 0 := fun h => by simp [h] at hneg'
    rw [value_div_of_neg hx hneg', value_div_of_neg hy hneg, ← hp]
    refine nearest_mono hP ?_
    by_cases heq : y.value = x.value
    · rw [heq]
    have hgap := quotientGrid_lt (hx.hasBits hP (le_max_left _ s.prec)) (hy.hasBits hP (hp ▸ le_max_left _ _)) hP hx0
      hs0 heq
    rw [abs_of_nonneg (sub_nonneg.2 hle)] at hgap
    have hlow := ceilTo_lt (quotientGrid x.value s.value (max x.prec s.prec)) (x.value / s.value)
    have hhigh := le_ceilTo (quotientGrid y.value s.value (max x.prec s.prec)) (y.value / s.value)
    linarith
  · -- they have different signs, or one is zero
    have hx' : (x / s).value ≤ 0 := by rwa [← sign_nonpos_iff, sign_value_div hP hs0, sign_nonpos_iff]
    have hy' : 0 ≤ (y / s).value := by rwa [← sign_nonneg_iff, sign_value_div hP' hs0, sign_nonneg_iff]
    exact hx'.trans hy'

end Quotients

end CliffordT.BinFloat
