/-
Quotients and square roots.

Both are developed to a few bits more than are asked for, cut off there, and then rounded, so that the exact
result is rounded twice. What is cut off from a positive number is its part after the point, and a half is rounded
up: the nearest integer, of the number or of what is left of it, is the same. Positive quotients and all square
roots are therefore rounded correctly. A negative quotient is cut off towards zero, that is upwards, which
can make a half of what was less; it keeps its sign, and its error is below a unit of the last place.
-/
import Mathlib.Data.Sign.Basic
import CliffordT.Proofs.BinFloat.CorrectRounding

namespace CliffordT.BinFloat

/-! ## Rounding and powers of two -/

section Rounding

variable {p : ℕ} {v w : ℝ}

theorem leading_mul_two_zpow (hv : v ≠ 0) (e : ℤ) : leading (v * 2 ^ e) = leading v + e := by
  have hpow := two_zpow_pos e
  have habs : |v * 2 ^ e| = |v| * 2 ^ e := by rw [abs_mul, abs_of_pos hpow]
  refine leading_eq ?_ ?_
  · have hsplit : leading v + e - 1 = leading v - 1 + e := by ring
    rw [habs, hsplit, two_zpow_add]
    exact mul_le_mul_of_nonneg_right (two_zpow_leading_le hv) hpow.le
  · rw [habs, two_zpow_add]
    exact mul_lt_mul_of_pos_right (abs_lt_two_zpow_leading v) hpow

/-- Rounding commutes with the product with a power of two. -/
theorem nearest_mul_two_zpow (p : ℕ) (v : ℝ) (e : ℤ) : nearest p (v * 2 ^ e) = nearest p v * 2 ^ e := by
  by_cases hv : v = 0
  · rw [hv, zero_mul, nearest_zero, zero_mul]
  have hdown : e + (p - (leading v + e)) = p - leading v := by ring
  have hup : leading v + e - p = leading v - p + e := by ring
  unfold nearest
  rw [leading_mul_two_zpow hv, mul_assoc, ← two_zpow_add, hdown, hup, two_zpow_add, mul_assoc]

/-! ## Digits after the point -/

theorem leading_floor (hw : 1 ≤ w) : leading (⌊w⌋ : ℝ) = leading w := by
  have hw0 : 0 < w := zero_lt_one.trans_le hw
  have hfloor0 : (0 : ℝ) < ⌊w⌋ := by exact_mod_cast Int.le_floor.2 (by exact_mod_cast hw : ((1 : ℤ) : ℝ) ≤ w)
  have hlow := two_zpow_leading_le hw0.ne'
  have hhigh := abs_lt_two_zpow_leading w
  rw [abs_of_pos hw0] at hlow hhigh
  -- the leading bit stands for an integer, as the number is not below one
  have hlead : 0 < leading w := by
    by_contra hneg
    have hsmall : (2 : ℝ) ^ leading w ≤ 1 := zpow_le_one_of_nonpos₀ (by norm_num) (not_lt.1 hneg)
    linarith
  obtain ⟨n, hn⟩ : ∃ n : ℕ, leading w - 1 = n := Int.eq_ofNat_of_zero_le (by omega)
  refine leading_eq ?_ ?_
  · rw [hn, zpow_natCast] at hlow ⊢
    rw [abs_of_pos hfloor0]
    have hle : (2 ^ n : ℤ) ≤ ⌊w⌋ := Int.le_floor.2 (by exact_mod_cast hlow)
    exact_mod_cast hle
  · rw [abs_of_pos hfloor0]
    exact (Int.floor_le w).trans_lt hhigh

/-- Digits after the point do not count when bits before it are rounded off. -/
theorem nearest_floor (hw : 2 ^ p ≤ w) : nearest p (⌊w⌋ : ℝ) = nearest p w := by
  have hw1 : 1 ≤ w := (one_le_pow₀ (by norm_num)).trans hw
  have hlong : (p : ℤ) < leading w := by
    have hhigh := hw.trans_lt ((le_abs_self w).trans_lt (abs_lt_two_zpow_leading w))
    rw [← zpow_natCast] at hhigh
    exact (zpow_lt_zpow_iff_right₀ (by norm_num)).1 hhigh
  obtain ⟨s, hs⟩ : ∃ s : ℕ, (p : ℤ) - leading w = -((s + 1 : ℕ) : ℤ) :=
    ⟨(leading w - p - 1).toNat, by omega⟩
  have hcut (u : ℝ) : ⌊u * 2 ^ (-((s + 1 : ℕ) : ℤ)) + 1 / 2⌋ = (⌊u⌋ + 2 ^ s) / 2 ^ (s + 1) := by
    rw [← floor_div_add_half, div_eq_mul_inv u, zpow_neg, zpow_natCast]
  unfold nearest
  rw [leading_floor hw1, hs, hcut, hcut, Int.floor_intCast]

/-- **No double rounding**: a positive number that is developed to more than `p` bits, cut off and rounded to
`p` bits, is rounded correctly. -/
theorem isNearest_ofScaled_floor (hp : 1 ≤ p) (hw : 2 ^ p ≤ w) (e : ℤ) :
    IsNearest p (w * 2 ^ e) (ofScaled ⌊w⌋ e p).value := by
  rw [value_ofScaled, nearest_mul_two_zpow, nearest_floor hw, ← nearest_mul_two_zpow]
  exact isNearest_nearest hp _

end Rounding

/-! ## Quotients -/

section Quotients

variable {x y : BinFloat}

/-- For numbers of one sign, cutting off towards zero is rounding down. -/
theorem tdiv_eq_floor {m n : ℤ} (h : 0 < (m : ℝ) / n) : m.tdiv n = ⌊(m : ℝ) / n⌋ := by
  have hnonneg {a b : ℤ} (ha : 0 ≤ a) (hb : 0 ≤ b) : a.tdiv b = ⌊(a : ℝ) / b⌋ := by
    obtain ⟨k, rfl⟩ := Int.eq_ofNat_of_zero_le hb
    rw [Int.tdiv_eq_ediv_of_nonneg ha, Int.cast_natCast, Int.floor_div_natCast, Int.floor_intCast]
  rcases div_pos_iff.1 h with ⟨hm, hn⟩ | ⟨hm, hn⟩
  · exact hnonneg (by exact_mod_cast hm.le) (by exact_mod_cast hn.le)
  · have hneg := hnonneg (a := -m) (b := -n) (by exact_mod_cast (neg_pos.2 hm).le)
      (by exact_mod_cast (neg_pos.2 hn).le)
    rwa [Int.tdiv_neg, Int.neg_tdiv, neg_neg, Int.cast_neg, Int.cast_neg, neg_div_neg_eq] at hneg

/-- A positive quotient is rounded correctly. -/
theorem isNearest_div (hp : 1 ≤ max x.prec y.prec) (hpos : 0 < x.value / y.value) :
    IsNearest (max x.prec y.prec) (x.value / y.value) (x / y).value := by
  have hx : x.value ≠ 0 := fun h => by simp [h] at hpos
  have hy : y.value ≠ 0 := fun h => by simp [h] at hpos
  rw [div_eq hx hy]
  generalize hs : max x.prec y.prec + 2 + bitLength y.mant - bitLength x.mant = s
  generalize max x.prec y.prec = q at hp hs ⊢
  have hlong := two_pow_le_abs_quotient (p := q) (s := s) (mt value_eq_zero_iff.2 hx)
    (mt value_eq_zero_iff.2 hy) (by omega)
  have hexact := quotient_mul_two_zpow x hy s
  have hw : 0 < ((x.mant <<< s : ℤ) : ℝ) / y.mant := by
    rw [← hexact] at hpos
    exact (mul_pos_iff_of_pos_right (two_zpow_pos _)).1 hpos
  rw [abs_of_pos hw] at hlong
  rw [tdiv_eq_floor hw, ← hexact]
  exact isNearest_ofScaled_floor hp ((pow_le_pow_right₀ (by norm_num) q.le_succ).trans hlong) _

/-- A relative error below one keeps the sign. -/
theorem sign_eq_of_within {e a b : ℝ} (h : Within e a b) (he : e < 1) : SignType.sign a = SignType.sign b := by
  have hsub := abs_le.1 h.sub_le
  rcases lt_trichotomy b 0 with hb | hb | hb
  · rw [abs_of_neg hb] at hsub
    have ha : a < 0 := by nlinarith [hsub.2]
    rw [sign_neg ha, sign_neg hb]
  · rw [h.eq_zero hb, hb]
  · rw [abs_of_pos hb] at hsub
    have ha : 0 < a := by nlinarith [hsub.1]
    rw [sign_pos ha, sign_pos hb]

theorem sign_value_div (hp : 1 ≤ max x.prec y.prec) (hy : y.value ≠ 0) :
    SignType.sign (x / y).value = SignType.sign (x.value / y.value) := by
  have hround := roundoff_anti hp
  rw [roundoff_eq 1, pow_one] at hround
  exact sign_eq_of_within (value_div_within_three_halves x hy) (by linarith)

/-- **Quotients are accurate.** At the larger precision `P`, a quotient is within `2 ^ (1 - P)` of the exact one; it
has the sign of the exact one, so that it is zero for a dividend of zero only; and if it is positive, it is the exact
one rounded to the nearest number. -/
theorem quotient_accurate (hp : 1 ≤ max x.prec y.prec) (hy : y.value ≠ 0) :
    |(x / y).value - x.value / y.value| ≤ 2 ^ (1 - (max x.prec y.prec : ℕ) : ℤ) * |x.value / y.value| ∧
      SignType.sign (x / y).value = SignType.sign (x.value / y.value) ∧
      ((x / y).value = 0 → x.value = 0) ∧
      (0 < x.value / y.value → RoundedTo (max x.prec y.prec) (x.value / y.value) (x / y)) := by
  have hsign := sign_value_div hp hy
  refine ⟨?_, hsign, fun h0 => ?_, fun hpos => ⟨prec_div x y, fits_div x y, isNearest_div hp hpos⟩⟩
  · have hwithin : |(x / y).value - x.value / y.value|
        ≤ 2 * roundoff (max x.prec y.prec) * |x.value / y.value| := value_div_within le_rfl hy
    rwa [roundoff, ← zpow_one_add₀ two_ne_zero, ← sub_eq_add_neg] at hwithin
  · rw [h0, sign_zero, eq_comm, sign_eq_zero_iff, div_eq_zero_iff] at hsign
    exact hsign.resolve_right hy

end Quotients

/-! ## Square roots -/

/-- A square root is rounded correctly. -/
theorem isNearest_sqrt {x : BinFloat} (hp : 1 ≤ x.prec) (hx : 0 < x.value) :
    IsNearest x.prec (√x.value) x.sqrt.value := by
  have hm := value_pos_iff.1 hx
  obtain ⟨s, e, hs, hexp, hsqrt⟩ := exists_sqrt_eq hm
  have hlong := two_pow_le_sqrt (two_pow_le_toNat_shiftLeft hm hs)
  rw [hsqrt, ← sqrt_mul_two_zpow hm hexp, ← Real.floor_real_sqrt_eq_nat_sqrt]
  exact isNearest_ofScaled_floor hp ((pow_le_pow_right₀ (by norm_num) x.prec.le_succ).trans hlong) e

theorem value_sqrt_of_nonpos {x : BinFloat} (hx : x.value ≤ 0) : x.sqrt.value = 0 := by
  have hm : ¬ x.isPositive = true := by
    unfold isPositive
    rw [decide_eq_true_iff, ← value_pos_iff]
    exact not_lt.2 hx
  unfold sqrt
  rw [if_neg hm]
  exact value_zero _

/-- Minus one third at two bits goes to `-1/4`, and not to `-3/8`, which is nearer: its quotient `-10.6…`, cut off at
`-10`, lies in the middle of `-8` and `-12`. -/
example : (-one 2) / ofInt 3 2 = ⟨-2, -3, 2⟩ := rfl

end CliffordT.BinFloat
