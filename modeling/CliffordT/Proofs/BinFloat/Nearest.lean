/-
Rounding as a function of the value.

One number has many representations, and a sum looks at them: it counts bits and drops summands. The
value of a sum nevertheless depends on the values of the summands only, because a mantissa is rounded to
the number that `nearest` names, however it is written. Two computations with equal numbers at one
precision therefore give equal numbers, where bounds on the rounding errors would leave a difference.
-/
import Mathlib.Data.Int.Log
import Mathlib.Algebra.Order.Floor.Ring
import CliffordT.Proofs.BinFloat.Rounding

namespace CliffordT.BinFloat

/-- The position just above the leading bit of a real number other than zero. -/
noncomputable def leading (v : ℝ) : ℤ := Int.log 2 |v| + 1

/-- The number nearest to `v` of those with `p` bits, a tie going up. -/
noncomputable def nearest (p : Nat) (v : ℝ) : ℝ :=
  ⌊v * 2 ^ (p - leading v) + 1 / 2⌋ * 2 ^ (leading v - p)

theorem nearest_zero (p : Nat) : nearest p 0 = 0 := by
  have hfloor : ⌊(1 / 2 : ℝ)⌋ = 0 := Int.floor_eq_zero_iff.2 ⟨by norm_num, by norm_num⟩
  unfold nearest
  rw [zero_mul, zero_add, hfloor, Int.cast_zero, zero_mul]

/-- Two neighbouring powers of two tell where the leading bit is. -/
theorem leading_eq {v : ℝ} {t : ℤ} (hlow : (2 : ℝ) ^ (t - 1) ≤ |v|) (hhigh : |v| < 2 ^ t) :
    leading v = t := by
  have hpos : 0 < |v| := (two_zpow_pos (t - 1)).trans_le hlow
  have h1 : t - 1 ≤ Int.log 2 |v| :=
    (Int.zpow_le_iff_le_log (by norm_num) hpos).1 (by exact_mod_cast hlow)
  have h2 : Int.log 2 |v| < t :=
    (Int.lt_zpow_iff_log_lt (by norm_num) hpos).1 (by exact_mod_cast hhigh)
  unfold leading
  omega

theorem leading_mantissa {m : Int} (hm : m ≠ 0) (e : Int) :
    leading ((m : ℝ) * 2 ^ e) = e + bitLength m := by
  have hlen := bitLength_pos hm
  have hpow := two_zpow_pos e
  have habs : |(m : ℝ) * 2 ^ e| = |(m : ℝ)| * 2 ^ e := by rw [abs_mul, abs_of_pos hpow]
  refine leading_eq ?_ ?_
  · have hsplit : e + (bitLength m : ℤ) - 1 = ((bitLength m - 1 : Nat) : ℤ) + e := by omega
    rw [habs, hsplit, two_zpow_add, zpow_natCast]
    exact mul_le_mul_of_nonneg_right (two_pow_le_abs hm) hpow.le
  · rw [habs, add_comm, two_zpow_add, zpow_natCast]
    exact mul_lt_mul_of_pos_right (abs_lt_two_pow_bitLength m) hpow

/-- The leading bit of a float is where its value has it. -/
theorem top_eq_leading {x : BinFloat} (hx : x.value ≠ 0) : x.top = leading x.value :=
  (leading_mantissa (mt value_eq_zero_iff.2 hx) x.exp).symm

/-- **Rounding** a mantissa looks at the number that it stands for. -/
theorem value_ofScaled (m e : Int) (p : Nat) :
    (ofScaled m e p).value = nearest p ((m : ℝ) * 2 ^ e) := by
  by_cases hm : m = 0
  · rw [hm, Int.cast_zero, zero_mul, nearest_zero]
    exact value_zero p
  unfold nearest
  rw [leading_mantissa hm]
  by_cases hfits : bitLength m ≤ p
  · -- there are no bits to round off
    obtain ⟨q, rfl⟩ := Nat.exists_eq_add_of_le hfits
    have hexact : (m : ℝ) * 2 ^ e * 2 ^ (((bitLength m + q : Nat) : ℤ) - (e + bitLength m))
        = ((m * 2 ^ q : Int) : ℝ) := by
      have hexp : ((bitLength m + q : Nat) : ℤ) - (e + bitLength m) = (q : ℤ) - e := by
        push_cast
        ring
      rw [hexp, mul_assoc, ← two_zpow_add, add_sub_cancel, zpow_natCast]
      push_cast
      rfl
    have hfloor : ⌊((m * 2 ^ q : Int) : ℝ) + 1 / 2⌋ = m * 2 ^ q := by
      rw [Int.floor_intCast_add]
      have : ⌊(1 / 2 : ℝ)⌋ = 0 := Int.floor_eq_zero_iff.2 ⟨by norm_num, by norm_num⟩
      omega
    have hback : e + (bitLength m : ℤ) - ((bitLength m + q : Nat) : ℤ) = e - q := by
      push_cast
      ring
    rw [value_ofScaled_of_fits hfits, hexact, hfloor, hback, zpow_sub₀ (by norm_num), zpow_natCast]
    push_cast
    field_simp
  · obtain ⟨s, hs⟩ := Nat.exists_eq_add_of_lt (not_le.1 hfits)
    have hshift : bitLength m - p = s + 1 := by omega
    have hvalue : (ofScaled m e p).value
        = ((m + (1 : Int) <<< s) >>> (s + 1) : Int) * 2 ^ (e + (s + 1 : Nat)) := by
      unfold ofScaled
      rw [if_neg hm]
      dsimp only
      rw [if_pos (not_le.1 hfits), hshift, Nat.add_sub_cancel]
      rfl
    have hround : (m : ℝ) * 2 ^ e * 2 ^ ((p : ℤ) - (e + bitLength m)) = m / 2 ^ (s + 1) := by
      have hexp : e + ((p : ℤ) - (e + bitLength m)) = -((s + 1 : Nat) : ℤ) := by
        rw [hs]
        push_cast
        ring
      rw [mul_assoc, ← two_zpow_add, hexp, zpow_neg, zpow_natCast, div_eq_mul_inv]
    have hback : e + (bitLength m : ℤ) - (p : ℤ) = e + (s + 1 : Nat) := by
      rw [hs]
      push_cast
      ring
    rw [hvalue, hback, hround, shiftRight_half_up]

/-- The sum of two numbers other than zero, as a function of their values. -/
theorem value_add_of_ne_zero {x y : BinFloat} (hx : x.value ≠ 0) (hy : y.value ≠ 0) :
    (x + y).value =
      if leading y.value + (max x.prec y.prec + 2 : Nat) < leading x.value
        then nearest (max x.prec y.prec) x.value
      else if leading x.value + (max x.prec y.prec + 2 : Nat) < leading y.value
        then nearest (max x.prec y.prec) y.value
      else nearest (max x.prec y.prec) (x.value + y.value) := by
  have hx0 : ¬ x.isZero = true := mt isZero_iff.1 hx
  have hy0 : ¬ y.isZero = true := mt isZero_iff.1 hy
  obtain ⟨ha, hb⟩ := value_aligned x y
  rw [← top_eq_leading hx, ← top_eq_leading hy]
  show (add x y).value = _
  unfold add
  dsimp only
  rw [if_neg hy0, if_neg hx0]
  push_cast
  split
  · exact value_ofScaled x.mant x.exp _
  · split
    · exact value_ofScaled y.mant y.exp _
    · rw [value_ofScaled, Int.cast_add, add_mul, ha, hb]

/-- **Equal numbers have equal sums**, however they are represented. -/
theorem value_add_congr {x x' y : BinFloat} (hx : x.value = x'.value) (hp : x.prec = x'.prec) :
    (x + y).value = (x' + y).value := by
  have hround {z z' : BinFloat} (h : z.value = z'.value) (p : Nat) :
      (z.withPrec p).value = (z'.withPrec p).value := by
    show (ofScaled _ _ _).value = (ofScaled _ _ _).value
    rw [value_ofScaled, value_ofScaled]
    exact congrArg (nearest p) h
  by_cases hy : y.value = 0
  · show (add x y).value = (add x' y).value
    unfold add
    dsimp only
    rw [if_pos (isZero_iff.2 hy), if_pos (isZero_iff.2 hy), hp]
    exact hround hx _
  by_cases hx0 : x.value = 0
  · show (add x y).value = (add x' y).value
    unfold add
    dsimp only
    rw [if_neg (mt isZero_iff.1 hy), if_neg (mt isZero_iff.1 hy), if_pos (isZero_iff.2 hx0),
      if_pos (isZero_iff.2 (hx ▸ hx0)), hp]
  rw [value_add_of_ne_zero hx0 hy, value_add_of_ne_zero (hx ▸ hx0) hy, hx, hp]

end CliffordT.BinFloat
