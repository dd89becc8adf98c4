/-
The real number that a `BinFloat` stands for.

Negation, the absolute value and the products with powers of two are exact. The leading bit gives the
size of the value up to a factor two, and through it the comparison, which looks at sign, leading bit
and mantissa in this order, is the order of the values.
-/
import Mathlib.Data.Real.Basic
import Mathlib.Algebra.Order.Field.Power
import Mathlib.Order.Compare
import Mathlib.Tactic.Linarith
import Mathlib.Tactic.Positivity
import Mathlib.Tactic.Ring
import CliffordT.BinFloat.Basic
import CliffordT.Proofs.Numeral

namespace CliffordT

/-! ## The number of binary digits -/

theorem bitLength_of_ne_zero {n : Int} (h : n ≠ 0) : bitLength n = n.natAbs.log2 + 1 := if_neg h

/-- The absolute value is below the power of two that `bitLength` gives. -/
theorem natAbs_lt_two_pow_bitLength (n : Int) : n.natAbs < 2 ^ bitLength n := by
  by_cases h : n = 0
  · subst h
    decide
  · rw [bitLength_of_ne_zero h]
    exact Nat.lt_log2_self

/-- The leading bit is set. -/
theorem two_pow_le_natAbs {n : Int} (h : n ≠ 0) : 2 ^ (bitLength n - 1) ≤ n.natAbs := by
  rw [bitLength_of_ne_zero h, Nat.add_sub_cancel]
  exact Nat.log2_self_le (by simpa using h)

theorem bitLength_pos {n : Int} (h : n ≠ 0) : 0 < bitLength n := by
  rw [bitLength_of_ne_zero h]
  exact Nat.succ_pos _

theorem abs_lt_two_pow_bitLength (n : Int) : |(n : ℝ)| < 2 ^ bitLength n := by
  have h := natAbs_lt_two_pow_bitLength n
  rw [← Int.cast_abs, ← Nat.cast_natAbs]
  exact_mod_cast h

theorem two_pow_le_abs {n : Int} (h : n ≠ 0) : (2 : ℝ) ^ (bitLength n - 1) ≤ |(n : ℝ)| := by
  have hle := two_pow_le_natAbs h
  rw [← Int.cast_abs, ← Nat.cast_natAbs]
  exact_mod_cast hle

namespace BinFloat

/-! ## The value -/

/-- The real number that a binary float stands for. -/
noncomputable def value (x : BinFloat) : ℝ := x.mant * 2 ^ x.exp

theorem two_zpow_pos (e : Int) : (0 : ℝ) < 2 ^ e := zpow_pos (by norm_num) e

theorem two_zpow_add (e f : ℤ) : (2 : ℝ) ^ (e + f) = (2 : ℝ) ^ e * (2 : ℝ) ^ f := zpow_add₀ (by norm_num) e f

@[simp] theorem value_zero (p : Nat) : (zero p).value = 0 := by
  simp [zero, value]

@[simp] theorem value_one (p : Nat) : (one p).value = 1 := by
  simp [one, value]

@[simp] theorem value_twoPow (k : Int) (p : Nat) : (twoPow k p).value = 2 ^ k := by
  simp [twoPow, value]

@[simp] theorem value_neg (x : BinFloat) : (-x).value = -x.value := by
  show ((-x.mant : Int) : ℝ) * 2 ^ x.exp = -(x.mant * 2 ^ x.exp)
  rw [Int.cast_neg, neg_mul]

@[simp] theorem value_abs (x : BinFloat) : x.abs.value = |x.value| := by
  show ((x.mant.natAbs : Int) : ℝ) * 2 ^ x.exp = |(x.mant : ℝ) * 2 ^ x.exp|
  rw [abs_mul, abs_of_pos (two_zpow_pos x.exp), Int.natCast_natAbs, Int.cast_abs]

theorem value_eq_zero_iff {x : BinFloat} : x.value = 0 ↔ x.mant = 0 := by
  unfold value
  rw [mul_eq_zero, Int.cast_eq_zero, or_iff_left (two_zpow_pos x.exp).ne']

theorem isZero_iff {x : BinFloat} : x.isZero = true ↔ x.value = 0 := by
  rw [value_eq_zero_iff]
  exact beq_iff_eq

@[simp] theorem value_scaleTwo (x : BinFloat) (k : Int) :
    (x.scaleTwo k).value = x.value * 2 ^ k := by
  unfold scaleTwo
  split
  · rename_i h
    rw [isZero_iff.1 h, zero_mul]
  · show (x.mant : ℝ) * 2 ^ (x.exp + k) = x.mant * 2 ^ x.exp * 2 ^ k
    rw [two_zpow_add, mul_assoc]

@[simp] theorem prec_neg (x : BinFloat) : (-x).prec = x.prec := rfl

@[simp] theorem prec_one (p : Nat) : (one p).prec = p := rfl

@[simp] theorem prec_twoPow (k : Int) (p : Nat) : (twoPow k p).prec = p := rfl

@[simp] theorem prec_scaleTwo (x : BinFloat) (k : Int) : (x.scaleTwo k).prec = x.prec := by
  unfold scaleTwo
  split
  · rfl
  · rfl

/-! ## The leading bit -/

theorem abs_value (x : BinFloat) : |x.value| = |(x.mant : ℝ)| * 2 ^ x.exp := by
  unfold value
  rw [abs_mul, abs_of_pos (two_zpow_pos x.exp)]

theorem abs_value_lt_top (x : BinFloat) : |x.value| < 2 ^ x.top := by
  rw [abs_value, top, add_comm, two_zpow_add, zpow_natCast]
  exact mul_lt_mul_of_pos_right (abs_lt_two_pow_bitLength x.mant) (two_zpow_pos x.exp)

theorem two_zpow_top_le {x : BinFloat} (h : x.mant ≠ 0) : (2 : ℝ) ^ (x.top - 1) ≤ |x.value| := by
  have hlen := bitLength_pos h
  have htop : x.top - 1 = ((bitLength x.mant - 1 : Nat) : Int) + x.exp := by
    unfold top
    omega
  rw [abs_value, htop, two_zpow_add, zpow_natCast]
  exact mul_le_mul_of_nonneg_right (two_pow_le_abs h) (two_zpow_pos x.exp).le

/-- A number with its leading bit below that of another is smaller. -/
theorem abs_value_lt_of_top_lt {x y : BinFloat} (hy : y.mant ≠ 0) (h : x.top < y.top) :
    |x.value| < |y.value| :=
  calc |x.value| < 2 ^ x.top := abs_value_lt_top x
    _ ≤ 2 ^ (y.top - 1) := zpow_le_zpow_right₀ (by norm_num) (by omega)
    _ ≤ |y.value| := two_zpow_top_le hy

/-! ## Mantissas at one exponent -/

theorem cast_shiftLeft (m : Int) (n : Nat) : ((m <<< n : Int) : ℝ) = m * 2 ^ n := by
  rw [Int.shiftLeft_eq]
  push_cast
  ring

theorem value_aligned (x y : BinFloat) :
    ((aligned x y).1 : ℝ) * 2 ^ (aligned x y).2.2 = x.value ∧
      ((aligned x y).2.1 : ℝ) * 2 ^ (aligned x y).2.2 = y.value := by
  have h (m e f : Int) (hle : f ≤ e) :
      ((m <<< (e - f).toNat : Int) : ℝ) * 2 ^ f = m * 2 ^ e := by
    have he : (e : Int) = ((e - f).toNat : Int) + f := by omega
    rw [cast_shiftLeft, mul_assoc, ← zpow_natCast, ← two_zpow_add, ← he]
  exact ⟨h _ _ _ (min_le_left _ _), h _ _ _ (min_le_right _ _)⟩

/-! ## Order -/

theorem value_pos_iff {x : BinFloat} : 0 < x.value ↔ 0 < x.mant := by
  unfold value
  rw [mul_pos_iff_of_pos_right (two_zpow_pos x.exp), Int.cast_pos]

theorem value_nonneg_iff {x : BinFloat} : 0 ≤ x.value ↔ 0 ≤ x.mant := by
  unfold value
  rw [mul_nonneg_iff_of_pos_right (two_zpow_pos x.exp), Int.cast_nonneg_iff]

theorem value_neg_iff {x : BinFloat} : x.value < 0 ↔ x.mant < 0 := by
  rw [← not_le, value_nonneg_iff, not_le]

/-- Numbers of different signs are ordered by them. -/
theorem value_lt_of_sign_lt {x y : BinFloat} (h : x.sign < y.sign) : x.value < y.value := by
  unfold sign at h
  rcases lt_or_ge x.mant 0 with hx | hx
  · have hy : 0 ≤ y.mant := by
      by_contra hlt
      rw [Int.sign_eq_neg_one_of_neg hx, Int.sign_eq_neg_one_of_neg (not_le.1 hlt)] at h
      exact lt_irrefl _ h
    exact (value_neg_iff.2 hx).trans_le (value_nonneg_iff.2 hy)
  · have hy : 0 < y.mant := Int.sign_pos_iff.1 ((Int.sign_nonneg_iff.2 hx).trans_lt h)
    have hx0 : x.mant = 0 := by
      by_contra hne
      rw [Int.sign_eq_one_of_pos (lt_of_le_of_ne hx (Ne.symm hne)),
        Int.sign_eq_one_of_pos hy] at h
      exact lt_irrefl _ h
    rw [value_eq_zero_iff.2 hx0]
    exact value_pos_iff.2 hy

/-- Of two numbers of one sign the leading bits decide, unless they are at one position. -/
theorem compares_of_top_lt {x y : BinFloat} (hsign : x.sign = y.sign) (hne : x.sign ≠ 0)
    (h : x.top < y.top) : (if 0 < x.sign then Ordering.lt else .gt).Compares x.value y.value := by
  have hy : y.mant ≠ 0 := by
    rintro h0
    exact hne (by rw [hsign, sign, h0, Int.sign_zero])
  have habs := abs_value_lt_of_top_lt hy h
  unfold sign at hsign hne
  split
  · rename_i hpos
    have hx : 0 < x.value := value_pos_iff.2 (Int.sign_pos_iff.1 hpos)
    have hy : 0 < y.value := value_pos_iff.2 (Int.sign_pos_iff.1 (hsign ▸ hpos))
    rwa [abs_of_pos hx, abs_of_pos hy] at habs
  · rename_i hpos
    have hlt : x.mant.sign < 0 := lt_of_le_of_ne (not_lt.1 hpos) hne
    have hx : x.value < 0 := value_neg_iff.2 (Int.sign_neg_iff.1 hlt)
    have hy : y.value < 0 := value_neg_iff.2 (Int.sign_neg_iff.1 (hsign ▸ hlt))
    rw [abs_of_neg hx, abs_of_neg hy] at habs
    exact neg_lt_neg_iff.1 habs

/-- At one exponent the mantissas have the order of the values. -/
theorem compares_aligned (x y : BinFloat) :
    (compare (aligned x y).1 (aligned x y).2.1).Compares x.value y.value := by
  obtain ⟨hx, hy⟩ := value_aligned x y
  have hpos := two_zpow_pos (aligned x y).2.2
  have h := (compare_iff (aligned x y).1 (aligned x y).2.1).1 rfl
  rw [← hx, ← hy]
  cases ho : compare (aligned x y).1 (aligned x y).2.1 with
  | lt =>
    rw [ho] at h
    exact mul_lt_mul_of_pos_right (Int.cast_lt.2 h) hpos
  | eq =>
    rw [ho] at h
    exact congrArg (fun m : Int => (m : ℝ) * 2 ^ (aligned x y).2.2) h
  | gt =>
    rw [ho] at h
    exact mul_lt_mul_of_pos_right (Int.cast_lt.2 h) hpos

/-- The comparison is that of the values. -/
theorem cmp_compares (x y : BinFloat) : (cmp x y).Compares x.value y.value := by
  unfold cmp
  split
  · rename_i hsign
    rcases lt_or_gt_of_ne hsign with h | h
    · rw [compare_lt_iff_lt.2 h]
      exact value_lt_of_sign_lt h
    · rw [compare_gt_iff_gt.2 h]
      exact value_lt_of_sign_lt h
  · rename_i hsign
    have hsign := not_not.1 hsign
    split
    · rename_i hzero
      have hx := value_eq_zero_iff.2 (Int.sign_eq_zero_iff_zero.1 hzero)
      have hy := value_eq_zero_iff.2 (Int.sign_eq_zero_iff_zero.1 (hsign ▸ hzero))
      exact hx.trans hy.symm
    · rename_i hne
      have hne' : y.sign ≠ 0 := hsign ▸ hne
      rcases lt_trichotomy x.top y.top with h | h | h
      · rw [compare_lt_iff_lt.2 h]
        exact compares_of_top_lt hsign hne h
      · rw [compare_eq_iff_eq.2 h]
        exact compares_aligned x y
      · rw [compare_gt_iff_gt.2 h]
        have hc := (compares_of_top_lt hsign.symm hne' h).swap
        rw [← hsign] at hc
        show (if 0 < x.sign then Ordering.gt else .lt).Compares x.value y.value
        split
        · rename_i hpos
          rwa [if_pos hpos] at hc
        · rename_i hpos
          rwa [if_neg hpos] at hc

theorem lt_iff_value {x y : BinFloat} : x < y ↔ x.value < y.value := (cmp_compares x y).eq_lt

theorem le_iff_value {x y : BinFloat} : x ≤ y ↔ x.value ≤ y.value := (cmp_compares x y).ne_gt

end BinFloat

end CliffordT
