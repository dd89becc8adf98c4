/-
The order, integer parts, signs and comparisons up to a tolerance.

The comparison and the integer parts look at the exact value, which is one for many mantissas and exponents:
the comparison is a total order, in which numbers are equal that have the same value, and the integer parts are
the floor, the ceiling, the nearest integer and the floor or ceiling towards zero. A comparison up to a
tolerance computes a difference, which is rounded; what it decides is right up to twice the tolerance, and what
it rules out is wrong by half of it.
-/
import Mathlib.Algebra.Order.Floor.Ring
import Mathlib.Algebra.Order.Floor.Semifield
import CliffordT.Proofs.BinFloat.Rounding

namespace CliffordT.BinFloat

/-! ## The order -/

theorem cmp_eq_compare (x y : BinFloat) : cmp x y = compare x.value y.value :=
  ((compare_iff x.value y.value).2 (cmp_compares x y)).symm

theorem beq_iff_value {x y : BinFloat} : (x == y) = true ↔ x.value = y.value := by
  show (cmp x y == .eq) = true ↔ _
  rw [beq_iff_eq, cmp_eq_compare, compare_eq_iff_eq]

/-- The order is total, as the one of the values is. -/
instance : Std.TransOrd BinFloat where
  eq_swap {x y} := by
    show cmp x y = (cmp y x).swap
    rw [cmp_eq_compare, cmp_eq_compare]
    exact Std.OrientedCmp.eq_swap
  isLE_trans {x y z} hxy hyz := by
    change (cmp x y).isLE = true at hxy
    change (cmp y z).isLE = true at hyz
    show (cmp x z).isLE = true
    rw [cmp_eq_compare] at hxy hyz ⊢
    exact Std.TransCmp.isLE_trans hxy hyz

/-! ## Integer parts -/

/-- The value as a quotient, for a number with digits after the point. -/
theorem value_of_exp_neg {x : BinFloat} (h : x.exp < 0) :
    x.value = x.mant / 2 ^ (-x.exp).toNat := by
  have hexp : x.exp = -((-x.exp).toNat : ℤ) := by omega
  unfold value
  rw [div_eq_mul_inv, ← zpow_natCast, ← zpow_neg, ← hexp]

theorem value_of_exp_nonneg {x : BinFloat} (h : 0 ≤ x.exp) :
    x.value = ((x.mant <<< x.exp.toNat : Int) : ℝ) := by
  have hexp : x.exp = (x.exp.toNat : ℤ) := by omega
  unfold value
  rw [Int.shiftLeft_eq, Int.cast_mul, Int.cast_pow, Int.cast_ofNat, ← zpow_natCast, ← hexp]

theorem floor_eq (x : BinFloat) : x.floor = ⌊x.value⌋ := by
  unfold floor
  split
  · rename_i h
    rw [value_of_exp_nonneg h, Int.floor_intCast]
  · rename_i h
    rw [value_of_exp_neg (by omega), Int.shiftRight_eq_div_pow]
    have hdiv := Int.floor_div_natCast (x.mant : ℝ) (2 ^ (-x.exp).toNat)
    rw [Int.floor_intCast] at hdiv
    push_cast at hdiv
    rw [hdiv]
    norm_cast

theorem ceil_eq (x : BinFloat) : x.ceil = ⌈x.value⌉ := by
  rw [ceil, floor_eq, value_neg, Int.floor_neg, neg_neg]

theorem round_eq_floor (x : BinFloat) : x.round = ⌊x.value + 1 / 2⌋ := by
  unfold round
  split
  · rename_i h
    have hhalf : ⌊(1 / 2 : ℝ)⌋ = 0 := Int.floor_eq_zero_iff.2 ⟨by norm_num, by norm_num⟩
    rw [value_of_exp_nonneg h, Int.floor_intCast_add, hhalf, add_zero]
  · rename_i h
    obtain ⟨s, hs⟩ : ∃ s, (-x.exp).toNat = s + 1 := ⟨(-x.exp).toNat - 1, by omega⟩
    rw [value_of_exp_neg (by omega), hs]
    exact shiftRight_half_up x.mant s

/-- Rounding goes to a nearest integer. -/
theorem abs_round_sub_le (x : BinFloat) : |(x.round : ℝ) - x.value| ≤ 1 / 2 := by
  rw [round_eq_floor]
  have hlow := Int.floor_le (x.value + 1 / 2)
  have hhigh := Int.lt_floor_add_one (x.value + 1 / 2)
  refine abs_le.2 ⟨?_, ?_⟩
  · linarith
  · linarith

theorem trunc_of_nonneg {x : BinFloat} (h : 0 ≤ x.mant) : x.trunc = x.floor := by
  unfold trunc floor
  rw [Int.tdiv_eq_ediv_of_nonneg h, Int.shiftLeft_eq 1, one_mul, Int.shiftRight_eq_div_pow]
  norm_cast

/-- A cut towards zero treats both signs alike. -/
theorem trunc_neg (x : BinFloat) : (-x).trunc = -x.trunc := by
  have hmant : (-x).mant = -x.mant := rfl
  have hexp : (-x).exp = x.exp := rfl
  unfold trunc
  rw [hmant, hexp]
  split
  · rw [Int.shiftLeft_eq, Int.shiftLeft_eq, neg_mul]
  · exact Int.neg_tdiv _ _

theorem trunc_eq (x : BinFloat) : x.trunc = if 0 ≤ x.value then ⌊x.value⌋ else ⌈x.value⌉ := by
  split
  · rename_i h
    rw [trunc_of_nonneg (value_nonneg_iff.1 h), floor_eq]
  · rename_i h
    have hneg : 0 ≤ (-x).mant := value_nonneg_iff.1 (by rw [value_neg]; linarith)
    rw [← ceil_eq, ceil, ← trunc_of_nonneg hneg, trunc_neg, neg_neg]

/-- The size of the integer part. -/
theorem natAbs_trunc (x : BinFloat) : x.trunc.natAbs = ⌊(|x.value|)⌋₊ := by
  have hnonneg {y : BinFloat} (h : 0 ≤ y.value) : y.trunc.natAbs = ⌊(|y.value|)⌋₊ := by
    have hfloor := Int.floor_nonneg.2 h
    rw [trunc_of_nonneg (value_nonneg_iff.1 h), floor_eq, abs_of_nonneg h, ← Int.floor_toNat]
    omega
  rcases le_total 0 x.value with h | h
  · exact hnonneg h
  · have hneg := hnonneg (y := -x) (by rw [value_neg]; linarith)
    rwa [trunc_neg, Int.natAbs_neg, value_neg, abs_neg] at hneg

/-- **Integer parts are exact**: the greatest integer that is at most the number, the least one that is at least
the number, the nearest one with a half going up, and the one towards zero. -/
theorem integer_parts (x : BinFloat) :
    IsGreatest {n : ℤ | (n : ℝ) ≤ x.value} x.floor ∧ IsLeast {n : ℤ | x.value ≤ (n : ℝ)} x.ceil ∧
      x.round = ⌊x.value + 1 / 2⌋ ∧ x.trunc = if 0 ≤ x.value then ⌊x.value⌋ else ⌈x.value⌉ := by
  refine ⟨?_, ?_, round_eq_floor x, trunc_eq x⟩
  · rw [floor_eq]
    exact ⟨Int.floor_le x.value, fun n hn => Int.le_floor.2 hn⟩
  · rw [ceil_eq]
    exact ⟨Int.le_ceil x.value, fun n hn => Int.ceil_le.2 hn⟩

/-- Three ways to write six, and the integers next to minus two and a half. -/
example : ((⟨3, 1, 2⟩ : BinFloat) == ⟨6, 0, 8⟩) = true ∧ ((⟨24, -2, 1⟩ : BinFloat) == ⟨6, 0, 8⟩) = true ∧
    (⟨-5, -1, 8⟩ : BinFloat).floor = -3 ∧ (⟨-5, -1, 8⟩ : BinFloat).ceil = -2 ∧
    (⟨-5, -1, 8⟩ : BinFloat).round = -2 ∧ (⟨-5, -1, 8⟩ : BinFloat).trunc = -2 := by
  decide

/-! ## Signs and extrema -/

theorem isPositive_iff {x : BinFloat} : x.isPositive = true ↔ 0 < x.value := by
  unfold isPositive
  rw [decide_eq_true_iff, value_pos_iff]

theorem isNegative_iff {x : BinFloat} : x.isNegative = true ↔ x.value < 0 := by
  unfold isNegative value
  have hpos := two_zpow_pos x.exp
  rw [decide_eq_true_iff, mul_neg_iff, or_iff_right (by simp [hpos.le]), and_iff_left hpos,
    Int.cast_lt_zero]

theorem value_minimum (x y : BinFloat) : (x.minimum y).value = min x.value y.value := by
  unfold minimum
  split
  · rename_i h
    rw [min_eq_right (lt_iff_value.1 h).le]
  · rename_i h
    rw [min_eq_left (not_lt.1 (mt lt_iff_value.2 h))]

/-! ## Comparisons up to a tolerance -/

section Tolerance

variable {x y tol : BinFloat} {p : Nat}

/-- A computed difference is half of the exact one at least. -/
theorem abs_value_sub_le (hp : 3 ≤ max x.prec y.prec) :
    |x.value - y.value| ≤ 2 * |(x - y).value| := by
  have h := (value_sub_within (x := x) (y := y) hp).le_abs
  have hu : roundoff 3 = 1 / 8 := by
    rw [roundoff_eq]
    norm_num
  rw [hu] at h
  linarith [abs_nonneg (x.value - y.value)]

/-- What passes for at least `y` is not below it by twice the tolerance. -/
theorem sub_le_of_atLeast (hp : 3 ≤ max x.prec y.prec) (ht : 0 ≤ tol.value)
    (h : x.atLeast y tol = true) : y.value - 2 * tol.value ≤ x.value := by
  unfold atLeast at h
  rw [Bool.or_eq_true, decide_eq_true_iff, decide_eq_true_iff, le_iff_value, lt_iff_value,
    value_abs] at h
  rcases h with h | h
  · linarith
  · linarith [abs_value_sub_le hp, neg_abs_le (x.value - y.value)]

/-- What passes for at most `y` is not above it by twice the tolerance. -/
theorem le_add_of_atMost (hp : 3 ≤ max x.prec y.prec) (ht : 0 ≤ tol.value)
    (h : x.atMost y tol = true) : x.value ≤ y.value + 2 * tol.value := by
  unfold atMost at h
  rw [Bool.or_eq_true, decide_eq_true_iff, decide_eq_true_iff, le_iff_value, lt_iff_value,
    value_abs] at h
  rcases h with h | h
  · linarith
  · linarith [abs_value_sub_le hp, le_abs_self (x.value - y.value)]

/-- A computed difference is at most twice the exact one. -/
theorem abs_sub_value_le (hp : 3 ≤ max x.prec y.prec) :
    |(x - y).value| ≤ 2 * |x.value - y.value| := by
  have h := (value_sub_within (x := x) (y := y) hp).abs_le
  have hu : roundoff 3 = 1 / 8 := by
    rw [roundoff_eq]
    norm_num
  rw [hu] at h
  linarith [abs_nonneg (x.value - y.value)]

/-- What does not pass for at least `y` is below it, by half the tolerance. -/
theorem le_sub_of_not_atLeast (hp : 3 ≤ max x.prec y.prec) (h : x.atLeast y tol = false) :
    x.value ≤ y.value - tol.value / 2 := by
  unfold atLeast at h
  rw [Bool.or_eq_false_iff, decide_eq_false_iff_not, decide_eq_false_iff_not, le_iff_value,
    lt_iff_value, value_abs, not_le, not_lt] at h
  have hle := h.2.trans (abs_sub_value_le hp)
  rw [abs_of_neg (by linarith [h.1])] at hle
  linarith

/-- What does not pass for at most `y` is above it, by half the tolerance. -/
theorem add_le_of_not_atMost (hp : 3 ≤ max x.prec y.prec) (h : x.atMost y tol = false) :
    y.value + tol.value / 2 ≤ x.value := by
  unfold atMost at h
  rw [Bool.or_eq_false_iff, decide_eq_false_iff_not, decide_eq_false_iff_not, le_iff_value,
    lt_iff_value, value_abs, not_le, not_lt] at h
  have hle := h.2.trans (abs_sub_value_le hp)
  rw [abs_of_pos (by linarith [h.1])] at hle
  linarith

end Tolerance

end CliffordT.BinFloat
