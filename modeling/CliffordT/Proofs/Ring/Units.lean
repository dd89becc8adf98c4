/-
Total positivity in `ℤ[√2]`, and the units that are totally positive.

An element other than zero is doubly positive just when its rational part and its norm are positive,
as these are half the sum and the product of its embeddings; so positivity passes to products and to
quotients. The norm of a power of `λ` is one or minus one in turns. A doubly positive unit is an even
power: multiplication by `λ² = 3 + 2√2` or its inverse makes the coefficient of `√2` smaller until it
is zero.
-/
import Mathlib.Algebra.Ring.NegOnePow
import Mathlib.Tactic.Linarith
import CliffordT.Proofs.Ring.Division
import CliffordT.Proofs.Ring.Sign

namespace CliffordT.ZSqrt2

/-! ## Powers of `λ` -/

def lambdaUnit : ZSqrt2ˣ where
  val := lambda
  inv := lambdaInv
  val_inv := rfl
  inv_val := rfl

theorem lambdaPow_eq (k : Int) : lambdaPow k = (lambdaUnit ^ k : ZSqrt2ˣ) := by
  unfold lambdaPow
  cases k with
  | ofNat n =>
    rw [Int.ofNat_eq_natCast, if_pos (Int.natCast_nonneg n), zpow_natCast, Units.val_pow_eq_pow_val]
    rfl
  | negSucc n =>
    rw [if_neg (by omega), zpow_negSucc, ← inv_pow, Units.val_pow_eq_pow_val]
    rfl

theorem lambdaPow_add (k l : Int) : lambdaPow (k + l) = lambdaPow k * lambdaPow l := by
  rw [lambdaPow_eq, lambdaPow_eq, lambdaPow_eq, zpow_add, Units.val_mul]

theorem lambdaPow_zero : lambdaPow 0 = 1 := by
  rw [lambdaPow_eq, zpow_zero, Units.val_one]

theorem lambdaPow_neg_mul (k : Int) : lambdaPow (-k) * lambdaPow k = 1 := by
  rw [← lambdaPow_add, Int.add_left_neg, lambdaPow_zero]

/-- As `λ` has norm `-1`, the powers have norm one and minus one in turns. -/
theorem norm_lambdaPow (k : Int) : (lambdaPow k).norm = k.negOnePow := by
  have hunit : Units.map normHom lambdaUnit = -1 := Units.ext rfl
  have hmap : Units.map normHom (lambdaUnit ^ k) = k.negOnePow := by
    rw [map_zpow, hunit, Int.negOnePow_def]
  rw [lambdaPow_eq]
  exact congrArg Units.val hmap

/-- The conjugate of a power is the inverse, up to the sign that the norm gives. -/
theorem dot_lambdaPow (k : Int) :
    (lambdaPow k).dot = ((k.negOnePow : Int) : ZSqrt2) * lambdaPow (-k) := by
  calc (lambdaPow k).dot = lambdaPow (-k) * (lambdaPow k * (lambdaPow k).dot) := by
        rw [← mul_assoc, lambdaPow_neg_mul, one_mul]
    _ = ((k.negOnePow : Int) : ZSqrt2) * lambdaPow (-k) := by
        rw [mul_dot, norm_lambdaPow, mul_comm]

theorem lambdaPow_two : lambdaPow (2 * 1) = ⟨3, 2⟩ := by
  rw [show (2 * 1 : Int) = 1 + 1 by decide, lambdaPow_add, lambdaPow_eq, zpow_one]
  rfl

theorem lambdaPow_neg_two : lambdaPow (2 * -1) = ⟨3, -2⟩ := by
  rw [show (2 * -1 : Int) = -1 + -1 by decide, lambdaPow_add, lambdaPow_eq, zpow_neg_one]
  rfl

/-! ## Total positivity -/

/-- Holds when both conjugates are positive real numbers. -/
def TotallyPositive (x : ZSqrt2) : Prop := 0 < x.a ∧ 0 < x.norm

/-- Both embeddings are positive where their product and their sum are. -/
theorem totallyPositive_iff {x : ZSqrt2} : x.TotallyPositive ↔ 0 < real x ∧ 0 < real x.dot := by
  have hprod := real_mul_real_dot x
  have hsum : real x + real x.dot = 2 * x.a := by
    rw [real_apply, real_dot]
    ring
  constructor
  · rintro ⟨ha, hn⟩
    have ha' : (0 : ℝ) < x.a := Int.cast_pos.2 ha
    have hn' : 0 < real x * real x.dot := hprod ▸ Int.cast_pos.2 hn
    rcases pos_and_pos_or_neg_and_neg_of_mul_pos hn' with hpos | hneg
    · exact hpos
    · linarith [hneg.1, hneg.2]
  · rintro ⟨h, h'⟩
    have ha : (0 : ℝ) < x.a := by linarith
    exact ⟨Int.cast_pos.1 ha, Int.cast_pos.1 (hprod ▸ mul_pos h h')⟩

/-- The signs decide total positivity. -/
theorem totallyPositive_of_isDoublyPositive {x : ZSqrt2} (hx : x ≠ 0)
    (h : x.isDoublyPositive = true) : x.TotallyPositive := by
  obtain ⟨h1, h2⟩ := isDoublyPositive_iff.1 h
  have hne : real x * real x.dot ≠ 0 := by
    rw [real_mul_real_dot]
    exact Int.cast_ne_zero.2 (mt (norm_eq_zero_iff x).1 hx)
  exact totallyPositive_iff.2
    ⟨h1.lt_of_ne' (left_ne_zero_of_mul hne), h2.lt_of_ne' (right_ne_zero_of_mul hne)⟩

theorem TotallyPositive.isDoublyPositive {x : ZSqrt2} (h : x.TotallyPositive) :
    x.isDoublyPositive = true :=
  isDoublyPositive_iff.2 ((totallyPositive_iff.1 h).imp le_of_lt le_of_lt)

theorem TotallyPositive.ne_zero {x : ZSqrt2} (h : x.TotallyPositive) : x ≠ 0 := by
  rintro rfl
  exact absurd h.1 (by decide)

/-- What is left of a totally positive element after division by one is totally positive. -/
theorem TotallyPositive.of_mul {x y : ZSqrt2} (hxy : (x * y).TotallyPositive)
    (hy : y.TotallyPositive) : x.TotallyPositive := by
  rw [totallyPositive_iff] at hxy hy ⊢
  rw [dot_mul, map_mul, map_mul] at hxy
  exact ⟨(mul_pos_iff_of_pos_right hy.1).1 hxy.1, (mul_pos_iff_of_pos_right hy.2).1 hxy.2⟩

/-- A totally positive unit has norm one. -/
theorem TotallyPositive.norm_eq_one {u : ZSqrt2} (h : u.TotallyPositive) (hu : IsUnit u) :
    u.norm = 1 := by
  have hn := isUnit_iff.1 hu
  have := h.2
  omega

/-! ## Totally positive units -/

/-- Multiplication by the one of `λ²` and `λ⁻²` that is against the sign of the coefficient of `√2`
keeps total positivity and makes that coefficient smaller. -/
theorem exists_smaller {u : ZSqrt2} (ha : 0 < u.a) (hn : u.norm = 1) (hb : u.b ≠ 0) :
    ∃ k : Int, (k = 1 ∨ k = -1) ∧ 0 < (u * lambdaPow (2 * k)).a ∧
      (u * lambdaPow (2 * k)).b.natAbs < u.b.natAbs := by
  unfold norm at hn
  rcases lt_or_gt_of_ne hb with hb | hb
  · have h1 : -u.b < u.a := by nlinarith
    have h2 : u.a < -2 * u.b := by nlinarith
    refine ⟨1, .inl rfl, ?_, ?_⟩
    · rw [lambdaPow_two, mul_a]
      nlinarith
    · rw [lambdaPow_two, mul_b]
      simp only
      omega
  · have h1 : u.b < u.a := by nlinarith
    have h2 : u.a < 2 * u.b := by nlinarith
    refine ⟨-1, .inr rfl, ?_, ?_⟩
    · rw [lambdaPow_neg_two, mul_a]
      nlinarith
    · rw [lambdaPow_neg_two, mul_b]
      simp only
      omega

theorem norm_lambdaPow_two_mul (k : Int) : (lambdaPow (2 * k)).norm = 1 := by
  rw [norm_lambdaPow, Int.negOnePow_two_mul, Units.val_one]

/-- Only the even powers of `λ` have norm one. -/
theorem even_of_norm_lambdaPow {k : Int} (h : (lambdaPow k).norm = 1) : k % 2 = 0 := by
  rw [norm_lambdaPow, Units.val_eq_one, Int.negOnePow_eq_one_iff] at h
  exact Int.even_iff.1 h

/-- **The totally positive units are the even powers of `λ`.** -/
theorem exists_lambdaPow_of_norm_eq_one {u : ZSqrt2} (ha : 0 < u.a) (hn : u.norm = 1) :
    ∃ j : Int, u = lambdaPow (2 * j) := by
  induction hm : u.b.natAbs using Nat.strongRecOn generalizing u with
  | ind m ih =>
    by_cases hb : u.b = 0
    · refine ⟨0, ?_⟩
      have h1 : u.a * u.a = 1 := by
        unfold norm at hn
        rw [hb] at hn
        omega
      have h2 : u.a = 1 := by nlinarith
      have h3 : u = 1 := by
        ext
        · exact h2
        · exact hb
      rw [h3]
      exact lambdaPow_zero.symm
    · obtain ⟨k, -, hpos, hlt⟩ := exists_smaller ha hn hb
      have hn' : (u * lambdaPow (2 * k)).norm = 1 := by
        rw [norm_mul, hn, norm_lambdaPow_two_mul, one_mul]
      obtain ⟨j, hj⟩ := ih _ (hm ▸ hlt) hpos hn' rfl
      refine ⟨j - k, ?_⟩
      calc u = u * lambdaPow (2 * k) * lambdaPow (2 * -k) := by
            rw [mul_assoc, ← lambdaPow_add, show 2 * k + 2 * -k = 0 by omega, lambdaPow_zero, mul_one]
        _ = lambdaPow (2 * (j - k)) := by
            rw [hj, ← lambdaPow_add]
            congr 1
            omega

end CliffordT.ZSqrt2

namespace CliffordT.ZOmega

/-- The square of the absolute value of an element other than zero is totally positive. -/
theorem totallyPositive_norm {u : ZOmega} (hu : u ≠ 0) : u.norm.TotallyPositive := by
  have hn : u.norm.norm ≠ 0 := fun h => hu ((norm_norm_eq_zero_iff u).1 h)
  have ha : u.norm.a ≠ 0 := fun h => hu ((norm_a_eq_zero_iff u).1 h)
  have hnn := norm_norm_nonneg u
  have han := norm_a_nonneg u
  exact ⟨by omega, by omega⟩

end CliffordT.ZOmega
