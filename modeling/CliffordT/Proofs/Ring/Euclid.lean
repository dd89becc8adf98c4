/-
Euclid's algorithm in `ℤ[√2]` and `ℤ[ω]`, as a loop.

The quotient of a division rounds the coefficients of the exact quotient, which are rational, each to
the nearest integer with halves going up: the numerator and the norm of the divisor give the exact
quotient, also where the norm is negative. The remainder has a smaller norm, so that the loop ends
from every pair, zeros included, and never divides by zero. What it ends with divides both elements
and is a combination of them, and is for that a greatest common divisor.
-/
import Mathlib.Data.Rat.Floor
import CliffordT.Proofs.Loop
import CliffordT.Proofs.Ring.Division
import CliffordT.Proofs.Ring.Embedding

namespace CliffordT

/-! ## Rounding -/

/-- A rounded quotient of integers is the nearest integer, a half going up, for a divisor of either
sign. -/
theorem roundDiv_eq_floor (p : Int) {q : Int} (hq : q ≠ 0) :
    roundDiv p q = ⌊(p : ℚ) / q + 1 / 2⌋ := by
  have hpos : ∀ p q : Int, 0 < q → (p + p + q) / (q + q) = ⌊(p : ℚ) / q + 1 / 2⌋ := by
    intro p q hq
    have hfrac : (p : ℚ) / q + 1 / 2 = ((p + p + q : Int) : ℚ) / ((q + q : Int) : ℚ) := by
      push_cast
      field_simp
      ring
    rw [hfrac, Int.floor_div_cast_of_nonneg (by omega), Int.floor_intCast]
  unfold roundDiv
  by_cases hneg : q < 0
  · simp only [hneg, if_true]
    rw [hpos (-p) (-q) (by omega)]
    push_cast
    rw [neg_div_neg_eq]
  · simp only [hneg, if_false]
    exact hpos p q (by omega)

/-! ## The loop -/

section Loop

variable {R : Type} [Zero R] [Mod R] [DecidableEq R]

/-- One round of Euclid's algorithm: leaves with the first element once the second is zero. -/
def euclidStep : R × R → (R × R) ⊕ R
  | (x, y) => if y = 0 then .inr x else .inl (y, x % y)

end Loop

/-- A greatest common divisor of `x` and `y`; any two of them differ by a unit. -/
structure IsGreatestDivisor {R : Type} [CommRing R] (d x y : R) : Prop where
  dvd_left : d ∣ x
  dvd_right : d ∣ y
  dvd_of_dvd : ∀ e, e ∣ x → e ∣ y → e ∣ d

/-- A common divisor that is a combination of the two elements is a greatest one. -/
theorem IsGreatestDivisor.of_combination {R : Type} [CommRing R] {d x y : R}
    (h : d ∣ x ∧ d ∣ y ∧ ∃ r s, d = r * x + s * y) : IsGreatestDivisor d x y where
  dvd_left := h.1
  dvd_right := h.2.1
  dvd_of_dvd e hx hy := by
    obtain ⟨r, s, hd⟩ := h.2.2
    rw [hd]
    exact dvd_add (dvd_mul_of_dvd_right hx r) (dvd_mul_of_dvd_right hy s)

namespace ZSqrt2

/-- The element with the coefficients of the number `α + β√2` that is the quotient of `x` by `y`,
rounded. The rational coefficients of a number are unique, as `√2` is irrational. -/
def IsRoundedQuotient (q x y : ZSqrt2) : Prop :=
  ∃ α β : ℚ, real x / real y = α + β * √2 ∧ q = ⟨⌊α + 1 / 2⌋, ⌊β + 1 / 2⌋⟩

/-- The quotient is the exact one with its coefficients rounded. -/
theorem div_isRoundedQuotient (x : ZSqrt2) {y : ZSqrt2} (hy : y ≠ 0) :
    IsRoundedQuotient (x / y) x y := by
  have hn : y.norm ≠ 0 := fun h => hy ((norm_eq_zero_iff y).1 h)
  have hnorm := real_mul_real_dot y
  have hdot : real y.dot ≠ 0 := right_ne_zero_of_mul (hnorm.trans_ne (Int.cast_ne_zero.2 hn))
  refine ⟨(x * y.dot).a / y.norm, (x * y.dot).b / y.norm, ?_, ?_⟩
  · rw [← mul_div_mul_right _ _ hdot, hnorm, ← map_mul, real_apply]
    push_cast
    ring
  · rw [← roundDiv_eq_floor _ hn, ← roundDiv_eq_floor _ hn]
    rfl

/-- The loop ends from every pair, with the greatest common divisor. -/
theorem euclidStep_ends (x y : ZSqrt2) : LoopEnds euclidStep (x, y) (x.gcd y) := by
  fun_induction gcd x y with
  | case1 x => exact .done (by simp [euclidStep])
  | case2 x y hy ih => exact .next (if_neg hy) ih

end ZSqrt2

namespace ZOmega

/-- The element with the coefficients of the number `aω³ + bω² + cω + d` that is the quotient of `u`
by `v`, rounded. The rational coefficients of a number are unique. -/
def IsRoundedQuotient (q u v : ZOmega) : Prop :=
  ∃ a b c d : ℚ,
    toComplex u / toComplex v
      = a * complexOmega ^ 3 + b * complexOmega ^ 2 + c * complexOmega + d ∧
    q = ⟨⌊a + 1 / 2⌋, ⌊b + 1 / 2⌋, ⌊c + 1 / 2⌋, ⌊d + 1 / 2⌋⟩

/-- The quotient is the exact one with its coefficients rounded. -/
theorem div_isRoundedQuotient (u : ZOmega) {v : ZOmega} (hv : v ≠ 0) :
    IsRoundedQuotient (u / v) u v := by
  have hn : v.norm.norm ≠ 0 := fun h => hv ((norm_norm_eq_zero_iff v).1 h)
  have hnorm : toComplex v * toComplex v.cofactor = v.norm.norm := by
    rw [← map_mul, mul_cofactor]
    exact map_intCast toComplex v.norm.norm
  have hcof : toComplex v.cofactor ≠ 0 :=
    right_ne_zero_of_mul (hnorm.trans_ne (Int.cast_ne_zero.2 hn))
  obtain ⟨p, hp⟩ : ∃ p, p = u * v.cofactor := ⟨_, rfl⟩
  refine ⟨p.a / v.norm.norm, p.b / v.norm.norm, p.c / v.norm.norm, p.d / v.norm.norm, ?_, ?_⟩
  · have hnum : toComplex p
        = p.a * complexOmega ^ 3 + p.b * complexOmega ^ 2 + p.c * complexOmega + p.d := lift_apply p
    rw [← mul_div_mul_right _ _ hcof, hnorm, ← map_mul, ← hp, hnum]
    push_cast
    ring
  · rw [← roundDiv_eq_floor _ hn, ← roundDiv_eq_floor _ hn, ← roundDiv_eq_floor _ hn,
      ← roundDiv_eq_floor _ hn, hp, mul_cofactor_eq]
    rfl

/-- A remainder has a smaller absolute norm than its divisor, without absolute values. -/
theorem norm_norm_mod_lt (u : ZOmega) {v : ZOmega} (hv : v ≠ 0) :
    (u % v).norm.norm < v.norm.norm := by
  have hlt := natAbs_norm_norm_mod_lt u hv
  have hv0 := norm_norm_nonneg v
  omega

/-- The loop ends from every pair, with the greatest common divisor. -/
theorem euclidStep_ends (u v : ZOmega) : LoopEnds euclidStep (u, v) (u.gcd v) := by
  fun_induction gcd u v with
  | case1 u => exact .done (by simp [euclidStep])
  | case2 u v hv ih => exact .next (if_neg hv) ih

end ZOmega

/-! ## Both rings -/

/-- In both rings a division by an element other than zero has the exact quotient, rounded, for its
quotient and leaves a remainder of smaller norm; and Euclid's algorithm ends from every pair with a
greatest common divisor. -/
theorem euclid_correct :
    (∀ x y : ZSqrt2, y ≠ 0 →
      ZSqrt2.IsRoundedQuotient (x / y) x y ∧ x % y = x - x / y * y ∧ |(x % y).norm| < |y.norm|) ∧
    (∀ u v : ZOmega, v ≠ 0 →
      ZOmega.IsRoundedQuotient (u / v) u v ∧ u % v = u - u / v * v ∧
      (u % v).norm.norm < v.norm.norm) ∧
    (∀ x y : ZSqrt2, LoopEnds euclidStep (x, y) (x.gcd y) ∧ IsGreatestDivisor (x.gcd y) x y) ∧
    ∀ u v : ZOmega, LoopEnds euclidStep (u, v) (u.gcd v) ∧ IsGreatestDivisor (u.gcd v) u v := by
  refine ⟨fun x y hy => ⟨ZSqrt2.div_isRoundedQuotient x hy, rfl, ?_⟩,
    fun u v hv => ⟨ZOmega.div_isRoundedQuotient u hv, rfl, ZOmega.norm_norm_mod_lt u hv⟩,
    fun x y => ⟨ZSqrt2.euclidStep_ends x y, .of_combination (ZSqrt2.gcd_spec x y)⟩,
    fun u v => ⟨ZOmega.euclidStep_ends u v, .of_combination (ZOmega.gcd_spec u v)⟩⟩
  have hlt := ZSqrt2.natAbs_norm_mod_lt x hy
  rw [Int.abs_eq_natAbs, Int.abs_eq_natAbs]
  exact_mod_cast hlt

/-- A divisor of negative norm, and a quotient with a half in every coefficient. -/
theorem euclid_correct_halves :
    ((⟨1, 2⟩ : ZSqrt2) ≠ 0 ∧ |((3 : ZSqrt2) % ⟨1, 2⟩).norm| < |(⟨1, 2⟩ : ZSqrt2).norm|) ∧
    (2 : ZOmega) ≠ 0 ∧ (⟨1, 1, 1, 1⟩ : ZOmega) / 2 = ⟨1, 1, 1, 1⟩ ∧
    ((⟨1, 1, 1, 1⟩ : ZOmega) % 2).norm.norm < (2 : ZOmega).norm.norm :=
  ⟨⟨by decide, (euclid_correct.1 3 ⟨1, 2⟩ (by decide)).2.2⟩, by decide, by decide,
    (euclid_correct.2.1 ⟨1, 1, 1, 1⟩ 2 (by decide)).2.2⟩

end CliffordT
