/-
Divisibility in `ℤ[√2]` and `ℤ[ω]`.

Rounded quotients make both rings Euclidean for the absolute values of their norms, so that prime
elements are available in both. An exact quotient exists just when the divisor is not zero and
divides; the units are the elements of norm `±1`; a greatest common divisor found by Euclid's
algorithm divides both elements and is a combination of them; and the valuation counts how often an
element that is no unit divides another.
-/
import Mathlib.Algebra.EuclideanDomain.Basic
import Mathlib.RingTheory.PrincipalIdealDomain
import Mathlib.Tactic.Ring
import CliffordT.Norm.Valuation
import CliffordT.Proofs.Ring.Algebra

namespace CliffordT

namespace ZSqrt2

/-! ## The ring of `√2` -/

instance : EuclideanDomain ZSqrt2 where
  quotient x y := x / y
  quotient_zero x := by
    ext
    · show roundDiv _ 0 = 0
      simp [roundDiv]
    · show roundDiv _ 0 = 0
      simp [roundDiv]
  remainder x y := x % y
  quotient_mul_add_remainder_eq x y := by
    show y * (x / y) + (x - x / y * y) = x
    ring
  r x y := x.norm.natAbs < y.norm.natAbs
  r_wellFounded := (measure fun x : ZSqrt2 => x.norm.natAbs).wf
  remainder_lt x y hy := natAbs_norm_mod_lt x hy
  mul_left_not_lt x y hy h := by
    rw [norm_mul, Int.natAbs_mul] at h
    have hpos : 0 < y.norm.natAbs := by
      rw [Int.natAbs_pos]
      exact fun h0 => hy ((norm_eq_zero_iff y).1 h0)
    exact absurd (Nat.le_mul_of_pos_right x.norm.natAbs hpos) (by omega)

/-- The exact quotient exists when the divisor divides and is not zero, and is the quotient. -/
theorem exactDiv?_eq_some_iff {x y q : ZSqrt2} :
    x.exactDiv? y = some q ↔ y ≠ 0 ∧ x = q * y := by
  constructor
  · intro h
    refine ⟨?_, (mul_of_exactDiv?_eq_some h).symm⟩
    rintro rfl
    simp [exactDiv?, norm] at h
  · rintro ⟨hy, rfl⟩
    have hn : y.norm ≠ 0 := fun h => hy ((norm_eq_zero_iff y).1 h)
    have hp : q * y * y.dot = (y.norm : ZSqrt2) * q := by rw [mul_assoc, mul_dot, mul_comm]
    simp [exactDiv?, hp, hn]

/-- Where there is no exact quotient, the divisor is zero or does not divide. -/
theorem exactDiv?_eq_none_iff {x y : ZSqrt2} : x.exactDiv? y = none ↔ y ≠ 0 → ¬ y ∣ x := by
  rw [Option.eq_none_iff_forall_not_mem]
  constructor
  · rintro h hy ⟨q, rfl⟩
    exact h q (exactDiv?_eq_some_iff.2 ⟨hy, mul_comm y q⟩)
  · intro h q hq
    obtain ⟨hy, rfl⟩ := exactDiv?_eq_some_iff.1 hq
    exact h hy (dvd_mul_left y q)

/-- The units are the elements of norm `±1`. -/
theorem isUnit_iff {x : ZSqrt2} : IsUnit x ↔ x.norm.natAbs = 1 := by
  constructor
  · intro h
    exact Int.isUnit_iff_natAbs_eq.1 (h.map normHom)
  · intro h
    have hu : IsUnit (x.norm : ZSqrt2) := (Int.isUnit_iff_natAbs_eq.2 h).map (Int.castRingHom ZSqrt2)
    exact isUnit_of_dvd_unit (dvd_norm x) hu

/-- Euclid's algorithm finds a common divisor that is a combination of the two elements. -/
theorem gcd_spec (x y : ZSqrt2) :
    x.gcd y ∣ x ∧ x.gcd y ∣ y ∧ ∃ r s, x.gcd y = r * x + s * y := by
  fun_induction gcd x y with
  | case1 x => exact ⟨dvd_refl x, dvd_zero x, 1, 0, by ring⟩
  | case2 x y hy ih =>
    obtain ⟨h1, h2, r, s, h3⟩ := ih
    have hx : x / y * y + x % y = x := by
      show x / y * y + (x - x / y * y) = x
      ring
    refine ⟨?_, h1, s, r - s * (x / y), ?_⟩
    · have hdvd := dvd_add (dvd_mul_of_dvd_right h1 (x / y)) h2
      rwa [hx] at hdvd
    · rw [h3]
      show r * y + s * (x - x / y * y) = _
      ring

theorem gcd_dvd_left (x y : ZSqrt2) : x.gcd y ∣ x := (gcd_spec x y).1

theorem gcd_dvd_right (x y : ZSqrt2) : x.gcd y ∣ y := (gcd_spec x y).2.1

/-- Elements whose norms are coprime are coprime. -/
theorem isCoprime_of_norm {x y : ZSqrt2} (h : IsCoprime x.norm y.norm) : IsCoprime x y := by
  have hc : IsCoprime (x.norm : ZSqrt2) (y.norm : ZSqrt2) := h.map (Int.castRingHom ZSqrt2)
  exact (hc.of_isCoprime_of_dvd_left (dvd_norm x)).of_isCoprime_of_dvd_right (dvd_norm y)

/-- The valuation at an element that is no unit is the exact power of it that divides. -/
theorem valuation_spec {x y : ZSqrt2} (hx : x ≠ 0) (hy : 1 < y.norm.natAbs) :
    ∃ q, x = y ^ x.valuation y * q ∧ ¬ y ∣ q := by
  fun_induction valuation x y with
  | case1 x h q hq ih =>
    obtain ⟨hy0, rfl⟩ := exactDiv?_eq_some_iff.1 hq
    obtain ⟨q', hq', hn⟩ := ih (left_ne_zero_of_mul hx)
    refine ⟨q', ?_, hn⟩
    conv_lhs => rw [hq']
    ring
  | case2 x h hq =>
    have hy0 : y ≠ 0 := by
      rintro rfl
      exact absurd hy (by decide)
    exact ⟨x, by simp, exactDiv?_eq_none_iff.1 hq hy0⟩
  | case3 x h => exact absurd ⟨hx, hy⟩ h

end ZSqrt2

namespace ZOmega

/-! ## The ring of `ω` -/

instance : EuclideanDomain ZOmega where
  quotient u v := u / v
  quotient_zero u := by
    ext <;>
      · show roundDiv _ 0 = 0
        simp [roundDiv]
  remainder u v := u % v
  quotient_mul_add_remainder_eq u v := by
    show v * (u / v) + (u - u / v * v) = u
    ring
  r u v := u.norm.norm.natAbs < v.norm.norm.natAbs
  r_wellFounded := (measure fun u : ZOmega => u.norm.norm.natAbs).wf
  remainder_lt u v hv := natAbs_norm_norm_mod_lt u hv
  mul_left_not_lt u v hv h := by
    rw [norm_mul, ZSqrt2.norm_mul, Int.natAbs_mul] at h
    have hpos : 0 < v.norm.norm.natAbs := by
      rw [Int.natAbs_pos]
      exact fun h0 => hv ((norm_norm_eq_zero_iff v).1 h0)
    exact absurd (Nat.le_mul_of_pos_right u.norm.norm.natAbs hpos) (by omega)

/-- The units are the elements whose norm is a unit of `ℤ[√2]`. -/
theorem isUnit_iff {u : ZOmega} : IsUnit u ↔ IsUnit u.norm := by
  constructor
  · exact fun h => h.map normHom
  · intro h
    have hu : IsUnit (ofZSqrt2 u.norm) := h.map ofZSqrt2Hom
    rw [← mul_conj] at hu
    exact isUnit_of_mul_isUnit_left hu

/-- Euclid's algorithm finds a common divisor that is a combination of the two elements. -/
theorem gcd_spec (u v : ZOmega) :
    u.gcd v ∣ u ∧ u.gcd v ∣ v ∧ ∃ r s, u.gcd v = r * u + s * v := by
  fun_induction gcd u v with
  | case1 u => exact ⟨dvd_refl u, dvd_zero u, 1, 0, by ring⟩
  | case2 u v hv ih =>
    obtain ⟨h1, h2, r, s, h3⟩ := ih
    have hu : u / v * v + u % v = u := by
      show u / v * v + (u - u / v * v) = u
      ring
    refine ⟨?_, h1, s, r - s * (u / v), ?_⟩
    · have hdvd := dvd_add (dvd_mul_of_dvd_right h1 (u / v)) h2
      rwa [hu] at hdvd
    · rw [h3]
      show r * v + s * (u - u / v * v) = _
      ring

end ZOmega

end CliffordT
