/-
Exact quotients and valuations in `ℤ[√2]`.

A quotient is found just when there is one. Division as long as it is exact goes on for ever only where
every quotient is exact: for zero, and for a unit as the divisor. Otherwise each quotient has a norm of smaller
absolute value, and the count at the end is the greatest exponent of a power of the divisor that divides.
-/
import Mathlib.Order.Bounds.Defs
import CliffordT.Proofs.Norm.Safety

namespace CliffordT.NormEquation

open ZSqrt2

variable {x y : ZSqrt2}

/-- What is neither zero nor a unit has a norm above one in absolute value. -/
theorem one_lt_natAbs_norm (hy : y ≠ 0) (hunit : ¬ IsUnit y) : 1 < y.norm.natAbs := by
  have h0 : y.norm.natAbs ≠ 0 := by
    rw [Int.natAbs_ne_zero]
    exact mt (norm_eq_zero_iff y).1 hy
  have h1 : y.norm.natAbs ≠ 1 := mt isUnit_iff.2 hunit
  omega

/-- The valuation is the greatest exponent of a power that divides. -/
theorem isGreatest_valuation (hx : x ≠ 0) (hy : 1 < y.norm.natAbs) :
    IsGreatest {v | y ^ v ∣ x} (x.valuation y) := by
  obtain ⟨q, hq, hn⟩ := valuation_spec hx hy
  have hy0 : y ≠ 0 := by
    rintro rfl
    exact absurd hy (by decide)
  refine ⟨⟨q, hq⟩, fun v hv => ?_⟩
  by_contra hlt
  -- one more factor would divide the rest `q`
  obtain ⟨r, hr⟩ : y ^ (x.valuation y + 1) ∣ x := (pow_dvd_pow y (by omega)).trans hv
  have hrest : y ^ x.valuation y * q = y ^ x.valuation y * (y * r) := by
    rw [← hq, ← mul_assoc, ← pow_succ, ← hr]
  exact hn ⟨r, mul_left_cancel₀ (pow_ne_zero _ hy0) hrest⟩

/-- Where every quotient is exact, the divisions do not end. -/
theorem not_valuationStep_ends (hy : y ≠ 0) (h : x = 0 ∨ IsUnit y) (v n : Nat) :
    ¬ LoopEnds (valuationStep y) (x, v) n := by
  refine LoopEnds.not_of_invariant (P := fun s => s.1 = 0 ∨ IsUnit y) ?_ h
  rintro ⟨z, w⟩ (hz : z = 0 ∨ IsUnit y)
  obtain ⟨q, rfl⟩ : y ∣ z := by
    rcases hz with rfl | hu
    · exact dvd_zero y
    · exact hu.dvd
  have hstep : valuationStep y (y * q, w) = .inl (q, w + 1) := by
    simp [valuationStep, exactDiv?_eq_some_iff.2 ⟨hy, mul_comm y q⟩]
  refine ⟨(q, w + 1), hstep, hz.imp_left fun h0 => ?_⟩
  exact (mul_eq_zero.1 h0).resolve_left hy

/-- The divisions end for a zero divisor, at once, and for one that is no unit if the element is not zero. -/
theorem exists_valuationStep_ends_iff :
    (∃ n, LoopEnds (valuationStep y) (x, 0) n) ↔ y = 0 ∨ x ≠ 0 ∧ ¬ IsUnit y := by
  by_cases hy : y = 0
  · subst hy
    have hnone : x.exactDiv? 0 = none := exactDiv?_eq_none_iff.2 fun h => absurd rfl h
    exact iff_of_true ⟨0, .done (by simp [valuationStep, hnone])⟩ (.inl rfl)
  · constructor
    · rintro ⟨n, hn⟩
      refine .inr (not_or.1 fun hall => ?_)
      exact not_valuationStep_ends hy hall 0 n hn
    · intro h
      obtain ⟨hx, hunit⟩ := h.resolve_left hy
      exact ⟨_, valuationStep_ends hx (one_lt_natAbs_norm hy hunit) 0⟩

/-- **Division and valuation are exact.** There is an exact quotient just when the divisor is not zero and
divides, and the quotient times the divisor is the dividend. Divided by what is neither zero nor a unit, an element
other than zero leaves the loop of divisions with its valuation, the greatest exponent of a power of the divisor
that divides; by a unit it would never leave. -/
theorem division_and_valuation_exact (x y : ZSqrt2) :
    ((∃ q, x.exactDiv? y = some q) ↔ y ≠ 0 ∧ y ∣ x) ∧
    (∀ q, x.exactDiv? y = some q → q * y = x) ∧
    (x ≠ 0 → y ≠ 0 → ¬ IsUnit y →
      LoopEnds (valuationStep y) (x, 0) (x.valuation y) ∧
        IsGreatest {v | y ^ v ∣ x} (x.valuation y)) ∧
    ((∃ n, LoopEnds (valuationStep y) (x, 0) n) ↔ y = 0 ∨ x ≠ 0 ∧ ¬ IsUnit y) := by
  refine ⟨⟨?_, ?_⟩, fun q hq => mul_of_exactDiv?_eq_some hq, fun hx hy hunit => ?_,
    exists_valuationStep_ends_iff⟩
  · rintro ⟨q, hq⟩
    obtain ⟨hy, hx⟩ := exactDiv?_eq_some_iff.1 hq
    exact ⟨hy, q, by rw [hx, mul_comm]⟩
  · rintro ⟨hy, q, rfl⟩
    exact ⟨q, exactDiv?_eq_some_iff.2 ⟨hy, mul_comm y q⟩⟩
  · have hnorm := one_lt_natAbs_norm hy hunit
    have hends := valuationStep_ends hx hnorm 0
    rw [Nat.zero_add] at hends
    exact ⟨hends, isGreatest_valuation hx hnorm⟩

/-- The divisor `1 - 2√2` of norm `-7` divides `1 + 5√2` twice: its square is `9 - 4√2`, and the unit `1 + √2`
is left. -/
theorem division_and_valuation_exact_twice :
    ¬ IsUnit (⟨1, -2⟩ : ZSqrt2) ∧ LoopEnds (valuationStep ⟨1, -2⟩) (⟨1, 5⟩, 0) 2 ∧
      IsGreatest {v | (⟨1, -2⟩ : ZSqrt2) ^ v ∣ ⟨1, 5⟩} 2 := by
  have hunit : ¬ IsUnit (⟨1, -2⟩ : ZSqrt2) := by
    rw [isUnit_iff]
    decide
  have hcount : (⟨1, 5⟩ : ZSqrt2).valuation ⟨1, -2⟩ = 2 := by decide +kernel
  have h := (division_and_valuation_exact ⟨1, 5⟩ ⟨1, -2⟩).2.2.1 (by decide) (by decide) hunit
  rw [hcount] at h
  exact ⟨hunit, h⟩

end CliffordT.NormEquation
