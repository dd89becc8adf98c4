/-
Powers of `√2` in elements of `ℤ[ω]`.

Division by `√2` halves the sum of the squares of the coefficients, so an element other than zero is
divisible by `√2` only so often. `sqrt2Valuation` counts it.
-/
import CliffordT.Ring.Omega

namespace CliffordT.ZOmega

/-- The sum of the squares of the coefficients, which is the rational part of `|u|²`. -/
def size (u : ZOmega) : Nat := u.norm.a.natAbs

/-- Division by `√2` halves the size. -/
theorem size_reduce {u : ZOmega} (h : u.isReducible = true) : 2 * u.reduce.size = u.size := by
  obtain ⟨a, b, c, d⟩ := u
  simp only [isReducible, Bool.and_eq_true, beq_iff_eq] at h
  obtain ⟨hac, hbd⟩ := h
  have h1 : 2 * (b - d).tdiv 2 = b - d :=
    Int.mul_tdiv_cancel' (Int.dvd_of_emod_eq_zero (by omega))
  have h2 : 2 * (a + c).tdiv 2 = a + c :=
    Int.mul_tdiv_cancel' (Int.dvd_of_emod_eq_zero (by omega))
  have h3 : 2 * (b + d).tdiv 2 = b + d :=
    Int.mul_tdiv_cancel' (Int.dvd_of_emod_eq_zero (by omega))
  have h4 : 2 * (c - a).tdiv 2 = c - a :=
    Int.mul_tdiv_cancel' (Int.dvd_of_emod_eq_zero (by omega))
  simp only [size, norm, reduce]
  generalize (b - d).tdiv 2 = p at *
  generalize (a + c).tdiv 2 = q at *
  generalize (b + d).tdiv 2 = r at *
  generalize (c - a).tdiv 2 = s at *
  have hsum : 2 * (p * p + q * q + r * r + s * s) = a * a + b * b + c * c + d * d := by grind
  omega

/-- Only zero has size zero. -/
theorem size_eq_zero_iff (u : ZOmega) : u.size = 0 ↔ u = 0 := by
  constructor
  · intro h
    have h1 : u.a * u.a + u.b * u.b + u.c * u.c + u.d * u.d = 0 := by
      simpa [size, norm] using h
    rw [← Int.natAbs_mul_self, ← Int.natAbs_mul_self, ← Int.natAbs_mul_self,
      ← Int.natAbs_mul_self] at h1
    have hz : ∀ z : Int, z.natAbs * z.natAbs = 0 → z = 0 := by
      intro z hz
      rcases Nat.mul_eq_zero.1 hz with h2 | h2 <;> exact Int.natAbs_eq_zero.1 h2
    ext
    · exact hz u.a (by omega)
    · exact hz u.b (by omega)
    · exact hz u.c (by omega)
    · exact hz u.d (by omega)
  · intro h
    subst h
    rfl

/-- Division by `√2` makes an element other than zero smaller. -/
theorem size_reduce_lt {u : ZOmega} (h : u ≠ 0 ∧ u.isReducible = true) :
    u.reduce.size < u.size := by
  have h1 := size_reduce h.2
  have h2 : u.size ≠ 0 := fun h0 => h.1 ((size_eq_zero_iff u).1 h0)
  omega

/-- How often `√2` divides an element; for zero the count is left at none. -/
def sqrt2Valuation (u : ZOmega) : Nat :=
  if _h : u ≠ 0 ∧ u.isReducible = true then sqrt2Valuation u.reduce + 1 else 0
termination_by u.size
decreasing_by exact size_reduce_lt _h

/-- What is left of an element once `√2` no longer divides it; zero is left as it is. -/
def withoutSqrt2 (u : ZOmega) : ZOmega :=
  if _h : u ≠ 0 ∧ u.isReducible = true then withoutSqrt2 u.reduce else u
termination_by u.size
decreasing_by exact size_reduce_lt _h

end CliffordT.ZOmega
