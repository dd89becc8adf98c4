/-
The denominator exponent is the least one.

A real number `x / √2ᵉ` with `x` in `ℤ[√2]` is brought into the ring by a power of `√2`, and the least exponent
that does it is `e` less the number of times that `√2` divides `x`. For the square of the absolute value of the
upper left entry, `x` is `|u|²` and `e` is `2k`. Without a denominator nothing has to be brought in; with one, `√2`
divides neither entry of the first column, hence `|u|²` at most once.
-/
import Mathlib.Order.Bounds.Defs
import CliffordT.Proofs.Ring.Division
import CliffordT.Proofs.Ring.Embedding
import CliffordT.Proofs.Unitary.Descent

namespace CliffordT

namespace ZSqrt2

/-! ## Powers of `√2` in the denominator -/

def sqrt2 : ZSqrt2 := ⟨0, 1⟩

theorem sqrt2_dvd_iff {x : ZSqrt2} : sqrt2 ∣ x ↔ x.a % 2 = 0 := by
  constructor
  · rintro ⟨q, rfl⟩
    simp only [sqrt2, mul_a]
    omega
  · intro h
    refine ⟨⟨x.b, x.a / 2⟩, ?_⟩
    ext
    · simp only [sqrt2, mul_a]
      omega
    · simp only [sqrt2, mul_b]
      omega

theorem real_sqrt2 : real sqrt2 = √2 := by
  simp [real_apply, sqrt2]

theorem real_injective : Function.Injective real := by
  refine (injective_iff_map_eq_zero real).2 fun x hx => ?_
  have hnorm : (x.norm : ℝ) = 0 := by rw [← real_mul_real_dot, hx, zero_mul]
  exact (norm_eq_zero_iff x).1 (by exact_mod_cast hnorm)

/-- How often `√2` divides an element, counted in either ring. -/
theorem sqrt2Valuation_ofZSqrt2 {x q : ZSqrt2} {n : Nat} (hx : x = sqrt2 ^ n * q) (hq : ¬ sqrt2 ∣ q) :
    (ZOmega.ofZSqrt2 x).sqrt2Valuation = n := by
  refine ZOmega.sqrt2Valuation_eq (v := ZOmega.ofZSqrt2 q) ?_ ?_
  · rw [hx, ZOmega.ofZSqrt2_mul, ZOmega.ofZSqrt2_pow]
    rfl
  · rwa [ZOmega.sqrt2_dvd_ofZSqrt2_iff, ← sqrt2_dvd_iff]

/-- The least power of `√2` that brings `x / √2ᵉ` into the ring. -/
theorem isLeast_exponent {x : ZSqrt2} (hx : x ≠ 0) (e : ℤ) :
    IsLeast {s : ℤ | ∃ y : ZSqrt2, √2 ^ s * (x.real / √2 ^ e) = y.real}
      (e - (ZOmega.ofZSqrt2 x).sqrt2Valuation) := by
  have hne : √2 ≠ (0 : ℝ) := by positivity
  obtain ⟨q, hq, hn⟩ := valuation_spec (y := sqrt2) hx (by decide)
  rw [sqrt2Valuation_ofZSqrt2 hq hn]
  generalize x.valuation sqrt2 = n at hq
  have hreal : x.real = √2 ^ (n : ℤ) * q.real := by
    rw [hq, map_mul, map_pow, real_sqrt2, zpow_natCast]
  have hscale (s : ℤ) : √2 ^ s * (x.real / √2 ^ e) = √2 ^ (s - e + n) * q.real := by
    rw [hreal, zpow_add₀ hne, zpow_sub₀ hne]
    ring
  constructor
  · refine ⟨q, ?_⟩
    rw [hscale, show e - n - e + (n : ℤ) = 0 by ring, zpow_zero, one_mul]
  · rintro s ⟨y, hy⟩
    by_contra hlt
    -- below it, the rest `q` would still have a factor `√2`
    obtain ⟨j, hj⟩ := Int.eq_ofNat_of_zero_le (show 0 ≤ e - n - s - 1 by omega)
    rw [hscale, show s - e + (n : ℤ) = -((j + 1 : ℕ) : ℤ) by push_cast; omega, zpow_neg, zpow_natCast,
      inv_mul_eq_iff_eq_mul₀ (pow_ne_zero _ hne)] at hy
    have heq : q = sqrt2 ^ (j + 1) * y := by
      refine real_injective ?_
      rw [hy, map_mul, map_pow, real_sqrt2]
    exact hn (heq ▸ dvd_mul_of_dvd_left (dvd_pow_self sqrt2 j.succ_ne_zero) y)

end ZSqrt2

namespace Unitary

open ZOmega (sqrt2 sqrt2Round)

/-! ## The exponent of the upper left entry -/

/-- **The denominator exponent is the least one.** For a unitary in normal form with `u ≠ 0`, the loop that takes the
factors `√2` out of `|u|²`, from the exponent `2k` on, ends with the least `s` such that `√2ˢ |u|² / 2ᵏ` is in
`ℤ[√2]`. It is zero for `k = 0`, and `2k` or `2k - 1` for a larger `k`, where `t` is not zero and `√2` divides neither
`u` nor `t`; so it is never negative, and only up to `k = 2` is it three or less. -/
theorem sde_isLeast {m : Unitary} (hm : m.IsNormal) (hu : m.u ≠ 0) :
    LoopEnds sqrt2Round (m.u * m.u.conj, 2 * m.k) ((m.u * m.u.conj).withoutSqrt2, m.sde) ∧
    IsLeast {s : ℤ | ∃ x : ZSqrt2, √2 ^ s * (Complex.normSq (ZOmega.toComplex m.u) / 2 ^ m.k) = x.real} m.sde ∧
    (m.k = 0 → m.sde = 0) ∧
    (1 ≤ m.k → (m.sde = 2 * m.k ∨ m.sde = 2 * m.k - 1) ∧ m.t ≠ 0 ∧ ¬ sqrt2 ∣ m.u ∧ ¬ sqrt2 ∣ m.t) ∧
    0 ≤ m.sde ∧ (m.sde ≤ 3 → m.k ≤ 2) := by
  let n : NormalUnitary := ⟨m, hm⟩
  have hnorm : m.u.norm ≠ 0 := mt (ZOmega.norm_eq_zero_iff m.u).1 hu
  have hsde : m.sde = 2 * m.k - (m.u * m.u.conj).sqrt2Valuation := if_neg hu
  have hzero : m.k = 0 → m.sde = 0 := n.sde_of_zero
  have hpos : 1 ≤ m.k → m.sde = 2 * m.k ∨ m.sde = 2 * m.k - 1 := by
    intro hk
    rw [n.sde_of_pos hk]
    split
    · exact .inr rfl
    · exact .inl (sub_zero _)
  have hk : 0 ≤ m.k := n.k_nonneg
  refine ⟨?_, ?_, hzero, fun h1 => ?_, ?_, ?_⟩
  · rw [hsde]
    refine ZOmega.sqrt2Round_ends ?_ _
    rw [ZOmega.mul_conj]
    exact fun h0 => hnorm (ZOmega.ofZSqrt2_injective h0)
  · have hpow : (2 : ℝ) ^ m.k = √2 ^ (2 * m.k) := by
      rw [zpow_mul]
      congr 1
      exact (Real.sq_sqrt (by norm_num)).symm
    rw [hsde, ZOmega.mul_conj, ZOmega.normSq_toComplex, hpow]
    exact ZSqrt2.isLeast_exponent hnorm _
  · obtain ⟨hdu, hdt⟩ := n.not_dvd h1
    exact ⟨hpos h1, ZOmega.ne_zero_of_not_dvd hdt, hdu, hdt⟩
  · rcases eq_or_lt_of_le hk with h0 | h1
    · exact (hzero h0.symm).ge
    · have := hpos h1
      omega
  · intro h3
    by_contra hlt
    have := hpos (by omega)
    omega

/-- With `u = 1 + ω` over `√2²`, the length `|u|² = 2 + √2` is `√2` times a unit, and the exponent is `2 · 2 - 1`. -/
theorem sde_isLeast_three :
    IsLeast {s : ℤ |
      ∃ x : ZSqrt2, √2 ^ s * (Complex.normSq (ZOmega.toComplex ⟨0, 0, 1, 1⟩) / 2 ^ (2 : ℤ)) = x.real} 3 := by
  let m : Unitary := ⟨⟨0, 0, 1, 1⟩, ⟨0, 0, -1, 1⟩, 2, 1⟩
  have hm : m.IsNormal := ⟨by decide +kernel, by decide⟩
  have hsde : m.sde = 3 := by decide +kernel
  have h := (sde_isLeast hm (by decide)).2.1
  rwa [hsde] at h

end Unitary

end CliffordT
