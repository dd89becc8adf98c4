/-
The factor of an odd number in `ℤ[√2]` that a root of two gives.

For `x² = 2` modulo `p` there is a homomorphism from `ℤ[√2]` to `ℤ/p` that takes `√2` to `-x`. It
takes both `p` and `x + √2` to zero, and so their greatest common divisor `η`. That is therefore
never a unit, whether `p` is a prime or not. For a prime `p` the homomorphism takes just the
multiples of `η` to zero, so that `η` is a prime element; its norm is `±p`, it does not divide `η•`,
and the exponents of `η` and `η•` in an element add up to that of `p` in its norm.
-/
import Mathlib.FieldTheory.Finite.Basic
import Mathlib.Tactic.IntervalCases
import CliffordT.Norm.Equation
import CliffordT.Proofs.Prime.SquareRoot
import CliffordT.Proofs.Ring.Division

namespace CliffordT.NormEquation

/-- The common divisor of `p` and `x + √2`. -/
def splitFactor (p x : Nat) : ZSqrt2 := (ZSqrt2.ofInt p).gcd ⟨x, 1⟩

variable {p x : Nat}

theorem neg_mul_neg_root (hx : (x : ZMod p) * x = 2) : -(x : ZMod p) * -(x : ZMod p) = 2 := by
  rw [neg_mul_neg, hx]

/-- The homomorphism to `ℤ/p` that takes `√2` to `-x`. -/
def residue (hx : (x : ZMod p) * x = 2) : ZSqrt2 →+* ZMod p :=
  ZSqrt2.lift (-(x : ZMod p)) (neg_mul_neg_root hx)

theorem residue_apply (hx : (x : ZMod p) * x = 2) (z : ZSqrt2) :
    residue hx z = z.a - z.b * x := by
  rw [residue, ZSqrt2.lift_apply]
  ring

theorem splitFactor_dvd_natCast (p x : Nat) : splitFactor p x ∣ (p : ZSqrt2) :=
  ZSqrt2.gcd_dvd_left _ _

/-- The common divisor goes to zero. -/
theorem residue_splitFactor (hx : (x : ZMod p) * x = 2) : residue hx (splitFactor p x) = 0 := by
  obtain ⟨-, -, r, s, h⟩ := ZSqrt2.gcd_spec (ZSqrt2.ofInt p) ⟨x, 1⟩
  have hp : residue hx (ZSqrt2.ofInt p) = 0 := by
    rw [residue_apply]
    simp [ZSqrt2.ofInt]
  have hroot : residue hx ⟨x, 1⟩ = 0 := by
    rw [residue_apply]
    simp
  rw [splitFactor, h, map_add, map_mul, map_mul, hp, hroot, mul_zero, mul_zero, add_zero]

/-- The common divisor is no unit. -/
theorem not_isUnit_splitFactor (hp : 1 < p) (hx : (x : ZMod p) * x = 2) :
    ¬ IsUnit (splitFactor p x) := by
  intro h
  have : Fact (1 < p) := ⟨hp⟩
  have h0 := h.map (residue hx)
  rw [residue_splitFactor] at h0
  exact not_isUnit_zero h0

/-- The norm of the common divisor is neither zero nor `±1`. -/
theorem one_lt_natAbs_norm_splitFactor (hp : 1 < p) (hx : (x : ZMod p) * x = 2) :
    1 < (splitFactor p x).norm.natAbs := by
  have hunit : (splitFactor p x).norm.natAbs ≠ 1 := fun h =>
    not_isUnit_splitFactor hp hx (ZSqrt2.isUnit_iff.2 h)
  have hzero : (splitFactor p x).norm ≠ 0 := by
    intro h
    have hdvd := ZSqrt2.norm_dvd_norm (splitFactor_dvd_natCast p x)
    rw [h, zero_dvd_iff, ZSqrt2.norm_natCast, mul_self_eq_zero] at hdvd
    omega
  omega

/-! ## The factor of an odd prime -/

section Prime

variable [hp : Fact p.Prime]

/-- What goes to zero is divided by the common divisor. -/
theorem residue_eq_zero_iff (hx : (x : ZMod p) * x = 2) {z : ZSqrt2} :
    residue hx z = 0 ↔ splitFactor p x ∣ z := by
  constructor
  · intro h
    have hdvd : (p : Int) ∣ z.a - z.b * x := by
      rw [← ZMod.intCast_zmod_eq_zero_iff_dvd]
      rw [residue_apply] at h
      push_cast
      exact h
    obtain ⟨k, hk⟩ := hdvd
    have hz : z = p * (k : ZSqrt2) + (z.b : ZSqrt2) * ⟨x, 1⟩ := by
      ext
      · simp only [ZSqrt2.add_a, ZSqrt2.mul_a, ZSqrt2.intCast_a, ZSqrt2.intCast_b, ZSqrt2.natCast_a,
          ZSqrt2.natCast_b]
        linarith
      · simp
    rw [hz]
    exact dvd_add (dvd_mul_of_dvd_left (splitFactor_dvd_natCast p x) _)
      (dvd_mul_of_dvd_right (ZSqrt2.gcd_dvd_right _ _) _)
  · rintro ⟨q, rfl⟩
    rw [map_mul, residue_splitFactor, zero_mul]

theorem splitFactor_ne_zero (hx : (x : ZMod p) * x = 2) : splitFactor p x ≠ 0 := by
  intro h
  have hn := one_lt_natAbs_norm_splitFactor hp.out.one_lt hx
  rw [h] at hn
  exact absurd hn (by decide)

/-- The common divisor is a prime element. -/
theorem prime_splitFactor (hx : (x : ZMod p) * x = 2) : Prime (splitFactor p x) := by
  refine ⟨splitFactor_ne_zero hx, not_isUnit_splitFactor hp.out.one_lt hx, ?_⟩
  intro y z h
  rw [← residue_eq_zero_iff hx, map_mul, mul_eq_zero] at h
  exact h.imp (residue_eq_zero_iff hx).1 (residue_eq_zero_iff hx).1

/-- The norm of the common divisor is `±p`. -/
theorem natAbs_norm_splitFactor (hx : (x : ZMod p) * x = 2) :
    (splitFactor p x).norm.natAbs = p := by
  have hdvd : (splitFactor p x).norm.natAbs ∣ p ^ 2 := by
    have h := ZSqrt2.norm_dvd_norm (splitFactor_dvd_natCast p x)
    rw [ZSqrt2.norm_natCast, ← Int.natAbs_dvd_natAbs, Int.natAbs_mul, Int.natAbs_natCast] at h
    rwa [pow_two]
  obtain ⟨i, hi, heq⟩ := (Nat.dvd_prime_pow hp.out).1 hdvd
  have hgt := one_lt_natAbs_norm_splitFactor hp.out.one_lt hx
  interval_cases i
  · rw [pow_zero] at heq
    omega
  · simpa using heq
  · -- then `p` is the common divisor up to a unit, and divides `x + √2`
    obtain ⟨u, hu⟩ := splitFactor_dvd_natCast p x
    have hunit : IsUnit u := by
      rw [ZSqrt2.isUnit_iff]
      have h := congrArg (fun z => (ZSqrt2.norm z).natAbs) hu
      simp only [ZSqrt2.norm_natCast, ZSqrt2.norm_mul, Int.natAbs_mul, heq,
        Int.natAbs_natCast] at h
      have hpos : 0 < p * p := Nat.mul_pos hp.out.pos hp.out.pos
      rw [pow_two] at h
      exact Nat.eq_of_mul_eq_mul_left hpos (by rw [← h, Nat.mul_one])
    have hp1 : (p : ZSqrt2) ∣ ⟨x, 1⟩ := by
      rw [hu, hunit.mul_right_dvd]
      exact ZSqrt2.gcd_dvd_right _ _
    have hone : (p : Int) ∣ 1 := (ZSqrt2.intCast_dvd (n := p).1 hp1).2
    have := Int.eq_one_of_dvd_one (Int.natCast_nonneg p) hone
    have := hp.out.one_lt
    omega

/-- Two is not zero modulo an odd prime. -/
theorem two_ne_zero_of_odd (hodd : p % 2 = 1) : (2 : ZMod p) ≠ 0 := by
  intro h
  have h2 : ((2 : Nat) : ZMod p) = 0 := by exact_mod_cast h
  rw [ZMod.natCast_eq_zero_iff] at h2
  have := Nat.le_of_dvd (by decide) h2
  have := hp.out.two_le
  omega

theorem root_ne_zero (hodd : p % 2 = 1) (hx : (x : ZMod p) * x = 2) : (x : ZMod p) ≠ 0 := by
  intro h
  rw [h, mul_zero] at hx
  exact two_ne_zero_of_odd hodd hx.symm

/-- The factor does not divide its conjugate. -/
theorem not_dvd_dot_splitFactor (hodd : p % 2 = 1) (hx : (x : ZMod p) * x = 2) :
    ¬ splitFactor p x ∣ (splitFactor p x).dot := by
  intro h
  have hroot : (splitFactor p x).dot ∣ ZSqrt2.dot ⟨x, 1⟩ :=
    ZSqrt2.dot_dvd_dot.2 (ZSqrt2.gcd_dvd_right _ _)
  have h0 := (residue_eq_zero_iff hx).2 (h.trans hroot)
  rw [residue_apply] at h0
  have h2 : (2 : ZMod p) * x = 0 := by
    simp only [ZSqrt2.dot, Int.cast_natCast, Int.cast_neg, Int.cast_one] at h0
    linear_combination h0
  exact mul_ne_zero (two_ne_zero_of_odd hodd) (root_ne_zero hodd hx) h2

/-- The conjugate of the factor is a prime element. -/
theorem prime_dot_splitFactor (hx : (x : ZMod p) * x = 2) : Prime (splitFactor p x).dot := by
  have h := prime_splitFactor hx
  refine ⟨fun h0 => h.1 ?_, fun hu => h.2.1 ?_, fun y z hyz => ?_⟩
  · rw [← ZSqrt2.dot_dot (splitFactor p x), h0]
    rfl
  · rw [ZSqrt2.isUnit_iff, ZSqrt2.norm_dot] at hu
    exact ZSqrt2.isUnit_iff.2 hu
  · have hdvd : splitFactor p x ∣ y.dot * z.dot := by
      rw [← ZSqrt2.dot_mul, ← ZSqrt2.dot_dvd_dot, ZSqrt2.dot_dot]
      exact hyz
    refine (h.2.2 _ _ hdvd).imp (fun hy => ?_) fun hz => ?_
    · rwa [← ZSqrt2.dot_dvd_dot, ZSqrt2.dot_dot] at hy
    · rwa [← ZSqrt2.dot_dvd_dot, ZSqrt2.dot_dot] at hz

/-- An element is a product of powers of the factor and of its conjugate, and of an element whose
norm is prime to `p`. -/
theorem exists_eq_split (hodd : p % 2 = 1) (hx : (x : ZMod p) * x = 2) {z : ZSqrt2} (hz : z ≠ 0) :
    ∃ q, z = splitFactor p x ^ z.valuation (splitFactor p x)
        * (splitFactor p x).dot ^ z.valuation (splitFactor p x).dot * q
      ∧ ¬ (p : Int) ∣ q.norm := by
  have hgt := one_lt_natAbs_norm_splitFactor hp.out.one_lt hx
  obtain ⟨r, hr, hnr⟩ := ZSqrt2.valuation_spec hz hgt
  obtain ⟨s, hs, hns⟩ := ZSqrt2.valuation_spec (y := (splitFactor p x).dot) hz
    (by rwa [ZSqrt2.norm_dot])
  have hcop : IsCoprime (splitFactor p x) (splitFactor p x).dot :=
    (prime_splitFactor hx).irreducible.coprime_iff_not_dvd.2 (not_dvd_dot_splitFactor hodd hx)
  generalize hv : z.valuation (splitFactor p x) = v at *
  generalize hw : z.valuation (splitFactor p x).dot = w at *
  obtain ⟨q, hq⟩ := (hcop.pow (m := v) (n := w)).mul_dvd ⟨r, hr⟩ ⟨s, hs⟩
  have hη0 := splitFactor_ne_zero hx
  have hd0 := (prime_dot_splitFactor hx).ne_zero
  refine ⟨q, hq, fun hdvd => ?_⟩
  -- neither the factor nor its conjugate divides what is left
  have hleft : ¬ splitFactor p x ∣ q := by
    rintro ⟨k, rfl⟩
    refine hnr ⟨(splitFactor p x).dot ^ w * k, ?_⟩
    refine mul_left_cancel₀ (pow_ne_zero v hη0) ?_
    rw [← hr, hq]
    ring
  have hright : ¬ (splitFactor p x).dot ∣ q := by
    rintro ⟨k, rfl⟩
    refine hns ⟨splitFactor p x ^ v * k, ?_⟩
    refine mul_left_cancel₀ (pow_ne_zero w hd0) ?_
    rw [← hs, hq]
    ring
  have hpq : splitFactor p x ∣ q * q.dot := by
    rw [ZSqrt2.mul_dot]
    refine (splitFactor_dvd_natCast p x).trans ?_
    exact map_dvd (Int.castRingHom ZSqrt2) hdvd
  rcases (prime_splitFactor hx).2.2 _ _ hpq with h | h
  · exact hleft h
  · rw [← ZSqrt2.dot_dvd_dot, ZSqrt2.dot_dot] at h
    exact hright h

end Prime

/-- The exponent of a prime in a number. -/
theorem exponent_unique {p : Nat} (hp : p.Prime) {a b m n : Nat} (h : p ^ a * m = p ^ b * n)
    (hm : ¬ p ∣ m) (hn : ¬ p ∣ n) : a = b := by
  rcases Nat.lt_trichotomy a b with hlt | heq | hlt
  · obtain ⟨c, rfl⟩ := Nat.exists_eq_add_of_lt hlt
    rw [Nat.add_assoc, pow_add, mul_assoc] at h
    have h' := Nat.eq_of_mul_eq_mul_left (pow_pos hp.pos a) h
    exact absurd ⟨p ^ c * n, by rw [h']; ring⟩ hm
  · exact heq
  · obtain ⟨c, rfl⟩ := Nat.exists_eq_add_of_lt hlt
    rw [Nat.add_assoc, pow_add, mul_assoc] at h
    have h' := Nat.eq_of_mul_eq_mul_left (pow_pos hp.pos b) h
    exact absurd ⟨p ^ c * m, by rw [← h']; ring⟩ hn

/-- The exponents of the factor and of its conjugate add up to the exponent of `p` in the norm. -/
theorem valuation_add_valuation [hp : Fact p.Prime] (hodd : p % 2 = 1)
    (hx : (x : ZMod p) * x = 2) {z : ZSqrt2} (hz : z ≠ 0) {e m : Nat}
    (hn : z.norm.natAbs = p ^ e * m) (hm : ¬ p ∣ m) :
    z.valuation (splitFactor p x) + z.valuation (splitFactor p x).dot = e := by
  obtain ⟨q, hq, hnq⟩ := exists_eq_split hodd hx hz
  have hnorm := congrArg (fun y => (ZSqrt2.norm y).natAbs) hq
  simp only [ZSqrt2.norm_mul, ZSqrt2.norm_pow, ZSqrt2.norm_dot, Int.natAbs_mul, Int.natAbs_pow,
    natAbs_norm_splitFactor hx, ← pow_add] at hnorm
  refine exponent_unique hp.out (hnorm.symm.trans hn) (fun h => hnq ?_) hm
  exact Int.natCast_dvd.2 h

end CliffordT.NormEquation
