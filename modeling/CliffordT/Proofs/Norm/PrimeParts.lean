/-
The part of a solution over one prime.

Over two, and over a prime for which two is no square, the exponent in the norm decides the power
that divides an element: `1 + ω` has the norm `2 + √2`, and an inert prime divides with both
conjugates at once. A factor `η` of a prime that is one modulo 8 splits in `ℤ[ω]`: the common divisor
of `η` and `y + i`, for a root `y` of `-1`, has the norm `η` up to a unit. For a prime that is seven
modulo 8 there is no such root, and `η` divides `u` as soon as it divides `|u|²`, so that it divides
a norm with an even exponent only.
-/
import Mathlib.NumberTheory.LegendreSymbol.QuadraticReciprocity
import CliffordT.Proofs.Norm.Splitting
import CliffordT.Proofs.Prime.SumOfSquares

namespace CliffordT.NormEquation

variable {p : Nat}

/-! ## The definitions, case by case -/

theorem primePart_of_split {xi : ZSqrt2} {e attempts : Nat} (h : p % 8 = 1 ∨ p % 8 = 7) :
    primePart xi p e attempts = (Search.draw (sqrtMod 2 p attempts) >>= fun r =>
      match r with
      | none => pure none
      | some x => Search.draw (splitPart xi p attempts x)) := by
  unfold primePart
  rcases h with h | h
  · rw [h]
    rfl
  · rw [h]
    rfl

/-- The common divisor of the factor `η` and `y + i`. -/
def splitFactorOmega (p x y : Nat) : ZOmega :=
  (ZOmega.ofZSqrt2 (splitFactor p x)).gcd ⟨0, 1, 0, y⟩

theorem splitPart_of_one {xi : ZSqrt2} {attempts x : Nat} (h : p % 8 = 1) :
    splitPart xi p attempts x = (sqrtMod (-1) p attempts >>= fun r =>
      match r with
      | none => pure none
      | some y => pure (some (splitFactorOmega p x y ^ xi.valuation (splitFactor p x)
          * (splitFactorOmega p x y).dot ^ xi.valuation (splitFactor p x).dot))) := by
  unfold splitPart
  rw [if_pos h]
  rfl

theorem splitPart_of_ne {xi : ZSqrt2} {attempts x : Nat} (h : ¬ p % 8 = 1) :
    splitPart xi p attempts x
      = if xi.valuation (splitFactor p x) % 2 = 0 ∧ xi.valuation (splitFactor p x).dot % 2 = 0 then
          pure (some (ZOmega.ofZSqrt2 (splitFactor p x) ^ (xi.valuation (splitFactor p x) / 2)
            * ZOmega.ofZSqrt2 (splitFactor p x).dot ^ (xi.valuation (splitFactor p x).dot / 2)))
        else pure none := by
  unfold splitPart
  rw [if_neg h]
  rfl

/-! ## Two and the inert primes -/

/-- Where an element divides all whose norm the prime divides, the exponent of the prime in the norm
decides how often it divides. -/
theorem exists_pow_dvd (hp : p.Prime) {k : Nat} (hk : 0 < k) {s : ZSqrt2}
    (hs : s.norm.natAbs = p ^ k) (hdvd : ∀ z : ZSqrt2, (p : Int) ∣ z.norm → s ∣ z)
    (e : Nat) {z : ZSqrt2} {m : Nat} (hn : z.norm.natAbs = p ^ e * m) (hm : ¬ p ∣ m) :
    ∃ j, e = k * j ∧ s ^ j ∣ z := by
  induction e using Nat.strongRecOn generalizing z with
  | ind e ih =>
    by_cases he : e = 0
    · exact ⟨0, by omega, by rw [pow_zero]; exact one_dvd z⟩
    have hpz : (p : Int) ∣ z.norm := by
      rw [Int.natCast_dvd, hn]
      exact dvd_mul_of_dvd_left (dvd_pow_self p he) m
    obtain ⟨w, rfl⟩ := hdvd z hpz
    rw [ZSqrt2.norm_mul, Int.natAbs_mul, hs] at hn
    have hle : k ≤ e := by
      by_contra hlt
      obtain ⟨c, rfl⟩ := Nat.exists_eq_add_of_lt (Nat.lt_of_not_le hlt)
      rw [Nat.add_assoc, pow_add, mul_assoc] at hn
      have h := Nat.eq_of_mul_eq_mul_left (pow_pos hp.pos e) hn
      exact hm ⟨p ^ c * w.norm.natAbs, by rw [← h]; ring⟩
    obtain ⟨c, rfl⟩ := Nat.exists_eq_add_of_le hle
    rw [pow_add, mul_assoc] at hn
    have hw := Nat.eq_of_mul_eq_mul_left (pow_pos hp.pos k) hn
    obtain ⟨j, hj, hdvd'⟩ := ih c (by omega) hw
    refine ⟨j + 1, by rw [hj]; ring, ?_⟩
    rw [pow_succ']
    exact mul_dvd_mul_left s hdvd'

/-- An element of even norm is divided by the norm of `1 + ω`. -/
theorem dvd_of_two_dvd_norm {z : ZSqrt2} (h : (2 : Int) ∣ z.norm) :
    (⟨0, 0, 1, 1⟩ : ZOmega).norm ∣ z := by
  obtain ⟨a, b⟩ := z
  have ha : a % 2 = 0 := by
    have h2 : (a * a - b * b * 2) % 2 = 0 := Int.emod_eq_zero_of_dvd h
    rcases Int.emod_two_eq_zero_or_one a with h0 | h1
    · exact h0
    · have : a * a % 2 = 1 := by rw [Int.mul_emod, h1]; rfl
      omega
  refine ⟨⟨a - b, b - a / 2⟩, ?_⟩
  ext
  · show a = 2 * (a - b) + 1 * (b - a / 2) * 2
    omega
  · show b = 2 * (b - a / 2) + 1 * (a - b)
    omega

/-- A prime for which two is no square divides an element when it divides the norm. -/
theorem dvd_of_dvd_norm_of_inert [hp : Fact p.Prime] (h2 : ¬ IsSquare (2 : ZMod p)) {z : ZSqrt2}
    (h : (p : Int) ∣ z.norm) : (p : ZSqrt2) ∣ z := by
  have hz : (z.a : ZMod p) * z.a = 2 * (z.b * z.b) := by
    rw [← ZMod.intCast_zmod_eq_zero_iff_dvd, ZSqrt2.norm] at h
    push_cast at h
    linear_combination h
  have hb : (z.b : ZMod p) = 0 := by
    by_contra hb
    refine h2 ⟨z.a / z.b, ?_⟩
    field_simp
    rw [pow_two, pow_two]
    exact hz.symm
  have ha : (z.a : ZMod p) = 0 := by
    rw [hb, mul_zero, mul_zero] at hz
    exact mul_self_eq_zero.1 hz
  refine (ZSqrt2.intCast_dvd (n := p)).2 ⟨?_, ?_⟩
  · exact (ZMod.intCast_zmod_eq_zero_iff_dvd _ _).1 ha
  · exact (ZMod.intCast_zmod_eq_zero_iff_dvd _ _).1 hb

/-! ## A factor that splits further -/

section Split

variable [hp : Fact p.Prime] {x y : Nat}

/-- The image of `ω` in `ℤ/p`, for a root `x` of two and a root `y` of `-1`. -/
def omegaResidue (p x y : Nat) [Fact p.Prime] : ZMod p := (y - 1) * (x : ZMod p)⁻¹

theorem omegaResidue_sq (hodd : p % 2 = 1) (hx : (x : ZMod p) * x = 2)
    (hy : (y : ZMod p) * y = -1) : omegaResidue p x y ^ 2 = -y := by
  have hx0 := root_ne_zero hodd hx
  unfold omegaResidue
  rw [mul_pow, inv_pow, ← div_eq_mul_inv, div_eq_iff (pow_ne_zero 2 hx0)]
  linear_combination hy + (y : ZMod p) * hx

theorem omegaResidue_pow_four (hodd : p % 2 = 1) (hx : (x : ZMod p) * x = 2)
    (hy : (y : ZMod p) * y = -1) : omegaResidue p x y ^ 4 = -1 := by
  have h := omegaResidue_sq hodd hx hy
  calc omegaResidue p x y ^ 4 = (omegaResidue p x y ^ 2) ^ 2 := by ring
    _ = -1 := by
      rw [h]
      linear_combination hy

/-- The homomorphism from `ℤ[ω]` to `ℤ/p` that takes `√2` to `-x` and `i` to `-y`. -/
def residueOmega (hodd : p % 2 = 1) (hx : (x : ZMod p) * x = 2) (hy : (y : ZMod p) * y = -1) :
    ZOmega →+* ZMod p :=
  ZOmega.lift (omegaResidue p x y) (omegaResidue_pow_four hodd hx hy)

theorem residueOmega_ofZSqrt2 (hodd : p % 2 = 1) (hx : (x : ZMod p) * x = 2)
    (hy : (y : ZMod p) * y = -1) (z : ZSqrt2) :
    residueOmega hodd hx hy (ZOmega.ofZSqrt2 z) = residue hx z := by
  have hx0 := root_ne_zero hodd hx
  have hsq := omegaResidue_sq hodd hx hy
  have hsqrt : omegaResidue p x y * (1 + y) = -x := by
    unfold omegaResidue
    rw [mul_right_comm, ← div_eq_mul_inv, div_eq_iff hx0]
    linear_combination hy + hx
  rw [residueOmega, ZOmega.lift_apply, residue_apply]
  simp only [ZOmega.ofZSqrt2, Int.cast_neg, Int.cast_zero]
  linear_combination (z.b : ZMod p) * hsqrt - (z.b : ZMod p) * omegaResidue p x y * hsq

theorem not_isUnit_splitFactorOmega (hodd : p % 2 = 1) (hx : (x : ZMod p) * x = 2)
    (hy : (y : ZMod p) * y = -1) : ¬ IsUnit (splitFactorOmega p x y) := by
  intro h
  obtain ⟨-, -, r, s, hrs⟩ := ZOmega.gcd_spec (ZOmega.ofZSqrt2 (splitFactor p x)) ⟨0, 1, 0, y⟩
  have hroot : residueOmega hodd hx hy ⟨0, 1, 0, y⟩ = 0 := by
    rw [residueOmega, ZOmega.lift_apply]
    simp [omegaResidue_sq hodd hx hy]
  have h0 : residueOmega hodd hx hy (splitFactorOmega p x y) = 0 := by
    rw [splitFactorOmega, hrs, map_add, map_mul, map_mul, residueOmega_ofZSqrt2,
      residue_splitFactor, hroot, mul_zero, mul_zero, add_zero]
  have hu := h.map (residueOmega hodd hx hy)
  rw [h0] at hu
  exact not_isUnit_zero hu

/-- The factor of an odd prime does not divide `y + i`. -/
theorem not_ofZSqrt2_dvd (hodd : p % 2 = 1) (hx : (x : ZMod p) * x = 2) :
    ¬ ZOmega.ofZSqrt2 (splitFactor p x) ∣ ⟨0, 1, 0, y⟩ := by
  intro h
  have hconj := ZOmega.conj_dvd_conj h
  rw [ZOmega.conj_ofZSqrt2] at hconj
  have hsub := ZOmega.norm_dvd_norm (dvd_sub h hconj)
  have hfour : ((⟨0, 1, 0, y⟩ : ZOmega) - ZOmega.conj ⟨0, 1, 0, y⟩).norm = 4 := by
    ext <;> simp [ZOmega.norm] <;> rfl
  rw [hfour, ZOmega.norm_ofZSqrt2] at hsub
  have h0 := (residue_eq_zero_iff hx).2 ((dvd_mul_right _ _).trans hsub)
  have h4 : (2 : ZMod p) * 2 = 0 := by
    rw [residue_apply] at h0
    have : ((4 : ZSqrt2).a : ZMod p) - ((4 : ZSqrt2).b : ZMod p) * x = 0 := h0
    have ha : (4 : ZSqrt2).a = 4 := rfl
    have hb : (4 : ZSqrt2).b = 0 := rfl
    rw [ha, hb] at this
    push_cast at this
    linear_combination this
  exact mul_ne_zero (two_ne_zero_of_odd hodd) (two_ne_zero_of_odd hodd) h4

/-- **The norm of the common divisor is `η`, up to a unit.** -/
theorem associated_norm_splitFactorOmega (hodd : p % 2 = 1) (hx : (x : ZMod p) * x = 2)
    (hy : (y : ZMod p) * y = -1) :
    Associated (splitFactorOmega p x y).norm (splitFactor p x) := by
  obtain ⟨hleft, hright, -⟩ :=
    ZOmega.gcd_spec (ZOmega.ofZSqrt2 (splitFactor p x)) ⟨0, 1, 0, y⟩
  have hdvd : (splitFactorOmega p x y).norm ∣ splitFactor p x ^ 2 := by
    have h := ZOmega.norm_dvd_norm hleft
    rwa [ZOmega.norm_ofZSqrt2, ← pow_two] at h
  obtain ⟨i, hi, hassoc⟩ := (dvd_prime_pow (prime_splitFactor hx) 2).1 hdvd
  interval_cases i
  · rw [pow_zero, associated_one_iff_isUnit] at hassoc
    exact absurd (ZOmega.isUnit_iff.2 hassoc) (not_isUnit_splitFactorOmega hodd hx hy)
  · rwa [pow_one] at hassoc
  · -- then the common divisor is `η` up to a unit, and `η` divides `y + i`
    obtain ⟨u, hu⟩ := hleft
    have hnorm := congrArg ZOmega.norm hu
    rw [ZOmega.norm_ofZSqrt2, ← pow_two, ZOmega.norm_mul] at hnorm
    have hne : (splitFactorOmega p x y).norm ≠ 0 := by
      intro h0
      rw [h0] at hassoc
      exact pow_ne_zero 2 (splitFactor_ne_zero hx) (hassoc.symm.eq_zero_iff.2 rfl)
    have hunit : IsUnit u := by
      rw [ZOmega.isUnit_iff]
      refine isUnit_of_associated_mul (p := (splitFactorOmega p x y).norm) ?_ hne
      exact (Associated.of_eq hnorm.symm).trans hassoc.symm
    have hdvd' : ZOmega.ofZSqrt2 (splitFactor p x) ∣ ⟨0, 1, 0, y⟩ := by
      rw [hu, hunit.mul_right_dvd]
      exact hright
    exact absurd hdvd' (not_ofZSqrt2_dvd hodd hx)

end Split

/-! ## A factor that stays prime -/

section Inert

variable [hp : Fact p.Prime] {x : Nat}

/-- An element of `ℤ[ω]` by its coefficients over `1` and `ω`. -/
theorem eq_add_mul_omega (u : ZOmega) :
    u = ZOmega.ofZSqrt2 ⟨u.d - u.b, -u.a⟩ + ZOmega.ofZSqrt2 ⟨u.a + u.c, u.b⟩ * ⟨0, 0, 1, 0⟩ := by
  ext <;> simp [ZOmega.ofZSqrt2]

/-- Twice the norm is a sum of two squares in `ℤ[√2]`. -/
theorem two_mul_norm_eq (u : ZOmega) :
    2 * u.norm = (⟨0, 1⟩ * ⟨u.d - u.b, -u.a⟩ + ⟨u.a + u.c, u.b⟩) ^ 2
      + (⟨u.a + u.c, u.b⟩ : ZSqrt2) ^ 2 := by
  have h2 : (2 : ZSqrt2) = ⟨2, 0⟩ := rfl
  rw [pow_two, pow_two, h2]
  ext
  · simp only [ZOmega.norm, ZSqrt2.mul_a, ZSqrt2.add_a, ZSqrt2.mul_b, ZSqrt2.add_b]
    ring
  · simp only [ZOmega.norm, ZSqrt2.mul_a, ZSqrt2.add_a, ZSqrt2.mul_b, ZSqrt2.add_b]
    ring

/-- Where `-1` is no square, a sum of two squares is zero only for zeros. -/
theorem eq_zero_of_sq_add_sq {K : Type} [Field K] (h : ¬ IsSquare (-1 : K)) {a b : K}
    (hab : a ^ 2 + b ^ 2 = 0) : b = 0 := by
  by_contra hb
  refine h ⟨a / b, ?_⟩
  field_simp
  linear_combination -hab

/-- Where `-1` is no square modulo `p`, a factor that divides the norm divides the element. -/
theorem ofZSqrt2_dvd_of_dvd_norm (hodd : p % 2 = 1) (hneg : ¬ IsSquare (-1 : ZMod p))
    (hx : (x : ZMod p) * x = 2) {u : ZOmega} (h : splitFactor p x ∣ u.norm) :
    ZOmega.ofZSqrt2 (splitFactor p x) ∣ u := by
  have h0 : residue hx (2 * u.norm) = 0 := by
    rw [map_mul, (residue_eq_zero_iff hx).2 h, mul_zero]
  rw [two_mul_norm_eq, map_add, map_pow, map_pow, map_add, map_mul] at h0
  have hB := eq_zero_of_sq_add_sq hneg h0
  rw [hB] at h0
  have hsqrt : residue hx ⟨0, 1⟩ = -x := by
    rw [residue_apply]
    push_cast
    ring
  have hA : residue hx ⟨u.d - u.b, -u.a⟩ = 0 := by
    rw [hsqrt, add_zero, zero_pow two_ne_zero, add_zero, pow_eq_zero_iff two_ne_zero,
      mul_eq_zero, neg_eq_zero] at h0
    exact h0.resolve_left (root_ne_zero hodd hx)
  rw [eq_add_mul_omega u]
  refine dvd_add ?_ (dvd_mul_of_dvd_left ?_ _)
  · exact map_dvd ZOmega.ofZSqrt2Hom ((residue_eq_zero_iff hx).1 hA)
  · exact map_dvd ZOmega.ofZSqrt2Hom ((residue_eq_zero_iff hx).1 hB)

/-- **A factor that stays prime divides a norm with an even exponent.** -/
theorem even_of_norm_eq (hodd : p % 2 = 1) (hneg : ¬ IsSquare (-1 : ZMod p))
    (hx : (x : ZMod p) * x = 2) (n : Nat) {u : ZOmega} {q : ZSqrt2}
    (hu : u.norm = splitFactor p x ^ n * q) (hq : ¬ splitFactor p x ∣ q) : n % 2 = 0 := by
  have hη0 := splitFactor_ne_zero hx
  induction n using Nat.strongRecOn generalizing u with
  | ind n ih =>
    by_cases hn : n = 0
    · omega
    have hdvd : splitFactor p x ∣ u.norm := by
      rw [hu]
      exact dvd_mul_of_dvd_left (dvd_pow_self _ hn) q
    obtain ⟨w, rfl⟩ := ofZSqrt2_dvd_of_dvd_norm hodd hneg hx hdvd
    rw [ZOmega.norm_mul, ZOmega.norm_ofZSqrt2] at hu
    by_cases h1 : n = 1
    · rw [h1, pow_one, mul_assoc] at hu
      exact absurd ⟨w.norm, (mul_left_cancel₀ hη0 hu).symm⟩ hq
    · obtain ⟨k, rfl⟩ : ∃ k, n = k + 2 := ⟨n - 2, by omega⟩
      have hw : w.norm = splitFactor p x ^ k * q := by
        refine mul_left_cancel₀ (mul_ne_zero hη0 hη0) ?_
        rw [hu]
        ring
      have := ih k (by omega) hw
      omega

/-- Where a factor of `p` stays prime, a norm has even exponents at the factor and its conjugate. -/
theorem even_valuation_of_norm_eq (hodd : p % 2 = 1) (hneg : ¬ IsSquare (-1 : ZMod p))
    (hx : (x : ZMod p) * x = 2) {u : ZOmega} (hu : u.norm ≠ 0) :
    u.norm.valuation (splitFactor p x) % 2 = 0 ∧
      u.norm.valuation (splitFactor p x).dot % 2 = 0 := by
  have hgt := one_lt_natAbs_norm_splitFactor hp.out.one_lt hx
  obtain ⟨r, hr, hnr⟩ := ZSqrt2.valuation_spec hu hgt
  obtain ⟨s, hs, hns⟩ := ZSqrt2.valuation_spec (y := (splitFactor p x).dot) hu
    (by rwa [ZSqrt2.norm_dot])
  refine ⟨even_of_norm_eq hodd hneg hx _ hr hnr, ?_⟩
  have hdot := congrArg ZSqrt2.dot hs
  rw [← ZOmega.norm_dot, ZSqrt2.dot_mul, ZSqrt2.dot_pow, ZSqrt2.dot_dot] at hdot
  refine even_of_norm_eq hodd hneg hx _ hdot fun h => hns ?_
  rwa [← ZSqrt2.dot_dvd_dot, ZSqrt2.dot_dot] at h

end Inert

end CliffordT.NormEquation
