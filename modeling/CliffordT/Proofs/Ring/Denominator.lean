/-
Powers of `√2` in `ℤ[ω]`, and in squares of absolute values.

Division by `√2` is exact where the coefficients allow it, and the count of divisions, which end for
every element but zero, is the exponent of `√2`. For an element that `√2` does not divide, the
exponent in `|u|²` is zero or one: the rational part of `|u|²` is odd, or the coefficient of `√2` is.
The two cases in which a sum loses powers of `√2` are also here: four odd coefficients give the
exponent three, and twice an element with an odd rational part gives the exponent four.
-/
import Mathlib.Data.ZMod.Basic
import Mathlib.Tactic.Linarith
import CliffordT.Proofs.Loop
import CliffordT.Proofs.Ring.Algebra
import CliffordT.Ring.Denominator

namespace CliffordT.ZOmega

def sqrt2 : ZOmega := ⟨-1, 0, 1, 0⟩

/-! ## Exact division -/

theorem isReducible_iff {u : ZOmega} :
    u.isReducible = true ↔ (u.a + u.c) % 2 = 0 ∧ (u.b + u.d) % 2 = 0 := by
  simp [isReducible]

theorem sqrt2_mul_reduce {u : ZOmega} (h : u.isReducible = true) : sqrt2 * u.reduce = u := by
  obtain ⟨hac, hbd⟩ := isReducible_iff.1 h
  have h1 : 2 * (u.b - u.d).tdiv 2 = u.b - u.d :=
    Int.mul_tdiv_cancel' (Int.dvd_of_emod_eq_zero (by omega))
  have h2 : 2 * (u.a + u.c).tdiv 2 = u.a + u.c :=
    Int.mul_tdiv_cancel' (Int.dvd_of_emod_eq_zero (by omega))
  have h3 : 2 * (u.b + u.d).tdiv 2 = u.b + u.d :=
    Int.mul_tdiv_cancel' (Int.dvd_of_emod_eq_zero (by omega))
  have h4 : 2 * (u.c - u.a).tdiv 2 = u.c - u.a :=
    Int.mul_tdiv_cancel' (Int.dvd_of_emod_eq_zero (by omega))
  ext <;> simp only [sqrt2, reduce, mul_a, mul_b, mul_c, mul_d] <;> linarith

theorem isReducible_sqrt2_mul (u : ZOmega) : (sqrt2 * u).isReducible = true := by
  rw [isReducible_iff]
  simp only [sqrt2, mul_a, mul_b, mul_c, mul_d]
  omega

theorem sqrt2_ne_zero : sqrt2 ≠ 0 := by decide

theorem reduce_sqrt2_mul (u : ZOmega) : (sqrt2 * u).reduce = u :=
  mul_left_cancel₀ sqrt2_ne_zero (sqrt2_mul_reduce (isReducible_sqrt2_mul u))

/-- An element is reducible just when `√2` divides it. -/
theorem isReducible_iff_dvd {u : ZOmega} : u.isReducible = true ↔ sqrt2 ∣ u := by
  constructor
  · intro h
    exact ⟨u.reduce, (sqrt2_mul_reduce h).symm⟩
  · rintro ⟨v, rfl⟩
    exact isReducible_sqrt2_mul v

theorem ne_zero_of_not_dvd {u : ZOmega} (h : ¬ sqrt2 ∣ u) : u ≠ 0 := by
  rintro rfl
  exact h (dvd_zero sqrt2)

/-! ## The exponent of `√2` -/

theorem sqrt2Valuation_sqrt2_mul {u : ZOmega} (hu : u ≠ 0) :
    (sqrt2 * u).sqrt2Valuation = u.sqrt2Valuation + 1 := by
  rw [sqrt2Valuation, dif_pos ⟨mul_ne_zero sqrt2_ne_zero hu, isReducible_sqrt2_mul u⟩,
    reduce_sqrt2_mul]

/-- What is left of an element, with the powers of `√2` that were counted. -/
theorem sqrt2_pow_mul_withoutSqrt2 (u : ZOmega) :
    sqrt2 ^ u.sqrt2Valuation * u.withoutSqrt2 = u := by
  fun_induction withoutSqrt2 u with
  | case1 u h ih =>
    rw [sqrt2Valuation, dif_pos h, pow_succ', mul_assoc, ih, sqrt2_mul_reduce h.2]
  | case2 u h => rw [sqrt2Valuation, dif_neg h, pow_zero, one_mul]

theorem sqrt2Valuation_of_not_dvd {u : ZOmega} (h : ¬ sqrt2 ∣ u) : u.sqrt2Valuation = 0 := by
  rw [sqrt2Valuation, dif_neg]
  rintro ⟨-, hr⟩
  exact h (isReducible_iff_dvd.1 hr)

theorem sqrt2Valuation_pow_mul {u : ZOmega} (hu : u ≠ 0) (n : Nat) :
    (sqrt2 ^ n * u).sqrt2Valuation = u.sqrt2Valuation + n := by
  induction n with
  | zero => rw [pow_zero, one_mul, Nat.add_zero]
  | succ n ih =>
    rw [pow_succ', mul_assoc, sqrt2Valuation_sqrt2_mul (mul_ne_zero (pow_ne_zero n sqrt2_ne_zero) hu),
      ih, Nat.add_assoc]

/-- The exponent is determined by a factor that `√2` does not divide. -/
theorem sqrt2Valuation_eq {u v : ZOmega} {n : Nat} (h : u = sqrt2 ^ n * v) (hv : ¬ sqrt2 ∣ v) :
    u.sqrt2Valuation = n := by
  rw [h, sqrt2Valuation_pow_mul (ne_zero_of_not_dvd hv), sqrt2Valuation_of_not_dvd hv, Nat.zero_add]

/-- One pass of the loop that takes the factors `√2` out of a numerator, and lowers the exponent of the
denominator with each. -/
def sqrt2Round : ZOmega × ℤ → (ZOmega × ℤ) ⊕ (ZOmega × ℤ)
  | (u, k) => if u.isReducible then .inl (u.reduce, k - 1) else .inr (u, k)

/-- The loop ends for every element but zero. -/
theorem sqrt2Round_ends {u : ZOmega} (hu : u ≠ 0) (k : ℤ) :
    LoopEnds sqrt2Round (u, k) (u.withoutSqrt2, k - u.sqrt2Valuation) := by
  fun_induction withoutSqrt2 u generalizing k with
  | case1 u h ih =>
    have hstep : sqrt2Round (u, k) = .inl (u.reduce, k - 1) := if_pos h.2
    have hne : u.reduce ≠ 0 := by
      intro h0
      exact hu (by rw [← sqrt2_mul_reduce h.2, h0, mul_zero])
    have hcount : u.sqrt2Valuation = u.reduce.sqrt2Valuation + 1 := by rw [sqrt2Valuation, dif_pos h]
    have hexp : k - u.sqrt2Valuation = k - 1 - u.reduce.sqrt2Valuation := by
      rw [hcount]
      push_cast
      ring
    rw [hexp]
    exact .next hstep (ih hne (k - 1))
  | case2 u h =>
    have hred : ¬ u.isReducible = true := fun hred => h ⟨hu, hred⟩
    have hcount : u.sqrt2Valuation = 0 := by rw [sqrt2Valuation, dif_neg h]
    rw [hcount, Nat.cast_zero, sub_zero]
    exact .done (if_neg hred)

/-- Started with zero it would not. -/
theorem not_sqrt2Round_ends_zero (k : ℤ) (v : ZOmega × ℤ) : ¬ LoopEnds sqrt2Round (0, k) v := by
  refine LoopEnds.not_of_invariant (P := fun s => s.1 = 0) ?_ rfl
  rintro ⟨_, k⟩ rfl
  exact ⟨(0, k - 1), rfl, rfl⟩

theorem norm_sqrt2 : sqrt2.norm = 2 := rfl

theorem conj_sqrt2 : sqrt2.conj = sqrt2 := rfl

theorem sqrt2_mul_sqrt2 : sqrt2 * sqrt2 = 2 := rfl

/-! ## Squares of absolute values -/

/-- The rational part of `|u|²`, by the two sums that decide whether `√2` divides. -/
theorem norm_a_eq (u : ZOmega) :
    u.norm.a = (u.a + u.c) * (u.a + u.c) + (u.b + u.d) * (u.b + u.d)
      - 2 * (u.a * u.c + u.b * u.d) := by
  simp only [norm]
  ring

/-- The coefficient of `√2` in `|u|²`, by the same sums. -/
theorem norm_b_eq (u : ZOmega) :
    u.norm.b = (u.a + u.c) * (u.b + u.d) - 2 * (u.a * u.d) := by
  simp only [norm]
  ring

theorem mul_self_emod_two (x : Int) : x * x % 2 = x % 2 := by
  rcases Int.emod_two_eq_zero_or_one x with h | h
  · rw [Int.mul_emod, h]; rfl
  · rw [Int.mul_emod, h]; rfl

/-- Where `√2` does not divide and `|u|²` has an even rational part, both sums are odd. -/
theorem odd_sums {u : ZOmega} (hu : ¬ sqrt2 ∣ u) (ha : u.norm.a % 2 = 0) :
    (u.a + u.c) % 2 = 1 ∧ (u.b + u.d) % 2 = 1 := by
  rw [← isReducible_iff_dvd, isReducible_iff] at hu
  rw [norm_a_eq] at ha
  have h1 := mul_self_emod_two (u.a + u.c)
  have h2 := mul_self_emod_two (u.b + u.d)
  omega

/-- Then `|u|²` has an odd coefficient of `√2`. -/
theorem norm_b_odd {u : ZOmega} (hu : ¬ sqrt2 ∣ u) (ha : u.norm.a % 2 = 0) : u.norm.b % 2 = 1 := by
  obtain ⟨h1, h2⟩ := odd_sums hu ha
  have hmul : (u.a + u.c) * (u.b + u.d) % 2 = 1 := by
    rw [Int.mul_emod, h1, h2]
    rfl
  rw [norm_b_eq]
  omega

/-- Where two divides `|u|²`, `√2` divides `u`. -/
theorem dvd_of_norm_even {u : ZOmega} (ha : u.norm.a % 2 = 0) (hb : u.norm.b % 2 = 0) :
    sqrt2 ∣ u := by
  by_contra hu
  have := norm_b_odd hu ha
  omega

/-- Divisibility of a real element by `√2`. -/
theorem sqrt2_dvd_ofZSqrt2_iff {x : ZSqrt2} : sqrt2 ∣ ofZSqrt2 x ↔ x.a % 2 = 0 := by
  rw [← isReducible_iff_dvd, isReducible_iff]
  simp only [ofZSqrt2]
  omega

/-- The exponent of `√2` in `|u|²`. -/
def absValuation (u : ZOmega) : Nat := (u * u.conj).sqrt2Valuation

theorem absValuation_eq {u : ZOmega} {x : ZSqrt2} {n : Nat}
    (h : ofZSqrt2 u.norm = sqrt2 ^ n * ofZSqrt2 x) (hx : x.a % 2 = 1) : u.absValuation = n := by
  refine sqrt2Valuation_eq ((mul_conj u).trans h) ?_
  rw [sqrt2_dvd_ofZSqrt2_iff]
  omega

/-- An odd rational part gives the exponent zero. -/
theorem absValuation_of_odd {u : ZOmega} (h : u.norm.a % 2 = 1) : u.absValuation = 0 :=
  absValuation_eq (by rw [pow_zero, one_mul]) h

/-- An even rational part and an odd coefficient of `√2` give the exponent one. -/
theorem absValuation_of_even {u : ZOmega} (ha : u.norm.a % 2 = 0) (hb : u.norm.b % 2 = 1) :
    u.absValuation = 1 := by
  refine absValuation_eq (x := ⟨u.norm.b, u.norm.a / 2⟩) ?_ hb
  rw [pow_one]
  ext <;> simp only [sqrt2, ofZSqrt2, mul_a, mul_b, mul_c, mul_d] <;> omega

/-- The exponents that occur for an element that `√2` does not divide. -/
theorem absValuation_of_not_dvd {u : ZOmega} (hu : ¬ sqrt2 ∣ u) :
    u.absValuation = if u.norm.a % 2 = 0 then 1 else 0 := by
  split
  · rename_i ha
    exact absValuation_of_even ha (norm_b_odd hu ha)
  · exact absValuation_of_odd (by omega)

/-- Four odd coefficients give the exponent three. -/
theorem absValuation_of_all_odd {u : ZOmega} (ha : u.a % 2 = 1) (hb : u.b % 2 = 1)
    (hc : u.c % 2 = 1) (hd : u.d % 2 = 1) : u.absValuation = 3 := by
  obtain ⟨a, ha⟩ : ∃ a, u.a = 2 * a + 1 := ⟨u.a / 2, by omega⟩
  obtain ⟨b, hb⟩ : ∃ b, u.b = 2 * b + 1 := ⟨u.b / 2, by omega⟩
  obtain ⟨c, hc⟩ : ∃ c, u.c = 2 * c + 1 := ⟨u.c / 2, by omega⟩
  obtain ⟨d, hd⟩ : ∃ d, u.d = 2 * d + 1 := ⟨u.d / 2, by omega⟩
  have hna : u.norm.a = 4 * (a * a + a + b * b + b + c * c + c + d * d + d + 1) := by
    simp only [norm, ha, hb, hc, hd]
    ring
  have hnb : u.norm.b = 2 * (2 * (b * (a + c + 1) + d * (c - a) + c) + 1) := by
    simp only [norm, ha, hb, hc, hd]
    ring
  generalize a * a + a + b * b + b + c * c + c + d * d + d + 1 = p at hna
  generalize b * (a + c + 1) + d * (c - a) + c = q at hnb
  refine absValuation_eq (x := ⟨2 * q + 1, p⟩) ?_ (by show (2 * q + 1) % 2 = 1; omega)
  rw [pow_succ, pow_two, sqrt2_mul_sqrt2, show (2 : ZOmega) = ⟨0, 0, 0, 2⟩ from rfl]
  ext <;> simp only [sqrt2, ofZSqrt2, mul_a, mul_b, mul_c, mul_d, hna, hnb] <;> omega

/-- Twice an element with an odd rational part of `|u|²` has the exponent four. -/
theorem absValuation_two_mul {u : ZOmega} (h : u.norm.a % 2 = 1) : (2 * u).absValuation = 4 := by
  refine absValuation_eq (x := u.norm) ?_ h
  rw [norm_mul, ofZSqrt2_mul, show (4 : Nat) = 2 * 2 from rfl, pow_mul, pow_two sqrt2,
    sqrt2_mul_sqrt2, pow_two]
  rfl

/-- A factor `√2` raises the exponent by two. -/
theorem absValuation_sqrt2_pow_mul {u : ZOmega} (hu : u ≠ 0) (n : Nat) :
    (sqrt2 ^ n * u).absValuation = u.absValuation + 2 * n := by
  have hconj : (sqrt2 ^ n * u).conj = sqrt2 ^ n * u.conj := by
    rw [conj_mul, ← conj_sqrt2]
    exact congrArg (· * u.conj) (map_pow conjHom sqrt2 n)
  have hne : u * u.conj ≠ 0 := by
    rw [mul_conj]
    intro h
    exact hu ((norm_eq_zero_iff u).1 (ofZSqrt2_injective h))
  have heq : sqrt2 ^ n * u * (sqrt2 ^ n * u.conj) = sqrt2 ^ (2 * n) * (u * u.conj) := by ring
  rw [absValuation, hconj, heq, sqrt2Valuation_pow_mul hne, absValuation]

end CliffordT.ZOmega
