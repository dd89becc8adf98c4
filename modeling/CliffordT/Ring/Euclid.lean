/-
Euclid's algorithm in `ℤ[√2]` and `ℤ[ω]`.

Both rings divide with a remainder of smaller norm. For `ℤ[√2]`, with `n` the norm of the divisor
`y`, the remainder times the conjugate of `y` has both coefficients at most `n / 2`, so its norm is
at most `n² / 2` in absolute value. For `ℤ[ω]` the remainder times `v̄ (v v̄)•` has four coefficients
of that kind, and its norm `A² - 2B²` stays below `n⁴`: either `A < n²`, or all four coefficients are
`n / 2` in absolute value and then `B` is not zero.

Main statements: `ZSqrt2.natAbs_norm_mod_lt` and `ZOmega.natAbs_norm_norm_mod_lt`.
-/
import CliffordT.Ring.Denominator

namespace CliffordT

/-! ## Rounded quotients of integers -/

/-- The remainder of a rounded quotient, doubled, lies between `-|q|` and `|q|`. -/
theorem natAbs_sub_roundDiv_le (p : Int) {q : Int} (hq : q ≠ 0) :
    2 * (p - roundDiv p q * q).natAbs ≤ q.natAbs := by
  unfold roundDiv
  by_cases h : q < 0
  · simp only [h, if_true]
    have h1 := Int.mul_ediv_add_emod (-p + -p + -q) (-q + -q)
    have h2 := Int.emod_nonneg (-p + -p + -q) (b := -q + -q) (by omega)
    have h3 := Int.emod_lt_of_pos (-p + -p + -q) (b := -q + -q) (by omega)
    generalize (-p + -p + -q) / (-q + -q) = m at *
    generalize (-p + -p + -q) % (-q + -q) = r at *
    have h4 : (-q + -q) * m = -(2 * (m * q)) := by grind
    omega
  · simp only [h, if_false]
    have h1 := Int.mul_ediv_add_emod (p + p + q) (q + q)
    have h2 := Int.emod_nonneg (p + p + q) (b := q + q) (by omega)
    have h3 := Int.emod_lt_of_pos (p + p + q) (b := q + q) (by omega)
    generalize (p + p + q) / (q + q) = m at *
    generalize (p + p + q) % (q + q) = r at *
    have h4 : (q + q) * m = 2 * (m * q) := by grind
    omega

/-- The square of a bounded integer. -/
theorem mul_self_le_of_natAbs_le {e n : Int} (h : 2 * e.natAbs ≤ n.natAbs) :
    4 * (e * e) ≤ n * n := by
  have h1 : (2 * e.natAbs) * (2 * e.natAbs) ≤ n.natAbs * n.natAbs := Nat.mul_le_mul h h
  have h2 : ((e.natAbs * e.natAbs : Nat) : Int) = e * e := Int.natAbs_mul_self
  have h3 : ((n.natAbs * n.natAbs : Nat) : Int) = n * n := Int.natAbs_mul_self
  have h4 : (2 * e.natAbs) * (2 * e.natAbs) = 4 * (e.natAbs * e.natAbs) := by grind
  omega

/-- Integers with equal squares are equal up to sign. -/
theorem eq_or_eq_neg_of_mul_self {x y : Int} (h : x * x = y * y) : x = y ∨ x = -y := by
  have hprod : (x - y) * (x + y) = 0 := by grind
  rcases Int.mul_eq_zero.1 hprod with h0 | h0
  · left; omega
  · right; omega

/-- Twice a square is a square only for zero. -/
theorem eq_zero_of_mul_self_eq_two_mul (a b : Nat) (h : a * a = 2 * (b * b)) : a = 0 := by
  induction a using Nat.strongRecOn generalizing b with
  | ind a ih =>
    by_cases ha : a = 0
    · exact ha
    · have heven : a % 2 = 0 := by
        have h1 : a * a % 2 = 0 := by omega
        rcases Nat.mod_two_eq_zero_or_one a with h2 | h2
        · exact h2
        · simp [Nat.mul_mod, h2] at h1
      have hc : a = 2 * (a / 2) := by omega
      have hb : b * b = 2 * (a / 2 * (a / 2)) := by
        rw [hc] at h
        grind
      have hlt : b < a := by
        apply Nat.lt_of_not_le
        intro hle
        have := Nat.mul_le_mul hle hle
        have hpos : 0 < a * a := Nat.mul_pos (by omega) (by omega)
        omega
      have hb0 := ih b hlt (a / 2) hb
      rw [hb0] at h
      rcases Nat.mul_eq_zero.1 h with h0 | h0 <;> exact h0

namespace ZSqrt2

/-! ## The ring of `√2` -/

/-- The norm is multiplicative. -/
theorem norm_mul (x y : ZSqrt2) : (x * y).norm = x.norm * y.norm := by
  simp only [norm, mul_a, mul_b]
  grind

/-- The conjugate has the same norm. -/
theorem norm_dot (x : ZSqrt2) : x.dot.norm = x.norm := by
  simp only [norm, dot]
  grind

/-- Only zero has norm zero: `2b²` is a square for `b = 0` alone. -/
theorem norm_eq_zero_iff (x : ZSqrt2) : x.norm = 0 ↔ x = 0 := by
  constructor
  · intro h
    have ha : ((x.a.natAbs * x.a.natAbs : Nat) : Int) = x.a * x.a := Int.natAbs_mul_self
    have hb : ((x.b.natAbs * x.b.natAbs : Nat) : Int) = x.b * x.b := Int.natAbs_mul_self
    have h2 : x.a.natAbs * x.a.natAbs = 2 * (x.b.natAbs * x.b.natAbs) := by
      unfold norm at h
      omega
    have ha0 := eq_zero_of_mul_self_eq_two_mul _ _ h2
    rw [ha0] at h2
    have hb0 : x.b.natAbs = 0 := by
      rcases Nat.mul_eq_zero.1 (by omega : x.b.natAbs * x.b.natAbs = 0) with h | h <;> exact h
    ext
    · simpa using ha0
    · simpa using hb0
  · intro h
    subst h
    rfl

/-- The remainder times the conjugate of the divisor is the remainder of the rounded
coefficients. -/
theorem mod_mul_dot (x y : ZSqrt2) :
    (x % y * y.dot).a = (x * y.dot).a - roundDiv (x * y.dot).a y.norm * y.norm ∧
    (x % y * y.dot).b = (x * y.dot).b - roundDiv (x * y.dot).b y.norm * y.norm := by
  show ((x - x / y * y) * y.dot).a = _ ∧ ((x - x / y * y) * y.dot).b = _
  have hq : x / y = ⟨roundDiv (x * y.dot).a y.norm, roundDiv (x * y.dot).b y.norm⟩ := rfl
  rw [hq]
  generalize roundDiv (x * y.dot).a y.norm = qa
  generalize roundDiv (x * y.dot).b y.norm = qb
  simp only [sub_a, sub_b, mul_a, mul_b, dot, norm]
  constructor <;> grind

/-- A remainder has a smaller norm than its divisor. -/
theorem natAbs_norm_mod_lt (x : ZSqrt2) {y : ZSqrt2} (hy : y ≠ 0) :
    (x % y).norm.natAbs < y.norm.natAbs := by
  have hn : y.norm ≠ 0 := fun h => hy ((norm_eq_zero_iff y).1 h)
  obtain ⟨ha, hb⟩ := mod_mul_dot x y
  have ea := mul_self_le_of_natAbs_le (natAbs_sub_roundDiv_le (x * y.dot).a hn)
  have eb := mul_self_le_of_natAbs_le (natAbs_sub_roundDiv_le (x * y.dot).b hn)
  rw [← ha] at ea
  rw [← hb] at eb
  have hmul : (x % y).norm * y.norm = (x % y * y.dot).norm := by rw [norm_mul, norm_dot]
  generalize x % y * y.dot = e at *
  have ha0 : 0 ≤ e.a * e.a := by rw [← Int.natAbs_mul_self]; omega
  have hb0 : 0 ≤ e.b * e.b := by rw [← Int.natAbs_mul_self]; omega
  have hpos : 0 < (y.norm * y.norm).natAbs := by
    rw [Int.natAbs_mul]
    exact Nat.mul_pos (by omega) (by omega)
  apply Nat.lt_of_not_le
  intro hle
  have hle' : y.norm.natAbs * y.norm.natAbs ≤ (x % y).norm.natAbs * y.norm.natAbs :=
    Nat.mul_le_mul_right _ hle
  rw [← Int.natAbs_mul, ← Int.natAbs_mul, hmul] at hle'
  have he : e.norm = e.a * e.a - e.b * e.b * 2 := rfl
  omega

/-- A greatest common divisor, up to a unit, by Euclid's algorithm. -/
def gcd (x y : ZSqrt2) : ZSqrt2 :=
  if _h : y = 0 then x else gcd y (x % y)
termination_by y.norm.natAbs
decreasing_by exact natAbs_norm_mod_lt x (by assumption)

end ZSqrt2

namespace ZOmega

/-! ## The ring of `ω` -/

/-- The norm is multiplicative. -/
theorem norm_mul (u v : ZOmega) : (u * v).norm = u.norm * v.norm := by
  ext
  · simp only [norm, mul_a, mul_b, mul_c, mul_d, ZSqrt2.mul_a]
    grind
  · simp only [norm, mul_a, mul_b, mul_c, mul_d, ZSqrt2.mul_b]
    grind

/-- The complex conjugate has the same norm. -/
theorem norm_conj (u : ZOmega) : u.conj.norm = u.norm := by
  ext <;> simp only [norm, conj] <;> grind

/-- The norm of the conjugate under `√2 ↦ -√2` is the conjugate of the norm. -/
theorem norm_dot (u : ZOmega) : u.dot.norm = u.norm.dot := by
  ext <;> simp only [norm, dot, ZSqrt2.dot] <;> grind

/-- The absolute norm is a sum of two squares. -/
theorem norm_norm_eq (u : ZOmega) :
    u.norm.norm = (u.d * u.d - u.b * u.b + 2 * (u.a * u.c)) * (u.d * u.d - u.b * u.b + 2 * (u.a * u.c))
      + (2 * (u.b * u.d) - u.c * u.c + u.a * u.a) * (2 * (u.b * u.d) - u.c * u.c + u.a * u.a) := by
  simp only [norm, ZSqrt2.norm]
  grind

/-- The absolute norm is not negative. -/
theorem norm_norm_nonneg (u : ZOmega) : 0 ≤ u.norm.norm := by
  have hsq : ∀ z : Int, 0 ≤ z * z := by
    intro z
    rw [← Int.natAbs_mul_self]
    omega
  rw [norm_norm_eq]
  exact Int.add_nonneg (hsq _) (hsq _)

/-- Only zero has absolute norm zero. -/
theorem norm_norm_eq_zero_iff (u : ZOmega) : u.norm.norm = 0 ↔ u = 0 := by
  constructor
  · intro h
    have h0 := (ZSqrt2.norm_eq_zero_iff _).1 h
    apply (size_eq_zero_iff u).1
    rw [size, h0]
    rfl
  · intro h
    subst h
    rfl

def cofactor (v : ZOmega) : ZOmega := v.conj * (v * v.conj).dot

/-- A divisor times its cofactor is its absolute norm. -/
theorem mul_cofactor (v : ZOmega) : v * v.cofactor = ofInt v.norm.norm := by
  ext <;>
    simp only [cofactor, ofInt, norm, ZSqrt2.norm, conj, dot, mul_a, mul_b, mul_c, mul_d] <;> grind

/-- The absolute norm of the cofactor is the cube of the divisor's. -/
theorem norm_norm_cofactor (v : ZOmega) :
    v.cofactor.norm.norm = v.norm.norm * (v.norm.norm * v.norm.norm) := by
  rw [cofactor, norm_mul, norm_conj, norm_dot, norm_mul, norm_conj, ZSqrt2.norm_mul,
    ZSqrt2.norm_dot, ZSqrt2.norm_mul]

/-- A product with an integer multiplies the coefficients. -/
theorem sub_mul_cofactor (u q v : ZOmega) :
    (u - q * v) * v.cofactor = u * v.cofactor - q * ofInt v.norm.norm := by
  rw [← mul_cofactor]
  ext <;> simp only [mul_a, mul_b, mul_c, mul_d, sub_a, sub_b, sub_c, sub_d] <;> grind

/-- The numerator of a quotient is the dividend times the cofactor of the divisor. -/
theorem mul_cofactor_eq (u v : ZOmega) : u * v.cofactor = u * v.conj * (v * v.conj).dot := by
  generalize hw : (v * v.conj).dot = w
  rw [cofactor, hw]
  ext <;> simp only [mul_a, mul_b, mul_c, mul_d] <;> grind

/-- The remainder times the cofactor of the divisor is the remainder of the rounded
coefficients. -/
theorem mod_mul_cofactor (u v p : ZOmega) (hp : p = u * v.cofactor) :
    u % v * v.cofactor
      = ⟨p.a - roundDiv p.a v.norm.norm * v.norm.norm, p.b - roundDiv p.b v.norm.norm * v.norm.norm,
          p.c - roundDiv p.c v.norm.norm * v.norm.norm,
          p.d - roundDiv p.d v.norm.norm * v.norm.norm⟩ := by
  show (u - u / v * v) * v.cofactor = _
  have hq : u / v = ⟨roundDiv p.a v.norm.norm, roundDiv p.b v.norm.norm,
      roundDiv p.c v.norm.norm, roundDiv p.d v.norm.norm⟩ := by
    rw [hp, mul_cofactor_eq]
    rfl
  rw [sub_mul_cofactor, ← hp, hq]
  ext <;> simp only [mul_a, mul_b, mul_c, mul_d, sub_a, sub_b, sub_c, sub_d, ofInt] <;> grind

/-- The absolute norm of an element whose coefficients are at most `n / 2` is below `n⁴`. -/
theorem norm_norm_lt (e : ZOmega) {n : Int} (hn : n ≠ 0) (ha : 4 * (e.a * e.a) ≤ n * n)
    (hb : 4 * (e.b * e.b) ≤ n * n) (hc : 4 * (e.c * e.c) ≤ n * n)
    (hd : 4 * (e.d * e.d) ≤ n * n) : e.norm.norm < n * n * (n * n) := by
  have hsq : ∀ z : Int, 0 ≤ z * z := by
    intro z
    rw [← Int.natAbs_mul_self]
    omega
  have hpos : 0 < n * n := by
    rcases Int.lt_or_gt_of_ne hn with h | h
    · exact Int.mul_pos_of_neg_of_neg h h
    · exact Int.mul_pos h h
  have hnorm : e.norm.norm = e.norm.a * e.norm.a - e.norm.b * e.norm.b * 2 := rfl
  have hA : e.norm.a = e.a * e.a + e.b * e.b + e.c * e.c + e.d * e.d := rfl
  have hB : e.norm.b = e.c * e.b + e.d * e.c + e.b * e.a - e.a * e.d := rfl
  have hB0 := hsq e.norm.b
  have hAle : e.norm.a ≤ n * n := by omega
  have hA0 : 0 ≤ e.norm.a := by
    have := hsq e.a; have := hsq e.b; have := hsq e.c; have := hsq e.d
    omega
  rcases Int.lt_or_eq_of_le hAle with hlt | heq
  · have h1 : e.norm.a * e.norm.a ≤ n * n * e.norm.a := Int.mul_le_mul_of_nonneg_right hAle hA0
    have h2 : n * n * e.norm.a < n * n * (n * n) := Int.mul_lt_mul_of_pos_left hlt hpos
    omega
  · have hBpos : 0 < e.norm.b * e.norm.b := by
      have hab : e.b = e.a ∨ e.b = -e.a := eq_or_eq_neg_of_mul_self (by omega)
      have hac : e.c = e.a ∨ e.c = -e.a := eq_or_eq_neg_of_mul_self (by omega)
      have had : e.d = e.a ∨ e.d = -e.a := eq_or_eq_neg_of_mul_self (by omega)
      have ha0 : 0 < e.a * e.a := by omega
      have hB2 : e.norm.b = 2 * (e.a * e.a) ∨ e.norm.b = -(2 * (e.a * e.a)) := by
        rw [hB]
        rcases hab with hb | hb <;> rcases hac with hc | hc <;> rcases had with hd | hd <;>
          rw [hb, hc, hd] <;> grind
      rcases hB2 with h | h
      · rw [h]
        exact Int.mul_pos (by omega) (by omega)
      · rw [h]
        exact Int.mul_pos_of_neg_of_neg (by omega) (by omega)
    rw [hnorm, heq]
    omega

/-- A remainder has a smaller absolute norm than its divisor. -/
theorem natAbs_norm_norm_mod_lt (u : ZOmega) {v : ZOmega} (hv : v ≠ 0) :
    (u % v).norm.norm.natAbs < v.norm.norm.natAbs := by
  have hn : v.norm.norm ≠ 0 := fun h => hv ((norm_norm_eq_zero_iff v).1 h)
  have hmod := mod_mul_cofactor u v _ rfl
  have hnorm : (u % v).norm.norm * (v.norm.norm * (v.norm.norm * v.norm.norm))
      = (u % v * v.cofactor).norm.norm := by
    rw [norm_mul, ZSqrt2.norm_mul, norm_norm_cofactor]
  have hlt := norm_norm_lt (u % v * v.cofactor) hn
    (by rw [hmod]; exact mul_self_le_of_natAbs_le (natAbs_sub_roundDiv_le _ hn))
    (by rw [hmod]; exact mul_self_le_of_natAbs_le (natAbs_sub_roundDiv_le _ hn))
    (by rw [hmod]; exact mul_self_le_of_natAbs_le (natAbs_sub_roundDiv_le _ hn))
    (by rw [hmod]; exact mul_self_le_of_natAbs_le (natAbs_sub_roundDiv_le _ hn))
  rw [← hnorm] at hlt
  have h0 := norm_norm_nonneg (u % v)
  have h1 := norm_norm_nonneg v
  generalize (u % v).norm.norm = m at *
  generalize v.norm.norm = n at *
  have hlt' : m * (n * (n * n)) < n * (n * (n * n)) := by
    have : n * n * (n * n) = n * (n * (n * n)) := by grind
    omega
  have h3 : 0 ≤ n * (n * n) := Int.mul_nonneg h1 (Int.mul_nonneg h1 h1)
  have := Int.lt_of_mul_lt_mul_right hlt' h3
  omega

/-- A greatest common divisor, up to a unit, by Euclid's algorithm. -/
def gcd (u v : ZOmega) : ZOmega :=
  if _h : v = 0 then u else gcd v (u % v)
termination_by v.norm.norm.natAbs
decreasing_by exact natAbs_norm_norm_mod_lt u (by assumption)

end ZOmega

end CliffordT
