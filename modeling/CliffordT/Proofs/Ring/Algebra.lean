/-
`ℤ[√2]` and `ℤ[ω]` as commutative rings.

The ring operations are the ones that run: the instances only add the laws. Powers by squaring are
the monoid powers, conjugation is a ring homomorphism in each of its forms, and `ℤ[√2]` lies in
`ℤ[ω]` by one, so that `|u|²` is `u ū` as well as an element of `ℤ[√2]`.
-/
import Mathlib.Algebra.EuclideanDomain.Basic
import Mathlib.Algebra.Ring.Hom.Defs
import Mathlib.Tactic.LinearCombination
import Mathlib.Tactic.Ring
import CliffordT.Ring.Euclid
import CliffordT.Proofs.Numeral

namespace CliffordT

/-- Repeated squaring multiplies by the base with each step of the exponent. -/
theorem pow_succ_of_squaring {M : Type} [CommSemigroup M] [One M] (hone : ∀ y : M, 1 * y = y)
    {x : M} {p : Nat → M} (h0 : p 0 = 1)
    (hp : ∀ n, n ≠ 0 →
      p n = if n % 2 = 1 then p (n / 2) * p (n / 2) * x else p (n / 2) * p (n / 2))
    (n : Nat) : p (n + 1) = p n * x := by
  induction n using Nat.strongRecOn with
  | ind n ih =>
    rcases Nat.even_or_odd' n with ⟨m, rfl | rfl⟩
    · have hodd : p (2 * m + 1) = p m * p m * x := by
        rw [hp _ (by omega), if_pos (by omega), show (2 * m + 1) / 2 = m by omega]
      rw [hodd]
      cases m with
      | zero => simp only [Nat.mul_zero, h0, hone]
      | succ m =>
        rw [hp (2 * (m + 1)) (by omega), if_neg (by omega), show 2 * (m + 1) / 2 = m + 1 by omega]
    · have heven : p (2 * m + 1 + 1) = p (m + 1) * p (m + 1) := by
        rw [hp _ (by omega), if_neg (by omega), show (2 * m + 1 + 1) / 2 = m + 1 by omega]
      have hodd : p (2 * m + 1) = p m * p m * x := by
        rw [hp _ (by omega), if_pos (by omega), show (2 * m + 1) / 2 = m by omega]
      rw [heven, hodd, ih m (by omega), mul_assoc, mul_assoc, mul_assoc, mul_left_comm x]

namespace ZSqrt2

/-! ## The ring of `√2` -/

instance : CommSemigroup ZSqrt2 where
  mul_assoc x y z := by ext <;> simp only [mul_a, mul_b] <;> ring
  mul_comm x y := by ext <;> simp only [mul_a, mul_b] <;> ring

theorem one_mul' (x : ZSqrt2) : 1 * x = x := by
  ext <;> simp

theorem pow_zero' (x : ZSqrt2) : x.pow 0 = 1 := by
  rw [pow, if_pos rfl]

theorem pow_of_ne_zero (x : ZSqrt2) {n : Nat} (hn : n ≠ 0) :
    x.pow n = if n % 2 = 1 then x.pow (n / 2) * x.pow (n / 2) * x
      else x.pow (n / 2) * x.pow (n / 2) := by
  conv_lhs => rw [pow, if_neg hn]

instance : CommRing ZSqrt2 where
  add_assoc x y z := by ext <;> simp only [add_a, add_b] <;> ring
  zero := 0
  zero_add x := by ext <;> simp
  add_zero x := by ext <;> simp
  add_comm x y := by ext <;> simp only [add_a, add_b] <;> ring
  neg_add_cancel x := by ext <;> simp
  sub_eq_add_neg x y := by ext <;> simp only [add_a, add_b, sub_a, sub_b, neg_a, neg_b] <;> ring
  mul_assoc := mul_assoc
  mul_comm := mul_comm
  one := 1
  one_mul := one_mul'
  mul_one x := by ext <;> simp
  left_distrib x y z := by ext <;> simp only [mul_a, mul_b, add_a, add_b] <;> ring
  right_distrib x y z := by ext <;> simp only [mul_a, mul_b, add_a, add_b] <;> ring
  zero_mul x := by ext <;> simp
  mul_zero x := by ext <;> simp
  nsmul := nsmulRec
  zsmul := zsmulRec
  npow n x := x.pow n
  npow_zero := pow_zero'
  npow_succ n x := pow_succ_of_squaring one_mul' (pow_zero' x) (fun _ => pow_of_ne_zero x) n
  natCast n := ofInt n
  natCast_zero := rfl
  natCast_succ n := rfl
  intCast n := ofInt n
  intCast_ofNat n := rfl
  intCast_negSucc n := rfl

instance : Nontrivial ZSqrt2 := ⟨⟨0, 1, by decide⟩⟩

@[simp] theorem intCast_a (n : Int) : (n : ZSqrt2).a = n := rfl

@[simp] theorem intCast_b (n : Int) : (n : ZSqrt2).b = 0 := rfl

@[simp] theorem natCast_a (n : Nat) : (n : ZSqrt2).a = n := rfl

@[simp] theorem natCast_b (n : Nat) : (n : ZSqrt2).b = 0 := rfl

@[simp] theorem dot_a (x : ZSqrt2) : x.dot.a = x.a := rfl

@[simp] theorem dot_b (x : ZSqrt2) : x.dot.b = -x.b := rfl

def dotHom : ZSqrt2 →+* ZSqrt2 where
  toFun := dot
  map_one' := rfl
  map_zero' := rfl
  map_mul' x y := by ext <;> simp only [dot_a, dot_b, mul_a, mul_b] <;> ring
  map_add' x y := by
    ext
    · rfl
    · simp only [dot_b, add_b]
      ring

@[simp] theorem dot_dot (x : ZSqrt2) : x.dot.dot = x := by
  ext
  · rfl
  · simp

@[simp] theorem dot_mul (x y : ZSqrt2) : (x * y).dot = x.dot * y.dot := map_mul dotHom x y

@[simp] theorem dot_pow (x : ZSqrt2) (n : Nat) : (x ^ n).dot = x.dot ^ n := map_pow dotHom x n

/-- Conjugation keeps divisibility. -/
theorem dot_dvd_dot {x y : ZSqrt2} : x.dot ∣ y.dot ↔ x ∣ y := by
  constructor
  · rintro ⟨q, hq⟩
    exact ⟨q.dot, by rw [← dot_dot y, hq, dot_mul, dot_dot]⟩
  · rintro ⟨q, rfl⟩
    exact ⟨q.dot, dot_mul x q⟩

/-- An element times its conjugate is its norm. -/
theorem mul_dot (x : ZSqrt2) : x * x.dot = (x.norm : ZSqrt2) := by
  ext
  · simp only [mul_a, dot_a, dot_b, intCast_a, norm]
    ring
  · simp only [mul_b, dot_a, dot_b, intCast_b]
    ring

def normHom : ZSqrt2 →* Int where
  toFun := norm
  map_one' := rfl
  map_mul' := norm_mul

@[simp] theorem norm_one : (1 : ZSqrt2).norm = 1 := rfl

@[simp] theorem norm_pow (x : ZSqrt2) (n : Nat) : (x ^ n).norm = x.norm ^ n := map_pow normHom x n

@[simp] theorem norm_natCast (n : Nat) : (n : ZSqrt2).norm = (n : Int) * n := by
  simp [norm]

/-- An element divides its norm. -/
theorem dvd_norm (x : ZSqrt2) : x ∣ (x.norm : ZSqrt2) := ⟨x.dot, (mul_dot x).symm⟩

/-- Divisibility carries over to the norms. -/
theorem norm_dvd_norm {x y : ZSqrt2} (h : x ∣ y) : x.norm ∣ y.norm := map_dvd normHom h

/-- An integer divides an element when it divides both coefficients. -/
theorem intCast_dvd {n : Int} {x : ZSqrt2} : (n : ZSqrt2) ∣ x ↔ n ∣ x.a ∧ n ∣ x.b := by
  constructor
  · rintro ⟨q, rfl⟩
    exact ⟨⟨q.a, by simp⟩, ⟨q.b, by simp⟩⟩
  · rintro ⟨⟨a, ha⟩, ⟨b, hb⟩⟩
    refine ⟨⟨a, b⟩, ?_⟩
    ext
    · simp [ha]
    · simp [hb]

instance : NoZeroDivisors ZSqrt2 where
  eq_zero_or_eq_zero_of_mul_eq_zero {x y} h := by
    have hn : x.norm * y.norm = 0 := by rw [← norm_mul, h]; rfl
    exact (mul_eq_zero.1 hn).imp (norm_eq_zero_iff x).1 (norm_eq_zero_iff y).1

/-- The homomorphism that takes `√2` to a root `r` of two. -/
def lift {R : Type} [CommRing R] (r : R) (hr : r * r = 2) : ZSqrt2 →+* R where
  toFun x := x.a + x.b * r
  map_one' := by simp
  map_zero' := by simp
  map_mul' x y := by
    simp only [mul_a, mul_b, Int.cast_add, Int.cast_mul, Int.cast_ofNat]
    linear_combination (-(x.b : R) * y.b) * hr
  map_add' x y := by
    simp only [add_a, add_b, Int.cast_add]
    ring

theorem lift_apply {R : Type} [CommRing R] {r : R} {hr : r * r = 2} (x : ZSqrt2) :
    lift r hr x = x.a + x.b * r := rfl

end ZSqrt2

namespace ZOmega

/-! ## The ring of `ω` -/

instance : CommSemigroup ZOmega where
  mul_assoc u v w := by ext <;> simp only [mul_a, mul_b, mul_c, mul_d] <;> ring
  mul_comm u v := by ext <;> simp only [mul_a, mul_b, mul_c, mul_d] <;> ring

theorem one_mul' (u : ZOmega) : 1 * u = u := by
  ext <;> simp

theorem pow_zero' (u : ZOmega) : u.pow 0 = 1 := by
  rw [pow, if_pos rfl]

theorem pow_of_ne_zero (u : ZOmega) {n : Nat} (hn : n ≠ 0) :
    u.pow n = if n % 2 = 1 then u.pow (n / 2) * u.pow (n / 2) * u
      else u.pow (n / 2) * u.pow (n / 2) := by
  conv_lhs => rw [pow, if_neg hn]

instance : CommRing ZOmega where
  add_assoc u v w := by ext <;> simp only [add_a, add_b, add_c, add_d] <;> ring
  zero := 0
  zero_add u := by ext <;> simp
  add_zero u := by ext <;> simp
  add_comm u v := by ext <;> simp only [add_a, add_b, add_c, add_d] <;> ring
  neg_add_cancel u := by ext <;> simp
  sub_eq_add_neg u v := by
    ext <;> simp only [add_a, add_b, add_c, add_d, sub_a, sub_b, sub_c, sub_d, neg_a, neg_b, neg_c,
      neg_d] <;> ring
  mul_assoc := mul_assoc
  mul_comm := mul_comm
  one := 1
  one_mul := one_mul'
  mul_one u := by ext <;> simp
  left_distrib u v w := by
    ext <;> simp only [mul_a, mul_b, mul_c, mul_d, add_a, add_b, add_c, add_d] <;> ring
  right_distrib u v w := by
    ext <;> simp only [mul_a, mul_b, mul_c, mul_d, add_a, add_b, add_c, add_d] <;> ring
  zero_mul u := by ext <;> simp
  mul_zero u := by ext <;> simp
  nsmul := nsmulRec
  zsmul := zsmulRec
  npow n u := u.pow n
  npow_zero := pow_zero'
  npow_succ n u := pow_succ_of_squaring one_mul' (pow_zero' u) (fun _ => pow_of_ne_zero u) n
  natCast n := ofInt n
  natCast_zero := rfl
  natCast_succ n := rfl
  intCast n := ofInt n
  intCast_ofNat n := rfl
  intCast_negSucc n := rfl

instance : Nontrivial ZOmega := ⟨⟨0, 1, by decide⟩⟩

@[simp] theorem conj_a (u : ZOmega) : u.conj.a = -u.c := rfl

@[simp] theorem conj_b (u : ZOmega) : u.conj.b = -u.b := rfl

@[simp] theorem conj_c (u : ZOmega) : u.conj.c = -u.a := rfl

@[simp] theorem conj_d (u : ZOmega) : u.conj.d = u.d := rfl

@[simp] theorem dot_a (u : ZOmega) : u.dot.a = -u.a := rfl

@[simp] theorem dot_b (u : ZOmega) : u.dot.b = u.b := rfl

@[simp] theorem dot_c (u : ZOmega) : u.dot.c = -u.c := rfl

@[simp] theorem dot_d (u : ZOmega) : u.dot.d = u.d := rfl

def conjHom : ZOmega →+* ZOmega where
  toFun := conj
  map_one' := rfl
  map_zero' := rfl
  map_mul' u v := by
    ext <;> simp only [conj_a, conj_b, conj_c, conj_d, mul_a, mul_b, mul_c, mul_d] <;> ring
  map_add' u v := by
    ext <;> simp only [conj_a, conj_b, conj_c, conj_d, add_a, add_b, add_c, add_d] <;> ring

/-- The automorphism `√2 ↦ -√2` as a ring homomorphism. -/
def dotHom : ZOmega →+* ZOmega where
  toFun := dot
  map_one' := rfl
  map_zero' := rfl
  map_mul' u v := by
    ext <;> simp only [dot_a, dot_b, dot_c, dot_d, mul_a, mul_b, mul_c, mul_d] <;> ring
  map_add' u v := by
    ext <;> simp only [dot_a, dot_b, dot_c, dot_d, add_a, add_b, add_c, add_d] <;> ring

@[simp] theorem conj_conj (u : ZOmega) : u.conj.conj = u := by
  ext <;> simp

@[simp] theorem dot_dot (u : ZOmega) : u.dot.dot = u := by
  ext <;> simp

@[simp] theorem conj_mul (u v : ZOmega) : (u * v).conj = u.conj * v.conj := map_mul conjHom u v

@[simp] theorem conj_add (u v : ZOmega) : (u + v).conj = u.conj + v.conj := map_add conjHom u v

@[simp] theorem conj_sub (u v : ZOmega) : (u - v).conj = u.conj - v.conj := map_sub conjHom u v

@[simp] theorem dot_mul (u v : ZOmega) : (u * v).dot = u.dot * v.dot := map_mul dotHom u v

def ofZSqrt2Hom : ZSqrt2 →+* ZOmega where
  toFun := ofZSqrt2
  map_one' := rfl
  map_zero' := rfl
  map_mul' x y := by
    ext <;> simp only [ofZSqrt2, mul_a, mul_b, mul_c, mul_d, ZSqrt2.mul_a, ZSqrt2.mul_b] <;> ring
  map_add' x y := by
    ext <;> simp only [ofZSqrt2, add_a, add_b, add_c, add_d, ZSqrt2.add_a, ZSqrt2.add_b] <;> ring

@[simp] theorem ofZSqrt2_mul (x y : ZSqrt2) : ofZSqrt2 (x * y) = ofZSqrt2 x * ofZSqrt2 y :=
  map_mul ofZSqrt2Hom x y

@[simp] theorem ofZSqrt2_add (x y : ZSqrt2) : ofZSqrt2 (x + y) = ofZSqrt2 x + ofZSqrt2 y :=
  map_add ofZSqrt2Hom x y

@[simp] theorem ofZSqrt2_pow (x : ZSqrt2) (n : Nat) : ofZSqrt2 (x ^ n) = ofZSqrt2 x ^ n :=
  map_pow ofZSqrt2Hom x n

theorem ofZSqrt2_injective : Function.Injective ofZSqrt2 := by
  intro x y h
  have hd := congrArg d h
  have hc := congrArg c h
  ext
  · exact hd
  · exact hc

@[simp] theorem conj_ofZSqrt2 (x : ZSqrt2) : (ofZSqrt2 x).conj = ofZSqrt2 x := by
  ext <;> simp [ofZSqrt2]

/-- An element times its complex conjugate is the square of its absolute value. -/
theorem mul_conj (u : ZOmega) : u * u.conj = ofZSqrt2 u.norm := by
  ext <;> simp only [mul_a, mul_b, mul_c, mul_d, conj_a, conj_b, conj_c, conj_d, ofZSqrt2, norm] <;>
    ring

theorem toZSqrt2_ofZSqrt2 (x : ZSqrt2) : (ofZSqrt2 x).toZSqrt2 = .ok x := by
  obtain ⟨a, b⟩ := x
  simp [toZSqrt2, isReal, ofZSqrt2]

/-- The norm equation, in `ℤ[ω]` and in `ℤ[√2]`. -/
theorem mul_conj_eq_iff {u : ZOmega} {x : ZSqrt2} : u * u.conj = ofZSqrt2 x ↔ u.norm = x := by
  rw [mul_conj]
  exact ofZSqrt2_injective.eq_iff

def normHom : ZOmega →* ZSqrt2 where
  toFun := norm
  map_one' := rfl
  map_mul' := norm_mul

@[simp] theorem norm_one : (1 : ZOmega).norm = 1 := rfl

@[simp] theorem norm_pow (u : ZOmega) (n : Nat) : (u ^ n).norm = u.norm ^ n := map_pow normHom u n

@[simp] theorem norm_ofZSqrt2 (x : ZSqrt2) : (ofZSqrt2 x).norm = x * x := by
  ext
  · simp only [norm, ofZSqrt2, ZSqrt2.mul_a]
    ring
  · simp only [norm, ofZSqrt2, ZSqrt2.mul_b]
    ring

theorem norm_a_nonneg (u : ZOmega) : 0 ≤ u.norm.a :=
  add_nonneg (add_nonneg (add_nonneg (mul_self_nonneg u.a) (mul_self_nonneg u.b))
    (mul_self_nonneg u.c)) (mul_self_nonneg u.d)

/-- Only zero has the rational part zero in its square of the absolute value. -/
theorem norm_a_eq_zero_iff (u : ZOmega) : u.norm.a = 0 ↔ u = 0 := by
  rw [← size_eq_zero_iff, size, Int.natAbs_eq_zero]

/-- The parallelogram law. -/
theorem norm_add_norm_sub (u v : ZOmega) : (u + v).norm + (u - v).norm = 2 * (u.norm + v.norm) := by
  have h2 : (2 : ZSqrt2) = ⟨2, 0⟩ := rfl
  rw [h2]
  ext
  · simp only [norm, ZSqrt2.add_a, ZSqrt2.mul_a, add_a, add_b, add_c, add_d, sub_a, sub_b, sub_c,
      sub_d]
    ring
  · simp only [norm, ZSqrt2.add_b, ZSqrt2.mul_b, add_a, add_b, add_c, add_d, sub_a, sub_b, sub_c,
      sub_d]
    ring

/-- Divisibility carries over to the norms. -/
theorem norm_dvd_norm {u v : ZOmega} (h : u ∣ v) : u.norm ∣ v.norm := map_dvd normHom h

/-- Only zero has the absolute value zero. -/
theorem norm_eq_zero_iff (u : ZOmega) : u.norm = 0 ↔ u = 0 := by
  rw [← norm_norm_eq_zero_iff, ZSqrt2.norm_eq_zero_iff]

instance : NoZeroDivisors ZOmega where
  eq_zero_or_eq_zero_of_mul_eq_zero {u v} h := by
    have hn : u.norm * v.norm = 0 := by rw [← norm_mul, h]; rfl
    exact (mul_eq_zero.1 hn).imp (norm_eq_zero_iff u).1 (norm_eq_zero_iff v).1

/-- Divisibility of complex conjugates. -/
theorem conj_dvd_conj {u v : ZOmega} (h : u ∣ v) : u.conj ∣ v.conj := map_dvd conjHom h

/-- The homomorphism that takes `ω` to a root `w` of `w⁴ = -1`. -/
def lift {R : Type} [CommRing R] (w : R) (hw : w ^ 4 = -1) : ZOmega →+* R where
  toFun u := u.a * w ^ 3 + u.b * w ^ 2 + u.c * w + u.d
  map_one' := by simp
  map_zero' := by simp
  map_mul' u v := by
    simp only [mul_a, mul_b, mul_c, mul_d, Int.cast_add, Int.cast_sub, Int.cast_mul]
    linear_combination (-(u.a : R) * v.a * w ^ 2 - (u.a * v.b + u.b * v.a) * w
      - (u.a * v.c + u.b * v.b + u.c * v.a)) * hw
  map_add' u v := by
    simp only [add_a, add_b, add_c, add_d, Int.cast_add]
    ring

theorem lift_apply {R : Type} [CommRing R] {w : R} {hw : w ^ 4 = -1} (u : ZOmega) :
    lift w hw u = u.a * w ^ 3 + u.b * w ^ 2 + u.c * w + u.d := rfl

end ZOmega

end CliffordT
