/-
`ℤ[√2]` in the real numbers and `ℤ[ω]` in the complex ones.

Both are embedded by the homomorphisms that take `√2` and `ω` to themselves. The square of the
absolute value of `u` is then the real number that `|u|²` is, and the coefficients of `u` are bounded
by `S` when the rational part of `|u|²` is bounded by `S²`. The real and the imaginary part that are
computed at the working precision are near the true ones, to a few units of `S`.
-/
import Mathlib.Analysis.Complex.Norm
import Mathlib.Analysis.Real.Sqrt
import Mathlib.NumberTheory.Real.Irrational
import CliffordT.Proofs.Ring.Denominator
import CliffordT.Proofs.Settings.Constants
import CliffordT.Ring.Embedding

namespace CliffordT

namespace ZSqrt2

noncomputable def real : ZSqrt2 →+* ℝ := lift √2 (Real.mul_self_sqrt (by norm_num))

theorem real_apply (x : ZSqrt2) : real x = x.a + x.b * √2 := lift_apply x

theorem real_dot (x : ZSqrt2) : real x.dot = x.a - x.b * √2 := by
  rw [real_apply, dot_a, dot_b]
  push_cast
  ring

/-- The norm is the product of the two embeddings. -/
theorem real_mul_real_dot (x : ZSqrt2) : real x * real x.dot = x.norm := by
  rw [← map_mul, mul_dot, map_intCast]

end ZSqrt2

namespace ZOmega

open Complex (I)
open BinFloat

/-! ## The embedding -/

/-- The eighth root of unity `ω` among the complex numbers. -/
noncomputable def complexOmega : ℂ := ⟨1 / √2, 1 / √2⟩

theorem inv_sqrt_two_sq : (1 / √2) * (1 / √2) = (1 / 2 : ℝ) := by
  rw [div_mul_div_comm, one_mul, Real.mul_self_sqrt (by norm_num)]

theorem sqrt_two_eq : √2 = 2 * (1 / √2) := by
  have h2 : √2 * √2 = (2 : ℝ) := Real.mul_self_sqrt (by norm_num)
  field_simp
  linarith

/-- Two coefficients that are not both zero give a number other than zero. -/
theorem eq_zero_of_add_mul_sqrt_two {m n : Int} (h : (m : ℝ) + n * (1 / √2) = 0) :
    m = 0 ∧ n = 0 := by
  have hmul : (n : ℝ) + m * √2 = 0 := by
    have := congrArg (· * √2) h
    field_simp at this
    linarith
  have hm : m = 0 := by
    by_contra hm
    have hm' : (m : ℝ) ≠ 0 := Int.cast_ne_zero.2 hm
    refine irrational_sqrt_two.ne_rat ((-n : ℚ) / m) ?_
    push_cast
    rw [eq_div_iff hm']
    linarith
  subst hm
  rw [Int.cast_zero, zero_mul, add_zero] at hmul
  exact ⟨rfl, by exact_mod_cast hmul⟩

theorem complexOmega_sq : complexOmega ^ 2 = I := by
  rw [sq]
  apply Complex.ext
  · simp [complexOmega]
  · rw [Complex.mul_im, Complex.I_im]
    show 1 / √2 * (1 / √2) + 1 / √2 * (1 / √2) = 1
    rw [inv_sqrt_two_sq]
    norm_num

theorem complexOmega_pow_four : complexOmega ^ 4 = -1 := by
  have h : complexOmega ^ 4 = (complexOmega ^ 2) ^ 2 := by ring
  rw [h, complexOmega_sq, Complex.I_sq]

noncomputable def toComplex : ZOmega →+* ℂ := lift complexOmega complexOmega_pow_four

theorem toComplex_apply (u : ZOmega) :
    toComplex u = u.a * (I * complexOmega) + u.b * I + u.c * complexOmega + u.d := by
  have hcube : complexOmega ^ 3 = I * complexOmega := by rw [pow_succ, complexOmega_sq]
  have h : toComplex u = u.a * complexOmega ^ 3 + u.b * complexOmega ^ 2 + u.c * complexOmega + u.d :=
    lift_apply u
  rw [h, hcube, complexOmega_sq]

theorem toComplex_re (u : ZOmega) :
    (toComplex u).re = (u.d : ℝ) + ((u.c - u.a : Int) : ℝ) * (1 / √2) := by
  rw [toComplex_apply]
  simp [complexOmega]
  ring

theorem toComplex_im (u : ZOmega) :
    (toComplex u).im = (u.b : ℝ) + ((u.c + u.a : Int) : ℝ) * (1 / √2) := by
  rw [toComplex_apply]
  simp [complexOmega]
  ring

theorem toComplex_sqrt2 : toComplex sqrt2 = ((√2 : ℝ) : ℂ) := by
  apply Complex.ext
  · rw [toComplex_re, Complex.ofReal_re]
    simp only [sqrt2]
    push_cast
    linarith [sqrt_two_eq]
  · rw [toComplex_im, Complex.ofReal_im]
    simp [sqrt2]

theorem toComplex_sqrt2_pow_mul (j : Nat) (u : ZOmega) :
    toComplex (sqrt2 ^ j * u) = ((√2 : ℝ) : ℂ) ^ j * toComplex u := by
  rw [map_mul, map_pow, toComplex_sqrt2]

/-- The square of the absolute value is that of the ring. -/
theorem normSq_toComplex (u : ZOmega) : Complex.normSq (toComplex u) = u.norm.real := by
  rw [Complex.normSq_apply, toComplex_re, toComplex_im, ZSqrt2.real_apply]
  simp only [norm]
  push_cast
  linear_combination (2 * (u.a : ℝ) ^ 2 + 2 * (u.c : ℝ) ^ 2) * inv_sqrt_two_sq
    - ((u.c : ℝ) * u.b + u.d * u.c + u.b * u.a - u.a * u.d) * sqrt_two_eq

theorem normSq_toComplex_le {u t : ZOmega} {n : Nat} (h : u.norm + t.norm = (2 : ZSqrt2) ^ n) :
    Complex.normSq (toComplex u) ≤ 2 ^ n := by
  have hsum := congrArg ZSqrt2.real h
  rw [map_add, map_pow, map_ofNat, ← normSq_toComplex, ← normSq_toComplex] at hsum
  linarith [Complex.normSq_nonneg (toComplex t)]

/-! ## The computed real and imaginary part -/

section Rounded

variable {c : Constants} {S : ℝ}

/-- A number `m + n / √2` with both summands bounded by `S`, as it is computed. -/
theorem abs_linear_sub_le (hc : c.Accurate) (m n : Int) (hm : |(m : ℝ)| ≤ S)
    (hn : |(n : ℝ) * (1 / √2)| ≤ S) (hsum : |(m : ℝ) + n * (1 / √2)| ≤ S) :
    |(c.int m + c.int n * c.invSqrt2).value - (m + n * (1 / √2))| ≤ 20 * roundoff c.prec * S := by
  have hη := roundoff_pos c.prec
  have hη' : roundoff c.prec ≤ 1 / 2 ^ 148 := (roundoff_anti hc.prec_ge).trans (roundoff_eq 148).le
  have hS : 0 ≤ S := (abs_nonneg _).trans hm
  have h1 : |(c.int m).value - m| ≤ roundoff c.prec * S :=
    (value_ofInt_within m c.prec).sub_le.trans (mul_le_mul_of_nonneg_left hm hη.le)
  have hprod : Within (16 * roundoff c.prec) (c.int n * c.invSqrt2).value (n * (1 / √2)) := by
    have hexact := hc.invSqrt2.mul (by linarith) (value_ofInt_within n c.prec)
    rw [mul_comm c.invSqrt2.value, mul_comm (1 / √2)] at hexact
    have hround := value_mul_within (x := c.int n) (y := c.invSqrt2) (p := c.prec)
      (hc.prec_invSqrt2.symm ▸ le_max_right _ _)
    exact (hround.trans hη.le (by linarith) hexact).mono (by linarith)
  have h2 : |(c.int n * c.invSqrt2).value - n * (1 / √2)| ≤ 16 * roundoff c.prec * S :=
    hprod.sub_le.trans (mul_le_mul_of_nonneg_left hn (by linarith))
  generalize hx : c.int n * c.invSqrt2 = x at h2 ⊢
  have h3 : |(c.int m).value + x.value - (m + n * (1 / √2))| ≤ 17 * roundoff c.prec * S := by
    rw [add_sub_add_comm]
    refine (abs_add_le _ _).trans ((add_le_add h1 h2).trans (le_of_eq ?_))
    ring
  have h4 : |(c.int m).value + x.value| ≤ 3 / 2 * S := by
    have htri := abs_sub_abs_le_abs_sub ((c.int m).value + x.value) (m + n * (1 / √2))
    have hsmall : 17 * roundoff c.prec * S ≤ 1 / 2 * S :=
      mul_le_mul_of_nonneg_right (by linarith) hS
    linarith
  have hround := (value_add_within (x := c.int m) (y := x) (p := c.prec)
    ((prec_ofInt m c.prec).symm ▸ le_max_left _ _)).sub_le
  calc |(c.int m + x).value - (m + n * (1 / √2))|
      ≤ |(c.int m + x).value - ((c.int m).value + x.value)|
        + |(c.int m).value + x.value - (m + n * (1 / √2))| := abs_sub_le _ _ _
    _ ≤ 2 * roundoff c.prec * (3 / 2 * S) + 17 * roundoff c.prec * S :=
        add_le_add (hround.trans (mul_le_mul_of_nonneg_left h4 (by linarith))) h3
    _ = 20 * roundoff c.prec * S := by ring

/-- The bounds on an element that its real and imaginary part are computed with. -/
structure Bounded (u : ZOmega) (S : ℝ) : Prop where
  nonneg : 0 ≤ S
  norm_a : (u.norm.a : ℝ) ≤ S ^ 2
  normSq : Complex.normSq (toComplex u) ≤ S ^ 2

theorem Bounded.abs_re_le {u : ZOmega} (h : u.Bounded S) : |(toComplex u).re| ≤ S := by
  refine abs_le_of_sq_le_sq ?_ h.nonneg
  have hle := h.normSq
  rw [Complex.normSq_apply] at hle
  nlinarith [mul_self_nonneg (toComplex u).im]

theorem Bounded.abs_im_le {u : ZOmega} (h : u.Bounded S) : |(toComplex u).im| ≤ S := by
  refine abs_le_of_sq_le_sq ?_ h.nonneg
  have hle := h.normSq
  rw [Complex.normSq_apply] at hle
  nlinarith [mul_self_nonneg (toComplex u).re]

theorem Bounded.sq_sum_le {u : ZOmega} (h : u.Bounded S) :
    (u.a : ℝ) ^ 2 + (u.b : ℝ) ^ 2 + (u.c : ℝ) ^ 2 + (u.d : ℝ) ^ 2 ≤ S ^ 2 := by
  refine le_trans (le_of_eq ?_) h.norm_a
  simp only [norm]
  push_cast
  ring

theorem Bounded.abs_re_sub_le {u : ZOmega} (h : u.Bounded S) (hc : c.Accurate) :
    |(u.re c).value - (toComplex u).re| ≤ 20 * roundoff c.prec * S := by
  have hle := h.sq_sum_le
  have hre := h.abs_re_le
  rw [toComplex_re] at hre ⊢
  refine abs_linear_sub_le hc _ _ ?_ ?_ hre
  · exact abs_le_of_sq_le_sq (by nlinarith) h.nonneg
  · refine abs_le_of_sq_le_sq ?_ h.nonneg
    rw [mul_pow, sq (1 / √2), inv_sqrt_two_sq]
    push_cast
    nlinarith [sq_nonneg ((u.c : ℝ) + u.a)]

theorem Bounded.abs_im_sub_le {u : ZOmega} (h : u.Bounded S) (hc : c.Accurate) :
    |(u.im c).value - (toComplex u).im| ≤ 20 * roundoff c.prec * S := by
  have hle := h.sq_sum_le
  have him := h.abs_im_le
  rw [toComplex_im] at him ⊢
  refine abs_linear_sub_le hc _ _ ?_ ?_ him
  · exact abs_le_of_sq_le_sq (by nlinarith) h.nonneg
  · refine abs_le_of_sq_le_sq ?_ h.nonneg
    rw [mul_pow, sq (1 / √2), inv_sqrt_two_sq]
    push_cast
    nlinarith [sq_nonneg ((u.c : ℝ) - u.a)]

end Rounded

end ZOmega

end CliffordT
