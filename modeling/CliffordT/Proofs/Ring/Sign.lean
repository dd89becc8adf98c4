/-
The signs in `ℤ[√2]` are the signs of the real numbers.

Where `a` and `b√2` do not pull in different directions, the sign of `a + b√2` is the one that they have.
Where they do, the larger of `|a|` and `|b|√2` decides, and the integers `a²` and `2b²` tell which it is:
they are not equal, as only zero has norm zero. From the signs of both embeddings come the laws of doubly
positive elements: they are closed under sums and products, and every `|u|²` is one of them, for its
embeddings are the squares of the absolute values of `u` and `u•`.
-/
import Mathlib.Data.Sign.Basic
import CliffordT.Proofs.Ring.Embedding

namespace CliffordT

/-! ## Signs of sums -/

section Sums

variable {v w : ℝ}

/-- The summand of larger absolute value decides the sign. -/
theorem sign_add_of_abs_lt (h : |w| < |v|) : SignType.sign (v + w) = SignType.sign v := by
  obtain ⟨hlow, hhigh⟩ := abs_lt.1 h
  rcases lt_trichotomy v 0 with hv | rfl | hv
  · rw [abs_of_neg hv] at hhigh
    rw [sign_neg hv, sign_neg (by linarith)]
  · rw [abs_zero] at h
    exact absurd (abs_nonneg w) (not_le.2 h)
  · rw [abs_of_pos hv] at hlow
    rw [sign_pos hv, sign_pos (by linarith)]

/-- Two summands of one sign have a sum of that sign. -/
theorem sign_add_of_sign_eq (h : SignType.sign v = SignType.sign w) :
    SignType.sign (v + w) = SignType.sign v := by
  rcases lt_trichotomy v 0 with hv | rfl | hv
  · rw [sign_neg hv] at h ⊢
    have hw := sign_eq_neg_one_iff.1 h.symm
    exact sign_neg (by linarith)
  · rw [zero_add, h]
  · rw [sign_pos hv] at h ⊢
    have hw := sign_eq_one_iff.1 h.symm
    exact sign_pos (by linarith)

theorem coe_sign_injective {s t : SignType} (h : (s : ℤ) = t) : s = t := by
  revert s t
  decide

theorem coe_sign_nonneg_iff : 0 ≤ ((SignType.sign v : SignType) : ℤ) ↔ 0 ≤ v := by
  have key : ∀ s : SignType, 0 ≤ (s : ℤ) ↔ 0 ≤ s := by decide
  rw [key, sign_nonneg_iff]

end Sums

namespace ZSqrt2

/-! ## The two coefficients -/

theorem coe_sign_intCast (a : ℤ) : (SignType.sign (a : ℝ) : ℤ) = a.sign := by
  rw [sign_intCast, Int.sign_eq_sign]

theorem coe_sign_mul_sqrt_two (b : ℤ) : (SignType.sign ((b : ℝ) * √2) : ℤ) = b.sign := by
  rw [sign_mul, sign_pos (by positivity : 0 < √2), mul_one, coe_sign_intCast]

theorem sq_mul_sqrt_two (b : ℤ) : ((b : ℝ) * √2) ^ 2 = ((b * b * 2 : ℤ) : ℝ) := by
  rw [mul_pow, Real.sq_sqrt (by norm_num)]
  push_cast
  ring

theorem sq_intCast (a : ℤ) : (a : ℝ) ^ 2 = ((a * a : ℤ) : ℝ) := by
  push_cast
  ring

/-- The squares of the two summands are integers, and compare them. -/
theorem abs_mul_sqrt_two_lt {a b : ℤ} (h : b * b * 2 < a * a) : |(b : ℝ) * √2| < |(a : ℝ)| := by
  rw [← sq_lt_sq, sq_mul_sqrt_two, sq_intCast]
  exact_mod_cast h

theorem abs_lt_mul_sqrt_two {a b : ℤ} (h : a * a < b * b * 2) : |(a : ℝ)| < |(b : ℝ) * √2| := by
  rw [← sq_lt_sq, sq_mul_sqrt_two, sq_intCast]
  exact_mod_cast h

/-! ## The sign -/

/-- The sign is that of the real number. -/
theorem sign_eq_sign_real (x : ZSqrt2) : x.sign = SignType.sign (real x) := by
  have ha := coe_sign_intCast x.a
  have hb := coe_sign_mul_sqrt_two x.b
  rw [real_apply]
  unfold sign
  split_ifs with hsame hzero hlt
  · rcases hsame with hsame | hzero
    · rw [sign_add_of_sign_eq (coe_sign_injective (by rw [ha, hb, hsame])), ha]
    · rw [Int.sign_eq_zero_iff_zero.1 hzero, Int.cast_zero, zero_mul, add_zero, ha]
  · rw [Int.sign_eq_zero_iff_zero.1 hzero, Int.cast_zero, zero_add, hb]
  · rw [sign_add_of_abs_lt (abs_mul_sqrt_two_lt hlt), ha]
  · -- the squares differ, for only zero has norm zero
    have hne : x.norm ≠ 0 := by
      intro h0
      rw [(norm_eq_zero_iff x).1 h0] at hzero
      exact hzero rfl
    unfold norm at hne
    rw [add_comm, sign_add_of_abs_lt (abs_lt_mul_sqrt_two (by omega)), hb]

protected theorem sign_nonneg_iff {x : ZSqrt2} : 0 ≤ x.sign ↔ 0 ≤ real x := by
  rw [sign_eq_sign_real, coe_sign_nonneg_iff]

/-- The sign of a product, as the real numbers have it. -/
protected theorem sign_mul (x y : ZSqrt2) : (x * y).sign = x.sign * y.sign := by
  rw [sign_eq_sign_real, sign_eq_sign_real, sign_eq_sign_real, map_mul, sign_mul, SignType.coe_mul]

/-! ## Doubly positive elements -/

section DoublyPositive

variable {x y : ZSqrt2}

theorem isDoublyPositive_iff : x.isDoublyPositive = true ↔ 0 ≤ real x ∧ 0 ≤ real x.dot := by
  simp only [isDoublyPositive, Bool.and_eq_true, decide_eq_true_eq, ZSqrt2.sign_nonneg_iff]

theorem isDoublyPositive_add (hx : x.isDoublyPositive = true) (hy : y.isDoublyPositive = true) :
    (x + y).isDoublyPositive = true := by
  rw [isDoublyPositive_iff] at hx hy ⊢
  have hdot : real (x + y).dot = real x.dot + real y.dot := map_add (real.comp dotHom) x y
  rw [map_add, hdot]
  exact ⟨add_nonneg hx.1 hy.1, add_nonneg hx.2 hy.2⟩

theorem isDoublyPositive_mul (hx : x.isDoublyPositive = true) (hy : y.isDoublyPositive = true) :
    (x * y).isDoublyPositive = true := by
  rw [isDoublyPositive_iff] at hx hy ⊢
  rw [dot_mul, map_mul, map_mul]
  exact ⟨mul_nonneg hx.1 hy.1, mul_nonneg hx.2 hy.2⟩

end DoublyPositive

end ZSqrt2

/-- The embeddings of `|u|²` are the squares of the absolute values of `u` and `u•`. -/
theorem ZOmega.isDoublyPositive_norm (u : ZOmega) : u.norm.isDoublyPositive = true := by
  rw [ZSqrt2.isDoublyPositive_iff, ← ZOmega.norm_dot, ← ZOmega.normSq_toComplex,
    ← ZOmega.normSq_toComplex]
  exact ⟨Complex.normSq_nonneg _, Complex.normSq_nonneg _⟩

namespace ZSqrt2

/-- **The signs in `ℤ[√2]` are exact.** The sign found for `a + b√2` is that of the real number, for integers
of any size, and an element is doubly positive just when neither of its two embeddings is negative. So the
sign of a product is the product of the signs, sums and products of doubly positive elements are doubly
positive, and every `|u|²` is. -/
theorem signs_exact :
    (∀ a b : ℤ, (⟨a, b⟩ : ZSqrt2).sign = SignType.sign ((a : ℝ) + b * √2)) ∧
    (∀ a b : ℤ, (⟨a, b⟩ : ZSqrt2).isDoublyPositive = true ↔
      0 ≤ (a : ℝ) + b * √2 ∧ 0 ≤ (a : ℝ) - b * √2) ∧
    (∀ x y : ZSqrt2, (x * y).sign = x.sign * y.sign) ∧
    (∀ x y : ZSqrt2, x.isDoublyPositive = true → y.isDoublyPositive = true →
      (x + y).isDoublyPositive = true ∧ (x * y).isDoublyPositive = true) ∧
    ∀ u : ZOmega, u.norm.isDoublyPositive = true := by
  refine ⟨fun a b => sign_eq_sign_real ⟨a, b⟩, fun a b => ?_, ZSqrt2.sign_mul,
    fun x y hx hy => ⟨isDoublyPositive_add hx hy, isDoublyPositive_mul hx hy⟩,
    ZOmega.isDoublyPositive_norm⟩
  have h := isDoublyPositive_iff (x := ⟨a, b⟩)
  rwa [real_apply, real_dot] at h

/-- The numbers `577 - 408√2`, about `0.00087`, and `3 - 2√2`: their product is below `0.00015`. -/
theorem signs_exact_near_zero :
    (⟨577, -408⟩ : ZSqrt2).isDoublyPositive = true ∧ (⟨3, -2⟩ : ZSqrt2).isDoublyPositive = true ∧
    (⟨580, -410⟩ : ZSqrt2).isDoublyPositive = true ∧
    (⟨3363, -2378⟩ : ZSqrt2).isDoublyPositive = true := by
  have hfst : (⟨577, -408⟩ : ZSqrt2).isDoublyPositive = true := by decide
  have hsnd : (⟨3, -2⟩ : ZSqrt2).isDoublyPositive = true := by decide
  exact ⟨hfst, hsnd, signs_exact.2.2.2.1 ⟨577, -408⟩ ⟨3, -2⟩ hfst hsnd⟩

end ZSqrt2

end CliffordT
