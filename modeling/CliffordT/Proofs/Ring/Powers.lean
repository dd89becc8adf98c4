/-
Powers in `ℤ[√2]` and `ℤ[ω]`, and the scaling of the line by powers of `λ`.

Square and multiply goes through the bits of the exponent from the last one on. The product so far times the power
of the base that is still to come does not change from round to round, so that the loop ends with the power, also
as it leaves out the last squaring. The powers of `λ` with exponents of either sign are those of a unit: the real
embeddings of `λᵏ` are `λᵏ` and `(-λ)⁻ᵏ`, and multiplication by it takes the points of a grid problem that was
scaled down by them to the points of the problem itself, each once.
-/
import Mathlib.Data.Set.Function
import CliffordT.Proofs.Loop
import CliffordT.Proofs.Ring.Embedding
import CliffordT.Proofs.Ring.Units
import CliffordT.Proofs.Settings.Lambda

namespace CliffordT

/-! ## Square and multiply -/

section Squaring

variable {M : Type} [CommMonoid M]

/-- One round of square and multiply, on the exponent that is left, the base and the product so far: the last bit
decides whether the base is multiplied in, and the base is squared where bits are left. -/
def powerRound : ℕ × M × M → (ℕ × M × M) ⊕ M
  | (n, y, r) =>
    if n = 0 then .inr r
    else .inl (n / 2, if n / 2 = 0 then y else y * y, if n % 2 = 1 then r * y else r)

/-- The squaring that is left out would be of a base raised to the power zero. -/
theorem pow_squared_base (y : M) (m : ℕ) : (if m = 0 then y else y * y) ^ m = y ^ (2 * m) := by
  split
  · next h => rw [h, Nat.mul_zero, pow_zero]
  · rw [← pow_two, ← pow_mul]

/-- A round keeps the product so far times the power that is left. -/
theorem powerRound_keeps {n n' : ℕ} {y y' r r' : M}
    (h : powerRound (n, y, r) = .inl (n', y', r')) : n' < n ∧ r' * y' ^ n' = r * y ^ n := by
  by_cases hn : n = 0
  · rw [powerRound, if_pos hn] at h
    cases h
  · rw [powerRound, if_neg hn] at h
    cases h
    refine ⟨by omega, ?_⟩
    rw [pow_squared_base]
    split
    · next hodd => rw [mul_assoc, ← pow_succ', show 2 * (n / 2) + 1 = n by omega]
    · next heven => rw [show 2 * (n / 2) = n by omega]

/-- The loop ends from every exponent, with that power as a factor of the product. -/
theorem powerRound_ends (n : ℕ) (y r : M) : LoopEnds powerRound (n, y, r) (r * y ^ n) := by
  induction n using Nat.strongRecOn generalizing y r with
  | ind n ih =>
    cases h : powerRound (n, y, r) with
    | inl s =>
      obtain ⟨n', y', r'⟩ := s
      obtain ⟨hlt, hkeeps⟩ := powerRound_keeps h
      rw [← hkeeps]
      exact .next h (ih n' hlt y' r')
    | inr v =>
      have hn : n = 0 := by
        by_contra hn
        simp [powerRound, hn] at h
      subst hn
      rw [pow_zero, mul_one]
      exact .done rfl

/-- Powers are products of equal factors, the outcome of square and multiply, and turn sums of exponents into
products. -/
structure ArePowers (p : M → ℕ → M) : Prop where
  prod_replicate (x : M) (n : ℕ) : p x n = (List.replicate n x).prod
  ends (x : M) (n : ℕ) : LoopEnds powerRound (n, x, 1) (p x n)
  add (x : M) (m n : ℕ) : p x (m + n) = p x m * p x n

theorem ArePowers.of_npow {p : M → ℕ → M} (h : ∀ x n, p x n = x ^ n) : ArePowers p where
  prod_replicate x n := by rw [h, List.prod_replicate]
  ends x n := by
    have hends := powerRound_ends n x 1
    rwa [one_mul, ← h] at hends
  add x m n := by rw [h, h, h, pow_add]

end Squaring

theorem ZSqrt2.arePowers_pow : ArePowers ZSqrt2.pow := .of_npow fun _ _ => rfl

theorem ZOmega.arePowers_pow : ArePowers ZOmega.pow := .of_npow fun _ _ => rfl

namespace ZSqrt2

/-! ## The embeddings of the powers of `λ` -/

/-- A homomorphism takes the powers of `λ` to those of its image. -/
theorem map_lambdaPow (f : ZSqrt2 →+* ℝ) (k : ℤ) : f (lambdaPow k) = f lambda ^ k := by
  calc f (lambdaPow k) = (Units.map (f : ZSqrt2 →* ℝ) (lambdaUnit ^ k) : ℝˣ) := congrArg f (lambdaPow_eq k)
    _ = (Units.map (f : ZSqrt2 →* ℝ) lambdaUnit ^ k : ℝˣ) := by rw [map_zpow]
    _ = f lambda ^ k := Units.val_zpow_eq_zpow_val _ _

theorem real_lambdaPow (k : ℤ) : real (lambdaPow k) = lambdaReal ^ k := by
  have hlam : real lambda = lambdaReal := by
    rw [real_apply]
    simp [lambda, lambdaReal]
  rw [map_lambdaPow, hlam]

theorem real_dot_lambdaPow_neg (k : ℤ) : real (lambdaPow (-k)).dot = (-lambdaReal) ^ k := by
  have hlam : real.comp dotHom lambda = (-lambdaReal)⁻¹ := by
    show real lambda.dot = _
    rw [real_dot, inv_neg, inv_lambdaReal]
    simp [lambda]
  have h := map_lambdaPow (real.comp dotHom) (-k)
  rwa [hlam, inv_zpow, zpow_neg, inv_inv] at h

/-! ## Scaling a grid problem -/

/-- The points of a grid problem on the line, for an exact set of places for `x` and one for `x•`. -/
def gridSolutions (A B : Set ℝ) : Set ZSqrt2 := {x | real x ∈ A ∧ real x.dot ∈ B}

theorem mem_gridSolutions {A B : Set ℝ} {x : ZSqrt2} :
    x ∈ gridSolutions A B ↔ real x ∈ A ∧ real x.dot ∈ B := Iff.rfl

theorem real_mul_lambdaPow (x : ZSqrt2) (k : ℤ) :
    real (x * lambdaPow k) = real x * lambdaReal ^ k := by
  rw [map_mul, real_lambdaPow]

theorem real_dot_mul_lambdaPow (x : ZSqrt2) (k : ℤ) :
    real (x * lambdaPow k).dot = real x.dot * (-lambdaReal) ^ (-k) := by
  have h := real_dot_lambdaPow_neg (-k)
  rw [neg_neg] at h
  rw [dot_mul, map_mul, h]

theorem bijective_mul_lambdaPow (k : ℤ) : Function.Bijective fun x : ZSqrt2 => x * lambdaPow k := by
  rw [lambdaPow_eq]
  exact Units.mulRight_bijective (lambdaUnit ^ k)

/-- A number is in a set scaled by `s⁻¹` when it is in the set after it is scaled by `s`. -/
theorem mem_image_mul_iff {A : Set ℝ} {s t y : ℝ} (h : s * t = 1) : y ∈ (· * s) '' A ↔ y * t ∈ A := by
  constructor
  · rintro ⟨z, hz, rfl⟩
    rwa [mul_assoc, h, mul_one]
  · intro hy
    refine ⟨y * t, hy, ?_⟩
    show y * t * s = y
    rw [mul_assoc, mul_comm t, h, mul_one]

theorem mem_scaled_iff {A B : Set ℝ} {x : ZSqrt2} {k : ℤ} :
    x ∈ gridSolutions ((· * lambdaReal⁻¹ ^ k) '' A) ((· * (-lambdaReal) ^ k) '' B) ↔
      x * lambdaPow k ∈ gridSolutions A B := by
  have hlam : lambdaReal⁻¹ ^ k * lambdaReal ^ k = 1 := by
    rw [← mul_zpow, inv_mul_cancel₀ lambdaReal_pos.ne', one_zpow]
  have hneg : (-lambdaReal) ^ k * (-lambdaReal) ^ (-k) = 1 := by
    rw [← zpow_add₀ (neg_ne_zero.2 lambdaReal_pos.ne'), add_neg_cancel, zpow_zero]
  rw [mem_gridSolutions, mem_gridSolutions, mem_image_mul_iff hlam, mem_image_mul_iff hneg,
    real_mul_lambdaPow, real_dot_mul_lambdaPow]

/-- Scaling back is one to one between the points of the scaled problem and those of the problem. -/
theorem bijOn_mul_lambdaPow (k : ℤ) (A B : Set ℝ) :
    Set.BijOn (fun x => x * lambdaPow k)
      (gridSolutions ((· * lambdaReal⁻¹ ^ k) '' A) ((· * (-lambdaReal) ^ k) '' B))
      (gridSolutions A B) := by
  obtain ⟨hinj, hsurj⟩ := bijective_mul_lambdaPow k
  refine ⟨fun x hx => mem_scaled_iff.1 hx, hinj.injOn, fun y hy => ?_⟩
  obtain ⟨x, rfl⟩ := hsurj y
  exact ⟨x, mem_scaled_iff.2 hy, rfl⟩

/-! ## Powers -/

/-- **Powers are exact.** In both rings a power is the product of equal factors and what square and multiply ends
with, and sums of exponents give products. With negative exponents added, the powers of `λ` are a homomorphism from
the integers to the units; the norm of `λᵏ` is `(-1)ᵏ`, and its conjugate is `(-1)ᵏ λ⁻ᵏ`. So multiplication by `λᵏ`
is a bijection that scales `x` by `λᵏ` and `x•` by `(-λ)⁻ᵏ`, and takes the points of the problem that is scaled by
`λ⁻ᵏ` and `(-λ)ᵏ` to those of the problem. -/
theorem powers_exact :
    ArePowers ZSqrt2.pow ∧ ArePowers ZOmega.pow ∧
    (∀ n : ℕ, lambdaPow n = lambda.pow n) ∧
    (∃ f : Multiplicative ℤ →* ZSqrt2ˣ, ∀ k, lambdaPow k = f (.ofAdd k)) ∧
    (∀ m n, lambdaPow (m + n) = lambdaPow m * lambdaPow n) ∧
    (∀ k, (lambdaPow k).norm = k.negOnePow ∧
      (lambdaPow k).dot = ((k.negOnePow : ℤ) : ZSqrt2) * lambdaPow (-k)) ∧
    ∀ k, (Function.Bijective fun x : ZSqrt2 => x * lambdaPow k) ∧
      (∀ x, real (x * lambdaPow k) = real x * lambdaReal ^ k ∧
        real (x * lambdaPow k).dot = real x.dot * (-lambdaReal) ^ (-k)) ∧
      ∀ A B, Set.BijOn (fun x => x * lambdaPow k)
        (gridSolutions ((· * lambdaReal⁻¹ ^ k) '' A) ((· * (-lambdaReal) ^ k) '' B))
        (gridSolutions A B) := by
  refine ⟨arePowers_pow, ZOmega.arePowers_pow, fun n => ?_, ⟨zpowersHom ZSqrt2ˣ lambdaUnit, lambdaPow_eq⟩,
    lambdaPow_add, fun k => ⟨norm_lambdaPow k, dot_lambdaPow k⟩, fun k => ⟨bijective_mul_lambdaPow k,
    fun x => ⟨real_mul_lambdaPow x k, real_dot_mul_lambdaPow x k⟩, bijOn_mul_lambdaPow k⟩⟩
  rw [lambdaPow, if_pos (Int.natCast_nonneg n), Int.natAbs_natCast]
  rfl

end ZSqrt2

end CliffordT
