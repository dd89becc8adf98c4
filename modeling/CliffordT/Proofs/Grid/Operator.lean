/-
Grid operators as real matrices.

Under the two parity conditions every halving in a product comes out even, so that the product of two
operators is the product of their matrices, and satisfies the conditions again. An operator is special
exactly when its matrix has determinant one or minus one, as `√2` is irrational. The conjugate takes `√2`
to `-√2` in each entry. A shift multiplies the first entry by a power of `λ` and divides the last by it,
which is the product with a diagonal matrix from both sides; on the conjugate side the power of `λ` becomes
one of `-λ⁻¹`.
-/
import Mathlib.LinearAlgebra.Matrix.Determinant.Basic
import Mathlib.LinearAlgebra.Matrix.Notation
import CliffordT.Grid.Operator
import CliffordT.Proofs.Ring.Embedding
import CliffordT.Proofs.Settings.Lambda

namespace CliffordT

namespace GridOperator

/-! ## The matrix -/

/-- The real number `x + y/√2`. -/
noncomputable def realEntry (x y : Int) : ℝ := x + y * (1 / √2)

noncomputable def real (g : GridOperator) : Matrix (Fin 2) (Fin 2) ℝ :=
  !![realEntry g.a₀ g.a₁, realEntry g.b₀ g.b₁; realEntry g.c₀ g.c₁, realEntry g.d₀ g.d₁]

@[simp] theorem real_00 (g : GridOperator) : g.real 0 0 = realEntry g.a₀ g.a₁ := rfl

@[simp] theorem real_01 (g : GridOperator) : g.real 0 1 = realEntry g.b₀ g.b₁ := rfl

@[simp] theorem real_10 (g : GridOperator) : g.real 1 0 = realEntry g.c₀ g.c₁ := rfl

@[simp] theorem real_11 (g : GridOperator) : g.real 1 1 = realEntry g.d₀ g.d₁ := rfl

structure IsGrid (g : GridOperator) : Prop where
  evenSum : g.isEvenSum = true
  oneParity : g.isOneParity = true

instance (g : GridOperator) : Decidable g.IsGrid :=
  decidable_of_iff (g.isEvenSum = true ∧ g.isOneParity = true)
    ⟨fun h => ⟨h.1, h.2⟩, fun h => ⟨h.evenSum, h.oneParity⟩⟩

theorem isGrid_iff {g : GridOperator} :
    g.IsGrid ↔ (g.a₀ + g.b₀ + g.c₀ + g.d₀) % 2 = 0 ∧
      g.b₁ % 2 = g.a₁ % 2 ∧ g.c₁ % 2 = g.a₁ % 2 ∧ g.d₁ % 2 = g.a₁ % 2 := by
  constructor
  · rintro ⟨h, h'⟩
    simp only [isEvenSum, isOneParity, Bool.and_eq_true, beq_iff_eq] at h h'
    exact ⟨h, h'.1.1, h'.1.2, h'.2⟩
  · rintro ⟨h, hb, hc, hd⟩
    constructor
    · simpa [isEvenSum] using h
    · simp [isOneParity, hb, hc, hd]

/-! ## Products -/

/-- Two odd parts of one parity each give an even sum of products. -/
theorem two_dvd_mul_add_mul {x y x' y' : Int} (hx : y % 2 = x % 2) (hx' : y' % 2 = x' % 2) :
    2 ∣ x * x' + y * y' := by
  refine Int.dvd_of_emod_eq_zero ?_
  rw [Int.add_emod, Int.mul_emod x, Int.mul_emod y, hx, hx']
  rcases Int.emod_two_eq_zero_or_one x with h | h
  · simp [h]
  · rcases Int.emod_two_eq_zero_or_one x' with h' | h'
    · simp [h']
    · simp [h, h']

theorem cast_tdiv_two {n : Int} (h : 2 ∣ n) : ((n.tdiv 2 : Int) : ℝ) = n / 2 := by
  obtain ⟨m, rfl⟩ := h
  rw [Int.mul_tdiv_cancel_left _ (by norm_num)]
  push_cast
  ring

/-- One entry of a product. -/
theorem realEntry_product {x y x₁ y₁ x' y' x₁' y₁' : Int} (h : 2 ∣ x₁ * x₁' + y₁ * y₁') :
    realEntry (x * x' + y * y' + (x₁ * x₁' + y₁ * y₁').tdiv 2)
        (x * x₁' + x₁ * x' + y * y₁' + y₁ * y')
      = realEntry x x₁ * realEntry x' x₁' + realEntry y y₁ * realEntry y' y₁' := by
  have hsq := ZOmega.inv_sqrt_two_sq
  unfold realEntry
  push_cast
  rw [cast_tdiv_two h]
  push_cast
  generalize 1 / √2 = r at hsq ⊢
  linear_combination ((x₁ : ℝ) * x₁' + y₁ * y₁') * (-hsq)

/-- The odd parts of two entries in one row of a product have one parity. -/
theorem oddPart_row {x y x₁ y₁ a b c d a₁ b₁ c₁ d₁ : Int} (hy : y₁ % 2 = x₁ % 2)
    (hsum : (a + b + c + d) % 2 = 0) (hb : b₁ % 2 = a₁ % 2) (hc : c₁ % 2 = a₁ % 2)
    (hd : d₁ % 2 = a₁ % 2) :
    (x * b₁ + x₁ * b + y * d₁ + y₁ * d) % 2 = (x * a₁ + x₁ * a + y * c₁ + y₁ * c) % 2 := by
  obtain ⟨k, rfl⟩ : ∃ k, y₁ = x₁ + 2 * k := ⟨(y₁ - x₁) / 2, by omega⟩
  obtain ⟨l, rfl⟩ : ∃ k, b₁ = a₁ + 2 * k := ⟨(b₁ - a₁) / 2, by omega⟩
  obtain ⟨m, rfl⟩ : ∃ k, c₁ = a₁ + 2 * k := ⟨(c₁ - a₁) / 2, by omega⟩
  obtain ⟨n, rfl⟩ : ∃ k, d₁ = a₁ + 2 * k := ⟨(d₁ - a₁) / 2, by omega⟩
  obtain ⟨o, rfl⟩ : ∃ k, d = 2 * k - a - b - c := ⟨(a + b + c + d) / 2, by omega⟩
  grind

/-- The odd parts of two entries in one column of a product have one parity. -/
theorem oddPart_column {x y x₁ y₁ a b c d a₁ b₁ c₁ d₁ : Int} (hy : y₁ % 2 = x₁ % 2)
    (hsum : (a + b + c + d) % 2 = 0) (hb : b₁ % 2 = a₁ % 2) (hc : c₁ % 2 = a₁ % 2)
    (hd : d₁ % 2 = a₁ % 2) :
    (c * x₁ + c₁ * x + d * y₁ + d₁ * y) % 2 = (a * x₁ + a₁ * x + b * y₁ + b₁ * y) % 2 := by
  obtain ⟨k, rfl⟩ : ∃ k, y₁ = x₁ + 2 * k := ⟨(y₁ - x₁) / 2, by omega⟩
  obtain ⟨l, rfl⟩ : ∃ k, b₁ = a₁ + 2 * k := ⟨(b₁ - a₁) / 2, by omega⟩
  obtain ⟨m, rfl⟩ : ∃ k, c₁ = a₁ + 2 * k := ⟨(c₁ - a₁) / 2, by omega⟩
  obtain ⟨n, rfl⟩ : ∃ k, d₁ = a₁ + 2 * k := ⟨(d₁ - a₁) / 2, by omega⟩
  obtain ⟨o, rfl⟩ : ∃ k, d = 2 * k - a - b - c := ⟨(a + b + c + d) / 2, by omega⟩
  grind

section Product

variable {f g : GridOperator} (hf : f.IsGrid) (hg : g.IsGrid)
include hf hg

/-- **The product of operators is the product of their matrices.** -/
theorem real_mul : (f * g).real = f.real * g.real := by
  obtain ⟨-, hfb, hfc, hfd⟩ := isGrid_iff.1 hf
  obtain ⟨-, hgb, hgc, hgd⟩ := isGrid_iff.1 hg
  ext i j
  fin_cases i <;> fin_cases j
  all_goals simp only [Matrix.mul_apply, Fin.sum_univ_two]
  · exact realEntry_product (two_dvd_mul_add_mul hfb hgc)
  · exact realEntry_product (two_dvd_mul_add_mul hfb (hgd.trans hgb.symm))
  · exact realEntry_product (two_dvd_mul_add_mul (hfd.trans hfc.symm) hgc)
  · exact realEntry_product (two_dvd_mul_add_mul (hfd.trans hfc.symm) (hgd.trans hgb.symm))

/-- The product satisfies the conditions again. -/
theorem IsGrid.mul : (f * g).IsGrid := by
  obtain ⟨hf0, hfb, hfc, hfd⟩ := isGrid_iff.1 hf
  obtain ⟨hg0, hgb, hgc, hgd⟩ := isGrid_iff.1 hg
  refine isGrid_iff.2 ⟨?_, ?_, ?_, ?_⟩
  · -- twice the sum is four times an integer, since the halves add up to products of even sums
    have haa := Int.mul_tdiv_cancel' (two_dvd_mul_add_mul hfb hgc)
    have hab := Int.mul_tdiv_cancel' (two_dvd_mul_add_mul hfb (hgd.trans hgb.symm))
    have hba := Int.mul_tdiv_cancel' (two_dvd_mul_add_mul (hfd.trans hfc.symm) hgc)
    have hbb := Int.mul_tdiv_cancel' (two_dvd_mul_add_mul (hfd.trans hfc.symm)
      (hgd.trans hgb.symm))
    obtain ⟨m, hm⟩ : 2 ∣ f.a₀ + f.b₀ + f.c₀ + f.d₀ := by omega
    obtain ⟨n, hn⟩ : 2 ∣ g.a₀ + g.b₀ + g.c₀ + g.d₀ := by omega
    obtain ⟨s, hs⟩ : 2 ∣ f.a₁ + f.c₁ := by omega
    obtain ⟨t, ht⟩ : 2 ∣ f.b₁ + f.d₁ := by omega
    obtain ⟨s', hs'⟩ : 2 ∣ g.a₁ + g.b₁ := by omega
    obtain ⟨t', ht'⟩ : 2 ∣ g.c₁ + g.d₁ := by omega
    have hdouble : 2 * ((f * g).a₀ + (f * g).b₀ + (f * g).c₀ + (f * g).d₀)
        = 4 * ((f.a₀ + f.c₀) * (g.a₀ + g.b₀) + 2 * m * n - m * (g.a₀ + g.b₀)
          - (f.a₀ + f.c₀) * n + s * s' + t * t') := by
      show 2 * ((_ + (f.a₁ * g.a₁ + f.b₁ * g.c₁).tdiv 2) + (_ + (f.a₁ * g.b₁ + f.b₁ * g.d₁).tdiv 2)
        + (_ + (f.c₁ * g.a₁ + f.d₁ * g.c₁).tdiv 2) + (_ + (f.c₁ * g.b₁ + f.d₁ * g.d₁).tdiv 2)) = _
      linear_combination haa + hab + hba + hbb + 2 * (g.c₀ + g.d₀ - 0) * hm
        + (4 * m - 2 * (f.a₀ + f.c₀)) * hn + (g.a₁ + g.b₁) * hs + (g.c₁ + g.d₁) * ht
        + 2 * s * hs' + 2 * t * ht'
    omega
  · exact oddPart_row hfb hg0 hgb hgc hgd
  · exact oddPart_column hgc hf0 hfb hfc hfd
  · exact (oddPart_row (hfd.trans hfc.symm) hg0 hgb hgc hgd).trans
      (oddPart_column hgc hf0 hfb hfc hfd)

end Product

/-! ## Determinants -/

theorem real_det (g : GridOperator) : g.real.det
    = g.determinantParts.1 + g.determinantParts.2.1 * (1 / √2) + g.determinantParts.2.2 / 2 := by
  have hsq := ZOmega.inv_sqrt_two_sq
  rw [Matrix.det_fin_two]
  simp only [real_00, real_01, real_10, real_11, realEntry, determinantParts]
  push_cast
  generalize 1 / √2 = r at hsq ⊢
  linear_combination ((g.a₁ : ℝ) * g.d₁ - g.b₁ * g.c₁) * hsq

/-- **An operator is special when its matrix has determinant one or minus one.** -/
theorem isSpecial_iff {g : GridOperator} : g.isSpecial = true ↔ |g.real.det| = 1 := by
  rw [real_det]
  unfold isSpecial
  generalize g.determinantParts = d
  obtain ⟨p, q, r⟩ := d
  simp only [Bool.and_eq_true, beq_iff_eq]
  rw [abs_eq (by norm_num)]
  constructor
  · rintro ⟨rfl, h⟩
    rcases Int.natAbs_eq_iff.1 h with h | h
    · have h' : (p : ℝ) * 2 + r = 2 := by exact_mod_cast h
      left
      push_cast
      linarith
    · have h' : (p : ℝ) * 2 + r = -2 := by exact_mod_cast h
      right
      push_cast
      linarith
  · intro h
    have hzero {n : Int} (h : (p : ℝ) + q * (1 / √2) + r / 2 = n) : 2 * p + r - 2 * n = 0 ∧ 2 * q = 0 := by
      refine ZOmega.eq_zero_of_add_mul_sqrt_two ?_
      push_cast
      linarith
    rcases h with h | h
    · have := hzero (n := 1) (by rw [h]; norm_num)
      omega
    · have := hzero (n := -1) (by rw [h]; norm_num)
      omega

/-! ## Conjugates -/

theorem IsGrid.dot {g : GridOperator} (hg : g.IsGrid) : g.dot.IsGrid := by
  obtain ⟨h0, hb, hc, hd⟩ := isGrid_iff.1 hg
  refine isGrid_iff.2 ⟨h0, ?_, ?_, ?_⟩
  all_goals
    simp only [GridOperator.dot]
    omega

theorem dot_mul (f g : GridOperator) : (f * g).dot = f.dot * g.dot := by
  ext
  all_goals
    simp only [GridOperator.dot, HMul.hMul, Mul.mul, GridOperator.mul]
  all_goals
    simp only [Int.mul_def, Int.neg_mul, Int.mul_neg, neg_neg]
  all_goals
    ring

/-! ## Shifts -/

theorem realEntry_lambda (x y : Int) : realEntry (x + y) (x * 2 + y) = lambdaReal * realEntry x y := by
  have hsq := ZOmega.inv_sqrt_two_sq
  have htwo := ZOmega.sqrt_two_eq
  unfold realEntry lambdaReal
  push_cast
  generalize 1 / √2 = r at hsq htwo ⊢
  linear_combination (-2 * (y : ℝ)) * hsq - (x + y * r) * htwo

theorem realEntry_lambdaInv (x y : Int) :
    realEntry (y - x) (x * 2 - y) = lambdaReal⁻¹ * realEntry x y := by
  have hsq := ZOmega.inv_sqrt_two_sq
  have htwo := ZOmega.sqrt_two_eq
  rw [inv_lambdaReal]
  unfold realEntry
  push_cast
  generalize 1 / √2 = r at hsq htwo ⊢
  linear_combination (-2 * (y : ℝ)) * hsq - (x + y * r) * htwo

/-- The conjugate of `λ` is `-λ⁻¹`. -/
theorem realEntry_lambda_dot (x y : Int) :
    realEntry (x + y) (-(x * 2 + y)) = -lambdaReal⁻¹ * realEntry x (-y) := by
  have h := realEntry_lambdaInv x (-y)
  rw [neg_mul, ← h]
  unfold realEntry
  push_cast
  ring

theorem realEntry_lambdaInv_dot (x y : Int) :
    realEntry (y - x) (-(x * 2 - y)) = -lambdaReal * realEntry x (-y) := by
  have h := realEntry_lambda x (-y)
  rw [neg_mul, ← h]
  unfold realEntry
  push_cast
  ring

/-- The matrix with the first entry multiplied and the last one divided by `s`. -/
noncomputable def scaleEnds (s : ℝ) (R : Matrix (Fin 2) (Fin 2) ℝ) : Matrix (Fin 2) (Fin 2) ℝ :=
  !![s * R 0 0, R 0 1; R 1 0, s⁻¹ * R 1 1]

theorem scaleEnds_one (R : Matrix (Fin 2) (Fin 2) ℝ) : scaleEnds 1 R = R := by
  rw [scaleEnds, inv_one, one_mul, one_mul]
  exact (Matrix.eta_fin_two R).symm

theorem scaleEnds_scaleEnds (s t : ℝ) (R : Matrix (Fin 2) (Fin 2) ℝ) :
    scaleEnds s (scaleEnds t R) = scaleEnds (s * t) R := by
  simp [scaleEnds, mul_assoc, mul_left_comm]

theorem det_scaleEnds {s : ℝ} (hs : s ≠ 0) (R : Matrix (Fin 2) (Fin 2) ℝ) :
    (scaleEnds s R).det = R.det := by
  rw [Matrix.det_fin_two, Matrix.det_fin_two]
  simp only [scaleEnds, Matrix.of_apply, Matrix.cons_val', Matrix.cons_val_zero,
    Matrix.cons_val_one, Matrix.cons_val_fin_one]
  field_simp

theorem real_conjugate (g : GridOperator) : g.conjugate.real = scaleEnds lambdaReal g.real := by
  have h : realEntry (g.d₁ - g.d₀) (g.d₀ * 2 - g.d₁) = lambdaReal⁻¹ * realEntry g.d₀ g.d₁ :=
    realEntry_lambdaInv _ _
  simp [real, conjugate, scaleEnds, realEntry_lambda, h]

theorem real_invConjugate (g : GridOperator) :
    g.invConjugate.real = scaleEnds lambdaReal⁻¹ g.real := by
  simp [real, invConjugate, scaleEnds, realEntry_lambda, realEntry_lambdaInv]

theorem dot_real_conjugate (g : GridOperator) :
    g.conjugate.dot.real = scaleEnds (-lambdaReal⁻¹) g.dot.real := by
  have hinv : (-lambdaReal⁻¹)⁻¹ = -lambdaReal := by rw [inv_neg, inv_inv]
  have hd := realEntry_lambdaInv_dot g.d₀ g.d₁
  have ha := realEntry_lambda_dot g.a₀ g.a₁
  simp only [real, conjugate, dot, scaleEnds, hinv, ha, hd]
  simp

theorem dot_real_invConjugate (g : GridOperator) :
    g.invConjugate.dot.real = scaleEnds (-lambdaReal) g.dot.real := by
  have hinv : (-lambdaReal)⁻¹ = -lambdaReal⁻¹ := inv_neg
  have ha := realEntry_lambdaInv_dot g.a₀ g.a₁
  have hd := realEntry_lambda_dot g.d₀ g.d₁
  simp only [real, invConjugate, dot, scaleEnds, hinv, ha, hd]
  simp

theorem IsGrid.conjugate {g : GridOperator} (hg : g.IsGrid) : g.conjugate.IsGrid := by
  obtain ⟨h0, hb, hc, hd⟩ := isGrid_iff.1 hg
  refine isGrid_iff.2 ⟨?_, ?_, ?_, ?_⟩
  all_goals
    simp only [GridOperator.conjugate]
    omega

theorem IsGrid.invConjugate {g : GridOperator} (hg : g.IsGrid) : g.invConjugate.IsGrid := by
  obtain ⟨h0, hb, hc, hd⟩ := isGrid_iff.1 hg
  refine isGrid_iff.2 ⟨?_, ?_, ?_, ?_⟩
  all_goals
    simp only [GridOperator.invConjugate]
    omega

/-- What holds of an operator and is kept by both conjugations holds of its shifts. -/
theorem shift_induction {P : Int → GridOperator → Prop} {g : GridOperator} (h0 : P 0 g)
    (hup : ∀ k g, P k g → P (k + 1) g.conjugate) (hdown : ∀ k g, P k g → P (k - 1) g.invConjugate)
    (k : Int) : P k (g.shift k) := by
  have hconj (n : Nat) {l : Int} {g : GridOperator} (h : P l g) : P (l + n) (conjugateBy n g) := by
    induction n generalizing l g with
    | zero => simpa [conjugateBy] using h
    | succ n ih =>
      have hnext := ih (hup l g h)
      rwa [add_assoc, add_comm (1 : Int), ← Nat.cast_succ] at hnext
  have hinv (n : Nat) {l : Int} {g : GridOperator} (h : P l g) :
      P (l - n) (invConjugateBy n g) := by
    induction n generalizing l g with
    | zero => simpa [invConjugateBy] using h
    | succ n ih =>
      have hnext := ih (hdown l g h)
      rwa [sub_sub, add_comm (1 : Int), ← Nat.cast_succ] at hnext
  unfold shift
  split
  · have h := hconj k.natAbs h0
    rwa [zero_add, Int.natAbs_of_nonneg (by omega)] at h
  · have h := hinv k.natAbs h0
    rwa [zero_sub, Int.ofNat_natAbs_of_nonpos (by omega), neg_neg] at h

theorem IsGrid.shift {g : GridOperator} (hg : g.IsGrid) (k : Int) : (g.shift k).IsGrid :=
  shift_induction (P := fun _ g => g.IsGrid) hg (fun _ _ h => h.conjugate)
    (fun _ _ h => h.invConjugate) k

/-- **A shift scales the ends by a power of `λ`.** -/
theorem real_shift (g : GridOperator) (k : Int) :
    (g.shift k).real = scaleEnds (lambdaReal ^ k) g.real := by
  have hne := lambdaReal_pos.ne'
  refine shift_induction (P := fun k g' => g'.real = scaleEnds (lambdaReal ^ k) g.real)
    (by rw [zpow_zero, scaleEnds_one]) (fun k g' h => ?_) (fun k g' h => ?_) k
  · rw [real_conjugate, h, scaleEnds_scaleEnds, zpow_add_one₀ hne, mul_comm]
  · rw [real_invConjugate, h, scaleEnds_scaleEnds, zpow_sub_one₀ hne, mul_comm]

/-- On the conjugate side it is a power of `-λ⁻¹`. -/
theorem dot_real_shift (g : GridOperator) (k : Int) :
    (g.shift k).dot.real = scaleEnds ((-lambdaReal⁻¹) ^ k) g.dot.real := by
  have hne : -lambdaReal⁻¹ ≠ 0 := neg_ne_zero.2 (inv_ne_zero lambdaReal_pos.ne')
  refine shift_induction (P := fun k g' => g'.dot.real = scaleEnds ((-lambdaReal⁻¹) ^ k) g.dot.real)
    (by rw [zpow_zero, scaleEnds_one]) (fun k g' h => ?_) (fun k g' h => ?_) k
  · rw [dot_real_conjugate, h, scaleEnds_scaleEnds, zpow_add_one₀ hne, mul_comm]
  · have hinv : (-lambdaReal⁻¹)⁻¹ = -lambdaReal := by rw [inv_neg, inv_inv]
    rw [dot_real_invConjugate, h, scaleEnds_scaleEnds, zpow_sub_one₀ hne, hinv, mul_comm]

theorem isSpecial_shift {g : GridOperator} (hg : g.isSpecial = true) (k : Int) :
    (g.shift k).isSpecial = true := by
  rw [isSpecial_iff, real_shift, det_scaleEnds (zpow_ne_zero k lambdaReal_pos.ne')]
  exact isSpecial_iff.1 hg

theorem isSpecial_mul {f g : GridOperator} (hf : f.IsGrid) (hg : g.IsGrid)
    (hf' : f.isSpecial = true) (hg' : g.isSpecial = true) : (f * g).isSpecial = true := by
  rw [isSpecial_iff, real_mul hf hg, Matrix.det_mul, abs_mul, isSpecial_iff.1 hf',
    isSpecial_iff.1 hg', one_mul]

/-! ## Shifts as products -/

/-- The matrix `σᵏ` with `σ = λ^{-1/2} diag(λ, 1)`. -/
noncomputable def sigmaReal (k : Int) : Matrix (Fin 2) (Fin 2) ℝ :=
  !![√lambdaReal ^ k, 0; 0, √lambdaReal ^ (-k)]

/-- The matrix `τᵏ` with `τ = λ^{-1/2} diag(1, -λ)`. -/
noncomputable def tauReal (k : Int) : Matrix (Fin 2) (Fin 2) ℝ :=
  !![√lambdaReal ^ (-k), 0; 0, (-1) ^ k * √lambdaReal ^ k]

theorem sqrt_lambdaReal_zpow_mul_self (k : Int) :
    √lambdaReal ^ k * √lambdaReal ^ k = lambdaReal ^ k := by
  rw [← mul_zpow, Real.mul_self_sqrt lambdaReal_pos.le]

theorem sqrt_lambdaReal_ne_zero : √lambdaReal ≠ 0 := (Real.sqrt_pos.2 lambdaReal_pos).ne'

theorem sqrt_lambdaReal_zpow_mul_neg (k : Int) : √lambdaReal ^ k * √lambdaReal ^ (-k) = 1 := by
  rw [zpow_neg, mul_inv_cancel₀ (zpow_ne_zero k sqrt_lambdaReal_ne_zero)]

/-- The determinants of the two matrices. -/
theorem sigmaReal_diag (k : Int) : sigmaReal k 0 0 * sigmaReal k 1 1 = 1 := sqrt_lambdaReal_zpow_mul_neg k

theorem tauReal_diag (k : Int) : tauReal k 0 0 * tauReal k 1 1 = (-1) ^ k := by
  show √lambdaReal ^ (-k) * ((-1) ^ k * √lambdaReal ^ k) = (-1) ^ k
  rw [mul_left_comm, mul_comm (√lambdaReal ^ (-k)), sqrt_lambdaReal_zpow_mul_neg, mul_one]

theorem abs_neg_one_zpow (k : Int) : |(-1 : ℝ) ^ k| = 1 := by rw [abs_zpow, abs_neg, abs_one, one_zpow]

theorem sigmaReal_mul_real (g : GridOperator) (k : Int) :
    sigmaReal k * g.real * sigmaReal k = (g.shift k).real := by
  have hinv := sqrt_lambdaReal_zpow_mul_neg k
  have hk := sqrt_lambdaReal_zpow_mul_self k
  have hk' := sqrt_lambdaReal_zpow_mul_self (-k)
  rw [real_shift, ← Matrix.ext_iff]
  simp only [Matrix.mul_apply, Fin.sum_univ_two, sigmaReal, scaleEnds, Matrix.of_apply,
    Matrix.cons_val', Matrix.cons_val_zero, Matrix.cons_val_one, Matrix.cons_val_fin_one,
    Fin.forall_fin_two]
  rw [← zpow_neg]
  generalize √lambdaReal ^ k = s at *
  generalize √lambdaReal ^ (-k) = t at *
  refine ⟨⟨?_, ?_⟩, ?_, ?_⟩
  · linear_combination g.real 0 0 * hk
  · linear_combination g.real 0 1 * hinv
  · linear_combination g.real 1 0 * hinv
  · linear_combination g.real 1 1 * hk'

theorem tauReal_mul_real (g : GridOperator) (k : Int) :
    tauReal k * g.dot.real * tauReal k = (-1 : ℝ) ^ k • (g.shift k).dot.real := by
  have hinv := sqrt_lambdaReal_zpow_mul_neg k
  have hk := sqrt_lambdaReal_zpow_mul_self k
  have hk' := sqrt_lambdaReal_zpow_mul_self (-k)
  have hsign : (-1 : ℝ) ^ k * (-1) ^ k = 1 := by
    rw [← mul_zpow]
    norm_num
  have hsplit : (-lambdaReal⁻¹) ^ k = (-1) ^ k * lambdaReal ^ (-k) := by
    rw [neg_eq_neg_one_mul, mul_zpow, inv_zpow, zpow_neg]
  have hsplit' : ((-lambdaReal⁻¹) ^ k)⁻¹ = (-1) ^ k * lambdaReal ^ k := by
    rw [hsplit, mul_inv, zpow_neg, inv_inv]
    congr 1
    exact inv_eq_of_mul_eq_one_right hsign
  rw [dot_real_shift, ← Matrix.ext_iff]
  simp only [Matrix.mul_apply, Fin.sum_univ_two, tauReal, scaleEnds, Matrix.of_apply,
    Matrix.cons_val', Matrix.cons_val_zero, Matrix.cons_val_one, Matrix.cons_val_fin_one,
    Fin.forall_fin_two, Matrix.smul_apply, smul_eq_mul]
  rw [hsplit', hsplit]
  generalize √lambdaReal ^ k = s at *
  generalize √lambdaReal ^ (-k) = t at *
  generalize (-1 : ℝ) ^ k = v at *
  refine ⟨⟨?_, ?_⟩, ?_, ?_⟩
  · linear_combination g.dot.real 0 0 * hk' - lambdaReal ^ (-k) * g.dot.real 0 0 * hsign
  · linear_combination v * g.dot.real 0 1 * hinv
  · linear_combination v * g.dot.real 1 0 * hinv
  · linear_combination v * v * g.dot.real 1 1 * hk

end GridOperator

end CliffordT
