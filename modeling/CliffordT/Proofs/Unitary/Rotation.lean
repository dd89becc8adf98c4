/-
Rotations about the `z` axis, and words with a global phase.

A word of a closed form holds the letter `w` beside the gates, the phase `e^{-iπ/8}`, which no word of
gates has. `wordMatrix` is the product of the letters, as for the words of gates. The letters of the
closed forms are diagonal with powers of `e^{iπ/8}`, so that the matrix of such a word is found by adding
exponents: `wordPhases` computes them, and a rotation by a multiple of `π/4` is recognized from them.
-/
import Mathlib.Analysis.CStarAlgebra.Matrix
import Mathlib.Analysis.SpecialFunctions.Trigonometric.Bounds
import CliffordT.Proofs.Unitary.Matrix

namespace CliffordT

open Matrix
open ZOmega (complexOmega)
open scoped Matrix.Norms.L2Operator Real

/-! ## Diagonal phases -/

/-- The matrix `diag(e^{iα}, e^{iβ})`. -/
noncomputable def phases (α β : ℝ) : Matrix (Fin 2) (Fin 2) ℂ :=
  diagonal ![Complex.exp (Complex.I * α), Complex.exp (Complex.I * β)]

theorem phases_zero : phases 0 0 = 1 := by
  unfold phases
  rw [Complex.ofReal_zero, mul_zero, Complex.exp_zero, ← diagonal_one]
  congr 1
  ext i
  fin_cases i <;> rfl

theorem phases_mul (α β γ δ : ℝ) : phases α β * phases γ δ = phases (α + γ) (β + δ) := by
  unfold phases
  rw [diagonal_mul_diagonal]
  congr 1
  ext i
  fin_cases i <;> simp [mul_add, Complex.exp_add]

/-- A common phase is a factor. -/
theorem phases_self (α : ℝ) : phases α α = Complex.exp (Complex.I * α) • 1 := by
  unfold phases
  rw [← diagonal_one, ← diagonal_smul]
  congr 1
  ext i
  fin_cases i <;> simp

theorem exp_I_mul_add_two_pi (α : ℝ) (m : ℤ) :
    Complex.exp (Complex.I * (α + m * (2 * π) : ℝ)) = Complex.exp (Complex.I * α) := by
  have hsum : Complex.I * (α + m * (2 * π) : ℝ) = Complex.I * α + m * (2 * π * Complex.I) := by
    push_cast
    ring
  rw [hsum, Complex.exp_add, Complex.exp_int_mul_two_pi_mul_I, mul_one]

/-- Full turns of the two entries make no difference. -/
theorem phases_add_two_pi (α β : ℝ) (m n : ℤ) :
    phases (α + m * (2 * π)) (β + n * (2 * π)) = phases α β := by
  unfold phases
  rw [exp_I_mul_add_two_pi, exp_I_mul_add_two_pi]

theorem norm_phases (α β : ℝ) : ‖phases α β‖ = 1 := by
  unfold phases
  rw [l2_opNorm_diagonal]
  refine le_antisymm ((pi_norm_le_iff_of_nonneg zero_le_one).2 fun i => ?_) ?_
  · fin_cases i <;> simp [Complex.norm_exp_I_mul_ofReal]
  · have h := norm_le_pi_norm ![Complex.exp (Complex.I * α), Complex.exp (Complex.I * β)] 0
    rwa [cons_val_zero, Complex.norm_exp_I_mul_ofReal] at h

/-- Phases are no farther from each other than their angles. -/
theorem norm_exp_sub_exp_le (α γ : ℝ) :
    ‖Complex.exp (Complex.I * α) - Complex.exp (Complex.I * γ)‖ ≤ |α - γ| := by
  have hfactor : Complex.exp (Complex.I * α) - Complex.exp (Complex.I * γ)
      = Complex.exp (Complex.I * γ) * (Complex.exp (Complex.I * (α - γ : ℝ)) - 1) := by
    rw [mul_sub_one, ← Complex.exp_add]
    congr 2
    push_cast
    ring
  rw [hfactor, norm_mul, Complex.norm_exp_I_mul_ofReal, one_mul]
  exact Real.norm_exp_I_mul_ofReal_sub_one_le

theorem norm_phases_sub_le {α β γ δ e : ℝ} (h : |α - γ| ≤ e) (h' : |β - δ| ≤ e) :
    ‖phases α β - phases γ δ‖ ≤ e := by
  have he : 0 ≤ e := (abs_nonneg _).trans h
  unfold phases
  rw [diagonal_sub, l2_opNorm_diagonal]
  refine (pi_norm_le_iff_of_nonneg he).2 fun i => ?_
  fin_cases i
  · exact (norm_exp_sub_exp_le α γ).trans h
  · exact (norm_exp_sub_exp_le β δ).trans h'

/-! ## Rotations -/

/-- The rotation `rz(θ) = diag(e^{-iθ/2}, e^{iθ/2})`. -/
noncomputable def rz (θ : ℝ) : Matrix (Fin 2) (Fin 2) ℂ := phases (-(θ / 2)) (θ / 2)

theorem norm_rz (θ : ℝ) : ‖rz θ‖ = 1 := norm_phases _ _

/-- Rotations differ by no more than half of the difference of their angles. -/
theorem norm_rz_sub_rz_le (θ ψ : ℝ) : ‖rz θ - rz ψ‖ ≤ |θ - ψ| / 2 := by
  have habs : |θ / 2 - ψ / 2| = |θ - ψ| / 2 := by rw [← sub_div, abs_div, abs_two]
  refine norm_phases_sub_le (le_of_eq ?_) habs.le
  rw [← habs, ← abs_neg]
  congr 1
  ring

/-- A rotation by `2π` is minus the identity. -/
theorem rz_sub_two_pi (θ : ℝ) (n : ℤ) : rz (θ - n * (2 * π)) = (-1 : ℂ) ^ n • rz θ := by
  have hsign : phases (n * π) (-(n * π)) = (-1 : ℂ) ^ n • 1 := by
    have hturn : phases (n * π) (-(n * π)) = phases (n * π) (n * π) := by
      have h := phases_add_two_pi (n * π) (n * π) 0 (-n)
      rw [← h]
      congr 1 <;> push_cast <;> ring
    rw [hturn, phases_self]
    congr 1
    rw [← Complex.exp_pi_mul_I, ← Complex.exp_int_mul]
    congr 1
    push_cast
    ring
  have hprod : rz (θ - n * (2 * π)) = phases (n * π) (-(n * π)) * rz θ := by
    unfold rz
    rw [phases_mul]
    congr 1 <;> ring
  rw [hprod, hsign, smul_mul_assoc, one_mul]

/-! ## Words with the phase letter -/

/-- The matrix of a letter: the phase `e^{-iπ/8}` for `w`, half of that of `W` taken back, and the gate for
any other one. -/
noncomputable def letterMatrix (c : Char) : Option (Matrix (Fin 2) (Fin 2) ℂ) :=
  if c = 'w' then some (Complex.exp (Complex.I * (-(π / 4 / 2) : ℝ)) • 1)
  else (Gate.ofLetter? c).map fun g => (g.applyRight Unitary.identity).matrix

noncomputable def wordMatrix : Word → Option (Matrix (Fin 2) (Fin 2) ℂ)
  | [] => some 1
  | c :: rest =>
    match letterMatrix c, wordMatrix rest with
    | some m, some n => some (m * n)
    | _, _ => none

theorem complexOmega_eq_exp : complexOmega = Complex.exp (Complex.I * (π / 4 : ℝ)) := by
  have hroot : 1 / √2 = √2 / 2 := by
    rw [div_eq_div_iff (by positivity) (by norm_num), one_mul, Real.mul_self_sqrt (by norm_num)]
  rw [mul_comm]
  apply Complex.ext
  · rw [Complex.exp_ofReal_mul_I_re, Real.cos_pi_div_four, ← hroot]
    rfl
  · rw [Complex.exp_ofReal_mul_I_im, Real.sin_pi_div_four, ← hroot]
    rfl

theorem complexOmega_pow (n : ℕ) : complexOmega ^ n = Complex.exp (Complex.I * (n * (π / 4) : ℝ)) := by
  rw [complexOmega_eq_exp, ← Complex.exp_nat_mul]
  congr 1
  push_cast
  ring

/-- A gate multiplies the matrix from the right. -/
theorem matrix_applyRight (g : Gate) (m : Unitary) :
    (g.applyRight m).matrix = m.matrix * (g.applyRight Unitary.identity).matrix := by
  cases g with
  | w => simp [Gate.applyRight]
  | _ => simp [Gate.applyRight]

/-- The words of gates have the matrix of their unitary. -/
theorem wordMatrix_of_applyWord {m n : Unitary} {w : Word} (h : m.applyWord w = .ok n) :
    ∃ M, wordMatrix w = some M ∧ n.matrix = m.matrix * M := by
  induction w generalizing m with
  | nil =>
    cases h
    exact ⟨1, rfl, (mul_one _).symm⟩
  | cons c rest ih =>
    rw [Unitary.applyWord] at h
    cases hg : Gate.ofLetter? c with
    | none =>
      rw [hg] at h
      cases h
    | some g =>
      rw [hg] at h
      obtain ⟨M, hM, hn⟩ := ih h
      have hw : c ≠ 'w' := by
        rintro rfl
        cases hg
      refine ⟨(g.applyRight Unitary.identity).matrix * M, ?_, ?_⟩
      · simp [wordMatrix, letterMatrix, hw, hg, hM]
      · rw [hn, matrix_applyRight, mul_assoc]

/-! ## Exponents of `e^{iπ/8}` -/

/-- The exponents of `e^{iπ/8}` on the diagonal of a letter of the closed forms. -/
def letterPhases : Char → Option (ℤ × ℤ)
  | 'T' => some (0, 2)
  | 'S' => some (0, 4)
  | 'W' => some (2, 2)
  | 'w' => some (-1, -1)
  | _ => none

/-- The exponents of `e^{iπ/8}` on the diagonal of a word. -/
def wordPhases : Word → Option (ℤ × ℤ)
  | [] => some (0, 0)
  | c :: rest =>
    match letterPhases c, wordPhases rest with
    | some p, some q => some (p.1 + q.1, p.2 + q.2)
    | _, _ => none

/-- A gate `diag(1, ωˡ)` on its own. -/
theorem matrix_identity_mul_ofParts (l : Fin 8) :
    (Unitary.identity * Unitary.ofParts 1 0 0 l).matrix = phases 0 (l.val * (π / 4)) := by
  have hparts : (Unitary.ofParts 1 0 0 l).matrix = !![1, 0; 0, complexOmega ^ l.val] := by
    have hreduced : (Unitary.ofParts 1 0 0 l).matrix = (⟨1, 0, 0, l⟩ : Unitary).matrix :=
      Unitary.matrix_reduce _
    rw [hreduced, Unitary.matrix]
    simp
  rw [Unitary.matrix_mul, Unitary.matrix_identity, one_mul, hparts, complexOmega_pow, phases]
  ext i j
  fin_cases i <;> fin_cases j <;> simp

/-- The letters are `T = diag(1, e^{iπ/4})`, `S = T²`, `W = e^{iπ/4}` and `w = e^{-iπ/8}`. -/
theorem letterMatrix_of_letterPhases {c : Char} {p : ℤ × ℤ} (h : letterPhases c = some p) :
    letterMatrix c = some (phases (p.1 * (π / 8)) (p.2 * (π / 8))) := by
  unfold letterPhases at h
  split at h
  · cases h
    refine congrArg some ((matrix_identity_mul_ofParts 1).trans ?_)
    congr 1
    · simp
    · norm_num
      ring
  · cases h
    refine congrArg some ((matrix_identity_mul_ofParts 2).trans ?_)
    congr 1
    · simp
    · norm_num
      ring
  · cases h
    refine congrArg some ((Unitary.matrix_mulPhase Unitary.identity 1).trans ?_)
    rw [Unitary.matrix_identity, pow_one, complexOmega_eq_exp, ← phases_self]
    congr 1 <;> push_cast <;> ring
  · cases h
    refine congrArg some ?_
    rw [← phases_self]
    congr 1 <;> push_cast <;> ring
  · cases h

theorem wordMatrix_of_wordPhases {w : Word} {p : ℤ × ℤ} (h : wordPhases w = some p) :
    wordMatrix w = some (phases (p.1 * (π / 8)) (p.2 * (π / 8))) := by
  induction w generalizing p with
  | nil =>
    cases h
    simp [wordMatrix, phases_zero]
  | cons c rest ih =>
    rw [wordPhases] at h
    split at h
    · next q r hc hrest =>
      cases h
      rw [wordMatrix, letterMatrix_of_letterPhases hc, ih hrest]
      dsimp only
      rw [phases_mul]
      congr 2 <;> push_cast <;> ring
    · cases h

/-- The exponents of the word are those of `rz(n · π/4)`, up to full turns. -/
def isRotation (n : ℕ) (w : Word) : Bool :=
  (wordPhases w).any fun p : ℤ × ℤ => (p.1 + n) % 16 == 0 && (p.2 - n) % 16 == 0

/-- A word that is recognized is the rotation, with its global phase. -/
theorem wordMatrix_of_isRotation {n : ℕ} {w : Word} (h : isRotation n w = true) :
    wordMatrix w = some (rz (n * (π / 4))) := by
  unfold isRotation at h
  obtain ⟨p, hp, hmod⟩ := (Option.any_eq_true _ _).1 h
  simp only [Bool.and_eq_true, beq_iff_eq] at hmod
  obtain ⟨k, hk⟩ := Int.dvd_of_emod_eq_zero hmod.1
  obtain ⟨l, hl⟩ := Int.dvd_of_emod_eq_zero hmod.2
  have h1 : (p.1 : ℝ) = 16 * k - n := by
    have h := congrArg (Int.cast : ℤ → ℝ) hk
    push_cast at h
    linarith
  have h2 : (p.2 : ℝ) = 16 * l + n := by
    have h := congrArg (Int.cast : ℤ → ℝ) hl
    push_cast at h
    linarith
  rw [wordMatrix_of_wordPhases hp, rz,
    ← phases_add_two_pi (-(n * (π / 4) / 2)) (n * (π / 4) / 2) k l, h1, h2]
  congr 2 <;> ring

end CliffordT
