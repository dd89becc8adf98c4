/-
The powers of `ω`.

They are periodic with period eight, turn sums into products, and are the elements of size one.
-/
import Mathlib.Tactic.Linarith
import CliffordT.Proofs.Ring.Algebra
import CliffordT.Ring.Denominator

namespace CliffordT.ZOmega

/-- The power depends on the exponent modulo 8 alone. -/
theorem omegaPow_emod (n : Int) : omegaPow (n % 8) = omegaPow n := by
  unfold omegaPow
  rw [Int.emod_emod_of_dvd n (by decide : (4 : Int) ∣ 8), Int.emod_emod]

theorem omegaPow_eq_of_emod {m n : Int} (h : m % 8 = n % 8) : omegaPow m = omegaPow n := by
  rw [← omegaPow_emod m, h, omegaPow_emod]

/-- Every exponent is that of a residue. -/
theorem exists_residue (n : Int) : ∃ i : Fin 8, n % 8 = (i.val : Int) :=
  ⟨⟨(n % 8).toNat, by omega⟩, by simp only; omega⟩

theorem omegaPow_residue {n : Int} {i : Fin 8} (h : n % 8 = (i.val : Int)) :
    omegaPow n = omegaPow (i.val : Int) := by
  rw [← omegaPow_emod n, h]

theorem omegaPow_zero : omegaPow 0 = 1 := rfl

theorem omegaPow_add (m n : Int) : omegaPow (m + n) = omegaPow m * omegaPow n := by
  have key : ∀ i j : Fin 8,
      omegaPow ((i.val : Int) + j.val) = omegaPow (i.val : Int) * omegaPow (j.val : Int) := by
    decide
  obtain ⟨i, hi⟩ := exists_residue m
  obtain ⟨j, hj⟩ := exists_residue n
  rw [omegaPow_residue hi, omegaPow_residue hj, ← key i j]
  exact omegaPow_eq_of_emod (by omega)

/-- The complex conjugate of a power has the negative exponent. -/
theorem conj_omegaPow (n : Int) : (omegaPow n).conj = omegaPow (-n) := by
  have key : ∀ i : Fin 8, (omegaPow (i.val : Int)).conj = omegaPow (-(i.val : Int)) := by
    decide
  obtain ⟨i, hi⟩ := exists_residue n
  rw [omegaPow_residue hi, key i]
  exact omegaPow_eq_of_emod (by omega)

theorem omegaPow_neg_mul (n : Int) : omegaPow (-n) * omegaPow n = 1 := by
  rw [← omegaPow_add, Int.add_left_neg, omegaPow_zero]

theorem omegaPow_mul_neg (n : Int) : omegaPow n * omegaPow (-n) = 1 := by
  rw [← omegaPow_add, Int.add_right_neg, omegaPow_zero]

theorem norm_omegaPow (n : Int) : (omegaPow n).norm = 1 := by
  refine ofZSqrt2_injective ?_
  rw [← mul_conj, conj_omegaPow, omegaPow_mul_neg]
  rfl

/-- A residue as an exponent. -/
theorem omegaPow_val_add (i j : Fin 8) :
    omegaPow ((i + j : Fin 8).val : Int) = omegaPow (i.val : Int) * omegaPow (j.val : Int) := by
  rw [← omegaPow_add]
  refine omegaPow_eq_of_emod ?_
  rw [Fin.val_add]
  omega

theorem omegaPow_val_neg (i : Fin 8) :
    omegaPow ((-i : Fin 8).val : Int) = omegaPow (-(i.val : Int)) := by
  refine omegaPow_eq_of_emod ?_
  rw [Fin.val_neg']
  omega

/-- The elements of size one are the powers of `ω`. -/
theorem exists_omegaPow_of_size {u : ZOmega} (h : u.norm.a = 1) :
    ∃ i : Fin 8, u = omegaPow (i.val : Int) := by
  obtain ⟨a, b, c, d⟩ := u
  simp only [norm] at h
  have bound : ∀ x y z w : Int, x * x + y * y + z * z + w * w = 1 → -1 ≤ x ∧ x ≤ 1 := by
    intro x y z w hsum
    constructor
    · nlinarith [mul_self_nonneg y, mul_self_nonneg z, mul_self_nonneg w]
    · nlinarith [mul_self_nonneg y, mul_self_nonneg z, mul_self_nonneg w]
  have ha := bound a b c d h
  have hb := bound b a c d (by linarith)
  have hc := bound c b a d (by linarith)
  have hd := bound d b c a (by linarith)
  have key : ∀ a b c d : Fin 3,
      ((a.val : Int) - 1) * (a.val - 1) + (b.val - 1) * (b.val - 1) + (c.val - 1) * (c.val - 1)
        + (d.val - 1) * (d.val - 1) = 1 →
      ∃ i : Fin 8, (⟨a.val - 1, b.val - 1, c.val - 1, d.val - 1⟩ : ZOmega) = omegaPow (i.val : Int) := by
    decide
  have digit : ∀ x : Int, -1 ≤ x ∧ x ≤ 1 → ∃ i : Fin 3, x = (i.val : Int) - 1 := fun x hx =>
    ⟨⟨(x + 1).toNat, by omega⟩, by simp only; omega⟩
  obtain ⟨a', rfl⟩ := digit a ha
  obtain ⟨b', rfl⟩ := digit b hb
  obtain ⟨c', rfl⟩ := digit c hc
  obtain ⟨d', rfl⟩ := digit d hd
  exact key a' b' c' d' h

end CliffordT.ZOmega
