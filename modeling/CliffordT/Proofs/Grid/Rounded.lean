/-
The rounded matrices that a reduction works with, next to the exact ones.

An entry `x + y/√2` of an operator is computed with a small relative error unless its two parts cancel;
in the operators of a reduction they never cancel by more than a factor four. The entries of a shift by `k`
are powers of `λ` and of `√λ⁻¹`, with errors in proportion to `|k| + 1`. Diagonal matrices and the exchange
of the coordinates involve no cancellation.
-/
import CliffordT.Grid.Skew
import CliffordT.Proofs.Grid.Operator
import CliffordT.Proofs.Plane.Preimage

namespace CliffordT

open BinFloat

namespace GridOperator

/-! ## Operators -/

/-- The parts of the entry `x + y/√2` cancel by a factor four at most. -/
structure IsStableEntry (x y : Int) : Prop where
  fst_le : |(x : ℝ)| ≤ 4 * |realEntry x y|
  snd_le : |(y : ℝ) * (1 / √2)| ≤ 4 * |realEntry x y|

theorem isStableEntry_int (x : Int) : IsStableEntry x 0 where
  fst_le := by
    have := abs_nonneg (x : ℝ)
    simp only [realEntry, Int.cast_zero, zero_mul, add_zero]
    linarith
  snd_le := by simp

theorem isStableEntry_root (y : Int) : IsStableEntry 0 y where
  fst_le := by simp
  snd_le := by
    have := abs_nonneg ((y : ℝ) * (1 / √2))
    simp only [realEntry, Int.cast_zero, zero_add]
    linarith

structure IsStable (g : GridOperator) : Prop where
  a : IsStableEntry g.a₀ g.a₁
  b : IsStableEntry g.b₀ g.b₁
  c : IsStableEntry g.c₀ g.c₁
  d : IsStableEntry g.d₀ g.d₁

section ToMatrix

variable {c : Constants}

theorem entryToReal_within (hc : c.Accurate) {x y : Int} (h : IsStableEntry x y) :
    Within (80 * roundoff c.prec) (entryToReal x y c).value (realEntry x y) := by
  have hsum : |(x : ℝ) + y * (1 / √2)| ≤ 4 * |realEntry x y| := by
    have := abs_nonneg (realEntry x y)
    unfold realEntry at this ⊢
    linarith
  refine (ZOmega.abs_linear_sub_le hc x y h.fst_le h.snd_le hsum).trans (le_of_eq ?_)
  ring

theorem prec_entryToReal (x y : Int) : c.prec ≤ (entryToReal x y c).prec := by
  show c.prec ≤ (c.int x + c.int y * c.invSqrt2).prec
  rw [prec_add]
  exact le_max_of_le_left (prec_ofInt _ _).ge

theorem toMatrix_approximates (hc : c.Accurate) {g : GridOperator} (h : g.IsStable) :
    (g.toMatrix c).Approximates (80 * roundoff c.prec) g.real :=
  ⟨entryToReal_within hc h.a, entryToReal_within hc h.b, entryToReal_within hc h.c,
    entryToReal_within hc h.d⟩

theorem hasPrec_toMatrix (g : GridOperator) : (g.toMatrix c).HasPrec c.prec :=
  ⟨prec_entryToReal _ _, prec_entryToReal _ _, prec_entryToReal _ _, prec_entryToReal _ _⟩

end ToMatrix

end GridOperator

/-! ## Shifts -/

namespace EllipsePair

open GridOperator (sigmaReal tauReal)

variable {c : Constants} {k : Int}

/-- The power of `√λ⁻¹` that the matrices of a shift are scaled by. -/
theorem sqrtLambdaInv_pow_within (hc : c.AccurateUnits) {n : Nat}
    (hn : 80 * ((n : ℝ) + 1) * roundoff c.prec ≤ 1 / 2) :
    Within (32 * n * roundoff c.prec) (c.sqrtLambdaInv.pow n).value (√lambdaReal ^ (-(n : ℤ))) := by
  have hu := roundoff_pos c.prec
  have h := value_pow_within (m := 14) (n := n) hc.prec_sqrtLambdaInv.ge
    (by exact_mod_cast hc.sqrtLambdaInv) (by push_cast; linarith)
  rw [Real.sqrt_inv, inv_pow, ← zpow_natCast, ← zpow_neg] at h
  refine h.mono (le_of_eq ?_)
  push_cast
  ring

theorem lambda_pow_within (hc : c.AccurateUnits) {n : Nat}
    (hn : 80 * ((n : ℝ) + 1) * roundoff c.prec ≤ 1 / 2) :
    Within (14 * n * roundoff c.prec) (c.lambda.pow n).value (lambdaReal ^ n) := by
  have h := value_pow_within (m := 5) (n := n) hc.prec_lambda.ge
    (by exact_mod_cast hc.lambda) (by push_cast; nlinarith)
  refine h.mono (le_of_eq ?_)
  push_cast
  ring

/-- The product of the two powers. -/
theorem shift_entry_within (hc : c.AccurateUnits) {n : Nat} {x : BinFloat} {v : ℝ}
    (hn : 80 * ((n : ℝ) + 1) * roundoff c.prec ≤ 1 / 2)
    (hx : Within ((14 * n + 2) * roundoff c.prec) x.value (v * lambdaReal ^ n)) :
    Within (80 * (n + 1) * roundoff c.prec) (x * c.sqrtLambdaInv.pow n).value
      (v * √lambdaReal ^ (n : ℤ)) := by
  have hu := roundoff_pos c.prec
  have hs := sqrtLambdaInv_pow_within hc hn
  have hn0 : (0 : ℝ) ≤ n * roundoff c.prec := by positivity
  have hexact : v * lambdaReal ^ n * √lambdaReal ^ (-(n : ℤ)) = v * √lambdaReal ^ (n : ℤ) := by
    have hk := GridOperator.sqrt_lambdaReal_zpow_mul_self (n : ℤ)
    rw [zpow_natCast, zpow_natCast] at hk
    rw [zpow_neg, zpow_natCast, ← hk]
    field_simp
  have hround := value_mul_within (x := x) (y := c.sqrtLambdaInv.pow n) (p := c.prec) (by
    rw [prec_pow, hc.prec_sqrtLambdaInv]
    exact le_max_right _ _)
  have hmul := hx.mul (by linarith) hs
  rw [hexact] at hmul
  exact (hround.trans hu.le (by linarith) hmul).mono (by linarith)

/-- The power alone, with a sign or without. -/
theorem shift_entry_within' (hc : c.AccurateUnits) {n : Nat} {x : BinFloat}
    (hn : 80 * ((n : ℝ) + 1) * roundoff c.prec ≤ 1 / 2) :
    Within (80 * (n + 1) * roundoff c.prec) (x * c.sqrtLambdaInv.pow n).value
      (x.value * √lambdaReal ^ (-(n : ℤ))) := by
  have hu := roundoff_pos c.prec
  have hn0 : (0 : ℝ) ≤ n * roundoff c.prec := by positivity
  have hround := value_mul_within (x := x) (y := c.sqrtLambdaInv.pow n) (p := c.prec) (by
    rw [prec_pow, hc.prec_sqrtLambdaInv]
    exact le_max_right _ _)
  have hmul := (Within.refl le_rfl x.value).mul (by norm_num) (sqrtLambdaInv_pow_within hc hn)
  exact (hround.trans hu.le (by linarith) hmul).mono (by linarith)

theorem shift_zero_within (e : ℝ) (s : BinFloat) (p : Nat) :
    Within e (BinFloat.zero p * s).value 0 := by
  have h := value_mul_within (x := BinFloat.zero p) (y := s) (p := 0) (Nat.zero_le _)
  rw [value_zero, zero_mul] at h
  unfold Within at h ⊢
  rwa [abs_zero, mul_zero] at h ⊢

/-- The sign in the matrix of the conjugate. -/
theorem value_sign (c : Constants) (k : Int) :
    (if k % 2 = 0 then c.one else -c.one).value = (-1) ^ k := by
  split
  · rename_i heven
    rw [(Int.even_iff.2 heven).neg_one_zpow]
    exact value_one _
  · rename_i hodd
    have hone : c.one.value = 1 := value_one _
    rw [(Int.odd_iff.2 (by omega)).neg_one_zpow, value_neg, hone]

theorem hasPrec_scale {m : Mat2} {s : BinFloat} {p : Nat} (h : p ≤ s.prec) :
    (m.scale s).HasPrec p := by
  constructor
  all_goals
    show p ≤ (_ * _ : BinFloat).prec
    rw [prec_mul]
    exact le_max_of_le_right h

theorem hasPrec_sigma (hc : c.AccurateUnits) (k : Int) : (sigma k c).HasPrec c.prec := by
  have hprec : c.prec ≤ (c.sqrtLambdaInv.pow k.natAbs).prec := by
    rw [prec_pow, hc.prec_sqrtLambdaInv]
  unfold sigma
  dsimp only
  split
  · exact hasPrec_scale hprec
  · exact hasPrec_scale hprec

theorem hasPrec_tau (hc : c.AccurateUnits) (k : Int) : (tau k c).HasPrec c.prec := by
  have hprec : c.prec ≤ (c.sqrtLambdaInv.pow k.natAbs).prec := by
    rw [prec_pow, hc.prec_sqrtLambdaInv]
  unfold tau
  dsimp only
  split
  · exact hasPrec_scale hprec
  · exact hasPrec_scale hprec

theorem sigma_approximates (hc : c.AccurateUnits)
    (hk : 80 * ((k.natAbs : ℝ) + 1) * roundoff c.prec ≤ 1 / 2) :
    (sigma k c).Approximates (80 * (k.natAbs + 1) * roundoff c.prec) (sigmaReal k) := by
  have hu := roundoff_pos c.prec
  have hone : c.one.value = 1 := value_one _
  have hlong := shift_entry_within hc hk (v := 1)
    (by rw [one_mul]; exact (lambda_pow_within hc hk).mono (by nlinarith))
  have hshort := shift_entry_within' (x := c.one) hc hk
  rw [hone, one_mul] at hshort
  rw [one_mul] at hlong
  unfold sigma
  dsimp only
  split
  · rename_i hneg
    have habs : (k.natAbs : ℤ) = -k := by omega
    rw [habs] at hlong hshort
    rw [neg_neg] at hshort
    exact ⟨hshort, shift_zero_within _ _ _, shift_zero_within _ _ _, hlong⟩
  · rename_i hpos
    have habs : (k.natAbs : ℤ) = k := by omega
    rw [habs] at hlong hshort
    exact ⟨hlong, shift_zero_within _ _ _, shift_zero_within _ _ _, hshort⟩

theorem tau_approximates (hc : c.AccurateUnits)
    (hk : 80 * ((k.natAbs : ℝ) + 1) * roundoff c.prec ≤ 1 / 2) :
    (tau k c).Approximates (80 * (k.natAbs + 1) * roundoff c.prec) (tauReal k) := by
  have hu := roundoff_pos c.prec
  have hsign := value_sign c k
  unfold tau
  dsimp only
  generalize (if k % 2 = 0 then c.one else -c.one) = v at hsign ⊢
  split
  · rename_i hneg
    have habs : (k.natAbs : ℤ) = -k := by omega
    have hlong := shift_entry_within hc hk (v := 1)
      (by rw [one_mul]; exact (lambda_pow_within hc hk).mono (by nlinarith))
    have hshort := shift_entry_within' (x := v) hc hk
    rw [one_mul, habs] at hlong
    rw [hsign, habs, neg_neg] at hshort
    exact ⟨hlong, shift_zero_within _ _ _, shift_zero_within _ _ _, hshort⟩
  · rename_i hpos
    have habs : (k.natAbs : ℤ) = k := by omega
    have hprod : Within ((14 * k.natAbs + 2) * roundoff c.prec) (v * c.lambda.pow k.natAbs).value
        ((-1) ^ k * lambdaReal ^ k.natAbs) := by
      have hround := value_mul_within (x := v) (y := c.lambda.pow k.natAbs) (p := c.prec) (by
        rw [prec_pow, hc.prec_lambda]
        exact le_max_right _ _)
      have hmul : Within (14 * k.natAbs * roundoff c.prec) (v.value * (c.lambda.pow k.natAbs).value)
          ((-1) ^ k * lambdaReal ^ k.natAbs) := by
        have hpow := (lambda_pow_within hc hk).sub_le
        rw [hsign]
        unfold Within
        have hunit : |(-1 : ℝ) ^ k| = 1 := by rw [abs_zpow, abs_neg, abs_one, one_zpow]
        rw [← mul_sub, abs_mul, abs_mul, hunit, one_mul, one_mul]
        exact hpow
      exact (hround.trans hu.le (by linarith) hmul).mono (by linarith)
    have hlong := shift_entry_within hc hk hprod
    have hshort := shift_entry_within' (x := c.one) hc hk
    have hone : c.one.value = 1 := value_one _
    rw [hone, one_mul, habs] at hshort
    rw [habs] at hlong
    exact ⟨hshort, shift_zero_within _ _ _, shift_zero_within _ _ _, hlong⟩

end EllipsePair

end CliffordT
