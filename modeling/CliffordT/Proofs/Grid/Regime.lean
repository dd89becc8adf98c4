/-
The rounding errors that the working precision leaves room for.

The bounds that a reduction needs are compared through powers of two: with the precision `20 d + 128` for
`d` digits, an error of `2ʷ` roundoffs and a size of `2ʰ` are borne as long as `w + 2h` and `w + 3h` stay
below it by what the tolerance and the slightness take.
-/
import CliffordT.Proofs.Grid.Reduction

namespace CliffordT

open BinFloat

namespace Constants

variable {d : ℕ}

/-- The tolerance, from below, as a power of two. -/
theorem two_pow_le_tol (hd : 0 < d) : 1 / 2 ^ (11 * d + 39) ≤ (ofDigits d).tol.value := by
  have hu1 := roundoff_le_of_digits d
  have htol := (abs_le.1 (tol_within d).sub_le).1
  have hten : (0 : ℝ) < 1 / 10 ^ max 15 d := by positivity
  rw [abs_of_pos hten] at htol
  have hpow : (1.01 : ℝ) * 10 ^ max 15 d ≤ 2 ^ (11 * d + 39) := by
    rcases Nat.lt_or_ge d 16 with hlt | hge
    · rw [max_eq_left (by omega)]
      exact (by norm_num : (1.01 : ℝ) * 10 ^ 15 ≤ 2 ^ 50).trans
        (pow_le_pow_right₀ (by norm_num) (by omega))
    · rw [max_eq_right (by omega)]
      calc (1.01 : ℝ) * 10 ^ d ≤ 2 * (2 ^ 4) ^ d :=
            mul_le_mul (by norm_num) (pow_le_pow_left₀ (by norm_num) (by norm_num) _) (by positivity)
              (by norm_num)
        _ = 2 ^ (4 * d + 1) := by rw [← pow_mul, pow_succ, mul_comm]
        _ ≤ 2 ^ (11 * d + 39) := pow_le_pow_right₀ (by norm_num) (by omega)
  have hle : 1.01 * (1 / 2 ^ (11 * d + 39)) ≤ (1 : ℝ) / 10 ^ max 15 d := by
    rw [mul_one_div, div_le_div_iff₀ (by positivity) (by positivity)]
    linarith
  have hsmall : 2 * roundoff (20 * d + 128) * (1 / 10 ^ max 15 d) ≤ 1 / 1000 * (1 / 10 ^ max 15 d) :=
    mul_le_mul_of_nonneg_right (by linarith) hten.le
  linarith

theorem two_pow_le_part_of_tol (hd : 0 < d) :
    1 / 2 ^ (11 * d + 47) ≤ (ofDigits d).tol.value / 256 := by
  have htol := two_pow_le_tol hd
  have hsplit : (1 : ℝ) / 2 ^ (11 * d + 47) = 1 / 2 ^ (11 * d + 39) / 256 := by
    have h8 : (2 : ℝ) ^ 8 = 256 := by norm_num
    rw [div_div, ← h8, ← pow_add]
  rw [hsplit]
  linarith

end Constants

namespace EllipsePair

variable {d w h : ℕ} {ω H N : ℝ}

/-- Errors below `2ʷ` roundoffs, at sizes below `2ʰ`. -/
theorem bears_of_le (hd : 0 < d) (hω : ω ≤ 2 ^ w * roundoff (20 * d + 128)) (hω0 : 0 ≤ ω)
    (hH : H ≤ 2 ^ h) (hH0 : 0 ≤ H) (h2 : w + 2 * h + 11 * d + 55 ≤ 20 * d + 128) :
    Bears (Constants.ofDigits d) (Constants.ofDigits d).tol.value H ω := by
  refine ⟨le_rfl, (Constants.tol_bounds hd).2.trans (by norm_num), ?_⟩
  have htol := Constants.two_pow_le_part_of_tol hd
  have hle : 256 * ω * H ^ 2 ≤ 1 / 2 ^ (11 * d + 47) := by
    have hpow : H ^ 2 ≤ 2 ^ (2 * h) := by
      rw [mul_comm, pow_mul]
      exact pow_le_pow_left₀ hH0 hH 2
    calc 256 * ω * H ^ 2
        ≤ 256 * (2 ^ w * roundoff (20 * d + 128)) * 2 ^ (2 * h) :=
          mul_le_mul (by linarith) hpow (by positivity) (by linarith)
      _ = 2 ^ (8 + w + 2 * h) * roundoff (20 * d + 128) := by
          rw [pow_add, pow_add]
          ring
      _ ≤ 1 / 2 ^ (11 * d + 47) := by
          rw [roundoff_eq, mul_one_div, div_le_div_iff₀ (by positivity) (by positivity), one_mul,
            ← pow_add]
          exact pow_le_pow_right₀ (by norm_num) (by omega)
  have hpos : 0 ≤ ω * H ^ 2 := by positivity
  linarith

/-- Exponents below `2ʷ`. -/
theorem inRange_of_le (hd : 0 < d) (hN : 0 ≤ N) (hN60 : N ≤ 2 ^ 60) (hNw : N + 3 ≤ 2 ^ w)
    (hw : w + 11 * d + 59 ≤ 20 * d + 128) : InRange (Constants.ofDigits d) N := by
  have hu := roundoff_pos (20 * d + 128)
  refine ⟨hN, hN60, ?_⟩
  have htol := Constants.two_pow_le_part_of_tol hd
  show 4000 * (N + 3) * roundoff (20 * d + 128) ≤ (Constants.ofDigits d).tol.value / 256
  have hle : 4096 * (N + 3) * roundoff (20 * d + 128) ≤ 1 / 2 ^ (11 * d + 47) := by
    calc 4096 * (N + 3) * roundoff (20 * d + 128)
        ≤ 4096 * 2 ^ w * roundoff (20 * d + 128) :=
          mul_le_mul_of_nonneg_right (by linarith) hu.le
      _ = 2 ^ (12 + w) * roundoff (20 * d + 128) := by
          rw [pow_add]
          norm_num
      _ ≤ 1 / 2 ^ (11 * d + 47) := by
          rw [roundoff_eq, mul_one_div, div_le_div_iff₀ (by positivity) (by positivity), one_mul,
            ← pow_add]
          exact pow_le_pow_right₀ (by norm_num) (by omega)
  have hpos : 0 ≤ (N + 3) * roundoff (20 * d + 128) := by positivity
  linarith

end EllipsePair

end CliffordT
