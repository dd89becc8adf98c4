/-
Powers of two keep away from small multiples of powers of five.

No power of two is near `9 q 5ⁿ` with a small `q` and an `n` that is a multiple of four and not too large: the
binary logarithms would be near to each other, and then so would their multiples by an integer for which that of
the logarithm of five is nearly an integer; but that of the logarithm of `9 q` is not. The logarithms that this
takes are computed digit by digit: a number between one and two is squared, and halved where it has come to be two
or more, which is a digit.
-/
import Mathlib.Analysis.SpecialFunctions.Log.Base

namespace CliffordT

/-! ## Binary logarithms -/

/-- The square of `b / 2 ^ 99 * 2 ^ e`, for the pair of `b` and `e`, cut up or down. -/
def squared (up : Bool) (b : ℕ × ℕ) : ℕ × ℕ :=
  let s := if b.1 * b.1 < 2 ^ 199 then 0 else 1
  ((b.1 * b.1 + if up then 2 ^ (99 + s) - 1 else 0) / 2 ^ (99 + s), 2 * b.2 + s)

def squaredTimes (up : Bool) : ℕ → ℕ × ℕ → ℕ × ℕ
  | 0, b => b
  | m + 1, b => squaredTimes up m (squared up b)

/-- The power `n ^ 2 ^ m`. -/
def bigPower (up : Bool) (m n : ℕ) : ℕ × ℕ := squaredTimes up m (n * 2 ^ (99 - n.log2), n.log2)

theorem squaredTimes_le {m y : ℕ} {b : ℕ × ℕ} (h : b.1 * 2 ^ b.2 ≤ y * 2 ^ 99) :
    (squaredTimes false m b).1 * 2 ^ (squaredTimes false m b).2 ≤ y ^ 2 ^ m * 2 ^ 99 := by
  induction m generalizing y b with
  | zero => rwa [pow_zero, pow_one]
  | succ m ih =>
    rw [pow_succ', pow_mul]
    refine ih ?_
    unfold squared
    dsimp only
    generalize (if b.1 * b.1 < 2 ^ 199 then 0 else 1) = s
    refine Nat.le_of_mul_le_mul_right ?_ (by positivity : 0 < 2 ^ 99)
    calc (b.1 * b.1 + 0) / 2 ^ (99 + s) * 2 ^ (2 * b.2 + s) * 2 ^ 99
        = b.1 * b.1 / 2 ^ (99 + s) * 2 ^ (99 + s) * 2 ^ (2 * b.2) := by
          rw [add_zero, pow_add 2 (2 * b.2), pow_add 2 99]
          ring
      _ ≤ b.1 * b.1 * 2 ^ (2 * b.2) := Nat.mul_le_mul_right _ (Nat.div_mul_le_self _ _)
      _ = (b.1 * 2 ^ b.2) ^ 2 := by
          rw [two_mul b.2, pow_add]
          ring
      _ ≤ (y * 2 ^ 99) ^ 2 := Nat.pow_le_pow_left h 2
      _ = y ^ 2 * 2 ^ 99 * 2 ^ 99 := by ring

/-- A quotient that is rounded up. -/
theorem le_mul_div_of_up (x : ℕ) {b : ℕ} (hb : 0 < b) : x ≤ b * ((x + (b - 1)) / b) := by
  have hsplit := Nat.div_add_mod (x + (b - 1)) b
  have hrest := Nat.mod_lt (x + (b - 1)) hb
  omega

theorem le_squaredTimes {m y : ℕ} {b : ℕ × ℕ} (h : y * 2 ^ 99 ≤ b.1 * 2 ^ b.2) :
    y ^ 2 ^ m * 2 ^ 99 ≤ (squaredTimes true m b).1 * 2 ^ (squaredTimes true m b).2 := by
  induction m generalizing y b with
  | zero => rwa [pow_zero, pow_one]
  | succ m ih =>
    rw [pow_succ', pow_mul]
    refine ih ?_
    unfold squared
    dsimp only
    generalize (if b.1 * b.1 < 2 ^ 199 then 0 else 1) = s
    refine Nat.le_of_mul_le_mul_right ?_ (by positivity : 0 < 2 ^ 99)
    calc y ^ 2 * 2 ^ 99 * 2 ^ 99 = (y * 2 ^ 99) ^ 2 := by ring
      _ ≤ (b.1 * 2 ^ b.2) ^ 2 := Nat.pow_le_pow_left h 2
      _ = b.1 * b.1 * 2 ^ (2 * b.2) := by
          rw [two_mul b.2, pow_add]
          ring
      _ ≤ 2 ^ (99 + s) * ((b.1 * b.1 + (2 ^ (99 + s) - 1)) / 2 ^ (99 + s)) * 2 ^ (2 * b.2) :=
          Nat.mul_le_mul_right _ (le_mul_div_of_up _ (by positivity))
      _ = (b.1 * b.1 + (2 ^ (99 + s) - 1)) / 2 ^ (99 + s) * 2 ^ (2 * b.2 + s) * 2 ^ 99 := by
          rw [pow_add 2 (2 * b.2), pow_add 2 99 s]
          ring

/-- The binary logarithm of a number between the computed bounds, in units of `2⁻ᵐ`. -/
theorem logb_bounds {m n : ℕ} (hn : 0 < n) (hn99 : n.log2 ≤ 99) (hlow : 2 ^ 99 ≤ (bigPower false m n).1)
    (hhigh : (bigPower true m n).1 ≤ 2 ^ 100) :
    ((bigPower false m n).2 : ℝ) ≤ 2 ^ m * Real.logb 2 n ∧
      2 ^ m * Real.logb 2 n ≤ ((bigPower true m n).2 + 1 : ℕ) := by
  have hpow : (2 : ℝ) ^ m * Real.logb 2 n = Real.logb 2 ((n ^ 2 ^ m : ℕ) : ℝ) := by
    rw [Nat.cast_pow, Real.logb_pow, Nat.cast_pow, Nat.cast_ofNat]
  have hstart : n * 2 ^ (99 - n.log2) * 2 ^ n.log2 = n * 2 ^ 99 := by
    rw [mul_assoc, ← pow_add, Nat.sub_add_cancel hn99]
  have hbelow : (bigPower false m n).1 * 2 ^ (bigPower false m n).2 ≤ n ^ 2 ^ m * 2 ^ 99 :=
    squaredTimes_le hstart.le
  have habove : n ^ 2 ^ m * 2 ^ 99 ≤ (bigPower true m n).1 * 2 ^ (bigPower true m n).2 :=
    le_squaredTimes hstart.ge
  have htop : (0 : ℝ) < ((n ^ 2 ^ m : ℕ) : ℝ) := by
    rw [Nat.cast_pow]
    exact pow_pos (by exact_mod_cast hn) _
  rw [hpow, Real.le_logb_iff_rpow_le one_lt_two htop, Real.logb_le_iff_le_rpow one_lt_two htop,
    Real.rpow_natCast, Real.rpow_natCast]
  constructor
  · have hle : 2 ^ (bigPower false m n).2 ≤ n ^ 2 ^ m := by
      refine Nat.le_of_mul_le_mul_left (le_trans (Nat.mul_le_mul_right _ hlow) ?_) (by positivity : 0 < 2 ^ 99)
      rwa [mul_comm (2 ^ 99)]
    exact_mod_cast hle
  · have hle : n ^ 2 ^ m ≤ 2 ^ ((bigPower true m n).2 + 1) := by
      refine Nat.le_of_mul_le_mul_right (habove.trans ?_) (by positivity : 0 < 2 ^ 99)
      refine (Nat.mul_le_mul_right _ hhigh).trans (le_of_eq ?_)
      rw [pow_succ 2 (bigPower true m n).2]
      ring
    exact_mod_cast hle

/-! ## The gap -/

/-- The multiplier: four times the binary logarithm of five becomes nearly an integer by it. -/
def gapFactor : ℕ := 6198294414

def gapInteger : ℕ := 57567975761

theorem gapFactor_mul_logb_five :
    |4 * gapFactor * Real.logb 2 5 - gapInteger| ≤ 6 / 10 ^ 12 := by
  have hbounds := logb_bounds (m := 80) (n := 5) (by decide) (by decide +kernel) (by decide +kernel)
    (by decide +kernel)
  obtain ⟨a, b, hlow, hhigh, hcut, hcut'⟩ : ∃ a b : ℕ, (a : ℝ) ≤ 2 ^ 80 * Real.logb 2 (5 : ℕ) ∧
      2 ^ 80 * Real.logb 2 (5 : ℕ) ≤ b ∧ gapInteger * 2 ^ 80 ≤ 4 * gapFactor * a + 72 * 10 ^ 11 ∧
      4 * gapFactor * b ≤ gapInteger * 2 ^ 80 + 72 * 10 ^ 11 :=
    ⟨_, _, hbounds.1, hbounds.2, by decide +kernel, by decide +kernel⟩
  have hQ : (0 : ℝ) ≤ gapFactor := Nat.cast_nonneg _
  have hcutR : (gapInteger : ℝ) * 2 ^ 80 ≤ 4 * gapFactor * a + 72 * 10 ^ 11 := by exact_mod_cast hcut
  have hcutR' : 4 * (gapFactor : ℝ) * b ≤ gapInteger * 2 ^ 80 + 72 * 10 ^ 11 := by exact_mod_cast hcut'
  rw [Nat.cast_ofNat] at hlow hhigh
  have h1 := mul_le_mul_of_nonneg_left hlow hQ
  have h2 := mul_le_mul_of_nonneg_left hhigh hQ
  exact abs_le.2 ⟨by linarith, by linarith⟩

/-- The logarithms of the small multiples of nine are far from integers, after they are multiplied. -/
theorem gapFactor_mul_logb_nine {q : ℕ} (hq : 0 < q) (hq17 : q ≤ 17) : ∃ n : ℕ,
    n + 1 / 10 ≤ gapFactor * Real.logb 2 (9 * q : ℕ) ∧ gapFactor * Real.logb 2 (9 * q : ℕ) ≤ n + 9 / 10 := by
  have hcut : ∀ q < 18, 0 < q → (9 * q).log2 ≤ 99 ∧ 2 ^ 99 ≤ (bigPower false 48 (9 * q)).1 ∧
      (bigPower true 48 (9 * q)).1 ≤ 2 ^ 100 ∧
      gapFactor * (bigPower false 48 (9 * q)).2 / 2 ^ 48 * 2 ^ 48 * 10 + 2 ^ 48
        ≤ gapFactor * (bigPower false 48 (9 * q)).2 * 10 ∧
      gapFactor * ((bigPower true 48 (9 * q)).2 + 1) * 10
        ≤ gapFactor * (bigPower false 48 (9 * q)).2 / 2 ^ 48 * 2 ^ 48 * 10 + 9 * 2 ^ 48 := by
    decide +kernel
  obtain ⟨hlog, hfit, hfit', hcut, hcut'⟩ := hcut q (by omega) hq
  obtain ⟨hlow, hhigh⟩ := logb_bounds (m := 48) (n := 9 * q) (by omega) hlog hfit hfit'
  generalize gapFactor * (bigPower false 48 (9 * q)).2 / 2 ^ 48 = n at hcut hcut'
  generalize (bigPower false 48 (9 * q)).2 = a at hlow hcut
  generalize (bigPower true 48 (9 * q)).2 + 1 = b at hhigh hcut'
  refine ⟨n, ?_⟩
  have hQ : (0 : ℝ) ≤ gapFactor := Nat.cast_nonneg _
  have hcutR : (n : ℝ) * 2 ^ 48 * 10 + 2 ^ 48 ≤ gapFactor * a * 10 := by exact_mod_cast hcut
  have hcutR' : (gapFactor : ℝ) * b * 10 ≤ n * 2 ^ 48 * 10 + 9 * 2 ^ 48 := by exact_mod_cast hcut'
  have h1 := mul_le_mul_of_nonneg_left hlow hQ
  have h2 := mul_le_mul_of_nonneg_left hhigh hQ
  exact ⟨by linarith, by linarith⟩

/-- **No power of two is near** `9 q 5⁴ᵈ`: their binary logarithms are apart. -/
theorem power_gap {q d : ℕ} (hq : 0 < q) (hq17 : q ≤ 17) (hd : d ≤ 214748364) (m : ℤ) :
    1 / 10 ^ 11 < |m - (Real.logb 2 (9 * q : ℕ) + 4 * d * Real.logb 2 5)| := by
  obtain ⟨n, hn, hn'⟩ := gapFactor_mul_logb_nine hq hq17
  have hfive := abs_le.1 gapFactor_mul_logb_five
  have hQ : (gapFactor : ℝ) = 6198294414 := by norm_num [gapFactor]
  have hd0 : (0 : ℝ) ≤ d := Nat.cast_nonneg d
  have hd' : (d : ℝ) ≤ 214748364 := by exact_mod_cast hd
  by_contra hnear
  rw [not_lt, abs_le] at hnear
  generalize hx : (m : ℝ) - (Real.logb 2 (9 * q : ℕ) + 4 * d * Real.logb 2 5) = x at hnear
  -- the multiple of the difference is an integer less a fraction, up to what the logarithm of five is off
  have hfrac : (gapFactor : ℝ) * x = ((gapFactor * m - d * gapInteger - n : ℤ) : ℝ)
      - (gapFactor * Real.logb 2 (9 * q : ℕ) - n) - d * (4 * gapFactor * Real.logb 2 5 - gapInteger) := by
    rw [← hx]
    push_cast
    ring
  generalize (gapFactor * m - d * gapInteger - n : ℤ) = k at hfrac
  generalize gapFactor * Real.logb 2 (9 * q : ℕ) = v at hn hn' hfrac
  generalize 4 * gapFactor * Real.logb 2 5 - gapInteger = e at hfive hfrac
  have he := mul_le_mul_of_nonneg_left hfive.1 hd0
  have he' := mul_le_mul_of_nonneg_left hfive.2 hd0
  rw [hQ] at hfrac
  have hk : (0 : ℝ) < k := by linarith
  have hk' : (k : ℝ) < 1 := by linarith
  have hpos : 0 < k := by exact_mod_cast hk
  have hlt : k < 1 := by exact_mod_cast hk'
  omega

end CliffordT
