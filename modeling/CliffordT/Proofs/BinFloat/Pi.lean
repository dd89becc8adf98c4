/-
How near the computed π is to π.

In fixed point each power of `1/x` is cut off, and so is each term of the series; but a quotient that is cut off
and divided on is the exact one cut off once, so that the computed term `fixedTerm x bits k` is the exact one less
a part below one unit. The terms alternate in sign, and with them what is cut off: of `n` terms at most half, and
one more, can add up in one direction. The series itself is alternating and its terms fall, so that what the
terms from the first zero on would have contributed is at most the first of them, below one unit as well.
That is half the number of terms and two units altogether; the 32 bits beyond the precision take it up.
-/
import Mathlib.Analysis.Real.Pi.Bounds
import Mathlib.Analysis.Real.Pi.Leibniz
import Mathlib.Analysis.SpecialFunctions.Complex.Arctan
import Mathlib.Analysis.SpecialFunctions.Trigonometric.Arctan
import Mathlib.Analysis.SpecificLimits.Normed
import CliffordT.BinFloat.Elementary
import CliffordT.Proofs.BinFloat.Rounding
import CliffordT.Proofs.Loop

namespace CliffordT.BinFloat

open Finset (range)

/-! ## The series of the arctangent -/

/-- The term of index `2k + 1` of the series of `atan y`, without its sign. -/
noncomputable def arctanTerm (y : ℝ) (k : Nat) : ℝ := y ^ (2 * k + 1) / (2 * k + 1 : Nat)

section Series

variable {y : ℝ}

theorem arctanTerm_nonneg (hy : 0 ≤ y) (k : Nat) : 0 ≤ arctanTerm y k := by
  unfold arctanTerm
  positivity

theorem arctanTerm_antitone (hy : 0 ≤ y) (hy1 : y ≤ 1) : Antitone (arctanTerm y) := by
  refine antitone_nat_of_succ_le fun k => ?_
  refine div_le_div₀ (by positivity) ?_ (by positivity) (by exact_mod_cast by omega)
  exact pow_le_pow_of_le_one hy hy1 (by omega)

/-- The series converges to the arctangent, at one as well. -/
theorem tendsto_arctanSum (hy : 0 ≤ y) (hy1 : y ≤ 1) :
    Filter.Tendsto (fun n => ∑ i ∈ range n, (-1) ^ i * arctanTerm y i) Filter.atTop
      (nhds (Real.arctan y)) := by
  rcases hy1.lt_or_eq with hlt | rfl
  · have hsum := (Real.hasSum_arctan (x := y) (by rwa [Real.norm_of_nonneg hy])).tendsto_sum_nat
    simpa only [arctanTerm, mul_div_assoc] using hsum
  · have hsum := Real.tendsto_sum_pi_div_four
    rw [← Real.arctan_one] at hsum
    refine hsum.congr fun n => Finset.sum_congr rfl fun i _ => ?_
    unfold arctanTerm
    rw [one_pow, mul_one_div]
    push_cast
    rfl

/-- What a partial sum leaves is at most the next term. -/
theorem abs_arctanSum_sub_le (hy : 0 ≤ y) (hy1 : y ≤ 1) (n : Nat) :
    |∑ i ∈ range n, (-1) ^ i * arctanTerm y i - Real.arctan y| ≤ arctanTerm y n := by
  have hlow := (arctanTerm_antitone hy hy1).alternating_series_le_tendsto (tendsto_arctanSum hy hy1)
  have hhigh := (arctanTerm_antitone hy hy1).tendsto_le_alternating_series (tendsto_arctanSum hy hy1)
  obtain ⟨k, rfl | rfl⟩ := Nat.even_or_odd' n
  · have hupper := hhigh k
    rw [Finset.sum_range_succ, pow_mul, neg_one_sq, one_pow, one_mul] at hupper
    refine abs_le.2 ⟨?_, ?_⟩
    · linarith
    · linarith [hlow k]
  · have hlower := hlow (k + 1)
    have hsplit : 2 * (k + 1) = 2 * k + 1 + 1 := by ring
    rw [hsplit, Finset.sum_range_succ, pow_succ, pow_mul, neg_one_sq, one_pow, one_mul, neg_one_mul] at hlower
    refine abs_le.2 ⟨?_, ?_⟩
    · linarith [hhigh k]
    · linarith

/-- Of numbers between zero and one, added with alternating signs, half can add up, and one more if the first is
added. -/
theorem alternating_sum_bounds {d : Nat → ℝ} (hd : ∀ k, 0 ≤ d k ∧ d k ≤ 1) (n : Nat) :
    -(n / 2) ≤ ∑ k ∈ range n, (-1) ^ k * d k ∧ ∑ k ∈ range n, (-1) ^ k * d k ≤ (n + 1) / 2 := by
  induction n generalizing d with
  | zero => simp
  | succ n ih =>
    obtain ⟨hlow, hhigh⟩ := ih fun k => hd (k + 1)
    have hfirst : ∑ k ∈ range (n + 1), (-1) ^ k * d k = d 0 - ∑ k ∈ range n, (-1) ^ k * d (k + 1) := by
      rw [Finset.sum_range_succ', pow_zero, one_mul, add_comm, sub_eq_add_neg, ← Finset.sum_neg_distrib]
      congr 1
      refine Finset.sum_congr rfl fun k _ => ?_
      ring
    rw [hfirst]
    push_cast
    constructor
    · linarith [(hd 0).1]
    · linarith [(hd 0).2]

end Series

/-! ## The series in fixed point -/

def fixedTerm (x bits k : Nat) : Nat := 2 ^ bits / x ^ (2 * k + 1) / (2 * k + 1)

def fixedSum (x bits n : Nat) : Int := ∑ k ∈ range n, (-1) ^ k * (fixedTerm x bits k : Int)

theorem fixedSum_succ (x bits n : Nat) :
    fixedSum x bits (n + 1) = fixedSum x bits n + (-1) ^ n * (fixedTerm x bits n : Int) :=
  Finset.sum_range_succ _ _

/-- One round of the series: the next power and its term, which is subtracted or added; or leaves with the sum at
the first term that is zero. -/
def arctanStep (x2 : Nat) : Nat × Nat × Bool × Int → (Nat × Nat × Bool × Int) ⊕ Int
  | (power, n, subtract, sum) =>
    let next := power / x2
    let term := next / (n + 2)
    if term = 0 then .inr sum
    else .inl (next, n + 2, !subtract, if subtract then sum - term else sum + term)

section FixedPoint

variable {x bits : Nat}

/-- The loop ends from every state. -/
theorem arctanStep_ends (x2 power n : Nat) (subtract : Bool) (sum : Int) :
    LoopEnds (arctanStep x2) (power, n, subtract, sum) (arctanTail x2 power n subtract sum) := by
  fun_induction arctanTail x2 power n subtract sum with
  | case1 =>
    rename_i h
    exact .done (if_pos h)
  | case2 =>
    rename_i h ih
    exact .next (if_neg h) ih

/-- A power that is cut off and divided on is the next power cut off. -/
theorem fixedPower_succ (x bits k : Nat) :
    2 ^ bits / x ^ (2 * k + 1) / (x * x) = 2 ^ bits / x ^ (2 * (k + 1) + 1) := by
  rw [Nat.div_div_eq_div_mul]
  congr 1
  ring

theorem fixedTerm_succ {power n k : Nat} (hpower : power = 2 ^ bits / x ^ (2 * k + 1)) (hn : n = 2 * k + 1) :
    power / (x * x) / (n + 2) = fixedTerm x bits (k + 1) := by
  rw [hpower, fixedPower_succ, hn]
  rfl

/-- From the sum of the first `k + 1` terms the loop goes on to the first term that is zero. -/
theorem arctanTail_eq {power n k : Nat} {subtract : Bool} {sum : Int}
    (hpower : power = 2 ^ bits / x ^ (2 * k + 1)) (hn : n = 2 * k + 1)
    (hsign : (if subtract then -1 else 1) = (-1 : Int) ^ (k + 1)) (hsum : sum = fixedSum x bits (k + 1)) :
    ∃ m, k < m ∧ fixedTerm x bits m = 0 ∧ (∀ j, k < j → j < m → fixedTerm x bits j ≠ 0) ∧
      arctanTail (x * x) power n subtract sum = fixedSum x bits m := by
  -- along the loop, with `k + 1` for the number of terms that are in the sum
  fun_induction arctanTail (x * x) power n subtract sum generalizing k with
  | case1 power n subtract sum next term =>
    rename_i hzero
    exact ⟨k + 1, k.lt_succ_self, (fixedTerm_succ hpower hn).symm.trans hzero, by omega, hsum⟩
  | case2 power n subtract sum next term =>
    rename_i hgoes ih
    have hterm : term = fixedTerm x bits (k + 1) := fixedTerm_succ hpower hn
    have hnext : next = 2 ^ bits / x ^ (2 * (k + 1) + 1) := by rw [← fixedPower_succ, ← hpower]
    have hsign' : (if !subtract then -1 else 1) = (-1 : Int) ^ (k + 1 + 1) := by
      rw [pow_succ, ← hsign]
      cases subtract <;> rfl
    have hsum' : (if subtract then sum - term else sum + term) = fixedSum x bits (k + 1 + 1) := by
      rw [fixedSum_succ, ← hsum, ← hsign, ← hterm]
      cases subtract <;> simp [sub_eq_add_neg]
    obtain ⟨m, hkm, hzero, hm, heq⟩ := ih (k := k + 1) hnext (by omega) hsign' (by simpa using hsum')
    refine ⟨m, by omega, hzero, fun j hj hjm => ?_, heq⟩
    rcases Nat.eq_or_lt_of_le hj with rfl | hlt
    · exact fun h0 => hgoes (hterm.trans h0)
    · exact hm j hlt hjm

/-- The computed term is the exact one cut off. -/
theorem fixedTerm_eq_floor (x bits k : Nat) :
    fixedTerm x bits k = ⌊2 ^ bits * arctanTerm (x : ℝ)⁻¹ k⌋₊ := by
  have hquotient : 2 ^ bits * arctanTerm (x : ℝ)⁻¹ k
      = (2 ^ bits : Nat) / (x ^ (2 * k + 1) * (2 * k + 1) : Nat) := by
    unfold arctanTerm
    rw [inv_pow, ← one_div, div_div, mul_one_div]
    push_cast
    rfl
  rw [hquotient, Nat.floor_div_eq_div, ← Nat.div_div_eq_div_mul]
  rfl

theorem fixedTerm_bounds (x bits k : Nat) :
    0 ≤ 2 ^ bits * arctanTerm (x : ℝ)⁻¹ k - fixedTerm x bits k ∧
      2 ^ bits * arctanTerm (x : ℝ)⁻¹ k - fixedTerm x bits k ≤ 1 := by
  have hterm : 0 ≤ 2 ^ bits * arctanTerm (x : ℝ)⁻¹ k :=
    mul_nonneg (by positivity) (arctanTerm_nonneg (by positivity) k)
  rw [fixedTerm_eq_floor]
  constructor
  · linarith [Nat.floor_le hterm]
  · linarith [Nat.lt_floor_add_one (2 ^ bits * arctanTerm (x : ℝ)⁻¹ k)]

/-- The terms before the first zero, which are added up, against the whole series. -/
theorem abs_fixedSum_sub_le (hx : 1 ≤ x) {n : Nat} (hzero : fixedTerm x bits n = 0) :
    |(fixedSum x bits n : ℝ) - 2 ^ bits * Real.arctan (x : ℝ)⁻¹| ≤ (n : ℝ) / 2 + 2 := by
  have hy1 : (x : ℝ)⁻¹ ≤ 1 := inv_le_one_of_one_le₀ (by exact_mod_cast hx)
  have hlost : 2 ^ bits * ∑ k ∈ range n, (-1) ^ k * arctanTerm (x : ℝ)⁻¹ k - fixedSum x bits n
      = ∑ k ∈ range n, (-1) ^ k * (2 ^ bits * arctanTerm (x : ℝ)⁻¹ k - fixedTerm x bits k) := by
    unfold fixedSum
    push_cast
    rw [Finset.mul_sum, ← Finset.sum_sub_distrib]
    exact Finset.sum_congr rfl fun k _ => by ring
  obtain ⟨hlow, hhigh⟩ := alternating_sum_bounds (fixedTerm_bounds x bits) n
  rw [← hlost] at hlow hhigh
  have hrest := mul_le_mul_of_nonneg_left (abs_arctanSum_sub_le (by positivity) hy1 n)
    (by positivity : (0 : ℝ) ≤ 2 ^ bits)
  have hnext := (fixedTerm_bounds x bits n).2
  rw [hzero, Nat.cast_zero, sub_zero] at hnext
  rw [← abs_of_pos (by positivity : (0 : ℝ) < 2 ^ bits), ← abs_mul,
    abs_of_pos (by positivity : (0 : ℝ) < 2 ^ bits), mul_sub] at hrest
  obtain ⟨hlow', hhigh'⟩ := abs_le.1 (hrest.trans hnext)
  rw [abs_le]
  constructor
  · linarith
  · linarith

/-- The number of terms that are added up for the arctangent of `1 / x`: the loop takes the first as it is, and
leaves at the first zero after it. -/
def IsTermCount (x bits n : Nat) : Prop :=
  1 ≤ n ∧ fixedTerm x bits n = 0 ∧ ∀ k, 1 ≤ k → k < n → fixedTerm x bits k ≠ 0

theorem arctanInv_eq (x bits : Nat) :
    arctanInv x bits = arctanTail (x * x) (2 ^ bits / x) 1 true (2 ^ bits / x : Nat) := by
  unfold arctanInv
  rw [Nat.shiftLeft_eq, one_mul]

/-- The arctangent of a unit fraction in fixed point. -/
theorem arctanInv_spec (hx : 1 ≤ x) (bits : Nat) :
    ∃ n, IsTermCount x bits n ∧ arctanInv x bits = fixedSum x bits n ∧
      |(arctanInv x bits : ℝ) - 2 ^ bits * Real.arctan (x : ℝ)⁻¹| ≤ (n : ℝ) / 2 + 2 := by
  have hfirst : ((2 ^ bits / x : Nat) : Int) = fixedSum x bits (0 + 1) := by
    rw [fixedSum_succ]
    simp [fixedSum, fixedTerm]
  have hpower : 2 ^ bits / x = 2 ^ bits / x ^ (2 * 0 + 1) := by simp
  have hsign : (if true then -1 else 1) = (-1 : Int) ^ (0 + 1) := rfl
  obtain ⟨n, hn, hzero, hgoes, heq⟩ := arctanTail_eq hpower rfl hsign hfirst
  rw [← arctanInv_eq] at heq
  refine ⟨n, ⟨hn, hzero, hgoes⟩, heq, ?_⟩
  rw [heq]
  exact abs_fixedSum_sub_le hx hzero

/-- There are a quarter as many terms as bits: from one to the next the powers lose four bits. -/
theorem IsTermCount.le (hx : 4 ≤ x) {n : Nat} (hn : IsTermCount x bits n) : 4 * n ≤ bits + 4 := by
  obtain ⟨hpos, -, hgoes⟩ := hn
  rcases Nat.eq_or_lt_of_le hpos with rfl | hlt
  · omega
  have hpower : x ^ (2 * (n - 1) + 1) ≤ 2 ^ bits := by
    refine Nat.le_of_not_lt fun hlt' => hgoes (n - 1) (by omega) (by omega) ?_
    unfold fixedTerm
    rw [Nat.div_eq_of_lt hlt', Nat.zero_div]
  have hbits : 2 ^ (2 * (2 * (n - 1) + 1)) ≤ 2 ^ bits := by
    rw [pow_mul]
    exact (Nat.pow_le_pow_left hx _).trans hpower
  have := (Nat.pow_le_pow_iff_right (by omega)).1 hbits
  omega

end FixedPoint

/-! ## π -/

theorem prec_pi (p : Nat) : (pi p).prec = p := prec_ofScaled _ _ _

/-- The formula `π / 4 = 4 atan (1/5) - atan (1/239)` in fixed point, in units of the last place. -/
theorem abs_machin_sub_le (p : Nat) :
    |(arctanInv 5 (p + 32) : ℝ) * 16 - arctanInv 239 (p + 32) * 4 - 2 ^ (p + 32) * Real.pi| ≤ 3 * p + 130 := by
  obtain ⟨n, hn, -, h5⟩ := arctanInv_spec (x := 5) (by norm_num) (p + 32)
  obtain ⟨m, hm, -, h239⟩ := arctanInv_spec (x := 239) (by norm_num) (p + 32)
  have hnp : 4 * (n : ℝ) ≤ p + 32 + 4 := by exact_mod_cast hn.le (by norm_num)
  have hmp : 4 * (m : ℝ) ≤ p + 32 + 4 := by exact_mod_cast hm.le (by norm_num)
  have hpi : (2 : ℝ) ^ (p + 32) * Real.pi = 2 ^ (p + 32) * Real.arctan 5⁻¹ * 16
      - 2 ^ (p + 32) * Real.arctan 239⁻¹ * 4 := by
    linear_combination (-4 * 2 ^ (p + 32)) * Real.four_mul_arctan_inv_5_sub_arctan_inv_239
  push_cast at h5 h239
  rw [abs_le] at h5 h239 ⊢
  rw [hpi]
  constructor
  · linarith [h5.1, h239.2]
  · linarith [h5.2, h239.1]

def machinSum (p : Nat) : Int := arctanInv 5 (p + 32) * 16 - arctanInv 239 (p + 32) * 4

theorem pi_eq (p : Nat) : pi p = ofScaled (machinSum p) (-(p + 32 : Nat)) p := rfl

/-- Before it is rounded, the sum is nearer to π than the rounding will leave it. -/
theorem abs_scaledMachin_sub_le (p : Nat) :
    |(machinSum p : ℝ) * 2 ^ (-(p + 32 : Nat) : ℤ) - Real.pi| ≤ (3 * p + 130) / 2 ^ 32 * roundoff p := by
  have hsum := abs_machin_sub_le p
  have hscale : (2 : ℝ) ^ (-(p + 32 : Nat) : ℤ) = roundoff (p + 32) := rfl
  have hunit := roundoff_add_eq_div p 32
  have hsplit : (machinSum p : ℝ) * roundoff (p + 32) - Real.pi
      = ((arctanInv 5 (p + 32) : ℝ) * 16 - arctanInv 239 (p + 32) * 4 - 2 ^ (p + 32) * Real.pi)
        * roundoff (p + 32) := by
    unfold machinSum
    push_cast
    linear_combination Real.pi * roundoff_mul_two_pow (p + 32)
  rw [hscale, hsplit, abs_mul, abs_of_pos (roundoff_pos _), hunit]
  calc |(arctanInv 5 (p + 32) : ℝ) * 16 - arctanInv 239 (p + 32) * 4 - 2 ^ (p + 32) * Real.pi|
        * (roundoff p / 2 ^ 32)
      ≤ (3 * p + 130) * (roundoff p / 2 ^ 32) := mul_le_mul_of_nonneg_right hsum
        (div_nonneg (roundoff_pos p).le (by norm_num))
    _ = (3 * p + 130) / 2 ^ 32 * roundoff p := by ring

/-- It is near enough to π to stay well below four. -/
theorem abs_scaledMachin_le (p : Nat) : |(machinSum p : ℝ) * 2 ^ (-(p + 32 : Nat) : ℤ)| ≤ 3.65 := by
  have hsmall : (3 * p + 130) / 2 ^ 32 * roundoff p ≤ 1 / 2 := by
    have hp := mul_roundoff_le_one p
    have hle := roundoff_le_one p
    rw [div_mul_eq_mul_div, div_le_iff₀ (by positivity)]
    nlinarith
  have habs := abs_le.1 ((abs_scaledMachin_sub_le p).trans hsmall)
  have hpi := Real.pi_lt_d2
  have hpos := Real.pi_gt_three
  rw [abs_of_nonneg (by linarith [habs.1])]
  linarith [habs.2]

/-- The computed π. -/
theorem abs_pi_sub_le (p : Nat) :
    |(pi p).value - Real.pi| ≤ (3.65 + (3 * p + 130) / 2 ^ 32) * roundoff p := by
  have hround := (ofScaled_within (machinSum p) (-(p + 32 : Nat)) p).sub_le.trans
    (mul_le_mul_of_nonneg_left (abs_scaledMachin_le p) (roundoff_pos p).le)
  rw [pi_eq]
  refine (abs_sub_le_add hround (abs_scaledMachin_sub_le p) rfl).trans (le_of_eq ?_)
  ring

/-- **The computed π** is off by at most four units behind its last place, for every precision up to `2 ^ 26`. The
loops that it is summed by end, and what they lose is at most half a unit for each term and two units more. -/
theorem pi_and_arctangents_accurate {p : Nat} (hp : p ≤ 2 ^ 26) :
    |(pi p).value - Real.pi| ≤ 2 ^ (2 - (p : ℤ)) ∧
      ∀ x bits, 1 ≤ x →
        LoopEnds (arctanStep (x * x)) (2 ^ bits / x, 1, true, (2 ^ bits / x : Nat)) (arctanInv x bits) ∧
        ∃ n, IsTermCount x bits n ∧ arctanInv x bits = fixedSum x bits n ∧
          |(arctanInv x bits : ℝ) - 2 ^ bits * Real.arctan (x : ℝ)⁻¹| ≤ (n : ℝ) / 2 + 2 := by
  constructor
  · have hp' : (p : ℝ) ≤ 2 ^ 26 := by exact_mod_cast hp
    have hcoefficient : 3.65 + (3 * (p : ℝ) + 130) / 2 ^ 32 ≤ 4 := by linarith
    calc |(pi p).value - Real.pi| ≤ (3.65 + (3 * p + 130) / 2 ^ 32) * roundoff p := abs_pi_sub_le p
      _ ≤ 4 * roundoff p := mul_le_mul_of_nonneg_right hcoefficient (roundoff_pos p).le
      _ = 2 ^ (2 - (p : ℤ)) := by
        rw [sub_eq_add_neg, two_zpow_add]
        norm_num [roundoff]
  · intro x bits hx
    refine ⟨?_, arctanInv_spec hx bits⟩
    rw [arctanInv_eq]
    exact arctanStep_ends _ _ _ _ _

/-- At the largest precision, and for the arctangent of a fifth with its 32 bits beyond. -/
theorem pi_and_arctangents_accurate_largest :
    (2 ^ 26 : Nat) ≤ 2 ^ 26 ∧ |(pi (2 ^ 26)).value - Real.pi| ≤ 2 ^ (2 - ((2 ^ 26 : Nat) : ℤ)) ∧
      1 ≤ 5 ∧ ∃ n, IsTermCount 5 (2 ^ 26 + 32) n ∧ arctanInv 5 (2 ^ 26 + 32) = fixedSum 5 (2 ^ 26 + 32) n ∧
        |(arctanInv 5 (2 ^ 26 + 32) : ℝ) - 2 ^ (2 ^ 26 + 32) * Real.arctan ((5 : Nat) : ℝ)⁻¹|
          ≤ (n : ℝ) / 2 + 2 := by
  obtain ⟨hpi, harctan⟩ := pi_and_arctangents_accurate (p := 2 ^ 26) le_rfl
  exact ⟨le_rfl, hpi, by decide, (harctan 5 (2 ^ 26 + 32) (by decide)).2⟩

end CliffordT.BinFloat
