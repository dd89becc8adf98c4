/-
The grid problem on the line, scaled.

The first interval is multiplied by a power of `λ⁻¹` and the second by the conjugate of that power. Both
powers are computed with an error in proportion to the exponent. The embeddings of `x` are scaled by the
exact powers, and those are the embeddings of `x` times a unit. Which exponent is used does not matter
for the distances, only for the rounding errors.
-/
import CliffordT.Proofs.Grid.Line

namespace CliffordT

open BinFloat

namespace GridPoints

open ZSqrt2 (real)

/-! ## Powers with any exponent -/

section RealPow

variable {x : BinFloat} {p m : Nat} {v : ℝ} {k : ℤ}

theorem realPow_of_nonneg (hk : 0 ≤ k) : realPow x k = x.pow k.natAbs := by
  unfold realPow zpow?
  rw [if_neg (not_lt.2 hk)]
  rfl

theorem realPow_of_neg (hk : k < 0) : realPow x k = one x.prec / x.pow k.natAbs := by
  unfold realPow zpow?
  rw [if_pos hk]
  show _ = (div? _ _).getD (zero (max (one x.prec).prec (x.pow k.natAbs).prec))
  rw [prec_one, prec_pow, max_self]

/-- A power with an exponent that is not negative. -/
theorem realPow_within_of_nonneg (hp : p ≤ x.prec) (hx : Within (m * roundoff p) x.value v)
    (hk : 0 ≤ k) (hsmall : 16 * ((m + 2) * k.natAbs : Nat) * roundoff p ≤ 1) :
    Within (2 * ((m + 2) * k.natAbs : Nat) * roundoff p) (realPow x k).value (v ^ k) := by
  have habs : k = (k.natAbs : ℤ) := by omega
  have hpow := value_pow_within hp hx (n := k.natAbs) (by linarith)
  rwa [← zpow_natCast, ← habs, ← realPow_of_nonneg hk] at hpow

/-- A power with any exponent: for a negative one the error of the inverse comes on top. -/
theorem realPow_within (hp : p ≤ x.prec) (hv : v ≠ 0) (hx : Within (m * roundoff p) x.value v)
    (hsmall : 16 * ((m + 2) * k.natAbs : Nat) * roundoff p ≤ 1) :
    Within ((8 * ((m + 2) * k.natAbs : Nat) + 4) * roundoff p) (realPow x k).value (v ^ k) := by
  have hu := roundoff_pos p
  have hn : (0 : ℝ) ≤ ((m + 2) * k.natAbs : Nat) * roundoff p := by positivity
  rcases le_or_gt 0 k with hk | hk
  · exact (realPow_within_of_nonneg hp hx hk hsmall).mono (by linarith)
  have habs : k = -(k.natAbs : ℤ) := by omega
  have hpow := value_pow_within hp hx (n := k.natAbs) (by linarith)
  have hne : (x.pow k.natAbs).value ≠ 0 := by
    have hpos : 0 < |v ^ k.natAbs| := abs_pos.2 (pow_ne_zero _ hv)
    refine abs_pos.1 (lt_of_lt_of_le (mul_pos ?_ hpos) hpow.le_abs)
    linarith
  have hround := value_div_within (x := one x.prec) (y := x.pow k.natAbs) (p := p)
    (hp.trans (le_max_left _ _)) hne
  have hexact := (Within.refl le_rfl (1 : ℝ)).div (by linarith) (by linarith) (by norm_num) hpow
  rw [value_one] at hround
  rw [realPow_of_neg hk, habs, zpow_neg, zpow_natCast, ← one_div, Int.natAbs_neg, Int.natAbs_natCast]
  exact (hround.trans (by linarith) (by linarith) hexact).mono (by linarith)

end RealPow

/-! ## Scaling -/

section Scaling

variable {c : Constants} {a b : Interval} {x : ZSqrt2} {M P δ η e f : ℝ} {k : ℤ}

theorem lambdaReal_zpow_le (hP : lambdaReal ^ k.natAbs ≤ P) :
    lambdaReal ^ k ≤ P ∧ lambdaReal ^ (-k) ≤ P := by
  have hle {j : ℤ} (hj : j ≤ k.natAbs) : lambdaReal ^ j ≤ P := by
    refine le_trans (zpow_le_zpow_right₀ one_lt_lambdaReal.le hj) ?_
    rwa [zpow_natCast]
  exact ⟨hle (by omega), hle (by omega)⟩

theorem abs_inv_lambdaReal_zpow (k : ℤ) : |lambdaReal⁻¹ ^ k| = lambdaReal ^ (-k) := by
  rw [abs_of_pos (zpow_pos (inv_pos.2 lambdaReal_pos) k), inv_zpow, zpow_neg]

theorem abs_neg_lambdaReal_zpow (k : ℤ) : |(-lambdaReal) ^ k| = lambdaReal ^ k := by
  rw [abs_zpow, abs_neg, abs_of_pos lambdaReal_pos]

/-- What is required of a power `λᵏ` and of the errors that it is computed with, for a number near two
intervals to be found after they are scaled. -/
structure Scalable (c : Constants) (a b : Interval) (M δ η P : ℝ) (k : ℤ) (e f : ℝ) : Prop where
  pow_le : lambdaReal ^ k.natAbs ≤ P
  fst : Within e (realPow c.lambdaInv k).value (lambdaReal⁻¹ ^ k)
  snd : Within f (realPow (-c.lambda) k).value ((-lambdaReal) ^ k)
  fst_small : e + 2 * roundoff c.prec ≤ 1
  snd_small : f + 2 * roundoff c.prec ≤ 1
  small : 256 * roundoff c.prec * (M * P) ≤ c.tol.value
  fst_le : (δ + (e + 2 * roundoff c.prec) * M) * lambdaReal ^ (-k) ≤ c.tol.value / 2
  snd_le : (η + (f + 2 * roundoff c.prec) * M) * lambdaReal ^ k ≤ c.tol.value / 2
  fst_slack : Interval.Slack
    ((δ + (e + 2 * roundoff c.prec) * M) * lambdaReal ^ (-k) + 20 * roundoff c.prec * (M * P))
    ((a.realWidth + 2 * ((e + 2 * roundoff c.prec) * M)) * lambdaReal ^ (-k)) c.tol.value
  snd_slack : Interval.Slack
    ((η + (f + 2 * roundoff c.prec) * M) * lambdaReal ^ k + 20 * roundoff c.prec * (M * P))
    ((b.realWidth + 2 * ((f + 2 * roundoff c.prec) * M)) * lambdaReal ^ k) c.tol.value

/-- **The scaled problem** has `x` times a unit among its solutions. -/
theorem Scalable.mem_onLine (h : Scalable c a b M δ η P k e f) (hc : c.AccurateScale)
    (ha : a.Near c.prec M δ (real x)) (hb : b.Near c.prec M η (real x.dot)) (hM : 1 ≤ M)
    (hδ : δ ≤ M) (hη : η ≤ M) :
    x * ZSqrt2.lambdaPow (-k)
      ∈ onLine (a.mul (realPow c.lambdaInv k)) (b.mul (realPow (-c.lambda) k)) c := by
  obtain ⟨hk, hk'⟩ := lambdaReal_zpow_le h.pow_le
  have hP : 1 ≤ P := (one_le_pow₀ one_lt_lambdaReal.le).trans h.pow_le
  have hMP : 1 ≤ M * P := one_le_mul_of_one_le_of_one_le hM hP
  have hsize {y s : ℝ} (hy : |y| ≤ 2 * M) (hs : |s| ≤ P) : |y * s| ≤ 2 * (M * P) := by
    rw [abs_mul]
    have := mul_le_mul hy hs (abs_nonneg s) (by linarith)
    linarith
  have hreal : real (x * ZSqrt2.lambdaPow (-k)) = real x * lambdaReal⁻¹ ^ k := by
    rw [map_mul, ZSqrt2.real_lambdaPow, zpow_neg, inv_zpow]
  have hreal' : real (x * ZSqrt2.lambdaPow (-k)).dot = real x.dot * (-lambdaReal) ^ k := by
    rw [ZSqrt2.dot_mul, map_mul, ZSqrt2.real_dot_lambdaPow_neg]
  have hfst := ha.mul h.fst_small h.fst
  have hsnd := hb.mul h.snd_small h.snd
  have hwidth := ha.realWidth_mul_le (by linarith [h.fst_small, roundoff_pos c.prec]) h.fst
  have hwidth' := hb.realWidth_mul_le (by linarith [h.snd_small, roundoff_pos c.prec]) h.snd
  have hnear : NearBoth c (a.mul (realPow c.lambdaInv k)) (b.mul (realPow (-c.lambda) k))
      (2 * (M * P)) ((δ + (e + 2 * roundoff c.prec) * M) * lambdaReal ^ (-k))
      ((η + (f + 2 * roundoff c.prec) * M) * lambdaReal ^ k) (x * ZSqrt2.lambdaPow (-k)) := by
    rw [abs_inv_lambdaReal_zpow] at hfst
    rw [abs_neg_lambdaReal_zpow] at hsnd
    refine ⟨hreal ▸ hfst.mono ?_ le_rfl, hreal' ▸ hsnd.mono ?_ le_rfl, ?_, ?_⟩
    · rw [mul_assoc]
      exact mul_le_mul_of_nonneg_left (mul_le_mul_of_nonneg_left hk' (by linarith)) (by norm_num)
    · rw [mul_assoc]
      exact mul_le_mul_of_nonneg_left (mul_le_mul_of_nonneg_left hk (by linarith)) (by norm_num)
    · rw [hreal]
      exact hsize (ha.abs_le_add.trans (by linarith)) ((abs_inv_lambdaReal_zpow k).trans_le hk')
    · rw [hreal']
      exact hsize (hb.abs_le_add.trans (by linarith)) ((abs_neg_lambdaReal_zpow k).trans_le hk)
  rw [abs_inv_lambdaReal_zpow] at hwidth
  rw [abs_neg_lambdaReal_zpow] at hwidth'
  refine hnear.mem_onLine hc (by linarith) (by linarith [h.small]) h.fst_le h.snd_le
    (hnear.isOnLine hc ?_ ?_)
  · exact h.fst_slack.mono (by linarith) hwidth hfst.realWidth_nonneg
  · exact h.snd_slack.mono (by linarith) hwidth' hsnd.realWidth_nonneg

theorem mul_lambdaPow_neg (x : ZSqrt2) (k : ℤ) :
    x * ZSqrt2.lambdaPow (-k) * ZSqrt2.lambdaPow k = x := by
  rw [mul_assoc, ZSqrt2.lambdaPow_neg_mul, mul_one]

theorem isOnLine_of_mem_onLine (h : x ∈ onLine a b c) : isOnLine a b c x = true := by
  obtain ⟨y, -, hy⟩ := List.mem_flatMap.1 h
  exact (List.mem_filter.1 hy).2

/-- The test is made after scaling: what it accepts is `x` times a unit, in the scaled intervals. -/
theorem isOnLine_of_mem_onLineScaledBy {exponent : BinFloat → Int} (hpos : 0 < a.width.value)
    (h : x ∈ onLineScaledBy exponent a b c) :
    isOnLine (a.mul (realPow c.lambdaInv (exponent a.width))) (b.mul (realPow (-c.lambda) (exponent a.width))) c
      (x * ZSqrt2.lambdaPow (-exponent a.width)) = true := by
  unfold onLineScaledBy at h
  rw [if_pos (isPositive_iff.2 hpos)] at h
  obtain ⟨y, hy, rfl⟩ := List.mem_map.1 h
  have hback := mul_lambdaPow_neg y (-exponent a.width)
  rw [neg_neg] at hback
  rw [hback]
  exact isOnLine_of_mem_onLine hy

/-- **Scaling loses nothing**, for a first interval that is not a point. -/
theorem Scalable.mem_onLineScaledBy {exponent : BinFloat → Int}
    (h : Scalable c a b M δ η P (exponent a.width) e f) (hc : c.AccurateScale)
    (hpos : 0 < a.width.value) (ha : a.Near c.prec M δ (real x))
    (hb : b.Near c.prec M η (real x.dot)) (hM : 1 ≤ M) (hδ : δ ≤ M) (hη : η ≤ M) :
    x ∈ onLineScaledBy exponent a b c := by
  unfold onLineScaledBy
  rw [if_pos (isPositive_iff.2 hpos)]
  exact List.mem_map.2 ⟨_, h.mem_onLine hc ha hb hM hδ hη, mul_lambdaPow_neg x _⟩

/-- The balanced search is the scaled one, for the problem or for its conjugate. -/
theorem mem_onLineBalancedBy {exponent : BinFloat → Int}
    (hab : b.width ≤ a.width → x ∈ onLineScaledBy exponent a b c)
    (hba : ¬ b.width ≤ a.width → x.dot ∈ onLineScaledBy exponent b a c) :
    x ∈ onLineBalancedBy exponent a b c := by
  unfold onLineBalancedBy
  split
  · rename_i h
    exact hab h
  · rename_i h
    exact List.mem_map.2 ⟨x.dot, hba h, ZSqrt2.dot_dot x⟩

end Scaling

/-! ## No repetitions -/

section Nodup

variable (exponent : BinFloat → Int) (a b : Interval) (c : Constants)

theorem nodup_integersBetween (lo hi : ℤ) : (integersBetween lo hi).Nodup := by
  refine List.nodup_range.map fun i j h => ?_
  omega

/-- Points with different multiples of the root differ, and so do points with one and different integer
parts. -/
theorem nodup_onLine : (onLine a b c).Nodup := by
  refine List.nodup_flatMap.2 ⟨fun y _ => ?_, ?_⟩
  · refine List.Nodup.filter _ ((nodup_integersBetween _ _).map fun x x' h => ?_)
    exact congrArg ZSqrt2.a h
  · refine (nodup_integersBetween _ _).imp fun {y y'} hne x hx hx' => hne ?_
    obtain ⟨⟨n, -, rfl⟩, -⟩ := (List.mem_filter.1 hx).imp_left List.mem_map.1
    obtain ⟨⟨n', -, heq⟩, -⟩ := (List.mem_filter.1 hx').imp_left List.mem_map.1
    exact (congrArg ZSqrt2.b heq).symm

theorem nodup_onLineScaledBy : (onLineScaledBy exponent a b c).Nodup := by
  unfold onLineScaledBy
  split
  · refine (nodup_onLine _ _ c).map fun x x' h => ?_
    have h' : x * ZSqrt2.lambdaPow (exponent a.width) = x' * ZSqrt2.lambdaPow (exponent a.width) := h
    rw [← mul_lambdaPow_neg x (-exponent a.width), ← mul_lambdaPow_neg x' (-exponent a.width), neg_neg,
      h']
  · exact nodup_onLine a b c

theorem nodup_onLineBalancedBy : (onLineBalancedBy exponent a b c).Nodup := by
  unfold onLineBalancedBy
  split
  · exact nodup_onLineScaledBy exponent a b c
  · refine (nodup_onLineScaledBy exponent b a c).map fun x x' h => ?_
    rw [← ZSqrt2.dot_dot x, ← ZSqrt2.dot_dot x', h]

end Nodup

end GridPoints

end CliffordT
