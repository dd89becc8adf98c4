/-
The two shears, and the amounts they shear by.

A shear leaves the first diagonal entry alone, so that it moves the entry off the diagonal by `t / X` times
the size, with `t = 2n` or `t = √2 n`. For the integer part `m` of the smaller exponent both `X` and `Y` are
between `λᵐ` and `λᵐ⁺²`, and `n = ⌊λᵐ / 2⌋`, but at least one: that bounds `t / X` on both sides, whatever
`m` is. The amount is computed with the power of the rounded `λ`, which is so near the exact one that the
first three amounts come out exactly.
-/
import CliffordT.Proofs.BinFloat.Compare
import CliffordT.Proofs.Grid.SkewStep

namespace CliffordT

open BinFloat Form

namespace GridOperator

variable {F G : Form} {n : ℤ}

/-! ## What a shear does -/

/-- An upper triangular matrix with ones on the diagonal is tame, as long as it moves by at most twice the
size. -/
theorem tame_of_shear {R : Matrix (Fin 2) (Fin 2) ℝ} {s x : ℝ} (h00 : R 0 0 = 1) (h01 : R 0 1 = s)
    (h10 : R 1 0 = 0) (h11 : R 1 1 = 1) (hx : |s| / F.ratio = x) (hx2 : x ≤ 2) : F.Tame 5 R := by
  refine ⟨?_, ?_, ?_⟩
  · rw [Matrix.det_fin_two, h00, h01, h10, h11]
    norm_num
  · rw [h00, h01, h10, h11]
    norm_num
  · rw [h00, h01, h10, h11, one_mul, mul_zero, abs_one, abs_zero, one_mul, mul_div_assoc, hx]
    linarith

theorem pull_shear_b {R : Matrix (Fin 2) (Fin 2) ℝ} {s : ℝ} (h00 : R 0 0 = 1) (h01 : R 0 1 = s)
    (h10 : R 1 0 = 0) (h11 : R 1 1 = 1) : (F.pull R).b = F.b + s * F.p := by
  simp only [Form.pull, h00, h01, h10, h11]
  ring

theorem column_of_shear {R : Matrix (Fin 2) (Fin 2) ℝ} (X : ℝ) (h00 : R 0 0 = 1) (h10 : R 1 0 = 0) :
    1 / 32 ≤ R 0 0 ^ 2 + (X * R 1 0) ^ 2 ∧ R 0 0 ^ 2 + (X * R 1 0) ^ 2 ≤ 32 := by
  rw [h00, h10]
  norm_num

/-- **The shear by `-2n`**, for two entries off the diagonal that are not negative. -/
theorem shear_reduces (h : Skewed F G) (hb : -slightness ≤ F.b) (hβ : -slightness ≤ G.b)
    (hn : 0 ≤ n) (hxy : Moderate (88 / 100) (2 * n / F.ratio) (2 * n / G.ratio)) :
    Reduces (shear n) F G := by
  have hdot : (shear n).dot = shear n := by simp [shear, GridOperator.dot]
  have h00 : (shear n).real 0 0 = 1 := by simp [shear, realEntry]
  have h01 : (shear n).real 0 1 = -(2 * n) := by
    simp [shear, realEntry, mul_comm]
  have h10 : (shear n).real 1 0 = 0 := by simp [shear, realEntry]
  have h11 : (shear n).real 1 1 = 1 := by simp [shear, realEntry]
  have hs : |(-(2 * n) : ℝ)| = 2 * n := by
    rw [abs_neg, abs_of_nonneg]
    have : (0 : ℝ) ≤ n := by exact_mod_cast hn
    linarith
  have hstable : (shear n).IsStable :=
    ⟨isStableEntry_int _, isStableEntry_int _, isStableEntry_int _, isStableEntry_int _⟩
  have htame {F : Form} (hx : 2 * n / F.ratio ≤ 2) : F.Tame 5 (shear n).real :=
    tame_of_shear h00 h01 h10 h11 (by rw [hs]) hx
  refine ⟨?_, ?_, hstable, ?_, htame hxy.x_le, ?_, column_of_shear _ h00 h10, ?_, ?_⟩
  · refine isGrid_iff.2 ⟨?_, rfl, rfl, rfl⟩
    show (1 + -(n * 2) + 0 + 1) % 2 = 0
    omega
  · simp [isSpecial, determinantParts, shear]
  · rwa [hdot]
  · rw [hdot]
    exact htame hxy.y_le
  · rw [hdot]
    exact column_of_shear _ h00 h10
  · rw [hdot, pull_shear_b h00 h01 h10 h11, pull_shear_b h00 h01 h10 h11, h.pos.p_eq, h.pos'.p_eq]
    have hmoved := h.moved_le rfl rfl hb hβ hxy
    have heq (F : Form) : F.b + -(2 * n) * (F.size / F.ratio) = F.b - 2 * n / F.ratio * F.size := by
      ring
    rw [heq, heq]
    exact hmoved

/-- **The shear by `√2 n`**, for a first entry off the diagonal that is not positive and a second one that
is not negative. -/
theorem shearSqrt2_reduces (h : Skewed F G) (hb : -slightness ≤ -F.b) (hβ : -slightness ≤ G.b)
    (hn : 0 ≤ n) (hxy : Moderate (88 / 100) (√2 * n / F.ratio) (√2 * n / G.ratio)) :
    Reduces (shearSqrt2 n) F G := by
  have htwo := ZOmega.sqrt_two_eq
  have hn0 : (0 : ℝ) ≤ √2 * n := by
    positivity
  have h00 : (shearSqrt2 n).real 0 0 = 1 := by simp [shearSqrt2, realEntry]
  have h01 : (shearSqrt2 n).real 0 1 = √2 * n := by
    simp only [real_01, shearSqrt2, realEntry]
    push_cast
    linear_combination (-n : ℝ) * htwo
  have h10 : (shearSqrt2 n).real 1 0 = 0 := by simp [shearSqrt2, realEntry]
  have h11 : (shearSqrt2 n).real 1 1 = 1 := by simp [shearSqrt2, realEntry]
  have h00' : (shearSqrt2 n).dot.real 0 0 = 1 := by simp [shearSqrt2, realEntry, GridOperator.dot]
  have h01' : (shearSqrt2 n).dot.real 0 1 = -(√2 * n) := by
    simp only [real_01, shearSqrt2, realEntry, GridOperator.dot]
    push_cast
    linear_combination (n : ℝ) * htwo
  have h10' : (shearSqrt2 n).dot.real 1 0 = 0 := by simp [shearSqrt2, realEntry, GridOperator.dot]
  have h11' : (shearSqrt2 n).dot.real 1 1 = 1 := by simp [shearSqrt2, realEntry, GridOperator.dot]
  refine ⟨?_, ?_, ?_, ?_, ?_, ?_, column_of_shear _ h00 h10, column_of_shear _ h00' h10', ?_⟩
  · refine isGrid_iff.2 ⟨rfl, ?_, rfl, rfl⟩
    show n * 2 % 2 = 0 % 2
    omega
  · simp [isSpecial, determinantParts, shearSqrt2]
  · exact ⟨isStableEntry_int _, isStableEntry_root _, isStableEntry_int _, isStableEntry_int _⟩
  · exact ⟨isStableEntry_int _, isStableEntry_root _, isStableEntry_int _, isStableEntry_int _⟩
  · exact tame_of_shear h00 h01 h10 h11 (by rw [abs_of_nonneg hn0]) hxy.x_le
  · exact tame_of_shear h00' h01' h10' h11' (by rw [abs_neg, abs_of_nonneg hn0]) hxy.y_le
  · rw [pull_shear_b h00 h01 h10 h11, pull_shear_b h00' h01' h10' h11', h.pos.p_eq, h.pos'.p_eq]
    have hmoved := h.moved_le (neg_sq F.b) rfl hb hβ hxy
    have hF : (F.b + √2 * n * (F.size / F.ratio)) ^ 2 = (-F.b - √2 * n / F.ratio * F.size) ^ 2 := by
      ring
    have hG : G.b + -(√2 * n) * (G.size / G.ratio) = G.b - √2 * n / G.ratio * G.size := by ring
    rw [hF, hG]
    exact hmoved

/-! ## Amounts -/

/-- The integer that half of `λᵐ` is cut down to, but at least one: exactly for the first three, and within
bounds for the others. -/
inductive IsAmount (m : ℕ) (n : ℤ) : Prop
  | zero (hm : m = 0) (hn : n = 1)
  | one (hm : m = 1) (hn : n = 1)
  | two (hm : m = 2) (hn : n = 2)
  | many (hm : 14.07 ≤ lambdaReal ^ m) (hlow : 0.4284 * lambdaReal ^ m ≤ n)
    (hhigh : (n : ℝ) ≤ 0.5005 * lambdaReal ^ m)

theorem IsAmount.nonneg {m : ℕ} {n : ℤ} (h : IsAmount m n) : 0 ≤ n := by
  cases h with
  | zero _ hn => omega
  | one _ hn => omega
  | two _ hn => omega
  | many hm hlow _ =>
    have : (0 : ℝ) ≤ n := by linarith
    exact_mod_cast this

/-- The amount for a power that is computed to a thousandth. -/
theorem isAmount_of_within {m : ℕ} {v : ℝ} (hv : |v - lambdaReal ^ m / 2| ≤ lambdaReal ^ m / 2000) :
    IsAmount m (max ⌊v⌋ 1) := by
  have hlam := lambdaReal_bounds
  obtain ⟨hlow, hhigh⟩ := abs_le.1 hv
  have hsq : lambdaReal ^ 2 = 2 * lambdaReal + 1 := lambdaReal_sq
  match m, hlow, hhigh with
  | 0, hlow, hhigh =>
    rw [pow_zero] at hlow hhigh
    refine .zero rfl (max_eq_right ?_)
    have : ⌊v⌋ < 1 := Int.floor_lt.2 (by push_cast; linarith)
    omega
  | 1, hlow, hhigh =>
    rw [pow_one] at hlow hhigh
    refine .one rfl ?_
    have hfloor : ⌊v⌋ = 1 := Int.floor_eq_iff.2 ⟨by push_cast; linarith, by push_cast; linarith⟩
    rw [hfloor, max_self]
  | 2, hlow, hhigh =>
    rw [hsq] at hlow hhigh
    refine .two rfl ?_
    have hfloor : ⌊v⌋ = 2 := Int.floor_eq_iff.2 ⟨by push_cast; linarith, by push_cast; linarith⟩
    rw [hfloor]
    rfl
  | m + 3, hlow, hhigh =>
    have hlarge : 14.07 ≤ lambdaReal ^ (m + 3) := by
      have hcube : 14.07 ≤ lambdaReal ^ 3 := by
        rw [pow_succ, hsq]
        nlinarith
      exact hcube.trans (pow_le_pow_right₀ one_lt_lambdaReal.le (by omega))
    have hfloor := Int.sub_one_lt_floor v
    have hone : 1 ≤ ⌊v⌋ := Int.le_floor.2 (by push_cast; linarith)
    rw [max_eq_left hone]
    exact .many hlarge (by linarith) (by linarith [Int.floor_le v])

/-! ## Both together -/

/-- Two quotients of a number by numbers between bounds. -/
theorem moderate_div {t X Y l u : ℝ} (lo hi κ : ℝ) (hl : 0 < l) (hlo : 0 ≤ lo) (hhi : 0 ≤ hi)
    (hX : l ≤ X) (hX' : X ≤ u) (hY : l ≤ Y) (hY' : Y ≤ u) (ht : lo * u ≤ t) (ht' : t ≤ hi * l)
    (hhi2 : hi ≤ 2) (hκ : (1 - lo) ^ 2 ≤ κ) (hκ' : (1 - hi) ^ 2 ≤ κ)
    (h : 101 / 100 * (2 * hi ^ 2) + 1 / 1000 ≤ (88 / 100 - κ) * (149 / 10)) :
    Moderate (88 / 100) (t / X) (t / Y) := by
  have hbound {X : ℝ} (hX : l ≤ X) (hX' : X ≤ u) : lo ≤ t / X ∧ t / X ≤ hi := by
    have hpos := hl.trans_le hX
    constructor
    · rw [le_div_iff₀ hpos]
      exact (mul_le_mul_of_nonneg_left hX' hlo).trans ht
    · rw [div_le_iff₀ hpos]
      exact ht'.trans (mul_le_mul_of_nonneg_left hX hhi)
  obtain ⟨hx, hx'⟩ := hbound hX hX'
  obtain ⟨hy, hy'⟩ := hbound hY hY'
  refine moderate_of_le (t := 2 * hi ^ 2) κ hlo hhi2 hx hx' hy hy' ?_ hκ hκ' h
  have hx2 := pow_le_pow_left₀ (hlo.trans hx) hx' 2
  have hy2 := pow_le_pow_left₀ (hlo.trans hy) hy' 2
  linarith

/-- The numbers `X` that belong to an exponent from `m` on, up to a little less than `m + 2`. -/
structure InSector (m : ℕ) (X : ℝ) : Prop where
  low : 0.999 * lambdaReal ^ m ≤ X
  high : X ≤ 5.842 * lambdaReal ^ m

/-- The amounts of the shear by `-2n`; an exponent near zero has to be well above it. -/
theorem moderate_shear {m : ℕ} {n : ℤ} {X Y : ℝ} (hn : IsAmount m n) (hX : InSector m X)
    (hY : InSector m Y) (hX' : 1.301 ≤ X) (hY' : 1.301 ≤ Y) :
    Moderate (88 / 100) (2 * n / X) (2 * n / Y) := by
  have hlam := lambdaReal_bounds
  obtain ⟨hXl, hXu⟩ := hX
  obtain ⟨hYl, hYu⟩ := hY
  cases hn with
  | zero hm hn =>
    subst hm hn
    rw [pow_zero] at hXl hXu hYl hYu
    push_cast
    refine moderate_div (l := 1.301) (u := 5.842) 0.3423 1.5373 0.4326 (by norm_num) (by norm_num)
      (by norm_num) hX' ?_ hY' ?_ ?_ ?_ ?_ ?_ ?_ ?_
    · linarith
    · linarith
    all_goals norm_num
  | one hm hn =>
    subst hm hn
    rw [pow_one] at hXl hXu hYl hYu
    push_cast
    refine moderate_div (l := 2.411) (u := 14.11) 0.1417 0.8297 0.7367 (by norm_num) (by norm_num)
      (by norm_num) ?_ ?_ ?_ ?_ ?_ ?_ ?_ ?_ ?_ ?_
    · linarith only [hXl, hlam.1]
    · linarith only [hXu, hlam.2]
    · linarith only [hYl, hlam.1]
    · linarith only [hYu, hlam.2]
    all_goals norm_num
  | two hm hn =>
    subst hm hn
    rw [lambdaReal_sq] at hXl hXu hYl hYu
    push_cast
    refine moderate_div (l := 5.822) (u := 34.051) 0.1174 0.6871 0.779 (by norm_num) (by norm_num)
      (by norm_num) ?_ ?_ ?_ ?_ ?_ ?_ ?_ ?_ ?_ ?_
    · linarith only [hXl, hlam.1]
    · linarith only [hXu, hlam.2]
    · linarith only [hYl, hlam.1]
    · linarith only [hYu, hlam.2]
    all_goals norm_num
  | many hm hlow hhigh =>
    refine moderate_div 0.1466 1.0025 0.7283 (by linarith) (by norm_num)
      (by norm_num) hXl hXu hYl hYu ?_ ?_ ?_ ?_ ?_ ?_
    · linarith
    · linarith
    all_goals norm_num

theorem sqrt_two_div_bounds {l u X : ℝ} (hl : l ≤ X) (hX : X ≤ 5.842) (hl0 : 0 < l)
    (hu : 1.41421357 ≤ u * l) (hu0 : 0 ≤ u) : 0.242 ≤ √2 / X ∧ √2 / X ≤ u := by
  have htwo := sqrt_two_bounds
  have hpos := hl0.trans_le hl
  constructor
  · rw [le_div_iff₀ hpos]
    linarith only [htwo.1, hX]
  · rw [div_le_iff₀ hpos]
    linarith only [htwo.2, hu, mul_le_mul_of_nonneg_left hl hu0]

/-- The shear by `√2` once: one of the exponents is well above zero. -/
theorem moderate_sqrt_two {X Y : ℝ} (hX : X ≤ 5.842) (hY : Y ≤ 5.842) (hX' : 0.837 ≤ X) (hY' : 0.837 ≤ Y)
    (hor : 2.0216 ≤ X ∨ 2.0216 ≤ Y) : Moderate (88 / 100) (√2 / X) (√2 / Y) := by
  obtain ⟨hx, hx'⟩ := sqrt_two_div_bounds (u := 1.69) hX' hX (by norm_num) (by norm_num) (by norm_num)
  obtain ⟨hy, hy'⟩ := sqrt_two_div_bounds (u := 1.69) hY' hY (by norm_num) (by norm_num) (by norm_num)
  have hx0 : 0 ≤ √2 / X := le_trans (by norm_num) hx
  have hy0 : 0 ≤ √2 / Y := le_trans (by norm_num) hy
  refine moderate_of_le (t := 1.69 ^ 2 + 0.6996 ^ 2) 0.5746 (by norm_num) (by norm_num) hx hx' hy hy'
    ?_ (by norm_num) (by norm_num) (by norm_num)
  have hsmall {X : ℝ} (h : 2.0216 ≤ X) (hX : X ≤ 5.842) : √2 / X ≤ 0.6996 :=
    (sqrt_two_div_bounds h hX (by norm_num) (by norm_num) (by norm_num)).2
  rcases hor with h | h
  · have hx2 := pow_le_pow_left₀ hx0 (hsmall h hX) 2
    have hy2 := pow_le_pow_left₀ hy0 hy' 2
    exact (add_le_add hx2 hy2).trans_eq (add_comm _ _)
  · have hx2 := pow_le_pow_left₀ hx0 hx' 2
    have hy2 := pow_le_pow_left₀ hy0 (hsmall h hY) 2
    exact add_le_add hx2 hy2

/-- The amounts of the shear by `√2 n`; of two exponents near zero one has to be well above it. -/
theorem moderate_shearSqrt2 {m : ℕ} {n : ℤ} {X Y : ℝ} (hn : IsAmount m n) (hX : X ≤ 5.842 * lambdaReal ^ m)
    (hY : Y ≤ 5.842 * lambdaReal ^ m) (hX' : 0.837 ≤ X) (hY' : 0.837 ≤ Y)
    (hlow : 0 < m → 0.999 * lambdaReal ^ m ≤ X ∧ 0.999 * lambdaReal ^ m ≤ Y)
    (hor : 2.0216 ≤ X ∨ 2.0216 ≤ Y) :
    Moderate (88 / 100) (√2 * n / X) (√2 * n / Y) := by
  have hlam := lambdaReal_bounds
  have htwo := sqrt_two_bounds
  cases hn with
  | zero hm hn =>
    subst hm hn
    rw [pow_zero, mul_one] at hX hY
    push_cast
    rw [mul_one]
    exact moderate_sqrt_two hX hY hX' hY' hor
  | one hm hn =>
    obtain ⟨hXl, hYl⟩ := hlow (by omega)
    subst hm hn
    rw [pow_one] at hX hY hXl hYl
    push_cast
    refine moderate_div (l := 2.411) (u := 14.11) 0.1002 0.5866 0.8097 (by norm_num) (by norm_num)
      (by norm_num) ?_ ?_ ?_ ?_ ?_ ?_ ?_ ?_ ?_ ?_
    · linarith only [hXl, hlam.1]
    · linarith only [hX, hlam.2]
    · linarith only [hYl, hlam.1]
    · linarith only [hY, hlam.2]
    · linarith only [htwo.1]
    · linarith only [htwo.2]
    all_goals norm_num
  | two hm hn =>
    obtain ⟨hXl, hYl⟩ := hlow (by omega)
    subst hm hn
    rw [lambdaReal_sq] at hX hY hXl hYl
    push_cast
    refine moderate_div (l := 5.822) (u := 34.051) 0.083 0.4859 0.8409 (by norm_num) (by norm_num)
      (by norm_num) ?_ ?_ ?_ ?_ ?_ ?_ ?_ ?_ ?_ ?_
    · linarith only [hXl, hlam.1]
    · linarith only [hX, hlam.2]
    · linarith only [hYl, hlam.1]
    · linarith only [hY, hlam.2]
    · linarith only [htwo.1]
    · linarith only [htwo.2]
    all_goals norm_num
  | many hm hlow' hhigh =>
    obtain ⟨hXl, hYl⟩ := hlow (by
      by_contra hzero
      have hm0 : m = 0 := by omega
      rw [hm0, pow_zero] at hm
      norm_num at hm)
    have hn0 : (0 : ℝ) ≤ n := by linarith
    refine moderate_div 0.1036 0.709 0.8036 (by linarith) (by norm_num)
      (by norm_num) hXl hX hYl hY ?_ ?_ ?_ ?_ ?_ ?_
    · nlinarith only [hlow', htwo.1, hn0]
    · nlinarith only [hhigh, htwo.2, hn0]
    all_goals norm_num

end GridOperator

end CliffordT
