/-
How near to singular the matrix of a slice can come.

The matrix is made from the squares and the product of a sine and a cosine, which are rounded. In a common unit the
rounded squares are integers `x` and `y`; with the defect `D` of the product the determinant is an integer as well,
`M (x + y)² - D (M - 1)²`, where `M` is the ratio of the eigenvalues. It is not far smaller than the product of the
diagonal entries. For if it were, then `x + y` would be near to `√q M` with a small integer `q`. At a low precision
it would be an integral multiple of `M - 1` and the squares too near to each other for a multiple of that size; and
at a high precision it would be near to a power of two, as the squares of sine and cosine add up to one, but the
multiples of powers of ten are not.
-/
import Mathlib.Data.Int.NatAbs
import Mathlib.Analysis.Complex.ExponentialBounds
import CliffordT.Proofs.Approximation.PowerGap

namespace CliffordT

/-- The ratio of the eigenvalues of a slice for `d` digits, `12 / ε² - 3`. -/
def axisRatio (d : ℕ) : ℤ := 12 * 100 ^ d - 3

/-- The determinant of the matrix for the squares `x` and `y` and the defect `D`. -/
def roundedDet (d : ℕ) (x y D : ℤ) : ℤ := axisRatio d * (x + y) ^ 2 - D * (axisRatio d - 1) ^ 2

/-- The product of its diagonal entries. -/
def roundedDiag (d : ℕ) (x y : ℤ) : ℤ := (axisRatio d * x + y) * (axisRatio d * y + x)

/-- The integer `q` for which `x + y` is near to `√q M` and `D` to `q M`, where the determinant is small. -/
def roundedQuotient (d : ℕ) (x y D : ℤ) : ℤ := (x + y) ^ 2 - D * (axisRatio d - 2)

/-- Two squares and a product of theirs, each rounded to `p` bits, in the unit of the smaller one: the
defect `D` is the square of the product less the product of the squares. The larger square is a multiple of
`2 ^ e`. -/
structure RoundedSquares (p e : ℕ) (x y D : ℤ) : Prop where
  x_le : x ≤ 2 ^ p
  le_x : 2 ^ p ≤ 2 * x
  y_pos : 0 < y
  y_le : y ≤ 2 ^ (p + e)
  dvd : 2 ^ e ∣ 2 * D
  defect_le : D * (2 ^ p) ^ 4 ≤ ((2 ^ p + 1) ^ 4 - (2 ^ p) ^ 4) * (x * y)

section Ratio

variable {d : ℕ} (hd : 0 < d)
include hd

theorem axisRatio_bounds : (1197 : ℝ) ≤ axisRatio d ∧ (axisRatio d : ℝ) ≤ 12 * 100 ^ d := by
  have hpow : (100 : ℝ) ≤ 100 ^ d := le_self_pow₀ (by norm_num) hd.ne'
  unfold axisRatio
  push_cast
  exact ⟨by linarith, by linarith⟩

/-- The precision exceeds what the third power of the ratio takes. -/
theorem mul_axisRatio_cube_le : d * (axisRatio d : ℝ) ^ 3 ≤ 36288 * 2 ^ (20 * d) := by
  obtain ⟨hlow, hhigh⟩ := axisRatio_bounds hd
  have hcube := pow_le_pow_left₀ (by linarith) hhigh 3
  have hbernoulli : 1 + d * (1 / 21 : ℝ) ≤ (1 + 1 / 21) ^ d := one_add_mul_le_pow (by norm_num) d
  have hbase : (1 + 1 / 21 : ℝ) * 100 ^ 3 ≤ 2 ^ 20 := by norm_num
  have hgrowth : (d : ℝ) * (100 ^ 3) ^ d ≤ 21 * (2 ^ 20) ^ d := by
    calc (d : ℝ) * (100 ^ 3) ^ d ≤ 21 * (1 + 1 / 21) ^ d * (100 ^ 3) ^ d := by
          refine mul_le_mul_of_nonneg_right ?_ (by positivity)
          linarith
      _ = 21 * ((1 + 1 / 21) * 100 ^ 3) ^ d := by rw [mul_pow, mul_assoc]
      _ ≤ 21 * (2 ^ 20) ^ d := by
          refine mul_le_mul_of_nonneg_left (pow_le_pow_left₀ (by norm_num) hbase d) (by norm_num)
  calc d * (axisRatio d : ℝ) ^ 3 ≤ d * (12 * 100 ^ d) ^ 3 := mul_le_mul_of_nonneg_left hcube (Nat.cast_nonneg d)
    _ = 1728 * (d * (100 ^ 3) ^ d) := by
        rw [mul_pow, ← pow_mul, ← pow_mul, mul_comm 3 d]
        ring
    _ ≤ 1728 * (21 * (2 ^ 20) ^ d) := mul_le_mul_of_nonneg_left hgrowth (by norm_num)
    _ = 36288 * 2 ^ (20 * d) := by
        rw [pow_mul]
        ring

end Ratio

/-- The determinant is far smaller than the product of the diagonal entries. -/
def NearlySingular (d : ℕ) (x y D : ℤ) : Prop :=
  (2 : ℝ) ^ (20 * d + 60) * |(roundedDet d x y D : ℝ)| < d * roundedDiag d x y

section Defect

variable {d p e : ℕ} {x y D : ℤ}

theorem defect_eq : D = roundedQuotient d x y D * axisRatio d - roundedDet d x y D := by
  unfold roundedQuotient roundedDet
  ring

theorem sum_sq_eq : (x + y) ^ 2 = roundedQuotient d x y D * (axisRatio d - 1) ^ 2
    - roundedDet d x y D * (axisRatio d - 2) := by
  unfold roundedQuotient roundedDet
  ring

/-- The diagonal entries, against the sum of the squares. -/
theorem roundedDiag_le (d : ℕ) (x y : ℤ) :
    4 * (roundedDiag d x y : ℝ) ≤ (axisRatio d + 1) ^ 2 * ((x : ℝ) + y) ^ 2 := by
  have hsq : 0 ≤ ((axisRatio d : ℝ) - 1) ^ 2 * ((x : ℝ) - y) ^ 2 := by positivity
  unfold roundedDiag
  push_cast
  linarith

variable (hd : 0 < d) (h : NearlySingular d x y D)
include hd h

/-- Neither of the two parts of a small determinant is small. -/
theorem NearlySingular.lt_defect : axisRatio d * ((x : ℝ) + y) ^ 2 < 2 * (D * (axisRatio d - 1) ^ 2) := by
  obtain ⟨hM, -⟩ := axisRatio_bounds hd
  have hcube := mul_axisRatio_cube_le hd
  have hdiag := roundedDiag_le d x y
  have hdet : (roundedDet d x y D : ℝ) = axisRatio d * ((x : ℝ) + y) ^ 2 - D * (axisRatio d - 1) ^ 2 := by
    unfold roundedDet
    push_cast
    ring
  unfold NearlySingular at h
  rw [pow_add] at h
  have habs := le_abs_self (roundedDet d x y D : ℝ)
  generalize (roundedDet d x y D : ℝ) = n at *
  generalize (axisRatio d : ℝ) = M at *
  generalize (x : ℝ) + y = T at *
  generalize (roundedDiag d x y : ℝ) = B at *
  by_contra hle
  rw [not_lt] at hle
  have hd1 : (1 : ℝ) ≤ d := by exact_mod_cast hd
  have hpow : (0 : ℝ) < 2 ^ (20 * d) := by positivity
  -- the determinant is then at least half of its first part
  have hn : M * T ^ 2 ≤ 2 * |n| := by linarith
  have hsq : (M + 1) ^ 2 ≤ 2 * M ^ 2 := by nlinarith
  have hB : 4 * B ≤ 2 * M * (2 * |n|) := by
    calc 4 * B ≤ (M + 1) ^ 2 * T ^ 2 := hdiag
      _ ≤ 2 * M ^ 2 * T ^ 2 := mul_le_mul_of_nonneg_right hsq (sq_nonneg T)
      _ = 2 * M * (M * T ^ 2) := by ring
      _ ≤ 2 * M * (2 * |n|) := mul_le_mul_of_nonneg_left hn (by linarith)
  have hdM : d * M ≤ 2 ^ (20 * d) * 2 ^ 60 := by
    have hM3 : M ≤ M ^ 3 := le_self_pow₀ (by linarith) (by norm_num)
    have := mul_le_mul_of_nonneg_left hM3 (by linarith : (0 : ℝ) ≤ d)
    linarith
  have hfinal := mul_le_mul_of_nonneg_right hdM (abs_nonneg n)
  have hdB := mul_le_mul_of_nonneg_left hB (by linarith : (0 : ℝ) ≤ d)
  linarith

/-- A small determinant is far smaller than the defect. -/
theorem NearlySingular.abs_det_le : 2 ^ 45 * |(roundedDet d x y D : ℝ)| ≤ D := by
  obtain ⟨hM, -⟩ := axisRatio_bounds hd
  have hcube := mul_axisRatio_cube_le hd
  have hdiag := roundedDiag_le d x y
  have hdefect := h.lt_defect hd
  unfold NearlySingular at h
  rw [pow_add] at h
  generalize (roundedDet d x y D : ℝ) = n at *
  generalize (axisRatio d : ℝ) = M at *
  generalize (x : ℝ) + y = T at *
  generalize (roundedDiag d x y : ℝ) = B at *
  generalize (D : ℝ) = E at *
  have hM0 : 0 < M := by linarith
  have hd0 : (0 : ℝ) ≤ d := Nat.cast_nonneg d
  have hpow : (0 : ℝ) < 2 ^ (20 * d) := by positivity
  have hE : 0 < E := by
    have hMT : 0 ≤ M * T ^ 2 := by positivity
    refine pos_of_mul_pos_left (b := (M - 1) ^ 2) ?_ (sq_nonneg _)
    linarith
  have hchain : M * (4 * B) ≤ 2 * M ^ 4 * E := by
    calc M * (4 * B) ≤ M * ((M + 1) ^ 2 * T ^ 2) := mul_le_mul_of_nonneg_left hdiag hM0.le
      _ = (M + 1) ^ 2 * (M * T ^ 2) := by ring
      _ ≤ (M + 1) ^ 2 * (2 * (E * (M - 1) ^ 2)) := mul_le_mul_of_nonneg_left hdefect.le (sq_nonneg _)
      _ = 2 * (M ^ 2 - 1) ^ 2 * E := by ring
      _ ≤ 2 * (M ^ 2) ^ 2 * E := by
          refine mul_le_mul_of_nonneg_right (mul_le_mul_of_nonneg_left ?_ (by norm_num)) hE.le
          refine pow_le_pow_left₀ ?_ (by linarith) 2
          nlinarith
      _ = 2 * M ^ 4 * E := by ring
  have hB : 4 * B ≤ 2 * M ^ 3 * E := by
    refine le_of_mul_le_mul_left (hchain.trans (le_of_eq ?_)) hM0
    ring
  have hdB : 4 * (d * B) ≤ 2 * (36288 * 2 ^ (20 * d)) * E := by
    calc 4 * (d * B) = d * (4 * B) := by ring
      _ ≤ d * (2 * M ^ 3 * E) := mul_le_mul_of_nonneg_left hB hd0
      _ = 2 * (d * M ^ 3) * E := by ring
      _ ≤ 2 * (36288 * 2 ^ (20 * d)) * E :=
          mul_le_mul_of_nonneg_right (mul_le_mul_of_nonneg_left hcube (by norm_num)) hE.le
  have hcut : 2 ^ (20 * d) * (2 ^ 60 * |n|) ≤ 2 ^ (20 * d) * (18144 * E) := by linarith
  have := le_of_mul_le_mul_left hcut hpow
  linarith

/-- The quotient is positive, and the defect near to its multiple of the ratio. -/
theorem NearlySingular.quotient_mul_bounds : 0 < roundedQuotient d x y D ∧
    (1 - 1 / 2 ^ 45) * (D : ℝ) ≤ roundedQuotient d x y D * axisRatio d ∧
    (roundedQuotient d x y D : ℝ) * axisRatio d ≤ (1 + 1 / 2 ^ 45) * D := by
  obtain ⟨hM, -⟩ := axisRatio_bounds hd
  have hdet := h.abs_det_le hd
  have hsq : 0 ≤ axisRatio d * ((x : ℝ) + y) ^ 2 := by positivity
  have hD : (0 : ℝ) < D := by
    refine pos_of_mul_pos_left (b := ((axisRatio d : ℝ) - 1) ^ 2) ?_ (sq_nonneg _)
    linarith [h.lt_defect hd]
  have heq : (D : ℝ) = roundedQuotient d x y D * axisRatio d - roundedDet d x y D := by
    exact_mod_cast defect_eq (d := d) (x := x) (y := y) (D := D)
  obtain ⟨hn, hn'⟩ := abs_le.1 (le_refl |(roundedDet d x y D : ℝ)|)
  generalize |(roundedDet d x y D : ℝ)| = a at *
  have hlow : (1 - 1 / 2 ^ 45) * (D : ℝ) ≤ roundedQuotient d x y D * axisRatio d := by linarith
  refine ⟨?_, hlow, by linarith⟩
  have hpos : (0 : ℝ) < roundedQuotient d x y D := by
    refine pos_of_mul_pos_left (b := (axisRatio d : ℝ)) ?_ (by linarith)
    linarith
  exact_mod_cast hpos

/-- The sum of the squares is near to `√q (M - 1)`. -/
theorem NearlySingular.abs_sum_sq_sub_le :
    |((x : ℝ) + y) ^ 2 - (roundedQuotient d x y D : ℝ) * ((axisRatio d : ℝ) - 1) ^ 2|
      ≤ 1 / 2 ^ 44 * ((roundedQuotient d x y D : ℝ) * (axisRatio d : ℝ) ^ 2) := by
  obtain ⟨hM, -⟩ := axisRatio_bounds hd
  obtain ⟨-, hlow, -⟩ := h.quotient_mul_bounds hd
  have hdet := h.abs_det_le hd
  have heq : ((x : ℝ) + y) ^ 2 = roundedQuotient d x y D * (axisRatio d - 1) ^ 2
      - roundedDet d x y D * (axisRatio d - 2) := by
    exact_mod_cast sum_sq_eq (d := d) (x := x) (y := y) (D := D)
  have hsplit : ((x : ℝ) + y) ^ 2 - roundedQuotient d x y D * (axisRatio d - 1) ^ 2
      = -(roundedDet d x y D * (axisRatio d - 2)) := by linarith
  rw [hsplit, abs_neg, abs_mul, abs_of_nonneg (by linarith : (0 : ℝ) ≤ axisRatio d - 2)]
  have hsmall : |(roundedDet d x y D : ℝ)| ≤ 1 / 2 ^ 44 * (roundedQuotient d x y D * axisRatio d) := by
    linarith [abs_nonneg (roundedDet d x y D : ℝ)]
  calc |(roundedDet d x y D : ℝ)| * (axisRatio d - 2) ≤ |(roundedDet d x y D : ℝ)| * axisRatio d :=
        mul_le_mul_of_nonneg_left (by linarith) (abs_nonneg _)
    _ ≤ 1 / 2 ^ 44 * (roundedQuotient d x y D * axisRatio d) * axisRatio d :=
        mul_le_mul_of_nonneg_right hsmall (by linarith)
    _ = 1 / 2 ^ 44 * (roundedQuotient d x y D * axisRatio d ^ 2) := by ring

theorem NearlySingular.sum_sq_le :
    ((x : ℝ) + y) ^ 2 ≤ (1 + 1 / 2 ^ 44) * ((roundedQuotient d x y D : ℝ) * (axisRatio d : ℝ) ^ 2) := by
  obtain ⟨hM, -⟩ := axisRatio_bounds hd
  obtain ⟨hq, -⟩ := h.quotient_mul_bounds hd
  have hnear := (abs_le.1 (h.abs_sum_sq_sub_le hd)).2
  have hsq : ((axisRatio d : ℝ) - 1) ^ 2 ≤ axisRatio d ^ 2 := pow_le_pow_left₀ (by linarith) (by linarith) 2
  have hq0 : (0 : ℝ) ≤ roundedQuotient d x y D := by exact_mod_cast hq.le
  linarith [mul_le_mul_of_nonneg_left hsq hq0]

end Defect

section Rounded

variable {d p e : ℕ} {x y D : ℤ} (hr : RoundedSquares p e x y D)
include hr

namespace RoundedSquares

theorem x_pos : 0 < x := by
  have hpow : (0 : ℤ) < 2 ^ p := by positivity
  have := hr.le_x
  linarith

/-- The defect comes from the roundings. -/
theorem defect_mul_le : (D : ℝ) * (2 ^ p) ^ 4
    ≤ (4 * (2 ^ p) ^ 3 + 6 * (2 ^ p) ^ 2 + 4 * 2 ^ p + 1) * (x * y) := by
  have hle : (D : ℝ) * (2 ^ p) ^ 4 ≤ ((2 ^ p + 1) ^ 4 - (2 ^ p) ^ 4) * (x * y) := by exact_mod_cast hr.defect_le
  refine hle.trans (le_of_eq ?_)
  ring

/-- The product of the squares, against their sum. -/
theorem mul_le_sum : (x : ℝ) * y ≤ 2 ^ p * (x + y) := by
  have hx : (0 : ℝ) ≤ x := by exact_mod_cast hr.x_pos.le
  have hy : (0 : ℝ) ≤ y := by exact_mod_cast hr.y_pos.le
  have hle : (x : ℝ) ≤ 2 ^ p := by exact_mod_cast hr.x_le
  have h1 := mul_le_mul_of_nonneg_right hle hy
  have h2 := mul_nonneg (by positivity : (0 : ℝ) ≤ 2 ^ p) hx
  linarith

theorem defect_le_sum {c : ℝ} (hc : 4 * (2 ^ p) ^ 3 + 6 * (2 ^ p) ^ 2 + 4 * 2 ^ p + 1 ≤ c * (2 ^ p) ^ 3) :
    (D : ℝ) ≤ c * (x + y) := by
  have hx : (0 : ℝ) ≤ x := by exact_mod_cast hr.x_pos.le
  have hy : (0 : ℝ) ≤ y := by exact_mod_cast hr.y_pos.le
  have hpow : (0 : ℝ) < (2 ^ p) ^ 4 := by positivity
  have hc0 : 0 ≤ c * (2 ^ p) ^ 3 := le_trans (by positivity) hc
  refine le_of_mul_le_mul_right ?_ hpow
  calc (D : ℝ) * (2 ^ p) ^ 4 ≤ (4 * (2 ^ p) ^ 3 + 6 * (2 ^ p) ^ 2 + 4 * 2 ^ p + 1) * (x * y) := hr.defect_mul_le
    _ ≤ c * (2 ^ p) ^ 3 * (x * y) := mul_le_mul_of_nonneg_right hc (mul_nonneg hx hy)
    _ ≤ c * (2 ^ p) ^ 3 * (2 ^ p * (x + y)) := mul_le_mul_of_nonneg_left hr.mul_le_sum hc0
    _ = c * (x + y) * (2 ^ p) ^ 4 := by ring

end RoundedSquares

variable (hd : 0 < d) (h : NearlySingular d x y D)
include hd h

/-- The quotient is small. -/
theorem NearlySingular.quotient_le {c : ℝ}
    (hc : 4 * (2 ^ p) ^ 3 + 6 * (2 ^ p) ^ 2 + 4 * 2 ^ p + 1 ≤ c * (2 ^ p) ^ 3) :
    (roundedQuotient d x y D : ℝ) ≤ (1 + 1 / 2 ^ 40) * c ^ 2 := by
  obtain ⟨hM, -⟩ := axisRatio_bounds hd
  obtain ⟨hq, hlow, hhigh⟩ := h.quotient_mul_bounds hd
  have hD := hr.defect_le_sum hc
  have hsum := h.sum_sq_le hd
  have hq0 : (0 : ℝ) < roundedQuotient d x y D := by exact_mod_cast hq
  generalize (roundedQuotient d x y D : ℝ) = q at *
  generalize (axisRatio d : ℝ) = M at *
  generalize (x : ℝ) + y = T at *
  have hqM : q * M ≤ (1 + 1 / 2 ^ 45) * (c * T) :=
    hhigh.trans (mul_le_mul_of_nonneg_left hD (by norm_num))
  have hqM0 : 0 ≤ q * M := by positivity
  have hsq := pow_le_pow_left₀ hqM0 hqM 2
  have hle : q * (q * M ^ 2) ≤ (1 + 1 / 2 ^ 40) * c ^ 2 * (q * M ^ 2) := by
    have hscaled := mul_le_mul_of_nonneg_left hsum (by positivity : 0 ≤ (1 + 1 / 2 ^ 45) ^ 2 * c ^ 2)
    have hpos : 0 ≤ c ^ 2 * (q * M ^ 2) := by positivity
    linarith
  exact le_of_mul_le_mul_right hle (by positivity)

/-- The sum of the squares, against the ratio. -/
theorem NearlySingular.sum_le {c : ℝ} (hc0 : 0 ≤ c)
    (hc : 4 * (2 ^ p) ^ 3 + 6 * (2 ^ p) ^ 2 + 4 * 2 ^ p + 1 ≤ c * (2 ^ p) ^ 3) :
    (x : ℝ) + y ≤ (1 + 1 / 2 ^ 30) * c * axisRatio d := by
  obtain ⟨hM, -⟩ := axisRatio_bounds hd
  have hq := h.quotient_le hr hd hc
  have hsum := h.sum_sq_le hd
  refine le_of_sq_le_sq ?_ (by positivity)
  have := mul_le_mul_of_nonneg_right hq (sq_nonneg (axisRatio d : ℝ))
  have hpos : 0 ≤ c ^ 2 * (axisRatio d : ℝ) ^ 2 := by positivity
  linarith

/-- At a low precision the determinant is zero. -/
theorem NearlySingular.det_eq_zero {c : ℝ} (hc0 : 0 ≤ c)
    (hc : 4 * (2 ^ p) ^ 3 + 6 * (2 ^ p) ^ 2 + 4 * 2 ^ p + 1 ≤ c * (2 ^ p) ^ 3)
    (hsmall : 36288 * (c * 2 ^ p + c ^ 2) ≤ 2 ^ 59) : roundedDet d x y D = 0 := by
  obtain ⟨hM, -⟩ := axisRatio_bounds hd
  have hcube := mul_axisRatio_cube_le hd
  have hsum := h.sum_le hr hd hc0 hc
  have hprod := hr.mul_le_sum
  have hdiag : (roundedDiag d x y : ℝ) = (axisRatio d - 1) ^ 2 * ((x : ℝ) * y) + axisRatio d * ((x : ℝ) + y) ^ 2 := by
    unfold roundedDiag
    push_cast
    ring
  have hT : 0 ≤ (x : ℝ) + y := by
    have hx := hr.x_pos
    have hy := hr.y_pos
    exact_mod_cast (by linarith : (0 : ℤ) ≤ x + y)
  unfold NearlySingular at h
  rw [pow_add] at h
  generalize (axisRatio d : ℝ) = M at *
  generalize (x : ℝ) + y = T at *
  generalize (x : ℝ) * y = w at *
  have hpow : (0 : ℝ) < 2 ^ (20 * d) := by positivity
  have hd0 : (0 : ℝ) ≤ d := Nat.cast_nonneg d
  have hB : (roundedDiag d x y : ℝ) ≤ 3 / 2 * (c * 2 ^ p + c ^ 2) * M ^ 3 := by
    have h1 : (M - 1) ^ 2 * w ≤ M ^ 2 * (2 ^ p * (3 / 2 * c * M)) := by
      have hw : w ≤ 2 ^ p * (3 / 2 * c * M) := by
        refine hprod.trans (mul_le_mul_of_nonneg_left ?_ (by positivity))
        have : 0 ≤ c * M := by positivity
        linarith
      refine (mul_le_mul_of_nonneg_left hw (sq_nonneg _)).trans (mul_le_mul_of_nonneg_right ?_ (by positivity))
      exact pow_le_pow_left₀ (by linarith) (by linarith) 2
    have h2 : M * T ^ 2 ≤ M * (3 / 2 * (c ^ 2 * M ^ 2)) := by
      refine mul_le_mul_of_nonneg_left ?_ (by linarith)
      refine (pow_le_pow_left₀ hT hsum 2).trans ?_
      have : 0 ≤ c ^ 2 * M ^ 2 := by positivity
      linarith
    rw [hdiag]
    linarith
  have hsmall' : (2 : ℝ) ^ (20 * d) * (2 ^ 60 * |(roundedDet d x y D : ℝ)|) < 2 ^ (20 * d) * 2 ^ 60 := by
    calc (2 : ℝ) ^ (20 * d) * (2 ^ 60 * |(roundedDet d x y D : ℝ)|) < d * roundedDiag d x y := by
          rwa [← mul_assoc]
      _ ≤ d * (3 / 2 * (c * 2 ^ p + c ^ 2) * M ^ 3) := mul_le_mul_of_nonneg_left hB hd0
      _ = 3 / 2 * (c * 2 ^ p + c ^ 2) * (d * M ^ 3) := by ring
      _ ≤ 3 / 2 * (c * 2 ^ p + c ^ 2) * (36288 * 2 ^ (20 * d)) :=
          mul_le_mul_of_nonneg_left hcube (by positivity)
      _ ≤ 2 ^ (20 * d) * 2 ^ 60 := by
          have := mul_le_mul_of_nonneg_left hsmall hpow.le
          linarith
  have hlt := lt_of_mul_lt_mul_left hsmall' hpow.le
  have hone : |(roundedDet d x y D : ℝ)| < 1 := by linarith
  exact Int.abs_lt_one_iff.1 (by exact_mod_cast hone)

omit h in
/-- For a determinant of zero, the sum of the squares is a multiple of `M - 1`, and the squares are so near to each
other that the precision bounds it. -/
theorem RoundedSquares.exists_multiple (hdet : roundedDet d x y D = 0) : ∃ r : ℕ, 0 < r ∧
    x + y = r * (axisRatio d - 1) ∧ roundedQuotient d x y D = r ^ 2 ∧
    r * (axisRatio d - 1) ≤ 2 ^ p * (1 + 2 * (r : ℤ) ^ 2) := by
  obtain ⟨hM, -⟩ := axisRatio_bounds hd
  have hM' : (0 : ℤ) < axisRatio d - 1 := by
    have : (1197 : ℤ) ≤ axisRatio d := by exact_mod_cast hM
    omega
  have hsum := sum_sq_eq (d := d) (x := x) (y := y) (D := D)
  have hdefect := defect_eq (d := d) (x := x) (y := y) (D := D)
  rw [hdet, zero_mul, sub_zero] at hsum
  rw [hdet, sub_zero] at hdefect
  obtain ⟨r, hroot⟩ : axisRatio d - 1 ∣ x + y :=
    (Int.pow_dvd_pow_iff two_ne_zero).1 ⟨roundedQuotient d x y D, by rw [hsum, mul_comm]⟩
  have hr0 : 0 < r := by
    refine pos_of_mul_pos_right ?_ hM'.le
    rw [← hroot]
    exact add_pos hr.x_pos hr.y_pos
  lift r to ℕ using hr0.le
  have hq : roundedQuotient d x y D = (r : ℤ) ^ 2 := by
    rw [hroot, mul_pow, mul_comm] at hsum
    exact (mul_right_cancel₀ (pow_pos hM' 2).ne' hsum).symm
  -- the ratio is odd, so that the power of two divides twice the square
  have hpow : (2 : ℤ) ^ e ≤ 2 * (r : ℤ) ^ 2 := by
    have hodd : IsCoprime ((2 : ℤ) ^ e) (axisRatio d) := by
      refine IsCoprime.pow_left ⟨2 - 6 * 100 ^ d, 1, ?_⟩
      unfold axisRatio
      ring
    have hdvd := hr.dvd
    rw [hdefect, hq, ← mul_assoc] at hdvd
    exact Int.le_of_dvd (by positivity) (hodd.dvd_of_dvd_mul_right hdvd)
  refine ⟨r, by exact_mod_cast hr0, by rw [hroot, mul_comm], hq, ?_⟩
  have hyle := hr.y_le
  rw [pow_add] at hyle
  have hscaled := mul_le_mul_of_nonneg_left hpow (by positivity : (0 : ℤ) ≤ 2 ^ p)
  have hx := hr.x_le
  calc (r : ℤ) * (axisRatio d - 1) = x + y := by rw [hroot, mul_comm]
    _ ≤ 2 ^ p * (1 + 2 * (r : ℤ) ^ 2) := by linarith

end Rounded

/-- The sum of the squares is near to a power of two. -/
def NearPower (η : ℝ) (t : ℤ) : Prop := ∃ k : ℤ, |(t : ℝ) - 2 ^ k| ≤ η * 2 ^ k

/-- The power of two is that of a natural number, and not much larger. -/
theorem NearPower.exists_pow {η : ℝ} {t : ℤ} (h : NearPower η t) (ht : 0 < t) (hη : η ≤ 1 / 4) :
    ∃ k : ℕ, |(t : ℝ) - 2 ^ k| ≤ η * 2 ^ k ∧ 3 * (2 : ℝ) ^ k ≤ 4 * t := by
  obtain ⟨k, hk⟩ := h
  have hpow : (0 : ℝ) < 2 ^ k := by positivity
  have ht1 : (1 : ℝ) ≤ t := by exact_mod_cast ht
  have hbound := (abs_le.1 (hk.trans (mul_le_mul_of_nonneg_right hη hpow.le)))
  have hk0 : 0 ≤ k := by
    by_contra hneg
    have hhalf : (2 : ℝ) ^ k ≤ 2 ^ (-1 : ℤ) := zpow_le_zpow_right₀ one_le_two (by omega)
    rw [zpow_neg_one] at hhalf
    linarith
  lift k to ℕ using hk0
  rw [zpow_natCast] at hk hbound
  exact ⟨k, hk, by linarith⟩

/-- A multiple that a precision of 41 bits bounds is one for a few digits. -/
theorem digits_le_six {d p r : ℕ} (hp : p ≤ 41) (hr : 0 < r) (hr4 : r ≤ 4)
    (h : r * (axisRatio d - 1) ≤ 2 ^ p * (1 + 2 * (r : ℤ) ^ 2)) : d ≤ 6 := by
  by_contra hd
  have hpow : (100 : ℤ) ^ 7 ≤ 100 ^ d := pow_le_pow_right₀ (by norm_num) (by omega)
  have hP : (2 : ℤ) ^ p ≤ 2 ^ 41 := pow_le_pow_right₀ (by norm_num) hp
  have hr1 : (1 : ℤ) ≤ r := by exact_mod_cast hr
  have hr4' : (r : ℤ) ≤ 4 := by exact_mod_cast hr4
  have hsq : 1 + 2 * (r : ℤ) ^ 2 ≤ 9 * r := by nlinarith
  have hle : r * (axisRatio d - 1) ≤ 2 ^ 41 * (9 * (r : ℤ)) :=
    h.trans (mul_le_mul hP hsq (by positivity) (by norm_num))
  unfold axisRatio at hle
  nlinarith

/-- Multiples of a few numbers that are near to powers of ten are not so near to powers of two. -/
theorem multiple_far_from_powers {d r k : ℕ} (hd : 0 < d) (hd6 : d ≤ 6) (hr : 0 < r) (hr4 : r ≤ 4)
    (hk : (2 : ℤ) ^ k ≤ 2 * (r * (axisRatio d - 1))) :
    32 * (1 + 2 * (r : ℤ) ^ 2) < 3 * |(r : ℤ) * (axisRatio d - 1) - 2 ^ k| := by
  have hbound : (2 : ℤ) ^ k < 2 ^ 47 := by
    have hpow : (100 : ℤ) ^ d ≤ 100 ^ 6 := pow_le_pow_right₀ (by norm_num) hd6
    have hr' : (r : ℤ) ≤ 4 := by exact_mod_cast hr4
    have hr0 : (0 : ℤ) < r := by exact_mod_cast hr
    unfold axisRatio at hk
    nlinarith
  have hk47 : k < 47 := (pow_lt_pow_iff_right₀ one_lt_two).1 hbound
  have hall : ∀ d < 7, 0 < d → ∀ r : ℕ, r < 5 → 0 < r → ∀ k < 47,
      32 * (1 + 2 * (r : ℤ) ^ 2) < 3 * |(r : ℤ) * (12 * 100 ^ d - 3 - 1) - 2 ^ k| := by decide +kernel
  exact hall d (by omega) hd r (by omega) hr k hk47

/-- The coefficients of the roundings, at any precision and at one of five bits and more. -/
theorem defect_coeff_le {P : ℝ} (hP : 1 ≤ P) : 4 * P ^ 3 + 6 * P ^ 2 + 4 * P + 1 ≤ 15 * P ^ 3 := by
  have h2 : P ^ 2 ≤ P ^ 3 := pow_le_pow_right₀ hP (by norm_num)
  have h1 : P ≤ P ^ 3 := le_self_pow₀ hP (by norm_num)
  linarith

theorem defect_coeff_le_of_le {P : ℝ} (hP : 32 ≤ P) : 4 * P ^ 3 + 6 * P ^ 2 + 4 * P + 1 ≤ 21 / 5 * P ^ 3 := by
  have h2 := mul_le_mul_of_nonneg_right hP (sq_nonneg P)
  have h1 := mul_le_mul_of_nonneg_right hP (by linarith : 0 ≤ P)
  linarith

/-- The binary logarithms of numbers that are near to each other. -/
theorem abs_logb_sub_le {v w ε : ℝ} (hw : 0 < w) (hε : ε ≤ 1 / 4) (h : |v - w| ≤ ε * w) :
    |Real.logb 2 v - Real.logb 2 w| ≤ 2 * ε := by
  have hlog2 := Real.log_two_gt_d9
  obtain ⟨hlow, hhigh⟩ := abs_le.1 h
  have hε0 : 0 ≤ ε := nonneg_of_mul_nonneg_left ((abs_nonneg _).trans h) hw
  have hv : 0 < v := by
    have := mul_le_mul_of_nonneg_right hε hw.le
    linarith
  have hlog : |Real.log (v / w)| ≤ 4 / 3 * ε := by
    have hup := Real.log_le_sub_one_of_pos (div_pos hv hw)
    have hdown := Real.one_sub_inv_le_log_of_pos (div_pos hv hw)
    rw [inv_div] at hdown
    have hvw : v / w ≤ 1 + ε := by
      rw [div_le_iff₀ hw]
      linarith
    have hwv : w / v ≤ 1 + 4 / 3 * ε := by
      rw [div_le_iff₀ hv]
      nlinarith
    exact abs_le.2 ⟨by linarith, by linarith⟩
  rw [← Real.logb_div hv.ne' hw.ne', Real.logb, abs_div, abs_of_pos (by linarith : 0 < Real.log 2),
    div_le_iff₀ (by linarith)]
  nlinarith

/-- A sum that is near to a power of two and to `√q M`, and what this says of their squares. -/
theorem sum_sq_close {t P Q A : ℝ} (hQ : 0 ≤ Q) (hP : 0 ≤ P) (hA : 12 * 100 ^ 6 ≤ A) (ht : |t - P| ≤ 1 / 2 ^ 39 * P)
    (hsq : |t ^ 2 - Q * (A - 3 - 1) ^ 2| ≤ 1 / 2 ^ 44 * (Q * (A - 3) ^ 2)) :
    |P ^ 2 - Q * A ^ 2| ≤ 5 / 10 ^ 12 * (Q * A ^ 2) := by
  obtain ⟨hlow, hhigh⟩ := abs_le.1 ht
  obtain ⟨hsqlow, hsqhigh⟩ := abs_le.1 hsq
  have htup : t ^ 2 ≤ ((1 + 1 / 2 ^ 39) * P) ^ 2 := pow_le_pow_left₀ (by linarith) (by linarith) 2
  have htdown : ((1 - 1 / 2 ^ 39) * P) ^ 2 ≤ t ^ 2 := pow_le_pow_left₀ (by linarith) (by linarith) 2
  have hAA := mul_le_mul_of_nonneg_left (mul_le_mul_of_nonneg_right hA (by linarith : 0 ≤ A)) hQ
  have hQA := mul_le_mul_of_nonneg_left (by linarith : 2 ≤ A) hQ
  have hPP : 0 ≤ P ^ 2 := sq_nonneg P
  exact abs_le.2 ⟨by linarith, by linarith⟩

/-- The binary logarithm of a multiple of the square of the ratio. -/
theorem logb_multiple {q : ℕ} (hq : 0 < q) (d : ℕ) : Real.logb 2 (q * (12 * 100 ^ d) ^ 2)
    = Real.logb 2 (9 * q : ℕ) + 4 * d * Real.logb 2 5 + (4 + 4 * d) := by
  have hq' : (0 : ℝ) < q := by exact_mod_cast hq
  have hsplit : (q : ℝ) * (12 * 100 ^ d) ^ 2 = (9 * q : ℕ) * 5 ^ (4 * d) * 2 ^ (4 + 4 * d) := by
    have h100 : (100 : ℝ) ^ d = 5 ^ d * 5 ^ d * (2 ^ d * 2 ^ d) := by
      rw [← mul_pow, ← mul_pow, ← mul_pow]
      norm_num
    rw [h100, show 4 * d = d + d + (d + d) by ring, pow_add 2 4]
    simp only [pow_add]
    push_cast
    ring
  rw [hsplit, Real.logb_mul (by positivity) (by positivity), Real.logb_mul (by positivity) (by positivity),
    Real.logb_pow, Real.logb_pow, Real.logb_self_eq_one one_lt_two]
  push_cast
  ring

section Precision

variable {d p e : ℕ} {x y D : ℤ} (hr : RoundedSquares p e x y D) (hd : 0 < d)
include hr hd

/-- No matrix is nearly singular at four bits and less. -/
theorem RoundedSquares.not_nearlySingular_of_le_four (hp : p ≤ 4) : ¬ NearlySingular d x y D := by
  intro h
  have hP : (1 : ℝ) ≤ 2 ^ p := one_le_pow₀ (by norm_num)
  have hP4 : (2 : ℝ) ^ p ≤ 2 ^ 4 := pow_le_pow_right₀ (by norm_num) hp
  have hc := defect_coeff_le hP
  have hdet := h.det_eq_zero hr hd (by norm_num) hc (by linarith)
  obtain ⟨r, hr0, -, hq, hsize⟩ := hr.exists_multiple hd hdet
  have hquot := h.quotient_le hr hd hc
  rw [hq] at hquot
  push_cast at hquot
  have hr15 : (r : ℝ) < 16 := by
    refine lt_of_pow_lt_pow_left₀ 2 (by norm_num) ?_
    linarith
  have hr15' : (r : ℤ) < 16 := by exact_mod_cast hr15
  have hr1 : (1 : ℤ) ≤ r := by exact_mod_cast hr0
  obtain ⟨hM, -⟩ := axisRatio_bounds hd
  have hM' : (1197 : ℤ) ≤ axisRatio d := by exact_mod_cast hM
  have hP4' : (2 : ℤ) ^ p ≤ 2 ^ 4 := pow_le_pow_right₀ (by norm_num) hp
  nlinarith

/-- Nor is one at up to 41 bits, where the squares add up to one. -/
theorem RoundedSquares.not_nearlySingular_of_low (hp : 5 ≤ p) (hp41 : p ≤ 41)
    (hnear : NearPower (8 / 2 ^ p) (x + y)) : ¬ NearlySingular d x y D := by
  intro h
  have hP : (32 : ℝ) ≤ 2 ^ p := le_trans (by norm_num) (pow_le_pow_right₀ one_le_two hp)
  have hP41 : (2 : ℝ) ^ p ≤ 2 ^ 41 := pow_le_pow_right₀ one_le_two hp41
  have hc := defect_coeff_le_of_le hP
  have hdet := h.det_eq_zero hr hd (by norm_num) hc (by linarith)
  obtain ⟨r, hr0, hmultiple, hq, hsize⟩ := hr.exists_multiple hd hdet
  have hquot := h.quotient_le hr hd hc
  rw [hq] at hquot
  push_cast at hquot
  have hr5 : (r : ℝ) < 5 := by
    refine lt_of_pow_lt_pow_left₀ 2 (by norm_num) ?_
    linarith
  have hr4 : r ≤ 4 := Nat.lt_succ_iff.1 (by exact_mod_cast hr5)
  obtain ⟨k, hk, hle⟩ := hnear.exists_pow (add_pos hr.x_pos hr.y_pos) (by
    rw [div_le_iff₀ (by positivity)]
    linarith)
  rw [hmultiple] at hk hle
  have hsizeR : ((r * (axisRatio d - 1) : ℤ) : ℝ) ≤ 2 ^ p * (1 + 2 * (r : ℝ) ^ 2) := by exact_mod_cast hsize
  have hfar := multiple_far_from_powers hd (digits_le_six hp41 hr0 hr4 hsize) hr0 hr4 (k := k) (by
    have hle2 : (2 : ℝ) ^ k ≤ 2 * ((r * (axisRatio d - 1) : ℤ) : ℝ) := by
      have : (0 : ℝ) < 2 ^ k := by positivity
      linarith
    exact_mod_cast hle2)
  have hclose : 3 * |((r * (axisRatio d - 1) : ℤ) : ℝ) - 2 ^ k| ≤ 32 * (1 + 2 * (r : ℝ) ^ 2) := by
    generalize ((r * (axisRatio d - 1) : ℤ) : ℝ) = t at *
    have hscaled : 8 / 2 ^ p * (3 * 2 ^ k) ≤ 8 / 2 ^ p * (4 * (2 ^ p * (1 + 2 * (r : ℝ) ^ 2))) :=
      mul_le_mul_of_nonneg_left (hle.trans (mul_le_mul_of_nonneg_left hsizeR (by norm_num))) (by positivity)
    have hcancel : (8 : ℝ) / 2 ^ p * (4 * (2 ^ p * (1 + 2 * (r : ℝ) ^ 2))) = 32 * (1 + 2 * (r : ℝ) ^ 2) := by
      field_simp
      ring
    linarith
  have hclose' : 3 * |(r : ℤ) * (axisRatio d - 1) - 2 ^ k| ≤ 32 * (1 + 2 * (r : ℤ) ^ 2) := by
    exact_mod_cast hclose
  exact absurd hfar (not_lt.2 hclose')

/-- Nor is one at a higher precision, where they add up to one more accurately. -/
theorem RoundedSquares.not_nearlySingular_of_high (hd' : d ≤ 214748364) (hp : 42 ≤ p)
    (hnear : NearPower (1 / 2 ^ 39) (x + y)) : ¬ NearlySingular d x y D := by
  intro h
  have hP : (2 : ℝ) ^ 42 ≤ 2 ^ p := pow_le_pow_right₀ one_le_two hp
  have hc := defect_coeff_le_of_le (by linarith : (32 : ℝ) ≤ 2 ^ p)
  obtain ⟨hq, -, -⟩ := h.quotient_mul_bounds hd
  have hq17 := h.quotient_le hr hd hc
  have hlarge : (12 * 100 ^ 6 : ℝ) ≤ 12 * 100 ^ d := by
    have hsum := h.sum_le hr hd (by norm_num) hc
    have hx : (2 : ℝ) ^ p ≤ 2 * x := by exact_mod_cast hr.le_x
    have hy : (0 : ℝ) ≤ y := by exact_mod_cast hr.y_pos.le
    obtain ⟨-, hM⟩ := axisRatio_bounds hd
    have hd6 : 6 ≤ d := by
      by_contra hlow
      have hpow : (100 : ℝ) ^ d ≤ 100 ^ 5 := pow_le_pow_right₀ (by norm_num) (by omega)
      linarith
    exact mul_le_mul_of_nonneg_left (pow_le_pow_right₀ (by norm_num) hd6) (by norm_num)
  have hsq := h.abs_sum_sq_sub_le hd
  obtain ⟨k, hk, -⟩ := hnear.exists_pow (add_pos hr.x_pos hr.y_pos) (by norm_num)
  generalize hQ : roundedQuotient d x y D = Q at *
  lift Q to ℕ using hq.le
  have hq0 : 0 < Q := by exact_mod_cast hq
  rw [Int.cast_natCast] at hsq hq17
  have hq18 : (Q : ℝ) < 18 := by linarith
  have hgap := power_gap hq0 (Nat.lt_succ_iff.1 (by exact_mod_cast hq18)) hd' (2 * k - (4 + 4 * d))
  have hratio : (axisRatio d : ℝ) = 12 * 100 ^ d - 3 := by
    unfold axisRatio
    push_cast
    ring
  rw [hratio] at hsq
  rw [Int.cast_add] at hk
  have hlogs := abs_logb_sub_le (by positivity) (by norm_num)
    (sum_sq_close (Nat.cast_nonneg Q) (by positivity) hlarge hk hsq)
  rw [logb_multiple hq0, Real.logb_pow, Real.logb_pow, Real.logb_self_eq_one one_lt_two] at hlogs
  push_cast at hgap hlogs
  have hsame : 2 * ((k : ℝ) * 1) - (Real.logb 2 (9 * Q) + 4 * d * Real.logb 2 5 + (4 + 4 * d))
      = 2 * k - (4 + 4 * d) - (Real.logb 2 (9 * Q) + 4 * d * Real.logb 2 5) := by ring
  rw [hsame] at hlogs
  linarith

/-- Nor is one at so high a precision that the defect is below the ratio. -/
theorem RoundedSquares.not_nearlySingular_of_precise (hp : 7 * d + 7 ≤ p) : ¬ NearlySingular d x y D := by
  intro h
  obtain ⟨hM, hM'⟩ := axisRatio_bounds hd
  have hP : 3 * (axisRatio d : ℝ) ≤ 2 ^ p := by
    calc 3 * (axisRatio d : ℝ) ≤ 2 ^ 7 * 128 ^ d := by
          have hpow : (100 : ℝ) ^ d ≤ 128 ^ d := pow_le_pow_left₀ (by norm_num) (by norm_num) d
          linarith
      _ = 2 ^ (7 * d + 7) := by
          rw [pow_add, pow_mul, mul_comm]
          norm_num
      _ ≤ 2 ^ p := pow_le_pow_right₀ one_le_two hp
  have hc := defect_coeff_le_of_le (by linarith : (32 : ℝ) ≤ 2 ^ p)
  have hdefect := hr.defect_mul_le
  have hlt := h.lt_defect hd
  have hx : (0 : ℝ) < x := by exact_mod_cast hr.x_pos
  have hy : (0 : ℝ) < y := by exact_mod_cast hr.y_pos
  generalize (2 : ℝ) ^ p = P at *
  generalize (axisRatio d : ℝ) = M at *
  have hP0 : 0 < P := by linarith
  have hmean : 4 * ((x : ℝ) * y) ≤ (x + y) ^ 2 := by linarith [sq_nonneg ((x : ℝ) - y)]
  have hDP : 20 * (D * P) ≤ 21 * ((x : ℝ) + y) ^ 2 := by
    have hchain : (D : ℝ) * P ^ 4 ≤ 21 / 5 * P ^ 3 * (x * y) :=
      hdefect.trans (mul_le_mul_of_nonneg_right hc (by positivity))
    have hcancel : (D : ℝ) * P ≤ 21 / 5 * (x * y) := by
      refine le_of_mul_le_mul_left ?_ (by positivity : 0 < P ^ 3)
      linarith
    linarith
  have hT : 0 < ((x : ℝ) + y) ^ 2 := by positivity
  generalize ((x : ℝ) + y) ^ 2 = T at *
  have hless : 20 * (P * (M * T)) < 42 * M ^ 2 * T := by
    calc 20 * (P * (M * T)) < 20 * (P * (2 * (D * (M - 1) ^ 2))) := by
          have := mul_lt_mul_of_pos_left hlt hP0
          linarith
      _ = 2 * (M - 1) ^ 2 * (20 * (D * P)) := by ring
      _ ≤ 2 * (M - 1) ^ 2 * (21 * T) := mul_le_mul_of_nonneg_left hDP (by positivity)
      _ ≤ 42 * M ^ 2 * T := by
          have hsq : (M - 1) ^ 2 ≤ M ^ 2 := pow_le_pow_left₀ (by linarith) (by linarith) 2
          have := mul_le_mul_of_nonneg_right hsq hT.le
          linarith
  have hmore := mul_le_mul_of_nonneg_right hP (mul_pos (by linarith : 0 < M) hT).le
  have hMT : 0 < M ^ 2 * T := by positivity
  linarith

/-- **The determinant is not far smaller than the product of the diagonal entries**, where the squares add up to
one as accurately as the precision allows. -/
theorem RoundedSquares.not_nearlySingular (hd' : d ≤ 214748364)
    (hlow : 5 ≤ p → p ≤ 41 → NearPower (8 / 2 ^ p) (x + y))
    (hhigh : 42 ≤ p → p < 7 * d + 7 → NearPower (1 / 2 ^ 39) (x + y)) : ¬ NearlySingular d x y D := by
  rcases Nat.lt_or_ge p (7 * d + 7) with hlt | hge
  · rcases Nat.lt_or_ge p 5 with h4 | h5
    · exact hr.not_nearlySingular_of_le_four hd (by omega)
    rcases Nat.lt_or_ge p 42 with h41 | h42
    · exact hr.not_nearlySingular_of_low hd h5 (by omega) (hlow h5 (by omega))
    · exact hr.not_nearlySingular_of_high hd hd' h42 (hhigh h42 hlt)
  · exact hr.not_nearlySingular_of_precise hd hge

end Precision

end CliffordT
