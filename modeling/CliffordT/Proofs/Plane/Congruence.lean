/-
A rounded matrix next to an exact form, through one change of the form.

`Near η a m F` says that the form of `m` is `F` up to the factor `η` at every point, and that the two
entries off the diagonal differ by at most `a`. An error of that kind is not made larger by a change of
the form: what a rounded congruence adds is relative to the form it comes from, with a factor that the
cancellation in the matrix and the size of the form determine.
-/
import CliffordT.Plane.Linear
import CliffordT.Proofs.BinFloat.Scaled
import CliffordT.Proofs.Plane.Form

namespace CliffordT

open BinFloat

namespace Mat2

/-! ## Rounded matrices and exact ones -/

structure HasPrec (p : Nat) (m : Mat2) : Prop where
  m00 : p ≤ m.m00.prec
  m01 : p ≤ m.m01.prec
  m10 : p ≤ m.m10.prec
  m11 : p ≤ m.m11.prec

/-- The entries are those of `R`, up to the relative error `e`. -/
structure Approximates (e : ℝ) (m : Mat2) (R : Matrix (Fin 2) (Fin 2) ℝ) : Prop where
  m00 : Within e m.m00.value (R 0 0)
  m01 : Within e m.m01.value (R 0 1)
  m10 : Within e m.m10.value (R 1 0)
  m11 : Within e m.m11.value (R 1 1)

/-- The value of the form of a matrix that need not be symmetric. -/
noncomputable def evalForm (m : Mat2) (x y : ℝ) : ℝ :=
  m.m00.value * x ^ 2 + (m.m01.value + m.m10.value) * x * y + m.m11.value * y ^ 2

/-- The form of the matrix is `F` up to the factor `η`, and the matrix is symmetric up to `a`. -/
structure Near (η a : ℝ) (m : Mat2) (F : Form) : Prop where
  eval : ∀ x y, |m.evalForm x y - F.eval x y| ≤ η * F.eval x y
  asym : |m.m01.value - m.m10.value| ≤ a

namespace Near

variable {η a : ℝ} {m : Mat2} {F : Form}

theorem mono {η' a' : ℝ} (hF : F.IsPos) (h : m.Near η a F) (hη : η ≤ η') (ha : a ≤ a') :
    m.Near η' a' F where
  eval x y := (h.eval x y).trans (mul_le_mul_of_nonneg_right hη (hF.eval_nonneg x y))
  asym := h.asym.trans ha

theorem m00_within (hF : F.IsPos) (h : m.Near η a F) : Within η m.m00.value F.p := by
  have h10 := h.eval 1 0
  simp only [evalForm, Form.eval] at h10
  unfold Within
  rw [abs_of_pos hF.p_pos]
  simpa using h10

theorem m11_within (hF : F.IsPos) (h : m.Near η a F) : Within η m.m11.value F.q := by
  have h01 := h.eval 0 1
  simp only [evalForm, Form.eval] at h01
  unfold Within
  rw [abs_of_pos hF.q_pos]
  simpa using h01

/-- The mean of the entries off the diagonal is found by polarization. -/
theorem abs_mean_sub_le (hF : F.IsPos) (h : m.Near η a F) :
    |(m.m01.value + m.m10.value) / 2 - F.b| ≤ η * F.size := by
  have hp := Real.sq_sqrt hF.p_pos.le
  have hq := Real.sq_sqrt hF.q_pos.le
  have hsize : F.size = √F.p * √F.q := Real.sqrt_mul hF.p_pos.le _
  have hpos := hF.size_pos
  have hplus := abs_le.1 (h.eval √F.q √F.p)
  have hminus := abs_le.1 (h.eval √F.q (-√F.p))
  simp only [evalForm, Form.eval, neg_sq, hp, hq] at hplus hminus
  have hprod : F.size * F.size = F.p * F.q := by
    rw [← sq]
    exact hF.size_sq
  have hscale : η * (F.size * F.size) = η * (F.p * F.q) := by rw [hprod]
  have hsplit : 4 * F.size * ((m.m01.value + m.m10.value) / 2 - F.b)
      = 2 * ((m.m01.value + m.m10.value) * √F.q * √F.p - 2 * F.b * √F.q * √F.p) := by
    rw [hsize]
    ring
  rw [← mul_le_mul_iff_right₀ (by positivity : 0 < 4 * F.size),
    ← abs_of_pos (by positivity : 0 < 4 * F.size), ← abs_mul,
    abs_of_pos (by positivity : 0 < 4 * F.size), hsplit]
  refine abs_le.2 ⟨?_, ?_⟩
  · linarith
  · linarith

theorem abs_m01_sub_le (hF : F.IsPos) (h : m.Near η a F) :
    |m.m01.value - F.b| ≤ η * F.size + a / 2 := by
  have hmean := h.abs_mean_sub_le hF
  have hasym := h.asym
  have hsplit : m.m01.value - F.b
      = ((m.m01.value + m.m10.value) / 2 - F.b) + (m.m01.value - m.m10.value) / 2 := by ring
  rw [hsplit]
  refine (abs_add_le _ _).trans (add_le_add hmean ?_)
  rw [abs_div, abs_two]
  linarith

theorem abs_m10_sub_le (hF : F.IsPos) (h : m.Near η a F) :
    |m.m10.value - F.b| ≤ η * F.size + a / 2 := by
  have hmean := h.abs_mean_sub_le hF
  have hasym := h.asym
  have hsplit : m.m10.value - F.b
      = ((m.m01.value + m.m10.value) / 2 - F.b) - (m.m01.value - m.m10.value) / 2 := by ring
  rw [hsplit]
  refine (abs_sub _ _).trans (add_le_add hmean ?_)
  rw [abs_div, abs_two]
  linarith

theorem nonneg (hF : F.IsPos) (h : m.Near η a F) : 0 ≤ η :=
  nonneg_of_mul_nonneg_left ((abs_nonneg _).trans (h.eval 1 0)) (hF.eval_pos (.inl one_ne_zero))

/-- The entries off the diagonal are not larger than twice the size. -/
theorem abs_off_diagonal_le (hF : F.IsPos) (h : m.Near η a F) (hη : η ≤ 1 / 4) (ha : a ≤ F.size) :
    |m.m01.value| ≤ 2 * F.size ∧ |m.m10.value| ≤ 2 * F.size := by
  have hb := hF.abs_b_le
  have hηsize := mul_le_mul_of_nonneg_right hη hF.size_pos.le
  have hoff {v : ℝ} (hv : |v - F.b| ≤ η * F.size + a / 2) : |v| ≤ 2 * F.size := by
    linarith [abs_sub_abs_le_abs_sub v F.b, hF.size_pos]
  exact ⟨hoff (h.abs_m01_sub_le hF), hoff (h.abs_m10_sub_le hF)⟩

end Near

/-! ## One entry of a congruence -/

def bilinear (a00 a01 a10 a11 x₀ x₁ y₀ y₁ : ℝ) : ℝ :=
  (x₀ * a00 + x₁ * a10) * y₀ + (x₀ * a01 + x₁ * a11) * y₁

/-- The scale of the errors of `xᵀ A y`: the same with all absolute values. -/
def bilinearScale (a00 a01 a10 a11 x₀ x₁ y₀ y₁ : ℝ) : ℝ :=
  bilinear |a00| |a01| |a10| |a11| |x₀| |x₁| |y₀| |y₁|

section Entry

variable {p : Nat} {e : ℝ} {a00 a01 a10 a11 x₀ x₁ y₀ y₁ : BinFloat} {r₀ r₁ s₀ s₁ : ℝ}

/-- The rounding errors of `xᵀ A y`, for columns `x` and `y` with errors of their own. -/
theorem entry_close (hp₀ : p ≤ x₀.prec) (hp₁ : p ≤ x₁.prec) (he : 0 ≤ e)
    (hsmall : 3 * e + 10 * roundoff p ≤ 1 / 4) (hx₀ : Within e x₀.value r₀)
    (hx₁ : Within e x₁.value r₁) (hy₀ : Within e y₀.value s₀) (hy₁ : Within e y₁.value s₁) :
    |((x₀ * a00 + x₁ * a10) * y₀ + (x₀ * a01 + x₁ * a11) * y₁).value
        - bilinear a00.value a01.value a10.value a11.value r₀ r₁ s₀ s₁|
      ≤ (3 * e + 10 * roundoff p)
        * bilinearScale a00.value a01.value a10.value a11.value r₀ r₁ s₀ s₁ := by
  have hu := roundoff_pos p
  have hprod {b : BinFloat} : p ≤ (x₀ * b).prec := by
    rw [prec_mul]
    exact le_max_of_le_left hp₀
  have hsum {b c : BinFloat} : p ≤ (x₀ * b + x₁ * c).prec := by
    rw [prec_add]
    exact le_max_of_le_left hprod
  have hleft {b c : BinFloat} : Close (e + 5 * roundoff p) (|r₀| * |b.value| + |r₁| * |c.value|)
      (x₀ * b + x₁ * c).value (r₀ * b.value + r₁ * c.value) :=
    (Close.value_mul_add_mul hp₀ hp₁ he le_rfl (by linarith) hx₀ (.refl le_rfl _) hx₁
      (.refl le_rfl _)).mono (by linarith)
  have hright {b c y : BinFloat} {s : ℝ} (hy : Within e y.value s) :
      Close (3 * e + 7 * roundoff p) ((|r₀| * |b.value| + |r₁| * |c.value|) * |s|)
        ((x₀ * b + x₁ * c) * y).value ((r₀ * b.value + r₁ * c.value) * s) :=
    (Close.value_mul (p := p) (le_max_of_le_left hsum) (by linarith) (by linarith) he (by linarith) hleft
      (.of_within hy)).mono (by linarith)
  have hfst {b c y : BinFloat} : p ≤ ((x₀ * b + x₁ * c) * y).prec := by
    rw [prec_mul]
    exact le_max_of_le_left hsum
  exact ((Close.value_add (p := p) (le_max_of_le_left hfst) (by linarith) (hright hy₀)
    (hright hy₁)).mono (by linarith)).sub_le

end Entry

/-- The scale in the weights of a form that the matrix is near to. -/
theorem Near.bilinearScale_le {η a : ℝ} {m : Mat2} {F : Form} (hF : F.IsPos) (h : m.Near η a F)
    (hη : η ≤ 1 / 4) (ha : a ≤ F.size) (x₀ x₁ y₀ y₁ : ℝ) :
    bilinearScale m.m00.value m.m01.value m.m10.value m.m11.value x₀ x₁ y₀ y₁
      ≤ 2 * (F.weight x₀ x₁ * F.weight y₀ y₁) := by
  have hp := Real.sq_sqrt hF.p_pos.le
  have hq := Real.sq_sqrt hF.q_pos.le
  have hsize : F.size = √F.p * √F.q := Real.sqrt_mul hF.p_pos.le _
  have h00 : |m.m00.value| ≤ 2 * (√F.p * √F.p) := by
    have := (h.m00_within hF).abs_le
    rw [abs_of_pos hF.p_pos] at this
    nlinarith [hF.p_pos]
  have h11 : |m.m11.value| ≤ 2 * (√F.q * √F.q) := by
    have := (h.m11_within hF).abs_le
    rw [abs_of_pos hF.q_pos] at this
    nlinarith [hF.q_pos]
  obtain ⟨h01, h10⟩ := h.abs_off_diagonal_le hF hη ha
  rw [hsize] at h01 h10
  unfold bilinearScale bilinear Form.weight
  have e00 := mul_le_mul_of_nonneg_left h00 (mul_nonneg (abs_nonneg x₀) (abs_nonneg y₀))
  have e01 := mul_le_mul_of_nonneg_left h01 (mul_nonneg (abs_nonneg x₀) (abs_nonneg y₁))
  have e10 := mul_le_mul_of_nonneg_left h10 (mul_nonneg (abs_nonneg x₁) (abs_nonneg y₀))
  have e11 := mul_le_mul_of_nonneg_left h11 (mul_nonneg (abs_nonneg x₁) (abs_nonneg y₁))
  linarith

/-! ## The congruence -/

noncomputable def exactEntry (d : Mat2) (R : Matrix (Fin 2) (Fin 2) ℝ) (i j : Fin 2) : ℝ :=
  bilinear d.m00.value d.m01.value d.m10.value d.m11.value (R 0 i) (R 1 i) (R 0 j) (R 1 j)

/-- The form of `A` at the image of a point, through the entries of `Rᵀ A R`. -/
theorem evalForm_image (d : Mat2) (R : Matrix (Fin 2) (Fin 2) ℝ) (x y : ℝ) :
    d.evalForm (R 0 0 * x + R 0 1 * y) (R 1 0 * x + R 1 1 * y)
      = d.exactEntry R 0 0 * x ^ 2 + (d.exactEntry R 0 1 + d.exactEntry R 1 0) * x * y
        + d.exactEntry R 1 1 * y ^ 2 := by
  simp only [evalForm, exactEntry, bilinear]
  ring

theorem exactEntry_sub (d : Mat2) (R : Matrix (Fin 2) (Fin 2) ℝ) :
    d.exactEntry R 0 1 - d.exactEntry R 1 0 = (d.m01.value - d.m10.value) * R.det := by
  rw [Matrix.det_fin_two]
  simp only [exactEntry, bilinear]
  ring

/-- The four entries of `n` are those of `Rᵀ A R`, up to `2ε` times the weights of the columns. -/
structure EntriesNear (ε : ℝ) (n d : Mat2) (R : Matrix (Fin 2) (Fin 2) ℝ) (F : Form) : Prop where
  m00 : |n.m00.value - d.exactEntry R 0 0|
    ≤ ε * (2 * (F.weight (R 0 0) (R 1 0) * F.weight (R 0 0) (R 1 0)))
  m01 : |n.m01.value - d.exactEntry R 0 1|
    ≤ ε * (2 * (F.weight (R 0 0) (R 1 0) * F.weight (R 0 1) (R 1 1)))
  m10 : |n.m10.value - d.exactEntry R 1 0|
    ≤ ε * (2 * (F.weight (R 0 1) (R 1 1) * F.weight (R 0 0) (R 1 0)))
  m11 : |n.m11.value - d.exactEntry R 1 1|
    ≤ ε * (2 * (F.weight (R 0 1) (R 1 1) * F.weight (R 0 1) (R 1 1)))

section Congruence

variable {p : Nat} {e ε η a K : ℝ} {m n d : Mat2} {R : Matrix (Fin 2) (Fin 2) ℝ} {F : Form}

theorem hasPrec_congruence (hm : m.HasPrec p) : (m.congruence d).HasPrec p := by
  have h00 := hm.m00
  have h01 := hm.m01
  constructor
  all_goals
    show p ≤ (_ * _ + _ * _ : BinFloat).prec
    simp only [prec_add, prec_mul]
    exact le_max_of_le_left (le_max_of_le_right (by assumption))

theorem entriesNear_congruence (hF : F.IsPos) (hd : d.Near η a F) (hη : η ≤ 1 / 4)
    (ha : a ≤ F.size) (hm : m.Approximates e R) (hprec : m.HasPrec p) (he : 0 ≤ e)
    (hsmall : 3 * e + 10 * roundoff p ≤ 1 / 4) :
    EntriesNear (3 * e + 10 * roundoff p) (m.congruence d) d R F := by
  have hu := roundoff_pos p
  have hscale (i j : Fin 2) := mul_le_mul_of_nonneg_left
    (hd.bilinearScale_le hF hη ha (R 0 i) (R 1 i) (R 0 j) (R 1 j))
    (by linarith : 0 ≤ 3 * e + 10 * roundoff p)
  constructor
  · exact (entry_close hprec.m00 hprec.m10 he hsmall hm.m00 hm.m10 hm.m00 hm.m10).trans (hscale 0 0)
  · exact (entry_close hprec.m00 hprec.m10 he hsmall hm.m00 hm.m10 hm.m01 hm.m11).trans (hscale 0 1)
  · exact (entry_close hprec.m01 hprec.m11 he hsmall hm.m01 hm.m11 hm.m00 hm.m10).trans (hscale 1 0)
  · exact (entry_close hprec.m01 hprec.m11 he hsmall hm.m01 hm.m11 hm.m01 hm.m11).trans (hscale 1 1)

/-- The errors of the entries, taken together in the form. -/
theorem EntriesNear.abs_evalForm_sub_le (h : EntriesNear ε n d R F) (x y : ℝ) :
    |n.evalForm x y - d.evalForm (R 0 0 * x + R 0 1 * y) (R 1 0 * x + R 1 1 * y)|
      ≤ 2 * ε * (F.weight (R 0 0) (R 1 0) * |x| + F.weight (R 0 1) (R 1 1) * |y|) ^ 2 := by
  rw [evalForm_image]
  have hsplit : n.evalForm x y - (d.exactEntry R 0 0 * x ^ 2
        + (d.exactEntry R 0 1 + d.exactEntry R 1 0) * x * y + d.exactEntry R 1 1 * y ^ 2)
      = (n.m00.value - d.exactEntry R 0 0) * (x * x) + (n.m01.value - d.exactEntry R 0 1) * (x * y)
        + (n.m10.value - d.exactEntry R 1 0) * (x * y)
        + (n.m11.value - d.exactEntry R 1 1) * (y * y) := by
    unfold evalForm
    ring
  have h00 := mul_le_mul_of_nonneg_right h.m00 (mul_nonneg (abs_nonneg x) (abs_nonneg x))
  have h01 := mul_le_mul_of_nonneg_right h.m01 (mul_nonneg (abs_nonneg x) (abs_nonneg y))
  have h10 := mul_le_mul_of_nonneg_right h.m10 (mul_nonneg (abs_nonneg x) (abs_nonneg y))
  have h11 := mul_le_mul_of_nonneg_right h.m11 (mul_nonneg (abs_nonneg y) (abs_nonneg y))
  rw [hsplit]
  have htri₁ := abs_add_le ((n.m00.value - d.exactEntry R 0 0) * (x * x)
    + (n.m01.value - d.exactEntry R 0 1) * (x * y) + (n.m10.value - d.exactEntry R 1 0) * (x * y))
    ((n.m11.value - d.exactEntry R 1 1) * (y * y))
  have htri₂ := abs_add_le ((n.m00.value - d.exactEntry R 0 0) * (x * x)
    + (n.m01.value - d.exactEntry R 0 1) * (x * y)) ((n.m10.value - d.exactEntry R 1 0) * (x * y))
  have htri₃ := abs_add_le ((n.m00.value - d.exactEntry R 0 0) * (x * x))
    ((n.m01.value - d.exactEntry R 0 1) * (x * y))
  simp only [abs_mul] at htri₁ htri₂ htri₃
  linarith

/-- A rounded congruence adds to the errors in proportion to the size of the form. -/
theorem Near.congruence (hF : F.IsPos) (hd : d.Near η a F) (hη : η ≤ 1 / 4) (ha : a ≤ F.size)
    (hm : m.Approximates e R) (hprec : m.HasPrec p) (he : 0 ≤ e)
    (hsmall : 3 * e + 10 * roundoff p ≤ 1 / 4) (hK : F.Tame K R) :
    (m.congruence d).Near (η + 8 * K ^ 2 * (3 * e + 10 * roundoff p) * (F.size ^ 2 / F.det))
      (a + 4 * K * (3 * e + 10 * roundoff p) * F.size)
      (F.pull R) := by
  have hentries := entriesNear_congruence hF hd hη ha hm hprec he hsmall
  have hε0 : 0 ≤ 3 * e + 10 * roundoff p := by linarith [roundoff_pos p]
  generalize m.congruence d = n at hentries ⊢
  generalize 3 * e + 10 * roundoff p = ε at hentries hε0 ⊢
  constructor
  · intro x y
    have hround := hentries.abs_evalForm_sub_le x y
    have hweight := hK.weight_columns_le hF x y
    have hnonneg : 0 ≤ F.weight (R 0 0) (R 1 0) * |x| + F.weight (R 0 1) (R 1 1) * |y| :=
      add_nonneg (mul_nonneg (F.weight_nonneg _ _) (abs_nonneg x))
        (mul_nonneg (F.weight_nonneg _ _) (abs_nonneg y))
    have hsq := pow_le_pow_left₀ hnonneg hweight 2
    rw [Form.eval_pull]
    generalize F.weight (R 0 0) (R 1 0) * |x| + F.weight (R 0 1) (R 1 1) * |y| = s at hround hsq
    generalize R 0 0 * x + R 0 1 * y = w₀ at hround hsq ⊢
    generalize R 1 0 * x + R 1 1 * y = w₁ at hround hsq ⊢
    have hstep : 2 * ε * s ^ 2 ≤ 8 * K ^ 2 * ε * (F.size ^ 2 / F.det) * F.eval w₀ w₁ :=
      calc 2 * ε * s ^ 2 ≤ 2 * ε * (K * F.weight w₀ w₁) ^ 2 :=
            mul_le_mul_of_nonneg_left hsq (by linarith)
        _ = 2 * ε * K ^ 2 * F.weight w₀ w₁ ^ 2 := by ring
        _ ≤ 2 * ε * K ^ 2 * (4 * (F.size ^ 2 / F.det) * F.eval w₀ w₁) :=
            mul_le_mul_of_nonneg_left (hF.weight_column_sq_le w₀ w₁) (by positivity)
        _ = 8 * K ^ 2 * ε * (F.size ^ 2 / F.det) * F.eval w₀ w₁ := by ring
    have htri := abs_sub_le (n.evalForm x y) (d.evalForm w₀ w₁) (F.eval w₀ w₁)
    linarith [hd.eval w₀ w₁]
  · have hexact : |(d.m01.value - d.m10.value) * R.det| ≤ a := by
      rw [abs_mul, hK.abs_det, mul_one]
      exact hd.asym
    have hsplit : n.m01.value - n.m10.value
        = ((n.m01.value - d.exactEntry R 0 1) - (n.m10.value - d.exactEntry R 1 0))
          + (d.m01.value - d.m10.value) * R.det := by
      rw [← exactEntry_sub]
      ring
    have hmul := mul_le_mul_of_nonneg_left (hK.weight_mul_weight_le hF)
      (by linarith : 0 ≤ 4 * ε)
    have htri₁ := abs_add_le ((n.m01.value - d.exactEntry R 0 1)
      - (n.m10.value - d.exactEntry R 1 0)) ((d.m01.value - d.m10.value) * R.det)
    have htri₂ := abs_sub (n.m01.value - d.exactEntry R 0 1) (n.m10.value - d.exactEntry R 1 0)
    rw [hsplit]
    linarith [hentries.m01, hentries.m10]

end Congruence

end Mat2

end CliffordT
