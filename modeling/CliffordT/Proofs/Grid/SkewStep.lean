/-
What each operator of the table does to the skew, exactly.

With `F` and `G` for the two forms, `b` and `β` for their entries off the diagonal, and `X`, `Y` for the
square roots of the ratios of their diagonals, every operator takes `b` to a multiple of a number
`b - x e`, where `e² = b² + d`, and `β` likewise. When `b` is not negative that is at most
`(1 - x)² b² + x² d` in square, so that an operator is good as long as `x` and its counterpart `y` are
neither near zero nor much above one. The bounds of `X` and `Y` that a row of the table gives do that, and
the shears are by an amount that keeps `x` between fixed bounds however large `X` is. What is lost by a `b`
that is slightly negative is at most `6 x ν`.
-/
import CliffordT.Proofs.Grid.Rounded

namespace CliffordT

open Form

/-! ## The key inequality -/

/-- How far below zero an entry may be that counts as not negative. -/
noncomputable def slightness : ℝ := 1 / 2 ^ 20

/-- With `e` for `√(b² + d)`, moving `b` towards zero by `x e`. -/
theorem sq_sub_mul_le {b e x d : ℝ} (he : e ^ 2 = b ^ 2 + d) (he0 : 0 ≤ e) (hd0 : 0 ≤ d)
    (hd : d ≤ 101 / 100) (hb : -slightness ≤ b) (hx : 0 ≤ x) :
    (b - x * e) ^ 2 ≤ (1 - x) ^ 2 * b ^ 2 + 101 / 100 * x ^ 2 + 6 * x * slightness := by
  have hν : slightness = 1 / 2 ^ 20 := rfl
  have hsplit : (b - x * e) ^ 2 = (1 - x) ^ 2 * b ^ 2 + x ^ 2 * d + 2 * x * (b ^ 2 - b * e) := by
    linear_combination x ^ 2 * he
  have hxd : x ^ 2 * d ≤ x ^ 2 * (101 / 100) := mul_le_mul_of_nonneg_left hd (sq_nonneg x)
  have hrest : b ^ 2 - b * e ≤ 3 * slightness := by
    rcases le_or_gt 0 b with h | h
    · have hbe : b ≤ e := abs_le_of_sq_le_sq' (by linarith) he0 |>.2
      have hprod := mul_nonneg h (sub_nonneg.2 hbe)
      linarith
    · have hb2 : b ^ 2 ≤ slightness ^ 2 := sq_le_sq' hb (by linarith)
      have he2 : e ≤ 2 := by
        refine (abs_le_of_sq_le_sq' ?_ zero_le_two).2
        rw [hν] at hb2
        linarith
      have hbe : -b * e ≤ slightness * 2 := mul_le_mul (by linarith) he2 he0 (by linarith)
      rw [hν] at hb2 hbe ⊢
      linarith
  have := mul_le_mul_of_nonneg_left hrest (by linarith : 0 ≤ 2 * x)
  linarith

/-! ## What a step does -/

/-- An operator that takes more than a tenth of the skew of two forms away, with what is needed to
compute with it: it is a special grid operator, nothing cancels in its entries or its action by more than a
constant factor, and the first diagonal entry of each form changes by no more than the size of the form
says. -/
structure Reduces (op : GridOperator) (F G : Form) : Prop where
  grid : op.IsGrid
  special : op.isSpecial = true
  stable : op.IsStable
  stable_dot : op.dot.IsStable
  tame : F.Tame 5 op.real
  tame_dot : G.Tame 5 op.dot.real
  column : 1 / 32 ≤ op.real 0 0 ^ 2 + (F.ratio * op.real 1 0) ^ 2 ∧
    op.real 0 0 ^ 2 + (F.ratio * op.real 1 0) ^ 2 ≤ 32
  column_dot : 1 / 32 ≤ op.dot.real 0 0 ^ 2 + (G.ratio * op.dot.real 1 0) ^ 2 ∧
    op.dot.real 0 0 ^ 2 + (G.ratio * op.dot.real 1 0) ^ 2 ≤ 32
  skew : (F.pull op.real).b ^ 2 + (G.pull op.dot.real).b ^ 2 ≤ 88 / 100 * (F.b ^ 2 + G.b ^ 2)

theorem GridOperator.dot_dot (g : GridOperator) : g.dot.dot = g := by
  ext
  all_goals simp [GridOperator.dot]

theorem GridOperator.isSpecial_dot (g : GridOperator) : g.dot.isSpecial = g.isSpecial := by
  have hparts : g.dot.determinantParts
      = (g.determinantParts.1, -g.determinantParts.2.1, g.determinantParts.2.2) := by
    simp only [GridOperator.determinantParts, GridOperator.dot, Prod.mk.injEq]
    refine ⟨trivial, ?_, ?_⟩
    · ring
    · ring
  have hneg (n : Int) : (-n == 0) = (n == 0) := by
    rw [Bool.eq_iff_iff]
    simp
  unfold GridOperator.isSpecial
  rw [hparts]
  simp only [hneg]

/-- The conjugate operator does the same for the forms exchanged. -/
theorem Reduces.dot {op : GridOperator} {F G : Form} (h : Reduces op G F) : Reduces op.dot F G where
  grid := h.grid.dot
  special := by rw [GridOperator.isSpecial_dot, h.special]
  stable := h.stable_dot
  stable_dot := by
    rw [GridOperator.dot_dot]
    exact h.stable
  tame := h.tame_dot
  tame_dot := by
    rw [GridOperator.dot_dot]
    exact h.tame
  column := h.column_dot
  column_dot := by
    rw [GridOperator.dot_dot]
    exact h.column
  skew := by
    rw [GridOperator.dot_dot]
    linarith [h.skew]

/-- The amounts `x` and `y` move two entries so far towards zero, and no farther, that their squares fall
to the part `ρ` altogether. -/
structure Moderate (ρ x y : ℝ) : Prop where
  x_nonneg : 0 ≤ x
  y_nonneg : 0 ≤ y
  x_le : x ≤ 2
  y_le : y ≤ 2
  exists_bound : ∃ κ, (1 - x) ^ 2 ≤ κ ∧ (1 - y) ^ 2 ≤ κ ∧
    101 / 100 * (x ^ 2 + y ^ 2) + 1 / 1000 ≤ (ρ - κ) * (149 / 10)

/-- Amounts between `l` and `u`, where the sum of the squares is bounded by `t`. -/
theorem moderate_of_le {ρ x y l u t : ℝ} (κ : ℝ) (hl : 0 ≤ l) (hu : u ≤ 2) (hx : l ≤ x)
    (hx' : x ≤ u) (hy : l ≤ y) (hy' : y ≤ u) (ht : x ^ 2 + y ^ 2 ≤ t) (hκ : (1 - l) ^ 2 ≤ κ)
    (hκ' : (1 - u) ^ 2 ≤ κ) (h : 101 / 100 * t + 1 / 1000 ≤ (ρ - κ) * (149 / 10)) :
    Moderate ρ x y := by
  -- a square between two numbers is bounded by one of their squares
  have hsq {v : ℝ} (hv : l ≤ v) (hv' : v ≤ u) : (1 - v) ^ 2 ≤ κ := by
    rcases le_total v 1 with h1 | h1
    · exact (pow_le_pow_left₀ (by linarith) (by linarith) 2).trans hκ
    · rw [← neg_sub, neg_sq] at hκ' ⊢
      exact (pow_le_pow_left₀ (by linarith) (by linarith) 2).trans hκ'
  exact ⟨hl.trans hx, hl.trans hy, hx'.trans hu, hy'.trans hu, κ, hsq hx hx', hsq hy hy',
    by linarith⟩

/-- The two forms as they are when an operator is chosen: of the regime, and with a skew that is worth
a reduction. -/
structure Skewed (F G : Form) : Prop where
  pos : F.IsPos
  pos' : G.IsPos
  det_le : F.det ≤ 101 / 100
  det_le' : G.det ≤ 101 / 100
  skew_ge : 149 / 10 ≤ F.b ^ 2 + G.b ^ 2

namespace Skewed

variable {F G : Form} {x y : ℝ}

theorem symm (h : Skewed F G) : Skewed G F :=
  ⟨h.pos', h.pos, h.det_le', h.det_le, by linarith [h.skew_ge]⟩

/-- Two entries are moved by `x` and `y` times the sizes. -/
theorem moved_le {ρ : ℝ} (h : Skewed F G) {b β : ℝ} (hb2 : b ^ 2 = F.b ^ 2) (hβ2 : β ^ 2 = G.b ^ 2)
    (hb : -slightness ≤ b) (hβ : -slightness ≤ β) (hxy : Moderate ρ x y) :
    (b - x * F.size) ^ 2 + (β - y * G.size) ^ 2 ≤ ρ * (F.b ^ 2 + G.b ^ 2) := by
  have hν : slightness = 1 / 2 ^ 20 := rfl
  obtain ⟨hx, hy, hx2, hy2, κ, hκx, hκy, hκ⟩ := hxy
  have h1 := sq_sub_mul_le (hb2.symm ▸ h.pos.size_sq') h.pos.size_pos.le h.pos.det_pos.le h.det_le hb hx
  have h2 := sq_sub_mul_le (hβ2.symm ▸ h.pos'.size_sq') h.pos'.size_pos.le h.pos'.det_pos.le
    h.det_le' hβ hy
  have hsmall : 6 * x * slightness + 6 * y * slightness ≤ 1 / 1000 := by
    rw [hν]
    linarith
  have hkx := mul_le_mul_of_nonneg_right hκx (sq_nonneg b)
  have hky := mul_le_mul_of_nonneg_right hκy (sq_nonneg β)
  rw [hb2] at h1 hkx
  rw [hβ2] at h2 hky
  have hκ0 : 0 ≤ ρ - κ := by
    have := sq_nonneg x
    have := sq_nonneg y
    linarith
  have hS := mul_le_mul_of_nonneg_left h.skew_ge hκ0
  linarith

end Skewed

/-! ## The operators of the table -/

namespace GridOperator

theorem inv_sqrt_two_bounds : 0.70710 < 1 / √2 ∧ 1 / √2 < 0.70711 := by
  have h := sqrt_two_bounds
  have htwo := ZOmega.sqrt_two_eq
  constructor
  · linarith [h.1]
  · linarith [h.2]

section Rotation

variable {F G : Form}

theorem pull_rotation_b (F : Form) : (F.pull rotation.real).b = (F.q - F.p) / 2 := by
  have hsq := ZOmega.inv_sqrt_two_sq
  simp only [Form.pull, real_00, real_01, real_10, real_11, realEntry, rotation]
  push_cast
  generalize 1 / √2 = r at hsq ⊢
  linear_combination (F.q - F.p) * hsq

theorem pull_rotation_dot_b (F : Form) : (F.pull rotation.dot.real).b = (F.q - F.p) / 2 := by
  have hsq := ZOmega.inv_sqrt_two_sq
  simp only [Form.pull, real_00, real_01, real_10, real_11, realEntry, rotation, GridOperator.dot]
  push_cast
  generalize 1 / √2 = r at hsq ⊢
  linear_combination (F.q - F.p) * hsq

/-- An operator is tame where the products of its entries are small against the ratio. -/
theorem tame_of_products (hF : F.IsPos) {R : Matrix (Fin 2) (Fin 2) ℝ} {s t : ℝ} (hdet : |R.det| = 1)
    (hsum : |R 0 0 * R 1 1| + |R 0 1 * R 1 0| ≤ 1.42) (hs : |R 1 0 * R 1 1| = s)
    (ht : |R 0 0 * R 0 1| = t) (hsX : 2 * s * F.ratio ≤ 3.58) (htX : 2 * t ≤ 3.58 * F.ratio) :
    F.Tame 5 R := by
  refine ⟨hdet, ?_, ?_⟩
  · rw [hs]
    linarith
  · have hdiv : 2 * t / F.ratio ≤ 3.58 := (div_le_iff₀ hF.ratio_pos).2 htX
    rw [ht]
    linarith

/-- The entries of the rotation and of its conjugate, up to sign. -/
theorem rotation_tame (hF : F.IsPos) (hX : F.ratio ≤ 2.027) (hX' : 1 ≤ 2.027 * F.ratio)
    {R : Matrix (Fin 2) (Fin 2) ℝ} (h00 : |R 0 0| = 1 / √2) (h01 : |R 0 1| = 1 / √2)
    (h10 : |R 1 0| = 1 / √2) (h11 : |R 1 1| = 1 / √2) (hdet : |R.det| = 1) : F.Tame 5 R := by
  have hsq := ZOmega.inv_sqrt_two_sq
  have hprod {x y : ℝ} (hx : |x| = 1 / √2) (hy : |y| = 1 / √2) : |x * y| = 1 / 2 := by
    rw [abs_mul, hx, hy, hsq]
  refine tame_of_products hF hdet ?_ (hprod h10 h11) (hprod h00 h01) (by linarith) (by linarith)
  rw [hprod h00 h11, hprod h01 h10]
  norm_num

theorem rotation_column (hF : F.IsPos) (hX : F.ratio ≤ 2.027) {a b : ℝ} (ha : a ^ 2 = 1 / 2)
    (hb : b ^ 2 = 1 / 2) : 1 / 32 ≤ a ^ 2 + (F.ratio * b) ^ 2 ∧ a ^ 2 + (F.ratio * b) ^ 2 ≤ 32 := by
  have hX2 : F.ratio ^ 2 ≤ 2.027 ^ 2 := pow_le_pow_left₀ hF.ratio_pos.le hX 2
  rw [mul_pow, ha, hb]
  constructor
  · linarith [sq_nonneg F.ratio]
  · linarith

/-- **The rotation**, for two exponents near zero. -/
theorem rotation_reduces (h : Skewed F G) (hX : F.ratio ≤ 2.027) (hX' : 1 ≤ 2.027 * F.ratio)
    (hY : G.ratio ≤ 2.027) (hY' : 1 ≤ 2.027 * G.ratio) : Reduces rotation F G := by
  have hsq : (1 / √2 : ℝ) ^ 2 = 1 / 2 := by rw [sq, ZOmega.inv_sqrt_two_sq]
  have hspecial : rotation.isSpecial = true := by decide
  have hspecial' : rotation.dot.isSpecial = true := by decide
  refine ⟨by decide, hspecial, ?_, ?_, ?_, ?_, ?_, ?_, ?_⟩
  · exact ⟨isStableEntry_root _, isStableEntry_root _, isStableEntry_root _, isStableEntry_root _⟩
  · exact ⟨isStableEntry_root _, isStableEntry_root _, isStableEntry_root _, isStableEntry_root _⟩
  · refine rotation_tame h.pos hX hX' ?_ ?_ ?_ ?_ (isSpecial_iff.1 hspecial)
    all_goals simp [rotation, realEntry]
  · refine rotation_tame h.pos' hY hY' ?_ ?_ ?_ ?_ (isSpecial_iff.1 hspecial')
    all_goals simp [rotation, realEntry, GridOperator.dot]
  · refine rotation_column h.pos hX ?_ ?_
    all_goals simp [rotation, realEntry]
  · refine rotation_column h.pos' hY ?_ ?_
    all_goals simp [rotation, realEntry, GridOperator.dot]
  · -- the difference of the diagonal entries, against their product
    have hdiff {F : Form} (hF : F.IsPos) (hX : F.ratio ≤ 2.027) (hX' : 1 ≤ 2.027 * F.ratio) :
        ((F.q - F.p) / 2) ^ 2 ≤ 0.59 * F.size ^ 2 := by
      have hpos := hF.ratio_pos
      have hratio : (F.ratio - 1 / F.ratio) ^ 2 ≤ 2.36 := by
        have hinv : F.ratio * (1 / F.ratio) = 1 := mul_one_div_cancel hpos.ne'
        have hinv0 : 0 < 1 / F.ratio := by positivity
        have hle : 1 / F.ratio ≤ 2.027 := by
          rw [div_le_iff₀ hpos]
          linarith
        generalize 1 / F.ratio = w at hinv hinv0 hle ⊢
        have hX2 : F.ratio ^ 2 ≤ 2.027 ^ 2 := pow_le_pow_left₀ hpos.le hX 2
        have hw2 : w ^ 2 ≤ 2.027 ^ 2 := pow_le_pow_left₀ hinv0.le hle 2
        have hprod : F.ratio ^ 2 * w ^ 2 = 1 := by rw [← mul_pow, hinv, one_pow]
        have hmul := mul_nonneg (sub_nonneg.2 hX2) (sub_nonneg.2 hw2)
        have hsq : (F.ratio - w) ^ 2 = F.ratio ^ 2 + w ^ 2 - 2 := by linear_combination -2 * hinv
        rw [hsq]
        linarith
      have hsplit : (F.q - F.p) / 2 = F.size * (F.ratio - 1 / F.ratio) / 2 := by
        rw [hF.q_eq, hF.p_eq]
        ring
      rw [hsplit]
      have := mul_le_mul_of_nonneg_left hratio (sq_nonneg F.size)
      linarith
    rw [pull_rotation_b, pull_rotation_dot_b]
    have h1 := hdiff h.pos hX hX'
    have h2 := hdiff h.pos' hY hY'
    rw [h.pos.size_sq'] at h1
    rw [h.pos'.size_sq'] at h2
    linarith [h.det_le, h.det_le', h.skew_ge]

end Rotation

section K

variable {F G : Form}

theorem pull_k_b (F : Form) :
    (F.pull k.real).b = F.p * (1 / √2 - 1 / 2) - 2 * (1 / √2) * F.b + F.q * (1 / √2 + 1 / 2) := by
  have hsq := ZOmega.inv_sqrt_two_sq
  simp only [Form.pull, real_00, real_01, real_10, real_11, realEntry, k]
  push_cast
  generalize 1 / √2 = r at hsq ⊢
  linear_combination (F.q - F.p) * hsq

theorem pull_k_dot_b (F : Form) : (F.pull k.dot.real).b
    = 2 * (1 / √2) * F.b - F.p * (1 / √2 + 1 / 2) - F.q * (1 / √2 - 1 / 2) := by
  have hsq := ZOmega.inv_sqrt_two_sq
  simp only [Form.pull, real_00, real_01, real_10, real_11, realEntry, k, GridOperator.dot]
  push_cast
  generalize 1 / √2 = r at hsq ⊢
  linear_combination (F.q - F.p) * hsq

theorem k_isStable : k.IsStable ∧ k.dot.IsStable := by
  have hr := inv_sqrt_two_bounds
  have hentry {x y : Int} (hx : x = 1 ∨ x = -1) (hy : y = 1 ∨ y = -1) : IsStableEntry x y := by
    have habs : 1 - 1 / √2 ≤ |realEntry x y| := by
      unfold realEntry
      rcases hx with rfl | rfl
      all_goals
        rcases hy with rfl | rfl
        all_goals
          push_cast
          first
          | exact le_abs.2 (.inl (by linarith))
          | exact le_abs.2 (.inr (by linarith))
    have hx1 : |(x : ℝ)| = 1 := by rcases hx with rfl | rfl <;> simp
    have hy1 : |(y : ℝ)| = 1 := by rcases hy with rfl | rfl <;> simp
    refine ⟨?_, ?_⟩
    · rw [hx1]
      linarith
    · rw [abs_mul, hy1, one_mul, abs_of_pos (by linarith)]
      linarith
  constructor
  · exact ⟨hentry (.inr rfl) (.inl rfl), isStableEntry_root _, hentry (.inl rfl) (.inl rfl),
      isStableEntry_root _⟩
  · exact ⟨hentry (.inr rfl) (.inr rfl), isStableEntry_root _, hentry (.inl rfl) (.inr rfl),
      isStableEntry_root _⟩

/-- The inverse of a number between two bounds. -/
theorem inv_between {X w lo hi l u : ℝ} (hXw : X * w = 1) (hX : 0 < X) (hlo : lo ≤ X) (hhi : X ≤ hi)
    (hl : l * hi ≤ 1) (hu : 1 ≤ u * lo) (hu0 : 0 < u) : l ≤ w ∧ w ≤ u := by
  have hw0 : 0 < w := pos_of_mul_pos_right (hXw ▸ one_pos) hX.le
  have hlo0 : 0 < lo := pos_of_mul_pos_right (one_pos.trans_le hu) hu0.le
  constructor
  · refine le_of_mul_le_mul_right ?_ (hX.trans_le hhi)
    calc l * hi ≤ X * w := hl.trans hXw.ge
      _ ≤ w * hi := by
        rw [mul_comm]
        exact mul_le_mul_of_nonneg_left hhi hw0.le
  · refine le_of_mul_le_mul_right ?_ hlo0
    calc w * lo ≤ X * w := by
          rw [mul_comm X]
          exact mul_le_mul_of_nonneg_left hlo hw0.le
      _ ≤ u * lo := hXw.le.trans hu

theorem mul_between {x y l u l' u' : ℝ} (hx : l ≤ x) (hx' : x ≤ u) (hy : l' ≤ y) (hy' : y ≤ u')
    (hl : 0 ≤ l) (hl' : 0 ≤ l') : l * l' ≤ x * y ∧ x * y ≤ u * u' :=
  ⟨mul_le_mul hx hy hl' (hl.trans hx), mul_le_mul hx' hy' (hl'.trans hy) ((hl.trans hx).trans hx')⟩

/-- The entries of `K` are `r - 1`, `-r`, `r + 1` and `r`. -/
theorem k_real : k.real 0 0 = 1 / √2 - 1 ∧ k.real 0 1 = -(1 / √2) ∧ k.real 1 0 = 1 / √2 + 1 ∧
    k.real 1 1 = 1 / √2 := by
  simp only [real_00, real_01, real_10, real_11, realEntry, k]
  push_cast
  refine ⟨?_, ?_, ?_, ?_⟩
  all_goals ring

/-- The entries of the conjugate of `K` are `-r - 1`, `r`, `1 - r` and `-r`. -/
theorem k_dot_real : k.dot.real 0 0 = -(1 / √2) - 1 ∧ k.dot.real 0 1 = 1 / √2 ∧
    k.dot.real 1 0 = 1 - 1 / √2 ∧ k.dot.real 1 1 = -(1 / √2) := by
  simp only [real_00, real_01, real_10, real_11, realEntry, k, GridOperator.dot]
  push_cast
  refine ⟨?_, ?_, ?_, ?_⟩
  all_goals ring

/-- The products of the entries of `K` are `±(r - 1/2)` and `±(r + 1/2)`. -/
theorem k_tame (hF : F.IsPos) (hX : F.ratio ≤ 1.3045) (hX' : 0.837 ≤ F.ratio) :
    F.Tame 5 k.real := by
  obtain ⟨h00, h01, h10, h11⟩ := k_real
  have hr := inv_sqrt_two_bounds
  have hsq := ZOmega.inv_sqrt_two_sq
  generalize 1 / √2 = r at h00 h01 h10 h11 hr hsq
  have hlow : 0 ≤ r - 1 / 2 := by linarith
  have hhigh : 0 ≤ r + 1 / 2 := by linarith
  have hdiag : |k.real 0 0 * k.real 1 1| = r - 1 / 2 :=
    (abs_eq hlow).2 (.inr (by rw [h00, h11]; linear_combination hsq))
  have hanti : |k.real 0 1 * k.real 1 0| = r + 1 / 2 :=
    (abs_eq hhigh).2 (.inr (by rw [h01, h10]; linear_combination -hsq))
  have hrow : |k.real 1 0 * k.real 1 1| = r + 1 / 2 :=
    (abs_eq hhigh).2 (.inl (by rw [h10, h11]; linear_combination hsq))
  have hcol : |k.real 0 0 * k.real 0 1| = r - 1 / 2 :=
    (abs_eq hlow).2 (.inl (by rw [h00, h01]; linear_combination -hsq))
  have hprod := (mul_between (by linarith : 1.2071 ≤ r + 1 / 2) (by linarith : r + 1 / 2 ≤ 1.2072) hX' hX
    (by norm_num) (by norm_num)).2
  refine tame_of_products hF (isSpecial_iff.1 (by decide)) ?_ hrow hcol (by linarith) (by linarith)
  rw [hdiag, hanti]
  linarith

/-- The products of the entries of the conjugate are those of `K`, the other way round. -/
theorem k_dot_tame (hG : G.IsPos) (hY : G.ratio ≤ 3.155) (hY' : 2.0216 ≤ G.ratio) :
    G.Tame 5 k.dot.real := by
  obtain ⟨h00, h01, h10, h11⟩ := k_dot_real
  have hr := inv_sqrt_two_bounds
  have hsq := ZOmega.inv_sqrt_two_sq
  generalize 1 / √2 = r at h00 h01 h10 h11 hr hsq
  have hlow : 0 ≤ r - 1 / 2 := by linarith
  have hhigh : 0 ≤ r + 1 / 2 := by linarith
  have hdiag : |k.dot.real 0 0 * k.dot.real 1 1| = r + 1 / 2 :=
    (abs_eq hhigh).2 (.inl (by rw [h00, h11]; linear_combination hsq))
  have hanti : |k.dot.real 0 1 * k.dot.real 1 0| = r - 1 / 2 :=
    (abs_eq hlow).2 (.inl (by rw [h01, h10]; linear_combination -hsq))
  have hrow : |k.dot.real 1 0 * k.dot.real 1 1| = r - 1 / 2 :=
    (abs_eq hlow).2 (.inr (by rw [h10, h11]; linear_combination hsq))
  have hcol : |k.dot.real 0 0 * k.dot.real 0 1| = r + 1 / 2 :=
    (abs_eq hhigh).2 (.inr (by rw [h00, h01]; linear_combination -hsq))
  have hprod := (mul_between (by linarith : 0.2071 ≤ r - 1 / 2) (by linarith : r - 1 / 2 ≤ 0.2072) hY' hY
    (by norm_num) (by norm_num)).2
  refine tame_of_products hG (isSpecial_iff.1 (by decide)) ?_ hrow hcol (by linarith) (by linarith)
  rw [hdiag, hanti]
  linarith

section Column

variable {r X Y w v : ℝ}

theorem k_column (hr : 0.70710 < r ∧ r < 0.70711) (hsq : r * r = 1 / 2) (hX : 0.837 ≤ X)
    (hX' : X ≤ 1.3045) :
    1 / 32 ≤ (r - 1) ^ 2 + (X * (r + 1)) ^ 2 ∧ (r - 1) ^ 2 + (X * (r + 1)) ^ 2 ≤ 32 := by
  obtain ⟨hlo, hhi⟩ := mul_between hX hX' (by linarith : 1.7071 ≤ r + 1) (by linarith : r + 1 ≤ 1.7072)
    (by norm_num) (by norm_num)
  have hlo2 := pow_le_pow_left₀ (by norm_num) hlo 2
  have hhi2 := pow_le_pow_left₀ (by linarith) hhi 2
  have hcolumn : (r - 1) ^ 2 = 3 / 2 - 2 * r := by linear_combination hsq
  rw [hcolumn]
  constructor
  · linarith
  · linarith

theorem k_dot_column (hr : 0.70710 < r ∧ r < 0.70711) (hsq : r * r = 1 / 2) (hY : 2.0216 ≤ Y)
    (hY' : Y ≤ 3.155) :
    1 / 32 ≤ (-r - 1) ^ 2 + (Y * (1 - r)) ^ 2 ∧ (-r - 1) ^ 2 + (Y * (1 - r)) ^ 2 ≤ 32 := by
  obtain ⟨hlo, hhi⟩ := mul_between hY hY' (by linarith : 0.2928 ≤ 1 - r) (by linarith : 1 - r ≤ 0.293)
    (by norm_num) (by norm_num)
  have hhi2 := pow_le_pow_left₀ (by linarith) hhi 2
  have hcolumn : (-r - 1) ^ 2 = 3 / 2 + 2 * r := by linear_combination hsq
  rw [hcolumn]
  constructor
  · linarith [sq_nonneg (Y * (1 - r))]
  · linarith

/-- The amounts by which `K` moves the two entries off the diagonal. -/
theorem moderate_k (hr : 0.70710 < r ∧ r < 0.70711) (hw : 0.766 ≤ w) (hw' : w ≤ 1.195) (hX : 0.837 ≤ X)
    (hX' : X ≤ 1.3045) (hv : 0.3169 ≤ v) (hv' : v ≤ 0.4947) (hY : 2.0216 ≤ Y) (hY' : Y ≤ 3.155) :
    Moderate (44 / 100) ((1 / 2 - r / 2) * w + (1 / 2 + r / 2) * X)
      ((1 / 2 + r / 2) * v + (1 / 2 - r / 2) * Y) := by
  have hs : 0.146445 ≤ 1 / 2 - r / 2 ∧ 1 / 2 - r / 2 ≤ 0.14645 := ⟨by linarith, by linarith⟩
  have ht : 0.85355 ≤ 1 / 2 + r / 2 ∧ 1 / 2 + r / 2 ≤ 0.853555 := ⟨by linarith, by linarith⟩
  clear hr
  have hx : 0.566 ≤ (1 / 2 - r / 2) * w + (1 / 2 + r / 2) * X ∧
      (1 / 2 - r / 2) * w + (1 / 2 + r / 2) * X ≤ 1.29 := by
    obtain ⟨h1, h2⟩ := mul_between hs.1 hs.2 hw hw' (by norm_num) (by norm_num)
    obtain ⟨h3, h4⟩ := mul_between ht.1 ht.2 hX hX' (by norm_num) (by norm_num)
    exact ⟨le_trans (by norm_num) (add_le_add h1 h3), (add_le_add h2 h4).trans (by norm_num)⟩
  have hy : 0.566 ≤ (1 / 2 + r / 2) * v + (1 / 2 - r / 2) * Y ∧
      (1 / 2 + r / 2) * v + (1 / 2 - r / 2) * Y ≤ 0.886 := by
    obtain ⟨h1, h2⟩ := mul_between ht.1 ht.2 hv hv' (by norm_num) (by norm_num)
    obtain ⟨h3, h4⟩ := mul_between hs.1 hs.2 hY hY' (by norm_num) (by norm_num)
    exact ⟨le_trans (by norm_num) (add_le_add h1 h3), (add_le_add h2 h4).trans (by norm_num)⟩
  refine moderate_of_le (l := 0.566) (u := 1.29) (t := 1.29 ^ 2 + 0.886 ^ 2) 0.189
    (by norm_num) (by norm_num) hx.1 hx.2 hy.1 (hy.2.trans (by norm_num)) ?_ (by norm_num) (by norm_num)
    (by norm_num)
  exact add_le_add (pow_le_pow_left₀ (le_trans (by norm_num) hx.1) hx.2 2)
    (pow_le_pow_left₀ (le_trans (by norm_num) hy.1) hy.2 2)

end Column

/-- **The operator `K`**, for a first exponent near zero and a second one near one. -/
theorem k_reduces (h : Skewed F G) (hb : -slightness ≤ F.b) (hβ : -slightness ≤ G.b)
    (hX : F.ratio ≤ 1.3045) (hX' : 0.837 ≤ F.ratio) (hY : G.ratio ≤ 3.155) (hY' : 2.0216 ≤ G.ratio) :
    Reduces k F G := by
  have hr := inv_sqrt_two_bounds
  have hsq := ZOmega.inv_sqrt_two_sq
  have hXpos := h.pos.ratio_pos
  have hYpos := h.pos'.ratio_pos
  refine ⟨by decide, by decide, k_isStable.1, k_isStable.2, k_tame h.pos hX hX',
    k_dot_tame h.pos' hY hY', ?_, ?_, ?_⟩
  · obtain ⟨h00, -, h10, -⟩ := k_real
    rw [h00, h10]
    generalize 1 / √2 = r at hr hsq ⊢
    exact k_column hr hsq hX' hX
  · obtain ⟨h00, -, h10, -⟩ := k_dot_real
    rw [h00, h10]
    generalize 1 / √2 = r at hr hsq ⊢
    exact k_dot_column hr hsq hY' hY
  · obtain ⟨hw, hw'⟩ := inv_between (mul_one_div_cancel hXpos.ne') hXpos hX' hX (l := 0.766)
      (u := 1.195) (by norm_num) (by norm_num) (by norm_num)
    obtain ⟨hv, hv'⟩ := inv_between (mul_one_div_cancel hYpos.ne') hYpos hY' hY (l := 0.3169)
      (u := 0.4947) (by norm_num) (by norm_num) (by norm_num)
    rw [pull_k_b, pull_k_dot_b, h.pos.p_eq, h.pos.q_eq, h.pos'.p_eq, h.pos'.q_eq,
      div_eq_mul_one_div F.size, div_eq_mul_one_div G.size]
    generalize 1 / F.ratio = w at hw hw' ⊢
    generalize 1 / G.ratio = v at hv hv' ⊢
    generalize 1 / √2 = r at hr hsq ⊢
    -- both entries are moved towards zero and then multiplied by `√2`
    have hxy := moderate_k hr hw hw' hX' hX hv hv' hY' hY
    have hmoved := h.moved_le rfl rfl hb hβ hxy
    have hb' : (F.size * w * (r - 1 / 2) - 2 * r * F.b + F.size * F.ratio * (r + 1 / 2)) ^ 2
        = 2 * (F.b - ((1 / 2 - r / 2) * w + (1 / 2 + r / 2) * F.ratio) * F.size) ^ 2 := by
      have hlin : F.size * w * (r - 1 / 2) - 2 * r * F.b + F.size * F.ratio * (r + 1 / 2)
          = -(2 * r) * (F.b - ((1 / 2 - r / 2) * w + (1 / 2 + r / 2) * F.ratio) * F.size) := by
        linear_combination (F.size * w - F.size * F.ratio) * hsq
      rw [hlin, mul_pow]
      congr 1
      linear_combination 4 * hsq
    have hβ' : (2 * r * G.b - G.size * v * (r + 1 / 2) - G.size * G.ratio * (r - 1 / 2)) ^ 2
        = 2 * (G.b - ((1 / 2 + r / 2) * v + (1 / 2 - r / 2) * G.ratio) * G.size) ^ 2 := by
      have hlin : 2 * r * G.b - G.size * v * (r + 1 / 2) - G.size * G.ratio * (r - 1 / 2)
          = 2 * r * (G.b - ((1 / 2 + r / 2) * v + (1 / 2 - r / 2) * G.ratio) * G.size) := by
        linear_combination (G.size * v - G.size * G.ratio) * hsq
      rw [hlin, mul_pow]
      congr 1
      linear_combination 4 * hsq
    rw [hb', hβ']
    linarith

end K

end GridOperator

end CliffordT
