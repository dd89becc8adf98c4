/-
The group of special grid operators, and its action on the grid.

A grid point is a point of the plane, and an operator acts on it as its matrix does on that point: the
two halvings in a coordinate and the two in the change of coordinates come out even, for the coordinates
of a grid point have `√2`-parts of one parity, just as the entries of an operator have. As the matrix
determines the operator and the plane the grid point, every law of matrices is one of operators. The
adjugate times the determinant, which is one or minus one, is the inverse, so that special operators
form a group, and each of them permutes the grid.
-/
import Mathlib.LinearAlgebra.Matrix.NonsingularInverse
import CliffordT.Proofs.Grid.Operator

namespace CliffordT

namespace ZOmega

noncomputable def plane (z : ZOmega) : Fin 2 → ℝ := ![(toComplex z).re, (toComplex z).im]

theorem plane_add (z z' : ZOmega) : (z + z').plane = z.plane + z'.plane := by
  simp [plane, map_add]

/-- A point of the plane is a grid point in one way only. -/
theorem plane_injective : Function.Injective plane := by
  intro z z' h
  have hre : (toComplex z).re = (toComplex z').re := congrFun h 0
  have him : (toComplex z).im = (toComplex z').im := congrFun h 1
  rw [toComplex_re, toComplex_re] at hre
  rw [toComplex_im, toComplex_im] at him
  obtain ⟨hd, hca⟩ := eq_zero_of_add_mul_sqrt_two (m := z.d - z'.d)
    (n := (z.c - z.a) - (z'.c - z'.a)) (by push_cast at hre ⊢; linarith)
  obtain ⟨hb, hca'⟩ := eq_zero_of_add_mul_sqrt_two (m := z.b - z'.b)
    (n := (z.c + z.a) - (z'.c + z'.a)) (by push_cast at him ⊢; linarith)
  ext
  · omega
  · omega
  · omega
  · omega

end ZOmega

namespace GridOperator

/-! ## The matrix determines the operator -/

theorem realEntry_injective {x y x' y' : Int} (h : realEntry x y = realEntry x' y') :
    x = x' ∧ y = y' := by
  have hzero : ((x - x' : Int) : ℝ) + ((y - y' : Int) : ℝ) * (1 / √2) = 0 := by
    unfold realEntry at h
    push_cast
    linarith
  obtain ⟨hx, hy⟩ := ZOmega.eq_zero_of_add_mul_sqrt_two hzero
  exact ⟨by omega, by omega⟩

theorem real_injective : Function.Injective real := by
  intro f g h
  have hentry (i j : Fin 2) : f.real i j = g.real i j := congrFun (congrFun h i) j
  obtain ⟨ha, ha'⟩ := realEntry_injective (hentry 0 0)
  obtain ⟨hb, hb'⟩ := realEntry_injective (hentry 0 1)
  obtain ⟨hc, hc'⟩ := realEntry_injective (hentry 1 0)
  obtain ⟨hd, hd'⟩ := realEntry_injective (hentry 1 1)
  exact GridOperator.ext ha ha' hb hb' hc hc' hd hd'

@[simp] theorem real_identity : identity.real = 1 := by
  rw [real, Matrix.one_fin_two]
  simp [identity, realEntry]

theorem identity_mul {g : GridOperator} (hg : g.IsGrid) : identity * g = g := by
  apply real_injective
  rw [real_mul (by decide) hg, real_identity, one_mul]

theorem mul_identity {g : GridOperator} (hg : g.IsGrid) : g * identity = g := by
  apply real_injective
  rw [real_mul hg (by decide), real_identity, mul_one]

protected theorem mul_assoc {f g h : GridOperator} (hf : f.IsGrid) (hg : g.IsGrid) (hh : h.IsGrid) :
    f * g * h = f * (g * h) := by
  apply real_injective
  rw [real_mul (hf.mul hg) hh, real_mul hf hg, real_mul hf (hg.mul hh), real_mul hg hh, mul_assoc]

theorem real_transpose (g : GridOperator) : g.transpose.real = g.real.transpose := by
  ext i j
  fin_cases i <;> fin_cases j
  all_goals rfl

/-! ## Halvings -/

/-- The halvings in the product of two operators come out even. -/
structure EvenProduct (f g : GridOperator) : Prop where
  a : 2 ∣ f.a₁ * g.a₁ + f.b₁ * g.c₁
  b : 2 ∣ f.a₁ * g.b₁ + f.b₁ * g.d₁
  c : 2 ∣ f.c₁ * g.a₁ + f.d₁ * g.c₁
  d : 2 ∣ f.c₁ * g.b₁ + f.d₁ * g.d₁

theorem IsGrid.evenProduct {f g : GridOperator} (hf : f.IsGrid) (hg : g.IsGrid) :
    EvenProduct f g := by
  obtain ⟨-, hfb, hfc, hfd⟩ := isGrid_iff.1 hf
  obtain ⟨-, hgb, hgc, hgd⟩ := isGrid_iff.1 hg
  exact
    { a := two_dvd_mul_add_mul hfb hgc
      b := two_dvd_mul_add_mul hfb (hgd.trans hgb.symm)
      c := two_dvd_mul_add_mul (hfd.trans hfc.symm) hgc
      d := two_dvd_mul_add_mul (hfd.trans hfc.symm) (hgd.trans hgb.symm) }

/-- The `√2`-part of one coordinate of the image of a grid point, for the row of the operator with
entries `a + a₁/√2` and `b + b₁/√2`. -/
def imagePart (a a₁ b b₁ : Int) (z : ZOmega) : Int :=
  z.d * a₁ + (z.c - z.a) * a + z.b * b₁ + (z.c + z.a) * b

/-- The halvings in the image of a grid point come out even: one for each coordinate, and the two that
lead from the `√2`-parts of the coordinates to the coefficients. -/
structure EvenImage (g : GridOperator) (z : ZOmega) : Prop where
  x : 2 ∣ (z.c + z.a) * g.b₁ + (z.c - z.a) * g.a₁
  y : 2 ∣ (z.c - z.a) * g.c₁ + (z.c + z.a) * g.d₁
  difference : 2 ∣ imagePart g.c₀ g.c₁ g.d₀ g.d₁ z - imagePart g.a₀ g.a₁ g.b₀ g.b₁ z
  sum : 2 ∣ imagePart g.c₀ g.c₁ g.d₀ g.d₁ z + imagePart g.a₀ g.a₁ g.b₀ g.b₁ z

theorem IsGrid.evenImage {g : GridOperator} (hg : g.IsGrid) (z : ZOmega) : EvenImage g z := by
  obtain ⟨h0, hb, hc, hd⟩ := isGrid_iff.1 hg
  have hz : (z.c + z.a) % 2 = (z.c - z.a) % 2 := by omega
  have hsum : 2 ∣ imagePart g.c₀ g.c₁ g.d₀ g.d₁ z + imagePart g.a₀ g.a₁ g.b₀ g.b₁ z := by
    obtain ⟨m, hm⟩ : 2 ∣ g.a₀ + g.b₀ + g.c₀ + g.d₀ := by omega
    obtain ⟨s, hs⟩ : 2 ∣ g.a₁ + g.c₁ := by omega
    obtain ⟨t, ht⟩ : 2 ∣ g.b₁ + g.d₁ := by omega
    refine ⟨z.d * s + z.b * t + (z.c - z.a) * m + z.a * (g.b₀ + g.d₀), ?_⟩
    unfold imagePart
    linear_combination z.d * hs + z.b * ht + (z.c - z.a) * hm
  exact
    { x := by
        rw [add_comm]
        exact (two_dvd_mul_add_mul hz hb).trans (dvd_of_eq (by ring))
      y := two_dvd_mul_add_mul hz (hd.trans hc.symm)
      difference := by omega
      sum := hsum }

/-! ## The action -/

theorem act_eq (g : GridOperator) (z : ZOmega) : g.act z =
    ⟨(imagePart g.c₀ g.c₁ g.d₀ g.d₁ z - imagePart g.a₀ g.a₁ g.b₀ g.b₁ z).tdiv 2,
      z.d * g.c₀ + z.b * g.d₀ + ((z.c - z.a) * g.c₁ + (z.c + z.a) * g.d₁).tdiv 2,
      (imagePart g.c₀ g.c₁ g.d₀ g.d₁ z + imagePart g.a₀ g.a₁ g.b₀ g.b₁ z).tdiv 2,
      z.d * g.a₀ + z.b * g.b₀ + ((z.c + z.a) * g.b₁ + (z.c - z.a) * g.a₁).tdiv 2⟩ := rfl

section Action

variable {f g : GridOperator} (hf : f.IsGrid) (hg : g.IsGrid) (z z' : ZOmega)
include hg

/-- **An operator acts on a grid point as its matrix does on the point of the plane.** -/
theorem plane_act : (g.act z).plane = g.real.mulVec z.plane := by
  have heven := hg.evenImage z
  have hsq := ZOmega.inv_sqrt_two_sq
  have hx := cast_tdiv_two heven.x
  have hy := cast_tdiv_two heven.y
  have hdiff := cast_tdiv_two heven.difference
  have hsum := cast_tdiv_two heven.sum
  rw [act_eq]
  unfold ZOmega.plane
  ext i
  fin_cases i
  · simp only [Fin.zero_eta, Matrix.cons_val_zero, Matrix.mulVec, dotProduct, Fin.sum_univ_two,
      Matrix.cons_val_one, ZOmega.toComplex_re, ZOmega.toComplex_im, real_00, real_01, realEntry]
    push_cast
    rw [hx, hdiff, hsum]
    unfold imagePart
    push_cast
    generalize 1 / √2 = r at hsq ⊢
    linear_combination (-(((z.c : ℝ) + z.a) * g.b₁ + (z.c - z.a) * g.a₁)) * hsq
  · simp only [Fin.mk_one, Matrix.cons_val_zero, Matrix.mulVec, dotProduct, Fin.sum_univ_two,
      Matrix.cons_val_one, ZOmega.toComplex_re, ZOmega.toComplex_im, real_10, real_11, realEntry]
    push_cast
    rw [hy, hdiff, hsum]
    unfold imagePart
    push_cast
    generalize 1 / √2 = r at hsq ⊢
    linear_combination (-(((z.c : ℝ) - z.a) * g.c₁ + (z.c + z.a) * g.d₁)) * hsq

theorem act_add : g.act (z + z') = g.act z + g.act z' := by
  apply ZOmega.plane_injective
  rw [plane_act hg, ZOmega.plane_add, Matrix.mulVec_add, ZOmega.plane_add, plane_act hg, plane_act hg]

include hf in
theorem mul_act : (f * g).act z = f.act (g.act z) := by
  apply ZOmega.plane_injective
  rw [plane_act (hf.mul hg), plane_act hf, plane_act hg, real_mul hf hg, Matrix.mulVec_mulVec]

end Action

theorem identity_act (z : ZOmega) : identity.act z = z := by
  apply ZOmega.plane_injective
  rw [plane_act (by decide), real_identity, Matrix.one_mulVec]

/-- Conjugation takes the image to the image of the conjugate. -/
theorem act_dot (g : GridOperator) (z : ZOmega) : (g.act z).dot = g.dot.act z.dot := by
  have hpart (a a₁ b b₁ : Int) : imagePart a (-a₁) b (-b₁) z.dot = -imagePart a a₁ b b₁ z := by
    simp only [imagePart, ZOmega.dot]
    ring
  have hhalf {m n : Int} (h : m = -n) : m.tdiv 2 = -n.tdiv 2 := by rw [h, Int.neg_tdiv]
  rw [act_eq, act_eq]
  ext
  · exact (hhalf (by simp only [dot, hpart]; ring)).symm
  · simp only [ZOmega.dot, dot]
    congr 2
    ring
  · exact (hhalf (by simp only [dot, hpart]; ring)).symm
  · simp only [ZOmega.dot, dot]
    congr 2
    ring

/-! ## Special operators -/

/-- A special grid operator satisfies the parity conditions and has determinant one or minus one. -/
structure IsSpecialGrid (g : GridOperator) : Prop extends g.IsGrid where
  special : g.isSpecial = true

instance (g : GridOperator) : Decidable g.IsSpecialGrid :=
  decidable_of_iff (g.IsGrid ∧ g.isSpecial = true) ⟨fun h => ⟨h.1, h.2⟩, fun h => ⟨h.1, h.2⟩⟩

/-- The sign of a special operator is the determinant of its matrix. -/
theorem cast_detSign {g : GridOperator} (hg : g.isSpecial = true) : (g.detSign : ℝ) = g.real.det := by
  rw [real_det]
  unfold isSpecial at hg
  unfold detSign
  generalize g.determinantParts = d at hg ⊢
  obtain ⟨p, q, r⟩ := d
  simp only [Bool.and_eq_true, beq_iff_eq] at hg ⊢
  obtain ⟨rfl, h⟩ := hg
  rw [cast_tdiv_two (by omega)]
  push_cast
  ring

theorem detSign_eq {g : GridOperator} (hg : g.isSpecial = true) : g.detSign = 1 ∨ g.detSign = -1 := by
  have habs := isSpecial_iff.1 hg
  rw [← cast_detSign hg, ← Int.cast_abs] at habs
  exact (abs_eq (by norm_num)).1 (by exact_mod_cast habs)

theorem detSign_mul_self {g : GridOperator} (hg : g.isSpecial = true) : g.detSign * g.detSign = 1 := by
  rcases detSign_eq hg with h | h
  all_goals
    rw [h]
    rfl

/-- The inverse is the adjugate, with the sign of the determinant. -/
theorem real_inverse (g : GridOperator) :
    g.inverse.real = (g.detSign : ℝ) • g.real.adjugate := by
  have hentry (x y s : Int) : realEntry (x * s) (y * s) = s * realEntry x y := by
    unfold realEntry
    push_cast
    ring
  have hentry' (x y s : Int) : realEntry (-(x * s)) (-(y * s)) = s * -realEntry x y := by
    unfold realEntry
    push_cast
    ring
  rw [Matrix.adjugate_fin_two, Matrix.smul_of]
  ext i j
  fin_cases i <;> fin_cases j
  · exact hentry _ _ _
  · exact hentry' _ _ _
  · exact hentry' _ _ _
  · exact hentry _ _ _

namespace IsSpecialGrid

variable {f g : GridOperator}

theorem mul (hf : f.IsSpecialGrid) (hg : g.IsSpecialGrid) : (f * g).IsSpecialGrid :=
  ⟨hf.toIsGrid.mul hg.toIsGrid, isSpecial_mul hf.toIsGrid hg.toIsGrid hf.special hg.special⟩

theorem shift (hg : g.IsSpecialGrid) (k : Int) : (g.shift k).IsSpecialGrid :=
  ⟨hg.toIsGrid.shift k, isSpecial_shift hg.special k⟩

/-- The part of the determinant with `√2` is zero, so that the conjugate has the same determinant. -/
theorem dot (hg : g.IsSpecialGrid) : g.dot.IsSpecialGrid := by
  refine ⟨hg.toIsGrid.dot, ?_⟩
  have h := hg.special
  simp only [isSpecial, determinantParts, Bool.and_eq_true, beq_iff_eq] at h
  simp only [isSpecial, determinantParts, GridOperator.dot, Bool.and_eq_true, beq_iff_eq, neg_mul_neg]
  exact ⟨by linarith [h.1], h.2⟩

end IsSpecialGrid

theorem IsGrid.transpose {g : GridOperator} (hg : g.IsGrid) : g.transpose.IsGrid := by
  obtain ⟨h0, hb, hc, hd⟩ := isGrid_iff.1 hg
  refine isGrid_iff.2 ⟨?_, hc, hb, hd⟩
  simp only [GridOperator.transpose]
  omega

/-- A change of signs keeps the parities. -/
theorem IsGrid.inverse {g : GridOperator} (hg : g.IsGrid) (hs : g.isSpecial = true) :
    g.inverse.IsGrid := by
  obtain ⟨h0, hb, hc, hd⟩ := isGrid_iff.1 hg
  unfold GridOperator.inverse
  rcases detSign_eq hs with h | h
  all_goals
    rw [h]
    refine isGrid_iff.2 ⟨?_, ?_, ?_, ?_⟩
    all_goals
      dsimp only
      omega

namespace IsSpecialGrid

variable {f g : GridOperator}

theorem transpose (hg : g.IsSpecialGrid) : g.transpose.IsSpecialGrid := by
  refine ⟨hg.toIsGrid.transpose, ?_⟩
  rw [isSpecial_iff, real_transpose, Matrix.det_transpose]
  exact isSpecial_iff.1 hg.special

theorem inverse (hg : g.IsSpecialGrid) : g.inverse.IsSpecialGrid := by
  refine ⟨hg.toIsGrid.inverse hg.special, ?_⟩
  have hdet := isSpecial_iff.1 hg.special
  rw [isSpecial_iff, real_inverse, Matrix.det_smul, Matrix.det_adjugate, cast_detSign hg.special,
    Fintype.card_fin, abs_mul, abs_pow, abs_pow, hdet]
  norm_num

theorem real_mul_inverse (hg : g.IsSpecialGrid) : g.real * g.inverse.real = 1 := by
  have hsign : (g.detSign : ℝ) * g.detSign = 1 := by exact_mod_cast detSign_mul_self hg.special
  rw [real_inverse, Matrix.mul_smul, Matrix.mul_adjugate, ← cast_detSign hg.special, smul_smul, hsign,
    one_smul]

/-- **An operator times its inverse is the identity, entry for entry.** -/
theorem mul_inverse (hg : g.IsSpecialGrid) : g * g.inverse = identity := by
  apply real_injective
  rw [real_mul hg.toIsGrid hg.inverse.toIsGrid, real_mul_inverse hg, real_identity]

theorem inverse_mul (hg : g.IsSpecialGrid) : g.inverse * g = identity := by
  apply real_injective
  rw [real_mul hg.inverse.toIsGrid hg.toIsGrid, real_identity]
  exact mul_eq_one_comm.1 (real_mul_inverse hg)

theorem detSign_mul (hf : f.IsSpecialGrid) (hg : g.IsSpecialGrid) :
    (f * g).detSign = f.detSign * g.detSign := by
  have h : ((f * g).detSign : ℝ) = f.detSign * g.detSign := by
    rw [cast_detSign (hf.mul hg).special, real_mul hf.toIsGrid hg.toIsGrid, Matrix.det_mul,
      cast_detSign hf.special, cast_detSign hg.special]
  exact_mod_cast h

theorem det_ne_zero (hg : g.IsSpecialGrid) : g.real.det ≠ 0 := by
  have h := isSpecial_iff.1 hg.special
  intro h0
  rw [h0, abs_zero] at h
  exact zero_ne_one h

theorem inverse_act_act (hg : g.IsSpecialGrid) (z : ZOmega) : g.inverse.act (g.act z) = z := by
  rw [← mul_act hg.inverse.toIsGrid hg.toIsGrid, hg.inverse_mul, identity_act]

theorem act_inverse_act (hg : g.IsSpecialGrid) (z : ZOmega) : g.act (g.inverse.act z) = z := by
  rw [← mul_act hg.toIsGrid hg.inverse.toIsGrid, hg.mul_inverse, identity_act]

/-- **A special operator permutes the grid.** -/
theorem act_bijective (hg : g.IsSpecialGrid) : Function.Bijective g.act :=
  Function.bijective_iff_has_inverse.2 ⟨g.inverse.act, hg.inverse_act_act, hg.act_inverse_act⟩

end IsSpecialGrid

/-! ## The operators that are built without a check -/

/-- The operators that are built without a check; the shears have a parameter. -/
inductive Named : GridOperator → Prop
  | identity : Named identity
  | rotation : Named rotation
  | k : Named k
  | swap : Named swap
  | reflection : Named reflection
  | shear (n : Int) : Named (shear n)
  | shearSqrt2 (n : Int) : Named (shearSqrt2 n)

theorem Named.isSpecialGrid {g : GridOperator} (h : Named g) : g.IsSpecialGrid := by
  cases h with
  | identity => decide
  | rotation => decide
  | k => decide
  | swap => decide
  | reflection => decide
  | shear n =>
    refine ⟨isGrid_iff.2 ⟨?_, rfl, rfl, rfl⟩, ?_⟩
    · simp only [GridOperator.shear]
      omega
    · simp [isSpecial, determinantParts, GridOperator.shear]
  | shearSqrt2 n =>
    refine ⟨isGrid_iff.2 ⟨rfl, ?_, rfl, rfl⟩, ?_⟩
    · simp [GridOperator.shearSqrt2]
    · simp [isSpecial, determinantParts, GridOperator.shearSqrt2]

/-! ## The group and its action -/

/-- **Grid operators act exactly on the grid, and the special ones form a group.** Products and images
are those of the real matrices, with every halving even; the product is associative and the identity
neutral; all operations keep the parity conditions; the action is additive, follows the product, and goes
along with conjugation. The special operators, the named ones among them, are closed under the
operations, their determinants multiply, the inverse is one entry for entry, and each of them permutes
the grid. -/
theorem special_operators_act {f g : GridOperator} (hf : f.IsGrid) (hg : g.IsGrid) (z z' : ZOmega)
    (k : Int) :
    (EvenProduct f g ∧ (f * g).real = f.real * g.real) ∧
    ((∀ h, h.IsGrid → f * g * h = f * (g * h)) ∧ identity * g = g ∧ g * identity = g) ∧
    (EvenImage g z ∧ (g.act z).plane = g.real.mulVec z.plane) ∧
    ((f * g).IsGrid ∧ g.dot.IsGrid ∧ g.transpose.IsGrid ∧ g.conjugate.IsGrid ∧ g.invConjugate.IsGrid ∧
      (g.shift k).IsGrid) ∧
    ((f * g).act z = f.act (g.act z) ∧ g.act (z + z') = g.act z + g.act z' ∧
      (g.act z).dot = g.dot.act z.dot) ∧
    (∀ h, Named h → h.IsSpecialGrid) ∧
    (f.isSpecial = true → g.isSpecial = true →
      ((f * g).IsSpecialGrid ∧ g.inverse.IsSpecialGrid ∧ g.dot.IsSpecialGrid ∧
        g.transpose.IsSpecialGrid ∧ (g.shift k).IsSpecialGrid) ∧
      ((g.detSign : ℝ) = g.real.det ∧ (f * g).detSign = f.detSign * g.detSign) ∧
      (g * g.inverse = identity ∧ g.inverse * g = identity) ∧
      Function.Bijective g.act) := by
  refine ⟨⟨hf.evenProduct hg, real_mul hf hg⟩,
    ⟨fun h hh => GridOperator.mul_assoc hf hg hh, identity_mul hg, mul_identity hg⟩,
    ⟨hg.evenImage z, plane_act hg z⟩,
    ⟨hf.mul hg, hg.dot, hg.transpose, hg.conjugate, hg.invConjugate, hg.shift k⟩,
    ⟨mul_act hf hg z, act_add hg z z', act_dot g z⟩, fun h => Named.isSpecialGrid, ?_⟩
  intro hfs hgs
  have hf' : f.IsSpecialGrid := ⟨hf, hfs⟩
  have hg' : g.IsSpecialGrid := ⟨hg, hgs⟩
  exact ⟨⟨hf'.mul hg', hg'.inverse, hg'.dot, hg'.transpose, hg'.shift k⟩,
    ⟨cast_detSign hgs, hf'.detSign_mul hg'⟩, ⟨hg'.mul_inverse, hg'.inverse_mul⟩, hg'.act_bijective⟩

/-- The rotation after `K`, which has odd `√2`-parts just as it has. -/
theorem special_operators_act_rotation :
    rotation.IsGrid ∧ k.IsGrid ∧ rotation.isSpecial = true ∧ k.isSpecial = true ∧
      (rotation * k).act ⟨1, 2, 0, 3⟩ = rotation.act (k.act ⟨1, 2, 0, 3⟩) ∧
      k * k.inverse = identity ∧ (rotation * k).detSign = rotation.detSign * k.detSign := by
  obtain ⟨-, -, -, -, hact, -, hspecial⟩ := special_operators_act (f := rotation) (g := k) (by decide)
    (by decide) ⟨1, 2, 0, 3⟩ 0 0
  obtain ⟨-, hdet, hinv, -⟩ := hspecial (by decide) (by decide)
  exact ⟨by decide, by decide, by decide, by decide, hact.1, hinv.1, hdet.2⟩

end GridOperator

end CliffordT
