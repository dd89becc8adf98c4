/-
The grid problem in the plane, as two problems on the line.

Every `u` of `ℤ[ω]` is `α + βi` or `α + βi + ω`, in one way. Its coordinates are `α` and `β`, moved by
`1/√2` in the second case, and those of its conjugate are the conjugates of `α` and `β`, moved the other
way. The points of one kind have an entry for each pair of solutions on the line, and the two kinds have
none in common, so that a point is listed as often as its coordinates are found, once or not at all.
-/
import CliffordT.Proofs.Grid.Scaling
import CliffordT.Proofs.Ring.Descriptions

namespace CliffordT

namespace ZOmega

/-! ## Coordinates -/

/-- What the coordinates of a point with `ω` are moved by. -/
noncomputable def offset (w : Bool) : ℝ := w.toInt * (1 / √2)

theorem abs_offset_le (w : Bool) : |offset w| ≤ 1 := by
  have hroot : 1 ≤ √2 := Real.one_le_sqrt.2 (by norm_num)
  have hinv : 1 / √2 ≤ 1 := (div_le_one (by linarith)).2 hroot
  have hpos : 0 ≤ 1 / √2 := by positivity
  unfold offset
  cases w with
  | false => simp
  | true =>
    show |((1 : ℤ) : ℝ) * (1 / √2)| ≤ 1
    rwa [Int.cast_one, one_mul, abs_of_nonneg hpos]

/-- Half of the coefficient of `√2`, taken twice. -/
theorem mul_inv_sqrt_two_eq {m n : ℤ} {w : Bool} (h : m = 2 * n + w.toInt) :
    (m : ℝ) * (1 / √2) = n * √2 + offset w := by
  have hroot := sqrt_two_eq
  unfold offset
  rw [h]
  push_cast
  linear_combination (-(n : ℝ)) * hroot

section Coordinates

variable (u : ZOmega)

theorem re_eq_alpha : (toComplex u).re = ZSqrt2.real u.alpha + offset u.hasOmega := by
  have h := hasOmega_toInt u
  rw [toComplex_re, ZSqrt2.real_apply, add_assoc]
  refine congrArg₂ (· + ·) rfl (mul_inv_sqrt_two_eq ?_)
  simp only [alpha]
  omega

theorem im_eq_beta : (toComplex u).im = ZSqrt2.real u.beta + offset u.hasOmega := by
  have h := hasOmega_toInt u
  rw [toComplex_im, ZSqrt2.real_apply, add_assoc]
  refine congrArg₂ (· + ·) rfl (mul_inv_sqrt_two_eq ?_)
  simp only [beta]
  omega

theorem re_dot_eq_alpha : (toComplex u.dot).re = ZSqrt2.real u.alpha.dot - offset u.hasOmega := by
  have h := re_eq_alpha u
  rw [toComplex_re, ZSqrt2.real_apply] at h
  have hneg : u.dot.c - u.dot.a = -(u.c - u.a) := by
    simp only [dot_c, dot_a]
    ring
  rw [toComplex_re, ZSqrt2.real_dot, hneg, Int.cast_neg]
  simp only [dot_d, alpha] at h ⊢
  linarith

theorem im_dot_eq_beta : (toComplex u.dot).im = ZSqrt2.real u.beta.dot - offset u.hasOmega := by
  have h := im_eq_beta u
  rw [toComplex_im, ZSqrt2.real_apply] at h
  have hneg : u.dot.c + u.dot.a = -(u.c + u.a) := by
    simp only [dot_c, dot_a]
    ring
  rw [toComplex_im, ZSqrt2.real_dot, hneg, Int.cast_neg]
  simp only [dot_b, beta] at h ⊢
  linarith

end Coordinates

end ZOmega

namespace GridPoints

open BinFloat
open ZOmega (ofAlphaBeta)

variable {exponent : BinFloat → Int} {a b : Rectangle} {w : Bool} {c : Constants}

/-! ## The points of one kind -/

/-- An interval for the coordinates of the points of one kind, and one for their conjugates. -/
def movedDown (i : Interval) (w : Bool) (c : Constants) : Interval := if w then i.sub c.invSqrt2 else i

def movedUp (i : Interval) (w : Bool) (c : Constants) : Interval := if w then i.add c.invSqrt2 else i

/-- What moving an interval makes of a number in it, applied to the intervals of one kind: `P` is known of an
interval and a coordinate, `Q` is wanted of the interval and the coordinate that are moved. -/
theorem moved_of_add {P Q : Interval → ℝ → Prop} {i : Interval} {y : ℝ} {d : ℕ}
    (hsame : ∀ y, P i y → Q i y)
    (hadd : ∀ y σ s, P i y → |σ| ≤ 1 → Within (12 * roundoff (20 * d + 128)) s.value σ →
      Q (i.add s) (y + σ)) (w : Bool) :
    (P i (y + ZOmega.offset w) → Q (movedDown i w (Constants.ofDigits d)) y) ∧
      (P i (y - ZOmega.offset w) → Q (movedUp i w (Constants.ofDigits d)) y) := by
  have hinv : Within (12 * roundoff (20 * d + 128)) (Constants.ofDigits d).invSqrt2.value (1 / √2) :=
    Constants.invSqrt2_within d
  cases w with
  | false =>
    have hoff : ZOmega.offset false = 0 := by simp [ZOmega.offset]
    rw [hoff, add_zero, sub_zero]
    exact ⟨hsame y, hsame y⟩
  | true =>
    have hoff : ZOmega.offset true = 1 / √2 := by
      show ((1 : ℤ) : ℝ) * (1 / √2) = _
      rw [Int.cast_one, one_mul]
    have habs : |1 / √2| ≤ 1 := hoff ▸ ZOmega.abs_offset_le true
    rw [hoff]
    constructor
    · intro h
      have hneg := hinv.neg
      rw [← value_neg] at hneg
      have hmoved := hadd _ _ (-(Constants.ofDigits d).invSqrt2) h (by rwa [abs_neg]) hneg
      rwa [add_neg_cancel_right] at hmoved
    · intro h
      have hmoved := hadd _ _ (Constants.ofDigits d).invSqrt2 h habs hinv
      rwa [sub_add_cancel] at hmoved

/-- The points of one kind are the pairs of the solutions on the line; the early end without any `α`
makes no difference. -/
theorem inRectanglesWith_eq : inRectanglesWith exponent a b w c
    = (onLineBalancedBy exponent (movedDown a.x w c) (movedUp b.x w c) c).flatMap fun alpha =>
      (onLineBalancedBy exponent (movedDown a.y w c) (movedUp b.y w c) c).map fun beta =>
        ofAlphaBeta alpha beta w := by
  have hx (r : Rectangle) (f : Interval → Interval) :
      (if w then Rectangle.mk (f r.x) (f r.y) else r).x = if w then f r.x else r.x := by
    cases w with
    | false => rfl
    | true => rfl
  have hy (r : Rectangle) (f : Interval → Interval) :
      (if w then Rectangle.mk (f r.x) (f r.y) else r).y = if w then f r.y else r.y := by
    cases w with
    | false => rfl
    | true => rfl
  unfold inRectanglesWith movedDown movedUp
  dsimp only
  rw [hx a (Interval.sub · c.invSqrt2), hx b (Interval.add · c.invSqrt2),
    hy a (Interval.sub · c.invSqrt2), hy b (Interval.add · c.invSqrt2)]
  split
  · rename_i h
    rw [h, List.flatMap_nil]
  · rfl

theorem mem_inRectanglesWith {u : ZOmega}
    (halpha : u.alpha ∈ onLineBalancedBy exponent (movedDown a.x u.hasOmega c)
      (movedUp b.x u.hasOmega c) c)
    (hbeta : u.beta ∈ onLineBalancedBy exponent (movedDown a.y u.hasOmega c)
      (movedUp b.y u.hasOmega c) c) :
    u ∈ inRectanglesWith exponent a b u.hasOmega c := by
  rw [inRectanglesWith_eq]
  exact List.mem_flatMap.2
    ⟨u.alpha, halpha, List.mem_map.2 ⟨u.beta, hbeta, ZOmega.ofAlphaBeta_alpha_beta u⟩⟩

theorem hasOmega_of_mem {u : ZOmega} (h : u ∈ inRectanglesWith exponent a b w c) :
    u.hasOmega = w := by
  rw [inRectanglesWith_eq] at h
  obtain ⟨alpha, -, h⟩ := List.mem_flatMap.1 h
  obtain ⟨beta, -, rfl⟩ := List.mem_map.1 h
  exact ZOmega.hasOmega_ofAlphaBeta alpha beta w

theorem nodup_inRectanglesWith : (inRectanglesWith exponent a b w c).Nodup := by
  rw [inRectanglesWith_eq]
  refine List.nodup_flatMap.2 ⟨fun alpha _ => ?_, ?_⟩
  · exact (nodup_onLineBalancedBy exponent _ _ c).map fun beta beta' h =>
      (ZOmega.ofAlphaBeta_injective h).2
  · refine (nodup_onLineBalancedBy exponent _ _ c).imp fun {alpha alpha'} hne u hu hu' => hne ?_
    obtain ⟨beta, -, rfl⟩ := List.mem_map.1 hu
    obtain ⟨beta', -, heq⟩ := List.mem_map.1 hu'
    exact (ZOmega.ofAlphaBeta_injective heq).1.symm

/-! ## Both kinds -/

theorem nodup_inRectanglesBy : (inRectanglesBy exponent a b c).Nodup := by
  refine nodup_inRectanglesWith.append nodup_inRectanglesWith fun u hu hu' => ?_
  exact Bool.false_ne_true ((hasOmega_of_mem hu).symm.trans (hasOmega_of_mem hu'))

/-- **A point is listed once** if its coordinates are found on the line. -/
theorem count_inRectanglesBy {u : ZOmega} (h : u ∈ inRectanglesWith exponent a b u.hasOmega c) :
    (inRectanglesBy exponent a b c).count u = 1 := by
  refine List.count_eq_one_of_mem nodup_inRectanglesBy (List.mem_append.2 ?_)
  cases hw : u.hasOmega with
  | false => exact .inl (hw ▸ h)
  | true => exact .inr (hw ▸ h)

end GridPoints

end CliffordT
