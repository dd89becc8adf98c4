/-
Square roots in `ℤ[√2]` are decided.

* `sqrt?_sound`: a root that is returned squares to the element, since the last thing the search
  does is to square it.
* `sqrt?_complete`: every square has a root that is found. For `x = (p + q√2)²` the norm of `x` is
  `s²` with `s = p² - 2q²`, and then `(a + s) / 2 = p²` and `(a - s) / 4 = q²`. The root of the norm
  is `|s|`, so that one of the two signs that are tried is the one of `s`; and `|p| + |q|√2` or
  `-|p| + |q|√2` is `p + q√2` up to sign.
-/
import Mathlib.Algebra.Group.Even
import Mathlib.Algebra.Order.Ring.Abs
import Mathlib.Tactic.Ring
import CliffordT.Proofs.Ring.Algebra

namespace CliffordT.ZSqrt2

/-! ## Roots of integers -/

/-- The root of an integer is the one that is not negative. -/
theorem natSqrt?_eq_some_iff {n r : Int} : natSqrt? n = some r ↔ 0 ≤ r ∧ r * r = n := by
  simp only [natSqrt?]
  constructor
  · intro h
    split at h
    · next hn =>
      obtain rfl := Option.some.inj h
      exact ⟨Int.natCast_nonneg _, hn.2⟩
    · exact absurd h (by simp)
  · rintro ⟨h0, rfl⟩
    have hroot : ((r * r).toNat.sqrt : Int) = r := by
      obtain ⟨k, rfl⟩ := Int.eq_ofNat_of_zero_le h0
      rw [← Int.natCast_mul, Int.toNat_natCast, Nat.sqrt_eq]
    simp only [hroot, and_true]
    rw [if_pos (mul_self_nonneg r)]

/-- The root of the square of any integer. -/
theorem natSqrt?_mul_self (p : Int) : natSqrt? (p * p) = some |p| :=
  natSqrt?_eq_some_iff.2 ⟨abs_nonneg p, abs_mul_abs_self p⟩

/-! ## What is found is a root -/

theorem sqrtWith?_sound {x r : ZSqrt2} {s : Int} (h : x.sqrtWith? s = some r) : r * r = x := by
  unfold sqrtWith? at h
  split at h
  · split at h
    · have hr := List.find?_some h
      exact beq_iff_eq.1 hr
    · exact absurd h (by simp)
  · exact absurd h (by simp)

theorem sqrt?_sound {x r : ZSqrt2} (h : x.sqrt? = some r) : r * r = x := by
  unfold sqrt? at h
  split at h
  · next hx =>
    obtain rfl := Option.some.inj h
    rw [hx]
    rfl
  · split at h
    · rcases Option.or_eq_some_iff.1 h with h | ⟨-, h⟩ <;> exact sqrtWith?_sound h
    · exact absurd h (by simp)

/-! ## A root is found -/

/-- One of the two candidates is the root `r` up to sign. -/
theorem candidate_mul_self (r : ZSqrt2) :
    ∃ c ∈ [(⟨|r.a|, |r.b|⟩ : ZSqrt2), ⟨-|r.a|, |r.b|⟩], c * c = r * r := by
  rcases abs_cases r.a with ⟨ha, -⟩ | ⟨ha, -⟩ <;> rcases abs_cases r.b with ⟨hb, -⟩ | ⟨hb, -⟩
  · exact ⟨⟨|r.a|, |r.b|⟩, by simp, by rw [ha, hb]⟩
  · refine ⟨⟨-|r.a|, |r.b|⟩, by simp, ?_⟩
    rw [ha, hb]
    exact neg_mul_neg r r
  · refine ⟨⟨-|r.a|, |r.b|⟩, by simp, ?_⟩
    rw [ha, hb, neg_neg]
  · refine ⟨⟨|r.a|, |r.b|⟩, by simp, ?_⟩
    rw [ha, hb]
    exact neg_mul_neg r r

/-- With the norm of a root for the root of the norm, a root is found. -/
theorem sqrtWith?_norm_isSome (r : ZSqrt2) : ((r * r).sqrtWith? r.norm).isSome := by
  have hp : (r * r).a + r.norm = 2 * (r.a * r.a) := by
    simp only [mul_a, norm]
    ring
  have hq : (r * r).a - r.norm = 4 * (r.b * r.b) := by
    simp only [mul_a, norm]
    ring
  unfold sqrtWith?
  rw [hp, hq, if_pos ⟨Int.mul_emod_right 2 _, Int.mul_emod_right 4 _⟩,
    Int.mul_ediv_cancel_left _ (by decide), Int.mul_ediv_cancel_left _ (by decide),
    natSqrt?_mul_self, natSqrt?_mul_self]
  obtain ⟨c, hc, hcr⟩ := candidate_mul_self r
  exact List.find?_isSome.2 ⟨c, hc, beq_iff_eq.2 hcr⟩

theorem sqrt?_complete (r : ZSqrt2) : (r * r).sqrt?.isSome := by
  unfold sqrt?
  split
  · rfl
  · rw [norm_mul, natSqrt?_mul_self, Option.isSome_or, Bool.or_eq_true]
    rcases abs_choice r.norm with h | h
    · refine .inl ?_
      rw [h]
      exact sqrtWith?_norm_isSome r
    · refine .inr ?_
      rw [h, neg_neg]
      exact sqrtWith?_norm_isSome r

/-- There is no root for the elements that are no squares alone. -/
theorem sqrt?_eq_none_iff {x : ZSqrt2} : x.sqrt? = none ↔ ¬ IsSquare x := by
  constructor
  · rintro h ⟨r, rfl⟩
    have hsome := sqrt?_complete r
    rw [h] at hsome
    exact absurd hsome (by simp)
  · intro h
    refine Option.eq_none_iff_forall_not_mem.2 fun r hr => ?_
    exact h ⟨r, (sqrt?_sound hr).symm⟩

/-- A square has its root returned; an element that is no square gives a fault, which names it, and
nothing else does. -/
theorem sqrt_decides_squares (x : ZSqrt2) :
    (IsSquare x → ∃ r, x.sqrt = .ok r ∧ r * r = x) ∧
    ((∃ reason, x.sqrt = .error (.internal reason)) ↔ ¬ IsSquare x) ∧
    ∀ fault, x.sqrt = .error fault →
      fault = .internal (toString x ++ " is not a square in Z[√2]") := by
  unfold sqrt
  cases h : x.sqrt? with
  | none =>
    have hx : ¬ IsSquare x := sqrt?_eq_none_iff.1 h
    exact ⟨fun hsq => absurd hsq hx, iff_of_true ⟨_, rfl⟩ hx, fun _ hf => (Except.error.inj hf).symm⟩
  | some r =>
    have hr : r * r = x := sqrt?_sound h
    refine ⟨fun _ => ⟨r, rfl, hr⟩, iff_of_false ?_ (not_not_intro ⟨r, hr.symm⟩), ?_⟩
    · rintro ⟨_, hf⟩
      exact absurd hf (by simp)
    · intro _ hf
      exact absurd hf (by simp)

end CliffordT.ZSqrt2
