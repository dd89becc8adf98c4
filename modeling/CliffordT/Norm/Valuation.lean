/-
How often one element of `ℤ[√2]` divides another.

The norm is multiplicative, so that each division by an element whose norm is not `±1` makes the
norm smaller; a unit divides everything without end and is given the count zero.
-/
import CliffordT.Ring.Euclid

namespace CliffordT.ZSqrt2

/-- An exact quotient times the divisor is the dividend. -/
theorem mul_of_exactDiv?_eq_some {x y q : ZSqrt2} (h : x.exactDiv? y = some q) : q * y = x := by
  simp only [exactDiv?] at h
  split at h
  · contradiction
  · rename_i hn
    split at h
    · rename_i hd
      injection h with h
      have ha := Int.mul_ediv_cancel' (Int.dvd_of_emod_eq_zero hd.1)
      have hb := Int.mul_ediv_cancel' (Int.dvd_of_emod_eq_zero hd.2)
      have hqa : (x * y.dot).a / y.norm = q.a := by rw [← h]
      have hqb : (x * y.dot).b / y.norm = q.b := by rw [← h]
      rw [hqa] at ha
      rw [hqb] at hb
      simp only [mul_a, mul_b, dot] at ha hb
      ext
      · apply Int.eq_of_mul_eq_mul_left hn
        simp only [mul_a, norm] at hn ha hb ⊢
        grind
      · apply Int.eq_of_mul_eq_mul_left hn
        simp only [mul_b, norm] at hn ha hb ⊢
        grind
    · contradiction

/-- An exact division by an element whose norm is not `±1` makes the norm smaller. -/
theorem natAbs_norm_exactDiv?_lt {x y q : ZSqrt2} (hx : x ≠ 0) (hy : 1 < y.norm.natAbs)
    (h : x.exactDiv? y = some q) : q.norm.natAbs < x.norm.natAbs := by
  have hm : x.norm.natAbs = q.norm.natAbs * y.norm.natAbs := by
    rw [← mul_of_exactDiv?_eq_some h, norm_mul, Int.natAbs_mul]
  have hx' : x.norm.natAbs ≠ 0 := by
    intro h0
    exact hx ((norm_eq_zero_iff x).1 (Int.natAbs_eq_zero.1 h0))
  have hq : 0 < q.norm.natAbs := by
    apply Nat.pos_of_ne_zero
    intro h0
    rw [h0, Nat.zero_mul] at hm
    exact hx' hm
  rw [hm]
  exact (Nat.lt_mul_iff_one_lt_right hq).2 hy

/-- How often `y` divides `x`. The count is zero where it would not end: for `x = 0`, and for a unit
`y`. -/
def valuation (x y : ZSqrt2) : Nat :=
  if _h : x ≠ 0 ∧ 1 < y.norm.natAbs then
    match _hq : x.exactDiv? y with
    | some q => valuation q y + 1
    | none => 0
  else 0
termination_by x.norm.natAbs
decreasing_by exact natAbs_norm_exactDiv?_lt _h.1 _h.2 _hq

end CliffordT.ZSqrt2
