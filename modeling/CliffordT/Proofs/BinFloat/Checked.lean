/-
Checked operations agree with those on exponents of any size.

`Agrees m v` says of a computation with exponents of 64 bits that it gives the value `v`, or ends because an exponent
does not fit. It is kept by putting computations one after the other, so that each checked operation is followed
through its cases next to the operation of the same name. The loops of the arctangent agree step by step.
-/
import CliffordT.BinFloat.Checked
import CliffordT.Proofs.BinFloat.Rounding

namespace CliffordT.Checked

/-- The computation gives `v`, unless an exponent does not fit. -/
def Agrees {α : Type} (m : Except Fault α) (v : α) : Prop := m = .ok v ∨ m = .error .overflow

section

variable {α β : Type} {m : Except Fault α} {f : α → Except Fault β} {v w : α} {b : β}

theorem Agrees.ok (v : α) : Agrees (.ok v) v := .inl rfl

theorem Agrees.overflow (v : α) : Agrees (.error .overflow) v := .inr rfl

theorem Agrees.bind (h : Agrees m v) (hf : Agrees (f v) b) : Agrees (m >>= f) b := by
  rcases h with rfl | rfl
  · exact hf
  · exact .overflow b

theorem Agrees.eq_of_ok (h : Agrees m v) (hm : m = .ok w) : w = v := by
  rcases h with rfl | rfl
  · cases hm
    rfl
  · cases hm

/-- Where it gives a value, it is the one that is named. -/
theorem Agrees.eq_ok (h : Agrees m v) (hm : ∃ w, m = .ok w) : m = .ok v := by
  obtain ⟨w, hw⟩ := hm
  rw [hw, h.eq_of_ok hw]

theorem ok_bind (v : α) (f : α → Except Fault β) : (Except.ok v >>= f) = f v := rfl

end

theorem agrees_int64 (n : Int) : Agrees (int64 n) n := by
  unfold int64
  split
  · exact .ok n
  · exact .overflow n

theorem inInt64_iff {n : Int} : InInt64 n ↔ -2 ^ 63 ≤ n ∧ n < 2 ^ 63 := Iff.rfl

theorem int64_eq_ok {n : Int} (h : InInt64 n) : int64 n = .ok n := if_pos h

theorem int64_eq_overflow {n : Int} (h : ¬ InInt64 n) : int64 n = .error .overflow := if_neg h

/-! ## Operations -/

section

variable {y : BinFloat}

theorem agrees_ofScaled (m e : Int) (p : Nat) : Agrees (ofScaled m e p) (.ofScaled m e p) :=
  (agrees_int64 _).bind (.ok _)

theorem agrees_withPrec (x : BinFloat) (p : Nat) : Agrees (withPrec x p) (x.withPrec p) := agrees_ofScaled _ _ _

theorem agrees_scaleTwo (x : BinFloat) (k : Int) : Agrees (scaleTwo x k) (x.scaleTwo k) := by
  unfold scaleTwo BinFloat.scaleTwo
  split
  · exact .ok x
  · exact (agrees_int64 _).bind (.ok _)

theorem agrees_aligned (x y : BinFloat) : Agrees (aligned x y) (x.aligned y) :=
  (agrees_int64 _).bind ((agrees_int64 _).bind (.ok _))

theorem agrees_cmp (x y : BinFloat) : Agrees (cmp x y) (x.cmp y) := by
  unfold cmp BinFloat.cmp
  split
  · exact .ok _
  · split
    · exact .ok _
    · refine (agrees_int64 _).bind ((agrees_int64 _).bind ?_)
      cases compare x.top y.top with
      | lt => exact .ok _
      | eq => exact (agrees_aligned x y).bind (.ok _)
      | gt => exact .ok _

theorem agrees_integerPart (part : BinFloat → Int) (x : BinFloat) : Agrees (integerPart part x) (part x) := by
  unfold integerPart
  split
  · exact .ok _
  · exact (agrees_int64 _).bind (.ok _)

theorem agrees_add (x y : BinFloat) : Agrees (add x y) (x + y) := by
  show Agrees (add x y) (BinFloat.add x y)
  unfold add BinFloat.add
  dsimp only
  split
  · exact agrees_withPrec x _
  · split
    · exact agrees_withPrec y _
    · refine (agrees_int64 _).bind ((agrees_int64 _).bind ((agrees_int64 _).bind ?_))
      split
      · exact agrees_withPrec x _
      · refine (agrees_int64 _).bind ?_
        split
        · exact agrees_withPrec y _
        · exact (agrees_aligned x y).bind (agrees_ofScaled _ _ _)

theorem agrees_sub (x y : BinFloat) : Agrees (sub x y) (x - y) := agrees_add x (-y)

theorem agrees_mul (x y : BinFloat) : Agrees (mul x y) (x * y) := (agrees_int64 _).bind (agrees_ofScaled _ _ _)

theorem agrees_div? (x y : BinFloat) : Agrees (div? x y) (x.div? y) := by
  unfold div? BinFloat.div?
  dsimp only
  split
  · exact .ok _
  · split
    · exact .ok _
    · exact (agrees_int64 _).bind ((agrees_int64 _).bind ((agrees_ofScaled _ _ _).bind (.ok _)))

theorem agrees_div (x : BinFloat) (hy : y.value ≠ 0) : Agrees (div x y) (x / y) := by
  refine (agrees_div? x y).bind ?_
  rw [BinFloat.div?_eq_some hy]
  exact .ok _

theorem agrees_sqrt (x : BinFloat) : Agrees (sqrt x) x.sqrt := by
  unfold sqrt BinFloat.sqrt
  split
  · exact (agrees_int64 _).bind ((agrees_int64 _).bind (agrees_ofScaled _ _ _))
  · exact .ok _

/-! ## Loops -/

/-- Steps that agree make runs that agree. -/
theorem agrees_iterate {α : Type} {step : α → Except Fault (Option α)} {plain : α → Option α}
    (h : ∀ s, Agrees (step s) (plain s)) (n : Nat) (s : α) :
    Agrees (iterate step n s) (CliffordT.iterate plain n s) := by
  induction n generalizing s with
  | zero => exact .ok s
  | succ n ih =>
    refine (h s).bind ?_
    rw [CliffordT.iterate]
    cases plain s with
    | none => exact .ok s
    | some s' => exact ih s'

theorem agrees_reaches (x : BinFloat) (e : Int) : Agrees (reaches x e) (!x.isZero && e < x.top) := by
  unfold reaches
  cases x.isZero with
  | true => exact .ok false
  | false => exact (agrees_int64 _).bind (.ok _)

end

end CliffordT.Checked
