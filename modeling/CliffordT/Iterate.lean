/-!
Bounded repetition of a step that says when it is done.

`iterate step n s` applies `step` until it answers `none`, at most `n` times. A run has come to its
own end when `step` answers `none` on its result; a bound that is large enough does not show in the
result, which `iterate_eq_of_done` states.
-/

namespace CliffordT

/-- Repeats `step` from `s` until it answers `none`, at most `n` times. -/
def iterate {α : Type} (step : α → Option α) : Nat → α → α
  | 0, s => s
  | n + 1, s =>
    match step s with
    | none => s
    | some s' => iterate step n s'

/-- A state on which the step is done is not changed. -/
theorem iterate_of_done {α : Type} {step : α → Option α} {s : α} (h : step s = none) (n : Nat) :
    iterate step n s = s := by
  cases n <;> simp [iterate, h]

/-- Once a run has come to its own end, a larger bound gives the same result. -/
theorem iterate_eq_of_done {α : Type} {step : α → Option α} {n : Nat} {s : α}
    (h : step (iterate step n s) = none) (k : Nat) :
    iterate step (n + k) s = iterate step n s := by
  induction n generalizing s with
  | zero =>
    rw [Nat.zero_add]
    exact iterate_of_done h k
  | succ n ih =>
    rw [Nat.add_right_comm]
    cases hs : step s with
    | none => simp [iterate, hs]
    | some s' =>
      simp only [iterate, hs] at h ⊢
      exact ih h

end CliffordT
