/-
Loops without and with a bound.

`LoopEnds step s v` is the run of a loop whose body is `step`: from a state the body goes on to the
next one, or leaves the loop with a value. A loop that does not end, or divides without end, has no
such run, so that a proof of `LoopEnds` is a proof of termination. For a step repeated up to a bound,
`iterate_preserves` is the induction over the run, with the number of steps made; a bounded run that has
come to its own end is the run of the loop without the bound, by `loopEnds_iterate`.
-/
import CliffordT.Iterate

namespace CliffordT

/-- The loop with the body `step`, started in the state `s`, ends with the value `v`. -/
inductive LoopEnds {σ τ : Type} (step : σ → σ ⊕ τ) : σ → τ → Prop
  | done {s : σ} {v : τ} (h : step s = .inr v) : LoopEnds step s v
  | next {s s' : σ} {v : τ} (h : step s = .inl s') (rest : LoopEnds step s' v) : LoopEnds step s v

/-- A loop whose body goes on from every state with a property, and keeps the property, does not end. -/
theorem LoopEnds.not_of_invariant {σ τ : Type} {step : σ → σ ⊕ τ} {P : σ → Prop}
    (hstep : ∀ s, P s → ∃ s', step s = .inl s' ∧ P s') {s : σ} {v : τ} (hs : P s) :
    ¬ LoopEnds step s v := by
  intro h
  induction h with
  | done h =>
    obtain ⟨s', hnext, -⟩ := hstep _ hs
    rw [hnext] at h
    cases h
  | next h rest ih =>
    obtain ⟨s', hnext, hs'⟩ := hstep _ hs
    rw [hnext] at h
    cases h
    exact ih hs'

/-- The loop that is left with the first state on which `step` is done. -/
def untilDone {α : Type} (step : α → Option α) (s : α) : α ⊕ α :=
  match step s with
  | none => .inr s
  | some s' => .inl s'

/-- Where a bounded run has come to its own end, the loop without the bound ends in the same state. -/
theorem loopEnds_iterate {α : Type} {step : α → Option α} {n : Nat} {s : α}
    (h : step (iterate step n s) = none) : LoopEnds (untilDone step) s (iterate step n s) := by
  induction n generalizing s with
  | zero =>
    rw [iterate] at h ⊢
    exact .done (by simp [untilDone, h])
  | succ n ih =>
    cases hnext : step s with
    | none =>
      rw [iterate_of_done hnext]
      exact .done (by simp [untilDone, hnext])
    | some s' =>
      have hrun : iterate step (n + 1) s = iterate step n s' := by simp [iterate, hnext]
      rw [hrun] at h ⊢
      exact .next (by simp [untilDone, hnext]) (ih h)

/-- What a step preserves holds at the end of a run of at most `n` steps; the run has then made all
of them, or is done. -/
theorem iterate_preserves {α : Type} {step : α → Option α} {P : Nat → α → Prop} {n : Nat} {s : α}
    (hstep : ∀ j s s', j < n → P j s → step s = some s' → P (j + 1) s') (hs : P 0 s) :
    ∃ j, j ≤ n ∧ P j (iterate step n s) ∧ (j = n ∨ step (iterate step n s) = none) := by
  induction n generalizing s P with
  | zero => exact ⟨0, Nat.le_refl 0, hs, .inl rfl⟩
  | succ n ih =>
    cases hnext : step s with
    | none =>
      have hrun : iterate step (n + 1) s = s := iterate_of_done hnext (n + 1)
      rw [hrun]
      exact ⟨0, Nat.zero_le _, hs, .inr hnext⟩
    | some s' =>
      have hrun : iterate step (n + 1) s = iterate step n s' := by simp [iterate, hnext]
      obtain ⟨j, hj, hP, hend⟩ := ih (P := fun j s => P (j + 1) s)
        (fun j s s' hj => hstep (j + 1) s s' (Nat.succ_lt_succ hj))
        (hstep 0 s s' (Nat.succ_pos n) hs hnext)
      rw [hrun]
      exact ⟨j + 1, Nat.succ_le_succ hj, hP, hend.imp_left (congrArg (· + 1))⟩

end CliffordT
