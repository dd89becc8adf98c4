/-
What a computation is sure to do, whatever it draws.

`Draw.Ensures x P` says that every value that `x` can draw has the property `P`. For a search,
`Search.Ensures x P` is a statement of total correctness: from every state the search comes to a
value, never to a fault, and the value has the property `P`; `Search.Gives x P` is the one of partial
correctness, in which the search may fail. `Search.Faults x Q` is about the faults alone. All are closed
under binding, so that a property of a program is put together from those of its parts.
-/
import CliffordT.Random.Search

namespace CliffordT

namespace Draw

variable {α β : Type}

/-- Every value that is drawn has the property `P`, from every state of the generator. -/
def Ensures (x : Draw α) (P : α → Prop) : Prop := ∀ g, P (x.run g).1

/-- Running a sequence runs its first part, and then the second from the state that is left. -/
theorem run_bind (x : Draw α) (f : α → Draw β) (g : Generator) :
    (x >>= f).run g = (f (x.run g).1).run (x.run g).2 := rfl

theorem Ensures.pure {P : α → Prop} {a : α} (h : P a) : Ensures (pure a) P := fun _ => h

theorem Ensures.bind {P : α → Prop} {Q : β → Prop} {x : Draw α} {f : α → Draw β}
    (hx : Ensures x P) (hf : ∀ a, P a → Ensures (f a) Q) : Ensures (x >>= f) Q :=
  fun g => hf _ (hx g) _

theorem Ensures.trivial (x : Draw α) : Ensures x fun _ => True := fun _ => True.intro

/-- What is drawn below a positive number is below it. -/
theorem below_lt {n : Nat} (hn : 0 < n) : Ensures (Generator.below n) (· < n) :=
  .bind (.trivial _) fun _ _ => .pure (Nat.mod_lt _ hn)

/-! ## Draws that may give up -/

/-- A sequence goes on with the value of its first part. -/
theorem run_bind_some {x : OptionT Draw α} {f : α → OptionT Draw β} {g g' : Generator} {a : α}
    (h : x.run.run g = (some a, g')) : (x >>= f).run.run g = (f a).run.run g' := by
  show (match (x.run.run g).1 with
    | some a => (f a).run
    | none => pure none : Draw (Option β)).run (x.run.run g).2 = _
  rw [h]

/-- A sequence gives up with its first part. -/
theorem run_bind_none {x : OptionT Draw α} {f : α → OptionT Draw β} {g g' : Generator}
    (h : x.run.run g = (none, g')) : (x >>= f).run.run g = (none, g') := by
  show (match (x.run.run g).1 with
    | some a => (f a).run
    | none => pure none : Draw (Option β)).run (x.run.run g).2 = _
  rw [h]
  rfl

/-- A plain draw does not give up. -/
theorem run_lift (x : Draw α) (g : Generator) :
    (liftM x : OptionT Draw α).run.run g = (some (x.run g).1, (x.run g).2) := rfl

end Draw

namespace Search

variable {α β : Type}

/-- The search comes to a value with the property `P`, from every state. -/
def Ensures (x : Search α) (P : α → Prop) : Prop := ∀ s, ∃ a s', x.run s = (.ok a, s') ∧ P a

/-- A sequence whose first part comes to a value goes on with it. -/
theorem run_bind_of_ok {x : Search α} {f : α → Search β} {s s' : SearchState} {a : α}
    (h : x.run s = (.ok a, s')) : (x >>= f).run s = (f a).run s' := by
  show ExceptT.bindCont f (x.run s).1 (x.run s).2 = _
  rw [h]
  rfl

/-- Drawing leaves the messages as they are. -/
theorem run_draw (x : Draw α) (s : SearchState) :
    (draw x).run s
      = (.ok (x.run s.generator).1, { s with generator := (x.run s.generator).2 }) := rfl

theorem Ensures.pure {P : α → Prop} {a : α} (h : P a) : Ensures (pure a) P :=
  fun s => ⟨a, s, rfl, h⟩

theorem Ensures.bind {P : α → Prop} {Q : β → Prop} {x : Search α} {f : α → Search β}
    (hx : Ensures x P) (hf : ∀ a, P a → Ensures (f a) Q) : Ensures (x >>= f) Q := by
  intro s
  obtain ⟨a, s', hrun, ha⟩ := hx s
  rw [run_bind_of_ok hrun]
  exact hf a ha s'

/-- A search that only draws ensures what the draw does. -/
theorem Ensures.draw {P : α → Prop} {x : Draw α} (hx : x.Ensures P) : Ensures (draw x) P :=
  fun s => ⟨_, _, run_draw x s, hx s.generator⟩

/-- A warning ensures nothing but that the search goes on. -/
theorem Ensures.warn (text : String) : Ensures (warn text) fun _ => True :=
  fun _ => ⟨_, _, rfl, True.intro⟩

/-! ## Searches that may fail -/

/-- A value that the search comes to has the property `P`. -/
def Gives (x : Search α) (P : α → Prop) : Prop := ∀ s a s', x.run s = (.ok a, s') → P a

/-- A sequence comes to a value only if its first part does. -/
theorem exists_run_of_run_bind {x : Search α} {f : α → Search β} {s s' : SearchState} {b : β}
    (h : (x >>= f).run s = (.ok b, s')) :
    ∃ a s₁, x.run s = (.ok a, s₁) ∧ (f a).run s₁ = (.ok b, s') := by
  change ExceptT.bindCont f (x.run s).1 (x.run s).2 = _ at h
  cases hx : x.run s with
  | mk r s₁ =>
    rw [hx] at h
    cases r with
    | error e => cases h
    | ok a => exact ⟨a, s₁, rfl, h⟩

theorem Gives.pure {P : α → Prop} {a : α} (h : P a) : Gives (pure a) P := by
  intro s b s' hrun
  cases hrun
  exact h

theorem Gives.bind {P : α → Prop} {Q : β → Prop} {x : Search α} {f : α → Search β}
    (hx : Gives x P) (hf : ∀ a, P a → Gives (f a) Q) : Gives (x >>= f) Q := by
  intro s b s' hrun
  obtain ⟨a, s₁, hxrun, hfrun⟩ := exists_run_of_run_bind hrun
  exact hf a (hx s a s₁ hxrun) s₁ b s' hfrun

/-- What succeeds or fails without drawing. -/
theorem Gives.lift {P : α → Prop} {x : Except Fault α} (h : ∀ a, x = .ok a → P a) :
    Gives (liftM x) P := by
  intro s a s' hrun
  cases x with
  | error e => cases hrun
  | ok b =>
    cases hrun
    exact h a rfl

theorem Gives.trivial (x : Search α) : Gives x fun _ => True := fun _ _ _ _ => True.intro

theorem Ensures.gives {P : α → Prop} {x : Search α} (h : Ensures x P) : Gives x P := by
  intro s a s' hrun
  obtain ⟨b, s'', hrun', hb⟩ := h s
  rw [hrun] at hrun'
  cases hrun'
  exact hb

/-- The first value that is found among those for the elements of a list. -/
theorem Gives.findSomeM {P : β → Prop} {f : α → Search (Option β)} {l : List α}
    (hf : ∀ a, Gives (f a) fun r => ∀ b, r = some b → P b) :
    Gives (l.findSomeM? f) fun r => ∀ b, r = some b → P b := by
  induction l with
  | nil =>
    refine Gives.pure fun b hb => ?_
    cases hb
  | cons a l ih =>
    unfold List.findSomeM?
    refine (hf a).bind fun r hr => ?_
    cases r with
    | none => exact ih
    | some b => exact Gives.pure hr

/-- Looking for the first value in a list comes to an end, if the search for each element does. -/
theorem Ensures.findSomeM_trivial {f : α → Search (Option β)} (hf : ∀ b, Ensures (f b) fun _ => True) (l : List α) :
    Ensures (l.findSomeM? f) fun _ => True := by
  induction l with
  | nil => exact .pure True.intro
  | cons b l ih =>
    unfold List.findSomeM?
    refine (hf b).bind fun r _ => ?_
    cases r with
    | none => exact ih
    | some c => exact .pure True.intro

/-- Something is found in a list if it is found for one of its elements, and the search goes on after the others. -/
theorem Ensures.findSomeM {f : α → Search (Option β)} {l : List α} {a : α} (ha : a ∈ l)
    (hf : ∀ b, Ensures (f b) fun _ => True) (hfa : Ensures (f a) fun r => r.isSome = true) :
    Ensures (l.findSomeM? f) fun r => r.isSome = true := by
  induction l with
  | nil => cases ha
  | cons b l ih =>
    unfold List.findSomeM?
    rcases List.mem_cons.1 ha with rfl | hmem
    · refine hfa.bind fun r hr => ?_
      cases r with
      | none => cases hr
      | some c => exact .pure hr
    · refine (hf b).bind fun r _ => ?_
      cases r with
      | none => exact ih hmem
      | some c => exact .pure rfl

/-! ## The faults of a search -/

/-- Every fault that the search ends in has the property `Q`. With a property that no fault has this says that
the search comes to a value. -/
def Faults (x : Search α) (Q : Fault → Prop) : Prop := ∀ s e s', x.run s = (.error e, s') → Q e

theorem Faults.exists_run {x : Search α} (h : Faults x fun _ => False) (s : SearchState) :
    ∃ a s', x.run s = (.ok a, s') := by
  cases hrun : x.run s with
  | mk r s' =>
    cases r with
    | error e => exact (h s e s' hrun).elim
    | ok a => exact ⟨a, s', rfl⟩

theorem Ensures.faults {P : α → Prop} {Q : Fault → Prop} {x : Search α} (h : Ensures x P) : Faults x Q := by
  intro s e s' hrun
  obtain ⟨a, s'', hrun', -⟩ := h s
  rw [hrun] at hrun'
  cases hrun'

theorem Faults.pure {Q : Fault → Prop} (a : α) : Faults (pure a) Q := by
  intro s e s' hrun
  cases hrun

/-- A sequence ends in a fault of its first part, or of what follows. -/
theorem Faults.bind {Q : Fault → Prop} {x : Search α} {f : α → Search β} (hx : Faults x Q)
    (hf : ∀ a, Faults (f a) Q) : Faults (x >>= f) Q := by
  intro s e s' hrun
  change ExceptT.bindCont f (x.run s).1 (x.run s).2 = _ at hrun
  cases hxrun : x.run s with
  | mk r s₁ =>
    rw [hxrun] at hrun
    cases r with
    | error e' =>
      cases hrun
      exact hx s e s₁ hxrun
    | ok a => exact hf a s₁ e s' hrun

theorem Faults.lift {Q : Fault → Prop} {x : Except Fault α} (h : ∀ e, x = .error e → Q e) :
    Faults (liftM x) Q := by
  intro s e s' hrun
  cases x with
  | error e' =>
    cases hrun
    exact h e rfl
  | ok a => cases hrun

theorem Faults.findSomeM {Q : Fault → Prop} {f : α → Search (Option β)} {l : List α}
    (hf : ∀ a, Faults (f a) Q) : Faults (l.findSomeM? f) Q := by
  induction l with
  | nil => exact Faults.pure none
  | cons a l ih =>
    unfold List.findSomeM?
    refine (hf a).bind fun r => ?_
    cases r with
    | none => exact ih
    | some b => exact Faults.pure (some b)

end Search

end CliffordT
