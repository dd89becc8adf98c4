/-
What the computations of a session do to it, apart from the messages.

The messages of a session do not influence its answers. `Session.Answers m s r s'` says what a
computation gives from a session `s`, and which session it leaves, whatever was reported before; both
sessions count up to their messages only. The relation is closed under binding, and every computation of
a session has an equation of this kind, in terms of functions that do not report: the closed form of an
angle, the outcome of a search, and the session with an outcome recorded or a word given out.
-/
import Mathlib.Tactic.Common
import CliffordT.Session.Basic

namespace CliffordT.Session

variable {α β : Type}

/-! ## Runs up to messages -/

/-- Whatever was reported in the session `s` before, the computation gives `r` and leaves the session
`s'` up to its messages. -/
def Answers (m : InSession α) (s : Session) (r : Except Fault α) (s' : Session) : Prop :=
  ∀ reports, ∃ reports', m.run { s with reports } = (r, { s' with reports := reports' })

section Answers

variable {m : InSession α} {f : α → InSession β} {g : Session → InSession β} {s s₁ s₂ : Session}
  {a : α} {r : Except Fault β}

theorem Answers.exists_run {r : Except Fault α} (h : Answers m s r s₁) :
    ∃ reports, m.run s = (r, { s₁ with reports }) :=
  h s.reports

/-- The result of a run is determined. -/
theorem Answers.run_fst {r : Except Fault α} (h : Answers m s r s₁) : (m.run s).1 = r := by
  obtain ⟨reports, hrun⟩ := h.exists_run
  rw [hrun]

theorem Answers.pure (a : α) (s : Session) : Answers (pure a) s (.ok a) s :=
  fun reports => ⟨reports, rfl⟩

theorem Answers.throw (e : Fault) (s : Session) :
    Answers (throw e : InSession α) s (.error e) s :=
  fun reports => ⟨reports, rfl⟩

theorem Answers.bind (h : Answers m s (.ok a) s₁) (h' : Answers (f a) s₁ r s₂) :
    Answers (m >>= f) s r s₂ := by
  intro reports
  obtain ⟨reports₁, hm⟩ := h reports
  obtain ⟨reports₂, hf⟩ := h' reports₁
  refine ⟨reports₂, ?_⟩
  show ExceptT.bindCont f (m.run { s with reports }).1 (m.run { s with reports }).2 = _
  rw [hm]
  exact hf

/-- A sequence fails with its first part. -/
theorem Answers.bind_error {e : Fault} (h : Answers m s (.error e) s₁) :
    Answers (m >>= f) s (.error e) s₁ := by
  intro reports
  obtain ⟨reports₁, hm⟩ := h reports
  refine ⟨reports₁, ?_⟩
  show ExceptT.bindCont f (m.run { s with reports }).1 (m.run { s with reports }).2 = _
  rw [hm]
  rfl

/-- What follows a look at the session does not depend on the messages in it. -/
theorem Answers.get (h : ∀ reports, Answers (g { s with reports }) s r s₁) :
    Answers (get >>= g) s r s₁ :=
  fun reports => h reports reports

/-- A change that does not look at the messages. -/
theorem Answers.modify {u : Session → Session}
    (h : ∀ reports, ∃ reports', u { s with reports } = { u s with reports := reports' }) :
    Answers (modify u) s (.ok ()) (u s) := by
  intro reports
  obtain ⟨reports', hu⟩ := h reports
  exact ⟨reports', by rw [← hu]; rfl⟩

end Answers

/-! ## Messages -/

theorem info_answers (text : String) (s : Session) : Answers (info text) s (.ok ()) s :=
  fun reports => ⟨reports.push ⟨.info, text⟩, rfl⟩

theorem forM_info_answers (texts : List String) (s : Session) :
    Answers (texts.forM info) s (.ok ()) s := by
  induction texts with
  | nil => exact .pure () s
  | cons text texts ih => exact (info_answers text s).bind ih

/-! ## The parts of an answer -/

def closed? (s : Session) (angle : BinFloat) : Option Word :=
  ClosedForm.find? (angle / s.ctx.pi) s.ctx.eps

def emitted (s : Session) (word : Word) : Session :=
  { s with phaseCount := s.phaseCount + phaseOf word }

def outcome (s : Session) (angle : BinFloat) (key : String) : Except Fault Found :=
  (s.searchWord angle key).1

def finalWord (found : Found) : Word := (Word.fullSimplify found.word).dropIdentity

/-- Whether an outcome passes the check, if there is one, and comes within the accuracy. -/
def accepts (s : Session) (found : Found) : Bool :=
  (!s.check || reproduces (finalWord found) found.approximation)
    && decide (found.approximation.error < s.ctx.eps)

def recorded (s : Session) (key : Option String) (found : Found) : Session :=
  { s with
    valid := s.valid && s.accepts found
    cache := (key.map fun k => (k, finalWord found)).toList ++ s.cache }

theorem emit_answers (word : Word) (s : Session) : Answers (emit word) s (.ok word) (s.emitted word) :=
  fun reports => ⟨reports, rfl⟩

theorem closedForm?_answers (s : Session) (angle : BinFloat) :
    Answers (closedForm? angle) s (.ok (s.closed? angle)) s := by
  refine .get fun reports => ?_
  have hfind : ClosedForm.find? (angle / s.ctx.pi) s.ctx.eps = s.closed? angle := rfl
  dsimp only
  rw [hfind]
  cases s.closed? angle with
  | none => exact .pure none s
  | some word =>
    cases hdetails : s.details with
    | false => exact .pure (some word) s
    | true => exact (info_answers _ s).bind (.pure (some word) s)

theorem search_answers (s : Session) (angle : BinFloat) (key : String) :
    Answers (search angle key) s (s.outcome angle key) s := by
  refine .get fun reports => ?_
  have hpass (more : Array Report) :
      Answers (modify fun s => { s with reports := s.reports ++ more }) s (.ok ()) s :=
    fun reports' => ⟨reports' ++ more, rfl⟩
  refine (hpass _).bind ?_
  show Answers (liftM (s.outcome angle key)) s (s.outcome angle key) s
  cases s.outcome angle key with
  | error e => exact .throw e s
  | ok found => exact .pure found s

/-- What `record` does after the check: the test of the accuracy, the details and the memory. -/
theorem record_rest_answers (s : Session) (angle : BinFloat) (key : Option String) (found : Found) :
    Answers (do
        modify fun s => { s with valid := s.valid && found.approximation.error < s.ctx.eps }
        if (← get).details then (detailReports angle found.approximation (finalWord found)).forM info
        match key with
        | some k => modify fun s => { s with cache := (k, finalWord found) :: s.cache }
        | none => pure ()
        return finalWord found) s (.ok (finalWord found))
      { s with
        valid := s.valid && decide (found.approximation.error < s.ctx.eps)
        cache := (key.map fun k => (k, finalWord found)).toList ++ s.cache } := by
  have hkey (s : Session) : Answers (do
      match key with
      | some k => modify fun s => { s with cache := (k, finalWord found) :: s.cache }
      | none => pure ()
      return finalWord found) s (.ok (finalWord found))
      { s with cache := (key.map fun k => (k, finalWord found)).toList ++ s.cache } := by
    cases key with
    | none => exact .pure _ s
    | some k =>
      exact (Answers.modify (u := fun s => { s with cache := (k, finalWord found) :: s.cache })
        fun reports => ⟨reports, rfl⟩).bind (.pure _ _)
  refine (Answers.modify
    (u := fun s => { s with valid := s.valid && found.approximation.error < s.ctx.eps })
    fun reports => ⟨reports, rfl⟩).bind (.get fun reports => ?_)
  cases hdetails : s.details with
  | false => exact hkey _
  | true => exact (forM_info_answers _ _).bind (hkey _)

/-- Recording an outcome keeps its final word and whether it is good. -/
theorem record_answers (s : Session) (angle : BinFloat) (key : Option String) (found : Found) :
    Answers (record angle key found) s (.ok (finalWord found)) (s.recorded key found) := by
  refine .get fun reports => ?_
  cases hcheck : s.check with
  | false =>
    have hsame : s.recorded key found = { s with
        valid := s.valid && decide (found.approximation.error < s.ctx.eps)
        cache := (key.map fun k => (k, finalWord found)).toList ++ s.cache } := by
      simp [recorded, accepts, hcheck]
    rw [hsame]
    exact record_rest_answers s angle key found
  | true =>
    have hsame : s.recorded key found = { s with
        valid := s.valid && reproduces (finalWord found) found.approximation
          && decide (found.approximation.error < s.ctx.eps)
        cache := (key.map fun k => (k, finalWord found)).toList ++ s.cache } := by
      simp [recorded, accepts, hcheck, Bool.and_assoc]
    rw [hsame]
    refine (info_answers _ s).bind ((Answers.modify
      (u := fun s => { s with valid := s.valid && reproduces (finalWord found) found.approximation })
      fun reports => ⟨reports, rfl⟩).bind ?_)
    exact record_rest_answers _ angle key found

/-! ## A word asked for -/

theorem searchAndRecord_answers {s : Session} {angle : BinFloat} {key : String} {found : Found}
    (h : s.outcome angle key = .ok found) (remember : Bool) :
    Answers (searchAndRecord angle key remember) s (.ok (finalWord found))
      (s.recorded (if remember then some key else none) found) := by
  have hsearch := search_answers s angle key
  rw [h] at hsearch
  exact hsearch.bind (record_answers s angle _ found)

theorem searchAndRecord_error {s : Session} {angle : BinFloat} {key : String} {e : Fault}
    (h : s.outcome angle key = .error e) (remember : Bool) :
    Answers (searchAndRecord angle key remember) s (.error e) s := by
  have hsearch := search_answers s angle key
  rw [h] at hsearch
  exact hsearch.bind_error

section Word

variable {s : Session} {angle : BinFloat}

/-- An angle with a closed form is answered by it. -/
theorem word_of_closed {w : Word} (h : s.closed? angle = some w) :
    Answers (word angle) s (.ok w) (s.emitted w) := by
  have hclosed := closedForm?_answers s angle
  rw [h] at hclosed
  exact hclosed.bind (emit_answers w s)

variable (hopen : s.closed? angle = none) (htimer : s.timer = false)
include hopen htimer

theorem word_of_open {r : Except Fault Word} {s' : Session}
    (h : Answers (match s.cached? (s.keyOf angle) with
      | some w => emit w
      | none => do emit (← searchAndRecord angle (s.keyOf angle) true)) s r s') :
    Answers (word angle) s r s' := by
  have hclosed := closedForm?_answers s angle
  rw [hopen] at hclosed
  refine hclosed.bind (.get fun reports => ?_)
  show Answers (if s.timer = true then _ else _) s r s'
  rw [htimer]
  exact h

/-- An angle whose key is remembered is answered from the memory. -/
theorem word_of_cached {w : Word} (h : s.cached? (s.keyOf angle) = some w) :
    Answers (word angle) s (.ok w) (s.emitted w) := by
  refine word_of_open hopen htimer ?_
  rw [h]
  exact emit_answers w s

/-- Any other angle is searched for, and remembered. -/
theorem word_of_found {found : Found} (h : s.cached? (s.keyOf angle) = none)
    (hfound : s.outcome angle (s.keyOf angle) = .ok found) :
    Answers (word angle) s (.ok (finalWord found))
      ((s.recorded (some (s.keyOf angle)) found).emitted (finalWord found)) := by
  refine word_of_open hopen htimer ?_
  rw [h]
  exact (searchAndRecord_answers hfound true).bind (emit_answers _ _)

theorem word_of_error {e : Fault} (h : s.cached? (s.keyOf angle) = none)
    (herror : s.outcome angle (s.keyOf angle) = .error e) :
    Answers (word angle) s (.error e) s := by
  refine word_of_open hopen htimer ?_
  rw [h]
  exact (searchAndRecord_error herror true).bind_error

end Word

end CliffordT.Session
