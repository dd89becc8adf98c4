/-
Calls of a session, and the answer for an angle on its own.

A session can be asked for a word, for a batch of words, or to turn its timer on or off; a run is a list of
such calls, some of which may fail. What a session answers for an angle that it does not remember is
`answer`: the closed form, or the final word of a search with the generator of the angle's key. It depends
on the context, the table and the seed only, in which all sessions of a run agree.
-/
import CliffordT.Proofs.Session.Batch

namespace CliffordT.Session

/-! ## Calls -/

/-- What a session can be asked for in one call. -/
inductive Request
  | word (angle : BinFloat)
  | words (angles : List BinFloat)
  | setTimer (on : Bool)

namespace Request

def angles : Request → List BinFloat
  | word angle => [angle]
  | words angles => angles
  | setTimer _ => []

def reply : Request → InSession (List Word)
  | word angle => do return [← Session.word angle]
  | words angles => Session.words angles
  | setTimer on => do
    Session.setTimer on
    return []

end Request

/-- The session after calls, whether they fail or not. -/
def after (s : Session) (qs : List Request) : Session := qs.foldl (fun s q => (q.reply.run s).2) s

def replies (s : Session) : List Request → List (Except Fault (List Word))
  | [] => []
  | q :: qs => (q.reply.run s).1 :: replies (q.reply.run s).2 qs

structure Reply where
  /-- Whether the timer was on. -/
  timed : Bool
  request : Request
  words : List Word

/-- The words of a call with their angles, and with whether the timer was on. -/
def Reply.entries (r : Reply) : List (Bool × BinFloat × Word) :=
  (r.request.angles.zip r.words).map (Prod.mk r.timed)

def answered (s : Session) : List Request → List Reply
  | [] => []
  | q :: qs =>
    match q.reply.run s with
    | (.ok ws, s') => ⟨s.timer, q, ws⟩ :: answered s' qs
    | (.error _, s') => answered s' qs

/-- What a session gives for one angle alone, with the timer on or off. -/
def alone (s : Session) (on : Bool) (angle : BinFloat) : Except Fault Word :=
  ((do setTimer on; word angle : InSession Word).run s).1

theorem after_cons (s : Session) (q : Request) (qs : List Request) :
    s.after (q :: qs) = (q.reply.run s).2.after qs := rfl

theorem after_append (s : Session) (qs qs' : List Request) :
    s.after (qs ++ qs') = (s.after qs).after qs' :=
  List.foldl_append

/-! ## The answer for an angle on its own -/

/-- What a session gives for an angle of which it remembers nothing. -/
def answer (s : Session) (angle : BinFloat) : Except Fault Word :=
  match s.closed? angle with
  | some w => .ok w
  | none => (s.outcome angle (s.keyOf angle)).map finalWord

/-- The same context, table and seed: all that the answers depend on. -/
structure Agrees (s s' : Session) : Prop where
  ctx : s'.ctx = s.ctx
  table : s'.table = s.table
  seed : s'.seed = s.seed

section Agrees

variable {s s' s'' : Session}

theorem Agrees.refl (s : Session) : Agrees s s := ⟨rfl, rfl, rfl⟩

theorem Agrees.trans (h : Agrees s s') (h' : Agrees s' s'') : Agrees s s'' :=
  ⟨h'.ctx.trans h.ctx, h'.table.trans h.table, h'.seed.trans h.seed⟩

theorem Agrees.keyOf_eq (h : Agrees s s') : s'.keyOf = s.keyOf := by
  unfold keyOf
  rw [h.ctx]

theorem Agrees.closed?_eq (h : Agrees s s') : s'.closed? = s.closed? := by
  unfold closed?
  rw [h.ctx]

theorem Agrees.outcome_eq (h : Agrees s s') : s'.outcome = s.outcome := by
  unfold outcome searchWord
  rw [h.ctx, h.table, h.seed]

theorem Agrees.answer_eq (h : Agrees s s') : s'.answer = s.answer := by
  unfold answer
  rw [h.keyOf_eq, h.closed?_eq, h.outcome_eq]

end Agrees

theorem answer_of_closed {s : Session} {angle : BinFloat} {w : Word} (h : s.closed? angle = some w) :
    s.answer angle = .ok w := by
  rw [answer, h]

theorem answer_of_open {s : Session} {angle : BinFloat} (h : s.closed? angle = none) :
    s.answer angle = (s.outcome angle (s.keyOf angle)).map finalWord := by
  rw [answer, h]

/-! ## A word that is searched for -/

section Searching

variable {s : Session} {a : BinFloat}

/-- With the timer on an angle without a closed form is searched for. -/
theorem word_of_timed (hopen : s.closed? a = none) (htimer : s.timer = true) {r : Except Fault Word}
    {s' : Session}
    (h : Answers (do emit (← searchAndRecord a (s.keyOf a) false)) s r s') :
    Answers (word a) s r s' := by
  have hclosed := closedForm?_answers s a
  rw [hopen] at hclosed
  refine hclosed.bind (.get fun reports => ?_)
  show Answers (if s.timer = true then _ else _) s r s'
  rw [htimer]
  exact h

/-- A search that succeeds is recorded. -/
theorem word_of_outcome (hopen : s.closed? a = none)
    (hnew : s.timer = false → s.cached? (s.keyOf a) = none) {f : Found}
    (hf : s.outcome a (s.keyOf a) = .ok f) :
    Answers (word a) s (.ok (finalWord f))
      ((s.recorded (if s.timer then none else some (s.keyOf a)) f).emitted (finalWord f)) := by
  cases htimer : s.timer with
  | true =>
    exact word_of_timed hopen htimer ((searchAndRecord_answers hf false).bind (emit_answers _ _))
  | false => exact word_of_found hopen htimer (hnew htimer) hf

/-- A search that fails leaves nothing. -/
theorem word_of_outcome_error (hopen : s.closed? a = none)
    (hnew : s.timer = false → s.cached? (s.keyOf a) = none) {e : Fault}
    (he : s.outcome a (s.keyOf a) = .error e) : Answers (word a) s (.error e) s := by
  cases htimer : s.timer with
  | true => exact word_of_timed hopen htimer (searchAndRecord_error he false).bind_error
  | false => exact word_of_error hopen htimer (hnew htimer) he

end Searching

/-! ## From a new session -/

/-- A new session remembers nothing and has counted nothing. -/
theorem start_eq_ok {o : Options} {ctx : Context} {table : GateTable} {seed : UInt64} {s : Session}
    (h : start o ctx table seed = .ok s) :
    s.ctx = ctx ∧ s.table = table ∧ s.timer = false ∧ s.cache = [] ∧ s.phaseCount = 0 ∧
      s.valid = true := by
  unfold start at h
  split at h
  · cases h
  · cases h
    exact ⟨rfl, rfl, rfl, rfl, rfl, rfl⟩

end CliffordT.Session
