/-
Words for several angles at once.

All searches come before anything is recorded, so that one of them failing leaves the session as it
was, up to its messages. The outcomes are then recorded in the order of the angles, as if each angle
had been asked for in turn.
-/
import CliffordT.Session.Basic

namespace CliffordT.Session

/-- The angles that have to be searched, with their keys, in order: those that are not remembered,
have no closed form, and have not come before. -/
def pendingFrom (found : List (String × BinFloat)) :
    List (String × BinFloat) → InSession (List (String × BinFloat))
  | [] => return found
  | (key, angle) :: rest => do
    let s ← get
    let isTodo := s.timer || (s.cached? key).isNone
    let isNew := (found.lookup key).isNone
    if isTodo && isNew then
      match ← closedForm? angle with
      | some _ => pendingFrom found rest
      | none => pendingFrom (found ++ [(key, angle)]) rest
    else pendingFrom found rest

/-- The outcomes of the searches, by key. The first search that fails ends it. -/
def searchAll : List (String × BinFloat) → InSession (List (String × Found))
  | [] => return []
  | (key, angle) :: rest => do
    let found ← search angle key
    return (key, found) :: (← searchAll rest)

def dropKey {α : Type} (key : String) (xs : List (String × α)) : List (String × α) :=
  xs.filter fun x => x.1 != key

/-- The words of the angles in order, from the outcomes of the searches. An outcome is recorded when
its key first comes up; a repeat is answered from what is remembered, or else, in timer mode, by a
search of its own. -/
def answerAll (found : List (String × Found)) :
    List (String × BinFloat) → InSession (List Word)
  | [] => return []
  | (key, angle) :: rest => do
    match ← closedForm? angle with
    | some w =>
      let w ← emit w
      return w :: (← answerAll found rest)
    | none =>
      let s ← get
      match found.lookup key with
      | some f =>
        let w ← emit (← record angle (if s.timer then none else some key) f)
        return w :: (← answerAll (dropKey key found) rest)
      | none =>
        match s.cached? key with
        | some w =>
          let w ← emit w
          return w :: (← answerAll found rest)
        | none =>
          let w ← emit (← searchAndRecord angle key false)
          return w :: (← answerAll found rest)

def words (angles : List BinFloat) : InSession (List Word) := do
  let s ← get
  let keyed := angles.map fun angle => (s.keyOf angle, angle)
  let pending ← pendingFrom [] keyed
  answerAll (← searchAll pending) keyed

end CliffordT.Session
