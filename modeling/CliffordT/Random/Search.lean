/-
Computations that draw random words, leave messages and may fail. What was drawn and reported before
a failure stays drawn and reported.
-/
import CliffordT.Fault
import CliffordT.Random.Generator
import CliffordT.Report

namespace CliffordT

/-- What a search carries along: the generator, and the messages so far. -/
structure SearchState where
  generator : Generator
  reports : Array Report

abbrev Search := ExceptT Fault (StateM SearchState)

namespace Search

def draw {α : Type} (x : Draw α) : Search α := do
  let s ← get
  let (v, g) := x.run s.generator
  set { s with generator := g }
  return v

def warn (text : String) : Search Unit :=
  modify fun s => { s with reports := s.reports.push ⟨.warning, text⟩ }

end Search

end CliffordT
