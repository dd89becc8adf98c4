/-!
What can go wrong between an angle and its gate word, as causes, and the text of each.
-/

namespace CliffordT

/-- Why no result was produced. -/
inductive Fault
  /-- An option out of range, or a value that breaks a condition on its construction. -/
  | config (reason : String)
  /-- An options text that is not a well-formed set of options. -/
  | malformedOptions
  /-- No approximation up to the largest denominator exponent. -/
  | searchExhausted (angle : String) (kmax : Nat)
  /-- A condition that the algorithms keep was found broken. -/
  | internal (reason : String)
  /-- A file could not be read or written. -/
  | io (reason : String)
  /-- A line of a gate table file that could not be read, counted from one. -/
  | tableFormat (line : Nat) (reason : String)
  /-- A division by zero. -/
  | divisionByZero
  /-- A power modulo a negative number. -/
  | negativeModulus
  /-- An integer of bounded size that left its range. -/
  | overflow
  deriving Repr, DecidableEq

namespace Fault

def message : Fault → String
  | config reason => "Invalid configuration: " ++ reason
  | malformedOptions => "Invalid configuration: bad options JSON"
  | searchExhausted angle kmax =>
    "No approximation found for angle " ++ angle ++ " up to scale exponent " ++ toString kmax
      ++ ". Try increasing the precision or the factoring effort."
  | internal reason => "Internal invariant violated: " ++ reason
  | io reason => "IO error: " ++ reason
  | tableFormat line reason =>
    "Malformed gate table entry on line " ++ toString line ++ ": " ++ reason
  | divisionByZero => "attempt to divide by zero"
  | negativeModulus => "the modulus is negative"
  | overflow => "arithmetic overflow"

/-- A search that ran out may succeed with more digits or more effort; no other fault can be mended
by trying again. -/
def isRecoverable : Fault → Bool
  | searchExhausted .. => true
  | _ => false

/-- Only a file fault has a cause outside the program. -/
def hasSource : Fault → Bool
  | io _ => true
  | _ => false

end Fault

end CliffordT
