/-!
Messages for the user that a computation leaves besides its result.
-/

namespace CliffordT

inductive Severity
  | warning
  | info
  deriving Repr, DecidableEq

structure Report where
  severity : Severity
  text : String
  deriving Repr, DecidableEq

namespace Report

def line (r : Report) : String :=
  match r.severity with
  | .warning => "WARN " ++ r.text
  | .info => "INFO " ++ r.text

end Report

end CliffordT
