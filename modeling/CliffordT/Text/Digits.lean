/-!
Numbers written in digits: decimal digits of the ASCII range, an optional sign, and the bounded
integers read from such texts, with the reason why a text is none.
-/

namespace CliffordT.Text

def hexDigit? (c : Char) : Option Nat :=
  if '0' ≤ c ∧ c ≤ '9' then some (c.toNat - '0'.toNat)
  else if 'a' ≤ c ∧ c ≤ 'f' then some (c.toNat - 'a'.toNat + 10)
  else if 'A' ≤ c ∧ c ≤ 'F' then some (c.toNat - 'A'.toNat + 10)
  else none

def digitsValue (ds : List Char) : Nat :=
  ds.foldl (fun n c => 10 * n + (c.toNat - '0'.toNat)) 0

/-- A nonempty string of ASCII decimal digits. -/
def digits? (ds : List Char) : Option Nat :=
  if ds.isEmpty then none else if ds.all Char.isDigit then some (digitsValue ds) else none

/-- Removes a leading minus or plus and says whether it was a minus. -/
def splitSign : List Char → Bool × List Char
  | '-' :: rest => (true, rest)
  | '+' :: rest => (false, rest)
  | cs => (false, cs)

inductive IntFault
  | empty
  | invalidDigit
  | tooLarge
  | tooSmall
  deriving Repr, DecidableEq

def IntFault.message : IntFault → String
  | empty => "cannot parse integer from empty string"
  | invalidDigit => "invalid digit found in string"
  | tooLarge => "number too large to fit in target type"
  | tooSmall => "number too small to fit in target type"

/-- A signed integer of any length: at most one sign, and digits, among which `_` may stand
anywhere but first. -/
def parseInt (cs : List Char) : Except IntFault Int :=
  let (negative, ds) := splitSign cs
  match ds with
  | [] => .error .empty
  | '_' :: _ => .error .invalidDigit
  | _ =>
    match digits? (ds.filter (· != '_')) with
    | some n => .ok (if negative then -n else n)
    | none => .error .invalidDigit

/-- The integers that a bounded type holds. -/
structure IntRange where
  lo : Int
  hi : Int

def IntRange.int64 : IntRange := ⟨-((1 : Int) <<< (63 : Nat)), ((1 : Int) <<< (63 : Nat)) - 1⟩

def IntRange.unsigned (bits : Nat) : IntRange := ⟨0, ((1 : Int) <<< bits) - 1⟩

/-- Reads one more digit of an integer of a bounded type; a negative number grows downwards, so that
both ends of the range can be reached. -/
def boundedDigit (range : IntRange) (negative : Bool) (v : Int) (c : Char) : Except IntFault Int :=
  if c.isDigit then
    let d : Int := c.toNat - '0'.toNat
    let next := if negative then 10 * v - d else 10 * v + d
    if next < range.lo then .error .tooSmall
    else if range.hi < next then .error .tooLarge
    else .ok next
  else .error .invalidDigit

/-- An integer of a bounded type: an optional plus, or a minus where the type has negative numbers,
and digits. Of several faults the one that shows first from the left is reported. -/
def parseBounded (range : IntRange) (cs : List Char) : Except IntFault Int :=
  let (negative, ds) :=
    match cs with
    | '+' :: rest => (false, rest)
    | '-' :: rest => if range.lo < 0 then (true, rest) else (false, cs)
    | _ => (false, cs)
  if cs.isEmpty then .error .empty
  else if ds.isEmpty then .error .invalidDigit
  else ds.foldlM (boundedDigit range negative) 0

end CliffordT.Text
