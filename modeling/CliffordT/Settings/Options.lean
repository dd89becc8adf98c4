/-
The options of a synthesis session and their reading from a JSON text.

A text gives the options as an object, in which a missing key leaves the default, a repeated one is
refused and an unknown one is ignored; or as an array of the values in the order of the fields,
which may stop early.
-/
import CliffordT.Fault
import CliffordT.Settings.Json

namespace CliffordT

structure Options where
  /-- Accuracy in decimal digits: the error stays below `10 ^ -precision`. -/
  precision : Nat
  /-- Steps that one attempt to split an integer may take. -/
  factorEffort : Nat
  /-- Where the gate table is kept. -/
  tablePath : Option String
  /-- Whether each word is multiplied out again. -/
  check : Bool
  /-- Whether each approximation is logged. -/
  details : Bool
  /-- Whether progress is logged. -/
  verbose : Bool
  /-- Where the random numbers start. -/
  seed : Option UInt64
  /-- The smallest denominator exponent that is searched. -/
  kmin : Nat
  /-- The largest denominator exponent that is searched. -/
  kmax : Nat
  deriving Repr, DecidableEq

namespace Options

/-- Ten digits, 200 steps of factoring, exponents up to 100, and nothing logged or checked. -/
def default : Options :=
  ⟨10, 200, none, false, false, false, none, 0, 100⟩

instance : Inhabited Options := ⟨default⟩

def withPrecision (digits : Nat) : Options := { default with precision := digits }

/-- Options have at least one digit, exponents in order, and some effort for factoring. -/
def validate (o : Options) : Except Fault Unit :=
  if o.precision = 0 then .error (.config "precision must be at least one digit")
  else if o.kmax < o.kmin then
    .error (.config ("kmin (" ++ toString o.kmin ++ ") must not exceed kmax (" ++ toString o.kmax
      ++ ")"))
  else if o.factorEffort = 0 then .error (.config "factor effort must be positive")
  else .ok ()

/-! ## Reading -/

/-- A natural number below `2 ^ bits`, written as plain digits. -/
def natOfJson? (bits : Nat) : Json → Option Nat
  | .number text =>
    match Text.digits? text with
    | some n => if n < 1 <<< bits then some n else none
    | none => none
  | _ => none

def boolOfJson? : Json → Option Bool
  | .bool b => some b
  | _ => none

/-- A value that may be absent, which is written `null`. -/
def optionOfJson? {α : Type} (read : Json → Option α) : Json → Option (Option α)
  | .null => some none
  | v => (read v).map some

def textOfJson? : Json → Option String
  | .string s => s
  | _ => none

def fieldNames : List String :=
  ["precision", "factor_effort", "table_path", "check", "details", "verbose", "seed", "kmin",
    "kmax"]

/-- Sets the field of the given name; `none` when the value does not fit it. A name that is no
field changes nothing. -/
def setField? (o : Options) (name : String) (v : Json) : Option Options :=
  match name with
  | "precision" => (natOfJson? 32 v).map fun n => { o with precision := n }
  | "factor_effort" => (natOfJson? 64 v).map fun n => { o with factorEffort := n }
  | "table_path" => (optionOfJson? textOfJson? v).map fun p => { o with tablePath := p }
  | "check" => (boolOfJson? v).map fun b => { o with check := b }
  | "details" => (boolOfJson? v).map fun b => { o with details := b }
  | "verbose" => (boolOfJson? v).map fun b => { o with verbose := b }
  | "seed" =>
    (optionOfJson? (natOfJson? 64) v).map fun s => { o with seed := s.map UInt64.ofNat }
  | "kmin" => (natOfJson? 32 v).map fun n => { o with kmin := n }
  | "kmax" => (natOfJson? 32 v).map fun n => { o with kmax := n }
  | _ => some o

def setFields? (o : Options) : List (String × Json) → Option Options
  | [] => some o
  | (name, v) :: rest =>
    match o.setField? name v with
    | some o => setFields? o rest
    | none => none

/-- The fields that a JSON value sets, in order: those of an object, if each key is a text and no
field is named twice, or those at the front of the list for an array. -/
def fieldsOfJson? : Json → Option (List (String × Json))
  | .object pairs =>
    match pairs.mapM fun (key, v) => key.map (·, v) with
    | some fields =>
      let known := (fields.map Prod.fst).filter fieldNames.contains
      if known.eraseDups.length = known.length then some fields else none
    | none => none
  | .array items =>
    if items.length ≤ fieldNames.length then some (fieldNames.zip items) else none
  | _ => none

/-- The options that a JSON text gives; where it is silent, the defaults. -/
def ofJson (text : String) : Except Fault Options :=
  match (Json.parse? text).bind fieldsOfJson? with
  | some fields =>
    match setFields? default fields with
    | some o => .ok o
    | none => .error .malformedOptions
  | none => .error .malformedOptions

end Options

end CliffordT
