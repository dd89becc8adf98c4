/-
The arguments of the program and how they are read.

Options have a long name, and most a short one. A value may follow as the next argument, after `=`,
or, behind a short name, at once; short names without values may be joined. An option whose values
are still coming in is pending: its values are only judged when the next option, or the end, shows
that there are no more. Of several faults the one that is met first in this way is reported.
-/
import CliffordT.Settings.Options
import CliffordT.Text.Digits

namespace CliffordT.CommandLine

/-- Why arguments are not run: a fault in them, or a question that they ask. -/
inductive Usage
  | missingAngle
  | missingValue
  | unknownArgument
  | badValue
  | conflict
  | unwantedValue
  | help
  | version
  deriving Repr, DecidableEq

inductive Switch
  | theta
  | precision
  | effort
  | readTable
  | writeTable
  | check
  | details
  | verbose
  | seed
  | time
  | config
  | help
  | version
  deriving Repr, DecidableEq

inductive Arity
  | none
  | atMostOne
  | one
  | some
  deriving Repr, DecidableEq

namespace Switch

def ofLong? : String → Option Switch
  | "theta" => some theta
  | "precision" => some precision
  | "pollard-rho" => some effort
  | "read-table" => some readTable
  | "write-table" => some writeTable
  | "check" => some check
  | "details" => some details
  | "verbose" => some verbose
  | "seed" => some seed
  | "time" => some time
  | "config" => some config
  | "help" => some help
  | "version" => some version
  | _ => none

def ofShort? : Char → Option Switch
  | 't' => some theta
  | 'p' => some precision
  | 'r' => some readTable
  | 'w' => some writeTable
  | 'c' => some check
  | 'd' => some details
  | 'v' => some verbose
  | 'h' => some help
  | 'V' => some version
  | _ => none

def arity : Switch → Arity
  | theta => .some
  | precision | effort | seed | config => .one
  | readTable | writeTable => .atMostOne
  | check | details | verbose | time | help | version => .none

def takesMore (s : Switch) (n : Nat) : Bool :=
  match s.arity with
  | .none => false
  | .atMostOne | .one => n == 0
  | .some => true

end Switch

structure Arguments where
  /-- The angles, as they were written, in units of `π`. -/
  theta : List String
  precision : Option Nat
  effort : Option Nat
  readTable : Option String
  writeTable : Option String
  check : Bool
  details : Bool
  verbose : Bool
  seed : Option UInt64
  time : Bool
  config : Option String
  deriving Repr, DecidableEq

namespace Arguments

def empty : Arguments :=
  ⟨[], none, none, none, none, false, false, false, none, false, none⟩

instance : Inhabited Arguments := ⟨empty⟩

def has (a : Arguments) : Switch → Bool
  | .theta => !a.theta.isEmpty
  | .precision => a.precision.isSome
  | .effort => a.effort.isSome
  | .readTable => a.readTable.isSome
  | .writeTable => a.writeTable.isSome
  | .check => a.check
  | .details => a.details
  | .verbose => a.verbose
  | .seed => a.seed.isSome
  | .time => a.time
  | .config => a.config.isSome
  | .help => false
  | .version => false

def defaultTableFile : String := "./s3_table_file.csv"

def integer (range : Text.IntRange) (s : String) : Except Usage Int :=
  match Text.parseBounded range s.toList with
  | .ok n => .ok n
  | .error _ => .error .badValue

def natural64 (s : String) : Except Usage Nat := return (← integer (.unsigned 64) s).toNat

/-- A natural number of 32 bits. The digits may be those of any signed number of 64 bits that turns
out to be in range. -/
def natural32 (s : String) : Except Usage Nat := do
  let n ← integer .int64 s
  if 0 ≤ n ∧ n < (1 : Int) <<< (32 : Nat) then return n.toNat else throw .badValue

/-- The name of a file, which is not empty. -/
def fileName (s : String) : Except Usage String :=
  if s.isEmpty then .error .missingValue else .ok s

/-- Takes an option with the values that were given for it. Only angles may be given more than once,
and a table without a name has the default one. -/
def accept (a : Arguments) (s : Switch) (values : List String) : Except Usage Arguments :=
  if (s.arity = .one ∨ s.arity = .some) ∧ values.isEmpty then .error .missingValue
  else if s ≠ .theta ∧ a.has s then .error .conflict
  else
    let value := values.headD ""
    let table := values.headD defaultTableFile
    match s with
    | .theta => return { a with theta := a.theta ++ values }
    | .precision => return { a with precision := some (← natural32 value) }
    | .effort => return { a with effort := some (← natural64 value) }
    | .readTable => return { a with readTable := some (← fileName table) }
    | .writeTable => return { a with writeTable := some (← fileName table) }
    | .check => return { a with check := true }
    | .details => return { a with details := true }
    | .verbose => return { a with verbose := true }
    | .seed => return { a with seed := some (UInt64.ofNat (← natural64 value)) }
    | .time => return { a with time := true }
    | .config => return { a with config := some (← fileName value) }
    | .help => throw .help
    | .version => throw .version

end Arguments

/-! ## Reading -/

/-- Whether the rest of a number is well-formed: digits, at most one point, and after it at most one
`e` or `E` with something behind it. -/
def isNumberTail (point exponent : Bool) : List Char → Bool
  | [] => true
  | c :: rest =>
    if c.isDigit then isNumberTail point exponent rest
    else if c == '.' && !point && !exponent then isNumberTail true exponent rest
    else if (c == 'e' || c == 'E') && !exponent then !rest.isEmpty && isNumberTail point true rest
    else false

/-- Whether what follows a minus is a number, so that the argument can be a negative angle. -/
def isNumber : List Char → Bool
  | c :: rest => c.isDigit && isNumberTail false false rest
  | [] => false

structure Reading where
  arguments : Arguments
  /-- An option whose values are still coming in. -/
  pending : Option (Switch × List String)

namespace Reading

def start : Reading := ⟨.empty, none⟩

def settle (r : Reading) : Except Usage Arguments :=
  match r.pending with
  | none => return r.arguments
  | some (s, values) => r.arguments.accept s values

def take (r : Reading) (s : Switch) (values : List String) : Except Usage Reading := do
  return ⟨← (← r.settle).accept s values, none⟩

def wait (r : Reading) (s : Switch) : Except Usage Reading := do
  return ⟨← r.settle, some (s, [])⟩

/-- Splits a long option at the first `=`. -/
def splitEquals : List Char → List Char × Option (List Char)
  | [] => ([], none)
  | '=' :: rest => ([], some rest)
  | c :: rest =>
    let (name, value) := splitEquals rest
    (c :: name, value)

def long (r : Reading) (body : List Char) : Except Usage Reading :=
  let (name, value) := splitEquals body
  match Switch.ofLong? (String.ofList name) with
  | none => .error .unknownArgument
  | some s =>
    match s.arity, value with
    | .none, some _ => .error .unwantedValue
    | .none, none => r.take s []
    | _, some v => r.take s [String.ofList v]
    | _, none => r.wait s

/-- Reads what follows one minus sign: short names, of which the first that takes a value takes the
rest as its value. -/
def short (r : Reading) : List Char → Except Usage Reading
  | [] => .ok r
  | c :: rest =>
    match Switch.ofShort? c with
    | none => .error .unknownArgument
    | some s =>
      if s.arity = .none then do short (← r.take s []) rest
      else
        match rest with
        | [] => r.wait s
        | '=' :: v => r.take s [String.ofList v]
        | v => r.take s [String.ofList v]

def plain (r : Reading) (arg : String) : Except Usage Reading :=
  match r.pending with
  | some (s, values) =>
    if s.takesMore values.length then .ok { r with pending := some (s, values ++ [arg]) }
    else .error .unknownArgument
  | none => .error .unknownArgument

def expectsAngle (r : Reading) : Bool :=
  match r.pending with
  | some (s, _) => s == .theta
  | none => false

def argument (r : Reading) (arg : String) : Except Usage Reading :=
  match arg.toList with
  | '-' :: '-' :: body => r.long body
  | '-' :: c :: rest =>
    if r.expectsAngle && isNumber (c :: rest) then r.plain arg else r.short (c :: rest)
  | _ => r.plain arg

/-- Reads all arguments. After `--` only arguments without an option could follow, and the program
takes none. -/
def arguments? (r : Reading) : List String → Except Usage Arguments
  | [] => r.settle
  | "--" :: rest => if rest.isEmpty then r.settle else .error .unknownArgument
  | arg :: rest => do arguments? (← r.argument arg) rest

end Reading

/-- Reads the arguments of the program. A table is not both read and written, and there is at least
one angle. -/
def Arguments.ofList (args : List String) : Except Usage Arguments := do
  let a ← Reading.start.arguments? args
  if a.readTable.isSome ∧ a.writeTable.isSome then throw .conflict
  if a.theta.isEmpty then throw .missingAngle
  return a

end CliffordT.CommandLine
