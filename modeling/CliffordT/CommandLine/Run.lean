/-
The program: angles in units of `π` from the arguments, a line with a gate word for each of them.

Options come from a file, if one is named, and then from the arguments. The gate table is read from
a file or generated, and in the second case it may be kept in a file. A run ends at the first fault;
the words before it are printed.
-/
import CliffordT.CommandLine.Arguments
import CliffordT.CommandLine.Files
import CliffordT.Session.Basic

namespace CliffordT.CommandLine

inductive RunFault
  | fault (f : Fault)
  /-- An angle that is no decimal number. -/
  | invalidAngle (text : String)
  /-- A word was found not to reproduce its approximation. -/
  | checkFailed
  deriving Repr, DecidableEq

namespace RunFault

def message : RunFault → String
  | fault f => f.message
  | invalidAngle text => "Invalid angle provided: " ++ text
  | checkFailed => "Check failed: a synthesised gate string does not reproduce its approximation"

end RunFault

structure Output where
  lines : Array String
  reports : Array Report

abbrev Run (m : Type → Type) := ExceptT RunFault (StateT Output m)

/-! ## Settings -/

inductive LogLevel
  | warnings
  | info
  | all
  deriving Repr, DecidableEq

namespace LogLevel

def name : LogLevel → String
  | warnings => "warn"
  | info => "info"
  | all => "debug"

def shows : LogLevel → Report → Bool
  | warnings, r => r.severity == .warning
  | _, _ => true

end LogLevel

namespace Arguments

/-- Verbose runs show everything, detailed and checked ones show what they report. -/
def logLevel (a : Arguments) : LogLevel :=
  if a.verbose then .all else if a.details || a.check then .info else .warnings

/-- Puts what the arguments say in place of what a file said. -/
def override (a : Arguments) (o : Options) : Options :=
  { o with
    precision := a.precision.getD o.precision
    factorEffort := a.effort.getD o.factorEffort
    seed := a.seed.or o.seed
    check := o.check || a.check
    details := o.details || a.details
    verbose := o.verbose || a.verbose }

end Arguments

section

variable {m : Type → Type} [Monad m]

def readFile (files : Files m) (name : String) : ExceptT Fault m ByteArray := do
  match ← files.read name with
  | .ok content => return content
  | .error reason => throw (.io reason)

def Arguments.options (a : Arguments) (files : Files m) : ExceptT Fault m Options := do
  match a.config with
  | none => return a.override .default
  | some name =>
    match String.fromUTF8? (← readFile files name) with
    | some text => return a.override (← Options.ofJson text)
    | none => throw (.io "stream did not contain valid UTF-8")

/-- An angle in radians, from its text in units of `π`. -/
def angleOf (c : Constants) (text : String) : Except RunFault BinFloat :=
  match BinFloat.parseDecimal? text c.prec with
  | some x => .ok (x * c.pi)
  | none => .error (.invalidAngle text)

/-! ## Gate tables -/

def report (text : String) : Run m Unit :=
  modify fun o => { o with reports := o.reports.push ⟨.info, text⟩ }

def orEnd {α : Type} (x : ExceptT Fault m α) : Run m α := do
  match ← (x.run : m (Except Fault α)) with
  | .ok v => return v
  | .error f => throw (.fault f)

def readTable (files : Files m) (name : String) : Run m GateTable := do
  report ("reading gate table from " ++ name)
  orEnd do GateTable.ofBytes (← readFile files name)

/-- Generates the gate table and keeps it in a file. -/
def writeTable (files : Files m) (name : String) : Run m GateTable := do
  match ← (files.write name GateTable.generate.toText : m (Except String Unit)) with
  | .ok () => return GateTable.generate
  | .error reason => throw (.fault (.io reason))

/-- The gate table of a run. A file that the options name is read if it is there, and written if it
is not. -/
def tableFor (a : Arguments) (o : Options) (files : Files m) : Run m GateTable := do
  match a.readTable, a.writeTable, o.tablePath with
  | some name, _, _ => readTable files name
  | none, some name, _ =>
    report ("writing gate table to " ++ name)
    writeTable files name
  | none, none, some name =>
    if ← (files.isPresent name : m Bool) then readTable files name
    else
      report ("generating gate table and writing it to " ++ name)
      writeTable files name
  | none, none, none => return GateTable.generate

/-! ## Words -/

/-- A word as it is printed, with a blank between its letters. -/
def spaced (word : Word) : String := String.intercalate " " (word.map String.singleton)

def printWords (s : Session) : List BinFloat → Run m Session
  | [] => return s
  | angle :: rest => do
    let (word, s) := (Session.word angle).run { s with reports := #[] }
    modify fun o => { o with reports := o.reports ++ s.reports }
    match word with
    | .error f => throw (.fault f)
    | .ok word =>
      modify fun o => { o with lines := o.lines.push (spaced word) }
      printWords s rest

/-- Runs the program on its arguments; the seed stands in for one that is not given. -/
def runArguments (a : Arguments) (files : Files m) (seed : UInt64) : Run m Unit := do
  let o ← orEnd (a.options files)
  let ctx ← orEnd (liftM (Context.ofOptions o))
  let angles ← a.theta.mapM fun text => (angleOf ctx.toConstants text : Except RunFault BinFloat)
  let table ← tableFor a o files
  let s ← orEnd (liftM (Session.start o ctx table seed))
  modify fun out => { out with reports := out.reports ++ s.reports }
  let s ← printWords { s with timer := a.time } angles
  if o.check && !s.valid then throw .checkFailed

end

end CliffordT.CommandLine
