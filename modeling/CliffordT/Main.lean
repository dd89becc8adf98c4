/-
The program on the disk: reads arguments and files, prints the words to the standard output and the
messages to the standard error.
-/
import CliffordT.CommandLine.Run

namespace CliffordT.CommandLine

/-- The text and the number of an error of the operating system. -/
def systemError? : IO.Error → Option (String × UInt32)
  | .noFileOrDirectory _ code details => some (details, code)
  | .inappropriateType _ code details => some (details, code)
  | .permissionDenied _ code details => some (details, code)
  | .alreadyExists _ code details => some (details, code)
  | .noSuchThing _ code details => some (details, code)
  | .resourceExhausted _ code details => some (details, code)
  | .invalidArgument _ code details => some (details, code)
  | .resourceBusy code details => some (details, code)
  | .hardwareFault code details => some (details, code)
  | .unsupportedOperation code details => some (details, code)
  | .otherError code details => some (details, code)
  | _ => none

/-- The reason of an input or output error. -/
def reasonOf (e : IO.Error) : String :=
  match systemError? e with
  | some (details, code) => details ++ " (os error " ++ toString code ++ ")"
  | none => toString e

def tryFile {α : Type} (action : IO α) : IO (Except String α) := do
  match ← action.toBaseIO with
  | .ok v => return .ok v
  | .error e => return .error (reasonOf e)

/-- The numbers of the errors that come up where there is something that cannot be read: a directory,
or a file that may not be opened. -/
def hiddenCodes : List UInt32 := [21, 13]

def diskFiles : Files IO where
  isPresent name := do
    match ← (IO.FS.readBinFile name).toBaseIO with
    | .ok _ => return true
    | .error e => return (systemError? e).any fun (_, code) => hiddenCodes.contains code
  read name := tryFile (IO.FS.readBinFile name)
  write name text := tryFile (IO.FS.writeFile name text)

def Usage.message : Usage → String
  | missingAngle => "error: no angle was given (-t, --theta)"
  | missingValue => "error: an option needs a value"
  | unknownArgument => "error: unexpected argument"
  | badValue => "error: the value of an option is not a number in range"
  | conflict => "error: options that exclude each other, or one given twice"
  | unwantedValue => "error: an option takes no value"
  | version => "0.1.0"
  | help =>
    String.intercalate "\n"
      ["Approximate Z rotations by Clifford+T circuits", "",
        "  -t, --theta <ANGLE>...     rotation angles in units of π",
        "  -p, --precision <DIGITS>   precision in decimal digits",
        "      --pollard-rho <STEPS>  effort spent on factoring",
        "  -r, --read-table [FILE]    read the gate table from a file",
        "  -w, --write-table [FILE]   write the gate table to a file",
        "  -c, --check                multiply every word out and compare",
        "  -d, --details              report each approximation",
        "  -v, --verbose              report settings and progress",
        "      --seed <SEED>          where the random numbers start",
        "      --time                 report the time spent",
        "      --config <FILE>        read options from a JSON file",
        "  -h, --help                 print this text",
        "  -V, --version              print the version"]

/-- Answers arguments that are not run; only a fault in them is a failure. -/
def refuse (u : Usage) : IO UInt32 := do
  match u with
  | .help | .version =>
    IO.println u.message
    return 0
  | _ =>
    IO.eprintln u.message
    return 2

def runAndPrint (a : Arguments) : IO UInt32 := do
  let high ← IO.rand 0 0xffffffff
  let low ← IO.rand 0 0xffffffff
  let seed := UInt64.ofNat ((high <<< 32) + low)
  let begun ← IO.monoNanosNow
  let (result, output) ← (runArguments a diskFiles seed).run ⟨#[], #[]⟩
  let ended ← IO.monoNanosNow
  for r in output.reports do
    if a.logLevel.shows r then IO.eprintln r.line
  for l in output.lines do
    IO.println l
  if a.time then
    IO.eprintln ("Duration = " ++ toString ((ended - begun).toFloat / 1000000000) ++ " seconds")
  match result with
  | .ok () => return 0
  | .error f =>
    IO.eprintln f.message
    return 1

end CliffordT.CommandLine

def main (args : List String) : IO UInt32 :=
  match CliffordT.CommandLine.Arguments.ofList args with
  | .ok a => CliffordT.CommandLine.runAndPrint a
  | .error u => CliffordT.CommandLine.refuse u
