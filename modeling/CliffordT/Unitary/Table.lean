/-
The gate table: a word for every unitary that three Hadamard gates can reach.

Exact synthesis takes gates off a unitary until it finds the rest here. The table is either
generated or read from a text with one entry a line,

```
u.a,u.b,u.c,u.d,t.a,t.b,t.c,t.d,k,l,word
```

where blank lines count but say nothing, blanks around a line or a field do not matter, and of
several entries for one unitary the last one stays.
-/
import CliffordT.Text.Blank
import CliffordT.Text.Digits
import CliffordT.Text.Fields
import CliffordT.Unitary.Word
import Std.Data.HashMap

namespace CliffordT

structure GateTable where
  entries : Std.HashMap Unitary Word

namespace GateTable

def empty : GateTable := ⟨∅⟩

instance : Inhabited GateTable := ⟨empty⟩

def get? (table : GateTable) (m : Unitary) : Option Word := table.entries[m]?

def size (table : GateTable) : Nat := table.entries.size

def isEmpty (table : GateTable) : Bool := table.entries.isEmpty

/-- The entries, in no particular order. -/
def toList (table : GateTable) : List (Unitary × Word) := table.entries.toList

/-! ## Generation -/

def tPowers : List Word := (List.range 8).map fun n => List.replicate n 'T'

/-- The words `T^i H T^j H …` with one Hadamard gate more than those given. -/
def addLayer (ws : List Word) : List Word :=
  ws.flatMap fun w => tPowers.map fun p => w ++ 'H' :: p

/-- The words `T^i` with a given number of layers `H T^j` added to them. -/
def layer : Nat → List Word
  | 0 => tPowers
  | n + 1 => addLayer (layer n)

/-- The words with at most the given number of Hadamard gates, those with fewest first. -/
def words (layers : Nat) : List Word := (List.range (layers + 1)).flatMap layer

/-- Enters a word for its unitary, and with letters `W` behind it for the unitary's multiples by a
power of `ω`; a unitary that has a word keeps it. -/
def addWord (table : GateTable) (word : Word) : GateTable :=
  match Unitary.ofWord word with
  | .error _ => table
  | .ok m =>
    let short := (Word.fullSimplify word).dropIdentity
    ⟨(List.range 8).foldl
      (fun entries n => entries.insertIfNew (m.mulPhase n) (short ++ List.replicate n 'W'))
      table.entries⟩

/-- The number of Hadamard gates that the generated table covers. -/
def layers : Nat := 3

/-- The table of all unitaries with at most three Hadamard gates. -/
def generate : GateTable := (words layers).foldl addWord empty

/-! ## Writing -/

def line (m : Unitary) (word : Word) : String :=
  String.intercalate ","
    ([m.u.a, m.u.b, m.u.c, m.u.d, m.t.a, m.t.b, m.t.c, m.t.d, m.k].map toString
      ++ [toString m.l.val, String.ofList word])

def lines (table : GateTable) : List String := table.toList.map fun (m, word) => line m word

def toText (table : GateTable) : String :=
  table.lines.foldl (fun text l => text ++ l ++ "\n") ""

/-! ## Reading -/

def intField (f : List Char) : Except String Int :=
  match Text.parseInt (Text.trim f) with
  | .ok n => .ok n
  | .error e => .error ("bad integer '" ++ String.ofList f ++ "': " ++ e.message)

def boundedField (name : String) (range : Text.IntRange) (f : List Char) : Except String Int :=
  match Text.parseBounded range (Text.trim f) with
  | .ok n => .ok n
  | .error e => .error ("bad " ++ name ++ " '" ++ String.ofList f ++ "': " ++ e.message)

/-- The first column, the two exponents and the word on a line, or what is wrong with it. -/
def parseFields (cs : List Char) : Except String (ZOmega × ZOmega × Int × Nat × Word) :=
  match Text.pieces ',' (Text.trim cs) with
  | [ua, ub, uc, ud, ta, tb, tc, td, kf, lf, wf] => do
    let u : ZOmega := ⟨← intField ua, ← intField ub, ← intField uc, ← intField ud⟩
    let t : ZOmega := ⟨← intField ta, ← intField tb, ← intField tc, ← intField td⟩
    let k ← boundedField "k" .int64 kf
    let l ← boundedField "l" (.unsigned 8) lf
    return (u, t, k, l.toNat, Word.dropIdentity (Text.trim wf))
  | fields => .error ("expected 11 fields, found " ++ toString fields.length)

/-- Reads the entry of the line with the given number. An exponent that falls out of its range is
not reported as a fault of the line. -/
def parseLine (number : Nat) (cs : List Char) : Except Fault (Unitary × Word) :=
  match parseFields cs with
  | .error reason => .error (.tableFormat number reason)
  | .ok (u, t, k, l, word) =>
    match Unitary.mk? u t k l with
    | .ok m => .ok (m, word)
    | .error .overflow => .error .overflow
    | .error e => .error (.tableFormat number e.message)

/-- Adds the entries of lines to a table; the first line has the given number. -/
def readLines (table : GateTable) (number : Nat) : List (List Char) → Except Fault GateTable
  | [] => .ok table
  | cs :: rest =>
    if (Text.trim cs).isEmpty then readLines table (number + 1) rest
    else
      match parseLine number cs with
      | .ok (m, word) => readLines ⟨table.entries.insert m word⟩ (number + 1) rest
      | .error e => .error e

/-- Reads a table from a text. The first line that is no entry is a fault. -/
def ofText (text : String) : Except Fault GateTable :=
  readLines empty 1 (Text.pieces '\n' text.toList)

/-- The longest run of lines at the front that are encoded text. -/
def textLines : List (List UInt8) → List (List Char)
  | [] => []
  | bytes :: rest =>
    match String.fromUTF8? ⟨bytes.toArray⟩ with
    | some s => s.toList :: textLines rest
    | none => []

/-- Reads a table from the bytes of a file. Where they are not text, the lines before that are read
first, and a fault in one of them is the one reported. -/
def ofBytes (bytes : ByteArray) : Except Fault GateTable :=
  match String.fromUTF8? bytes with
  | some text => ofText text
  | none =>
    match readLines empty 1 (textLines (Text.pieces 10 bytes.toList)) with
    | .ok _ => .error (.io "stream did not contain valid UTF-8")
    | .error e => .error e

end GateTable

end CliffordT
