/-
Gate words and what they mean.

A word is a list of letters, read from left to right as a matrix product: `H`, `T` and `S` are
gates, `W` is the global phase `ω`, and `I` does nothing. A word may hold other letters; it then has
no matrix, but can still be simplified, which leaves them where they are.
-/
import CliffordT.Unitary.Basic

namespace CliffordT

abbrev Word := List Char

inductive Gate
  | h
  | t
  | s
  | w
  | i
  deriving Repr, DecidableEq

namespace Gate

def ofLetter? : Char → Option Gate
  | 'H' => some h
  | 'T' => some t
  | 'S' => some s
  | 'W' => some w
  | 'I' => some i
  | _ => none

def applyRight (m : Unitary) : Gate → Unitary
  | h => m * Unitary.hadamard
  | t => m * Unitary.tGate
  | s => m * Unitary.sGate
  | w => m.mulPhase 1
  | i => m

end Gate

namespace Unitary

/-- Multiplies a unitary by the gates of a word from the right; the first letter that is no gate is
given back instead. -/
def applyWord (m : Unitary) : Word → Except Char Unitary
  | [] => .ok m
  | c :: rest =>
    match Gate.ofLetter? c with
    | some g => applyWord (g.applyRight m) rest
    | none => .error c

/-- The unitary of a word. It is a fault when some letter is no gate. -/
def ofWord (word : Word) : Except Fault Unitary :=
  match applyWord identity word with
  | .ok m => .ok m
  | .error c =>
    .error (.config ("unrecognized character '" ++ String.singleton c ++ "' in gate string \""
      ++ String.ofList word ++ "\""))

end Unitary

namespace Word

/-! ## Simplification -/

def dropIdentity (word : Word) : Word := word.filter (· != 'I')

/-- One pass from the left: `HH` is dropped and `TT` becomes `S`. -/
def cancelPairs : Word → Word
  | 'H' :: 'H' :: rest => cancelPairs rest
  | 'T' :: 'T' :: rest => 'S' :: cancelPairs rest
  | c :: rest => c :: cancelPairs rest
  | [] => []

def orIdentity (word : Word) : Word := if word.isEmpty then ['I'] else word

def simplify (word : Word) : Word := orIdentity (cancelPairs (dropIdentity word))

/-- Simplifies for as long as the word gets shorter. -/
def shrink (word : Word) : Word :=
  if (simplify word).length < word.length then shrink (simplify word) else word
termination_by word.length

/-- Simplifies a word until another pass would not shorten it. -/
def fullSimplify (word : Word) : Word := shrink (simplify word)

end Word

end CliffordT
