/-
Exact synthesis: the gate word of a Clifford+T unitary.

As long as the denominator exponent of the upper left entry is above three, one of the four
products `H T⁻ʲ` lowers it by one; the letters `Tʲ H` go to the word. What then remains is looked up
in the gate table.
-/
import CliffordT.Unitary.Table

namespace CliffordT.Unitary

/-- The unitaries `H T⁻ʲ` for `j` from 0 to 3, each with the word of its inverse, `Tʲ H`. -/
def peelings : List (Unitary × Word) :=
  let tInv := tGate.dagger
  let h1 := hadamard * tInv
  let h2 := h1 * tInv
  let h3 := h2 * tInv
  [(hadamard, ['H']), (h1, ['T', 'H']), (h2, ['T', 'T', 'H']), (h3, ['T', 'T', 'T', 'H'])]

/-- A layer of gates taken off a unitary: the word of the layer, and what is left, whose
denominator exponent is lower by one. -/
def peel? (m : Unitary) : Option (Word × { n : Unitary // n.sde = m.sde - 1 }) :=
  peelings.findSome? fun (op, word) =>
    if h : (op * m).sde = m.sde - 1 then some (word, ⟨op * m, h⟩) else none

/-- Synthesises `m` behind the letters found so far. -/
def synthesizeFrom (table : GateTable) (word : Word) (m : Unitary) : Except Fault Word :=
  if _h : 3 < m.sde then
    match peel? m with
    | some (layer, n) => synthesizeFrom table (word ++ layer) n.val
    | none =>
      .error (.internal ("no H·T^-j lowers the denominator exponent " ++ toString m.sde ++ " of\n"
        ++ toString m))
  else
    match table.get? m with
    | some rest => .ok (word ++ rest)
    | none => .error (.internal ("no table entry for residual\n" ++ toString m))
termination_by m.sde.toNat
decreasing_by
  have := n.property
  omega

def synthesize (m : Unitary) (table : GateTable) : Except Fault Word :=
  synthesizeFrom table [] m

end CliffordT.Unitary
