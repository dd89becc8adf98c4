/-
Grid operators as real matrices at the working precision.
-/
import CliffordT.Grid.Operator
import CliffordT.Plane.Linear
import CliffordT.Settings.Context

namespace CliffordT.GridOperator

/-- The real number `x + y/√2`. -/
def entryToReal (x y : Int) (c : Constants) : BinFloat := c.int x + c.int y * c.invSqrt2

def toMatrix (g : GridOperator) (c : Constants) : Mat2 :=
  ⟨entryToReal g.a₀ g.a₁ c, entryToReal g.b₀ g.b₁ c, entryToReal g.c₀ g.c₁ c,
    entryToReal g.d₀ g.d₁ c⟩

/-- The determinant `p + q/√2 + r/2`, from its exact parts. -/
def determinant (g : GridOperator) (c : Constants) : BinFloat :=
  let (p, q, r) := g.determinantParts
  c.int p + c.int q * c.invSqrt2 + (c.int r).scaleTwo (-1)

end CliffordT.GridOperator
