/-
Approximations of a rotation `diag(e^{iθ}, e^{-iθ})` by an exact unitary, with the values of its
first column and the distance to the rotation.
-/
import CliffordT.Plane.Linear
import CliffordT.Ring.Embedding
import CliffordT.Unitary.Basic

namespace CliffordT

/-- A unitary of determinant one that stands for a rotation. -/
structure Approximation where
  unitary : Unitary
  /-- The accuracy asked for. -/
  eps : BinFloat
  /-- The upper left entry of the unitary, as a point of the plane. -/
  u : Vec2
  /-- The lower left entry. -/
  t : Vec2
  /-- The point `e^{iθ}`, which the upper left entry approximates. -/
  target : Vec2
  deriving Repr

namespace Approximation

/-- The point of the plane that `z / √2ᵏ` is. -/
def point (z : ZOmega) (k : Nat) (c : Constants) : Vec2 :=
  let scale := c.sqrt2.pow k
  ⟨z.re c / scale, z.im c / scale⟩

/-- The approximation with first column `(u, t) / √2ᵏ`; it is a fault if that has not length one. -/
def ofColumn (u t : ZOmega) (k : Int) (theta : BinFloat) (c : Constants) :
    Except Fault Approximation :=
  match Unitary.mk? u t k 0 with
  | .error .overflow => .error .overflow
  | .error e => .error (.internal ("approximation is not unitary: " ++ e.message))
  | .ok m => do
    let (sin, cos) ← theta.sinCos
    return {
      unitary := m
      eps := c.eps
      u := point m.u m.k.toNat c
      t := point m.t m.k.toNat c
      target := ⟨cos, sin⟩ }

def identity (theta : BinFloat) (c : Constants) : Except Fault Approximation :=
  ofColumn 1 0 0 theta c

/-- The distance `√(|u - e^{iθ}|² + |t|²)` to the rotation, in operator norm up to a constant. -/
def error (a : Approximation) : BinFloat :=
  let d := a.u - a.target
  (d.x * d.x + d.y * d.y + a.t.x * a.t.x + a.t.y * a.t.y).sqrt

end Approximation

end CliffordT
