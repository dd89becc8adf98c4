/-
The exact rings inside the real and the complex numbers, at the working precision: the two real
embeddings of `ℤ[√2]`, the real and imaginary part of an element of `ℤ[ω]`, and its value as a pair
of doubles.
-/
import CliffordT.Ring.Omega
import CliffordT.Settings.Context

namespace CliffordT

namespace ZSqrt2

/-- The real number `a + b√2`. -/
def toReal (x : ZSqrt2) (c : Constants) : BinFloat := c.int x.a + c.int x.b * c.sqrt2

/-- The real number `a - b√2`. -/
def toRealDot (x : ZSqrt2) (c : Constants) : BinFloat := c.int x.a - c.int x.b * c.sqrt2

end ZSqrt2

namespace ZOmega

def re (u : ZOmega) (c : Constants) : BinFloat := c.int u.d + c.int (u.c - u.a) * c.invSqrt2

def im (u : ZOmega) (c : Constants) : BinFloat := c.int u.b + c.int (u.c + u.a) * c.invSqrt2

/-- The square root of one half in double precision. -/
def invSqrt2Double : Float := 0.707106781186547524400844362104849039

def toDoubles (u : ZOmega) : Float × Float :=
  let a := nearestDouble u.a
  let b := nearestDouble u.b
  let c := nearestDouble u.c
  let d := nearestDouble u.d
  (d + (c - a) * invSqrt2Double, b + (c + a) * invSqrt2Double)

end ZOmega

end CliffordT
