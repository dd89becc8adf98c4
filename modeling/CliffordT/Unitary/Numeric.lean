/-
The entries of a unitary in double precision.
-/
import CliffordT.Ring.Embedding
import CliffordT.Unitary.Basic

namespace CliffordT

structure ComplexDouble where
  re : Float
  im : Float
  deriving Repr, Inhabited

namespace ComplexDouble

/-- The product, each part computed with two roundings of products and one of their sum. -/
instance : Mul ComplexDouble :=
  ⟨fun x y => ⟨x.re * y.re - x.im * y.im, x.re * y.im + x.im * y.re⟩⟩

instance : Neg ComplexDouble := ⟨fun x => ⟨-x.re, -x.im⟩⟩

def conj (x : ComplexDouble) : ComplexDouble := ⟨x.re, -x.im⟩

def ofScaled (z : ZOmega) (scale : Float) : ComplexDouble :=
  let (re, im) := z.toDoubles
  ⟨re * scale, im * scale⟩

end ComplexDouble

namespace Unitary

def toComplex (m : Unitary) : List ComplexDouble :=
  let scale := Float.pow 2.0 (-(Float.ofInt m.k) / 2.0)
  let phase := ComplexDouble.ofScaled (ZOmega.omegaPow m.l.val) scale
  let wl : ComplexDouble := ⟨phase.re / scale, phase.im / scale⟩
  let u := ComplexDouble.ofScaled m.u scale
  let t := ComplexDouble.ofScaled m.t scale
  [u, -t.conj * wl, t, u.conj * wl]

end Unitary

end CliffordT
