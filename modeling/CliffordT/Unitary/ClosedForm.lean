/-
Rotations by multiples of `π/4`, which have a closed form.

Angles are in units of `π` here. Half of the closed forms need the phase `e^{-iπ/8}`, which is no
power of `ω`; it is written `w`.
-/
import CliffordT.BinFloat.Elementary
import CliffordT.Unitary.Word

namespace CliffordT.ClosedForm

/-- The rotations by `n · π/4`, for `n` from 0 to 8. -/
def cases : List (Nat × String) :=
  [(0, ""), (1, "Tw"), (2, "SWWWWWWW"), (3, "STWWWWWWWw"), (4, "SSWWWWWW"), (5, "SSTWWWWWWw"),
    (6, "SSSWWWWW"), (7, "SSSTWWWWWw"), (8, "WWWW")]

/-- The angle modulo two: at least zero and below two, except that a positive multiple of two is
taken to two itself. -/
def reduceAngle (angle : BinFloat) : BinFloat :=
  let prec := angle.prec
  let two := BinFloat.ofInt 2 prec
  let theta := angle - BinFloat.ofInt (angle / two).floor prec * two
  if theta.isZero && angle.isPositive then two else theta

/-- The word of the first closed form whose angle, in radians, is within `eps` of the given one. -/
def find? (angle eps : BinFloat) : Option Word :=
  let theta := reduceAngle angle
  let pi := BinFloat.pi angle.prec
  cases.findSome? fun (quarters, word) =>
    let target := BinFloat.ofInt quarters theta.prec / BinFloat.ofInt 4 theta.prec
    if (theta - target).abs * pi < eps then some word.toList else none

end CliffordT.ClosedForm
