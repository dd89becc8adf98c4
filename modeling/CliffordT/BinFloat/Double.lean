/-
Between `BinFloat` and the machine's double precision numbers.

A double is read exactly from its sign, exponent and fraction bits. In the other direction an
integer goes to the nearest double, a tie to the even one, and a `BinFloat` keeps the leading 64
bits of its mantissa on the way. The logarithm here is a double as well: it only guides the choice
of an integer exponent or of a digit count, and what is chosen by it is checked exactly afterwards.
-/
import CliffordT.BinFloat.Basic

namespace CliffordT

/-- The double nearest to a natural number, a tie going to the even mantissa; infinite when the
number is too large. -/
def nearestDoubleNat (n : Nat) : Float :=
  let bits := bitLength n
  if bits ≤ 53 then Float.ofNat n
  else
    let shift := bits - 53
    let q := n >>> shift
    let r := n - q <<< shift
    let half := 1 <<< (shift - 1)
    let up := half < r || (r == half && q % 2 == 1)
    (Float.ofNat (if up then q + 1 else q)).scaleB shift

/-- The double nearest to an integer. -/
def nearestDouble (n : Int) : Float :=
  if n < 0 then -nearestDoubleNat n.natAbs else nearestDoubleNat n.natAbs

namespace BinFloat

/-- The value of a finite double, rounded to `prec` bits; an infinity or a NaN gives zero. -/
def ofDouble (x : Float) (prec : Nat) : BinFloat :=
  let bits := x.toBits.toNat
  let biased : Nat := (bits >>> 52) % (1 <<< 11)
  let fraction : Nat := bits % (1 <<< 52)
  if biased = 2047 then zero prec
  else
    let m : Int := if biased = 0 then fraction else (fraction + (1 <<< 52) : Nat)
    let e : Int := if biased = 0 then -1074 else biased - 1075
    ofScaled (if (bits >>> 63) % 2 = 1 then -m else m) e prec

/-- A double near `x`: the leading 64 bits of the mantissa, cut downwards, go to the nearest
double, which is then scaled by the exponent in two steps. -/
def toDouble (x : BinFloat) : Float :=
  if x.isZero then 0.0
  else
    let cut := bitLength x.mant - 64
    let e := max (-4000) (min 4000 (x.exp + cut))
    let half := e.tdiv 2
    nearestDouble (x.mant >>> cut) * (1.0 : Float).scaleB half * (1.0 : Float).scaleB (e - half)

def ln2Double : Float := 0.693147180559945309417232121458

def ln10Double : Float := 2.30258509299404568401799145468436421

/-- The natural logarithm in double precision, from the leading 53 bits and the exponent; minus
infinity for what is not positive. -/
def lnDouble (x : BinFloat) : Float :=
  if x.isPositive then
    let bits := bitLength x.mant
    let m := Float.ofNat (x.mant >>> (bits - 53)).toNat / (1.0 : Float).scaleB (min bits 53)
    m.log + Float.ofInt (x.exp + bits) * ln2Double
  else -1.0 / 0.0

/-- The integer part of a double, the value nearest to it among the 64-bit integers. -/
def floorDouble (x : Float) : Int := x.floor.toInt64.toInt

/-- The integer nearest to a double, a half going away from zero, among the 64-bit integers. -/
def roundDouble (x : Float) : Int := x.round.toInt64.toInt

end BinFloat

end CliffordT
