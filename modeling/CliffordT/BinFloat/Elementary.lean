/-
Elementary functions on `BinFloat`: π, sine and cosine, the natural logarithm, the arctangent and
the angle of a point.

Each works with guard bits beyond the precision asked for and rounds once at the end. π is a sum of
two arctangents of unit fractions in fixed point. The others reduce their argument (modulo 2π; to a
mantissa between 1 and 2; by halving the angle), and then add up a power series until a term falls
below the last working bit. The terms at least halve from some point on, so the series are run with
a bound on their length that is a little above the working precision; `SeriesState` holds what is
carried from one term to the next.
-/
import CliffordT.BinFloat.Basic
import CliffordT.Fault
import CliffordT.Iterate

namespace CliffordT.BinFloat

/-! ## π -/

/-- The tail of the series of `atan (1/x)` in fixed point, with `x2 = x²`: the next power is
`power / x2`, and its term is that power divided by `n + 2`. Ends with the first term that is zero,
for one that is not is found only while the index is at most the power. -/
def arctanTail (x2 power n : Nat) (subtract : Bool) (sum : Int) : Int :=
  let next := power / x2
  let term := next / (n + 2)
  if term = 0 then sum
  else arctanTail x2 next (n + 2) (!subtract) (if subtract then sum - term else sum + term)
termination_by power - n
decreasing_by
  rename_i hterm
  have hnext : power / x2 ≤ power := Nat.div_le_self power x2
  have hindex : n + 2 ≤ power / x2 := by
    refine Nat.le_of_not_lt fun hlt => hterm ?_
    exact Nat.div_eq_of_lt hlt
  omega

/-- The arctangent of `1 / x` in fixed point with `bits` fractional bits. -/
def arctanInv (x bits : Nat) : Int :=
  let power := (1 <<< bits) / x
  arctanTail (x * x) power 1 true power

/-- π to `prec` bits, as `16 atan (1/5) - 4 atan (1/239)`. -/
def pi (prec : Nat) : BinFloat :=
  let bits := prec + 32
  ofScaled (arctanInv 5 bits * 16 - arctanInv 239 bits * 4) (-bits) prec

/-! ## Power series -/

/-- What a power series carries: the last term or power of the argument, the last index and the
sum so far. -/
structure SeriesState where
  term : BinFloat
  index : Nat
  sum : BinFloat

def SeriesState.goesOn (s : SeriesState) (wp : Nat) : Bool :=
  !s.term.isZero && -(wp : Int) - 4 < s.term.top

/-- One more term of sine or cosine: the last term times `-r²` over the next two indices. -/
def trigStep (r2 : BinFloat) (wp : Nat) (s : SeriesState) : Option SeriesState :=
  if s.goesOn wp then
    let term := -(s.term * r2 / ofInt ((s.index + 1) * (s.index + 2) : Nat) wp)
    some ⟨term, s.index + 2, s.sum + term⟩
  else none

/-- One more term of the inverse hyperbolic tangent: the next odd power over its index. -/
def atanhStep (t2 : BinFloat) (wp : Nat) (s : SeriesState) : Option SeriesState :=
  if s.goesOn wp then
    let power := s.term * t2
    some ⟨power, s.index + 2, s.sum + power / ofInt (s.index + 2 : Nat) wp⟩
  else none

/-- One more term of the arctangent: like `atanhStep`, with signs that alternate, the index three
being subtracted. -/
def atanStep (t2 : BinFloat) (wp : Nat) (s : SeriesState) : Option SeriesState :=
  if s.goesOn wp then
    let power := s.term * t2
    let term := power / ofInt (s.index + 2 : Nat) wp
    some ⟨power, s.index + 2, if s.index % 4 = 1 then s.sum - term else s.sum + term⟩
  else none

def seriesBound (wp : Nat) : Nat := wp + 16

/-! ## Sine and cosine -/

/-- The argument less the nearest multiple of 2π, at working precision `wp`. -/
def reduceTurn (x : BinFloat) (wp : Nat) : BinFloat :=
  let turn := (pi wp).scaleTwo 1
  let xw := x.withPrec wp
  xw - turn * ofInt (xw / turn).round wp

def integerBits (x : BinFloat) : Nat := if x.isZero then 0 else (max x.top 0).toNat

/-- The bits at which sine and cosine of `x` are computed; a large argument needs more of them, for
the whole turns that it loses. Its integer bits are counted in 32 bits. -/
def trigPrec (x : BinFloat) : Nat := x.prec + 32 + x.integerBits % (1 <<< 32)

/-- Sine and cosine of `x` together. It is a fault when the working precision does not fit into 32 bits, or when a
series does not come to its end, for an index of it leaves its range then. -/
def sinCos (x : BinFloat) : Except Fault (BinFloat × BinFloat) :=
  let wp := trigPrec x
  if 1 <<< 32 ≤ wp then .error .overflow
  else
    let r := reduceTurn x wp
    let r2 := r * r
    let one := one wp
    let sin := iterate (trigStep r2 wp) (seriesBound wp) ⟨r, 1, r⟩
    let cos := iterate (trigStep r2 wp) (seriesBound wp) ⟨one, 0, one⟩
    if sin.goesOn wp || cos.goesOn wp then .error .overflow
    else .ok (sin.sum.withPrec x.prec, cos.sum.withPrec x.prec)

def sin (x : BinFloat) : Except Fault BinFloat := (·.1) <$> sinCos x

def cos (x : BinFloat) : Except Fault BinFloat := (·.2) <$> sinCos x

/-! ## Logarithm -/

/-- The inverse hyperbolic tangent of a number between `-1` and `1`, at its own precision. -/
def atanh (t : BinFloat) : BinFloat :=
  (iterate (atanhStep (t * t) t.prec) (seriesBound t.prec) ⟨t, 1, t⟩).sum

/-- The natural logarithm of a positive number. With `x = m * 2 ^ e` and `m` between 1 and 2 it is
`2 atanh ((m - 1) / (m + 1)) + e * 2 atanh (1/3)`. -/
def ln (x : BinFloat) : BinFloat :=
  let wp := x.prec + 32
  let one := one wp
  let e := x.top - 1
  let m := (x.withPrec wp).scaleTwo (-e)
  let lnMantissa := (atanh ((m - one) / (m + one))).scaleTwo 1
  let ln2 := (atanh (one / ofInt 3 wp)).scaleTwo 1
  (lnMantissa + ln2 * ofInt e wp).withPrec x.prec

/-- The natural logarithm, or `none` for what is not positive. -/
def ln? (x : BinFloat) : Option BinFloat := if x.isPositive then some x.ln else none

/-! ## Arctangent -/

/-- Halves the angle of the tangent `t`, as `t / (1 + √(1 + t²))`, and counts it, unless `|t|` is
below 1/16 already. -/
def halveAngle (one : BinFloat) : BinFloat × Nat → Option (BinFloat × Nat)
  | (t, count) =>
    if !t.isZero && -4 < t.top then some (t / (one + (one + t * t).sqrt), count + 1) else none

/-- A bound on the halvings that bring any tangent below 1/16: the first brings it to at most one,
and each later one at least halves it, up to rounding. -/
def halvingBound : Nat := 16

/-- The arctangent, between `-π/2` and `π/2`. -/
def atan (x : BinFloat) : BinFloat :=
  let wp := x.prec + 32
  let (t, count) := iterate (halveAngle (one wp)) halvingBound (x.withPrec wp, 0)
  let sum := (iterate (atanStep (t * t) wp) (seriesBound wp) ⟨t, 1, t⟩).sum
  (sum.scaleTwo count).withPrec x.prec

/-- The angle of the point `(x, y)`, above `-π` and at most `π`; zero at the origin. The quotient
is taken the way that keeps it at most one. -/
def atan2 (y x : BinFloat) : BinFloat :=
  let prec := max y.prec x.prec
  if x.isZero && y.isZero then zero prec
  else if y.abs ≤ x.abs then
    let a := atan (y / x)
    if !x.isNegative then a
    else if y.isNegative then a - pi prec
    else a + pi prec
  else
    let a := atan (x / y)
    let halfPi := (pi prec).scaleTwo (-1)
    if y.isPositive then halfPi - a else -halfPi - a

end CliffordT.BinFloat
