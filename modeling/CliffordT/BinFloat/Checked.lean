/-
Arithmetic with exponents of 64 bits.

The exponents of a `BinFloat` have any size; those of a machine have 64 bits, and an exponent that does not fit ends
the computation. An operation here is the one of its name on `BinFloat`, which goes through the same cases, and in
which every exponent and every position of a leading bit is looked at when it is computed. A sum looks at the leading
bits and at these with the slack added, a quotient at the difference of the exponents before it is lowered by the
shift, and so an operation can fail whose result would fit.
-/
import CliffordT.BinFloat.Elementary

namespace CliffordT.Checked

/-- The signed integers of 64 bits. -/
def InInt64 (n : Int) : Prop := -((1 : Int) <<< (63 : Nat)) ≤ n ∧ n < (1 : Int) <<< (63 : Nat)

instance (n : Int) : Decidable (InInt64 n) := inferInstanceAs (Decidable (_ ∧ _))

/-- An exponent that was computed, if it fits. -/
def int64 (n : Int) : Except Fault Int := if InInt64 n then .ok n else .error .overflow

/-! ## Rounding and alignment -/

def ofScaled (mant exp : Int) (prec : Nat) : Except Fault BinFloat := do
  let x := BinFloat.ofScaled mant exp prec
  let _ ← int64 x.exp
  return x

def withPrec (x : BinFloat) (prec : Nat) : Except Fault BinFloat := ofScaled x.mant x.exp prec

def scaleTwo (x : BinFloat) (k : Int) : Except Fault BinFloat :=
  if x.isZero then .ok x else return ⟨x.mant, ← int64 (x.exp + k), x.prec⟩

def top (x : BinFloat) : Except Fault Int := int64 x.top

def aligned (x y : BinFloat) : Except Fault (Int × Int × Int) := do
  let e := min x.exp y.exp
  let i ← int64 (x.exp - e)
  let j ← int64 (y.exp - e)
  return (x.mant <<< i.toNat, y.mant <<< j.toNat, e)

/-! ## Comparison and integer parts -/

def cmp (x y : BinFloat) : Except Fault Ordering :=
  if x.sign ≠ y.sign then .ok (compare x.sign y.sign)
  else if x.sign = 0 then .ok .eq
  else do
    match compare (← top x) (← top y) with
    | .eq =>
      let (a, b, _) ← aligned x y
      return compare a b
    | o => return if 0 < x.sign then o else o.swap

/-- One of the integer parts; that of a number with digits after the point needs their number. -/
def integerPart (part : BinFloat → Int) (x : BinFloat) : Except Fault Int :=
  if 0 ≤ x.exp then .ok (part x)
  else do
    let _ ← int64 (-x.exp)
    return part x

def floor (x : BinFloat) : Except Fault Int := integerPart BinFloat.floor x

def ceil (x : BinFloat) : Except Fault Int := integerPart BinFloat.ceil x

def round (x : BinFloat) : Except Fault Int := integerPart BinFloat.round x

def trunc (x : BinFloat) : Except Fault Int := integerPart BinFloat.trunc x

/-! ## Arithmetic -/

def add (x y : BinFloat) : Except Fault BinFloat :=
  let prec := max x.prec y.prec
  if y.isZero then withPrec x prec
  else if x.isZero then withPrec y prec
  else do
    let i ← top x
    let j ← top y
    if (← int64 (j + (prec + 2))) < i then withPrec x prec
    else if (← int64 (i + (prec + 2))) < j then withPrec y prec
    else
      let (a, b, e) ← aligned x y
      ofScaled (a + b) e prec

def sub (x y : BinFloat) : Except Fault BinFloat := add x (-y)

def mul (x y : BinFloat) : Except Fault BinFloat := do
  ofScaled (x.mant * y.mant) (← int64 (x.exp + y.exp)) (max x.prec y.prec)

/-- The quotient, or `none` when the divisor is zero. -/
def div? (x y : BinFloat) : Except Fault (Option BinFloat) :=
  let prec := max x.prec y.prec
  if y.isZero then .ok none
  else if x.isZero then .ok (some (.zero prec))
  else do
    let shift := (prec + 2 + bitLength y.mant : Nat) - bitLength x.mant
    let e ← int64 (x.exp - y.exp)
    return some (← ofScaled ((x.mant <<< shift).tdiv y.mant) (← int64 (e - shift)) prec)

/-- The quotient; a zero divisor is a fault. -/
def div (x y : BinFloat) : Except Fault BinFloat := do
  match ← div? x y with
  | some q => return q
  | none => .error .divisionByZero

def sqrt (x : BinFloat) : Except Fault BinFloat :=
  if x.isPositive then do
    let shift := 2 * x.prec + 4 - bitLength x.mant
    let shift := if (← int64 (x.exp - shift)) % 2 = 0 then shift else shift + 1
    let e ← int64 (x.exp - shift)
    ofScaled (Nat.sqrt (x.mant.toNat <<< shift)) (e / 2) x.prec
  else .ok (.zero x.prec)

/-! ## Arctangent -/

/-- Repeats a step that can fail until it answers `none`, at most `n` times. -/
def iterate {α : Type} (step : α → Except Fault (Option α)) : Nat → α → Except Fault α
  | 0, s => .ok s
  | n + 1, s => do
    match ← step s with
    | none => return s
    | some s' => iterate step n s'

/-- Holds for a number other than zero that reaches above the bit position `e`. -/
def reaches (x : BinFloat) (e : Int) : Except Fault Bool :=
  if x.isZero then .ok false else return e < (← top x)

def halveAngle (one : BinFloat) : BinFloat × Nat → Except Fault (Option (BinFloat × Nat))
  | (t, count) => do
    if ← reaches t (-4) then
      let root ← sqrt (← add one (← mul t t))
      return some (← div t (← add one root), count + 1)
    else return none

def atanStep (t2 : BinFloat) (wp : Nat) (s : BinFloat.SeriesState) :
    Except Fault (Option BinFloat.SeriesState) := do
  if ← reaches s.term (-(wp : Int) - 4) then
    let power ← mul s.term t2
    let term ← div power (.ofInt (s.index + 2 : Nat) wp)
    return some ⟨power, s.index + 2, ← if s.index % 4 = 1 then sub s.sum term else add s.sum term⟩
  else return none

/-- The arctangent. Precisions have 32 bits, and so has the working precision. -/
def atan (x : BinFloat) : Except Fault BinFloat :=
  let wp := x.prec + 32
  if 1 <<< 32 ≤ wp then .error .overflow
  else do
    let (t, count) ← iterate (halveAngle (.one wp)) BinFloat.halvingBound (← withPrec x wp, 0)
    let s ← iterate (atanStep (← mul t t) wp) (BinFloat.seriesBound wp) ⟨t, 1, t⟩
    withPrec (← scaleTwo s.sum count) x.prec

def atan2 (y x : BinFloat) : Except Fault BinFloat :=
  let prec := max y.prec x.prec
  if x.isZero && y.isZero then .ok (.zero prec)
  else do
    if (← cmp y.abs x.abs) ≠ .gt then
      let a ← atan (← div y x)
      if !x.isNegative then return a
      else if y.isNegative then sub a (.pi prec)
      else add a (.pi prec)
    else
      let a ← atan (← div x y)
      let halfPi ← scaleTwo (.pi prec) (-1)
      if y.isPositive then sub halfPi a else sub (-halfPi) a

end CliffordT.Checked
