/-!
Binary floating point numbers of any precision.

A `BinFloat` stands for the rational number `mant * 2 ^ exp` and carries the number of
significant bits that results computed from it may have. One function rounds: `ofScaled` takes a
mantissa of any length to the nearest one that fits, a tie going up. Every operation below is the
exact operation on mantissas followed by that rounding, at the larger of the two precisions; the
comparisons and the integer parts look at the exact value and do not round.

The mantissa is not kept odd, so one number has many representations. Nothing here depends on
which one is at hand except through the value it stands for.
-/

namespace CliffordT

/-- The number of binary digits of the absolute value; zero has none. -/
def bitLength (n : Int) : Nat :=
  if n = 0 then 0 else n.natAbs.log2 + 1

/-- The number `mant * 2 ^ exp`, to be computed with at `prec` significant bits. -/
structure BinFloat where
  mant : Int
  exp : Int
  prec : Nat
  deriving Repr, Inhabited

namespace BinFloat

/-! ## Construction and rounding -/

/-- The number nearest to `mant * 2 ^ exp` whose mantissa has `prec` bits; a value halfway
between two of them goes up. A mantissa that rounds up to `2 ^ prec` is left at that. -/
def ofScaled (mant exp : Int) (prec : Nat) : BinFloat :=
  if mant = 0 then ⟨0, 0, prec⟩
  else
    let bits := bitLength mant
    if prec < bits then
      let shift := bits - prec
      ⟨(mant + (1 : Int) <<< (shift - 1)) >>> shift, exp + shift, prec⟩
    else ⟨mant, exp, prec⟩

def zero (prec : Nat) : BinFloat := ⟨0, 0, prec⟩

def one (prec : Nat) : BinFloat := ⟨1, 0, prec⟩

def ofInt (n : Int) (prec : Nat) : BinFloat := ofScaled n 0 prec

/-- The power `2 ^ k`, which is exact at any precision. -/
def twoPow (k : Int) (prec : Nat) : BinFloat := ⟨1, k, prec⟩

/-- The same value rounded to `prec` bits, or given room for that many. -/
def withPrec (x : BinFloat) (prec : Nat) : BinFloat := ofScaled x.mant x.exp prec

/-! ## Sign and size -/

def isZero (x : BinFloat) : Bool := x.mant == 0

def isNegative (x : BinFloat) : Bool := x.mant < 0

def isPositive (x : BinFloat) : Bool := 0 < x.mant

def sign (x : BinFloat) : Int := x.mant.sign

def neg (x : BinFloat) : BinFloat := ⟨-x.mant, x.exp, x.prec⟩

instance : Neg BinFloat := ⟨neg⟩

def abs (x : BinFloat) : BinFloat := ⟨x.mant.natAbs, x.exp, x.prec⟩

/-- The product with `2 ^ k`, which is exact. -/
def scaleTwo (x : BinFloat) (k : Int) : BinFloat :=
  if x.isZero then x else ⟨x.mant, x.exp + k, x.prec⟩

/-- The position just above the leading bit: a nonzero `x` has `2 ^ (top - 1) ≤ |x| < 2 ^ top`. -/
def top (x : BinFloat) : Int := x.exp + bitLength x.mant

/-! ## Comparison -/

/-- The mantissas of two numbers at their smaller exponent. -/
def aligned (x y : BinFloat) : Int × Int × Int :=
  let e := min x.exp y.exp
  (x.mant <<< (x.exp - e).toNat, y.mant <<< (y.exp - e).toNat, e)

/-- Orders two numbers by value: by sign, then by leading bit, and only then by mantissa, so that
two numbers of very different size are never brought to one exponent. -/
def cmp (x y : BinFloat) : Ordering :=
  if x.sign ≠ y.sign then compare x.sign y.sign
  else if x.sign = 0 then .eq
  else
    match compare x.top y.top with
    | .eq => let (a, b, _) := aligned x y; compare a b
    | o => if 0 < x.sign then o else o.swap

instance : Ord BinFloat := ⟨cmp⟩

instance : BEq BinFloat := ⟨fun x y => cmp x y == .eq⟩

instance : LT BinFloat := ⟨fun x y => cmp x y = .lt⟩

instance : LE BinFloat := ⟨fun x y => cmp x y ≠ .gt⟩

instance (x y : BinFloat) : Decidable (x < y) := inferInstanceAs (Decidable (cmp x y = .lt))

instance (x y : BinFloat) : Decidable (x ≤ y) := inferInstanceAs (Decidable (cmp x y ≠ .gt))

/-- The larger of two numbers; of two equal ones the second. -/
def maximum (x y : BinFloat) : BinFloat := if y < x then x else y

/-- The smaller of two numbers; of two equal ones the first. -/
def minimum (x y : BinFloat) : BinFloat := if y < x then y else x

/-! ## Integer parts -/

def floor (x : BinFloat) : Int :=
  if 0 ≤ x.exp then x.mant <<< x.exp.toNat else x.mant >>> (-x.exp).toNat

def ceil (x : BinFloat) : Int := -(-x).floor

/-- The nearest integer, a half going up. -/
def round (x : BinFloat) : Int :=
  if 0 ≤ x.exp then x.mant <<< x.exp.toNat
  else
    let k := (-x.exp).toNat
    (x.mant + (1 : Int) <<< (k - 1)) >>> k

def trunc (x : BinFloat) : Int :=
  if 0 ≤ x.exp then x.mant <<< x.exp.toNat else x.mant.tdiv ((1 : Int) <<< (-x.exp).toNat)

/-! ## Arithmetic -/

/-- The rounded sum. A summand that lies wholly below the rounding bit of the other cannot change
the result and is dropped before the mantissas are aligned. -/
def add (x y : BinFloat) : BinFloat :=
  let prec := max x.prec y.prec
  if y.isZero then x.withPrec prec
  else if x.isZero then y.withPrec prec
  else if y.top + (prec + 2) < x.top then x.withPrec prec
  else if x.top + (prec + 2) < y.top then y.withPrec prec
  else
    let (a, b, e) := aligned x y
    ofScaled (a + b) e prec

instance : Add BinFloat := ⟨add⟩

def sub (x y : BinFloat) : BinFloat := x + -y

instance : Sub BinFloat := ⟨sub⟩

def mul (x y : BinFloat) : BinFloat :=
  ofScaled (x.mant * y.mant) (x.exp + y.exp) (max x.prec y.prec)

instance : Mul BinFloat := ⟨mul⟩

/-- The quotient, or `none` when the divisor is zero. Two bits beyond the precision are developed
towards zero before the quotient is rounded. -/
def div? (x y : BinFloat) : Option BinFloat :=
  let prec := max x.prec y.prec
  if y.isZero then none
  else if x.isZero then some (zero prec)
  else
    let shift := (prec + 2 + bitLength y.mant : Nat) - bitLength x.mant
    some (ofScaled ((x.mant <<< shift).tdiv y.mant) (x.exp - y.exp - shift) prec)

/-- The quotient where the divisor is known not to vanish; a zero divisor gives zero. -/
def div (x y : BinFloat) : BinFloat := (div? x y).getD (zero (max x.prec y.prec))

instance : Div BinFloat := ⟨div⟩

/-- The quotient of two integers, each of them first rounded to `prec` bits. -/
def ofRatio? (num den : Int) (prec : Nat) : Option BinFloat :=
  div? (ofInt num prec) (ofInt den prec)

/-- The square root; what is not positive has root zero. -/
def sqrt (x : BinFloat) : BinFloat :=
  if x.isPositive then
    let shift := 2 * x.prec + 4 - bitLength x.mant
    let shift := if (x.exp - shift) % 2 = 0 then shift else shift + 1
    ofScaled (Nat.sqrt (x.mant.toNat <<< shift)) ((x.exp - shift) / 2) x.prec
  else zero x.prec

/-- Multiplies `acc` by `base ^ n`, reading `n` from its lowest bit. -/
def mulPow (acc base : BinFloat) (n : Nat) : BinFloat :=
  if n = 0 then acc
  else mulPow (if n % 2 = 1 then acc * base else acc) (base * base) (n / 2)
termination_by n
decreasing_by omega

def pow (x : BinFloat) (n : Nat) : BinFloat := mulPow (one x.prec) x n

/-- The power `x ^ n` for any integer; `none` for a negative power of zero. -/
def zpow? (x : BinFloat) (n : Int) : Option BinFloat :=
  if n < 0 then div? (one x.prec) (x.pow n.natAbs) else some (x.pow n.natAbs)

/-! ## Comparison up to a tolerance -/

/-- Holds when `x ≥ y`, or falls short of it by less than `tol`. -/
def atLeast (x y tol : BinFloat) : Bool := y ≤ x || (x - y).abs < tol

/-- Holds when `x ≤ y`, or exceeds it by less than `tol`. -/
def atMost (x y tol : BinFloat) : Bool := x ≤ y || (x - y).abs < tol

end BinFloat

end CliffordT
