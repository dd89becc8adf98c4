/-
What every stage of the synthesis works with: the constants at the working precision, and the
limits of the searches.
-/
import CliffordT.BinFloat.Decimal
import CliffordT.BinFloat.Elementary
import CliffordT.Settings.Options

namespace CliffordT

/-- The working precision, the accuracy asked for, and the constants at that precision. -/
structure Constants where
  /-- The working precision in bits. -/
  prec : Nat
  /-- The accuracy asked for, in decimal digits. -/
  digits : Nat
  /-- The accuracy `10 ^ -digits`. -/
  eps : BinFloat
  /-- The tolerance of comparisons that may be off by rounding. -/
  tol : BinFloat
  sqrt2 : BinFloat
  invSqrt2 : BinFloat
  halfInvSqrt2 : BinFloat
  pi : BinFloat
  lambda : BinFloat
  lambdaInv : BinFloat
  logLambda : BinFloat
  sqrtLambdaInv : BinFloat

structure Limits where
  /-- The smallest denominator exponent. -/
  kmin : Nat
  /-- The largest denominator exponent. -/
  kmax : Nat
  /-- Steps of one attempt to split an integer. -/
  factorEffort : Nat
  /-- Rounds of the primality test. -/
  fermatRounds : Nat
  /-- Draws of a quadratic non-residue. -/
  rootAttempts : Nat

structure Context extends Constants, Limits

namespace Constants

/-- The constants for an accuracy of `digits` digits. The coordinates of grid points grow with the
accuracy, so the working precision is well above `digits` digits; the tolerance has at least 15. -/
def ofDigits (digits : Nat) : Constants :=
  let prec := 20 * digits + 128
  let ten := BinFloat.ofInt 10 prec
  let one := BinFloat.one prec
  let sqrt2 := (BinFloat.ofInt 2 prec).sqrt
  let invSqrt2 := one / sqrt2
  let lambda := one + sqrt2
  let lambdaInv := sqrt2 - one
  { prec
    digits
    eps := one / ten.pow digits
    tol := one / ten.pow (max 15 digits)
    sqrt2
    invSqrt2
    halfInvSqrt2 := invSqrt2.scaleTwo (-1)
    pi := BinFloat.pi prec
    lambda
    lambdaInv
    logLambda := lambda.ln
    sqrtLambdaInv := lambdaInv.sqrt }

def int (c : Constants) (n : Int) : BinFloat := BinFloat.ofInt n c.prec

/-- The quotient of two integers at the working precision; the divisor is not zero. -/
def ratio (c : Constants) (num den : Int) : BinFloat := c.int num / c.int den

def zero (c : Constants) : BinFloat := BinFloat.zero c.prec

def one (c : Constants) : BinFloat := BinFloat.one c.prec

def parse (c : Constants) (s : String) : Except Fault BinFloat :=
  match BinFloat.parseDecimal? s c.prec with
  | some x => .ok x
  | none => .error (.config ("cannot parse '" ++ s ++ "' as a number"))

end Constants

namespace Context

/-- The context for a set of options, once they are found valid. Bits are counted in 32 bits, those
of the working precision and the 32 that guard the logarithm among the constants. -/
def ofOptions (o : Options) : Except Fault Context :=
  match o.validate with
  | .error e => .error e
  | .ok () =>
    if 1 <<< 32 ≤ 20 * o.precision + 128 + 32 then .error .overflow
    else .ok
      { Constants.ofDigits o.precision with
        kmin := o.kmin
        kmax := o.kmax
        factorEffort := o.factorEffort
        fermatRounds := 5
        rootAttempts := 10 }

/-- The context for an accuracy of `digits` digits, all else at its default. -/
def withDigits (digits : Nat) : Except Fault Context := ofOptions (Options.withPrecision digits)

end Context

end CliffordT
