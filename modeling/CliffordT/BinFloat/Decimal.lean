/-
Decimal text for `BinFloat`.

A literal is an optional sign, digits with at most one point among them, and an optional power of
ten; blanks around it do not count. `Literal` holds what such a text says, exactly, and
`Literal.value` is the one place where it meets a precision.

Numbers are written in scientific form with a chosen count of significant digits, as in
`-1.250e-2`.
-/
import CliffordT.BinFloat.Double
import CliffordT.Text.Blank
import CliffordT.Text.Digits

namespace CliffordT

/-- What a decimal literal says: the integer `numerator` times `10 ^ exponent`. -/
structure DecimalLiteral where
  numerator : Int
  exponent : Int
  deriving Repr, DecidableEq

namespace DecimalLiteral

/-- Splits a text at the first character of a kind, which is dropped; `none` for the second part
when there is no such character. -/
def splitAtFirst (isMark : Char → Bool) : List Char → List Char × Option (List Char)
  | [] => ([], none)
  | c :: rest =>
    if isMark c then ([], some rest)
    else
      let (before, after) := splitAtFirst isMark rest
      (c :: before, after)

/-- Reads a literal. The sign comes off first, then everything from the first `e` or `E` is the
exponent, then the first point divides the rest, in which only digits may remain. -/
def parse? (s : String) : Option DecimalLiteral :=
  let (negative, cs) := Text.splitSign (Text.trim s.toList)
  let (body, exponentText) := splitAtFirst (fun c => c == 'e' || c == 'E') cs
  let (whole, fractionText) := splitAtFirst (· == '.') body
  let fraction := fractionText.getD []
  let exponent := exponentText.elim (.ok 0) (Text.parseBounded .int64)
  match exponent, Text.digits? (whole ++ fraction) with
  | .ok exponent, some n =>
    some ⟨if negative then -(n : Int) else n, exponent - fraction.length⟩
  | _, _ => none

/-- The literal's value at `prec` bits. A power of ten that multiplies does so exactly, before the
one rounding; one that divides is rounded like the numerator, and so is the quotient. -/
def value (l : DecimalLiteral) (prec : Nat) : BinFloat :=
  if 0 ≤ l.exponent then BinFloat.ofInt (l.numerator * (Nat.pow 10 l.exponent.toNat : Nat)) prec
  else BinFloat.ofInt l.numerator prec / BinFloat.ofInt (Nat.pow 10 (-l.exponent).toNat : Nat) prec

end DecimalLiteral

namespace BinFloat

/-- The value of a decimal literal at `prec` bits, or `none` for a text that is none. -/
def parseDecimal? (s : String) (prec : Nat) : Option BinFloat :=
  (DecimalLiteral.parse? s).map (·.value prec)

/-- Writes the digits of a mantissa with a point after the first one, and the power of ten. -/
def scientific (negative : Bool) (ds : List Char) (exponent : Int) : String :=
  let sign := if negative then "-" else ""
  match ds with
  | [d] => sign ++ String.singleton d ++ "e" ++ toString exponent
  | d :: rest => sign ++ String.ofList (d :: '.' :: rest) ++ "e" ++ toString exponent
  | [] => sign ++ "e" ++ toString exponent

/-- Scientific notation with the given count of significant digits, at least one. The exponent is
first guessed from the logarithm; a guess that leaves a digit too many or too few is mended in the
written exponent. -/
def toDecimal (x : BinFloat) (digits : Nat) : String :=
  if x.isZero then "0"
  else
    let digits := max digits 1
    let e10 := floorDouble (x.abs.lnDouble / ln10Double)
    let scale : Int := digits - 1 - e10
    let ten := ofInt 10 (x.prec + 16)
    let ax := x.abs.withPrec (x.prec + 16)
    let scaled := if 0 ≤ scale then ax * ten.pow scale.natAbs else ax / ten.pow scale.natAbs
    let ds := (toString scaled.round).toList
    scientific x.isNegative (ds.take digits) (e10 + ds.length - digits)

/-- The default text has 17 significant digits. -/
instance : ToString BinFloat := ⟨fun x => x.toDecimal 17⟩

end BinFloat

end CliffordT
