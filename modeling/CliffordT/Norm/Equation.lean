/-
The norm equation: for `ξ` in `ℤ[√2]`, find `t` in `ℤ[ω]` with `t t̄ = ξ`.

A solution needs `ξ` and `ξ•` to be no less than zero. It is put together from the primes that divide
the norm of `ξ`, and how a prime `p` splits depends on its remainder modulo 8: it is `|1 + ω|²` up to
a unit for two, a value `a² + 2b²` for three, `a² + b²` for five, and for one and seven it is
`± η η•` in `ℤ[√2]`, where the factors split further in `ℤ[ω]` for one. What is then left of `ξ` is a
unit, a power of `λ`, and it has to be an even one.

The solution is looked for with bounded effort, so having found none does not show that there is
none. The result is checked before it is given out.
-/
import CliffordT.Norm.Valuation
import CliffordT.Prime.Factor
import CliffordT.Prime.Root
import CliffordT.Random.Search
import CliffordT.Ring.Embedding

namespace CliffordT.NormEquation

/-- The exponent `m` with `λᵐ = u`. A logarithm guesses it, and the guess is checked. -/
def lambdaLog? (u : ZSqrt2) (c : Constants) : Option Int :=
  let x := u.toReal c
  if x.isPositive then
    let m := BinFloat.roundDouble (x.lnDouble / c.logLambda.toDouble)
    if ZSqrt2.lambdaPow m = u then some m else none
  else none

/-- The part of a solution over an odd prime `p = ± η η•`, where `x` is a root of two modulo `p`. -/
def splitPart (xi : ZSqrt2) (p attempts x : Nat) : Draw (Option ZOmega) := do
  let eta := (ZSqrt2.ofInt p).gcd ⟨x, 1⟩
  let v := xi.valuation eta
  let w := xi.valuation eta.dot
  if p % 8 = 1 then
    match ← sqrtMod (-1) p attempts with
    | none => return none
    | some y =>
      let theta := (ZOmega.ofZSqrt2 eta).gcd ⟨0, 1, 0, y⟩
      return some (theta ^ v * theta.dot ^ w)
  else if v % 2 = 0 ∧ w % 2 = 0 then
    return some (ZOmega.ofZSqrt2 eta ^ (v / 2) * ZOmega.ofZSqrt2 eta.dot ^ (w / 2))
  else return none

/-- The part of a solution over the prime `p`, of which the norm of `ξ` holds the power `e`. -/
def primePart (xi : ZSqrt2) (p e attempts : Nat) : Search (Option ZOmega) :=
  match p % 8 with
  | 2 => return some ((⟨0, 0, 1, 1⟩ : ZOmega) ^ e)
  | 3 =>
    if e % 2 = 0 then do
      return (← Search.draw (asSumOfSquares 2 p attempts)).map fun (a, b) =>
        (⟨b, 0, b, a⟩ : ZOmega) ^ (e / 2)
    else return none
  | 5 =>
    if e % 2 = 0 then do
      return (← Search.draw (asSumOfSquares 1 p attempts)).map fun (a, b) =>
        (⟨0, b, 0, a⟩ : ZOmega) ^ (e / 2)
    else return none
  | 1 | 7 => do
    match ← Search.draw (sqrtMod 2 p attempts) with
    | none => return none
    | some x => Search.draw (splitPart xi p attempts x)
  | _ => throw (.internal ("even prime factor " ++ toString p ++ " other than 2"))

def primeParts (xi : ZSqrt2) (attempts : Nat) :
    List (Nat × Nat) → ZOmega → Search (Option ZOmega)
  | [], t => return some t
  | (p, e) :: rest, t => do
    match ← primePart xi p e attempts with
    | none => return none
    | some part => primeParts xi attempts rest (t * part)

/-- Multiplies `t` by the power of `λ` that makes it a solution. -/
def adjustUnit (xi : ZSqrt2) (t : ZOmega) (c : Constants) : Search (Option ZOmega) := do
  let equation := "norm equation for " ++ toString xi ++ ": "
  match xi.exactDiv? t.norm with
  | none =>
    Search.warn (equation ++ toString t.norm ++ " does not divide it")
    return none
  | some unit =>
    match lambdaLog? unit c with
    | none =>
      Search.warn (equation ++ "leftover " ++ toString unit ++ " is not a unit")
      return none
    | some m =>
      if m % 2 ≠ 0 then return none
      let t := t * ZOmega.ofZSqrt2 (ZSqrt2.lambdaPow (m / 2))
      if t.norm = xi then return some t
      Search.warn (equation ++ "check failed for " ++ toString t)
      return none

/-- A `t` with `t t̄ = ξ`, or none if there is none or the effort did not suffice to find it. -/
def solve (xi : ZSqrt2) (ctx : Context) : Search (Option ZOmega) := do
  if xi = 0 then return some 0
  if !xi.isDoublyPositive then return none
  match ← Search.draw (factorize xi.norm ctx.toLimits) with
  | none => return none
  | some factors =>
    match ← primeParts xi ctx.rootAttempts factors 1 with
    | none => return none
    | some t => adjustUnit xi t ctx.toConstants

end CliffordT.NormEquation
