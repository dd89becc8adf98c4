/-
Square roots modulo a prime, and primes as values of `x² + d y²`.

With `p - 1 = 2ˢ q` and `q` odd, a root is corrected step by step: `r² = a t` holds throughout, and
the order of `t` is a power of two that goes down until `t` is one.
-/
import CliffordT.Fault
import CliffordT.Prime.Power
import CliffordT.Random.Generator

namespace CliffordT

/-- How many squarings take `t` to one modulo `p`, if fewer than `bound` do. -/
def squaringsToOne (p : Nat) : Nat → Nat → Option Nat
  | 0, _ => none
  | bound + 1, t => if t = 1 then some 0 else (squaringsToOne p bound (t * t % p)).map (· + 1)

/-- The corrections: `m` bounds the order of `t`, and `c` has the order `2ᵐ`. -/
def correctRoot (p m c t r : Nat) : Option Nat :=
  if t = 1 then some r
  else
    match squaringsToOne p m t with
    | none => none
    | some i =>
      if _h : i < m then
        let b := powMod c (1 <<< (m - i - 1)) p
        let c := b * b % p
        correctRoot p i c (t * c % p) (r * b % p)
      else none
termination_by m

def nonResidue (p : Nat) : Nat → Draw (Option Nat)
  | 0 => return none
  | attempts + 1 => do
    let z := (← Generator.below (p - 2)) + 2
    if powMod z ((p - 1) / 2) p = p - 1 then return some z else nonResidue p attempts

/-- A square root of `a` modulo the prime `p`. There is none when `a` is no square, and none is found
when no attempt draws a non-square. -/
def sqrtMod (a : Int) (p attempts : Nat) : Draw (Option Nat) := do
  let a := (a % p).toNat
  if a = 0 ∨ p = 2 then return some a
  if powMod a ((p - 1) / 2) p ≠ 1 then return none
  if p % 4 = 3 then return some (powMod a ((p + 1) / 4) p)
  let (s, q) := removeFactor 2 (p - 1)
  match ← nonResidue p attempts with
  | none => return none
  | some z => return correctRoot p s (powMod z q p) (powMod a q p) (powMod a ((q + 1) / 2) p)

/-- A square root modulo any integer that is given as a prime. The root of zero needs no more than a
modulus other than zero; beyond that a modulus has to be positive. -/
def sqrtModInt (a p : Int) (attempts : Nat) : ExceptT Fault Draw (Option Nat) :=
  if 0 < p then sqrtMod a p.toNat attempts
  else if p = 0 then throw .divisionByZero
  else if a % p = 0 then return some 0
  else throw .negativeModulus

/-! ## Primes as sums -/

/-- The first remainder of the Euclidean algorithm with a square below `p`. -/
def remainderBelowRoot (p a b : Nat) : Nat :=
  if p ≤ b * b ∧ 0 < b then remainderBelowRoot p b (a % b) else b
termination_by b
decreasing_by exact Nat.mod_lt a (by omega)

/-- The numbers `x` and `y` with `x² + d y² = p`, from a root of `-d` modulo the prime `p`. -/
def sumOfSquares? (d p r : Nat) : Option (Nat × Nat) :=
  let x := remainderBelowRoot p p (if r ≤ p / 2 then p - r else r)
  let rest := p - x * x
  let y := (rest / d).sqrt
  if rest % d = 0 ∧ y * y = rest / d then some (x, y) else none

/-- Writes the prime `p` as `x² + d y²`. -/
def asSumOfSquares (d p attempts : Nat) : Draw (Option (Nat × Nat)) := do
  return (← sqrtMod (-d) p attempts).bind (sumOfSquares? d p)

/-- Writes any integer that is given as a prime as `x² + d y²`; it has to be positive, and so has
`d`. -/
def asSumOfSquaresInt (d : Nat) (p : Int) (attempts : Nat) :
    ExceptT Fault Draw (Option (Nat × Nat)) :=
  if 0 < p ∧ 0 < d then asSumOfSquares d p.toNat attempts
  else if p < 0 then throw .negativeModulus
  else throw .divisionByZero

end CliffordT
