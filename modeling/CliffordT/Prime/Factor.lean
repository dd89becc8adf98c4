/-
Factoring integers with a bounded effort.

Small primes are divided out first. What is left is tested for being a prime by Fermat's theorem, to
random bases, and split by a walk `x ↦ x² + c` that looks for a collision modulo an unknown divisor.
Both may go wrong: the test may take a composite number for a prime, and the walk may find no
divisor within its budget, so that there is no factorization.
-/
import CliffordT.Prime.Power
import CliffordT.Random.Generator
import CliffordT.Settings.Context

namespace CliffordT

/-! ## The primality test -/

/-- Holds when `a ^ (n - 1) = 1` modulo `n` for so many random `a`; the first failure ends it. -/
def passesFermat (n : Nat) : Nat → Draw Bool
  | 0 => return true
  | rounds + 1 => do
    let a ← Generator.below (n - 3)
    if powMod (a + 2) (n - 1) n = 1 then passesFermat n rounds else return false

/-- Tests for a prime, in a number of rounds. Below four, and for even numbers, the answer needs no
random base. -/
def isProbablePrime (n : Int) (rounds : Nat) : Draw Bool :=
  if n < 2 then return false
  else if n < 4 then return true
  else if n % 2 = 0 then return false
  else passesFermat n.toNat rounds

/-! ## Splitting -/

/-- The slow and the fast walker, and the constant of the walk. -/
structure Walk where
  slow : Nat
  fast : Nat
  addend : Nat

namespace Walk

def next (m addend x : Nat) : Nat := (x * x + addend) % m

/-- The slow walker makes one step and the fast one two. -/
def advance (m : Nat) (w : Walk) : Walk :=
  { w with slow := next m w.addend w.slow
           fast := next m w.addend (next m w.addend w.fast) }

/-- What the distance of the walkers and `m` have in common. -/
def commonDivisor (m : Nat) (w : Walk) : Nat :=
  Int.gcd ((w.slow : Int) - w.fast) m

end Walk

/-- Looks for a divisor of `n` other than one and `n`, in at most so many steps. Where the two
walkers meet modulo `n` itself, the walk starts again at a random point with the next constant. -/
def findDivisor (n : Int) : Nat → Walk → Draw (Option Nat)
  | 0, _ => return none
  | effort + 1, w => do
    let w := w.advance n.natAbs
    let d := w.commonDivisor n.natAbs
    if (d : Int) = n then
      let x ← Generator.below n.natAbs
      findDivisor n effort ⟨x, x, w.addend + 1⟩
    else if d = 1 then findDivisor n effort w
    else return some d

/-- A divisor of a composite number; for an even one that is two. -/
def divisor? (n : Int) (effort : Nat) : Draw (Option Nat) :=
  if n % 2 = 0 then return some 2 else findDivisor n effort ⟨2, 2, 1⟩

/-- The probable primes whose product is `n`, in the order in which they are found. -/
def splitCompletely (n : Nat) (l : Limits) : OptionT Draw (List Nat) := do
  if n ≤ 1 then return []
  if ← isProbablePrime n l.fermatRounds then return [n]
  let d ← OptionT.mk (divisor? n l.factorEffort)
  if _h : 1 < d ∧ d < n then
    let front ← splitCompletely d l
    let back ← splitCompletely (n / d) l
    return front ++ back
  else failure
termination_by n
decreasing_by
  · exact _h.2
  · exact Nat.div_lt_self (by omega) _h.1

/-! ## Factorizations -/

/-- The numbers by which is divided first: two, and the odd ones below 1024. A composite one among
them no longer divides once its own factors are gone. -/
def trialDivisors : List Nat := 2 :: (List.range 511).map fun i => 2 * i + 3

/-- Divides `m` by the given numbers as often as they go, until nothing is left; gives the powers
that divide, and the rest. -/
def trialDivide : List Nat → Nat → List (Nat × Nat) × Nat
  | [], m => ([], m)
  | q :: qs, m =>
    if m ≤ 1 then ([], m)
    else
      let (e, m') := removeFactor q m
      let (powers, rest) := trialDivide qs m'
      (if e = 0 then powers else (q, e) :: powers, rest)

/-- Puts one more prime into a factorization, which is sorted by primes. -/
def insertPrime (p : Nat) : List (Nat × Nat) → List (Nat × Nat)
  | [] => [(p, 1)]
  | (q, e) :: rest =>
    if p = q then (q, e + 1) :: rest
    else if p < q then (p, 1) :: (q, e) :: rest
    else (q, e) :: insertPrime p rest

/-- The factorization of `|n|` into powers of increasing primes. Zero has none, and there is none
when the effort did not suffice. -/
def factorize (n : Int) (l : Limits) : Draw (Option (List (Nat × Nat))) :=
  if n = 0 then return none
  else do
    let (powers, rest) := trialDivide trialDivisors n.natAbs
    match ← (splitCompletely rest l).run with
    | none => return none
    | some primes => return some (primes.foldr insertPrime powers)

end CliffordT
