/-!
A generator of random words, as a value: 256 bits of state, from which each step takes a word of 64
bits and then mixes the state by shifts, rotations and exclusive or.

A computation that draws is a `Draw`, which threads the generator through. Every draw happens in an
order that the code fixes, so a seed determines all results.
-/

namespace CliffordT

structure Generator where
  s0 : UInt64
  s1 : UInt64
  s2 : UInt64
  s3 : UInt64
  deriving Repr, DecidableEq, Inhabited

abbrev Draw := StateM Generator

namespace Generator

/-- The word with its bits moved up in a circle by `n` places, `0 < n < 64`. -/
def rotateLeft (x : UInt64) (n : UInt64) : UInt64 := (x <<< n) ||| (x >>> (64 - n))

/-! ## Seeding -/

def seedStep : UInt64 := 0x9e3779b97f4a7c15

def scramble (z : UInt64) : UInt64 :=
  let z := (z ^^^ (z >>> 30)) * 0xbf58476d1ce4e5b9
  let z := (z ^^^ (z >>> 27)) * 0x94d049bb133111eb
  z ^^^ (z >>> 31)

/-- The generator for a seed: its four words are scrambled values of a counter that starts at the
seed. -/
def ofSeed (seed : UInt64) : Generator :=
  ⟨scramble (seed + seedStep), scramble (seed + 2 * seedStep), scramble (seed + 3 * seedStep),
    scramble (seed + 4 * seedStep)⟩

/-! ## Drawing -/

def output (g : Generator) : UInt64 := rotateLeft (g.s0 + g.s3) 23 + g.s0

def advance (g : Generator) : Generator :=
  let s2 := g.s2 ^^^ g.s0
  let s3 := g.s3 ^^^ g.s1
  ⟨g.s0 ^^^ s3, g.s1 ^^^ s2, s2 ^^^ (g.s1 <<< 17), rotateLeft s3 45⟩

def word : Draw UInt64 := fun g => (g.output, g.advance)

/-- Draws `n` words and reads them as one number, the first word lowest. -/
def words : Nat → Draw Nat
  | 0 => return 0
  | n + 1 => do
    let low ← word
    let high ← words n
    return low.toNat + (high <<< 64)

/-- Draws the last bytes of a string, fewer than eight, lowest first. Up to four of them come from
the upper half of a word, more from its lower end, and none draw nothing. -/
def lastBytes (n : Nat) : Draw Nat := do
  if n = 0 then return 0
  let w ← word
  return (if n ≤ 4 then w.toNat >>> 32 else w.toNat) % (1 <<< (8 * n))

/-- Draws a string of bytes and reads it as a number, the first byte lowest. -/
def bytes (n : Nat) : Draw Nat := do
  let low ← words (n / 8)
  let high ← lastBytes (n % 8)
  return low + (high <<< (64 * (n / 8)))

/-- Draws a number below `n`. Eight bytes more than `n` has make the result nearly uniform. -/
def below (n : Nat) : Draw Nat := do
  let bits := if n = 0 then 0 else n.log2 + 1
  return (← bytes ((bits + 7) / 8 + 8)) % n

end Generator

end CliffordT
