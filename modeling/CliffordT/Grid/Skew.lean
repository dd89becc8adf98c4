/-
Pairs of ellipses, and the grid operators that make them upright.

A grid problem asks for the grid points `u` with `u` in one ellipse and `u•` in another. A grid
operator `G` changes the problem into one for the ellipses that `G` and `G•` take into the given
ones. The skew of a pair measures how far the two are from being upright; `reduce` finds an operator
that takes a tenth of it away, or more, and `optimize` repeats that until little is left.

The computations here work on a pair in place: one that fails leaves the pair as far as it had come.
-/
import CliffordT.Grid.Embedding
import CliffordT.Plane.Ellipse

namespace CliffordT

/-- The ellipses of a grid problem: the first for the points, the second for their conjugates. -/
structure EllipsePair where
  a : Ellipse
  b : Ellipse
  deriving Repr, Inhabited

abbrev OnPair := ExceptT Fault (StateM EllipsePair)

namespace EllipsePair

/-! ## Measures -/

def skew (s : EllipsePair) : BinFloat :=
  s.a.form.m01 * s.a.form.m01 + s.b.form.m01 * s.b.form.m01

def bias (s : EllipsePair) (c : Constants) : BinFloat := s.b.z c - s.a.z c

/-- The power of the shift that brings the bias between minus one and one. What does not fit in 64
bits is not shifted at all. -/
def shiftExponent (s : EllipsePair) (c : Constants) : Int :=
  let k := ((c.one - s.bias c).scaleTwo (-1)).floor
  if -((1 : Int) <<< (63 : Nat)) ≤ k ∧ k < (1 : Int) <<< (63 : Nat) then k else 0

def skewThreshold (c : Constants) : BinFloat := c.int 15

/-! ## Actions -/

/-- The matrix `σᵏ` with `σ = λ^{-1/2} diag(λ, 1)`. -/
def sigma (k : Int) (c : Constants) : Mat2 :=
  let s := c.sqrtLambdaInv.pow k.natAbs
  let l := c.lambda.pow k.natAbs
  if k < 0 then (Mat2.diag c.one l).scale s else (Mat2.diag l c.one).scale s

/-- The matrix `τᵏ` with `τ = λ^{-1/2} diag(1, -λ)`. -/
def tau (k : Int) (c : Constants) : Mat2 :=
  let s := c.sqrtLambdaInv.pow k.natAbs
  let l := c.lambda.pow k.natAbs
  let sign := if k % 2 = 0 then c.one else -c.one
  if k < 0 then (Mat2.diag l sign).scale s else (Mat2.diag c.one (sign * l)).scale s

/-- The pair that `g` and its conjugate take into this one. -/
def apply (s : EllipsePair) (g : GridOperator) (c : Constants) : Except Fault EllipsePair := do
  return ⟨← s.a.preimage (g.toMatrix c) c, ← s.b.preimage (g.dot.toMatrix c) c⟩

/-- The pair that `σᵏ` and `τᵏ` take into this one. -/
def shift (s : EllipsePair) (k : Int) (c : Constants) : Except Fault EllipsePair := do
  return ⟨← s.a.preimage (sigma k c) c, ← s.b.preimage (tau k c) c⟩

/-! ## One reduction -/

/-- Holds when both exponents are between `-bound` and `bound`. -/
def isInBox (z zeta bound tol : BinFloat) : Bool :=
  z.atLeast (-bound) tol && z.atMost bound tol
    && zeta.atLeast (-bound) tol && zeta.atMost bound tol

/-- The amount of a shear: `⌊λᶜ / 2⌋` for the integer part `c` of the smaller exponent, but at
least one. -/
def shearAmount (z zeta : BinFloat) (c : Constants) : Int :=
  let n := (z.minimum zeta).trunc.natAbs
  max ((c.lambda.pow n).scaleTwo (-1)).floor 1

/-- The operator that reduces the skew of a pair with exponents `z` and `zeta`, depending on whether
the entry off the diagonal of the first ellipse is negative. -/
def choose? (negative : Bool) (z zeta : BinFloat) (c : Constants) : Option GridOperator :=
  let wide := c.ratio 8 10
  let narrow := c.ratio 3 10
  let below := c.ratio (-2) 10
  if isInBox z zeta wide c.tol then some GridOperator.rotation
  else if negative then
    if z.atLeast below c.tol && zeta.atLeast below c.tol then
      some (GridOperator.shearSqrt2 (shearAmount z zeta c))
    else none
  else if z.atMost narrow c.tol && zeta.atLeast wide c.tol then some GridOperator.k
  else if z.atLeast narrow c.tol && zeta.atLeast narrow c.tol then
    some (GridOperator.shear (shearAmount z zeta c))
  else if z.atLeast wide c.tol && zeta.atMost narrow c.tol then some GridOperator.k.dot
  else none

/-- Replaces the pair by its preimage and multiplies the operator found so far. -/
def step (c : Constants) (g op : GridOperator) : OnPair GridOperator := do
  set (← (← get).apply op c)
  return g * op

def unbias (c : Constants) : OnPair Int := do
  if c.one < ((← get).bias c).abs then
    let k := (← get).shiftExponent c
    set (← (← get).shift k c)
    return k
  else return 0

def exchange (c : Constants) : OnPair GridOperator := do
  let s ← get
  if (s.b.z c + s.a.z c).isNegative then step c GridOperator.identity GridOperator.swap
  else return GridOperator.identity

/-- Reflects the coordinates if the second ellipse has a negative entry off the diagonal. -/
def reflect (c : Constants) (g : GridOperator) : OnPair GridOperator := do
  if (← get).b.form.m01.isNegative then step c g GridOperator.reflection else return g

/-- Exchanges the coordinates if the exponents have a negative sum, and reflects them if the second
ellipse then has a negative entry off the diagonal. -/
def orient (c : Constants) : OnPair GridOperator := do
  reflect c (← exchange c)

def stepChosen (c : Constants) (g : GridOperator) : OnPair GridOperator := do
  let s ← get
  let z := s.a.z c
  let zeta := s.b.z c
  match choose? s.a.form.m01.isNegative z zeta c with
  | some op => step c g op
  | none =>
    throw (.internal ("no skew reduction applies to z = " ++ z.toDecimal 6 ++ ", zeta = "
      ++ zeta.toDecimal 6))

/-- Reduces the skew by a tenth or more and gives the operator that did so. A pair that counts as
upright is left alone. -/
def reduce (c : Constants) : OnPair GridOperator := do
  let initial := (← get).skew
  if initial < skewThreshold c then return GridOperator.identity
  let k ← unbias c
  let g ← orient c
  let g ← stepChosen c g
  set (← (← get).shift k c)
  let final := (← get).skew
  if initial * c.ratio 9 10 < final then
    throw (.internal ("skew went from " ++ initial.toDecimal 6 ++ " to " ++ final.toDecimal 6
      ++ ", less than a 10% reduction"))
  return g.shift k

/-! ## Repeated reduction -/

def maxReductions : Nat := 1000

/-- Reduces until the pair counts as upright, with at most `n` reductions. -/
def reduceAll (c : Constants) : Nat → GridOperator → OnPair GridOperator
  | n, g => do
    let skew := (← get).skew
    if skew < skewThreshold c then return g
    match n with
    | 0 =>
      throw (.internal ("skew still " ++ skew.toDecimal 6 ++ " after " ++ toString maxReductions
        ++ " reductions"))
    | n + 1 => reduceAll c n (g * (← reduce c))

/-- Finds an operator that makes the pair nearly upright. The reductions work on ellipses of
determinant one; the pair ends up transformed at its own scale. -/
def optimize (c : Constants) : OnPair GridOperator := do
  let scaleA := (← get).a.normalizer
  set { (← get) with a := ← (← get).a.rescale scaleA c }
  let scaleB := (← get).b.normalizer
  set { (← get) with b := ← (← get).b.rescale scaleB c }
  let g ← reduceAll c maxReductions GridOperator.identity
  set { (← get) with a := ← (← get).a.rescale (c.one / scaleA) c }
  set { (← get) with b := ← (← get).b.rescale (c.one / scaleB) c }
  return g

end EllipsePair

end CliffordT
