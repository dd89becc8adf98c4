/-
The grid points with both embeddings in given regions.

A problem on the line asks for the `x = a + b√2` with `x` in one interval and `x•` in another. As
`x - x• = 2b√2`, the intervals bound `b`, and for each `b` the first of them bounds `a`; whatever is
left is tested for membership, so that the bounds only have to be wide enough. When the first
interval is scaled by a power of `λ` to a width below one, and the second by the conjugate of that
power, there are few values of `b` to look at, and the points found are scaled back.

A problem in the plane is two problems on the line, one for each coordinate, and that twice: for
the points without `ω` and for the points with it.
-/
import CliffordT.Grid.Skew
import CliffordT.Ring.Embedding

namespace CliffordT

def integersBetween (lo hi : Int) : List Int :=
  (List.range (hi - lo + 1).toNat).map fun i : Nat => lo + (i : Int)

theorem mem_integersBetween {lo hi n : Int} : n ∈ integersBetween lo hi ↔ lo ≤ n ∧ n ≤ hi := by
  simp only [integersBetween, List.mem_map, List.mem_range]
  constructor
  · rintro ⟨i, hi, rfl⟩
    omega
  · rintro ⟨h1, h2⟩
    exact ⟨(n - lo).toNat, by omega, by omega⟩

namespace GridPoints

/-! ## On the line -/

/-- The integers that are between two numbers, up to the tolerance. -/
def integersWithin (lo hi : BinFloat) (c : Constants) : List Int :=
  integersBetween (lo - c.tol).ceil (hi + c.tol).floor

def isOnLine (a b : Interval) (c : Constants) (x : ZSqrt2) : Bool :=
  a.contains (x.toReal c) c.tol && b.contains (x.toRealDot c) c.tol

/-- The `x` with `x` in `a` and `x•` in `b`, by increasing multiple of `√2`. -/
def onLine (a b : Interval) (c : Constants) : List ZSqrt2 :=
  (integersWithin ((a.lo - b.hi) * c.halfInvSqrt2) ((a.hi - b.lo) * c.halfInvSqrt2) c).flatMap
    fun y =>
      let offset := c.int y * c.sqrt2
      ((integersWithin (a.lo - offset) (a.hi - offset) c).map fun x => ⟨x, y⟩).filter
        (isOnLine a b c)

/-- The exponent `k` for which `λ⁻ᵏ` times a width is below one and not below `λ⁻¹`, as found by a
logarithm in double precision. -/
def scaleExponent (width : BinFloat) (c : Constants) : Int :=
  BinFloat.floorDouble (width.lnDouble / c.logLambda.toDouble) + 1

def realPow (x : BinFloat) (k : Int) : BinFloat := (x.zpow? k).getD (BinFloat.zero x.prec)

/-- The points of `onLine`, found after the first interval is scaled down by the power of `λ` that
`exponent` gives for its width. -/
def onLineScaledBy (exponent : BinFloat → Int) (a b : Interval) (c : Constants) : List ZSqrt2 :=
  if a.width.isPositive then
    let k := exponent a.width
    let unscale := ZSqrt2.lambdaPow k
    (onLine (a.mul (realPow c.lambdaInv k)) (b.mul (realPow (-c.lambda) k)) c).map (· * unscale)
  else onLine a b c

/-- The points of `onLine`, found after the first interval is scaled to a width below one. -/
def onLineScaled (a b : Interval) (c : Constants) : List ZSqrt2 :=
  onLineScaledBy (scaleExponent · c) a b c

/-- The points of `onLine`, found by scaling the wider of the two intervals; where that is the
second, the conjugate problem is solved. -/
def onLineBalancedBy (exponent : BinFloat → Int) (a b : Interval) (c : Constants) : List ZSqrt2 :=
  if b.width ≤ a.width then onLineScaledBy exponent a b c
  else (onLineScaledBy exponent b a c).map ZSqrt2.dot

def onLineBalanced (a b : Interval) (c : Constants) : List ZSqrt2 :=
  onLineBalancedBy (scaleExponent · c) a b c

/-! ## In the plane -/

/-- The points `α + βi + wω` with one choice of `w`. -/
def inRectanglesWith (exponent : BinFloat → Int) (a b : Rectangle) (w : Bool) (c : Constants) :
    List ZOmega :=
  let s := c.invSqrt2
  let a := if w then ⟨a.x.sub s, a.y.sub s⟩ else a
  let b := if w then ⟨b.x.add s, b.y.add s⟩ else b
  match onLineBalancedBy exponent a.x b.x c with
  | [] => []
  | alphas =>
    let betas := onLineBalancedBy exponent a.y b.y c
    alphas.flatMap fun alpha => betas.map fun beta => ZOmega.ofAlphaBeta alpha beta w

/-- The `u` with `u` in `a` and `u•` in `b`, the intervals being scaled as `exponent` says; those
without `ω` come first. -/
def inRectanglesBy (exponent : BinFloat → Int) (a b : Rectangle) (c : Constants) : List ZOmega :=
  inRectanglesWith exponent a b false c ++ inRectanglesWith exponent a b true c

/-- The `u` with `u` in `a` and `u•` in `b`. -/
def inRectangles (a b : Rectangle) (c : Constants) : List ZOmega :=
  inRectanglesBy (scaleExponent · c) a b c

/-- Membership of a point and its conjugate. -/
def isInEllipses (s : EllipsePair) (c : Constants) (u : ZOmega) : Bool :=
  s.a.contains ⟨u.re c, u.im c⟩ c.tol && s.b.contains ⟨u.dot.re c, u.dot.im c⟩ c.tol

/-- The `u` with `u` in the first ellipse and `u•` in the second. -/
def inEllipses (s : EllipsePair) (c : Constants) : Except Fault (List ZOmega) := do
  return (inRectangles (← s.a.boundingBox) (← s.b.boundingBox) c).filter (isInEllipses s c)

/-- The points of `inEllipses`, looked for in bounding boxes that are widened by `eps`, so that no
point on the rim is lost to rounding. -/
def inEllipsesWidened (s : EllipsePair) (eps : BinFloat) (c : Constants) :
    Except Fault (List ZOmega) := do
  let a ← s.a.boundingBox
  let b ← s.b.boundingBox
  return (inRectangles (a.fatten eps) (b.fatten eps) c).filter (isInEllipses s c)

end GridPoints

end CliffordT
