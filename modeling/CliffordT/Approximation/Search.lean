/-
The search for an approximation, by increasing denominator exponent.

An upper left entry `u / √2ᵏ` is within `ε` of `e^{iθ}` when it lies in a thin slice of the unit
disk, and can belong to a unitary only if `u•` is bounded by `√2ᵏ` as well. So `u` is a point of a
grid problem for an ellipse around the slice and a disk, both scaled by `√2ᵏ`. A grid operator makes
the two upright, once for all exponents. Each point found is taken back by the operator, tested
against the slice, and completed to a unitary by a solution of a norm equation.
-/
import CliffordT.Approximation.Basic
import CliffordT.Grid.Points
import CliffordT.Norm.Equation

namespace CliffordT.Approximation

structure Target where
  theta : BinFloat
  cos : BinFloat
  sin : BinFloat
  /-- The bound `1 - ε²/2` that the real part of `u e^{-iθ} / √2ᵏ` has to exceed. -/
  threshold : BinFloat
  /-- The operator that made the problem upright. -/
  op : GridOperator

/-- The factors `√2ᵏ` and `(-√2)ᵏ` of the two ellipses. -/
def levelScales (k : Nat) (c : Constants) : BinFloat × BinFloat :=
  let half := BinFloat.twoPow (k / 2 : Nat) c.prec
  if k % 2 = 0 then (half, half)
  else
    let s := half * c.sqrt2
    (s, -s)

/-- The target for an angle, and the pair of ellipses of its grid problem, made upright. -/
def prepare (theta : BinFloat) (c : Constants) : Except Fault (Target × EllipsePair) := do
  let pair : EllipsePair := ⟨← Ellipse.epsilonRegion theta c.eps c, ← Ellipse.unitDisk c⟩
  let (op, upright) := (EllipsePair.optimize c).run pair
  let op ← op
  let (sin, cos) ← theta.sinCos
  return ({ theta, cos, sin, threshold := c.one - (c.eps * c.eps).scaleTwo (-1), op }, upright)

/-- Takes a point of the upright problem back, and completes it to a unitary if it lies in the slice
and the norm equation for it is solved. -/
def Target.tryPoint (target : Target) (point : ZOmega) (k : Nat) (scale : BinFloat)
    (ctx : Context) : Search (Option Approximation) := do
  let c := ctx.toConstants
  let candidate := target.op.act point
  let projection := (candidate.re c * target.cos + candidate.im c * target.sin) / scale
  if projection ≤ target.threshold then return none
  let u := candidate.withoutSqrt2
  let v := candidate.sqrt2Valuation
  if k < v then return none
  let k := k - v
  match ← NormEquation.solve (ZSqrt2.ofInt ((1 : Int) <<< k) - u.norm) ctx with
  | none => return none
  | some t => return some (← ofColumn u t k target.theta c)

/-- The first value that a step finds at one of `n` successive denominator exponents from `k` on. -/
def searchLevels {α : Type} (step : Nat → Search (Option α)) : Nat → Nat → Search (Option α)
  | 0, _ => return none
  | n + 1, k => do
    match ← step k with
    | some a => return some a
    | none => searchLevels step n (k + 1)

def searchPoints (target : Target) (points : Nat → Except Fault (List ZOmega)) (ctx : Context) :
    Search (Option Approximation) :=
  searchLevels
    (fun k => do
      let scale := (levelScales k ctx.toConstants).1
      (← points k).findSomeM? fun p => target.tryPoint p k scale ctx)
    (ctx.kmax + 1 - ctx.kmin) ctx.kmin

/-- The bounding boxes of the two ellipses, scaled to the denominator exponent `k` and widened. -/
def levelBoxes (a b : Rectangle) (k : Nat) (c : Constants) : Rectangle × Rectangle :=
  let (s, s') := levelScales k c
  ((a.rescale s).fatten c.eps, (b.rescale s').fatten c.eps)

/-- An approximation for the angle, from the grid points in the bounding boxes of the ellipses,
widened a little. -/
def find (theta : BinFloat) (ctx : Context) : Search (Option Approximation) := do
  let c := ctx.toConstants
  let (target, pair) ← prepare theta c
  let a ← pair.a.boundingBox
  let b ← pair.b.boundingBox
  searchPoints target
    (fun k =>
      let (boxA, boxB) := levelBoxes a b k c
      return GridPoints.inRectangles boxA boxB c)
    ctx

/-- An approximation for the angle, from the grid points in the ellipses themselves. An angle of
zero, up to the tolerance, is not searched for. -/
def findInEllipses (theta : BinFloat) (ctx : Context) : Search (Option Approximation) := do
  let c := ctx.toConstants
  if theta.abs < c.tol then return some (← identity theta c)
  let (target, pair) ← prepare theta c
  searchPoints target
    (fun k => do
      let (s, s') := levelScales k c
      GridPoints.inEllipsesWidened ⟨← pair.a.rescale s c, ← pair.b.rescale s' c⟩ c.eps c)
    ctx

end CliffordT.Approximation
