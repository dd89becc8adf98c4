/-
Ellipses of the plane.

An ellipse is the set of the points `p` with `(p - c)ᵀ D (p - c) ≤ 1` for a positive definite matrix
`D` and a center `c`. It also carries its semi-axes and the direction of the shorter one, which come
either from the matrix or are what the matrix was made from. Two numbers describe how the matrix is
skewed: with `z = ½ log_λ (D₁₁ / D₀₀)` and `e = √(D₀₀ D₁₁)` its diagonal is `e λ^{-z}`, `e λ^z`.
-/
import CliffordT.Plane.Interval
import CliffordT.Settings.Context

namespace CliffordT

/-- The value, or a division by zero when there is none. -/
def quotient {α : Type} : Option α → Except Fault α
  | some x => .ok x
  | none => .error .divisionByZero

/-- The ellipse `(p - center)ᵀ form (p - center) ≤ 1`. -/
structure Ellipse where
  form : Mat2
  center : Vec2
  semiMajor : BinFloat
  semiMinor : BinFloat
  /-- The direction of the shorter axis. -/
  angle : BinFloat
  deriving Repr, Inhabited

namespace Ellipse

def axesOf (d : Mat2) (c : Constants) : Except Fault (BinFloat × BinFloat) := do
  let msq ← quotient (c.one.div? d.determinant)
  let tm := d.trace * msq
  let disc := ((tm * tm - msq.scaleTwo 2).maximum c.zero).sqrt
  return (((tm + disc).scaleTwo (-1)).sqrt, ((tm - disc).scaleTwo (-1)).sqrt)

/-- The direction of the eigenvector with the larger eigenvalue. -/
def angleOf (d : Mat2) (c : Constants) : BinFloat :=
  ((BinFloat.atan2 (d.m01.scaleTwo 1) (d.m00 - d.m11)).withPrec c.prec).scaleTwo (-1)

/-- The ellipse of a matrix; a singular one has none. -/
def ofMatrix (d : Mat2) (center : Vec2) (c : Constants) : Except Fault Ellipse := do
  let (semiMajor, semiMinor) ← axesOf d c
  return { form := d, center, semiMajor, semiMinor, angle := angleOf d c }

/-- The matrix with the given semi-axes, the shorter one in direction `angle`. -/
def matrixOf (semiMajor semiMinor angle : BinFloat) (c : Constants) : Except Fault Mat2 := do
  let (s, t) ← angle.sinCos
  let p := (← quotient (c.one.div? semiMinor)).pow 2
  let q := (← quotient (c.one.div? semiMajor)).pow 2
  let off := t * s * (p - q)
  return ⟨t * t * p + s * s * q, off, off, s * s * p + t * t * q⟩

/-- The ellipse with the given semi-axes, the shorter one in direction `angle`. -/
def ofAxes (center : Vec2) (semiMajor semiMinor angle : BinFloat) (c : Constants) :
    Except Fault Ellipse := do
  return { form := ← matrixOf semiMajor semiMinor angle c, center, semiMajor, semiMinor, angle }

def unitDisk (c : Constants) : Except Fault Ellipse :=
  ofAxes (Vec2.zero c.prec) c.one c.one c.zero c

/-- The ellipse of smallest area around the part of the unit disk with
`Re (p e^{-iθ}) ≥ 1 - ε²/2`. -/
def epsilonRegion (theta eps : BinFloat) (c : Constants) : Except Fault Ellipse := do
  let eps2 := eps * eps
  let r := (c.int 3 - eps2) / c.int 3
  let (sin, cos) ← theta.sinCos
  let semiMajor := c.int 2 / (c.int 3).sqrt * eps * (c.one - eps2.scaleTwo (-2)).sqrt
  ofAxes ⟨r * cos, r * sin⟩ semiMajor (eps2 / c.int 3) theta c

/-! ## Descriptors -/

def determinant (e : Ellipse) : BinFloat := e.form.determinant

/-- Half the logarithm to base `λ` of the ratio of the diagonal entries; zero where the ratio has no
logarithm, for an ellipse that is degenerate has no skew direction. -/
def z (e : Ellipse) (c : Constants) : BinFloat :=
  match (e.form.m11.div? e.form.m00).bind BinFloat.ln? with
  | some l => l.scaleTwo (-1) / c.logLambda
  | none => c.zero

def e (e : Ellipse) : BinFloat := (e.form.m00 * e.form.m11).sqrt

def area (e : Ellipse) (c : Constants) : BinFloat := c.pi * e.semiMajor * e.semiMinor

/-- The ratio of the area to that of the bounding box, at most `π/4`. -/
def uprightness (e : Ellipse) (c : Constants) : Except Fault BinFloat := do
  let r ← quotient (e.determinant.div? (e.form.m00 * e.form.m11))
  return c.pi.scaleTwo (-2) * r.sqrt

/-- Membership, up to a tolerance in the value of the form. -/
def contains (e : Ellipse) (p : Vec2) (tol : BinFloat) : Bool :=
  let x := e.form.quadraticForm (p - e.center)
  let one := BinFloat.one x.prec
  x < one || (x - one).abs < tol

def boundingBox (e : Ellipse) : Except Fault Rectangle := do
  let det := e.determinant
  let x := (← quotient (e.form.m11.div? det)).sqrt
  let y := (← quotient (e.form.m00.div? det)).sqrt
  return ⟨Interval.spanning (e.center.x - x) (e.center.x + x),
    Interval.spanning (e.center.y - y) (e.center.y + y)⟩

instance : ToString Ellipse :=
  ⟨fun e => "D = " ++ toString e.form
    ++ "\nsemi-major axis = " ++ e.semiMajor.toDecimal 8
    ++ "\nsemi-minor axis = " ++ e.semiMinor.toDecimal 8
    ++ "\ncenter = (" ++ e.center.x.toDecimal 8 ++ ", " ++ e.center.y.toDecimal 8 ++ ")"⟩

/-! ## Maps -/

/-- The ellipse scaled about the origin by `s`, which is not zero. -/
def rescale (e : Ellipse) (s : BinFloat) (c : Constants) : Except Fault Ellipse := do
  let r ← quotient (c.one.div? (s * s))
  return { e with
    form := e.form.scale r
    semiMajor := e.semiMajor * s.abs
    semiMinor := e.semiMinor * s.abs
    center := e.center.scale s }

/-- The factor that brings the determinant to one. -/
def normalizer (e : Ellipse) : BinFloat := e.determinant.sqrt.sqrt

/-- The points that a matrix takes into the ellipse. -/
def preimage (e : Ellipse) (m : Mat2) (c : Constants) : Except Fault Ellipse := do
  let inv ← m.inverse
  ofMatrix (m.congruence e.form) (inv.apply e.center) c

end Ellipse

end CliffordT
