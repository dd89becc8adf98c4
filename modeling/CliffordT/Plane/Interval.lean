/-
Closed intervals of the line and upright rectangles of the plane, with rounded end points.
-/
import CliffordT.Plane.Linear

namespace CliffordT

structure Interval where
  lo : BinFloat
  hi : BinFloat
  deriving Repr, Inhabited

namespace Interval

instance : ToString Interval := ⟨fun i => "[" ++ toString i.lo ++ ", " ++ toString i.hi ++ "]"⟩

/-- The interval from `lo` to `hi`, which have to be in that order. -/
def mk? (lo hi : BinFloat) : Except Fault Interval :=
  let i : Interval := ⟨lo, hi⟩
  if hi < lo then .error (.config ("interval " ++ toString i ++ " has lo > hi")) else .ok i

/-- The interval between two numbers given in either order. -/
def spanning (x y : BinFloat) : Interval := if x ≤ y then ⟨x, y⟩ else ⟨y, x⟩

def width (i : Interval) : BinFloat := i.hi - i.lo

/-- Membership. A number outside counts as inside when the product of its distances to the two ends
is below the tolerance. -/
def contains (i : Interval) (x tol : BinFloat) : Bool :=
  let p := (i.hi - x) * (x - i.lo)
  p.isPositive || p.abs < tol

def fatten (i : Interval) (eps : BinFloat) : Interval := ⟨i.lo - eps, i.hi + eps⟩

def add (i : Interval) (s : BinFloat) : Interval := ⟨i.lo + s, i.hi + s⟩

def sub (i : Interval) (s : BinFloat) : Interval := ⟨i.lo - s, i.hi - s⟩

/-- The interval multiplied by `s`; a negative factor exchanges the ends. -/
def mul (i : Interval) (s : BinFloat) : Interval := spanning (i.lo * s) (i.hi * s)

/-- The interval divided by `s`, or `none` when `s` is zero. -/
def div? (i : Interval) (s : BinFloat) : Option Interval :=
  match i.lo.div? s, i.hi.div? s with
  | some x, some y => some (spanning x y)
  | _, _ => none

end Interval

structure Rectangle where
  x : Interval
  y : Interval
  deriving Repr, Inhabited

namespace Rectangle

instance : ToString Rectangle := ⟨fun r => toString r.x ++ " x " ++ toString r.y⟩

def area (r : Rectangle) : BinFloat := r.x.width * r.y.width

def rescale (r : Rectangle) (s : BinFloat) : Rectangle := ⟨r.x.mul s, r.y.mul s⟩

def shift (r : Rectangle) (v : Vec2) : Rectangle := ⟨r.x.add v.x, r.y.add v.y⟩

def fatten (r : Rectangle) (eps : BinFloat) : Rectangle := ⟨r.x.fatten eps, r.y.fatten eps⟩

def contains (r : Rectangle) (p : Vec2) (tol : BinFloat) : Bool :=
  r.x.contains p.x tol && r.y.contains p.y tol

end Rectangle

end CliffordT
