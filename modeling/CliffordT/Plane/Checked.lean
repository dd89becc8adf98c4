/-
Intervals and rectangles whose ends have exponents of 64 bits.

The operations on an interval are those on its ends, and sorting the ends compares them. Each is the one of its name on
`Interval` or `Rectangle` where no exponent leaves its range.
-/
import CliffordT.BinFloat.Checked
import CliffordT.Plane.Interval

namespace CliffordT.Checked

namespace Interval

def mk? (lo hi : BinFloat) : Except Fault Interval := do
  if (← cmp lo hi) = .gt then CliffordT.Interval.mk? lo hi else return ⟨lo, hi⟩

def spanning (x y : BinFloat) : Except Fault Interval :=
  return if (← cmp x y) ≠ .gt then ⟨x, y⟩ else ⟨y, x⟩

def fatten (i : Interval) (eps : BinFloat) : Except Fault Interval :=
  return ⟨← Checked.sub i.lo eps, ← Checked.add i.hi eps⟩

def add (i : Interval) (s : BinFloat) : Except Fault Interval :=
  return ⟨← Checked.add i.lo s, ← Checked.add i.hi s⟩

def sub (i : Interval) (s : BinFloat) : Except Fault Interval :=
  return ⟨← Checked.sub i.lo s, ← Checked.sub i.hi s⟩

def mul (i : Interval) (s : BinFloat) : Except Fault Interval := do
  spanning (← Checked.mul i.lo s) (← Checked.mul i.hi s)

def div (i : Interval) (s : BinFloat) : Except Fault Interval := do
  spanning (← Checked.div i.lo s) (← Checked.div i.hi s)

end Interval

namespace Rectangle

def rescale (r : Rectangle) (s : BinFloat) : Except Fault Rectangle :=
  return ⟨← Interval.mul r.x s, ← Interval.mul r.y s⟩

def shift (r : Rectangle) (v : Vec2) : Except Fault Rectangle :=
  return ⟨← Interval.add r.x v.x, ← Interval.add r.y v.y⟩

def fatten (r : Rectangle) (eps : BinFloat) : Except Fault Rectangle :=
  return ⟨← Interval.fatten r.x eps, ← Interval.fatten r.y eps⟩

end Rectangle

end CliffordT.Checked
