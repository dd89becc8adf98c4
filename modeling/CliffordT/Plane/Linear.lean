/-
Vectors of the plane and 2×2 matrices over rounded numbers. Every entry of a result is computed by
the formula written here, in this order of operations, each of them rounded.
-/
import CliffordT.BinFloat.Decimal
import CliffordT.Fault

namespace CliffordT

structure Vec2 where
  x : BinFloat
  y : BinFloat
  deriving Repr, Inhabited

namespace Vec2

def zero (prec : Nat) : Vec2 := ⟨BinFloat.zero prec, BinFloat.zero prec⟩

instance : Add Vec2 := ⟨fun v w => ⟨v.x + w.x, v.y + w.y⟩⟩

instance : Sub Vec2 := ⟨fun v w => ⟨v.x - w.x, v.y - w.y⟩⟩

def dot (v w : Vec2) : BinFloat := v.x * w.x + v.y * w.y

def scale (v : Vec2) (s : BinFloat) : Vec2 := ⟨v.x * s, v.y * s⟩

end Vec2

/-- The matrix `[[m00, m01], [m10, m11]]`. -/
structure Mat2 where
  m00 : BinFloat
  m01 : BinFloat
  m10 : BinFloat
  m11 : BinFloat
  deriving Repr, Inhabited

namespace Mat2

/-- The text of a matrix has eight significant digits in each entry. -/
instance : ToString Mat2 :=
  ⟨fun m => "[[" ++ m.m00.toDecimal 8 ++ ", " ++ m.m01.toDecimal 8 ++ "], ["
    ++ m.m10.toDecimal 8 ++ ", " ++ m.m11.toDecimal 8 ++ "]]"⟩

def diag (x y : BinFloat) : Mat2 :=
  let zero := BinFloat.zero (max x.prec y.prec)
  ⟨x, zero, zero, y⟩

def determinant (m : Mat2) : BinFloat := m.m00 * m.m11 - m.m01 * m.m10

def trace (m : Mat2) : BinFloat := m.m00 + m.m11

def transpose (m : Mat2) : Mat2 := ⟨m.m00, m.m10, m.m01, m.m11⟩

def scale (m : Mat2) (s : BinFloat) : Mat2 := ⟨m.m00 * s, m.m01 * s, m.m10 * s, m.m11 * s⟩

/-- The inverse, by the adjugate; a singular matrix has none. -/
def inverse (m : Mat2) : Except Fault Mat2 :=
  let det := m.determinant
  match (BinFloat.one det.prec).div? det with
  | some r => .ok ⟨m.m11 * r, -(m.m01 * r), -(m.m10 * r), m.m00 * r⟩
  | none => .error (.internal ("cannot invert singular matrix\n" ++ toString m))

def apply (m : Mat2) (v : Vec2) : Vec2 := ⟨m.m00 * v.x + m.m01 * v.y, m.m10 * v.x + m.m11 * v.y⟩

/-- The value `vᵀ M v`. -/
def quadraticForm (m : Mat2) (v : Vec2) : BinFloat := v.dot (m.apply v)

def mul (m n : Mat2) : Mat2 :=
  ⟨m.m00 * n.m00 + m.m01 * n.m10, m.m00 * n.m01 + m.m01 * n.m11,
    m.m10 * n.m00 + m.m11 * n.m10, m.m10 * n.m01 + m.m11 * n.m11⟩

instance : Mul Mat2 := ⟨mul⟩

/-- The product `Mᵀ A M`: the quadratic form `A` pulled back along `M`. -/
def congruence (m a : Mat2) : Mat2 := m.transpose * a * m

end Mat2

end CliffordT
