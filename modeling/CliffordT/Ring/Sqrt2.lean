/-
The ring `ℤ[√2]`, exactly.

An element is `a + b√2`. The ring is Euclidean for the absolute value of the norm `a² - 2b²`: the
quotient `x / y` rounds each coefficient of the exact one to the nearest integer, and `x % y` is
what remains. As for the integers, `x / 0 = 0` and `x % 0 = x`; where a zero divisor has to be told
apart there are `div?` and `mod?`.
-/
import CliffordT.Fault

namespace CliffordT

/-- The integer nearest to `p / q`, a half going up. -/
def roundDiv (p q : Int) : Int :=
  let p' := if q < 0 then -p else p
  let q' := if q < 0 then -q else q
  (p' + p' + q') / (q' + q')

/-- The element `a + b√2` of `ℤ[√2]`. -/
@[ext]
structure ZSqrt2 where
  a : Int
  b : Int
  deriving Repr, DecidableEq, Hashable, Inhabited

namespace ZSqrt2

instance : ToString ZSqrt2 := ⟨fun x => toString x.a ++ " + " ++ toString x.b ++ "√2"⟩

/-! ## Ring operations -/

def ofInt (n : Int) : ZSqrt2 := ⟨n, 0⟩

instance (n : Nat) : OfNat ZSqrt2 n := ⟨ofInt n⟩

instance : Add ZSqrt2 := ⟨fun x y => ⟨x.a + y.a, x.b + y.b⟩⟩

instance : Sub ZSqrt2 := ⟨fun x y => ⟨x.a - y.a, x.b - y.b⟩⟩

instance : Neg ZSqrt2 := ⟨fun x => ⟨-x.a, -x.b⟩⟩

instance : Mul ZSqrt2 := ⟨fun x y => ⟨x.a * y.a + x.b * y.b * 2, x.a * y.b + x.b * y.a⟩⟩

@[simp] theorem zero_a : (0 : ZSqrt2).a = 0 := rfl

@[simp] theorem zero_b : (0 : ZSqrt2).b = 0 := rfl

@[simp] theorem one_a : (1 : ZSqrt2).a = 1 := rfl

@[simp] theorem one_b : (1 : ZSqrt2).b = 0 := rfl

@[simp] theorem add_a (x y : ZSqrt2) : (x + y).a = x.a + y.a := rfl

@[simp] theorem add_b (x y : ZSqrt2) : (x + y).b = x.b + y.b := rfl

@[simp] theorem sub_a (x y : ZSqrt2) : (x - y).a = x.a - y.a := rfl

@[simp] theorem sub_b (x y : ZSqrt2) : (x - y).b = x.b - y.b := rfl

@[simp] theorem neg_a (x : ZSqrt2) : (-x).a = -x.a := rfl

@[simp] theorem neg_b (x : ZSqrt2) : (-x).b = -x.b := rfl

@[simp] theorem mul_a (x y : ZSqrt2) : (x * y).a = x.a * y.a + x.b * y.b * 2 := rfl

@[simp] theorem mul_b (x y : ZSqrt2) : (x * y).b = x.a * y.b + x.b * y.a := rfl

def scale (x : ZSqrt2) (n : Int) : ZSqrt2 := ⟨x.a * n, x.b * n⟩

def pow (x : ZSqrt2) (n : Nat) : ZSqrt2 :=
  if n = 0 then 1
  else
    let h := pow x (n / 2)
    if n % 2 = 1 then h * h * x else h * h
termination_by n
decreasing_by omega

instance : HPow ZSqrt2 Nat ZSqrt2 := ⟨pow⟩

def lambda : ZSqrt2 := ⟨1, 1⟩

def lambdaInv : ZSqrt2 := ⟨-1, 1⟩

def lambdaPow (k : Int) : ZSqrt2 :=
  if 0 ≤ k then lambda ^ k.natAbs else lambdaInv ^ k.natAbs

/-! ## Conjugate, norm and sign -/

def dot (x : ZSqrt2) : ZSqrt2 := ⟨x.a, -x.b⟩

/-- The norm `a² - 2b²`, the product of `x` and its conjugate. -/
def norm (x : ZSqrt2) : Int := x.a * x.a - x.b * x.b * 2

/-- The sign of the real number `a + b√2`, found without rounding: where the two coefficients pull
in different directions the larger of `a²` and `2b²` decides, and they are never equal. -/
def sign (x : ZSqrt2) : Int :=
  if x.a.sign = x.b.sign ∨ x.b.sign = 0 then x.a.sign
  else if x.a.sign = 0 then x.b.sign
  else if x.b * x.b * 2 < x.a * x.a then x.a.sign
  else x.b.sign

/-- Holds when neither `a + b√2` nor `a - b√2` is negative. -/
def isDoublyPositive (x : ZSqrt2) : Bool := 0 ≤ x.sign && 0 ≤ x.dot.sign

/-! ## Division -/

def isDivisibleBySqrt2 (x : ZSqrt2) : Bool := x.a % 2 == 0

def divSqrt2 (x : ZSqrt2) : ZSqrt2 := ⟨x.b, x.a.tdiv 2⟩

instance : Div ZSqrt2 :=
  ⟨fun x y =>
    let p := x * y.dot
    ⟨roundDiv p.a y.norm, roundDiv p.b y.norm⟩⟩

instance : Mod ZSqrt2 := ⟨fun x y => x - x / y * y⟩

/-- The rounded quotient, or `none` for a zero divisor. -/
def div? (x y : ZSqrt2) : Option ZSqrt2 := if y = 0 then none else some (x / y)

/-- The remainder of the rounded quotient, or `none` for a zero divisor. -/
def mod? (x y : ZSqrt2) : Option ZSqrt2 := if y = 0 then none else some (x % y)

/-- The exact quotient, if `y` divides `x`. -/
def exactDiv? (x y : ZSqrt2) : Option ZSqrt2 :=
  let n := y.norm
  let p := x * y.dot
  if n = 0 then none
  else if p.a % n = 0 ∧ p.b % n = 0 then some ⟨p.a / n, p.b / n⟩
  else none

/-! ## Square roots -/

def natSqrt? (n : Int) : Option Int :=
  let r := Nat.sqrt n.toNat
  if 0 ≤ n ∧ (r : Int) * r = n then some r else none

/-- A root `p + q√2` of `x` for one choice of the root `s` of its norm, which has to be
`p² - 2q²`, so that `p² = (a + s) / 2` and `q² = (a - s) / 4`. -/
def sqrtWith? (x : ZSqrt2) (s : Int) : Option ZSqrt2 :=
  if (x.a + s) % 2 = 0 ∧ (x.a - s) % 4 = 0 then
    match natSqrt? ((x.a + s) / 2), natSqrt? ((x.a - s) / 4) with
    | some p, some q => [⟨p, q⟩, ⟨-p, q⟩].find? fun r => r * r == x
    | _, _ => none
  else none

/-- A square root in the ring, if there is one. -/
def sqrt? (x : ZSqrt2) : Option ZSqrt2 :=
  if x = 0 then some 0
  else
    match natSqrt? x.norm with
    | some s => (sqrtWith? x s).or (sqrtWith? x (-s))
    | none => none

/-- A square root in the ring; it is a fault to ask for one of an element that is no square. -/
def sqrt (x : ZSqrt2) : Except Fault ZSqrt2 :=
  match x.sqrt? with
  | some r => .ok r
  | none => .error (.internal (toString x ++ " is not a square in Z[√2]"))

end ZSqrt2

end CliffordT
