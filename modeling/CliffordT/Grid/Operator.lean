/-
Grid operators: the linear maps of the plane that take the grid `ℤ[ω]` to itself.

An operator is a real 2×2 matrix

    [ a₀ + a₁/√2   b₀ + b₁/√2 ]
    [ c₀ + c₁/√2   d₀ + d₁/√2 ]

whose eight integers have `a₀ + b₀ + c₀ + d₀` even and `a₁`, `b₁`, `c₁`, `d₁` all even or all odd.
Those two conditions are what makes every halving in a product, and in the action on a grid point,
come out even. An operator is special when its determinant is one or minus one; it then has an
inverse that is a grid operator again.
-/
import CliffordT.Ring.Omega

namespace CliffordT

/-- The matrix with entries `a₀ + a₁/√2`, `b₀ + b₁/√2`, `c₀ + c₁/√2` and `d₀ + d₁/√2`, row by row. -/
@[ext]
structure GridOperator where
  a₀ : Int
  a₁ : Int
  b₀ : Int
  b₁ : Int
  c₀ : Int
  c₁ : Int
  d₀ : Int
  d₁ : Int
  deriving Repr, DecidableEq, Inhabited

namespace GridOperator

def entryText (x y : Int) : String := toString x ++ " + " ++ toString y ++ "/√2"

instance : ToString GridOperator :=
  ⟨fun g => "[[" ++ entryText g.a₀ g.a₁ ++ ", " ++ entryText g.b₀ g.b₁ ++ "], ["
    ++ entryText g.c₀ g.c₁ ++ ", " ++ entryText g.d₀ g.d₁ ++ "]]"⟩

/-! ## Conditions on the entries -/

/-- Holds when the four integer parts have an even sum. -/
def isEvenSum (g : GridOperator) : Bool := (g.a₀ + g.b₀ + g.c₀ + g.d₀) % 2 == 0

/-- Holds when the four multiples of `1/√2` are all even or all odd. -/
def isOneParity (g : GridOperator) : Bool :=
  g.b₁ % 2 == g.a₁ % 2 && g.c₁ % 2 == g.a₁ % 2 && g.d₁ % 2 == g.a₁ % 2

def determinantParts (g : GridOperator) : Int × Int × Int :=
  (g.a₀ * g.d₀ - g.c₀ * g.b₀,
    g.a₀ * g.d₁ + g.d₀ * g.a₁ - g.c₀ * g.b₁ - g.b₀ * g.c₁,
    g.a₁ * g.d₁ - g.c₁ * g.b₁)

/-- Holds when the determinant is one or minus one. -/
def isSpecial (g : GridOperator) : Bool :=
  let (p, q, r) := g.determinantParts
  q == 0 && (p * 2 + r).natAbs == 2

def detSign (g : GridOperator) : Int :=
  let (p, _, r) := g.determinantParts
  (p * 2 + r).tdiv 2

def check (g : GridOperator) : Except Fault GridOperator :=
  if !g.isEvenSum then .error (.config ("a + b + c + d must be even in " ++ toString g))
  else if !g.isOneParity then
    .error (.config ("a', b', c', d' must share a parity in " ++ toString g))
  else .ok g

def checkSpecial (g : GridOperator) : Except Fault GridOperator :=
  match g.check with
  | .error e => .error e
  | .ok g =>
    if g.isSpecial then .ok g
    else .error (.config (toString g ++ " does not have determinant ±1"))

/-! ## The special operators that undo skew -/

def identity : GridOperator := ⟨1, 0, 0, 0, 0, 0, 1, 0⟩

def rotation : GridOperator := ⟨0, 1, 0, -1, 0, 1, 0, 1⟩

/-- The operator `K`: `1/√2` times the matrix with rows `-λ⁻¹, -1` and `λ, 1`. -/
def k : GridOperator := ⟨-1, 1, 0, -1, 1, 1, 0, 1⟩

/-- The exchange of the coordinates. -/
def swap : GridOperator := ⟨0, 0, 1, 0, 1, 0, 0, 0⟩

def reflection : GridOperator := ⟨1, 0, 0, 0, 0, 0, -1, 0⟩

def shear (n : Int) : GridOperator := ⟨1, 0, -(n * 2), 0, 0, 0, 1, 0⟩

def shearSqrt2 (n : Int) : GridOperator := ⟨1, 0, 0, n * 2, 0, 0, 1, 0⟩

/-! ## Operations -/

def mul (f g : GridOperator) : GridOperator :=
  ⟨f.a₀ * g.a₀ + f.b₀ * g.c₀ + (f.a₁ * g.a₁ + f.b₁ * g.c₁).tdiv 2,
    f.a₀ * g.a₁ + f.a₁ * g.a₀ + f.b₀ * g.c₁ + f.b₁ * g.c₀,
    f.a₀ * g.b₀ + f.b₀ * g.d₀ + (f.a₁ * g.b₁ + f.b₁ * g.d₁).tdiv 2,
    f.a₀ * g.b₁ + f.a₁ * g.b₀ + f.b₀ * g.d₁ + f.b₁ * g.d₀,
    f.c₀ * g.a₀ + f.d₀ * g.c₀ + (f.c₁ * g.a₁ + f.d₁ * g.c₁).tdiv 2,
    f.c₀ * g.a₁ + f.c₁ * g.a₀ + f.d₀ * g.c₁ + f.d₁ * g.c₀,
    f.c₀ * g.b₀ + f.d₀ * g.d₀ + (f.c₁ * g.b₁ + f.d₁ * g.d₁).tdiv 2,
    f.c₀ * g.b₁ + f.c₁ * g.b₀ + f.d₀ * g.d₁ + f.d₁ * g.d₀⟩

instance : Mul GridOperator := ⟨mul⟩

/-- The image of the grid point with coordinates `Re z` and `Im z`. -/
def act (g : GridOperator) (z : ZOmega) : ZOmega :=
  let x := z.d
  let x₁ := z.c - z.a
  let y := z.b
  let y₁ := z.c + z.a
  let u := x * g.a₀ + y * g.b₀ + (y₁ * g.b₁ + x₁ * g.a₁).tdiv 2
  let u₁ := x * g.a₁ + x₁ * g.a₀ + y * g.b₁ + y₁ * g.b₀
  let v := x * g.c₀ + y * g.d₀ + (x₁ * g.c₁ + y₁ * g.d₁).tdiv 2
  let v₁ := x * g.c₁ + x₁ * g.c₀ + y * g.d₁ + y₁ * g.d₀
  ⟨(v₁ - u₁).tdiv 2, v, (v₁ + u₁).tdiv 2, u⟩

def inverse (g : GridOperator) : GridOperator :=
  let s := g.detSign
  ⟨g.d₀ * s, g.d₁ * s, -(g.b₀ * s), -(g.b₁ * s), -(g.c₀ * s), -(g.c₁ * s), g.a₀ * s, g.a₁ * s⟩

/-- Takes `√2` to `-√2` in every entry. -/
def dot (g : GridOperator) : GridOperator :=
  ⟨g.a₀, -g.a₁, g.b₀, -g.b₁, g.c₀, -g.c₁, g.d₀, -g.d₁⟩

def transpose (g : GridOperator) : GridOperator :=
  ⟨g.a₀, g.a₁, g.c₀, g.c₁, g.b₀, g.b₁, g.d₀, g.d₁⟩

/-- The product `σ G σ` with `σ = λ^{-1/2} diag(λ, 1)`: the first entry is multiplied by `λ` and the
last divided by it. -/
def conjugate (g : GridOperator) : GridOperator :=
  ⟨g.a₀ + g.a₁, g.a₀ * 2 + g.a₁, g.b₀, g.b₁, g.c₀, g.c₁, g.d₁ - g.d₀, g.d₀ * 2 - g.d₁⟩

/-- The product `σ⁻¹ G σ⁻¹`, which undoes `conjugate`. -/
def invConjugate (g : GridOperator) : GridOperator :=
  ⟨g.a₁ - g.a₀, g.a₀ * 2 - g.a₁, g.b₀, g.b₁, g.c₀, g.c₁, g.d₀ + g.d₁, g.d₀ * 2 + g.d₁⟩

def conjugateBy : Nat → GridOperator → GridOperator
  | 0, g => g
  | n + 1, g => conjugateBy n g.conjugate

def invConjugateBy : Nat → GridOperator → GridOperator
  | 0, g => g
  | n + 1, g => invConjugateBy n g.invConjugate

/-- The product `σᵏ G σᵏ` for any integer `k`. -/
def shift (g : GridOperator) (n : Int) : GridOperator :=
  if 0 < n then conjugateBy n.natAbs g else invConjugateBy n.natAbs g

end GridOperator

end CliffordT
