/-
The ring `ℤ[ω]` with `ω = e^{iπ/4}`, exactly.

An element is `aω³ + bω² + cω + d`, and also `α + βi + wω` with `α` and `β` in `ℤ[√2]` and `w` zero
or one; `alpha`, `beta`, `hasOmega` and `ofAlphaBeta` go from one description to the other. The ring
is Euclidean for the norm `N(|u|²)`. Quotient and remainder are as for `ℤ[√2]`: each coefficient of
the exact quotient is rounded, `u / 0 = 0` and `u % 0 = u`.
-/
import CliffordT.Ring.Sqrt2

namespace CliffordT

/-- The element `aω³ + bω² + cω + d` of `ℤ[ω]`. -/
@[ext]
structure ZOmega where
  a : Int
  b : Int
  c : Int
  d : Int
  deriving Repr, DecidableEq, Hashable, Inhabited

namespace ZOmega

instance : ToString ZOmega :=
  ⟨fun u => toString u.a ++ "ω³ + " ++ toString u.b ++ "ω² + " ++ toString u.c ++ "ω + "
    ++ toString u.d⟩

/-! ## Ring operations -/

def ofInt (n : Int) : ZOmega := ⟨0, 0, 0, n⟩

instance (n : Nat) : OfNat ZOmega n := ⟨ofInt n⟩

instance : Add ZOmega := ⟨fun u v => ⟨u.a + v.a, u.b + v.b, u.c + v.c, u.d + v.d⟩⟩

instance : Sub ZOmega := ⟨fun u v => ⟨u.a - v.a, u.b - v.b, u.c - v.c, u.d - v.d⟩⟩

instance : Neg ZOmega := ⟨fun u => ⟨-u.a, -u.b, -u.c, -u.d⟩⟩

instance : Mul ZOmega :=
  ⟨fun u v =>
    ⟨u.a * v.d + u.b * v.c + u.c * v.b + u.d * v.a,
      u.b * v.d + u.c * v.c + u.d * v.b - u.a * v.a,
      u.c * v.d + u.d * v.c - u.a * v.b - u.b * v.a,
      u.d * v.d - u.a * v.c - u.b * v.b - u.c * v.a⟩⟩

@[simp] theorem add_a (u v : ZOmega) : (u + v).a = u.a + v.a := rfl

@[simp] theorem add_b (u v : ZOmega) : (u + v).b = u.b + v.b := rfl

@[simp] theorem add_c (u v : ZOmega) : (u + v).c = u.c + v.c := rfl

@[simp] theorem add_d (u v : ZOmega) : (u + v).d = u.d + v.d := rfl

@[simp] theorem sub_a (u v : ZOmega) : (u - v).a = u.a - v.a := rfl

@[simp] theorem sub_b (u v : ZOmega) : (u - v).b = u.b - v.b := rfl

@[simp] theorem sub_c (u v : ZOmega) : (u - v).c = u.c - v.c := rfl

@[simp] theorem sub_d (u v : ZOmega) : (u - v).d = u.d - v.d := rfl

@[simp] theorem neg_a (u : ZOmega) : (-u).a = -u.a := rfl

@[simp] theorem neg_b (u : ZOmega) : (-u).b = -u.b := rfl

@[simp] theorem neg_c (u : ZOmega) : (-u).c = -u.c := rfl

@[simp] theorem neg_d (u : ZOmega) : (-u).d = -u.d := rfl

@[simp] theorem mul_a (u v : ZOmega) :
    (u * v).a = u.a * v.d + u.b * v.c + u.c * v.b + u.d * v.a := rfl

@[simp] theorem mul_b (u v : ZOmega) :
    (u * v).b = u.b * v.d + u.c * v.c + u.d * v.b - u.a * v.a := rfl

@[simp] theorem mul_c (u v : ZOmega) :
    (u * v).c = u.c * v.d + u.d * v.c - u.a * v.b - u.b * v.a := rfl

@[simp] theorem mul_d (u v : ZOmega) :
    (u * v).d = u.d * v.d - u.a * v.c - u.b * v.b - u.c * v.a := rfl

@[simp] theorem zero_a : (0 : ZOmega).a = 0 := rfl

@[simp] theorem zero_b : (0 : ZOmega).b = 0 := rfl

@[simp] theorem zero_c : (0 : ZOmega).c = 0 := rfl

@[simp] theorem zero_d : (0 : ZOmega).d = 0 := rfl

@[simp] theorem one_a : (1 : ZOmega).a = 0 := rfl

@[simp] theorem one_b : (1 : ZOmega).b = 0 := rfl

@[simp] theorem one_c : (1 : ZOmega).c = 0 := rfl

@[simp] theorem one_d : (1 : ZOmega).d = 1 := rfl

def pow (u : ZOmega) (n : Nat) : ZOmega :=
  if n = 0 then 1
  else
    let h := pow u (n / 2)
    if n % 2 = 1 then h * h * u else h * h
termination_by n
decreasing_by omega

instance : HPow ZOmega Nat ZOmega := ⟨pow⟩

def i : ZOmega := ⟨0, 1, 0, 0⟩

def iSqrt2 : ZOmega := ⟨1, 0, 1, 0⟩

/-- The power `ω ^ n` for any integer: four of them, and then their negatives. -/
def omegaPow (n : Int) : ZOmega :=
  let unit : ZOmega :=
    match (n % 4).toNat with
    | 0 => ⟨0, 0, 0, 1⟩
    | 1 => ⟨0, 0, 1, 0⟩
    | 2 => ⟨0, 1, 0, 0⟩
    | _ => ⟨1, 0, 0, 0⟩
  if 4 ≤ n % 8 then -unit else unit

/-! ## The two descriptions -/

/-- The element `α + βi + wω`. -/
def ofAlphaBeta (alpha beta : ZSqrt2) (w : Bool) : ZOmega :=
  ⟨beta.b - alpha.b, beta.a, beta.b + alpha.b + w.toInt, alpha.a⟩

def hasOmega (u : ZOmega) : Bool := (u.c + u.a) % 2 == 1

def alpha (u : ZOmega) : ZSqrt2 := ⟨u.d, (u.c - u.a - u.hasOmega.toInt) / 2⟩

def beta (u : ZOmega) : ZSqrt2 := ⟨u.b, (u.c + u.a - u.hasOmega.toInt) / 2⟩

def ofZSqrt2 (x : ZSqrt2) : ZOmega := ⟨-x.b, 0, x.b, x.a⟩

def isReal (u : ZOmega) : Bool := u.b == 0 && u.a + u.c == 0

/-- A real element as one of `ℤ[√2]`; it is a fault to ask for one that is not real. -/
def toZSqrt2 (u : ZOmega) : Except Fault ZSqrt2 :=
  if u.isReal then .ok ⟨u.d, u.c⟩
  else .error (.internal (toString u ++ " is not real"))

/-! ## Conjugates and norm -/

def conj (u : ZOmega) : ZOmega := ⟨-u.c, -u.b, -u.a, u.d⟩

/-- The automorphism that takes `√2` to `-√2` and `ω` to `-ω`. -/
def dot (u : ZOmega) : ZOmega := ⟨-u.a, u.b, -u.c, u.d⟩

/-- The square of the absolute value, an element of `ℤ[√2]`. -/
def norm (u : ZOmega) : ZSqrt2 :=
  ⟨u.a * u.a + u.b * u.b + u.c * u.c + u.d * u.d,
    u.c * u.b + u.d * u.c + u.b * u.a - u.a * u.d⟩

/-! ## Division -/

def isReducible (u : ZOmega) : Bool := (u.a + u.c) % 2 == 0 && (u.b + u.d) % 2 == 0

/-- The quotient by `√2` of an element that it divides. -/
def reduce (u : ZOmega) : ZOmega :=
  ⟨(u.b - u.d).tdiv 2, (u.a + u.c).tdiv 2, (u.b + u.d).tdiv 2, (u.c - u.a).tdiv 2⟩

/-- The quotient is `u v̄ (v v̄)•` over the integer `N(|v|²)`, rounded. -/
instance : Div ZOmega :=
  ⟨fun u v =>
    let p := u * v.conj * (v * v.conj).dot
    let n := v.norm.norm
    ⟨roundDiv p.a n, roundDiv p.b n, roundDiv p.c n, roundDiv p.d n⟩⟩

instance : Mod ZOmega := ⟨fun u v => u - u / v * v⟩

/-- The rounded quotient, or `none` for a zero divisor. -/
def div? (u v : ZOmega) : Option ZOmega := if v = 0 then none else some (u / v)

/-- The remainder of the rounded quotient, or `none` for a zero divisor. -/
def mod? (u v : ZOmega) : Option ZOmega := if v = 0 then none else some (u % v)

end ZOmega

end CliffordT
