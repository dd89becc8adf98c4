/-
Single-qubit Clifford+T unitaries, exactly.

Every such unitary is

```
  1    [ u   -t̄ ωˡ ]
---- · [            ]
√2ᵏ    [ t    ū ωˡ ]
```

with `u` and `t` in `ℤ[ω]`, `|u|² + |t|² = 2ᵏ` and `l` a residue modulo 8. A `Unitary` is the tuple
`(u, t, k, l)`; every operation leaves it with the smallest `k`, by dividing `u` and `t` by `√2`
while both allow it. The tuple is then determined by the matrix, so that equal unitaries are equal
values and can be looked up in a table.
-/
import CliffordT.Ring.Denominator

namespace CliffordT

/-- The unitary with first column `(u, t) / √2ᵏ` and determinant `ωˡ`. -/
@[ext]
structure Unitary where
  u : ZOmega
  t : ZOmega
  k : Int
  l : Fin 8
  deriving Repr, DecidableEq, Hashable, Inhabited

namespace Unitary

instance : ToString Unitary :=
  ⟨fun m => "u = " ++ toString m.u ++ "\nt = " ++ toString m.t ++ "\nk = " ++ toString m.k
    ++ "\nl = " ++ toString m.l.val ++ "\n"⟩

/-! ## The normal form -/

def isReducible (m : Unitary) : Bool :=
  m.u.isReducible && m.t.isReducible && !(m.u == 0 && m.t == 0)

/-- Divides the first column by `√2` as long as both entries allow it. -/
def reduce (m : Unitary) : Unitary :=
  if _h : m.isReducible = true then reduce ⟨m.u.reduce, m.t.reduce, m.k - 1, m.l⟩ else m
termination_by m.u.size + m.t.size
decreasing_by
  simp only [isReducible, Bool.and_eq_true, Bool.not_eq_true', Bool.and_eq_false_iff,
    beq_eq_false_iff_ne] at _h
  obtain ⟨⟨hu, ht⟩, hne⟩ := _h
  have h1 := ZOmega.size_reduce hu
  have h2 := ZOmega.size_reduce ht
  have h3 : m.u.size + m.t.size ≠ 0 := by
    intro h0
    rcases hne with h | h
    · exact h ((ZOmega.size_eq_zero_iff _).1 (by omega))
    · exact h ((ZOmega.size_eq_zero_iff _).1 (by omega))
  omega

def ofParts (u t : ZOmega) (k : Int) (l : Fin 8) : Unitary := reduce ⟨u, t, k, l⟩

/-- Holds when the first column has length one, that is, `|u|² + |t|² = 2ᵏ`. No negative power of
two is an integer. -/
def isUnitary (m : Unitary) : Bool :=
  0 ≤ m.k && m.u.norm + m.t.norm == ZSqrt2.ofInt ((1 : Int) <<< m.k.toNat)

/-- The least exponent of a unitary, which is counted in 64 bits. -/
def leastExponent : Int := -((1 : Int) <<< (63 : Nat))

/-- The unitary with the given entries, in normal form. It is a fault when the phase exponent is
not below 8, or the first column does not have length one, or the denominator exponent falls out of
its range on the way to the normal form. -/
def mk? (u t : ZOmega) (k : Int) (l : Nat) : Except Fault Unitary :=
  if h : l < 8 then
    let m := ofParts u t k ⟨l, h⟩
    if m.k < leastExponent then .error .overflow
    else if m.isUnitary then .ok m
    else
      .error (.config ("|u|² + |t|² ≠ 2^k for u = " ++ toString m.u ++ ", t = " ++ toString m.t
        ++ ", k = " ++ toString m.k))
  else .error (.config ("phase exponent " ++ toString l ++ " is not in [0, 8)"))

/-! ## The group operations -/

def identity : Unitary := ofParts 1 0 0 0

def hadamard : Unitary := ofParts 1 1 1 4

def tGate : Unitary := ofParts 1 0 0 1

def sGate : Unitary := ofParts 1 0 0 2

def mul (m n : Unitary) : Unitary :=
  let tb := n.t * ZOmega.omegaPow m.l.val
  ofParts (m.u * n.u - m.t.conj * tb) (m.t * n.u + m.u.conj * tb) (m.k + n.k) (m.l + n.l)

instance : Mul Unitary := ⟨mul⟩

def dagger (m : Unitary) : Unitary :=
  ofParts m.u.conj (-(m.t * ZOmega.omegaPow (-(m.l.val : Int)))) m.k (-m.l)

def mulPhase (m : Unitary) (n : Nat) : Unitary :=
  m * ofParts (ZOmega.omegaPow (n % 8 : Nat)) 0 0 (Fin.ofNat 8 (2 * (n % 8)))

/-! ## The denominator exponent -/

/-- The smallest exponent of `√2` in the denominator of the square of the upper left entry; zero
when that entry is zero. -/
def sde (m : Unitary) : Int :=
  if m.u = 0 then 0 else 2 * m.k - (m.u * m.u.conj).sqrt2Valuation

end Unitary

end CliffordT
