/-
The numerals of a ring, and of the indices of a plane.

Every numeral from two on takes an instance of `Nat.AtLeastTwo`, and every index of a plane one of `NeZero`.
They have names here, so that the definitions of different modules share one instance and not a proof of
their own each.
-/
import Mathlib.Algebra.GroupWithZero.Nat
import Mathlib.Data.Nat.Cast.Defs

namespace CliffordT

instance atLeastTwo_two : Nat.AtLeastTwo 2 := inferInstance

instance atLeastTwo_three : Nat.AtLeastTwo 3 := inferInstance

instance atLeastTwo_four : Nat.AtLeastTwo 4 := inferInstance

instance atLeastTwo_ten : Nat.AtLeastTwo 10 := inferInstance

instance neZero_two : NeZero 2 := Nat.instNeZeroSucc

end CliffordT
