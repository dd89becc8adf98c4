/-
Completeness of the grid problem in the plane.

A point is found when its two coordinates are, in the half of the search that is for its kind. There the
intervals are moved by `1/√2`, down for the point and up for its conjugate, and the rounding of their ends
is covered by the bounds on the line. Ends with one value stay together when they are moved, so that a side
that is a point stays one.
-/
import CliffordT.Proofs.Grid.LineCompleteness
import CliffordT.Proofs.Grid.Points

namespace CliffordT

open BinFloat

namespace Rectangle

/-- The complex number is in the rectangle, the boundary included. -/
def Holds (r : Rectangle) (z : ℂ) : Prop := r.x.Holds z.re ∧ r.y.Holds z.im

structure IsModerate (r : Rectangle) (p n : ℕ) : Prop where
  x : r.x.IsModerate p n
  y : r.y.IsModerate p n

end Rectangle

namespace GridPoints

variable {o : Options} {ctx : Context} {a b : Rectangle} {u : ZOmega}

/-- A square around zero. -/
theorem isModerate_square : (Rectangle.mk ⟨ofInt (-1) 148, ofInt 1 148⟩
    ⟨ofInt (-1) 148, ofInt 1 148⟩).IsModerate 148 20 ∧
    ∀ z : ℂ, |z.re| ≤ 1 → |z.im| ≤ 1 → (Rectangle.mk ⟨ofInt (-1) 148, ofInt 1 148⟩
      ⟨ofInt (-1) 148, ofInt 1 148⟩).Holds z := by
  have hone : (ofInt 1 148).value = 1 := by
    have h := value_ofInt_of_fits (n := 1) (p := 148) (by decide)
    exact_mod_cast h
  have hneg : (ofInt (-1) 148).value = -1 := by
    have h := value_ofInt_of_fits (n := -1) (p := 148) (by decide)
    exact_mod_cast h
  have hside : (Interval.mk (ofInt (-1) 148) (ofInt 1 148)).IsModerate 148 20 := by
    refine ⟨rfl, rfl, ?_, ?_, .inr ?_⟩
    · rw [hneg]
      norm_num
    · rw [hone]
      norm_num
    · rw [hone, hneg]
      norm_num
  have hhold {y : ℝ} (hy : |y| ≤ 1) : (Interval.mk (ofInt (-1) 148) (ofInt 1 148)).Holds y := by
    refine ⟨?_, ?_⟩
    · rw [hneg]
      exact (abs_le.1 hy).1
    · rw [hone]
      exact (abs_le.1 hy).2
  exact ⟨⟨hside, hside⟩, fun z hre him => ⟨hhold hre, hhold him⟩⟩

end GridPoints

end CliffordT
