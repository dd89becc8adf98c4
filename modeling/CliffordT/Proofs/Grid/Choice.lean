/-
The decision table of a reduction.

`Choice` lists the operators that may be chosen, with what the tests say about the two exponents. For
exponents whose difference is at most one and whose sum is not negative, both up to a part of the tolerance,
the table has no gap: the tolerance of the tests is what covers the corners. Each operator of the table then
reduces the skew.
-/
import CliffordT.Proofs.Grid.Shear
import CliffordT.Proofs.Plane.Exponent

namespace CliffordT

open BinFloat

namespace Constants

variable {c : Constants}

/-- A context has many more digits than an estimate needs. -/
theorem AccurateUnits.le_prec (hc : c.AccurateUnits) : 96 ≤ c.prec := by
  by_contra hlt
  have hanti := roundoff_anti (by omega : c.prec ≤ 96)
  rw [roundoff_eq 96] at hanti
  have hle := hc.le_tol.trans hc.tol_le
  have hmul := mul_le_mul_of_nonneg_left hanti (by positivity : (0 : ℝ) ≤ 2 ^ 96)
  norm_num at hle hmul
  linarith

/-- A quotient of two small integers, up to a part of the tolerance. -/
theorem AccurateUnits.abs_ratio_sub_le (hc : c.AccurateUnits) {m n : ℤ} (hn : n ≠ 0)
    (hmn : |(m / n : ℝ)| ≤ 1) : |(c.ratio m n).value - m / n| ≤ c.tol.value / 1000 := by
  have hu := roundoff_pos c.prec
  have htol := hc.le_tol
  have hu1 : roundoff c.prec ≤ 1 / 2 ^ 96 := (roundoff_anti hc.le_prec).trans (roundoff_eq 96).le
  have hm := value_ofInt_within m c.prec
  have hd := value_ofInt_within n c.prec
  have hne : (ofInt n c.prec).value ≠ 0 := by
    refine abs_pos.1 (lt_of_lt_of_le ?_ hd.le_abs)
    have : 0 < |(n : ℝ)| := abs_pos.2 (Int.cast_ne_zero.2 hn)
    nlinarith
  have hround := value_div_within (x := ofInt m c.prec) (y := ofInt n c.prec) (p := c.prec)
    (by simp) hne
  have hquot := (hround.trans (by linarith) (by linarith)
    (hm.div hu.le (by linarith) (by linarith) hd)).sub_le
  have hmul := mul_le_mul_of_nonneg_left hmn
    (by linarith : 0 ≤ roundoff c.prec + 4 * roundoff c.prec + 2 * (2 * roundoff c.prec))
  refine hquot.trans (hmul.trans ?_)
  linarith

end Constants

namespace EllipsePair

variable {c : Constants} {z ζ tol : BinFloat}

/-! ## The table -/

/-- The operators that are chosen, for exponents `z` and `ζ` and a shear by `n`. -/
inductive Choice (n : ℤ) (z ζ : ℝ) : Bool → GridOperator → Prop
  | rotation {negative : Bool} (hz : -(8 / 10) - 1 / 10000 ≤ z) (hz' : z ≤ 8 / 10 + 1 / 10000)
    (hζ : -(8 / 10) - 1 / 10000 ≤ ζ) (hζ' : ζ ≤ 8 / 10 + 1 / 10000) :
    Choice n z ζ negative .rotation
  | shearSqrt2 (hz : -2 / 10 - 1 / 10000 ≤ z) (hζ : -2 / 10 - 1 / 10000 ≤ ζ)
    (hor : 8 / 10 ≤ z ∨ 8 / 10 ≤ ζ) : Choice n z ζ true (.shearSqrt2 n)
  | k (hz : z ≤ 3 / 10 + 1 / 10000) (hζ : 8 / 10 - 1 / 10000 ≤ ζ) : Choice n z ζ false .k
  | shear (hz : 3 / 10 - 1 / 10000 ≤ z) (hζ : 3 / 10 - 1 / 10000 ≤ ζ) :
    Choice n z ζ false (.shear n)
  | kDot (hz : 8 / 10 - 1 / 10000 ≤ z) (hζ : ζ ≤ 3 / 10 + 1 / 10000) :
    Choice n z ζ false GridOperator.k.dot

section Tests

variable {bound : BinFloat} {t : ℝ}

theorem sub_le_of_passes (hc : c.AccurateUnits) (hb : bound.prec = c.prec)
    (hbound : |bound.value - t| ≤ c.tol.value / 1000) (h : z.atLeast bound c.tol = true) :
    t - 1 / 10000 ≤ z.value := by
  have htol := hc.tol_le
  have hprec := hc.le_prec
  have hpos : 0 ≤ c.tol.value := (abs_nonneg _).trans hbound |> fun h => by linarith
  have hle := sub_le_of_atLeast (by rw [hb]; omega) hpos h
  linarith [(abs_le.1 hbound).1]

theorem le_add_of_passes (hc : c.AccurateUnits) (hb : bound.prec = c.prec)
    (hbound : |bound.value - t| ≤ c.tol.value / 1000) (h : z.atMost bound c.tol = true) :
    z.value ≤ t + 1 / 10000 := by
  have htol := hc.tol_le
  have hprec := hc.le_prec
  have hpos : 0 ≤ c.tol.value := (abs_nonneg _).trans hbound |> fun h => by linarith
  have hle := le_add_of_atMost (by rw [hb]; omega) hpos h
  linarith [(abs_le.1 hbound).2]

theorem le_sub_of_fails (hc : c.AccurateUnits) (hb : bound.prec = c.prec)
    (hbound : |bound.value - t| ≤ c.tol.value / 1000) (h : z.atLeast bound c.tol = false) :
    z.value ≤ t - c.tol.value / 3 := by
  have hprec := hc.le_prec
  have hpos : 0 ≤ c.tol.value := (abs_nonneg _).trans hbound |> fun h => by linarith
  have hle := le_sub_of_not_atLeast (by rw [hb]; omega) h
  linarith [(abs_le.1 hbound).2]

theorem add_le_of_fails (hc : c.AccurateUnits) (hb : bound.prec = c.prec)
    (hbound : |bound.value - t| ≤ c.tol.value / 1000) (h : z.atMost bound c.tol = false) :
    t + c.tol.value / 3 ≤ z.value := by
  have hprec := hc.le_prec
  have hpos : 0 ≤ c.tol.value := (abs_nonneg _).trans hbound |> fun h => by linarith
  have hle := add_le_of_not_atMost (by rw [hb]; omega) h
  linarith [(abs_le.1 hbound).1]

end Tests

/-- The three bounds of the table. -/
theorem bounds_near (hc : c.AccurateUnits) :
    |(c.ratio 8 10).value - 8 / 10| ≤ c.tol.value / 1000 ∧
      |(-c.ratio 8 10).value - -(8 / 10)| ≤ c.tol.value / 1000 ∧
      |(c.ratio 3 10).value - 3 / 10| ≤ c.tol.value / 1000 ∧
      |(c.ratio (-2) 10).value - -2 / 10| ≤ c.tol.value / 1000 := by
  have h8 := hc.abs_ratio_sub_le (m := 8) (n := 10) (by norm_num) (by norm_num)
  have h3 := hc.abs_ratio_sub_le (m := 3) (n := 10) (by norm_num) (by norm_num)
  have h2 := hc.abs_ratio_sub_le (m := -2) (n := 10) (by norm_num) (by norm_num [abs_div])
  push_cast at h8 h3 h2
  refine ⟨h8, ?_, h3, h2⟩
  rwa [value_neg, neg_sub_neg, abs_sub_comm]

theorem prec_ratio (m n : ℤ) : (c.ratio m n).prec = c.prec := by
  show (ofInt m c.prec / ofInt n c.prec).prec = c.prec
  simp

section Cover

variable {z ζ t : ℝ}

/-- Outside the box, one of the exponents is above it, since their sum is not negative. -/
theorem above_of_outside (ht : 0 < t) (hsum : -(3 / 16) * t ≤ z + ζ)
    (hout : z ≤ -(8 / 10) - t / 3 ∨ 8 / 10 + t / 3 ≤ z ∨ ζ ≤ -(8 / 10) - t / 3 ∨ 8 / 10 + t / 3 ≤ ζ) :
    8 / 10 + t / 8 ≤ z ∨ 8 / 10 + t / 8 ≤ ζ := by
  obtain h | h | h | h := hout
  · exact .inr (by linarith)
  · exact .inl (by linarith)
  · exact .inl (by linarith)
  · exact .inr (by linarith)

/-- What is left when neither `K` nor the shear nor the conjugate of `K` applies is inside the box. -/
theorem not_above (ht : 0 < t) (hk : 3 / 10 + t / 3 ≤ z ∨ ζ ≤ 8 / 10 - t / 3)
    (hshear : z ≤ 3 / 10 - t / 3 ∨ ζ ≤ 3 / 10 - t / 3)
    (hkDot : z ≤ 8 / 10 - t / 3 ∨ 3 / 10 + t / 3 ≤ ζ) :
    ¬(8 / 10 + t / 8 ≤ z ∨ 8 / 10 + t / 8 ≤ ζ) := by
  rintro (h | h)
  · -- the first exponent is large, so that the second one is neither small nor large
    rcases hkDot with hd | hd
    · linarith
    · rcases hshear with hs | hs
      · linarith
      · linarith
  · rcases hk with hk | hk
    · rcases hshear with hs | hs
      · linarith
      · linarith
    · linarith

/-- An exponent that is too small leaves no room for the other one to be above the box. -/
theorem not_above_of_low (ht : 0 < t) (hdiff : ζ ≤ z + (1 + 5 / 16 * t)) (hz : z ≤ -2 / 10 - t / 3) :
    ¬(8 / 10 + t / 8 ≤ z ∨ 8 / 10 + t / 8 ≤ ζ) := by
  rintro (h | h)
  · linarith
  · linarith

end Cover

/-- Exponents in the box ask for the rotation. -/
theorem rotation_of_isInBox (hc : c.AccurateUnits) (negative : Bool) (n : ℤ)
    (h : isInBox z ζ (c.ratio 8 10) c.tol = true) : Choice n z.value ζ.value negative .rotation := by
  obtain ⟨hwide, hnegWide, -, -⟩ := bounds_near hc
  have hpwide := prec_ratio (c := c) 8 10
  have hpneg : (-c.ratio 8 10).prec = c.prec := (prec_neg _).trans hpwide
  unfold isInBox at h
  rw [Bool.and_eq_true, Bool.and_eq_true, Bool.and_eq_true] at h
  obtain ⟨⟨⟨h1, h2⟩, h3⟩, h4⟩ := h
  exact .rotation (sub_le_of_passes hc hpneg hnegWide h1) (le_add_of_passes hc hpwide hwide h2)
    (sub_le_of_passes hc hpneg hnegWide h3) (le_add_of_passes hc hpwide hwide h4)

/-- Exponents that are not in the box are outside of it. -/
theorem outside_of_not_isInBox (hc : c.AccurateUnits) (h : ¬ isInBox z ζ (c.ratio 8 10) c.tol = true) :
    z.value ≤ -(8 / 10) - c.tol.value / 3 ∨ 8 / 10 + c.tol.value / 3 ≤ z.value ∨
      ζ.value ≤ -(8 / 10) - c.tol.value / 3 ∨ 8 / 10 + c.tol.value / 3 ≤ ζ.value := by
  obtain ⟨hwide, hnegWide, -, -⟩ := bounds_near hc
  have hpwide := prec_ratio (c := c) 8 10
  have hpneg : (-c.ratio 8 10).prec = c.prec := (prec_neg _).trans hpwide
  unfold isInBox at h
  rw [Bool.not_eq_true, Bool.and_eq_false_iff, Bool.and_eq_false_iff, Bool.and_eq_false_iff] at h
  obtain ((h | h) | h) | h := h
  · exact .inl (le_sub_of_fails hc hpneg hnegWide h)
  · exact .inr (.inl (add_le_of_fails hc hpwide hwide h))
  · exact .inr (.inr (.inl (le_sub_of_fails hc hpneg hnegWide h)))
  · exact .inr (.inr (.inr (add_le_of_fails hc hpwide hwide h)))

/-- Then neither of them is too small for the shear by a multiple of the root of two. -/
theorem atLeast_of_above (hc : c.AccurateUnits) (hdiff : ζ.value ≤ z.value + (1 + 5 / 16 * c.tol.value))
    (hout : 8 / 10 + c.tol.value / 8 ≤ z.value ∨ 8 / 10 + c.tol.value / 8 ≤ ζ.value) :
    z.atLeast (c.ratio (-2) 10) c.tol = true := by
  obtain ⟨-, -, -, hbelow⟩ := bounds_near hc
  by_contra hne
  have hle := le_sub_of_fails hc (prec_ratio (-2) 10) hbelow (Bool.not_eq_true _ ▸ hne)
  exact not_above_of_low hc.tol_pos hdiff hle hout

/-- The shear by a multiple of the root of two is for exponents outside the box that are not too small. -/
theorem shearSqrt2_of_not_isInBox (hc : c.AccurateUnits) (n : ℤ)
    (hbox : ¬ isInBox z ζ (c.ratio 8 10) c.tol = true) (hz : z.atLeast (c.ratio (-2) 10) c.tol = true)
    (hζ : ζ.atLeast (c.ratio (-2) 10) c.tol = true) : Choice n z.value ζ.value true (.shearSqrt2 n) := by
  obtain ⟨-, -, -, hbelow⟩ := bounds_near hc
  have htol := hc.tol_pos
  have hz' := sub_le_of_passes hc (prec_ratio (-2) 10) hbelow hz
  have hζ' := sub_le_of_passes hc (prec_ratio (-2) 10) hbelow hζ
  refine .shearSqrt2 hz' hζ' ?_
  obtain h | h | h | h := outside_of_not_isInBox hc hbox
  · linarith
  · exact .inl (by linarith)
  · linarith
  · exact .inr (by linarith)

/-- **What is chosen** is what the table lists for the exponents. -/
theorem choice_of_choose? (hc : c.AccurateUnits) {negative : Bool} {op : GridOperator}
    (h : choose? negative z ζ c = some op) : Choice (shearAmount z ζ c) z.value ζ.value negative op := by
  obtain ⟨hwide, -, hnarrow, -⟩ := bounds_near hc
  have hpwide := prec_ratio (c := c) 8 10
  have hpnarrow := prec_ratio (c := c) 3 10
  unfold choose? at h
  dsimp only at h
  by_cases hbox : isInBox z ζ (c.ratio 8 10) c.tol = true
  · rw [if_pos hbox] at h
    cases h
    exact rotation_of_isInBox hc negative _ hbox
  rw [if_neg hbox] at h
  cases negative with
  | true =>
    rw [if_pos rfl] at h
    split at h
    · rename_i hboth
      rw [Bool.and_eq_true] at hboth
      cases h
      exact shearSqrt2_of_not_isInBox hc _ hbox hboth.1 hboth.2
    · cases h
  | false =>
    rw [if_neg (by decide)] at h
    split at h
    · rename_i hk
      rw [Bool.and_eq_true] at hk
      cases h
      exact .k (le_add_of_passes hc hpnarrow hnarrow hk.1) (sub_le_of_passes hc hpwide hwide hk.2)
    split at h
    · rename_i hshear
      rw [Bool.and_eq_true] at hshear
      cases h
      exact .shear (sub_le_of_passes hc hpnarrow hnarrow hshear.1)
        (sub_le_of_passes hc hpnarrow hnarrow hshear.2)
    split at h
    · rename_i hkDot
      rw [Bool.and_eq_true] at hkDot
      cases h
      exact .kDot (sub_le_of_passes hc hpwide hwide hkDot.1) (le_add_of_passes hc hpnarrow hnarrow hkDot.2)
    · cases h

/-- **The table has no gap.** -/
theorem exists_choose? (hc : c.AccurateUnits) (negative : Bool)
    (hdiff : |ζ.value - z.value| ≤ 1 + 5 / 16 * c.tol.value)
    (hsum : -(3 / 16) * c.tol.value ≤ z.value + ζ.value) : ∃ op, choose? negative z ζ c = some op := by
  obtain ⟨hwide, -, hnarrow, -⟩ := bounds_near hc
  have hpwide := prec_ratio (c := c) 8 10
  have hpnarrow := prec_ratio (c := c) 3 10
  have hdiff1 : z.value ≤ ζ.value + (1 + 5 / 16 * c.tol.value) := by linarith [(abs_le.1 hdiff).1]
  have hdiff2 : ζ.value ≤ z.value + (1 + 5 / 16 * c.tol.value) := by linarith [(abs_le.1 hdiff).2]
  unfold choose?
  dsimp only
  by_cases hbox : isInBox z ζ (c.ratio 8 10) c.tol = true
  · rw [if_pos hbox]
    exact ⟨_, rfl⟩
  rw [if_neg hbox]
  have hout := above_of_outside hc.tol_pos hsum (outside_of_not_isInBox hc hbox)
  cases negative with
  | true =>
    rw [if_pos rfl, atLeast_of_above hc hdiff2 hout, atLeast_of_above hc hdiff1 hout.symm]
    exact ⟨_, rfl⟩
  | false =>
    rw [if_neg (by decide)]
    split
    · exact ⟨_, rfl⟩
    rename_i hk
    split
    · exact ⟨_, rfl⟩
    rename_i hshear
    split
    · exact ⟨_, rfl⟩
    rename_i hkDot
    rw [Bool.not_eq_true, Bool.and_eq_false_iff] at hk hshear hkDot
    refine absurd hout (not_above hc.tol_pos ?_ ?_ ?_)
    · exact hk.imp (add_le_of_fails hc hpnarrow hnarrow) (le_sub_of_fails hc hpwide hwide)
    · exact hshear.imp (le_sub_of_fails hc hpnarrow hnarrow) (le_sub_of_fails hc hpnarrow hnarrow)
    · exact hkDot.imp (le_sub_of_fails hc hpwide hwide) (add_le_of_fails hc hpnarrow hnarrow)

/-! ## The amounts of the shears -/

/-- The amount of a shear is the one for the integer part of the smaller exponent. -/
theorem isAmount_shearAmount (hc : c.AccurateUnits)
    (hm : 28000 * ((⌊|min z.value ζ.value|⌋₊ : ℝ) + 1) * roundoff c.prec ≤ 1) :
    GridOperator.IsAmount ⌊|min z.value ζ.value|⌋₊ (shearAmount z ζ c) := by
  have hu := roundoff_pos c.prec
  unfold shearAmount
  dsimp only
  rw [natAbs_trunc, value_minimum, floor_eq, value_scaleTwo, zpow_neg_one]
  generalize ⌊|min z.value ζ.value|⌋₊ = m at hm ⊢
  have hpos : 0 < lambdaReal ^ m := pow_pos lambdaReal_pos m
  have hpow := (lambda_pow_within hc (n := m) (by linarith)).sub_le
  rw [abs_of_pos hpos] at hpow
  refine GridOperator.isAmount_of_within ?_
  have hsplit : (c.lambda.pow m).value * 2⁻¹ - lambdaReal ^ m / 2
      = ((c.lambda.pow m).value - lambdaReal ^ m) / 2 := by ring
  rw [hsplit, abs_div, abs_two]
  have hmul := mul_le_mul_of_nonneg_right (by linarith : 14 * m * roundoff c.prec ≤ 1 / 1000)
    hpos.le
  linarith

/-! ## What is chosen reduces -/

section Reduce

variable {F G : Form} {x : ℝ}

/-- A bound of the exponent is a bound of the ratio. -/
theorem ratio_le {t : ℝ} (hF : F.IsPos) (hx : |x - F.z| ≤ 1 / 4000) (h : x ≤ t + 1 / 2000) :
    F.ratio ≤ 1.0009 * lambdaReal ^ t := by
  rw [hF.ratio_eq_rpow]
  exact rpow_le_of_le (by linarith [(abs_le.1 hx).1])

theorem le_ratio {t : ℝ} (hF : F.IsPos) (hx : |x - F.z| ≤ 1 / 4000) (h : t - 1 / 2000 ≤ x) :
    lambdaReal ^ t ≤ 1.0009 * F.ratio := by
  rw [hF.ratio_eq_rpow]
  exact rpow_le_of_le (by linarith [(abs_le.1 hx).2])

theorem one_le_mul_ratio {t b : ℝ} (hF : F.IsPos) (hb : lambdaReal ^ t ≤ b)
    (hx : |x - F.z| ≤ 1 / 4000) (h : -t - 1 / 2000 ≤ x) : 1 ≤ 1.0009 * b * F.ratio := by
  have hle := le_ratio hF hx h
  have hpos := lambdaReal_rpow_pos t
  rw [Real.rpow_neg lambdaReal_pos.le] at hle
  have hmul := mul_le_mul_of_nonneg_left hle hpos.le
  rw [mul_inv_cancel₀ hpos.ne'] at hmul
  have := mul_le_mul_of_nonneg_right hb hF.ratio_pos.le
  linarith

/-- A power of `λ` two integers on. -/
theorem rpow_add_two (m : ℕ) : lambdaReal ^ ((m : ℝ) + 2) = (2 * lambdaReal + 1) * lambdaReal ^ m := by
  rw [Real.rpow_add lambdaReal_pos, Real.rpow_natCast, Real.rpow_two, lambdaReal_sq, mul_comm]

/-- The ratio is below the end of the sector of the smaller exponent. -/
theorem ratio_le_sector {m : ℕ} (hF : F.IsPos) (hx : |x - F.z| ≤ 1 / 4000)
    (h : x ≤ m + 2 + 1 / 2000) : F.ratio ≤ 5.842 * lambdaReal ^ m := by
  have hlam := lambdaReal_bounds
  have hpos : 0 < lambdaReal ^ m := pow_pos lambdaReal_pos m
  have hle := ratio_le hF hx h
  rw [rpow_add_two] at hle
  nlinarith

theorem le_ratio_sector {m : ℕ} (hF : F.IsPos) (hx : |x - F.z| ≤ 1 / 4000)
    (h : m - 1 / 2000 ≤ x) : 0.999 * lambdaReal ^ m ≤ F.ratio := by
  have hle := le_ratio hF hx h
  rw [Real.rpow_natCast] at hle
  have := hF.ratio_pos
  linarith

/-- The integer part of the smaller exponent, when that is not far below zero. -/
theorem floor_min_bounds {z ζ : ℝ} (hz : -0.2001 ≤ z) (hζ : -0.2001 ≤ ζ)
    (hdiff : |ζ - z| ≤ 1 + 1 / 4000) :
    z ≤ ⌊|min z ζ|⌋₊ + 2 + 1 / 2000 ∧ ζ ≤ ⌊|min z ζ|⌋₊ + 2 + 1 / 2000 ∧
      (0 < ⌊|min z ζ|⌋₊ → (⌊|min z ζ|⌋₊ : ℝ) ≤ z ∧ (⌊|min z ζ|⌋₊ : ℝ) ≤ ζ) := by
  obtain ⟨hdiff1, hdiff2⟩ := abs_le.1 hdiff
  have hlt := Nat.lt_floor_add_one |min z ζ|
  have hle := Nat.floor_le (abs_nonneg (min z ζ))
  have habs := le_abs_self (min z ζ)
  have hzmin := min_le_left z ζ
  have hζmin := min_le_right z ζ
  have hmax : max z ζ ≤ min z ζ + 1 + 1 / 4000 := by
    rcases le_total z ζ with h | h
    · rw [max_eq_right h, min_eq_left h]
      linarith
    · rw [max_eq_left h, min_eq_right h]
      linarith
  refine ⟨?_, ?_, fun hpos => ?_⟩
  · linarith [le_max_left z ζ]
  · linarith [le_max_right z ζ]
  · -- a positive integer part is that of a positive number
    have hone : (1 : ℝ) ≤ ⌊|min z ζ|⌋₊ := by exact_mod_cast hpos
    have hmin : 0 ≤ min z ζ := by
      by_contra hneg
      have hle' := hone.trans hle
      rw [abs_of_neg (not_le.1 hneg)] at hle'
      linarith [le_min hz hζ]
    rw [abs_of_nonneg hmin] at hle ⊢
    exact ⟨hle.trans hzmin, hle.trans hζmin⟩

section Exponents

variable {n : ℤ} {z ζ : ℝ} (hs : Skewed F G) (hz : |z - F.z| ≤ 1 / 4000) (hζ : |ζ - G.z| ≤ 1 / 4000)
include hs hz hζ

theorem rotation_reduces (hz1 : -(8 / 10) - 1 / 10000 ≤ z) (hz2 : z ≤ 8 / 10 + 1 / 10000)
    (hζ1 : -(8 / 10) - 1 / 10000 ≤ ζ) (hζ2 : ζ ≤ 8 / 10 + 1 / 10000) :
    Reduces .rotation F G := by
  have hwide := rpow_wide_bounds.2
  have hbound {F : Form} {x : ℝ} (hF : F.IsPos) (hx : |x - F.z| ≤ 1 / 4000)
      (h1 : -(8 / 10) - 1 / 10000 ≤ x) (h2 : x ≤ 8 / 10 + 1 / 10000) :
      F.ratio ≤ 2.027 ∧ 1 ≤ 2.027 * F.ratio := by
    have hlow := one_le_mul_ratio hF hwide hx (by linarith)
    have hhigh := ratio_le (t := 8 / 10) hF hx (by linarith)
    have := hF.ratio_pos
    constructor
    · linarith only [hhigh, hwide]
    · linarith only [hlow, this]
  obtain ⟨hX, hX'⟩ := hbound hs.pos hz hz1 hz2
  obtain ⟨hY, hY'⟩ := hbound hs.pos' hζ hζ1 hζ2
  exact GridOperator.rotation_reduces hs hX hX' hY hY'

theorem k_reduces (hdiff : ζ ≤ z + 1 + 1 / 4000) (hb : -slightness ≤ F.b) (hβ : -slightness ≤ G.b)
    (hz1 : z ≤ 3 / 10 + 1 / 10000) (hζ1 : 8 / 10 - 1 / 10000 ≤ ζ) : Reduces .k F G := by
  have hX1 := ratio_le (t := 3 / 10) hs.pos hz (by linarith only [hz1])
  have hX2 := one_le_mul_ratio hs.pos rpow_below_bounds.2 hz (by linarith only [hdiff, hζ1])
  have hY1 := ratio_le (t := 3 / 10 + 1) hs.pos' hζ (by linarith only [hdiff, hz1])
  have hY2 := le_ratio (t := 8 / 10) hs.pos' hζ (by linarith only [hζ1])
  refine GridOperator.k_reduces hs hb hβ ?_ ?_ ?_ ?_
  · linarith only [hX1, rpow_narrow_bounds.2]
  · linarith only [hX2]
  · linarith only [hY1, rpow_narrow_add_one_le]
  · linarith only [hY2, rpow_wide_bounds.1]

variable (hdiff : |ζ - z| ≤ 1 + 1 / 4000) (hβ : -slightness ≤ G.b)
  (hn : GridOperator.IsAmount ⌊|min z ζ|⌋₊ n)
include hdiff hβ hn

theorem shear_reduces (hb : -slightness ≤ F.b) (hz1 : 3 / 10 - 1 / 10000 ≤ z)
    (hζ1 : 3 / 10 - 1 / 10000 ≤ ζ) : Reduces (.shear n) F G := by
  obtain ⟨hzm, hζm, hlow⟩ := floor_min_bounds (by linarith only [hz1]) (by linarith only [hζ1]) hdiff
  have hsector {F : Form} {x : ℝ} (hF : F.IsPos) (hx : |x - F.z| ≤ 1 / 4000)
      (h1 : 3 / 10 - 1 / 10000 ≤ x) (h : x ≤ ⌊|min z ζ|⌋₊ + 2 + 1 / 2000)
      (hlow : 0 < ⌊|min z ζ|⌋₊ → (⌊|min z ζ|⌋₊ : ℝ) ≤ x) :
      1.301 ≤ F.ratio ∧ GridOperator.InSector ⌊|min z ζ|⌋₊ F.ratio := by
    have hone : 1.301 ≤ F.ratio := by
      linarith only [le_ratio (t := 3 / 10) hF hx (by linarith only [h1]), rpow_narrow_bounds.1]
    refine ⟨hone, ?_, ratio_le_sector hF hx h⟩
    rcases Nat.eq_zero_or_pos ⌊|min z ζ|⌋₊ with h0 | hpos
    · rw [h0, pow_zero]
      linarith only [hone]
    · exact le_ratio_sector hF hx (by linarith only [hlow hpos])
  obtain ⟨hX, hXm⟩ := hsector hs.pos hz hz1 hzm (fun h => (hlow h).1)
  obtain ⟨hY, hYm⟩ := hsector hs.pos' hζ hζ1 hζm (fun h => (hlow h).2)
  exact GridOperator.shear_reduces hs hb hβ hn.nonneg
    (GridOperator.moderate_shear hn hXm hYm hX hY)

theorem shearSqrt2_reduces (hb : F.b ≤ slightness) (hz1 : -2 / 10 - 1 / 10000 ≤ z)
    (hζ1 : -2 / 10 - 1 / 10000 ≤ ζ) (hor : 8 / 10 ≤ z ∨ 8 / 10 ≤ ζ) :
    Reduces (.shearSqrt2 n) F G := by
  obtain ⟨hzm, hζm, hlow⟩ := floor_min_bounds (by linarith only [hz1]) (by linarith only [hζ1]) hdiff
  have hnear {F : Form} {x : ℝ} (hF : F.IsPos) (hx : |x - F.z| ≤ 1 / 4000)
      (h1 : -2 / 10 - 1 / 10000 ≤ x) : 0.837 ≤ F.ratio := by
    linarith only [one_le_mul_ratio hF rpow_below_bounds.2 hx (by linarith only [h1])]
  have hfar {F : Form} {x : ℝ} (hF : F.IsPos) (hx : |x - F.z| ≤ 1 / 4000) (h1 : 8 / 10 ≤ x) :
      2.0216 ≤ F.ratio := by
    linarith only [le_ratio (t := 8 / 10) hF hx (by linarith only [h1]), rpow_wide_bounds.1]
  refine GridOperator.shearSqrt2_reduces hs (by linarith only [hb]) hβ hn.nonneg
    (GridOperator.moderate_shearSqrt2 hn (ratio_le_sector hs.pos hz hzm)
      (ratio_le_sector hs.pos' hζ hζm) (hnear hs.pos hz hz1) (hnear hs.pos' hζ hζ1) ?_
      (hor.imp (hfar hs.pos hz) (hfar hs.pos' hζ)))
  intro hm
  obtain ⟨hmz, hmζ⟩ := hlow hm
  exact ⟨le_ratio_sector hs.pos hz (by linarith only [hmz]),
    le_ratio_sector hs.pos' hζ (by linarith only [hmζ])⟩

/-- **What is chosen reduces the skew.** -/
theorem Choice.reduces {negative : Bool} {op : GridOperator} (h : Choice n z ζ negative op)
    (hb : negative = false → -slightness ≤ F.b) (hb' : negative = true → F.b ≤ slightness) :
    Reduces op F G := by
  obtain ⟨hdiff1, hdiff2⟩ := abs_le.1 hdiff
  cases h with
  | rotation hz1 hz2 hζ1 hζ2 => exact rotation_reduces hs hz hζ hz1 hz2 hζ1 hζ2
  | shearSqrt2 hz1 hζ1 hor => exact shearSqrt2_reduces hs hz hζ hdiff hβ hn (hb' rfl) hz1 hζ1 hor
  | k hz1 hζ1 => exact k_reduces hs hz hζ (by linarith only [hdiff2]) (hb rfl) hβ hz1 hζ1
  | shear hz1 hζ1 => exact shear_reduces hs hz hζ hdiff hβ hn (hb rfl) hz1 hζ1
  | kDot hz1 hζ1 =>
    exact Reduces.dot (k_reduces hs.symm hζ hz (by linarith only [hdiff1]) hβ (hb rfl) hζ1 hz1)

end Exponents

end Reduce

end EllipsePair

end CliffordT
