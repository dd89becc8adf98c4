/-
What the closed forms approximate.

The angle is reduced modulo two, in units of `π`, but a rotation has the period four: each double turn
that is taken away changes its sign. `turns` counts them. A word that is found is therefore near the
rotation with the sign `(-1) ^ turns`, and near the rotation itself just when `turns` is even; for an
angle between zero and two it is zero.

The count and the multiple of two are exact, since the angle keeps to its precision. The reduced angle
is rounded once more, which matters for negative angles just below a multiple of two; and the distance
in the test is rounded, and multiplied by the computed `π`. What is left of the bound is half of it,
as rotations differ by half of what their angles do.
-/
import CliffordT.BinFloat.Decimal
import CliffordT.Unitary.ClosedForm
import CliffordT.Proofs.BinFloat.Compare
import CliffordT.Proofs.BinFloat.CorrectRounding
import CliffordT.Proofs.BinFloat.Pi
import CliffordT.Proofs.Unitary.Rotation

namespace CliffordT.ClosedForm

open BinFloat
open scoped Matrix.Norms.L2Operator Real

/-! ## The reduced angle -/

/-- The number of double turns that are taken away from an angle in units of `π`. A positive multiple of
two keeps one of them. -/
noncomputable def turns (a : ℝ) : ℤ := if 0 < a then ⌈a / 2⌉ - 1 else ⌊a / 2⌋

theorem sub_turns_mem (a : ℝ) : 0 ≤ a - 2 * turns a ∧ a - 2 * turns a ≤ 2 := by
  unfold turns
  split
  · have h1 := Int.le_ceil (a / 2)
    have h2 := Int.ceil_lt_add_one (a / 2)
    push_cast
    constructor <;> linarith
  · have h1 := Int.floor_le (a / 2)
    have h2 := Int.lt_floor_add_one (a / 2)
    constructor <;> linarith

/-- A positive multiple of two keeps one of its double turns. -/
theorem sub_turns_of_multiple {a : ℝ} (ha : 0 < a) (h : a - 2 * ⌊a / 2⌋ = 0) : a - 2 * turns a = 2 := by
  have hint : a / 2 = ⌊a / 2⌋ := by linarith
  have hceil : ⌈a / 2⌉ = ⌊a / 2⌋ := by
    conv_lhs => rw [hint]
    exact Int.ceil_intCast _
  rw [turns, if_pos ha, hceil]
  push_cast
  linarith

/-- All double turns of any other angle are taken away. -/
theorem turns_of_not_multiple {a : ℝ} (h : 0 < a → a - 2 * ⌊a / 2⌋ ≠ 0) : turns a = ⌊a / 2⌋ := by
  unfold turns
  split
  · next ha =>
    -- a positive angle that leaves something is between two multiples
    have hlt : (⌊a / 2⌋ : ℝ) < a / 2 :=
      lt_of_le_of_ne (Int.floor_le _) fun hint => h ha (by linarith)
    have hceil : ⌈a / 2⌉ = ⌊a / 2⌋ + 1 := by
      refine Int.ceil_eq_iff.2 ⟨?_, ?_⟩
      · push_cast
        linarith
      · push_cast
        exact (Int.lt_floor_add_one _).le
    omega
  · rfl

section Reduce

variable {angle : BinFloat}

/-- The multiple of two below the angle is exact. -/
theorem value_floor_mul_two (hfit : angle.FitsPrecision) (hp : 2 ≤ angle.prec) :
    (ofInt ⌊angle.value / 2⌋ angle.prec * ofInt 2 angle.prec).value = 2 * ⌊angle.value / 2⌋ := by
  have hp1 : 1 ≤ angle.prec := by omega
  have hfloor := (hfit.hasBits hp1 le_rfl).div_two.floor hp1
  have hround := isNearest_mul (x := ofInt ⌊angle.value / 2⌋ angle.prec) (y := ofInt 2 angle.prec)
    (le_max_of_le_left (by rwa [prec_ofInt]))
  rw [prec_ofInt, prec_ofInt, max_self, value_ofInt_two hp, value_ofInt_of_hasBits hp1 hfloor] at hround
  rw [mul_comm (2 : ℝ)]
  refine hround.eq_of_hasBits ?_
  have h := hfloor.mul_two_zpow 1
  rwa [zpow_one] at h

/-- The difference that is formed: the multiple of two is exact, and the difference rounded once. -/
theorem value_sub_floor_within (hfit : angle.FitsPrecision) (hp : 2 ≤ angle.prec) :
    Within (2 * roundoff angle.prec)
      (angle - ofInt (angle / ofInt 2 angle.prec).floor angle.prec * ofInt 2 angle.prec).value
      (angle.value - 2 * ⌊angle.value / 2⌋) := by
  have hfloor : (angle / ofInt 2 angle.prec).floor = ⌊angle.value / 2⌋ := by
    rw [floor_eq, hfit.value_div_two hp]
  have hsub := value_sub_within (x := angle)
    (y := ofInt ⌊angle.value / 2⌋ angle.prec * ofInt 2 angle.prec) (le_max_left _ _)
  rw [hfloor]
  rwa [value_floor_mul_two hfit hp] at hsub

/-- The reduced angle is the angle without its double turns, rounded. -/
theorem reduceAngle_within (hfit : angle.FitsPrecision) (hp : 2 ≤ angle.prec) :
    Within (2 * roundoff angle.prec) (reduceAngle angle).value (angle.value - 2 * turns angle.value) := by
  have hη := roundoff_pos angle.prec
  have hη' : roundoff angle.prec ≤ 1 / 2 ^ 2 := (roundoff_anti hp).trans (roundoff_eq 2).le
  have hsub := value_sub_floor_within hfit hp
  unfold reduceAngle
  dsimp only
  split
  · next hzero =>
    rw [Bool.and_eq_true] at hzero
    have hexact : angle.value - 2 * ⌊angle.value / 2⌋ = 0 := by
      by_contra hne
      exact hsub.ne_zero (by linarith) hne (isZero_iff.1 hzero.1)
    have hpos : 0 < angle.value := value_pos_iff.2 (by simpa [isPositive] using hzero.2)
    rw [sub_turns_of_multiple hpos hexact, value_ofInt_two hp]
    exact .refl (by linarith) 2
  · next hzero =>
    rw [turns_of_not_multiple]
    · exact hsub
    · intro hpos hexact
      refine hzero ?_
      rw [Bool.and_eq_true]
      refine ⟨isZero_iff.2 (hsub.eq_zero hexact), ?_⟩
      simpa [isPositive] using value_pos_iff.1 hpos

theorem prec_reduceAngle (angle : BinFloat) : (reduceAngle angle).prec = angle.prec := by
  unfold reduceAngle
  dsimp only
  split
  · exact prec_ofInt 2 angle.prec
  · simp

end Reduce

/-! ## The test -/

theorem three_le_value_pi {p : ℕ} (hp : 6 ≤ p) : 3 ≤ (BinFloat.pi p).value := by
  have hη' : roundoff p ≤ 1 / 2 ^ 6 := (roundoff_anti hp).trans (roundoff_eq 6).le
  have hlow := (abs_le.1 (abs_pi_sub_le p)).1
  have hp1 := mul_roundoff_le_one p
  have hpi := Real.pi_gt_d2
  have hexpand : (3.65 + (3 * p + 130) / 2 ^ 32) * roundoff p
      = 3.65 * roundoff p + (3 * (p * roundoff p) + 130 * roundoff p) / 2 ^ 32 := by ring
  rw [hexpand] at hlow
  norm_num at hη' hlow ⊢
  linarith

/-- The multiple of `π/4` that an angle is compared with. -/
theorem value_target_within {p n : ℕ} (hp : 6 ≤ p) (hn : n ≤ 8) :
    Within (2 * roundoff p) (ofInt n p / ofInt 4 p).value (n / 4) := by
  have hsmall (k : ℕ) (hk : k ≤ 8) : (ofInt k p).value = k := by
    refine value_ofInt_of_hasBits (by omega) ⟨k, 0, ?_, by simp⟩
    have hpow : (2 : ℤ) ^ 6 ≤ 2 ^ p := pow_le_pow_right₀ (by norm_num) hp
    rw [abs_of_nonneg (by positivity)]
    omega
  have h4 : (ofInt 4 p).value = 4 := by exact_mod_cast hsmall 4 (by norm_num)
  have hdiv := value_div_within (x := ofInt n p) (y := ofInt 4 p) (p := p)
    (le_max_of_le_left (by rw [prec_ofInt])) (by rw [h4]; norm_num)
  rwa [h4, hsmall n hn] at hdiv

/-- The computed distance is not much below the distance of the computed angles. -/
theorem mul_abs_sub_le_of_test {theta target eps : BinFloat} (hp : 6 ≤ theta.prec)
    (h : (theta - target).abs * BinFloat.pi theta.prec < eps) :
    5 / 2 * |theta.value - target.value| ≤ eps.value := by
  have hη' : roundoff theta.prec ≤ 1 / 2 ^ 6 := (roundoff_anti hp).trans (roundoff_eq 6).le
  have hpi := three_le_value_pi hp
  have hdiff := (value_sub_within (x := theta) (y := target) (p := theta.prec) (le_max_left _ _)).le_abs
  have hprod := (value_mul_within (x := (theta - target).abs) (y := BinFloat.pi theta.prec)
    (p := theta.prec) (le_max_of_le_right (by rw [prec_pi]))).sub_le
  have heps := lt_iff_value.1 h
  rw [value_abs] at hprod
  generalize ((theta - target).abs * BinFloat.pi theta.prec).value = E at hprod heps
  have hD := abs_nonneg (theta.value - target.value)
  generalize |theta.value - target.value| = D at hdiff hD ⊢
  generalize |(theta - target).value| = d at hprod hdiff
  norm_num at hη'
  have hd : 31 / 32 * D ≤ d := by nlinarith
  have hb : 0 ≤ d * (BinFloat.pi theta.prec).value := mul_nonneg (by linarith) (by linarith)
  have hE : 31 / 32 * (d * (BinFloat.pi theta.prec).value) ≤ E := by
    have hlow := (abs_le.1 hprod).1
    rw [abs_of_nonneg hb] at hlow
    nlinarith
  have h3d : 3 * d ≤ d * (BinFloat.pi theta.prec).value := by nlinarith
  linarith

/-- What the test accepts is near the closed form, with a third of the bound to spare but for the
rounding of the angle. -/
theorem half_pi_mul_abs_sub_le {theta eps : BinFloat} {θ : ℝ} {n : ℕ} (hp : 6 ≤ theta.prec) (hn : n ≤ 8)
    (hθ : Within (2 * roundoff theta.prec) theta.value θ) (hθ0 : 0 ≤ θ) (hθ2 : θ ≤ 2)
    (h : (theta - ofInt n theta.prec / ofInt 4 theta.prec).abs * BinFloat.pi theta.prec < eps) :
    π / 2 * |θ - n / 4| ≤ 2 / 3 * eps.value + 16 * roundoff theta.prec := by
  have hη := roundoff_pos theta.prec
  have htest := mul_abs_sub_le_of_test hp h
  have htarget := value_target_within hp hn
  generalize ofInt n theta.prec / ofInt 4 theta.prec = target at htest htarget
  have hD := abs_nonneg (theta.value - target.value)
  have hn8 : (n : ℝ) ≤ 8 := by exact_mod_cast hn
  have hangle : |theta.value - θ| ≤ 4 * roundoff theta.prec := by
    refine hθ.sub_le.trans ?_
    rw [abs_of_nonneg hθ0]
    nlinarith
  have htargets : |target.value - n / 4| ≤ 4 * roundoff theta.prec := by
    refine htarget.sub_le.trans ?_
    rw [abs_of_nonneg (by positivity)]
    nlinarith
  have hdist : |θ - n / 4| ≤ |theta.value - target.value| + 8 * roundoff theta.prec := by
    have h1 := abs_sub_le θ theta.value (n / 4)
    have h2 := abs_sub_le theta.value target.value (n / 4)
    rw [abs_sub_comm θ theta.value] at h1
    linarith
  have hpi : π / 2 ≤ 1.575 := by linarith [Real.pi_lt_d2]
  calc π / 2 * |θ - n / 4|
      ≤ π / 2 * (|theta.value - target.value| + 8 * roundoff theta.prec) :=
        mul_le_mul_of_nonneg_left hdist (by positivity)
    _ ≤ 1.575 * (|theta.value - target.value| + 8 * roundoff theta.prec) :=
        mul_le_mul_of_nonneg_right hpi (by linarith)
    _ ≤ 2 / 3 * eps.value + 16 * roundoff theta.prec := by linarith

/-! ## The words -/

/-- The words of the table are the rotations they stand for. -/
theorem isRotation_cases : ∀ c ∈ cases, c.1 ≤ 8 ∧ isRotation c.1 c.2.toList = true := by
  decide

theorem exists_case_of_find? {angle eps : BinFloat} {word : Word} (h : find? angle eps = some word) :
    ∃ n : ℕ, n ≤ 8 ∧ isRotation n word = true ∧
      (reduceAngle angle - ofInt n (reduceAngle angle).prec / ofInt 4 (reduceAngle angle).prec).abs
        * BinFloat.pi (reduceAngle angle).prec < eps := by
  unfold find? at h
  obtain ⟨c, hc, htest⟩ := List.exists_of_findSome?_eq_some h
  dsimp only at htest
  split at htest
  · next hlt =>
    cases htest
    rw [← prec_reduceAngle angle] at hlt
    exact ⟨c.1, (isRotation_cases c hc).1, (isRotation_cases c hc).2, hlt⟩
  · cases htest

/-- A rotation with the sign of its double turns is the rotation without them. -/
theorem sign_smul_rz (a : ℝ) : (-1 : ℂ) ^ turns a • rz (π * a) = rz (π * (a - 2 * turns a)) := by
  rw [← rz_sub_two_pi]
  congr 1
  ring

/-- A matrix near minus a rotation is far from the rotation. -/
theorem two_sub_le_norm_rz_sub (θ : ℝ) (M : Matrix (Fin 2) (Fin 2) ℂ) :
    2 - ‖-rz θ - M‖ ≤ ‖rz θ - M‖ := by
  have htwo : (2 : ℂ) • rz θ = (rz θ - M) - (-rz θ - M) := by
    rw [two_smul]
    abel
  have hnorm : ‖(2 : ℂ) • rz θ‖ = 2 := by
    rw [norm_smul, norm_rz, mul_one]
    norm_num
  have htri := norm_sub_le (rz θ - M) (-rz θ - M)
  rw [← htwo, hnorm] at htri
  linarith

/-- What passes the test is near the rotation without its double turns. At a few bits the bound is no
restriction on unitary matrices. -/
theorem norm_sign_smul_rz_sub_le {angle eps : BinFloat} {n : ℕ} (hfit : angle.FitsPrecision)
    (heps : 0 < eps.value) (hn : n ≤ 8)
    (h : (reduceAngle angle - ofInt n (reduceAngle angle).prec / ofInt 4 (reduceAngle angle).prec).abs
      * BinFloat.pi (reduceAngle angle).prec < eps) :
    ‖(-1 : ℂ) ^ turns angle.value • rz (π * angle.value) - rz (n * (π / 4))‖
      ≤ 2 / 3 * eps.value + 64 * roundoff angle.prec := by
  have hη := roundoff_pos angle.prec
  rw [sign_smul_rz]
  rcases le_or_gt 6 angle.prec with hp | hp
  · have hprec := prec_reduceAngle angle
    have hθ := reduceAngle_within hfit (by omega)
    obtain ⟨h0, h2⟩ := sub_turns_mem angle.value
    rw [← hprec] at hp hθ
    have hdist := half_pi_mul_abs_sub_le hp hn hθ h0 h2 h
    rw [hprec] at hdist
    refine (norm_rz_sub_rz_le _ _).trans ?_
    have hangle : |π * (angle.value - 2 * turns angle.value) - n * (π / 4)| / 2
        = π / 2 * |angle.value - 2 * turns angle.value - n / 4| := by
      have hfactor : π * (angle.value - 2 * turns angle.value) - n * (π / 4)
          = π * (angle.value - 2 * turns angle.value - n / 4) := by ring
      rw [hfactor, abs_mul, abs_of_pos Real.pi_pos]
      ring
    rw [hangle]
    linarith
  · have hcoarse : 1 / 32 ≤ roundoff angle.prec := by
      refine le_trans (le_of_eq ?_) (roundoff_anti (q := 5) (by omega))
      rw [roundoff_eq]
      norm_num
    refine (norm_sub_le _ _).trans ?_
    rw [norm_rz, norm_rz]
    linarith

/-- A word that is found is near the rotation, up to the sign of the double turns taken away: within the
bound, with a third of it to spare, but for the rounding of the angle. For a bound that the precision of
the angle is enough for, the word is near the rotation itself just when their number is even. -/
theorem find?_near_up_to_sign {angle eps : BinFloat} {word : Word} (hfit : angle.FitsPrecision)
    (heps : 0 < eps.value) (heps' : eps.value ≤ 1 / 10) (h : find? angle eps = some word) :
    ∃ M, wordMatrix word = some M ∧
      ‖(-1 : ℂ) ^ turns angle.value • rz (π * angle.value) - M‖
        ≤ 2 / 3 * eps.value + 64 * roundoff angle.prec ∧
      (256 * roundoff angle.prec ≤ eps.value →
        ‖(-1 : ℂ) ^ turns angle.value • rz (π * angle.value) - M‖ < eps.value ∧
        (‖rz (π * angle.value) - M‖ ≤ eps.value ↔ Even (turns angle.value))) := by
  obtain ⟨n, hn, hword, htest⟩ := exists_case_of_find? h
  have hbound := norm_sign_smul_rz_sub_le hfit heps hn htest
  refine ⟨_, wordMatrix_of_isRotation hword, hbound, fun hprec => ?_⟩
  have hlt : ‖(-1 : ℂ) ^ turns angle.value • rz (π * angle.value) - rz (n * (π / 4))‖ < eps.value := by
    linarith
  refine ⟨hlt, ?_⟩
  rcases Int.even_or_odd (turns angle.value) with heven | hodd
  · rw [heven.neg_one_zpow, one_smul] at hlt
    exact iff_of_true hlt.le heven
  · rw [hodd.neg_one_zpow, neg_one_smul] at hlt
    refine iff_of_false (fun hle => ?_) (Int.not_even_iff_odd.2 hodd)
    linarith [two_sub_le_norm_rz_sub (π * angle.value) (rz (n * (π / 4)))]

/-- The bound `10⁻¹⁰`, as it is read at 128 bits. -/
def epsTen : BinFloat := ⟨292300327466180583640736966543256603931, -161, 128⟩

theorem parse_epsTen : parseDecimal? "1e-10" 128 = some epsTen := rfl

theorem value_epsTen : 256 * roundoff 128 ≤ epsTen.value ∧ epsTen.value ≤ 1 / 10 := by
  rw [roundoff_eq]
  unfold epsTen value
  norm_num

/-- An angle below zero, from which an even number of double turns is taken away. -/
theorem find?_near_up_to_sign_even :
    ∃ angle, parseDecimal? "-2.25" 128 = some angle ∧ parseDecimal? "1e-10" 128 = some epsTen ∧
      angle.FitsPrecision ∧ 0 < epsTen.value ∧ epsTen.value ≤ 1 / 10 ∧
      find? angle epsTen = some "SSSTWWWWWw".toList ∧
      ∃ M, wordMatrix "SSSTWWWWWw".toList = some M ∧ ‖rz (π * angle.value) - M‖ ≤ epsTen.value := by
  have hparse : parseDecimal? "-2.25" 128 = some ⟨-191408831393027885698148216680369618944, -126, 128⟩ := rfl
  have hpos : 0 < epsTen.value := by linarith [roundoff_pos 128, value_epsTen.1]
  have hfind : find? ⟨-191408831393027885698148216680369618944, -126, 128⟩ epsTen
      = some "SSSTWWWWWw".toList := by decide +kernel
  have hfit := fits_of_parseDecimal? hparse
  obtain ⟨M, hM, -, hnear⟩ := find?_near_up_to_sign hfit hpos value_epsTen.2 hfind
  have hvalue : (⟨-191408831393027885698148216680369618944, -126, 128⟩ : BinFloat).value = -9 / 4 := by
    norm_num [value]
  have hturns : turns (-9 / 4) = -2 := by
    rw [turns, if_neg (by norm_num), Int.floor_eq_iff]
    norm_num
  refine ⟨_, hparse, parse_epsTen, hfit, hpos, value_epsTen.2, hfind, M, hM, ?_⟩
  refine (hnear value_epsTen.1).2.2 ?_
  rw [hvalue, hturns]
  decide

/-- **The sign is lost for an odd number**: the word that is found for `-2` is empty, but the rotation by
`-2π` is minus the identity. -/
theorem find?_neg_two_far :
    ∃ angle, parseDecimal? "-2" 128 = some angle ∧ parseDecimal? "1e-10" 128 = some epsTen ∧
      0 < epsTen.value ∧ epsTen.value ≤ 1 / 10 ∧ find? angle epsTen = some [] ∧
      wordMatrix [] = some 1 ∧ epsTen.value < ‖rz (π * angle.value) - 1‖ := by
  have hpos : 0 < epsTen.value := by linarith [roundoff_pos 128, value_epsTen.1]
  refine ⟨⟨-2, 0, 128⟩, rfl, parse_epsTen, hpos, value_epsTen.2, by decide +kernel, rfl, ?_⟩
  have hrot : rz (π * (⟨-2, 0, 128⟩ : BinFloat).value) = -1 := by
    have h := rz_sub_two_pi 0 1
    have hid : rz 0 = 1 := by rw [rz, zero_div, neg_zero, phases_zero]
    rw [hid, zpow_one, neg_one_smul] at h
    rw [← h]
    congr 1
    simp [value]
    ring
  have hfar := two_sub_le_norm_rz_sub (π * (⟨-2, 0, 128⟩ : BinFloat).value) 1
  rw [hrot, neg_neg, sub_self, norm_zero] at hfar
  rw [hrot]
  linarith [value_epsTen.2]

end CliffordT.ClosedForm
