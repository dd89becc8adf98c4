/-
The rounded squares and the product of a direction.

The matrix of a slice in direction `(t, s)` is made from `t²`, `s²` and `ts`, each rounded to the precision of the
direction. In the unit of the smaller square these are integers, as soon as the rounded product has come out larger
than the squares allow: then its exponent is about the mean of theirs. So the determinant of the matrix is not far
smaller than the product of its diagonal entries, however short the precision is.
-/
import CliffordT.Proofs.Approximation.Singular
import CliffordT.Proofs.BinFloat.Computed

namespace CliffordT

namespace BinFloat

/-! ## Full mantissas -/

/-- A positive number that is rounded down falls short by half a unit of the last place of the result. -/
theorem le_ofScaled {m : Int} (hm : 0 < m) (e : Int) (p : Nat) :
    (m : ℝ) * 2 ^ e ≤ (1 + roundoff p) * (ofScaled m e p).value := by
  have hu := roundoff_pos p
  by_cases hfits : bitLength m ≤ p
  · rw [value_ofScaled_of_fits hfits]
    have hm' : (0 : ℝ) ≤ m := by exact_mod_cast hm.le
    linarith [mul_nonneg hu.le (mul_nonneg hm' (two_zpow_pos e).le)]
  obtain ⟨s, hs⟩ := Nat.exists_eq_add_of_lt (not_le.1 hfits)
  have hshift : bitLength m - p = s + 1 := by omega
  have hvalue : (ofScaled m e p).value
      = ((m + (1 : Int) <<< s) >>> (s + 1) : Int) * 2 ^ (s + 1) * 2 ^ e := by
    unfold ofScaled
    rw [if_neg hm.ne']
    dsimp only
    rw [if_pos (not_le.1 hfits), hshift, Nat.add_sub_cancel]
    show ((_ : Int) : ℝ) * 2 ^ (e + (s + 1 : Nat)) = _
    rw [two_zpow_add, zpow_natCast, mul_comm ((2 : ℝ) ^ e), mul_assoc]
  have hround := abs_shiftRight_sub_le m s
  -- the leading bit is kept
  have hlead : (2 : ℤ) ^ (p + s) ≤ m := by
    have hle := two_pow_le_natAbs hm.ne'
    have hbits : bitLength m - 1 = p + s := by omega
    rw [hbits] at hle
    have hcast : ((2 ^ (p + s) : ℕ) : ℤ) ≤ (m.natAbs : ℤ) := by exact_mod_cast hle
    rw [Int.natAbs_of_nonneg hm.le] at hcast
    exact_mod_cast hcast
  have hfull : (2 : ℤ) ^ p ≤ 2 * ((m + (1 : Int) <<< s) >>> (s + 1)) := by
    rw [Int.shiftLeft_eq, one_mul, Int.shiftRight_eq_div_pow]
    push_cast
    have hpos : (0 : ℤ) < 2 ^ s := by positivity
    rcases p with _ | p
    · have hone : (1 : ℤ) ≤ (m + 2 ^ s) / 2 ^ (s + 1) := by
        refine Int.le_ediv_of_mul_le (by positivity) ?_
        rw [Nat.zero_add] at hlead
        rw [pow_succ]
        linarith
      rw [pow_zero]
      linarith
    · have hlow : (2 : ℤ) ^ p ≤ (m + 2 ^ s) / 2 ^ (s + 1) := by
        refine Int.le_ediv_of_mul_le (by positivity) ?_
        rw [← pow_add, show p + (s + 1) = p + 1 + s by ring]
        linarith
      rw [pow_succ]
      linarith
  have hfullR : (2 : ℝ) ^ p ≤ 2 * (((m + (1 : Int) <<< s) >>> (s + 1) : Int) : ℝ) := by exact_mod_cast hfull
  rw [hvalue]
  generalize (((m + (1 : Int) <<< s) >>> (s + 1) : Int) : ℝ) = n at *
  have hunit : (2 : ℝ) ^ s ≤ roundoff p * (n * 2 ^ (s + 1)) := by
    calc (2 : ℝ) ^ s = roundoff p * (2 ^ p * 2 ^ s) := by rw [← mul_assoc, roundoff_mul_two_pow, one_mul]
      _ ≤ roundoff p * (2 * n * 2 ^ s) :=
          mul_le_mul_of_nonneg_left (mul_le_mul_of_nonneg_right hfullR (by positivity)) hu.le
      _ = roundoff p * (n * 2 ^ (s + 1)) := by rw [pow_succ]; ring
  rw [← mul_assoc]
  refine mul_le_mul_of_nonneg_right ?_ (two_zpow_pos e).le
  linarith [(abs_le.1 hround).1]

/-- A rounded square is not negative. -/
theorem value_mul_self_nonneg (x : BinFloat) : 0 ≤ (x * x).value := by
  have hround := (value_mul_within (x := x) (y := x) (le_refl (max x.prec x.prec))).sub_le
  rw [abs_of_nonneg (mul_self_nonneg x.value)] at hround
  have hle := mul_le_mul_of_nonneg_right (roundoff_le_one (max x.prec x.prec)) (mul_self_nonneg x.value)
  linarith [(abs_le.1 hround).1]

/-- A number that keeps to its precision can be written with a mantissa of just so many bits. -/
theorem FitsPrecision.exists_full {x : BinFloat} (h : x.FitsPrecision) (hx : x.value ≠ 0) :
    ∃ n i : ℤ, x.value = n * 2 ^ i ∧ 2 ^ x.prec ≤ 2 * |n| ∧ |n| ≤ 2 ^ x.prec := by
  have hm : x.mant ≠ 0 := fun h0 => hx (value_eq_zero_iff.2 h0)
  have hlow : (2 : ℤ) ^ (bitLength x.mant - 1) ≤ |x.mant| := by
    rw [Int.abs_eq_natAbs]
    exact_mod_cast two_pow_le_natAbs hm
  have hpos := bitLength_pos hm
  by_cases hbits : bitLength x.mant ≤ x.prec
  · -- the missing bits are filled up with zeros
    obtain ⟨j, hj⟩ := Nat.exists_eq_add_of_le hbits
    have hhigh := (abs_le_two_pow_bitLength x.mant).le
    have hpow : (0 : ℤ) < 2 ^ j := by positivity
    refine ⟨x.mant * 2 ^ j, x.exp - j, ?_, ?_, ?_⟩
    · unfold value
      push_cast
      rw [mul_assoc, ← zpow_natCast, ← two_zpow_add, add_sub_cancel]
    · rw [abs_mul, abs_of_pos hpow, hj, pow_add, ← mul_assoc]
      refine mul_le_mul_of_nonneg_right ?_ hpow.le
      obtain ⟨b, hb⟩ := Nat.exists_eq_succ_of_ne_zero hpos.ne'
      rw [hb, Nat.succ_sub_one] at hlow
      rw [hb, pow_succ]
      linarith
    · rw [abs_mul, abs_of_pos hpow, hj, pow_add]
      exact mul_le_mul_of_nonneg_right hhigh hpow.le
  · refine ⟨x.mant, x.exp, rfl, ?_, h⟩
    have hle : (2 : ℤ) ^ x.prec ≤ 2 ^ (bitLength x.mant - 1) := pow_le_pow_right₀ (by norm_num) (by omega)
    have := abs_nonneg x.mant
    linarith

end BinFloat

open BinFloat

/-! ## Integers in a common unit -/

/-- Two positive numbers and a product of theirs with mantissas of `p` bits, in the unit of the smaller number. The
product has come out larger than the numbers allow. -/
theorem exists_roundedSquares {p : ℕ} {A B C : ℝ} {n m l i j k : ℤ} (hA : A = n * 2 ^ i) (hB : B = m * 2 ^ j)
    (hC : C = l * 2 ^ k) (hij : i ≤ j) (hn : 2 ^ p ≤ 2 * n) (hn' : n ≤ 2 ^ p) (hm : 2 ^ p ≤ 2 * m)
    (hm' : m ≤ 2 ^ p) (hl : |l| ≤ 2 ^ p) (hlarge : A * B < C ^ 2)
    (hround : C ^ 2 ≤ (1 + roundoff p) ^ 4 * (A * B)) :
    ∃ (e : ℕ) (y D : ℤ), RoundedSquares p e n y D ∧ B = y * 2 ^ i ∧ C ^ 2 - A * B = D * (2 ^ i) ^ 2 := by
  have hP : (0 : ℤ) < 2 ^ p := by positivity
  have hn0 : 0 < n := by linarith
  have hm0 : 0 < m := by linarith
  obtain ⟨e, rfl⟩ : ∃ e : ℕ, j = i + e := ⟨(j - i).toNat, by omega⟩
  -- the exponent of the product is not below the mean
  have hexp : i + (i + e) - 1 ≤ 2 * k := by
    by_contra hlow
    have hsq : (l : ℝ) ^ 2 ≤ (2 ^ p) ^ 2 := by
      have := pow_le_pow_left₀ (abs_nonneg l) hl 2
      rw [sq_abs] at this
      exact_mod_cast this
    have hnm : ((2 : ℝ) ^ p) ^ 2 ≤ 4 * (n * m) := by
      have := mul_le_mul hn hm hP.le (by linarith)
      have hcast : ((2 : ℤ) ^ p) ^ 2 ≤ 4 * (n * m) := by linarith
      exact_mod_cast hcast
    have hpow : (2 : ℝ) ^ (k + k) ≤ 2 ^ (i + (i + e) - 2) := zpow_le_zpow_right₀ one_le_two (by omega)
    have hquarter : (2 : ℝ) ^ (i + (i + (e : ℤ)) - 2) = 2 ^ (i + (i + (e : ℤ))) / 4 := by
      rw [zpow_sub₀ two_ne_zero]
      norm_num
    have hprod : A * B = n * m * 2 ^ (i + (i + (e : ℤ))) := by
      rw [hA, hB, mul_mul_mul_comm, ← two_zpow_add]
    have hCsq : C ^ 2 = l ^ 2 * 2 ^ (k + k) := by
      rw [hC, mul_pow, sq ((2 : ℝ) ^ k), ← two_zpow_add]
    rw [hprod, hCsq] at hlarge
    have hle : (l : ℝ) ^ 2 * 2 ^ (k + k) ≤ (2 ^ p) ^ 2 * (2 ^ (i + (i + (e : ℤ))) / 4) :=
      mul_le_mul hsq (hpow.trans hquarter.le) (two_zpow_pos _).le (by positivity)
    have hge := mul_le_mul_of_nonneg_right hnm (two_zpow_pos (i + (i + (e : ℤ)))).le
    linarith
  obtain ⟨f, rfl⟩ : ∃ f : ℕ, k = i + f := ⟨(k - i).toNat, by omega⟩
  have hBy : B = ((m * 2 ^ e : ℤ) : ℝ) * 2 ^ i := by
    rw [hB, two_zpow_add, zpow_natCast]
    push_cast
    ring
  have hdefect : C ^ 2 - A * B = ((l ^ 2 * 2 ^ (2 * f) - n * (m * 2 ^ e) : ℤ) : ℝ) * (2 ^ i) ^ 2 := by
    rw [hA, hBy, hC, two_zpow_add, zpow_natCast, pow_mul']
    push_cast
    ring
  refine ⟨e, m * 2 ^ e, l ^ 2 * 2 ^ (2 * f) - n * (m * 2 ^ e), ⟨hn', hn, by positivity, ?_, ?_, ?_⟩, hBy, hdefect⟩
  · rw [pow_add]
    exact mul_le_mul_of_nonneg_right hm' (by positivity)
  · have hdvd : (2 : ℤ) ^ e ∣ 2 ^ (2 * f + 1) := pow_dvd_pow 2 (by omega)
    have hsplit : 2 * (l ^ 2 * 2 ^ (2 * f) - n * (m * 2 ^ e)) = l ^ 2 * 2 ^ (2 * f + 1) - 2 * n * m * 2 ^ e := by
      ring
    rw [hsplit]
    exact dvd_sub (hdvd.mul_left _) (dvd_mul_left _ _)
  · have hunit : (0 : ℝ) < (2 ^ i) ^ 2 := by positivity
    have hAB : A * B = ((n * (m * 2 ^ e) : ℤ) : ℝ) * (2 ^ i) ^ 2 := by
      rw [hA, hBy]
      push_cast
      ring
    have hD : C ^ 2 - A * B ≤ ((1 + roundoff p) ^ 4 - 1) * (A * B) := by linarith
    rw [hdefect, hAB, ← mul_assoc ((1 + roundoff p) ^ 4 - 1)] at hD
    have hcancel := le_of_mul_le_mul_right hD hunit
    have hpow4 : (0 : ℝ) ≤ (2 ^ p) ^ 4 := by positivity
    have hscaled := mul_le_mul_of_nonneg_right hcancel hpow4
    have hone : (1 + roundoff p) * 2 ^ p = 2 ^ p + 1 := by
      rw [add_mul, one_mul, roundoff_mul_two_pow]
    have hfour : ((1 + roundoff p) ^ 4 - 1) * (2 ^ p) ^ 4 = (2 ^ p + 1) ^ 4 - (2 ^ p) ^ 4 := by
      rw [sub_mul, ← mul_pow, hone, one_mul]
    rw [mul_right_comm, hfour] at hscaled
    exact_mod_cast hscaled

/-! ## The matrix of a rounded direction -/

/-- The number has a mantissa of `p` bits. -/
def IsFull (p : ℕ) (v : ℝ) : Prop := ∃ n i : ℤ, v = n * 2 ^ i ∧ 2 ^ p ≤ 2 * |n| ∧ |n| ≤ 2 ^ p

/-- The squares `A` and `B` of a direction and its product `C`, each rounded to `p` bits. -/
structure RoundedDirection (p : ℕ) (A B C : ℝ) : Prop where
  fst_nonneg : 0 ≤ A
  snd_nonneg : 0 ≤ B
  fst_full : A ≠ 0 → IsFull p A
  snd_full : B ≠ 0 → IsFull p B
  product_full : C ≠ 0 → IsFull p C
  product_le : C ^ 2 ≤ (1 + roundoff p) ^ 4 * (A * B)

namespace RoundedDirection

variable {d p : ℕ} {A B C : ℝ}

theorem symm (h : RoundedDirection p A B C) : RoundedDirection p B A C :=
  ⟨h.snd_nonneg, h.fst_nonneg, h.snd_full, h.fst_full, h.product_full, by
    rw [mul_comm B]
    exact h.product_le⟩

/-- The computed squares and product are rounded. -/
theorem of_mul {s t : BinFloat} (hs : s.prec = p) (ht : t.prec = p) :
    RoundedDirection p (t * t).value (s * s).value (t * s).value := by
  have hu := roundoff_pos p
  have hfull {x : BinFloat} (hx : x.FitsPrecision) (hprec : x.prec = p) (hne : x.value ≠ 0) : IsFull p x.value :=
    hprec ▸ hx.exists_full hne
  have hsquare {x : BinFloat} (hx : x.prec = p) : x.value ^ 2 ≤ (1 + roundoff p) * (x * x).value := by
    by_cases h0 : x.mant = 0
    · rw [value_eq_zero_iff.2 h0, zero_pow two_ne_zero]
      exact mul_nonneg (by linarith) (value_mul_self_nonneg x)
    · have hle := le_ofScaled (mul_self_pos.2 h0) (x.exp + x.exp) p
      have hmul : x * x = ofScaled (x.mant * x.mant) (x.exp + x.exp) p := by
        show ofScaled _ _ (max x.prec x.prec) = _
        rw [max_self, hx]
      have hsq : x.value ^ 2 = ((x.mant * x.mant : Int) : ℝ) * 2 ^ (x.exp + x.exp) := by
        unfold value
        rw [two_zpow_add]
        push_cast
        ring
      rw [hmul, hsq]
      exact hle
  have hprec {x y : BinFloat} (hx : x.prec = p) (hy : y.prec = p) : (x * y).prec = p := by
    rw [prec_mul, hx, hy, max_self]
  have ht0 := value_mul_self_nonneg t
  have hs0 := value_mul_self_nonneg s
  refine ⟨ht0, hs0, hfull (fits_mul t t) (hprec ht ht), hfull (fits_mul s s) (hprec hs hs),
    hfull (fits_mul t s) (hprec ht hs), ?_⟩
  have hround := (value_mul_within (x := t) (y := s) (p := p) (by rw [ht, hs, max_self])).abs_le
  have hsq := pow_le_pow_left₀ (abs_nonneg _) hround 2
  rw [sq_abs, mul_pow, sq_abs, mul_pow] at hsq
  calc (t * s).value ^ 2 ≤ (1 + roundoff p) ^ 2 * (t.value ^ 2 * s.value ^ 2) := hsq
    _ ≤ (1 + roundoff p) ^ 2 * ((1 + roundoff p) * (t * t).value * ((1 + roundoff p) * (s * s).value)) :=
        mul_le_mul_of_nonneg_left (mul_le_mul (hsquare ht) (hsquare hs) (sq_nonneg _) (by positivity)) (by positivity)
    _ = (1 + roundoff p) ^ 4 * ((t * t).value * (s * s).value) := by ring

/-- The determinant of the matrix, in units of the square of the smaller eigenvalue. -/
noncomputable def det (d : ℕ) (A B C : ℝ) : ℝ :=
  axisRatio d * (A + B) ^ 2 - (C ^ 2 - A * B) * (axisRatio d - 1) ^ 2

/-- The product of its diagonal entries. -/
noncomputable def diag (d : ℕ) (A B : ℝ) : ℝ := (axisRatio d * A + B) * (axisRatio d * B + A)

theorem det_symm (d : ℕ) (A B C : ℝ) : det d B A C = det d A B C := by
  unfold det
  rw [add_comm B, mul_comm B]

theorem diag_symm (d : ℕ) (A B : ℝ) : diag d B A = diag d A B := by
  unfold diag
  ring

/-- A defect that is not positive leaves the first part of the determinant. -/
theorem diag_le_det_of_le (hd : 0 < d) (h : C ^ 2 ≤ A * B) :
    d * diag d A B ≤ 2 ^ (20 * d + 60) * |det d A B C| := by
  obtain ⟨hM, -⟩ := axisRatio_bounds hd
  have hcube := mul_axisRatio_cube_le hd
  have hd0 : (0 : ℝ) ≤ d := Nat.cast_nonneg d
  unfold diag det
  rw [pow_add]
  generalize (axisRatio d : ℝ) = M at *
  have hdefect := mul_nonneg (sub_nonneg.2 h) (sq_nonneg (M - 1))
  have hdet : M * (A + B) ^ 2 ≤ |M * (A + B) ^ 2 - (C ^ 2 - A * B) * (M - 1) ^ 2| :=
    le_trans (by linarith) (le_abs_self _)
  have hdiag : (M * A + B) * (M * B + A) ≤ M ^ 2 * (A + B) ^ 2 := by
    nlinarith [sq_nonneg (A - B), sq_nonneg (A + B)]
  have hM3 : d * M ^ 2 ≤ 2 ^ (20 * d) * 2 ^ 60 * M := by
    have hpow : M ^ 2 ≤ M ^ 3 := pow_le_pow_right₀ (by linarith) (by norm_num)
    have hle := mul_le_mul_of_nonneg_left hpow hd0
    have hpos : (0 : ℝ) < 2 ^ (20 * d) := by positivity
    nlinarith
  calc d * ((M * A + B) * (M * B + A)) ≤ d * (M ^ 2 * (A + B) ^ 2) := mul_le_mul_of_nonneg_left hdiag hd0
    _ = d * M ^ 2 * (A + B) ^ 2 := by ring
    _ ≤ 2 ^ (20 * d) * 2 ^ 60 * M * (A + B) ^ 2 := mul_le_mul_of_nonneg_right hM3 (sq_nonneg _)
    _ = 2 ^ (20 * d) * 2 ^ 60 * (M * (A + B) ^ 2) := by ring
    _ ≤ _ := mul_le_mul_of_nonneg_left hdet (by positivity)

/-- The integers of a direction whose product has come out large. -/
theorem diag_le_det_of_squares {e : ℕ} {x y D w : ℤ} (hd : 0 < d) (hd' : d ≤ 214748364)
    (hr : RoundedSquares p e x y D) (hA : A = x * 2 ^ w) (hB : B = y * 2 ^ w)
    (hC : C ^ 2 - A * B = D * (2 ^ w) ^ 2) (hlow : 5 ≤ p → p ≤ 41 → |A + B - 1| ≤ 8 / 2 ^ p)
    (hhigh : 42 ≤ p → p < 7 * d + 7 → |A + B - 1| ≤ 1 / 2 ^ 39) :
    d * diag d A B ≤ 2 ^ (20 * d + 60) * |det d A B C| := by
  have hunit : (0 : ℝ) < 2 ^ w := by positivity
  have hsum : A + B = ((x + y : ℤ) : ℝ) * 2 ^ w := by
    rw [hA, hB]
    push_cast
    ring
  have hnear {η : ℝ} (h : |A + B - 1| ≤ η) : NearPower η (x + y) := by
    refine ⟨-w, ?_⟩
    have hinv : (2 : ℝ) ^ (-w) * 2 ^ w = 1 := by rw [← two_zpow_add, neg_add_cancel, zpow_zero]
    have hsplit : A + B - 1 = (((x + y : ℤ) : ℝ) - 2 ^ (-w)) * 2 ^ w := by rw [sub_mul, hinv, hsum]
    rw [hsplit, abs_mul, abs_of_pos hunit] at h
    refine le_of_mul_le_mul_right (h.trans (le_of_eq ?_)) hunit
    rw [mul_assoc, hinv, mul_one]
  have hnot := hr.not_nearlySingular hd hd' (fun h h' => hnear (hlow h h')) fun h h' => hnear (hhigh h h')
  unfold NearlySingular at hnot
  rw [not_lt] at hnot
  have hdiag : diag d A B = roundedDiag d x y * (2 ^ w) ^ 2 := by
    unfold diag roundedDiag
    rw [hA, hB]
    push_cast
    ring
  have hdet : det d A B C = roundedDet d x y D * (2 ^ w) ^ 2 := by
    unfold det roundedDet
    rw [hC, hsum]
    push_cast
    ring
  have hsq : (0 : ℝ) < (2 ^ w) ^ 2 := by positivity
  rw [hdiag, hdet, abs_mul, abs_of_pos hsq, ← mul_assoc, ← mul_assoc]
  exact mul_le_mul_of_nonneg_right hnot hsq.le

/-- **The determinant is not far smaller than the product of the diagonal entries**, at any precision at which the
squares add up to one as accurately as it allows. -/
theorem diag_le_det (h : RoundedDirection p A B C) (hd : 0 < d) (hd' : d ≤ 214748364)
    (hlow : 5 ≤ p → p ≤ 41 → |A + B - 1| ≤ 8 / 2 ^ p)
    (hhigh : 42 ≤ p → p < 7 * d + 7 → |A + B - 1| ≤ 1 / 2 ^ 39) :
    d * diag d A B ≤ 2 ^ (20 * d + 60) * |det d A B C| := by
  rcases le_or_gt (C ^ 2) (A * B) with hle | hlarge
  · exact diag_le_det_of_le hd hle
  have hprod : 0 < A * B := by
    refine lt_of_le_of_ne (mul_nonneg h.fst_nonneg h.snd_nonneg) fun h0 => ?_
    have hsq := h.product_le
    rw [← h0, mul_zero] at hsq
    rw [← h0] at hlarge
    linarith
  have hC0 : C ≠ 0 := by
    rintro rfl
    linarith
  have hA0 : 0 < A := pos_of_mul_pos_left hprod h.snd_nonneg
  have hB0 : 0 < B := pos_of_mul_pos_right hprod h.fst_nonneg
  obtain ⟨n, i, hA, hn, hn'⟩ := h.fst_full hA0.ne'
  obtain ⟨m, j, hB, hm, hm'⟩ := h.snd_full hB0.ne'
  obtain ⟨l, k, hC, -, hl⟩ := h.product_full hC0
  have habs {v : ℝ} {n i : ℤ} (hv : 0 < v) (hvn : v = n * 2 ^ i) : |n| = n := by
    rw [hvn] at hv
    have hpos := pos_of_mul_pos_left hv (two_zpow_pos i).le
    exact abs_of_pos (by exact_mod_cast hpos)
  rw [habs hA0 hA] at hn hn'
  rw [habs hB0 hB] at hm hm'
  rcases le_total i j with hij | hji
  · obtain ⟨e, y, D, hr, hy, hdefect⟩ := exists_roundedSquares hA hB hC hij hn hn' hm hm' hl hlarge h.product_le
    exact diag_le_det_of_squares hd hd' hr hA hy hdefect hlow hhigh
  · rw [mul_comm] at hlarge
    obtain ⟨e, y, D, hr, hy, hdefect⟩ :=
      exists_roundedSquares hB hA hC hji hm hm' hn hn' hl hlarge h.symm.product_le
    rw [add_comm A] at hlow hhigh
    rw [← diag_symm, ← det_symm]
    exact diag_le_det_of_squares hd hd' hr hB hy hdefect hlow hhigh

end RoundedDirection

end CliffordT
