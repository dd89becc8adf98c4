/-
Sine and cosine of arguments that are far out.

The integer bits of an argument are counted in 32 bits, so that the working precision for one with more of them does
not reach down to its units. What is left of such an argument after the turns is zero, or still so large that the
series go on for longer than their index allows. An argument that has a sine and a cosine has therefore those of some
angle, as long as its precision is far below the bits that were not counted.
-/
import CliffordT.Proofs.BinFloat.Computed
import CliffordT.Proofs.BinFloat.Trigonometry

namespace CliffordT.BinFloat

/-! ## What is left after the turns -/

/-- Different numbers of one precision are apart by as much as the smaller unit of the last place. -/
theorem FitsPrecision.abs_value_le_mul_sub {x y : BinFloat} {p : Nat} (hx : x.FitsPrecision) (hy : y.FitsPrecision)
    (hxp : x.prec = p) (hyp : y.prec = p) (hne : x.value ≠ y.value) :
    |x.value| ≤ 2 ^ (p + 1) * |x.value - y.value| := by
  have hpow : (1 : ℝ) ≤ 2 ^ p := one_le_pow₀ one_le_two
  rw [pow_succ]
  rcases le_or_gt |x.value| (2 * |y.value|) with hle | hlt
  · have hunit {z : BinFloat} (hz : z.FitsPrecision) (hzp : z.prec = p) : |z.value| ≤ 2 ^ p * 2 ^ z.exp := by
      unfold FitsPrecision at hz
      rw [hzp] at hz
      rw [abs_value]
      exact mul_le_mul_of_nonneg_right (by exact_mod_cast hz) (two_zpow_pos _).le
    -- the difference is a multiple of the smaller power of two
    have hapart : (2 : ℝ) ^ min x.exp y.exp ≤ |x.value - y.value| := by
      obtain ⟨ha, hb⟩ := value_aligned x y
      have hsplit : x.value - y.value
          = (((x.aligned y).1 - (x.aligned y).2.1 : ℤ) : ℝ) * 2 ^ min x.exp y.exp := by
        rw [← ha, ← hb, Int.cast_sub, sub_mul]
        rfl
      have hdiff : (x.aligned y).1 - (x.aligned y).2.1 ≠ 0 := by
        intro h0
        rw [h0, Int.cast_zero, zero_mul] at hsplit
        exact hne (sub_eq_zero.1 hsplit)
      have hone : (1 : ℝ) ≤ |(((x.aligned y).1 - (x.aligned y).2.1 : ℤ) : ℝ)| := by
        exact_mod_cast Int.one_le_abs hdiff
      rw [hsplit, abs_mul, abs_of_pos (two_zpow_pos _)]
      exact le_mul_of_one_le_left (two_zpow_pos _).le hone
    have hscaled := mul_le_mul_of_nonneg_left hapart (by positivity : (0 : ℝ) ≤ 2 ^ p)
    have hxunit := hunit hx hxp
    have hyunit := hunit hy hyp
    rcases min_choice x.exp y.exp with hmin | hmin
    · rw [hmin] at hscaled
      have := mul_nonneg (by positivity : (0 : ℝ) ≤ 2 ^ p) (abs_nonneg (x.value - y.value))
      linarith
    · rw [hmin] at hscaled
      linarith
  · have htri := abs_sub_abs_le_abs_sub x.value y.value
    have hscaled := mul_le_mul_of_nonneg_right hpow (abs_nonneg (x.value - y.value))
    linarith

/-- What is left of an argument after the turns is zero or no smaller than its last place at the working precision. -/
theorem reduceTurn_eq_zero_or_le (x : BinFloat) {wp : Nat} (hwp : 2 ≤ wp) :
    (reduceTurn x wp).value = 0 ∨ |x.value| ≤ 2 ^ (wp + 3) * |(reduceTurn x wp).value| := by
  have hu := roundoff_pos wp
  have hu4 : roundoff wp ≤ 1 / 4 := roundoff_le_quarter hwp
  have hxw := (value_withPrec_within x wp).le_abs
  have hr : Within (2 * roundoff wp) (reduceTurn x wp).value ((x.withPrec wp).value
      - ((pi wp).scaleTwo 1 * ofInt (x.withPrec wp / (pi wp).scaleTwo 1).round wp).value) :=
    value_sub_within (by simp)
  have hprod : ((pi wp).scaleTwo 1 * ofInt (x.withPrec wp / (pi wp).scaleTwo 1).round wp).prec = wp := by
    simp [prec_pi]
  have hfits := fits_mul ((pi wp).scaleTwo 1) (ofInt (x.withPrec wp / (pi wp).scaleTwo 1).round wp)
  generalize (pi wp).scaleTwo 1 * ofInt (x.withPrec wp / (pi wp).scaleTwo 1).round wp = y at hr hprod hfits
  by_cases hsame : (x.withPrec wp).value = y.value
  · exact .inl (hr.eq_zero (sub_eq_zero.2 hsame))
  right
  have hfitsx : (x.withPrec wp).FitsPrecision := fits_ofScaled _ _ _
  have hapart := hfitsx.abs_value_le_mul_sub hfits (prec_withPrec x wp) hprod hsame
  have hleft := hr.le_abs
  have hhalf : |(x.withPrec wp).value - y.value| ≤ 2 * |(reduceTurn x wp).value| := by
    nlinarith [abs_nonneg ((x.withPrec wp).value - y.value)]
  have hsize : |x.value| ≤ 2 * |(x.withPrec wp).value| := by
    nlinarith [abs_nonneg x.value]
  have hscaled := mul_le_mul_of_nonneg_left hhalf (by positivity : (0 : ℝ) ≤ 2 ^ (wp + 1))
  rw [show wp + 3 = wp + 1 + 2 by ring, pow_add]
  linarith

/-! ## Series that do not end -/

section Series

variable {r2 : BinFloat} {wp : Nat} {s : SeriesState}

/-- A series goes on after a term that is not below one. -/
theorem goesOn_of_one_le (h : 1 ≤ |s.term.value|) : s.goesOn wp = true := by
  refine Bool.eq_true_of_not_eq_false fun hstop => ?_
  have hsmall := abs_term_le_of_not_goesOn hstop
  have hu := roundoff_le_one wp
  linarith

/-- One more term of a series in a large argument is no smaller. -/
theorem exists_trigStep_of_large (hwp : 4 ≤ wp) (hprec : s.term.prec = wp) (hr2 : 2 ^ 72 ≤ |r2.value|)
    (hr2prec : r2.prec = wp) (hindex : s.index + 2 ≤ 2 ^ 34) (h : 1 ≤ |s.term.value|) :
    ∃ s', trigStep r2 wp s = some s' ∧ s'.index = s.index + 2 ∧ s'.term.prec = wp ∧ 1 ≤ |s'.term.value| := by
  have hu := roundoff_pos wp
  have hu4 : roundoff wp ≤ 1 / 16 := (roundoff_anti hwp).trans (by rw [roundoff_eq]; norm_num)
  have hn : (s.index + 1) * (s.index + 2) ≤ 2 ^ 34 * 2 ^ 34 := Nat.mul_le_mul (by omega) hindex
  have hn0 : 0 < (s.index + 1) * (s.index + 2) := by positivity
  refine ⟨_, if_pos (goesOn_of_one_le h), rfl, by simp [hprec, hr2prec], ?_⟩
  show 1 ≤ |(-(s.term * r2 / ofInt ((s.index + 1) * (s.index + 2) : Nat) wp)).value|
  generalize (s.index + 1) * (s.index + 2) = n at hn hn0
  have hden : Within (roundoff wp) (ofInt (n : ℤ) wp).value n := by
    have hround := value_ofInt_within (n : ℤ) wp
    rwa [Int.cast_natCast] at hround
  have hnR : (0 : ℝ) < n := by exact_mod_cast hn0
  have hnR' : (n : ℝ) ≤ 2 ^ 34 * 2 ^ 34 := by exact_mod_cast hn
  have hden0 : (ofInt (n : ℤ) wp).value ≠ 0 := hden.ne_zero (by linarith) hnR.ne'
  have hdenle := hden.abs_le
  rw [abs_of_pos hnR] at hdenle
  have hmul := (value_mul_within (x := s.term) (y := r2) (p := wp) (by simp [hprec])).le_abs
  have hdiv := (value_div_within (x := s.term * r2) (y := ofInt (n : ℤ) wp) (p := wp) (by simp) hden0).le_abs
  rw [abs_mul] at hmul
  rw [abs_div] at hdiv
  rw [value_neg, abs_neg]
  have hprod : 2 ^ 71 ≤ |(s.term * r2).value| := by
    have h1 : 2 ^ 72 ≤ |s.term.value| * |r2.value| := by nlinarith
    nlinarith
  have hquot : 2 ≤ |(s.term * r2).value| / |(ofInt (n : ℤ) wp).value| := by
    rw [le_div_iff₀ (abs_pos.2 hden0)]
    nlinarith
  nlinarith

/-- A series in a large argument has not ended after as many terms as are tried. -/
theorem one_le_iterate_of_large (hwp : 4 ≤ wp) (hr2 : 2 ^ 72 ≤ |r2.value|) (hr2prec : r2.prec = wp) (n : Nat)
    (hprec : s.term.prec = wp) (hindex : s.index + 2 * n ≤ 2 ^ 34) (h : 1 ≤ |s.term.value|) :
    1 ≤ |(iterate (trigStep r2 wp) n s).term.value| := by
  induction n generalizing s with
  | zero => exact h
  | succ n ih =>
    obtain ⟨s', hstep, hindex', hprec', h'⟩ := exists_trigStep_of_large hwp hprec hr2 hr2prec (by omega) h
    unfold iterate
    rw [hstep]
    exact ih hprec' (by omega) h'

end Series

/-! ## Arguments that have a sine -/

section Angle

variable {x s c : BinFloat}

/-- What has a sine and a cosine has series that end. -/
theorem series_of_sinCos (h : x.sinCos = .ok (s, c)) : trigPrec x < 2 ^ 32 ∧
    (iterate (trigStep (reduceTurn x (trigPrec x) * reduceTurn x (trigPrec x)) (trigPrec x))
      (seriesBound (trigPrec x)) ⟨one (trigPrec x), 0, one (trigPrec x)⟩).goesOn (trigPrec x) = false ∧
    s = (iterate (trigStep (reduceTurn x (trigPrec x) * reduceTurn x (trigPrec x)) (trigPrec x))
      (seriesBound (trigPrec x)) ⟨reduceTurn x (trigPrec x), 1, reduceTurn x (trigPrec x)⟩).sum.withPrec x.prec ∧
    c = (iterate (trigStep (reduceTurn x (trigPrec x) * reduceTurn x (trigPrec x)) (trigPrec x))
      (seriesBound (trigPrec x)) ⟨one (trigPrec x), 0, one (trigPrec x)⟩).sum.withPrec x.prec := by
  unfold sinCos at h
  dsimp only at h
  split at h
  · cases h
  rename_i hwp
  split at h
  · cases h
  rename_i hends
  rw [Bool.or_eq_true, not_or, Bool.not_eq_true, Bool.not_eq_true] at hends
  cases h
  exact ⟨not_le.1 hwp, hends.2, rfl, rfl⟩

/-- An argument that is reduced to zero has the sine and the cosine of zero. -/
theorem series_of_zero {r : BinFloat} {wp : Nat} (hr : r.value = 0) (hwp : 4 ≤ wp) (n : Nat) :
    (iterate (trigStep (r * r) wp) n ⟨r, 1, r⟩).sum.value = 0 ∧
      |(iterate (trigStep (r * r) wp) n ⟨one wp, 0, one wp⟩).sum.value - 1| ≤ 2 * roundoff wp := by
  have hu := roundoff_pos wp
  have hdone {t : SeriesState} (ht : t.term.value = 0) : trigStep (r * r) wp t = none := by
    rw [trigStep_eq_none_iff]
    unfold SeriesState.goesOn
    rw [isZero_iff.2 ht]
    rfl
  rw [iterate_of_done (hdone hr)]
  refine ⟨hr, ?_⟩
  cases n with
  | zero =>
    show |(one wp).value - 1| ≤ _
    rw [value_one, sub_self, abs_zero]
    linarith
  | succ n =>
    have hgo : (⟨one wp, 0, one wp⟩ : SeriesState).goesOn wp = true := goesOn_of_one_le (by
      show 1 ≤ |(one wp).value|
      rw [value_one, abs_one])
    have hr2 : (r * r).value = 0 := (value_mul_within (Nat.zero_le _)).eq_zero (by rw [hr, zero_mul])
    have hprod : (one wp * (r * r)).value = 0 :=
      (value_mul_within (Nat.zero_le _)).eq_zero (by rw [hr2, mul_zero])
    have hden : (ofInt ((0 + 1) * (0 + 2) : Nat) wp).value ≠ 0 := by
      rw [value_ofInt_of_fits (show bitLength ((0 + 1) * (0 + 2) : Nat) ≤ wp by
        show 2 ≤ wp
        omega)]
      norm_num
    have hterm : (-(one wp * (r * r) / ofInt ((0 + 1) * (0 + 2) : Nat) wp)).value = 0 := by
      rw [value_neg, value_zero_div hprod hden, neg_zero]
    have hstep : trigStep (r * r) wp ⟨one wp, 0, one wp⟩
        = some ⟨-(one wp * (r * r) / ofInt ((0 + 1) * (0 + 2) : Nat) wp), 0 + 2,
          one wp + -(one wp * (r * r) / ofInt ((0 + 1) * (0 + 2) : Nat) wp)⟩ := if_pos hgo
    generalize -(one wp * (r * r) / ofInt ((0 + 1) * (0 + 2) : Nat) wp) = t at hterm hstep
    unfold iterate
    rw [hstep]
    dsimp only
    rw [iterate_of_done (hdone hterm)]
    have hsum := (value_add_within (x := one wp) (y := t) (p := wp) (le_max_left _ _)).sub_le
    rw [hterm, value_one, add_zero, abs_one, mul_one] at hsum
    exact hsum

/-- The leading one of the integer bits. -/
theorem two_pow_le_of_integerBits {n : Nat} (h : n < x.integerBits) : 2 ^ n ≤ |x.value| := by
  unfold integerBits at h
  split at h
  · omega
  · rename_i hzero
    have hmant : x.mant ≠ 0 := by rwa [isZero_iff, value_eq_zero_iff] at hzero
    rw [← zpow_natCast]
    exact (zpow_le_zpow_right₀ one_le_two (by omega)).trans (two_zpow_top_le hmant)

/-- Of an argument with integer bits that were not counted nothing is left after the turns, if it has a sine. -/
theorem reduceTurn_eq_zero (hlow : 2 ≤ x.prec) (hhigh : x.prec < 2 ^ 31) (hbits : 2 ^ 32 ≤ x.integerBits)
    (h : x.sinCos = .ok (s, c)) : (reduceTurn x (trigPrec x)).value = 0 := by
  obtain ⟨hwp32, hends, -⟩ := series_of_sinCos h
  have hprec := prec_reduceTurn x (trigPrec x)
  refine (reduceTurn_eq_zero_or_le x (by unfold trigPrec; omega : 2 ≤ trigPrec x)).resolve_right fun hlarge => ?_
  have hwp4 : 4 ≤ trigPrec x := by
    unfold trigPrec
    omega
  have hexp : trigPrec x + 3 + 37 < x.integerBits := by
    have hdiv := Nat.div_add_mod x.integerBits (2 ^ 32)
    have hpos : 1 ≤ x.integerBits / 2 ^ 32 := Nat.div_pos hbits (by norm_num)
    have hcount : trigPrec x = x.prec + 32 + x.integerBits % 2 ^ 32 := rfl
    rw [hcount]
    omega
  have hsize := (two_pow_le_of_integerBits hexp).trans hlarge
  rw [pow_add] at hsize
  have hr : (2 : ℝ) ^ 37 ≤ |(reduceTurn x (trigPrec x)).value| := le_of_mul_le_mul_left hsize (by positivity)
  generalize reduceTurn x (trigPrec x) = r at *
  have hsq : 2 ^ 72 ≤ |(r * r).value| := by
    have hu4 : roundoff (trigPrec x) ≤ 1 / 4 := roundoff_le_quarter (by omega)
    have hmul := (value_mul_within (x := r) (y := r) (p := trigPrec x) (by rw [hprec, max_self])).le_abs
    rw [abs_mul] at hmul
    nlinarith
  have hone := one_le_iterate_of_large (s := ⟨one (trigPrec x), 0, one (trigPrec x)⟩) hwp4 hsq
    (by rw [prec_mul, hprec, max_self]) (seriesBound (trigPrec x)) (prec_one _)
    (by
      show 0 + 2 * (trigPrec x + 16) ≤ 2 ^ 34
      omega) (by
      show 1 ≤ |(one (trigPrec x)).value|
      rw [value_one, abs_one])
  rw [goesOn_of_one_le hone] at hends
  cases hends

/-- **An argument that has a sine and a cosine has those of some angle**, at a precision below `2 ^ 31` bits. -/
theorem sinCos_near (hlow : 2 ≤ x.prec) (hhigh : x.prec < 2 ^ 31) (h : x.sinCos = .ok (s, c)) :
    ∃ θ : ℝ, (x.prec ≤ 2 ^ 20 → |s.value - Real.sin θ| ≤ 2 * roundoff x.prec ∧
        |c.value - Real.cos θ| ≤ 2 * roundoff x.prec) ∧
      (64 ≤ x.prec → |s.value - Real.sin θ| ≤ 200 * roundoff x.prec ∧
        |c.value - Real.cos θ| ≤ 200 * roundoff x.prec) := by
  rcases Nat.lt_or_ge x.integerBits (2 ^ 32) with hbits | hbits
  · have hrange := inRange_of_sinCos h hbits
    refine ⟨x.value, fun h20 => ?_, fun h64 => ?_⟩
    · obtain ⟨_, _, _, _, -, -, ⟨-, -, heq⟩, hsin, hcos⟩ := sinCos_within hlow h20 hrange
      rw [heq] at h
      cases h
      exact ⟨hsin, hcos⟩
    · obtain ⟨_, _, heq, -, -, hsin, hcos⟩ := sinCos_spec h64 hrange
      rw [heq] at h
      cases h
      exact ⟨hsin, hcos⟩
  · have hη := roundoff_pos x.prec
    have hwp4 : 4 ≤ trigPrec x := by
      unfold trigPrec
      omega
    have hunit := roundoff_trigPrec_le x
    obtain ⟨-, -, rfl, rfl⟩ := series_of_sinCos h
    obtain ⟨hsin, hcos⟩ := series_of_zero (reduceTurn_eq_zero hlow hhigh hbits h) hwp4
      (seriesBound (trigPrec x))
    have hs := (value_withPrec_within _ x.prec).eq_zero hsin
    have hexact : |(1 : ℝ) - 1| ≤ 0 := by rw [sub_self, abs_zero]
    have hc := trig_error hη hcos hexact (by norm_num) (value_withPrec_within _ x.prec)
    have hu1 := roundoff_le_one x.prec
    have hle : roundoff x.prec * (1 + (0 + 2 * roundoff (trigPrec x))) + (0 + 2 * roundoff (trigPrec x))
        ≤ 2 * roundoff x.prec := by nlinarith
    refine ⟨0, fun _ => ⟨?_, ?_⟩, fun _ => ⟨?_, ?_⟩⟩
    · rw [hs, Real.sin_zero, sub_self, abs_zero]
      linarith
    · rw [Real.cos_zero]
      exact hc.trans hle
    · rw [hs, Real.sin_zero, sub_self, abs_zero]
      linarith
    · rw [Real.cos_zero]
      linarith

/-! ## The sum of the squares -/

/-- Numbers near to a sine and a cosine have squares that nearly add up to one. -/
theorem abs_sum_sq_sub_one_le {v w θ a : ℝ} (hv : |v - Real.sin θ| ≤ a) (hw : |w - Real.cos θ| ≤ a) :
    |w ^ 2 + v ^ 2 - 1| ≤ 3 * a + 2 * a ^ 2 := by
  have hcs := Real.sin_sq_add_cos_sq θ
  have ha : 0 ≤ a := (abs_nonneg _).trans hv
  have hsum : |Real.sin θ| + |Real.cos θ| ≤ 3 / 2 := by
    refine le_of_sq_le_sq ?_ (by norm_num)
    have hmean := sq_nonneg (|Real.sin θ| - |Real.cos θ|)
    rw [sub_sq, sq_abs, sq_abs] at hmean
    rw [add_sq, sq_abs, sq_abs]
    linarith
  have hsplit : w ^ 2 + v ^ 2 - 1 = 2 * (Real.cos θ * (w - Real.cos θ)) + 2 * (Real.sin θ * (v - Real.sin θ))
      + (w - Real.cos θ) ^ 2 + (v - Real.sin θ) ^ 2 := by linear_combination hcs
  have hcross {y z : ℝ} (h : |z| ≤ a) : |2 * (y * z)| ≤ 2 * a * |y| := by
    rw [abs_mul, abs_two, abs_mul]
    have := mul_le_mul_of_nonneg_left h (abs_nonneg y)
    linarith
  have hsq {z : ℝ} (h : |z| ≤ a) : |z ^ 2| ≤ a ^ 2 := by
    rw [abs_pow]
    exact pow_le_pow_left₀ (abs_nonneg z) h 2
  rw [hsplit]
  have h1 := abs_add_le (2 * (Real.cos θ * (w - Real.cos θ)) + 2 * (Real.sin θ * (v - Real.sin θ))
    + (w - Real.cos θ) ^ 2) ((v - Real.sin θ) ^ 2)
  have h2 := abs_add_le (2 * (Real.cos θ * (w - Real.cos θ)) + 2 * (Real.sin θ * (v - Real.sin θ)))
    ((w - Real.cos θ) ^ 2)
  have h3 := abs_add_le (2 * (Real.cos θ * (w - Real.cos θ))) (2 * (Real.sin θ * (v - Real.sin θ)))
  have hscaled := mul_le_mul_of_nonneg_left hsum ha
  linarith [hcross (y := Real.cos θ) hw, hcross (y := Real.sin θ) hv, hsq hw, hsq hv]

/-- The rounded squares add up to one, as accurately as the precision allows. -/
theorem squares_of_sinCos (hlow : 5 ≤ x.prec) (hhigh : x.prec < 2 ^ 31) (h : x.sinCos = .ok (s, c)) :
    (x.prec ≤ 41 → |(c * c).value + (s * s).value - 1| ≤ 8 / 2 ^ x.prec) ∧
      (42 ≤ x.prec → |(c * c).value + (s * s).value - 1| ≤ 1 / 2 ^ 39) := by
  obtain ⟨θ, hlowacc, hhighacc⟩ := sinCos_near (by omega) hhigh h
  have hu := roundoff_pos x.prec
  have hu5 : roundoff x.prec ≤ 1 / 32 := (roundoff_anti hlow).trans (by rw [roundoff_eq]; norm_num)
  have hprec := prec_of_sinCos h
  have hsquare {y : BinFloat} (hy : y.prec = x.prec) :
      |(y * y).value - y.value ^ 2| ≤ roundoff x.prec * y.value ^ 2 := by
    have hround := (value_mul_within (x := y) (y := y) (p := x.prec) (by rw [hy, max_self])).sub_le
    rwa [← sq, abs_of_nonneg (sq_nonneg y.value)] at hround
  have hsum {a : ℝ} (hs : |s.value - Real.sin θ| ≤ a) (hc : |c.value - Real.cos θ| ≤ a) :
      |(c * c).value + (s * s).value - 1|
        ≤ 3 * a + 2 * a ^ 2 + roundoff x.prec * (1 + (3 * a + 2 * a ^ 2)) := by
    have hexact := abs_le.1 (abs_sum_sq_sub_one_le hs hc)
    have hscaled := mul_le_mul_of_nonneg_left hexact.2 hu.le
    have h1 := abs_le.1 (hsquare hprec.1)
    have h2 := abs_le.1 (hsquare hprec.2)
    exact abs_le.2 ⟨by linarith, by linarith⟩
  have hshort (h20 : x.prec ≤ 2 ^ 20) : |(c * c).value + (s * s).value - 1| ≤ 8 * roundoff x.prec := by
    obtain ⟨hs, hc⟩ := hlowacc h20
    refine (hsum hs hc).trans ?_
    nlinarith
  refine ⟨fun h41 => ?_, fun h42 => ?_⟩
  · rw [← mul_one_div, ← roundoff_eq]
    exact hshort (h41.trans (by norm_num))
  · rcases Nat.lt_or_ge x.prec 64 with h63 | h64
    · refine (hshort (h63.le.trans (by norm_num))).trans ?_
      have := (roundoff_anti h42).trans (roundoff_eq 42).le
      linarith
    · obtain ⟨hs, hc⟩ := hhighacc h64
      have hu64 := (roundoff_anti h64).trans (roundoff_eq 64).le
      refine (hsum hs hc).trans ?_
      nlinarith

end Angle

end CliffordT.BinFloat
