/-
The power series of sine and cosine, term by term.

`seriesTerm r i j` is the term of index `2j + i`, with `i = 0` for the cosine and `i = 1` for the
sine. For `r² ≤ 10`, which holds of every angle up to π, the terms stay below `17 / 2ʲ`, and what is
left after a term is at most 17 times that term. Along the computed series the relative error of the
term grows by twelve units with each step, and since the terms fall, the error of the sum grows by a
bounded number of units; `SeriesInvariant` says so. By it a series has come to its own end before its bound.
-/
import Mathlib.Analysis.SpecialFunctions.Trigonometric.Series
import Mathlib.Analysis.SpecificLimits.Basic
import CliffordT.BinFloat.Elementary
import CliffordT.Proofs.BinFloat.Rounding
import CliffordT.Proofs.Loop

namespace CliffordT.BinFloat

open Finset (range)

/-! ## The exact series -/

/-- The term of index `2j + i` of the series of sine and cosine. -/
noncomputable def seriesTerm (r : ℝ) (i j : Nat) : ℝ :=
  (-1) ^ j * r ^ (2 * j + i) / (2 * j + i).factorial

/-- The sum of the terms up to that of index `2j + i`. -/
noncomputable def seriesSum (r : ℝ) (i j : Nat) : ℝ := ∑ m ∈ range (j + 1), seriesTerm r i m

theorem seriesSum_zero (r : ℝ) (i : Nat) : seriesSum r i 0 = seriesTerm r i 0 := by
  simp [seriesSum]

theorem seriesSum_succ (r : ℝ) (i j : Nat) :
    seriesSum r i (j + 1) = seriesSum r i j + seriesTerm r i (j + 1) :=
  Finset.sum_range_succ _ _

theorem seriesTerm_zero_zero (r : ℝ) : seriesTerm r 0 0 = 1 := by
  simp [seriesTerm]

theorem seriesTerm_one_zero (r : ℝ) : seriesTerm r 1 0 = r := by
  simp [seriesTerm]

/-- A term is the one before it times `-r²`, over the next two indices. -/
theorem seriesTerm_succ (r : ℝ) (i j : Nat) :
    seriesTerm r i (j + 1)
      = -(seriesTerm r i j * r ^ 2 / ((2 * j + i + 1) * (2 * j + i + 2) : Nat)) := by
  have hindex : 2 * (j + 1) + i = 2 * j + i + 1 + 1 := by omega
  unfold seriesTerm
  rw [hindex, Nat.factorial_succ, Nat.factorial_succ]
  push_cast
  field_simp
  ring

theorem abs_seriesTerm_succ (r : ℝ) (i j : Nat) :
    |seriesTerm r i (j + 1)|
      = |seriesTerm r i j| * (r ^ 2 / ((2 * j + i + 1) * (2 * j + i + 2) : Nat)) := by
  have hpos : (0 : ℝ) ≤ r ^ 2 / ((2 * j + i + 1) * (2 * j + i + 2) : Nat) := by positivity
  rw [seriesTerm_succ, abs_neg, mul_div_assoc, abs_mul, abs_of_nonneg hpos]

variable {r : ℝ} {i : Nat}

/-- From one term to the next, with the index bounded below. -/
theorem abs_seriesTerm_succ_le (hr : r ^ 2 ≤ 10) {j d : Nat}
    (hd : d ≤ (2 * j + i + 1) * (2 * j + i + 2)) (hd0 : 0 < d) {t : ℝ}
    (ht : |seriesTerm r i j| ≤ t) : |seriesTerm r i (j + 1)| ≤ t * (10 / d) := by
  have hpos : (0 : ℝ) < d := by exact_mod_cast hd0
  have ht0 : 0 ≤ t := (abs_nonneg _).trans ht
  rw [abs_seriesTerm_succ]
  refine mul_le_mul ht ?_ (by positivity) ht0
  exact div_le_div₀ (by norm_num) hr hpos (by exact_mod_cast hd)

/-- The terms at least halve, up to a constant factor for the first ones. -/
theorem abs_seriesTerm_le (hr : r ^ 2 ≤ 10) (hi : i = 0 ∨ i = 1) (j : Nat) :
    |seriesTerm r i j| ≤ 17 / 2 ^ j := by
  -- the first three terms are bounded one by one
  have hfirst : |seriesTerm r i 0| ≤ 17 ∧ |seriesTerm r i 1| ≤ 17 / 2 ∧
      |seriesTerm r i 2| ≤ 17 / 4 := by
    rcases hi with rfl | rfl
    · have h0 : |seriesTerm r 0 0| ≤ 1 := by rw [seriesTerm_zero_zero, abs_one]
      have h1 := abs_seriesTerm_succ_le hr (d := 2) (by norm_num) (by norm_num) h0
      have h2 := abs_seriesTerm_succ_le hr (d := 12) (by norm_num) (by norm_num) h1
      refine ⟨h0.trans (by norm_num), h1.trans (by norm_num), h2.trans (by norm_num)⟩
    · have h0 : |seriesTerm r 1 0| ≤ 4 := by
        rw [seriesTerm_one_zero]
        exact abs_le_of_sq_le_sq (by linarith) (by norm_num)
      have h1 := abs_seriesTerm_succ_le hr (d := 6) (by norm_num) (by norm_num) h0
      have h2 := abs_seriesTerm_succ_le hr (d := 20) (by norm_num) (by norm_num) h1
      refine ⟨h0.trans (by norm_num), h1.trans (by norm_num), h2.trans (by norm_num)⟩
  rcases j with _ | _ | j
  · simpa using hfirst.1
  · simpa using hfirst.2.1
  · induction j with
    | zero => exact hfirst.2.2.trans (by norm_num)
    | succ j ih =>
      have hstep := abs_seriesTerm_succ_le hr (d := 20) (by nlinarith) (by norm_num) ih
      refine hstep.trans (le_of_eq ?_)
      rw [pow_succ _ (j + 1 + 1)]
      ring

theorem abs_seriesSum_le (hr : r ^ 2 ≤ 10) (hi : i = 0 ∨ i = 1) (j : Nat) :
    |seriesSum r i j| ≤ 34 := by
  have hstrong : |seriesSum r i j| ≤ 34 - 17 / 2 ^ j := by
    induction j with
    | zero =>
      rw [seriesSum_zero]
      exact (abs_seriesTerm_le hr hi 0).trans (by norm_num)
    | succ j ih =>
      rw [seriesSum_succ]
      refine (abs_add_le _ _).trans ((add_le_add ih (abs_seriesTerm_le hr hi (j + 1))).trans ?_)
      rw [pow_succ]
      apply le_of_eq
      field_simp
      ring
  have hpos : (0 : ℝ) ≤ 17 / 2 ^ j := by positivity
  linarith

/-- What is left after a term is at most 17 times that term. -/
theorem abs_seriesSum_sub_le (hr : r ^ 2 ≤ 10) {limit : ℝ}
    (hlim : HasSum (seriesTerm r i) limit) (j : Nat) :
    |seriesSum r i j - limit| ≤ 17 * |seriesTerm r i j| := by
  have hterm (m : Nat) : |seriesTerm r i (j + m)| ≤ |seriesTerm r i j| * (17 / 2 ^ m) := by
    have hfact : ((2 * j + i).factorial * (2 * m).factorial : ℝ)
        ≤ (2 * (j + m) + i).factorial := by
      have hdvd := Nat.factorial_mul_factorial_dvd_factorial_add (2 * j + i) (2 * m)
      have hle := Nat.le_of_dvd (Nat.factorial_pos _) hdvd
      have hindex : 2 * j + i + 2 * m = 2 * (j + m) + i := by omega
      rw [hindex] at hle
      exact_mod_cast hle
    have habs (n k : Nat) : |seriesTerm r n k| = |r| ^ (2 * k + n) / (2 * k + n).factorial := by
      unfold seriesTerm
      rw [abs_div, abs_mul, abs_pow, abs_neg, abs_one, one_pow, one_mul, abs_pow, Nat.abs_cast]
    have hzero := abs_seriesTerm_le hr (.inl rfl) m
    rw [habs] at hzero
    rw [habs, habs]
    calc |r| ^ (2 * (j + m) + i) / ((2 * (j + m) + i).factorial : ℝ)
        ≤ |r| ^ (2 * (j + m) + i) / ((2 * j + i).factorial * (2 * m).factorial) :=
          div_le_div_of_nonneg_left (by positivity) (by positivity) hfact
      _ = |r| ^ (2 * j + i) / (2 * j + i).factorial * (|r| ^ (2 * m + 0) / (2 * m + 0).factorial) := by
          have hindex : 2 * (j + m) + i = (2 * j + i) + (2 * m + 0) := by omega
          rw [hindex, pow_add, Nat.add_zero, mul_div_mul_comm]
      _ ≤ _ := mul_le_mul_of_nonneg_left hzero (by positivity)
  have htendsto := (hlim.tendsto_sum_nat).comp (Filter.tendsto_add_atTop_nat (j + 1))
  have hdist := dist_le_of_le_geometric_two_of_tendsto₀ (C := 17 * |seriesTerm r i j|) ?_ htendsto
  · rw [Real.dist_eq] at hdist
    simpa [seriesSum] using hdist
  · intro n
    have hn := hterm (n + 1)
    rw [Real.dist_eq, abs_sub_comm]
    simp only [Function.comp_apply]
    have hindex : n + 1 + (j + 1) = n + (j + 1) + 1 := by omega
    have hindex' : n + (j + 1) = j + (n + 1) := by omega
    rw [hindex, Finset.sum_range_succ, add_sub_cancel_left, hindex']
    refine hn.trans (le_of_eq ?_)
    rw [pow_succ]
    field_simp

/-! ## The computed series -/

/-- The state after `j` steps of the series at `wp` bits, against the exact series. -/
structure SeriesInvariant (r : ℝ) (i wp j : Nat) (s : SeriesState) : Prop where
  index : s.index = 2 * j + i
  prec_term : s.term.prec = wp
  prec_sum : s.sum.prec = wp
  term : Within (12 * j * roundoff wp) s.term.value (seriesTerm r i j)
  sum : |s.sum.value - seriesSum r i j| ≤ 180 * j * roundoff wp

theorem SeriesInvariant.start {wp : Nat} {x : BinFloat} (hprec : x.prec = wp)
    (hx : x.value = seriesTerm r i 0) : SeriesInvariant r i wp 0 ⟨x, i, x⟩ where
  index := by simp
  prec_term := hprec
  prec_sum := hprec
  term := by
    rw [hx]
    exact .refl (by simp) _
  sum := by
    rw [hx, seriesSum_zero, sub_self, abs_zero]
    simp

/-- The next term: a product, a quotient, and the roundings of both. -/
theorem nextTerm_within {wp j n : Nat} {t r2 : BinFloat} {τ : ℝ} (ht : t.prec = wp) (hn : n ≠ 0)
    (hbits : 4 ≤ wp) (hsmall : 12 * (j + 1 : Nat) * roundoff wp ≤ 1)
    (hterm : Within (12 * j * roundoff wp) t.value τ) (hr2 : Within (roundoff wp) r2.value (r ^ 2)) :
    Within (12 * (j + 1 : Nat) * roundoff wp) (-(t * r2 / ofInt (n : Int) wp)).value
      (-(τ * r ^ 2 / n)) := by
  have hη := roundoff_pos wp
  have hη' : roundoff wp ≤ 1 / 16 := by
    have hle := roundoff_anti hbits
    rw [roundoff_eq 4] at hle
    exact hle.trans (by norm_num)
  have he : 12 * (j + 1 : Nat) * roundoff wp = 12 * j * roundoff wp + 12 * roundoff wp := by
    push_cast
    ring
  rw [he] at hsmall ⊢
  have hprod := hterm.mul (by linarith) hr2
  have hmul := (value_mul_within (x := t) (y := r2) (ht ▸ le_max_left _ _)).trans hη.le
    (by linarith) hprod
  have hden : Within (roundoff wp) (ofInt (n : Int) wp).value n := by
    have h := value_ofInt_within (n : Int) wp
    rwa [Int.cast_natCast] at h
  have hden0 : (ofInt (n : Int) wp).value ≠ 0 := by
    have hpos : (0 : ℝ) < |(n : ℝ)| := abs_pos.2 (Nat.cast_ne_zero.2 hn)
    have hle := hden.le_abs
    exact abs_pos.1 (lt_of_lt_of_le (mul_pos (by linarith) hpos) hle)
  have hdiv := (value_div_within (x := t * r2) (y := ofInt (n : Int) wp) (p := wp) (by simp)
    hden0).trans (by linarith) (by linarith) (hmul.div hη.le (by linarith) (by linarith) hden)
  rw [value_neg]
  exact hdiv.neg.mono (by linarith)

/-- The next sum: the new term has a small error, and so has the rounding of the addition. -/
theorem nextSum_sub_le {wp j : Nat} {sum x : BinFloat} (hr : r ^ 2 ≤ 10) (hi : i = 0 ∨ i = 1)
    (hsmall : 180 * (j + 1 : Nat) * roundoff wp ≤ 1) (hprec : sum.prec = wp)
    (hsum : |sum.value - seriesSum r i j| ≤ 180 * j * roundoff wp)
    (hx : Within (12 * (j + 1 : Nat) * roundoff wp) x.value (seriesTerm r i (j + 1))) :
    |(sum + x).value - seriesSum r i (j + 1)| ≤ 180 * (j + 1 : Nat) * roundoff wp := by
  have hη := roundoff_pos wp
  have hterm : |x.value - seriesTerm r i (j + 1)| ≤ 102 * roundoff wp := by
    refine hx.sub_le.trans ?_
    have hle := abs_seriesTerm_le hr hi (j + 1)
    have hpow : ((j + 1 : Nat) : ℝ) ≤ 2 ^ j := by exact_mod_cast Nat.lt_two_pow_self
    calc 12 * ((j + 1 : Nat) : ℝ) * roundoff wp * |seriesTerm r i (j + 1)|
        ≤ 12 * 2 ^ j * roundoff wp * (17 / 2 ^ (j + 1)) := by gcongr
      _ = 102 * roundoff wp := by
          rw [pow_succ]
          field_simp
          ring
  have hexact : |sum.value + x.value - seriesSum r i (j + 1)|
      ≤ 180 * j * roundoff wp + 102 * roundoff wp := by
    rw [seriesSum_succ, add_sub_add_comm]
    exact (abs_add_le _ _).trans (add_le_add hsum hterm)
  push_cast at hsmall
  have hlarge : |sum.value + x.value| ≤ 35 := by
    have hle := abs_seriesSum_le hr hi (j + 1)
    have htri := abs_sub_abs_le_abs_sub (sum.value + x.value) (seriesSum r i (j + 1))
    linarith
  have hround := (value_add_within (x := sum) (y := x) (p := wp)
    (hprec ▸ le_max_left _ _)).sub_le
  calc |(sum + x).value - seriesSum r i (j + 1)|
      ≤ |(sum + x).value - (sum.value + x.value)|
        + |sum.value + x.value - seriesSum r i (j + 1)| := abs_sub_le _ _ _
    _ ≤ 2 * roundoff wp * 35 + (180 * j * roundoff wp + 102 * roundoff wp) :=
        add_le_add (hround.trans (mul_le_mul_of_nonneg_left hlarge (by linarith))) hexact
    _ ≤ 180 * (j + 1 : Nat) * roundoff wp := by
        push_cast
        linarith

/-- One step of the series. -/
theorem SeriesInvariant.step {wp j : Nat} {s s' : SeriesState} {r2 : BinFloat} (hr : r ^ 2 ≤ 10)
    (hi : i = 0 ∨ i = 1) (hbits : 4 ≤ wp) (hsmall : 180 * (j + 1 : Nat) * roundoff wp ≤ 1)
    (hr2 : Within (roundoff wp) r2.value (r ^ 2)) (hprec : r2.prec = wp)
    (hs : SeriesInvariant r i wp j s) (hstep : trigStep r2 wp s = some s') :
    SeriesInvariant r i wp (j + 1) s' := by
  unfold trigStep at hstep
  split at hstep
  · have hn : (s.index + 1) * (s.index + 2) ≠ 0 := by positivity
    have hterm := nextTerm_within hs.prec_term hn hbits (by linarith) hs.term hr2
    rw [hs.index, ← seriesTerm_succ, ← hs.index] at hterm
    cases hstep
    refine ⟨?_, ?_, ?_, hterm, nextSum_sub_le hr hi hsmall hs.prec_sum hs.sum hterm⟩
    · rw [hs.index]
      ring
    · simp [hs.prec_term, hprec]
    · simp [hs.prec_sum, hs.prec_term, hprec]
  · cases hstep

theorem trigStep_eq_none_iff {r2 : BinFloat} {wp : Nat} {s : SeriesState} :
    trigStep r2 wp s = none ↔ s.goesOn wp = false := by
  unfold trigStep
  cases s.goesOn wp <;> simp

/-- The bit position at which the series stop. -/
theorem two_zpow_cutoff (wp : Nat) : (2 : ℝ) ^ (-(wp : ℤ) - 4) = 1 / 16 * roundoff wp := by
  have h16 : (2 : ℝ) ^ (-4 : ℤ) = 1 / 16 := by norm_num
  rw [sub_eq_add_neg, two_zpow_add, h16, mul_comm, roundoff]

/-- The series stops at a term below the last bit. -/
theorem abs_term_le_of_not_goesOn {wp : Nat} {s : SeriesState} (h : s.goesOn wp = false) :
    |s.term.value| ≤ 1 / 16 * roundoff wp := by
  unfold SeriesState.goesOn at h
  rw [Bool.and_eq_false_iff, Bool.not_eq_false', decide_eq_false_iff_not, not_lt] at h
  rw [← two_zpow_cutoff]
  rcases h with hzero | htop
  · rw [isZero_iff.1 hzero, abs_zero]
    positivity
  · exact (abs_value_lt_top _).le.trans (zpow_le_zpow_right₀ (by norm_num) htop)

/-- A term that the series goes on from is not below that. -/
theorem le_abs_term_of_goesOn {wp : Nat} {s : SeriesState} (h : s.goesOn wp = true) :
    1 / 16 * roundoff wp ≤ |s.term.value| := by
  unfold SeriesState.goesOn at h
  rw [Bool.and_eq_true, Bool.not_eq_true', decide_eq_true_iff] at h
  have hmant : s.term.mant ≠ 0 := by
    rw [← value_eq_zero_iff.ne, ← isZero_iff.ne, h.1]
    exact Bool.false_ne_true
  rw [← two_zpow_cutoff]
  exact (zpow_le_zpow_right₀ (by norm_num) (by omega)).trans (two_zpow_top_le hmant)

/-- After as many steps as the bound allows, the term is below the last bit, so that the bound is never what ends
a series. -/
theorem SeriesInvariant.not_goesOn {wp : Nat} {s : SeriesState} (hr : r ^ 2 ≤ 10) (hi : i = 0 ∨ i = 1)
    (hsmall : 180 * (seriesBound wp : ℝ) * roundoff wp ≤ 1)
    (hs : SeriesInvariant r i wp (seriesBound wp) s) : s.goesOn wp = false := by
  refine Bool.eq_false_of_not_eq_true fun hgo => ?_
  have hη := roundoff_pos wp
  -- the sixteen steps beyond the bits are for the constant factor of the first terms
  have hexact : |seriesTerm r i (seriesBound wp)| ≤ 17 / 2 ^ 16 * roundoff wp := by
    refine (abs_seriesTerm_le hr hi _).trans (le_of_eq ?_)
    rw [seriesBound, pow_add, roundoff_eq]
    field_simp
  have hterm : |s.term.value| ≤ 2 * (17 / 2 ^ 16 * roundoff wp) := by
    refine hs.term.abs_le.trans (mul_le_mul ?_ hexact (abs_nonneg _) (by norm_num))
    linarith
  linarith [le_abs_term_of_goesOn hgo]

/-- The series is run until its terms are below the last bit, and then next to nothing is left. -/
theorem series_spec {wp : Nat} {s : SeriesState} {r2 : BinFloat} {limit : ℝ} (hr : r ^ 2 ≤ 10)
    (hi : i = 0 ∨ i = 1) (hlim : HasSum (seriesTerm r i) limit) (hbits : 4 ≤ wp)
    (hsmall : 180 * (seriesBound wp : ℝ) * roundoff wp ≤ 1)
    (hr2 : Within (roundoff wp) r2.value (r ^ 2)) (hprec : r2.prec = wp)
    (hs : SeriesInvariant r i wp 0 s) :
    trigStep r2 wp (iterate (trigStep r2 wp) (seriesBound wp) s) = none ∧
      |(iterate (trigStep r2 wp) (seriesBound wp) s).sum.value - limit|
        ≤ (180 * seriesBound wp + 3) * roundoff wp := by
  have hη := roundoff_pos wp
  obtain ⟨j, hj, hinv, hend⟩ := iterate_preserves (P := SeriesInvariant r i wp)
    (fun j s s' hj hs hstep => hs.step hr hi hbits (by
      have hle : ((j + 1 : Nat) : ℝ) ≤ seriesBound wp := by exact_mod_cast hj
      exact le_trans (by gcongr) hsmall) hr2 hprec hstep) hs
  generalize iterate (trigStep r2 wp) (seriesBound wp) s = v at hinv hend
  have hdone : v.goesOn wp = false := by
    rcases hend with rfl | hnone
    · exact hinv.not_goesOn hr hi hsmall
    · exact trigStep_eq_none_iff.1 hnone
  refine ⟨trigStep_eq_none_iff.2 hdone, ?_⟩
  have hj' : (j : ℝ) ≤ seriesBound wp := by exact_mod_cast hj
  have hrest : |seriesTerm r i j| ≤ 3 / 17 * roundoff wp := by
    have hstop := abs_term_le_of_not_goesOn hdone
    have hle := hinv.term.le_abs
    have herr : 12 * (j : ℝ) * roundoff wp ≤ 1 / 2 := by
      nlinarith
    nlinarith [abs_nonneg (seriesTerm r i j)]
  have htail := (abs_seriesSum_sub_le hr hlim j).trans (mul_le_mul_of_nonneg_left hrest (by norm_num))
  calc |v.sum.value - limit| ≤ |v.sum.value - seriesSum r i j| + |seriesSum r i j - limit| :=
        abs_sub_le _ _ _
    _ ≤ 180 * j * roundoff wp + 17 * (3 / 17 * roundoff wp) := add_le_add hinv.sum htail
    _ ≤ (180 * seriesBound wp + 3) * roundoff wp := by nlinarith

end CliffordT.BinFloat
