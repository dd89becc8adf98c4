/-
Power series of the odd powers over their indices.

With one sign it is the series of the inverse hyperbolic tangent, and with alternating signs that of the
arctangent: `oddTerm σ r j` is the term of index `2j + 1`, for `σ = 1` and `σ = -1`. The argument is at most 3/8,
so that the powers fall by a factor four, and it may carry a few rounding errors itself. Along the computed
series the relative error of the powers grows by a bounded number of units with each step, but the terms fall
faster than that, and the error of the sum grows by at most sixteen units of the argument. `OddInvariant` says so;
by it a series has come to its own end before its bound, and `oddSeries_spec` gives its sum.
-/
import Mathlib.Analysis.SpecificLimits.Basic
import CliffordT.Proofs.BinFloat.Series

namespace CliffordT.BinFloat

open Finset (range)

/-! ## The exact series -/

noncomputable def oddTerm (σ r : ℝ) (j : Nat) : ℝ := σ ^ j * (r ^ (2 * j + 1) / (2 * j + 1 : Nat))

noncomputable def oddSum (σ r : ℝ) (j : Nat) : ℝ := ∑ m ∈ range (j + 1), oddTerm σ r m

theorem oddSum_zero (σ r : ℝ) : oddSum σ r 0 = r := by
  simp [oddSum, oddTerm]

theorem oddSum_succ (σ r : ℝ) (j : Nat) : oddSum σ r (j + 1) = oddSum σ r j + oddTerm σ r (j + 1) :=
  Finset.sum_range_succ _ _

section Exact

variable {σ r : ℝ}

theorem sq_le_of_abs_le (hr : |r| ≤ 3 / 8) : r ^ 2 ≤ 9 / 64 := by
  rw [← sq_abs]
  nlinarith [abs_nonneg r]

/-- The powers fall by a factor four, and more. -/
theorem abs_oddPower_le (hr : |r| ≤ 3 / 8) (j n : Nat) :
    |r ^ (2 * (j + n) + 1)| ≤ |r ^ (2 * j + 1)| * (9 / 64) ^ n := by
  have hindex : 2 * (j + n) + 1 = (2 * j + 1) + 2 * n := by omega
  have hpow : (r ^ 2) ^ n ≤ (9 / 64) ^ n := pow_le_pow_left₀ (sq_nonneg r) (sq_le_of_abs_le hr) n
  rw [hindex, pow_add, abs_mul, pow_mul, abs_of_nonneg (by positivity : (0 : ℝ) ≤ (r ^ 2) ^ n)]
  exact mul_le_mul_of_nonneg_left hpow (abs_nonneg _)

theorem abs_oddPower_le_mul (hr : |r| ≤ 3 / 8) (n : Nat) : |r ^ (2 * n + 1)| ≤ |r| * (9 / 64) ^ n := by
  have h := abs_oddPower_le hr 0 n
  rwa [Nat.zero_add, Nat.mul_zero, Nat.zero_add, pow_one] at h

theorem abs_oddTerm (hσ : |σ| = 1) (r : ℝ) (j : Nat) :
    |oddTerm σ r j| = |r ^ (2 * j + 1)| / (2 * j + 1 : Nat) := by
  unfold oddTerm
  rw [abs_mul, abs_pow, hσ, one_pow, one_mul, abs_div, Nat.abs_cast]

theorem abs_oddTerm_le (hσ : |σ| = 1) (r : ℝ) (j : Nat) : |oddTerm σ r j| ≤ |r ^ (2 * j + 1)| := by
  rw [abs_oddTerm hσ]
  refine div_le_self (abs_nonneg _) ?_
  exact_mod_cast Nat.le_add_left 1 (2 * j)

theorem abs_oddSum_le (hσ : |σ| = 1) (hr : |r| ≤ 3 / 8) (j : Nat) : |oddSum σ r j| ≤ 3 / 2 * |r| := by
  have hstrong : |oddSum σ r j| ≤ |r| * (3 / 2 - 1 / 2 / 4 ^ j) := by
    induction j with
    | zero =>
      rw [oddSum_zero]
      linarith
    | succ j ih =>
      have hterm : |oddTerm σ r (j + 1)| ≤ |r| * (1 / 4) ^ (j + 1) :=
        ((abs_oddTerm_le hσ r (j + 1)).trans (abs_oddPower_le_mul hr (j + 1))).trans
          (mul_le_mul_of_nonneg_left (pow_le_pow_left₀ (by norm_num) (by norm_num) _) (abs_nonneg r))
      have hsplit : |r| * (3 / 2 - 1 / 2 / 4 ^ j) + |r| * (1 / 4) ^ (j + 1)
          = |r| * (3 / 2 - 1 / 4 / 4 ^ j) := by
        rw [one_div_pow, pow_succ]
        field_simp
        ring
      have hless : (1 : ℝ) / 2 / 4 ^ (j + 1) ≤ 1 / 4 / 4 ^ j := by
        rw [pow_succ, div_le_div_iff₀ (by positivity) (by positivity)]
        nlinarith [pow_pos (by norm_num : (0 : ℝ) < 4) j]
      rw [oddSum_succ]
      refine (abs_add_le _ _).trans ((add_le_add ih hterm).trans (hsplit.le.trans ?_))
      exact mul_le_mul_of_nonneg_left (by linarith) (abs_nonneg r)
  have hpos : 0 ≤ |r| * (1 / 2 / 4 ^ j) := by positivity
  linarith

/-- What is left after a term is at most the next power. -/
theorem abs_oddSum_sub_le {limit : ℝ} (hσ : |σ| = 1) (hr : |r| ≤ 3 / 8) (hlim : HasSum (oddTerm σ r) limit)
    (j : Nat) : |oddSum σ r j - limit| ≤ |r ^ (2 * j + 1)| * r ^ 2 := by
  have htendsto := (hlim.tendsto_sum_nat).comp (Filter.tendsto_add_atTop_nat (j + 1))
  have hdist := dist_le_of_le_geometric_two_of_tendsto₀ (C := |r ^ (2 * j + 1)| * r ^ 2) ?_ htendsto
  · rw [Real.dist_eq] at hdist
    simpa [oddSum] using hdist
  · intro n
    have hindex : n + 1 + (j + 1) = n + (j + 1) + 1 := by omega
    have hindex' : n + (j + 1) = j + 1 + n := by omega
    have hpower : |r ^ (2 * (j + 1 + n) + 1)| ≤ |r ^ (2 * j + 1)| * r ^ 2 / 2 ^ n := by
      have hnext : |r ^ (2 * (j + 1) + 1)| = |r ^ (2 * j + 1)| * r ^ 2 := by
        have hadd : 2 * (j + 1) + 1 = 2 * j + 1 + 2 := by omega
        rw [hadd, pow_add, abs_mul, abs_of_nonneg (sq_nonneg r)]
      rw [← hnext, div_eq_mul_one_div, ← one_div_pow]
      refine (abs_oddPower_le hr (j + 1) n).trans (mul_le_mul_of_nonneg_left ?_ (abs_nonneg _))
      exact pow_le_pow_left₀ (by norm_num) (by norm_num) n
    have hhalf : (2 : ℝ) ≤ (2 * (j + 1 + n) + 1 : Nat) := by exact_mod_cast by omega
    rw [Real.dist_eq, abs_sub_comm]
    simp only [Function.comp_apply]
    rw [hindex, Finset.sum_range_succ, add_sub_cancel_left, hindex', abs_oddTerm hσ, div_right_comm]
    exact div_le_div₀ (by positivity) hpower (by norm_num) hhalf

end Exact

/-! ## The computed series -/

/-- The step of a series of odd powers: the next power is the last one times `t2`, and it is added over its index,
with its sign. -/
structure SumsOddPowers (σ : ℝ) (t2 : BinFloat) (wp : Nat) (step : SeriesState → Option SeriesState) :
    Prop where
  done_iff : ∀ s, step s = none ↔ s.goesOn wp = false
  next : ∀ {s s' : SeriesState} {j : Nat}, s.index = 2 * j + 1 → step s = some s' →
    s'.term = s.term * t2 ∧ s'.index = s.index + 2 ∧ ∃ d : BinFloat, s'.sum = s.sum + d ∧
      d.prec = (s'.term / ofInt (s.index + 2 : Nat) wp).prec ∧
      d.value = σ ^ (j + 1) * (s'.term / ofInt (s.index + 2 : Nat) wp).value

/-- The inverse hyperbolic tangent has one sign. -/
theorem sumsOddPowers_atanhStep (t2 : BinFloat) (wp : Nat) : SumsOddPowers 1 t2 wp (atanhStep t2 wp) where
  done_iff s := by
    unfold atanhStep
    cases s.goesOn wp <;> simp
  next := by
    intro s s' j _ hstep
    unfold atanhStep at hstep
    split at hstep
    · cases hstep
      exact ⟨rfl, rfl, _, rfl, rfl, by rw [one_pow, one_mul]⟩
    · cases hstep

/-- The arctangent has alternating signs: the indices with remainder one come before those that are
subtracted. -/
theorem sumsOddPowers_atanStep (t2 : BinFloat) (wp : Nat) : SumsOddPowers (-1) t2 wp (atanStep t2 wp) where
  done_iff s := by
    unfold atanStep
    cases s.goesOn wp <;> simp
  next := by
    intro s s' j hindex hstep
    unfold atanStep at hstep
    split at hstep
    · cases hstep
      dsimp only
      rcases Nat.even_or_odd' j with ⟨k, rfl | rfl⟩
      · have hsign : s.index % 4 = 1 := by omega
        have hpow : (-1 : ℝ) ^ (2 * k + 1) = -1 := by rw [pow_succ, pow_mul, neg_one_sq, one_pow, one_mul]
        rw [if_pos hsign, hpow]
        exact ⟨rfl, rfl, _, rfl, rfl, by rw [value_neg, neg_one_mul]⟩
      · have hsign : ¬ s.index % 4 = 1 := by omega
        have hpow : (-1 : ℝ) ^ (2 * k + 1 + 1) = 1 := by
          have heven : 2 * k + 1 + 1 = 2 * (k + 1) := by ring
          rw [heven, pow_mul, neg_one_sq, one_pow]
        rw [if_neg hsign, hpow]
        exact ⟨rfl, rfl, _, rfl, rfl, by rw [one_mul]⟩
    · cases hstep

/-- The state after `j` steps of the series at `wp` bits, against the exact series for `r`. -/
structure OddInvariant (σ r : ℝ) (wp j : Nat) (s : SeriesState) : Prop where
  index : s.index = 2 * j + 1
  prec_term : s.term.prec = wp
  prec_sum : s.sum.prec = wp
  term : Within ((16 + 102 * j) * roundoff wp) s.term.value (r ^ (2 * j + 1))
  sum : |s.sum.value - oddSum σ r j| ≤ 16 * (j + 1 : Nat) * roundoff wp * |r|

section Computed

variable {σ r : ℝ} {wp : Nat}

theorem OddInvariant.start {t : BinFloat} (hprec : t.prec = wp) (ht : Within (16 * roundoff wp) t.value r) :
    OddInvariant σ r wp 0 ⟨t, 1, t⟩ where
  index := rfl
  prec_term := hprec
  prec_sum := hprec
  term := by
    rw [Nat.cast_zero, mul_zero, add_zero, Nat.mul_zero, Nat.zero_add, pow_one]
    exact ht
  sum := by
    rw [oddSum_zero, Nat.zero_add, Nat.cast_one, mul_one]
    exact ht.sub_le

/-- The next power. -/
theorem nextPower_within {j : Nat} {p t2 : BinFloat} (hp : p.prec = wp)
    (hsmall : (118 + 102 * j) * roundoff wp ≤ 1)
    (hpow : Within ((16 + 102 * j) * roundoff wp) p.value (r ^ (2 * j + 1)))
    (ht2 : Within (50 * roundoff wp) t2.value (r ^ 2)) :
    Within ((118 + 102 * j) * roundoff wp) (p * t2).value (r ^ (2 * (j + 1) + 1)) := by
  have hu := roundoff_pos wp
  have hindex : r ^ (2 * (j + 1) + 1) = r ^ (2 * j + 1) * r ^ 2 := by
    rw [← pow_add]
    congr 1
  have hexact := hpow.mul (by linarith) ht2
  have hround := value_mul_within (x := p) (y := t2) (p := wp) (hp ▸ le_max_left _ _)
  rw [hindex]
  exact (hround.trans hu.le (by linarith) hexact).mono (by linarith)

/-- The next power over its index. -/
theorem nextQuotient_within {j : Nat} {p : BinFloat} (hsmall : 128 * (j + 2 : Nat) * roundoff wp ≤ 1 / 2)
    (hp : p.prec = wp) (hpow : Within ((118 + 102 * j) * roundoff wp) p.value (r ^ (2 * (j + 1) + 1))) :
    Within ((126 + 102 * j) * roundoff wp) (p / ofInt (2 * (j + 1) + 1 : Nat) wp).value
      (r ^ (2 * (j + 1) + 1) / (2 * (j + 1) + 1 : Nat)) := by
  have hu := roundoff_pos wp
  push_cast at hsmall
  have hu1 : roundoff wp ≤ 1 / 2 ^ 9 := by nlinarith
  have hindex := value_ofInt_within ((2 * (j + 1) + 1 : Nat) : Int) wp
  rw [Int.cast_natCast] at hindex
  have hne : (ofInt ((2 * (j + 1) + 1 : Nat) : Int) wp).value ≠ 0 :=
    hindex.ne_zero (by linarith) (by positivity)
  exact ((value_div_within (x := p) (p := wp) (hp ▸ le_max_left _ _) hne).trans (by linarith)
    (by nlinarith) (hpow.div hu.le (by linarith) (by nlinarith) hindex)).mono (by linarith)

/-- The next sum: the power over its index is added or subtracted, with the roundings of both. -/
theorem nextOddSum_sub_le {j : Nat} {sum p d : BinFloat} (hσ : |σ| = 1) (hr : |r| ≤ 3 / 8)
    (hsmall : 128 * (j + 2 : Nat) * roundoff wp ≤ 1 / 2) (hprec : sum.prec = wp) (hp : p.prec = wp)
    (hsum : |sum.value - oddSum σ r j| ≤ 16 * (j + 1 : Nat) * roundoff wp * |r|)
    (hpow : Within ((118 + 102 * j) * roundoff wp) p.value (r ^ (2 * (j + 1) + 1)))
    (hd : d.value = σ ^ (j + 1) * (p / ofInt (2 * (j + 1) + 1 : Nat) wp).value) :
    |(sum + d).value - oddSum σ r (j + 1)| ≤ 16 * (j + 2 : Nat) * roundoff wp * |r| := by
  have hu := roundoff_pos wp
  have hj : (0 : ℝ) ≤ j := Nat.cast_nonneg j
  have hur : 0 ≤ roundoff wp * |r| := mul_nonneg hu.le (abs_nonneg r)
  have hquot : Within ((126 + 102 * j) * roundoff wp) d.value (oddTerm σ r (j + 1)) := by
    rw [hd]
    exact (nextQuotient_within hsmall hp hpow).const_mul (σ ^ (j + 1))
  push_cast at hsmall hsum
  -- the error of the term is relative to a term that falls with the index
  have hterm : |d.value - oddTerm σ r (j + 1)| ≤ 8 * (roundoff wp * |r|) := by
    have hpow' : |r ^ (2 * (j + 1) + 1)| ≤ |r| * (9 / 64) := by
      refine (abs_oddPower_le_mul hr (j + 1)).trans (mul_le_mul_of_nonneg_left ?_ (abs_nonneg r))
      exact pow_le_of_le_one (by norm_num) (by norm_num) (by omega)
    have hmul := mul_le_mul_of_nonneg_left hpow'
      (by positivity : 0 ≤ (126 + 102 * (j : ℝ)) * roundoff wp)
    have hjur := mul_nonneg hj hur
    refine hquot.sub_le.trans ?_
    rw [abs_oddTerm hσ, ← mul_div_assoc, div_le_iff₀ (by positivity)]
    push_cast
    linarith
  have hexact : |sum.value + d.value - oddSum σ r (j + 1)|
      ≤ 16 * (j + 1) * roundoff wp * |r| + 8 * (roundoff wp * |r|) := by
    rw [oddSum_succ, add_sub_add_comm]
    exact (abs_add_le _ _).trans (add_le_add hsum hterm)
  have hsmall' := mul_le_mul_of_nonneg_right hsmall (abs_nonneg r)
  have hlarge : |sum.value + d.value| ≤ 2 * |r| := by
    have hle := abs_oddSum_le hσ hr (j + 1)
    have htri := abs_sub_abs_le_abs_sub (sum.value + d.value) (oddSum σ r (j + 1))
    linarith [abs_nonneg r]
  have hround := (value_add_within (x := sum) (y := d) (p := wp)
    (hprec ▸ le_max_left _ _)).sub_le.trans (mul_le_mul_of_nonneg_left hlarge (by linarith))
  refine (abs_sub_le _ _ _).trans ((add_le_add hround hexact).trans ?_)
  push_cast
  linarith

/-- One step of the series. -/
theorem OddInvariant.step {j : Nat} {s s' : SeriesState} {t2 : BinFloat}
    {step : SeriesState → Option SeriesState} (hσ : |σ| = 1) (hr : |r| ≤ 3 / 8)
    (hsmall : 128 * (j + 2 : Nat) * roundoff wp ≤ 1 / 2)
    (ht2 : Within (50 * roundoff wp) t2.value (r ^ 2)) (hprec : t2.prec = wp)
    (hodd : SumsOddPowers σ t2 wp step) (hs : OddInvariant σ r wp j s) (hstep : step s = some s') :
    OddInvariant σ r wp (j + 1) s' := by
  obtain ⟨hterm, hindex, d, hsum, hdprec, hd⟩ := hodd.next hs.index hstep
  have hindex' : s.index + 2 = 2 * (j + 1) + 1 := by
    rw [hs.index]
    ring
  have hcast := hsmall
  push_cast at hcast
  have hpow := nextPower_within hs.prec_term (by nlinarith) hs.term ht2
  have hp : (s.term * t2).prec = wp := by simp [hs.prec_term, hprec]
  rw [← hterm] at hpow hp
  rw [hindex'] at hdprec hd
  refine ⟨hindex.trans hindex', hp, ?_, hpow.mono (le_of_eq ?_), ?_⟩
  · rw [hsum, prec_add, hs.prec_sum, hdprec, prec_div, prec_ofInt, hp, max_self, max_self]
  · push_cast
    ring
  · rw [hsum]
    exact nextOddSum_sub_le hσ hr hsmall hs.prec_sum hp hs.sum hpow hd

/-- The rounding errors of all steps are small together. -/
theorem seriesBound_mul_roundoff_le' (hwp : 34 ≤ wp) : (seriesBound wp : ℝ) * roundoff wp ≤ 1 / 2 ^ 28 := by
  obtain ⟨q, rfl⟩ : ∃ q, wp = q + 34 := ⟨wp - 34, by omega⟩
  have hq : ((q : ℝ) + 50) * roundoff q ≤ 64 := by
    have h1 := mul_roundoff_le_one q
    have h2 := roundoff_le_one q
    linarith
  rw [roundoff_add, roundoff_eq 34, seriesBound]
  push_cast
  linarith

/-- The relative error of a power stays below one half. -/
theorem OddInvariant.abs_power_le {j : Nat} {s : SeriesState} (hwp : 34 ≤ wp) (hj : j ≤ seriesBound wp)
    (hs : OddInvariant σ r wp j s) :
    |r ^ (2 * j + 1)| ≤ 2 * |s.term.value| ∧ |s.term.value| ≤ 2 * |r ^ (2 * j + 1)| := by
  have hu := roundoff_pos wp
  have hu1 : roundoff wp ≤ 1 / 2 ^ 34 := (roundoff_anti hwp).trans (roundoff_eq 34).le
  have hj' : (j : ℝ) ≤ seriesBound wp := by exact_mod_cast hj
  have hN := (mul_le_mul_of_nonneg_right hj' hu.le).trans (seriesBound_mul_roundoff_le' hwp)
  have hhalf := hs.term.mono (f := 1 / 2) (by linarith)
  constructor
  · linarith [hhalf.le_abs]
  · linarith [hhalf.abs_le, abs_nonneg (r ^ (2 * j + 1))]

/-- After as many steps as the bound allows, the power is below the last bit, so that the bound is never what ends
a series. -/
theorem OddInvariant.not_goesOn {s : SeriesState} (hr : |r| ≤ 3 / 8) (hwp : 34 ≤ wp)
    (hs : OddInvariant σ r wp (seriesBound wp) s) : s.goesOn wp = false := by
  refine Bool.eq_false_of_not_eq_true fun hgo => ?_
  have hu := roundoff_pos wp
  have hexact : |r ^ (2 * seriesBound wp + 1)| ≤ 1 / 2 ^ 16 * roundoff wp := by
    calc |r ^ (2 * seriesBound wp + 1)| ≤ |r| * (9 / 64) ^ seriesBound wp := abs_oddPower_le_mul hr _
      _ ≤ 1 * (1 / 2) ^ seriesBound wp :=
          mul_le_mul (by linarith) (pow_le_pow_left₀ (by norm_num) (by norm_num) _) (by positivity) zero_le_one
      _ = 1 / 2 ^ 16 * roundoff wp := by
          rw [one_mul, one_div_pow, seriesBound, pow_add, roundoff_eq]
          field_simp
  linarith [le_abs_term_of_goesOn hgo, (hs.abs_power_le hwp le_rfl).2]

/-- **A series of odd powers**, for an argument that is near `r`: it ends, and its sum is near the exact one,
relative to the argument. -/
theorem oddSeries_spec {t : BinFloat} {limit : ℝ} {step : SeriesState → Option SeriesState} (hσ : |σ| = 1)
    (hr : |r| ≤ 3 / 8) (hlim : HasSum (oddTerm σ r) limit) (hwp : 34 ≤ wp) (hprec : t.prec = wp)
    (ht : Within (16 * roundoff wp) t.value r) (hodd : SumsOddPowers σ (t * t) wp step) :
    step (iterate step (seriesBound wp) ⟨t, 1, t⟩) = none ∧
      |(iterate step (seriesBound wp) ⟨t, 1, t⟩).sum.value - limit|
        ≤ (16 * seriesBound wp + 17) * roundoff wp * |r| := by
  have hu := roundoff_pos wp
  have hN := seriesBound_mul_roundoff_le' hwp
  have hu1 : roundoff wp ≤ 1 / 2 ^ 34 := (roundoff_anti hwp).trans (roundoff_eq 34).le
  have ht2 : Within (50 * roundoff wp) (t * t).value (r ^ 2) := by
    have hexact := ht.mul (by linarith) ht
    have hround := value_mul_within (x := t) (y := t) (p := wp) (hprec ▸ le_max_left _ _)
    rw [sq]
    exact (hround.trans hu.le (by linarith) hexact).mono (by linarith)
  obtain ⟨j, hj, hinv, hend⟩ := iterate_preserves (n := seriesBound wp) (P := OddInvariant σ r wp)
    (fun j s s' hj hs hstep => hs.step hσ hr (by
      have hle : (j : ℝ) + 1 ≤ seriesBound wp := by exact_mod_cast hj
      push_cast
      nlinarith) ht2 (by simp [hprec]) hodd hstep) (.start hprec ht)
  generalize iterate step (seriesBound wp) ⟨t, 1, t⟩ = v at hinv hend ⊢
  have hdone : v.goesOn wp = false := by
    rcases hend with rfl | hnone
    · exact hinv.not_goesOn hr hwp
    · exact (hodd.done_iff v).1 hnone
  refine ⟨(hodd.done_iff v).2 hdone, ?_⟩
  have hlast : |r ^ (2 * j + 1)| * r ^ 2 ≤ roundoff wp * |r| := by
    have hpower := (hinv.abs_power_le hwp hj).1
    have hstop := abs_term_le_of_not_goesOn hdone
    have hsq : r ^ 2 ≤ |r| := by
      rw [← sq_abs]
      nlinarith [abs_nonneg r]
    exact mul_le_mul (by linarith) hsq (sq_nonneg r) hu.le
  have htail := (abs_oddSum_sub_le hσ hr hlim j).trans hlast
  have hsum := hinv.sum
  have hsteps : ((j + 1 : Nat) : ℝ) ≤ seriesBound wp + 1 := by exact_mod_cast Nat.succ_le_succ hj
  have hbound : 16 * ((j + 1 : Nat) : ℝ) * roundoff wp * |r| ≤ 16 * (seriesBound wp + 1) * roundoff wp * |r| := by
    gcongr
  calc |v.sum.value - limit| ≤ |v.sum.value - oddSum σ r j| + |oddSum σ r j - limit| := abs_sub_le _ _ _
    _ ≤ 16 * (seriesBound wp + 1) * roundoff wp * |r| + roundoff wp * |r| := add_le_add (hsum.trans hbound) htail
    _ = (16 * seriesBound wp + 17) * roundoff wp * |r| := by ring

end Computed

end CliffordT.BinFloat
