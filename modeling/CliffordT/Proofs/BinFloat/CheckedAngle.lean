/-
The angle of a point, with exponents of 64 bits.

The loops of the arctangent, without bounds on their length, end: each of their steps is the one with exponents of any
size, or ends the loop. What the angle is, where it is given, is known from there. It remains to see that it is
given, for coordinates whose bits lie between the positions `-2⁶⁰` and `2⁶⁰`. The quotient of the coordinates is at
most about one, but its exponent may be as low as `-2⁶¹`, and its square still fits. A tangent that is halved has few
bits below its leading one, and so have the powers in the series, as long as they reach above the last working bit;
the bits of a tangent that does not are left alone.
-/
import CliffordT.Proofs.BinFloat.Angle
import CliffordT.Proofs.BinFloat.Spans

namespace CliffordT.Checked

open BinFloat

/-! ## The loops -/

section Loops

variable {α : Type} {step : α → Except Fault (Option α)} {plain : α → Option α} {s v : α}

/-- One round of a loop whose body can fail. The loop is left with the state on which the body is done, or with the
fault. -/
def untilDone (step : α → Except Fault (Option α)) (s : α) : α ⊕ Except Fault α :=
  match step s with
  | .ok (some s') => .inl s'
  | .ok none => .inr (.ok s)
  | .error e => .inr (.error e)

/-- A loop ends where its steps agree with those of a loop that ends. -/
theorem exists_loopEnds (h : ∀ s, Agrees (step s) (plain s)) (hend : LoopEnds (CliffordT.untilDone plain) s v) :
    ∃ o, LoopEnds (untilDone step) s o ∧ Agrees o v := by
  have hearly {s : α} (hs : step s = .error .overflow) : ∃ o, LoopEnds (untilDone step) s o ∧ Agrees o v :=
    ⟨_, .done (by rw [untilDone, hs]), .overflow v⟩
  induction hend with
  | @done s v hdone =>
    cases hnext : plain s with
    | some s' => simp [CliffordT.untilDone, hnext] at hdone
    | none =>
      have hv : s = v := by simpa [CliffordT.untilDone, hnext] using hdone
      rcases h s with hs | hs
      · exact ⟨.ok s, .done (by rw [untilDone, hs, hnext]), hv ▸ .ok s⟩
      · exact hearly hs
  | @next s s' v hgoes rest ih =>
    cases hnext : plain s with
    | none => simp [CliffordT.untilDone, hnext] at hgoes
    | some s'' =>
      have hs' : s'' = s' := by simpa [CliffordT.untilDone, hnext] using hgoes
      rcases h s with hs | hs
      · obtain ⟨o, ho, hagrees⟩ := ih hearly
        exact ⟨o, .next (by rw [untilDone, hs, hnext, hs']) ho, hagrees⟩
      · exact hearly hs

/-- A run gives a result where every step does that it makes. -/
theorem iterate_eq_ok {P : Nat → α → Prop} {n : Nat} (hs : P 0 s)
    (hstep : ∀ j s, j < n → P j s → step s = .ok (plain s))
    (hkeep : ∀ j s s', j < n → P j s → plain s = some s' → P (j + 1) s') :
    ∃ j, j ≤ n ∧ iterate step n s = .ok (CliffordT.iterate plain n s) ∧ P j (CliffordT.iterate plain n s) := by
  induction n generalizing s P with
  | zero => exact ⟨0, le_rfl, rfl, hs⟩
  | succ n ih =>
    have hfirst := hstep 0 s n.succ_pos hs
    unfold iterate CliffordT.iterate
    cases hnext : plain s with
    | none => exact ⟨0, Nat.zero_le _, by rw [hfirst, hnext]; rfl, hs⟩
    | some s' =>
      obtain ⟨j, hj, hrun, hend⟩ := ih (P := fun j s => P (j + 1) s) (hkeep 0 s s' n.succ_pos hs hnext)
        (fun j s hj => hstep (j + 1) s (Nat.succ_lt_succ hj))
        (fun j s s' hj => hkeep (j + 1) s s' (Nat.succ_lt_succ hj))
      exact ⟨j + 1, Nat.succ_le_succ hj, by rw [hfirst, hnext]; exact hrun, hend⟩

end Loops

/-! ## The arctangent -/

section Arctangent

variable {x y t : BinFloat} {wp : Nat}

theorem value_sqrt_nonneg (hx : 1 ≤ x.prec) : 0 ≤ x.sqrt.value := by
  rcases le_or_gt x.value 0 with h | h
  · exact (value_sqrt_of_nonpos h).ge
  · have hzero : HasBits x.prec 0 := ⟨0, 0, by simp, by simp⟩
    exact hzero.isNearest_self.monotone (isNearest_sqrt hx h) (Real.sqrt_nonneg _)

/-- The denominator of a halved tangent. -/
theorem value_one_add_root_ne_zero (hwp : 2 ≤ wp) (t : BinFloat) :
    (one wp + (one wp + t * t).sqrt).value ≠ 0 := by
  have hu := roundoff_le_quarter hwp
  have hprec : wp ≤ (one wp + t * t).prec := by simp
  have hsum := value_add_within (x := one wp) (y := (one wp + t * t).sqrt) (p := wp) (by simp)
  rw [value_one] at hsum
  have hroot := value_sqrt_nonneg (x := one wp + t * t) (by omega)
  exact hsum.ne_zero (by linarith) (by linarith)

theorem agrees_halveAngle (hwp : 2 ≤ wp) (s : BinFloat × Nat) :
    Agrees (halveAngle (one wp) s) (BinFloat.halveAngle (one wp) s) := by
  obtain ⟨t, count⟩ := s
  unfold halveAngle BinFloat.halveAngle
  refine (agrees_reaches t (-4)).bind ?_
  dsimp only
  split
  · refine (agrees_mul t t).bind ((agrees_add _ _).bind ((agrees_sqrt _).bind ((agrees_add _ _).bind ?_)))
    exact (agrees_div t (value_one_add_root_ne_zero hwp t)).bind (.ok _)
  · exact .ok none

theorem value_ofInt_index_ne_zero (hwp : 1 ≤ wp) (n : Nat) : (ofInt (n + 2 : Nat) wp).value ≠ 0 := by
  have hu := roundoff_anti hwp
  rw [roundoff_eq 1, pow_one] at hu
  refine (value_ofInt_within ((n + 2 : Nat) : Int) wp).ne_zero (by linarith) ?_
  exact_mod_cast (n + 1).succ_ne_zero

theorem agrees_atanStep (hwp : 1 ≤ wp) (t2 : BinFloat) (s : SeriesState) :
    Agrees (atanStep t2 wp s) (BinFloat.atanStep t2 wp s) := by
  unfold atanStep BinFloat.atanStep
  refine (agrees_reaches s.term _).bind ?_
  rw [SeriesState.goesOn]
  split
  · refine (agrees_mul _ _).bind ((agrees_div _ (value_ofInt_index_ne_zero hwp s.index)).bind ?_)
    dsimp only
    split
    · exact (agrees_sub _ _).bind (.ok _)
    · exact (agrees_add _ _).bind (.ok _)
  · exact .ok none

theorem agrees_atan (x : BinFloat) : Agrees (atan x) x.atan := by
  unfold atan BinFloat.atan
  dsimp only
  split
  · exact .overflow _
  · refine (agrees_withPrec x _).bind ((agrees_iterate (agrees_halveAngle (by omega)) _ _).bind ?_)
    generalize CliffordT.iterate (BinFloat.halveAngle _) _ _ = h
    obtain ⟨t, count⟩ := h
    refine (agrees_mul t t).bind ((agrees_iterate (agrees_atanStep (by omega) _) _ _).bind ?_)
    exact (agrees_scaleTwo _ _).bind (agrees_withPrec _ _)

theorem agrees_atan2 (y x : BinFloat) : Agrees (atan2 y x) (BinFloat.atan2 y x) := by
  unfold atan2 BinFloat.atan2
  dsimp only
  split
  · exact .ok _
  · rename_i hzero
    refine (agrees_cmp _ _).bind ?_
    by_cases hle : y.abs ≤ x.abs
    · have hx : x.value ≠ 0 := fun h => hzero (by
        rw [le_iff_value, value_abs, value_abs, h, abs_zero, abs_nonpos_iff] at hle
        rw [isZero_iff.2 h, isZero_iff.2 hle]
        rfl)
      rw [if_pos hle, if_pos (show y.abs.cmp x.abs ≠ .gt from hle)]
      refine (agrees_div y hx).bind ((agrees_atan _).bind ?_)
      split
      · exact .ok _
      · split
        · exact agrees_sub _ _
        · exact agrees_add _ _
    · have hy : y.value ≠ 0 := fun h => hle (by
        rw [le_iff_value, value_abs, value_abs, h, abs_zero]
        exact abs_nonneg _)
      rw [if_neg hle, if_neg (show ¬ y.abs.cmp x.abs ≠ .gt from hle)]
      refine (agrees_div x hy).bind ((agrees_atan _).bind ((agrees_scaleTwo _ _).bind ?_))
      split
      · exact agrees_sub _ _
      · exact agrees_sub _ _

/-- The loops of the arctangent, without bounds on their length, end: the halving, with the tangent that the
series starts from unless an exponent does not fit, and the series. -/
def AtanEnds (x : BinFloat) : Prop :=
  ∃ h, LoopEnds (untilDone (halveAngle (one (x.prec + 32)))) (x.withPrec (x.prec + 32), 0) h ∧
    ∀ t count, h = .ok (t, count) →
      ∃ s, LoopEnds (untilDone (atanStep (t * t) (x.prec + 32))) ⟨t, 1, t⟩ s ∧
        ∀ v, s = .ok v → x.atan = (v.sum.scaleTwo count).withPrec x.prec

theorem atanEnds (hlow : 2 ≤ x.prec) (hhigh : x.prec ≤ 2 ^ 20) : AtanEnds x := by
  obtain ⟨t, count, v, hhalving, hseries, hatan⟩ := (atan_spec hlow hhigh).1
  obtain ⟨h, hends, hagrees⟩ := exists_loopEnds (agrees_halveAngle (by omega)) hhalving
  refine ⟨h, hends, fun t' count' hh => ?_⟩
  cases hagrees.eq_of_ok hh
  obtain ⟨s, hends', hagrees'⟩ := exists_loopEnds (agrees_atanStep (by omega) (t * t)) hseries
  refine ⟨s, hends', fun v' hv' => ?_⟩
  rw [hagrees'.eq_of_ok hv']
  exact hatan

/-! ### Where it is given -/

theorem reaches_eq_ok {b : Int} (h : x.Spans b) (hb : b < 2 ^ 63) (e : Int) :
    reaches x e = .ok (!x.isZero && e < x.top) := by
  unfold reaches
  rw [top_eq_ok h hb]
  cases x.isZero with
  | true => rfl
  | false => rfl

/-- A number with `wp` bits that is not large, and whose bits lie between the positions `-b` and `b`. -/
structure Tame (wp : Nat) (b : Int) (t : BinFloat) : Prop where
  prec : t.prec = wp
  fits : t.FitsPrecision
  small : |t.value| ≤ 2
  spans : t.Spans b

/-- What reaches above a position has all of its bits close to it. -/
theorem Tame.spans_of_reaches {b e : Int} (h : Tame wp b t) (he : e ≤ -4)
    (hgo : (!t.isZero && decide (e < t.top)) = true) : t.Spans (wp - e) := by
  rw [Bool.and_eq_true, Bool.not_eq_true', decide_eq_true_iff] at hgo
  have hne : t.value ≠ 0 := fun h0 => by
    rw [isZero_iff.2 h0] at hgo
    exact Bool.noConfusion hgo.1
  have hlen := h.fits.bitLength_le
  have hhigh := top_le_of_abs_value_lt (k := 2) hne (h.small.trans_lt (by norm_num))
  have htop : t.top = t.exp + bitLength t.mant := rfl
  rw [h.prec] at hlen
  exact ⟨by omega, by omega⟩

/-- The ranges along a halving. -/
theorem spans_halved {c : Int} (h : t.Spans c) (hprec : t.prec = wp) (hc : 1 ≤ c) :
    (one wp + t * t).Spans (2 * c + 3) ∧ (one wp + t * t).sqrt.Spans (2 * c + wp + 5) ∧
      (one wp + (one wp + t * t).sqrt).Spans (2 * c + wp + 7) := by
  have hsq : (t * t).Spans (2 * c + 1) := (h.mul h).mono (by omega)
  have hradicand : (one wp + t * t).Spans (2 * c + 3) := ((spans_one wp (by omega)).add hsq).mono (by omega)
  have hroot : (one wp + t * t).sqrt.Spans (2 * c + wp + 5) := by
    refine hradicand.sqrt.mono ?_
    rw [prec_add, prec_one, prec_mul, hprec, max_self, max_self]
    omega
  exact ⟨hradicand, hroot, ((spans_one wp (by omega)).add hroot).mono (by omega)⟩

theorem halveAngle_eq_ok {b : Int} {count : Nat} (h : Tame wp b t) (hb : b < 2 ^ 63) (hwp : 2 ≤ wp)
    (hwp' : wp ≤ 2 ^ 40) :
    halveAngle (one wp) (t, count) = .ok (BinFloat.halveAngle (one wp) (t, count)) := by
  refine (agrees_halveAngle hwp _).eq_ok ?_
  unfold halveAngle
  dsimp only
  rw [reaches_eq_ok h.spans hb, ok_bind]
  split
  · rename_i hgo
    have ht := h.spans_of_reaches le_rfl hgo
    obtain ⟨hradicand, hroot, hden⟩ := spans_halved ht h.prec (by omega)
    have hprec : (t * t).prec = wp := by rw [prec_mul, h.prec, max_self]
    have hprec' : (one wp + t * t).prec = wp := by rw [prec_add, prec_one, hprec, max_self]
    have hprec'' : (one wp + (one wp + t * t).sqrt).prec = wp := by rw [prec_add, prec_one, prec_sqrt, hprec', max_self]
    rw [mul_eq_ok ht ht (by omega), ok_bind,
      add_eq_ok (spans_one wp (by omega)) (ht.mul ht) (by rw [hprec, prec_one, max_self]; omega), ok_bind,
      sqrt_eq_ok hradicand (by rw [hprec']; omega), ok_bind,
      add_eq_ok (spans_one wp (by omega)) hroot (by rw [prec_sqrt, hprec', prec_one, max_self]; omega), ok_bind,
      div_eq_ok ht hden (value_one_add_root_ne_zero hwp t) (by rw [h.prec, hprec'', max_self]; omega)]
    exact ⟨_, rfl⟩
  · exact ⟨_, rfl⟩

/-- A halving leaves less than one, and few bits below the leading one. -/
theorem Tame.halved {b : Int} {count : Nat} {s : BinFloat × Nat} (h : Tame wp b t) (hwp : 34 ≤ wp)
    (hb : 5 * wp + 21 ≤ b) (hs : BinFloat.halveAngle (one wp) (t, count) = some s) :
    Tame wp b s.1 ∧ s.2 = count + 1 := by
  unfold BinFloat.halveAngle at hs
  dsimp only at hs
  split at hs
  · rename_i hgo
    cases hs
    have ht := h.spans_of_reaches le_rfl hgo
    obtain ⟨-, -, hden⟩ := spans_halved ht h.prec (by omega)
    have hprec : max t.prec (one wp + (one wp + t * t).sqrt).prec = wp := by simp [h.prec]
    refine ⟨⟨by rw [prec_div, hprec], fits_div _ _, ?_, ?_⟩, rfl⟩
    · have hu := roundoff_pos wp
      have hu1 : roundoff wp ≤ 1 / 2 ^ 34 := (roundoff_anti hwp).trans (roundoff_eq 34).le
      have hbound := (halved_within hwp h.prec).abs_le
      have hone := abs_halfTangent_lt_one t.value
      nlinarith [abs_nonneg (halfTangent t.value)]
    · refine (ht.div hden (value_one_add_root_ne_zero (by omega) t)).mono ?_
      rw [hprec]
      omega
  · cases hs

/-- The state of the series after `j` terms. The powers do not grow, and the sum by two bits a term. -/
structure TameSeries (wp j : Nat) (s : SeriesState) : Prop where
  term : Tame wp (6 * wp + 14) s.term
  index : s.index = 2 * j + 1
  prec : s.sum.prec = wp
  sum : s.sum.Spans (7 * wp + 40 + 2 * j)

section Step

variable {t2 : BinFloat} {j : Nat} {s s' : SeriesState}

/-- The power and the term that a step makes, for a power that reaches above the last working bit. -/
theorem TameSeries.spans_power (h : TameSeries wp j s) (ht2 : t2.Spans (4 * wp + 9)) (hp2 : t2.prec = wp)
    (hj : j < seriesBound wp) (hwp : 1 ≤ wp) (hwp' : wp ≤ 2 ^ 21) (hgo : s.goesOn wp = true) :
    s.term.Spans (2 * wp + 4) ∧ (s.term * t2).Spans (6 * wp + 14) ∧ (s.term * t2).prec = wp ∧
      (ofInt (s.index + 2 : Nat) wp).Spans 24 ∧ (s.term * t2 / ofInt (s.index + 2 : Nat) wp).Spans (7 * wp + 40) ∧
      (s.term * t2 / ofInt (s.index + 2 : Nat) wp).prec = wp := by
  have hterm : s.term.Spans (2 * wp + 4) := (h.term.spans_of_reaches (by omega) hgo).mono (by omega)
  have hpower : (s.term * t2).Spans (6 * wp + 14) := (hterm.mul ht2).mono (by omega)
  have hprec : (s.term * t2).prec = wp := by rw [prec_mul, h.term.prec, hp2, max_self]
  have hindex : (ofInt (s.index + 2 : Nat) wp).Spans 24 := by
    have hlen : bitLength ((s.index + 2 : Nat) : Int) ≤ 23 := by
      refine bitLength_le ((Int.natAbs_natCast _).trans_lt ?_)
      rw [h.index]
      unfold seriesBound at hj
      omega
    exact spans_ofScaled (by omega) (by omega)
  refine ⟨hterm, hpower, hprec, hindex, ?_, by rw [prec_div, hprec, prec_ofInt, max_self]⟩
  refine (hpower.div hindex (value_ofInt_index_ne_zero hwp s.index)).mono ?_
  rw [hprec, prec_ofInt, max_self]
  omega

theorem TameSeries.step_eq_ok (h : TameSeries wp j s) (ht2 : t2.Spans (4 * wp + 9)) (hp2 : t2.prec = wp)
    (hj : j < seriesBound wp) (hwp : 1 ≤ wp) (hwp' : wp ≤ 2 ^ 21) :
    atanStep t2 wp s = .ok (BinFloat.atanStep t2 wp s) := by
  refine (agrees_atanStep hwp t2 s).eq_ok ?_
  unfold atanStep
  rw [reaches_eq_ok h.term.spans (by omega), ok_bind]
  split
  · rename_i hgo
    obtain ⟨hterm, hpower, hprec, hindex, hquot, hprec'⟩ := h.spans_power ht2 hp2 hj hwp hwp' hgo
    unfold seriesBound at hj
    have hadd : 2 * (7 * wp + 40 + 2 * j : Int) + max s.sum.prec (s.term * t2 / ofInt (s.index + 2 : Nat) wp).prec + 2
        < 2 ^ 63 := by
      rw [h.prec, hprec', max_self]
      omega
    rw [mul_eq_ok hterm ht2 (by omega), ok_bind,
      div_eq_ok hpower hindex (value_ofInt_index_ne_zero hwp s.index)
        (by rw [hprec, prec_ofInt, max_self]; omega), ok_bind]
    dsimp only
    split
    · exact ⟨_, by rw [sub_eq_ok h.sum (hquot.mono (by omega)) hadd]; rfl⟩
    · exact ⟨_, by rw [add_eq_ok h.sum (hquot.mono (by omega)) hadd]; rfl⟩
  · exact ⟨_, rfl⟩

theorem TameSeries.step (h : TameSeries wp j s) (ht2 : t2.Spans (4 * wp + 9)) (hp2 : t2.prec = wp)
    (hsmall : |t2.value| ≤ 1 / 2) (hj : j < seriesBound wp) (hwp : 1 ≤ wp) (hwp' : wp ≤ 2 ^ 21)
    (hs : BinFloat.atanStep t2 wp s = some s') : TameSeries wp (j + 1) s' := by
  unfold BinFloat.atanStep at hs
  dsimp only at hs
  split at hs
  · rename_i hgo
    obtain ⟨hterm, hpower, hprec, hindex, hquot, hprec'⟩ := h.spans_power ht2 hp2 hj hwp hwp' hgo
    cases hs
    have hquot' : (s.term * t2 / ofInt (s.index + 2 : Nat) wp).Spans (7 * wp + 40 + 2 * j) := hquot.mono (by omega)
    refine ⟨⟨hprec, fits_mul _ _, ?_, hpower⟩, by dsimp only; rw [h.index]; ring, ?_, ?_⟩
    · have hround := (value_mul_within (x := s.term) (y := t2) (p := wp) (by rw [hp2]; exact le_max_right _ _)).abs_le
      have hu := roundoff_le_one wp
      have hu0 := roundoff_pos wp
      rw [abs_mul] at hround
      have hprod : |s.term.value| * |t2.value| ≤ 2 * (1 / 2) :=
        mul_le_mul h.term.small hsmall (abs_nonneg _) (by norm_num)
      dsimp only
      nlinarith [mul_nonneg (abs_nonneg s.term.value) (abs_nonneg t2.value)]
    · dsimp only
      split
      · rw [prec_sub, h.prec, hprec', max_self]
      · rw [prec_add, h.prec, hprec', max_self]
    · dsimp only
      split
      · exact (h.sum.sub hquot').mono (by push_cast; omega)
      · exact (h.sum.add hquot').mono (by push_cast; omega)
  · cases hs

end Step

/-- The series of a small tangent gives a sum, whose bits lie hardly farther away than those of the tangent. -/
theorem atanSeries_eq_ok {b : Int} (h : Tame wp b t) (ht : |t.value| < 1 / 16) (hb : 9 * wp + 72 ≤ b)
    (hb' : b < 2 ^ 63) (hwp : 1 ≤ wp) (hwp' : wp ≤ 2 ^ 21) :
    ∃ s, iterate (atanStep (t * t) wp) (seriesBound wp) ⟨t, 1, t⟩ = .ok s ∧ s.sum.Spans b := by
  by_cases hgo : (⟨t, 1, t⟩ : SeriesState).goesOn wp = true
  · have hterm : t.Spans (2 * wp + 4) := (h.spans_of_reaches (by omega) hgo).mono (by omega)
    have hp2 : (t * t).prec = wp := by rw [prec_mul, h.prec, max_self]
    have ht2 : (t * t).Spans (4 * wp + 9) := (hterm.mul hterm).mono (by omega)
    have hsmall : |(t * t).value| ≤ 1 / 2 := by
      have hround := (value_mul_within (x := t) (y := t) (p := wp) (h.prec ▸ le_max_left _ _)).abs_le
      have hu := roundoff_le_one wp
      rw [abs_mul] at hround
      nlinarith [abs_nonneg t.value]
    have hstart : TameSeries wp 0 ⟨t, 1, t⟩ :=
      ⟨⟨h.prec, h.fits, h.small, hterm.mono (by omega)⟩, rfl, h.prec, hterm.mono (by push_cast; omega)⟩
    obtain ⟨j, hj, hrun, hend⟩ := iterate_eq_ok (P := TameSeries wp) (n := seriesBound wp) hstart
      (fun j s hj hs => hs.step_eq_ok ht2 hp2 hj hwp hwp')
      (fun j s s' hj hs hnext => hs.step ht2 hp2 hsmall hj hwp hwp' hnext)
    unfold seriesBound at hj
    exact ⟨_, hrun, hend.sum.mono (by omega)⟩
  · have hdone : atanStep (t * t) wp ⟨t, 1, t⟩ = .ok none := by
      unfold atanStep
      rw [reaches_eq_ok h.spans hb', ok_bind]
      exact if_neg hgo
    refine ⟨⟨t, 1, t⟩, ?_, h.spans⟩
    show iterate _ (wp + 15 + 1) _ = _
    rw [iterate, hdone]
    rfl

/-- The arctangent of a number that is not large is given, if the square of the number is. -/
theorem atan_eq_ok {b : Int} (hlow : 2 ≤ x.prec) (hhigh : x.prec ≤ 2 ^ 20) (hfits : x.FitsPrecision)
    (hsmall : |x.value| ≤ 2) (hx : x.Spans b) (hb : 2 ^ 24 ≤ b) (hb' : 2 * b + 2 < 2 ^ 63) :
    ∃ a, atan x = .ok a ∧ a.prec = x.prec ∧ a.Spans (b + 18) := by
  obtain ⟨wp, hwp⟩ : ∃ wp, x.prec + 32 = wp := ⟨_, rfl⟩
  have hstart : Tame wp (b + 1) (x.withPrec wp) :=
    ⟨prec_withPrec _ _, fits_ofScaled _ _ _, by rwa [hfits.value_withPrec (by omega) (by omega)], hx.withPrec wp⟩
  obtain ⟨t, count, hplain, -, -, ht, -⟩ := halving_spec x (show 34 ≤ wp by omega)
  have hsteps (j : Nat) (s : BinFloat × Nat) (_ : j < halvingBound) (hs : Tame wp (b + 1) s.1 ∧ s.2 = j) :
      halveAngle (one wp) s = .ok (BinFloat.halveAngle (one wp) s) :=
    halveAngle_eq_ok hs.1 (by omega) (by omega) (by omega)
  obtain ⟨j, hj, hhalving, htame, hcount⟩ := iterate_eq_ok (n := halvingBound)
    (P := fun j s => Tame wp (b + 1) s.1 ∧ s.2 = j) (s := (x.withPrec wp, 0)) ⟨hstart, rfl⟩ hsteps
    (fun j s s' _ hs hnext => by
      obtain ⟨h, hcount⟩ := hs.1.halved (by omega) (by omega) hnext
      exact ⟨h, by rw [hcount, hs.2]⟩)
  rw [hplain] at hhalving htame hcount
  obtain ⟨s, hseries, hsum⟩ := atanSeries_eq_ok htame ht (by omega) (by omega) (by omega) (by omega)
  have hcount' : count ≤ 16 := le_of_eq_of_le hcount hj
  have := hsum.le_exp
  have := hsum.exp_le
  have hscaled : (s.sum.scaleTwo count).Spans (b + 17) := (hsum.scaleTwo count).mono (by rw [Nat.abs_cast]; omega)
  refine ⟨(s.sum.scaleTwo count).withPrec x.prec, ?_, prec_withPrec _ _, (hscaled.withPrec _).mono (by omega)⟩
  unfold atan
  dsimp only
  rw [hwp, if_neg (by omega), withPrec_eq_ok hx (by omega), ok_bind, hhalving, ok_bind]
  dsimp only
  rw [mul_eq_ok htame.spans htame.spans (by omega), ok_bind, hseries, ok_bind,
    scaleTwo_eq_ok (inInt64_iff.2 ⟨by omega, by omega⟩), ok_bind, withPrec_eq_ok hscaled (by omega)]

end Arctangent

/-! ## The angle -/

section Angle

variable {x y : BinFloat}

theorem spans_pi {p : Nat} (hlow : 1 ≤ p) (hhigh : p ≤ 2 ^ 20) : (pi p).Spans (p + 32) := by
  have hnear := abs_le.1 (abs_pi_sub_le_units hlow hhigh)
  have hu := roundoff_anti hlow
  rw [roundoff_eq 1, pow_one] at hu
  have hlow' := Real.pi_gt_d2
  have hhigh' := Real.pi_lt_d2
  have hpos : 0 < (pi p).value := by linarith
  have htop := top_le_of_abs_value_lt (k := 3) hpos.ne' (by rw [abs_of_pos hpos]; norm_num; linarith)
  have hexp := (exp_ofScaled_le (machinSum p) (-(p + 32 : Nat)) p).2
  have hpi : (pi p).exp = (BinFloat.ofScaled (machinSum p) (-(p + 32 : Nat)) p).exp := rfl
  exact ⟨by omega, by omega⟩

/-- The angle of a quotient that is at most one. -/
theorem quotientAngle_eq_ok (hprec : x.prec = y.prec) (hlow : 2 ≤ y.prec) (hhigh : y.prec ≤ 2 ^ 20)
    (hx : x.Spans (2 ^ 60)) (hy : y.Spans (2 ^ 60)) (hy0 : y.value ≠ 0) (hle : |x.value| ≤ |y.value|) :
    ∃ a, div x y = .ok (x / y) ∧ atan (x / y) = .ok a ∧ a.prec = y.prec ∧ a.Spans (2 ^ 61 + 2 ^ 24) := by
  have hp : (x / y).prec = y.prec := by rw [prec_div, hprec, max_self]
  have hmax : ((max x.prec y.prec : ℕ) : ℤ) ≤ 2 ^ 20 := by
    rw [hprec, max_self]
    exact_mod_cast hhigh
  have hone : |x.value / y.value| ≤ 1 := by
    rw [abs_div]
    exact div_le_one_of_le₀ hle (abs_nonneg _)
  have hsmall : |(x / y).value| ≤ 2 := by
    have hu := roundoff_le_quarter hlow
    have hround := (value_div_within (x := x) (p := y.prec) (le_max_right _ _) hy0).abs_le
    have hu0 := roundoff_pos y.prec
    nlinarith [abs_nonneg (x.value / y.value)]
  have hquot : (x / y).Spans (2 ^ 61 + 2 ^ 23) := (hx.div hy hy0).mono (by omega)
  obtain ⟨a, ha, haprec, hspans⟩ := atan_eq_ok (by rwa [hp]) (by rwa [hp]) (fits_div x y) hsmall hquot (by norm_num)
    (by norm_num)
  exact ⟨a, div_eq_ok hx hy hy0 (by push_cast at hmax ⊢; omega), ha, haprec.trans hp, hspans.mono (by norm_num)⟩

theorem atan2_eq_ok (hprec : y.prec = x.prec) (hlow : 2 ≤ x.prec) (hhigh : x.prec ≤ 2 ^ 20) (hx : x.Spans (2 ^ 60))
    (hy : y.Spans (2 ^ 60)) : ∃ a, atan2 y x = .ok a := by
  have hpi := spans_pi (by omega) hhigh
  have hsum {c a : BinFloat} (hc : c.Spans (x.prec + 33)) (hcp : c.prec = x.prec) (ha : a.Spans (2 ^ 61 + 2 ^ 24))
      (hap : a.prec = x.prec) :
      (∃ v, add c a = .ok v) ∧ (∃ v, sub c a = .ok v) ∧ (∃ v, add a c = .ok v) ∧ ∃ v, sub a c = .ok v := by
    have hc' : c.Spans (2 ^ 61 + 2 ^ 24) := hc.mono (by omega)
    have hmax : 2 * (2 ^ 61 + 2 ^ 24 : ℤ) + max c.prec a.prec + 2 < 2 ^ 63 := by
      rw [hcp, hap, max_self]
      omega
    have hmax' : 2 * (2 ^ 61 + 2 ^ 24 : ℤ) + max a.prec c.prec + 2 < 2 ^ 63 := by
      rw [hcp, hap, max_self]
      omega
    exact ⟨⟨_, add_eq_ok hc' ha hmax⟩, ⟨_, sub_eq_ok hc' ha hmax⟩, ⟨_, add_eq_ok ha hc' hmax'⟩,
      ⟨_, sub_eq_ok ha hc' hmax'⟩⟩
  unfold atan2
  dsimp only
  split
  · exact ⟨_, rfl⟩
  · rename_i hzero
    rw [cmp_eq_ok hy.abs hx.abs (by norm_num), ok_bind]
    by_cases hle : y.abs ≤ x.abs
    · have hle' := le_iff_value.1 hle
      rw [value_abs, value_abs] at hle'
      have hx0 : x.value ≠ 0 := fun h => hzero (by
        rw [h, abs_zero, abs_nonpos_iff] at hle'
        rw [isZero_iff.2 h, isZero_iff.2 hle']
        rfl)
      obtain ⟨a, hdiv, hatan, haprec, ha⟩ := quotientAngle_eq_ok hprec hlow hhigh hy hx hx0 hle'
      rw [if_pos (show y.abs.cmp x.abs ≠ .gt from hle), hdiv, ok_bind, hatan, ok_bind, hprec, max_self]
      obtain ⟨-, -, hadd, hsub⟩ := hsum (hpi.mono (by omega)) (prec_pi _) ha haprec
      split
      · exact ⟨a, rfl⟩
      · split
        · exact hsub
        · exact hadd
    · have hlt := not_le.1 (mt le_iff_value.2 hle)
      rw [value_abs, value_abs] at hlt
      have hy0 : y.value ≠ 0 := abs_pos.1 ((abs_nonneg _).trans_lt hlt)
      obtain ⟨a, hdiv, hatan, haprec, ha⟩ :=
        quotientAngle_eq_ok hprec.symm (hprec ▸ hlow) (hprec ▸ hhigh) hx hy hy0 hlt.le
      have hhalf : ((pi x.prec).scaleTwo (-1)).Spans (x.prec + 33) := (hpi.scaleTwo (-1)).mono (by norm_num)
      have := hpi.le_exp
      have := hpi.exp_le
      rw [if_neg (show ¬ y.abs.cmp x.abs ≠ .gt from hle), hdiv, ok_bind, hatan, ok_bind, hprec, max_self,
        scaleTwo_eq_ok (inInt64_iff.2 ⟨by omega, by omega⟩), ok_bind]
      split
      · exact (hsum hhalf (by rw [prec_scaleTwo, prec_pi]) ha (haprec.trans hprec)).2.1
      · exact (hsum hhalf.neg (by rw [prec_neg, prec_scaleTwo, prec_pi]) ha (haprec.trans hprec)).2.1

/-- **The angle of a point is accurate** wherever it is given, for coordinates of one precision. The loops of every
arctangent at that precision end, those of the quotient of the coordinates among them. The angle is off by at most
eight units behind its last place, in all quadrants, on the axes and on the diagonals, with the cut on the left counted
to the upper side; at the origin it is zero. It is given for all coordinates whose bits lie between the positions
`-2⁶⁰` and `2⁶⁰`, and where it is not, an exponent did not fit. -/
theorem atan2_accurate (hprec : y.prec = x.prec) (hlow : 2 ≤ x.prec) (hhigh : x.prec ≤ 2 ^ 20) :
    (∀ q : BinFloat, q.prec = x.prec → AtanEnds q ∧ Agrees (atan q) q.atan) ∧
    (¬ (x.value = 0 ∧ y.value = 0) → ∃ a, Agrees (atan2 y x) a ∧
      |a.value - Complex.arg ⟨x.value, y.value⟩| ≤ 2 ^ (3 - x.prec : ℤ)) ∧
    (x.value = 0 → y.value = 0 → atan2 y x = .ok (zero x.prec)) ∧
    (x.Spans (2 ^ 60) → y.Spans (2 ^ 60) → ∃ a, atan2 y x = .ok a) := by
  refine ⟨fun q hq => ⟨atanEnds (by rwa [hq]) (by rwa [hq]), agrees_atan q⟩,
    fun hne => ⟨_, agrees_atan2 y x, atan2_near hprec hlow hhigh hne⟩, fun hx hy => ?_,
    atan2_eq_ok hprec hlow hhigh⟩
  unfold atan2
  dsimp only
  rw [if_pos (by rw [isZero_iff.2 hx, isZero_iff.2 hy]; rfl), hprec, max_self]

/-- On the cut, at eight bits: the angle is near π, and not near `-π`. -/
theorem atan2_accurate_on_cut :
    (zero 8).prec = (-one 8).prec ∧ 2 ≤ (-one 8).prec ∧ (-one 8).prec ≤ 2 ^ 20 ∧
      ¬ ((-one 8).value = 0 ∧ (zero 8).value = 0) ∧ AtanEnds (zero 8 / -one 8) ∧
      ∃ a, atan2 (zero 8) (-one 8) = .ok a ∧ |a.value - Real.pi| ≤ 2 ^ (3 - (8 : ℕ) : ℤ) := by
  obtain ⟨hends, hnear, -, hgiven⟩ := atan2_accurate (x := -one 8) (y := zero 8) rfl (by decide) (by decide)
  have hvalue : (-one 8).value = -1 := by rw [value_neg, value_one]
  have hne : ¬ ((-one 8).value = 0 ∧ (zero 8).value = 0) := by
    rw [hvalue]
    norm_num
  obtain ⟨a, ha, herr⟩ := hnear hne
  rw [hvalue, value_zero, arg_of_neg_of_nonneg (by norm_num) le_rfl, zero_div, Real.arctan_zero,
    zero_add] at herr
  exact ⟨rfl, by decide, by decide, hne, (hends (zero 8 / -one 8) rfl).1, a,
    ha.eq_ok (hgiven ⟨by decide, by decide⟩ ⟨by decide, by decide⟩), herr⟩

/-- **An angle can be missing**: the point lies almost on the axis, but the difference of the exponents of its
coordinates does not fit. -/
theorem atan2_ends_early :
    Computed (twoPow (2 ^ 62 + 100) 53) ∧ Computed (twoPow (-2 ^ 62) 53) ∧ InInt64 (2 ^ 62 + 100) ∧ InInt64 (-2 ^ 62) ∧
      atan2 (twoPow (2 ^ 62 + 100) 53) (twoPow (-2 ^ 62) 53) = .error .overflow := by
  refine ⟨.twoPow _ _, .twoPow _ _, by decide, by decide, ?_⟩
  unfold atan2
  rfl

end Angle

end CliffordT.Checked
