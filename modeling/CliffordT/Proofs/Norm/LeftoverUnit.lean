/-
The power of `λ` that is left over from a norm equation, and when it is recognized.

The exponent is estimated from the computed value of `a + b√2`. For a power `λᵐ` with `m` below zero the two
summands are about `λ⁻ᵐ / 2` and cancel. As long as `λ⁻²ᵐ` is below `2 ^ prec` by a few bits, what is left is near
to `λᵐ`, and the estimate is the exponent. Above it nothing is left, or a multiple of the last place of the summands,
which is far above `λᵐ`, and the exponent is missed: the solver gives up an equation that it has already solved up to
the unit. For `m` from zero on there is no cancellation.

What is said about estimates holds for any that are near to the logarithm, as those in double precision are meant
to be.
-/
import CliffordT.Proofs.BinFloat.CorrectRounding
import CliffordT.Proofs.BinFloat.Logarithm
import CliffordT.Proofs.Grid.Line
import CliffordT.Proofs.Norm.Completeness

namespace CliffordT.NormEquation

open BinFloat
open ZSqrt2 (lambdaPow real real_lambdaPow)

/-! ## Estimates -/

/-- The estimate of an exponent by logarithms in double precision. -/
def doubleExponent (c : Constants) (x : BinFloat) : Int :=
  roundDouble (x.lnDouble / c.logLambda.toDouble)

/-- The search for the exponent with any estimate. -/
def lambdaLogBy? (exponent : BinFloat → Int) (u : ZSqrt2) (c : Constants) : Option Int :=
  let x := u.toReal c
  if x.isPositive then
    let m := exponent x
    if lambdaPow m = u then some m else none
  else none

theorem lambdaLog?_eq (u : ZSqrt2) (c : Constants) : lambdaLog? u c = lambdaLogBy? (doubleExponent c) u c := rfl

/-- The estimates are off by three quarters at most, where one half comes from the choice of an integer, for all
numbers whose logarithm is at most `B` in absolute value. -/
def Estimates (exponent : BinFloat → Int) (B : ℝ) : Prop :=
  ∀ x : BinFloat, 0 < x.value → |Real.log x.value| ≤ B →
    |(exponent x : ℝ) - Real.log x.value / Real.log lambdaReal| ≤ 3 / 4

/-- The integer nearest to the exact logarithm. -/
noncomputable def nearestExponent (x : BinFloat) : ℤ := round (Real.log x.value / Real.log lambdaReal)

theorem estimates_nearestExponent (B : ℝ) : Estimates nearestExponent B := by
  intro x _ _
  rw [abs_sub_comm]
  exact (abs_sub_round _).trans (by norm_num)

section Search

variable {exponent : BinFloat → Int} {u : ZSqrt2} {c : Constants} {m : ℤ} {B : ℝ} {x : BinFloat}

/-- What is found is checked. -/
theorem lambdaPow_of_lambdaLogBy? (h : lambdaLogBy? exponent u c = some m) :
    0 < (u.toReal c).value ∧ exponent (u.toReal c) = m ∧ lambdaPow m = u := by
  unfold lambdaLogBy? at h
  dsimp only at h
  split at h
  · rename_i hpos
    split at h
    · rename_i hpow
      cases h
      exact ⟨isPositive_iff.1 hpos, rfl, hpow⟩
    · cases h
  · cases h

theorem lambdaLogBy?_of_exponent (hpos : 0 < ((lambdaPow m).toReal c).value)
    (hexp : exponent ((lambdaPow m).toReal c) = m) : lambdaLogBy? exponent (lambdaPow m) c = some m := by
  unfold lambdaLogBy?
  dsimp only
  rw [if_pos (isPositive_iff.2 hpos), hexp, if_pos rfl]

theorem lambdaPow_injective : Function.Injective lambdaPow := by
  intro k l h
  have hreal := congrArg real h
  rw [real_lambdaPow, real_lambdaPow] at hreal
  exact zpow_right_injective₀ lambdaReal_pos one_lt_lambdaReal.ne' hreal

/-! ## Without cancellation -/

/-- Near to a power of `λ`, the estimate is the exponent. -/
theorem exponent_eq_of_within (hexp : Estimates exponent B) (hx : Within (1 / 16) x.value (lambdaReal ^ m))
    (hB : (|(m : ℝ)| + 1) * Real.log lambdaReal ≤ B) : 0 < x.value ∧ exponent x = m := by
  have hlam := log_lambdaReal_bounds
  obtain ⟨hpos, hlog⟩ := abs_log_sub_le_of_within (zpow_pos lambdaReal_pos m) (by norm_num) hx
  rw [Real.log_zpow] at hlog
  have hsize : |Real.log x.value| ≤ B := by
    have htri := abs_sub_abs_le_abs_sub (Real.log x.value) (m * Real.log lambdaReal)
    have hm : |(m : ℝ) * Real.log lambdaReal| = |(m : ℝ)| * Real.log lambdaReal := by
      rw [abs_mul, abs_of_pos (by linarith : 0 < Real.log lambdaReal)]
    linarith
  have hdiv : |Real.log x.value / Real.log lambdaReal - m| ≤ 1 / 6 := by
    have hne : Real.log lambdaReal ≠ 0 := by linarith
    rw [div_sub' hne, abs_div, abs_of_pos (by linarith : 0 < Real.log lambdaReal), div_le_iff₀ (by linarith),
      mul_comm (Real.log lambdaReal)]
    linarith
  have hdist : |((exponent x - m : ℤ) : ℝ)| < 1 := by
    have h := hexp x hpos hsize
    have htri := abs_sub_le (exponent x : ℝ) (Real.log x.value / Real.log lambdaReal) m
    push_cast
    linarith
  have hint : |exponent x - m| < 1 := by exact_mod_cast hdist
  exact ⟨hpos, by rwa [Int.abs_lt_one_iff, sub_eq_zero] at hint⟩

theorem abs_lambdaPow_le (m : ℤ) :
    |real (lambdaPow m)| ≤ lambdaReal ^ |m| ∧ |real (lambdaPow m).dot| ≤ lambdaReal ^ |m| := by
  have hdot := ZSqrt2.real_dot_lambdaPow_neg (-m)
  rw [neg_neg] at hdot
  rw [real_lambdaPow, hdot, abs_zpow, abs_zpow, abs_neg, abs_of_pos lambdaReal_pos]
  exact ⟨zpow_le_zpow_right₀ one_lt_lambdaReal.le (le_abs_self m),
    zpow_le_zpow_right₀ one_lt_lambdaReal.le (neg_le_abs m)⟩

/-- The computed power, while the cancellation leaves a few bits. -/
theorem toReal_lambdaPow_within (hc : c.Accurate) (hm : lambdaReal ^ (|m| - m) ≤ 2 ^ (c.prec - 8)) :
    Within (1 / 16) ((lambdaPow m).toReal c).value (lambdaReal ^ m) := by
  obtain ⟨h, h'⟩ := abs_lambdaPow_le m
  have hpow := zpow_pos lambdaReal_pos m
  have herr := ZSqrt2.abs_toReal_sub_le hc h h'
  rw [real_lambdaPow] at herr
  have hu : roundoff c.prec * 2 ^ (c.prec - 8) = 1 / 2 ^ 8 := by
    have hprec := hc.prec_ge
    have hsplit : c.prec = (c.prec - 8) + 8 := by omega
    have hone := roundoff_mul_two_pow (c.prec - 8)
    have hdiv := roundoff_add_eq_div (c.prec - 8) 8
    rw [← hsplit] at hdiv
    rw [hdiv, div_mul_eq_mul_div, hone]
  have hscale : lambdaReal ^ |m| = lambdaReal ^ (|m| - m) * lambdaReal ^ m := by
    rw [← zpow_add₀ lambdaReal_pos.ne', sub_add_cancel]
  unfold Within
  rw [abs_of_pos hpow]
  calc |((lambdaPow m).toReal c).value - lambdaReal ^ m| ≤ 10 * roundoff c.prec * lambdaReal ^ |m| := herr
    _ = 10 * (roundoff c.prec * lambdaReal ^ (|m| - m)) * lambdaReal ^ m := by
        rw [hscale]
        ring
    _ ≤ 10 * (roundoff c.prec * 2 ^ (c.prec - 8)) * lambdaReal ^ m := by
        have hu0 := roundoff_pos c.prec
        gcongr
    _ ≤ 1 / 16 * lambdaReal ^ m := by
        rw [hu]
        gcongr
        norm_num

/-- **A power of `λ` is recognized** while the cancellation leaves a few bits. -/
theorem lambdaLogBy?_lambdaPow (hc : c.Accurate) (hexp : Estimates exponent B)
    (hB : (|(m : ℝ)| + 1) * Real.log lambdaReal ≤ B) (hm : lambdaReal ^ (|m| - m) ≤ 2 ^ (c.prec - 8)) :
    lambdaLogBy? exponent (lambdaPow m) c = some m := by
  obtain ⟨hpos, hexponent⟩ := exponent_eq_of_within hexp (toReal_lambdaPow_within hc hm) hB
  exact lambdaLogBy?_of_exponent hpos hexponent

/-! ## With cancellation -/

/-- A sum of multiples of a power of two that is rounded to a positive number is not below that power. -/
theorem two_zpow_le_of_isNearest {p : ℕ} (hp : 1 ≤ p) {k l q : ℤ} {r : ℝ}
    (h : IsNearest p (k * 2 ^ q + l * 2 ^ q) r) (hr : 0 < r) : (2 : ℝ) ^ q ≤ r := by
  have hzero : HasBits p 0 := ⟨0, 0, by positivity, by simp⟩
  have hone : HasBits p (2 ^ q) := ⟨1, q, by rw [abs_one]; exact one_lt_pow₀ (by norm_num) (by omega), by simp⟩
  have hq := two_zpow_pos q
  rw [← add_mul] at h
  have hpos : 0 < k + l := by
    by_contra hle
    have hsum : (k : ℝ) + l ≤ 0 := by exact_mod_cast not_lt.1 hle
    have hr0 := h.monotone hzero.isNearest_self (mul_nonpos_of_nonpos_of_nonneg hsum hq.le)
    linarith
  have hsum : (1 : ℝ) ≤ k + l := by exact_mod_cast hpos
  exact hone.isNearest_self.monotone h (le_mul_of_one_le_left hq.le hsum)

/-- What cancellation leaves of two summands is nothing, or not below their last place. -/
theorem mul_roundoff_le_value_add {x y : BinFloat} (hx : x.FitsPrecision) (hy : y.FitsPrecision)
    (hprec : x.prec = y.prec) (hp : 1 ≤ y.prec) {T : ℝ} (hT : 0 < T) (hxT : T ≤ |x.value|) (hyT : T ≤ |y.value|)
    (hpos : 0 < (x + y).value) : T * roundoff y.prec ≤ (x + y).value := by
  obtain ⟨e, hlow, hhigh⟩ := exists_mem_Ico_zpow hT (by norm_num : (1 : ℝ) < 2)
  have hmultiple {v : ℝ} (hv : HasBits y.prec v) (hle : T ≤ |v|) : ∃ k : ℤ, v = k * 2 ^ (e + 1 - y.prec) := by
    refine (hv.multiple_or_small _).resolve_right (not_lt.2 ?_)
    rw [show (y.prec : ℤ) + (e + 1 - y.prec) - 1 = e by ring]
    exact hlow.trans hle
  obtain ⟨k, hk⟩ := hmultiple (hx.hasBits hp hprec.le) hxT
  obtain ⟨l, hl⟩ := hmultiple (hy.hasBits hp le_rfl) hyT
  have hmax : max x.prec y.prec = y.prec := by rw [hprec, max_self]
  have hnearest := isNearest_add hx hy (hp.trans (le_max_right _ _))
  rw [hk, hl, hmax] at hnearest
  have hle := two_zpow_le_of_isNearest hp hnearest hpos
  rw [two_zpow_sub] at hle
  exact (mul_le_mul_of_nonneg_right hhigh.le (roundoff_pos _).le).trans hle

theorem two_le_lambdaReal_pow {n : ℕ} (hn : 1 ≤ n) : 2 ≤ lambdaReal ^ n :=
  le_trans (by linarith [lambdaReal_bounds.1]) (le_self_pow₀ one_lt_lambdaReal.le (by omega))

theorem lambdaReal_zpow_neg_le {n : ℕ} (hn : 1 ≤ n) : lambdaReal ^ (-n : ℤ) ≤ 1 / 2 := by
  rw [zpow_neg, zpow_natCast, one_div]
  exact inv_anti₀ (by norm_num) (two_le_lambdaReal_pow hn)

/-- Both summands of a negative power are about half of its inverse. -/
theorem le_abs_summands {n : ℕ} (hn : 1 ≤ n) :
    3 / 8 * lambdaReal ^ n ≤ |((lambdaPow (-n)).a : ℝ)| ∧
      3 / 8 * lambdaReal ^ n ≤ |((lambdaPow (-n)).b : ℝ) * √2| := by
  have hT := two_le_lambdaReal_pow hn
  have hreal : |real (lambdaPow (-n))| ≤ 1 / 2 := by
    rw [real_lambdaPow, abs_of_pos (zpow_pos lambdaReal_pos _)]
    exact lambdaReal_zpow_neg_le hn
  have hdot : |real (lambdaPow (-n)).dot| = lambdaReal ^ n := by
    rw [ZSqrt2.real_dot_lambdaPow_neg, abs_zpow, abs_neg, abs_of_pos lambdaReal_pos, zpow_natCast]
  rw [ZSqrt2.real_apply] at hreal
  rw [ZSqrt2.real_dot] at hdot
  generalize ((lambdaPow (-n)).a : ℝ) = v at hreal hdot ⊢
  generalize ((lambdaPow (-n)).b : ℝ) * √2 = w at hreal hdot ⊢
  have hv : |v - w| ≤ 2 * |v| + |v + w| := by
    have h := abs_sub (2 * v) (v + w)
    rwa [abs_mul, abs_two, two_mul, add_sub_add_left_eq_sub] at h
  have hw : |v - w| ≤ |v + w| + 2 * |w| := by
    have h := abs_sub (v + w) (2 * w)
    rwa [abs_mul, abs_two, two_mul, add_sub_add_right_eq_sub] at h
  exact ⟨by linarith, by linarith⟩

/-- A number near to a large one is large. -/
theorem quarter_le_of_within {e a b T : ℝ} (he : e ≤ 1 / 4) (h : Within e a b) (hT : 0 < T) (hb : 3 / 8 * T ≤ |b|) :
    T / 4 ≤ |a| := by
  have hle := h.le_abs
  have hmul := mul_le_mul_of_nonneg_right (by linarith : 3 / 4 ≤ 1 - e) (abs_nonneg b)
  linarith

theorem le_toReal_lambdaPow_neg (hc : c.Accurate) {n : ℕ} (hn : 1 ≤ n)
    (hpos : 0 < ((lambdaPow (-n)).toReal c).value) :
    lambdaReal ^ n / 4 * roundoff c.prec ≤ ((lambdaPow (-n)).toReal c).value := by
  have hprec := hc.prec_ge
  have hu := roundoff_le_of_le (hprec.trans' (by norm_num))
  have hT : 0 < lambdaReal ^ n := pow_pos lambdaReal_pos n
  obtain ⟨ha, hb⟩ := le_abs_summands hn
  have hfst := quarter_le_of_within (by linarith) (value_ofInt_within (lambdaPow (-n)).a c.prec) hT ha
  have hsnd := quarter_le_of_within (by linarith) (ZSqrt2.root_within hc (lambdaPow (-n)).b) hT hb
  have hprod : (c.int (lambdaPow (-n)).b * c.sqrt2).prec = c.prec := by
    rw [prec_mul, hc.prec_sqrt2, Constants.int, prec_ofInt, max_self]
  have h := mul_roundoff_le_value_add (fits_ofScaled (lambdaPow (-n)).a 0 c.prec)
    (fits_mul (c.int (lambdaPow (-n)).b) c.sqrt2) ((prec_ofInt _ _).trans hprod.symm) (by omega)
    (by linarith : 0 < lambdaReal ^ n / 4) hfst hsnd hpos
  rwa [hprod] at h

theorem toReal_lambdaPow_neg_le (hc : c.Accurate) {n : ℕ} (hn : 1 ≤ n) :
    ((lambdaPow (-n)).toReal c).value ≤ lambdaReal ^ n := by
  obtain ⟨h, h'⟩ := abs_lambdaPow_le (-n)
  have herr := (abs_le.1 (ZSqrt2.abs_toReal_sub_le hc h h')).2
  have hT := two_le_lambdaReal_pow hn
  have hinv := lambdaReal_zpow_neg_le hn
  have hu := mul_le_mul_of_nonneg_right (roundoff_le_of_le (hc.prec_ge.trans' (by norm_num)))
    (by linarith : 0 ≤ lambdaReal ^ n)
  rw [real_lambdaPow, abs_neg, Nat.abs_cast, zpow_natCast] at herr
  linarith

/-- The logarithm of what is left lies between that of the last place of the summands and that of the summands. -/
theorem log_toReal_lambdaPow_neg_mem (hc : c.Accurate) {n : ℕ} (hn : 1 ≤ n)
    (hpos : 0 < ((lambdaPow (-n)).toReal c).value) :
    n * Real.log lambdaReal - (c.prec + 2) * Real.log 2 ≤ Real.log ((lambdaPow (-n)).toReal c).value ∧
      Real.log ((lambdaPow (-n)).toReal c).value ≤ n * Real.log lambdaReal := by
  have hpower : 0 < lambdaReal ^ n := pow_pos lambdaReal_pos n
  have hplace : lambdaReal ^ n / 2 ^ (c.prec + 2) = lambdaReal ^ n / 4 * roundoff c.prec := by
    rw [roundoff_eq, pow_add]
    field_simp
    norm_num
  constructor
  · have h := Real.log_le_log (by positivity) (hplace.trans_le (le_toReal_lambdaPow_neg hc hn hpos))
    rw [Real.log_div hpower.ne' (by positivity), Real.log_pow, Real.log_pow] at h
    exact_mod_cast h
  · have h := Real.log_le_log hpos (toReal_lambdaPow_neg_le hc hn)
    rwa [Real.log_pow] at h

/-- **A power of `λ` is lost** when nothing near to it is left after cancellation. -/
theorem lambdaLogBy?_lambdaPow_eq_none (hc : c.Accurate) (hexp : Estimates exponent B) {n : ℕ}
    (hB : (n + 1) * Real.log lambdaReal ≤ B) (hn : 2 ^ (c.prec + 3) ≤ lambdaReal ^ (2 * n)) :
    lambdaLogBy? exponent (lambdaPow (-n)) c = none := by
  have hlam := log_lambdaReal_bounds
  have hn1 : 1 ≤ n := by
    by_contra h0
    obtain rfl : n = 0 := by omega
    have hone : (1 : ℝ) < 2 ^ (c.prec + 3) := one_lt_pow₀ (by norm_num) (by omega)
    rw [mul_zero, pow_zero] at hn
    linarith
  rw [Option.eq_none_iff_forall_ne_some]
  intro m h
  obtain ⟨hpos, hm, hpow⟩ := lambdaPow_of_lambdaLogBy? h
  obtain rfl := lambdaPow_injective hpow
  obtain ⟨hlow, hhigh⟩ := log_toReal_lambdaPow_neg_mem hc hn1 hpos
  generalize (lambdaPow (-n)).toReal c = x at hpos hm hlow hhigh
  have hlog2 := Real.log_two_gt_d9
  have hlogn : (c.prec + 3) * Real.log 2 ≤ 2 * (n * Real.log lambdaReal) := by
    have h := Real.log_le_log (by positivity) hn
    rw [Real.log_pow, Real.log_pow] at h
    push_cast at h
    linarith
  have hestimate := hexp x hpos (abs_le.2 ⟨by linarith, by linarith⟩)
  rw [hm] at hestimate
  have hmiss : Real.log x.value / Real.log lambdaReal ≤ -n + 3 / 4 := by
    have h := (abs_le.1 hestimate).1
    push_cast at h
    linarith
  rw [div_le_iff₀ (by linarith)] at hmiss
  linarith

end Search

/-! ## The solver -/

/-- The last step of the solver, with any search for the exponent. -/
def adjustUnitBy (log? : ZSqrt2 → Option Int) (xi : ZSqrt2) (t : ZOmega) : Search (Option ZOmega) := do
  let equation := "norm equation for " ++ toString xi ++ ": "
  match xi.exactDiv? t.norm with
  | none =>
    Search.warn (equation ++ toString t.norm ++ " does not divide it")
    return none
  | some unit =>
    match log? unit with
    | none =>
      Search.warn (equation ++ "leftover " ++ toString unit ++ " is not a unit")
      return none
    | some m =>
      if m % 2 ≠ 0 then return none
      let t := t * ZOmega.ofZSqrt2 (lambdaPow (m / 2))
      if t.norm = xi then return some t
      Search.warn (equation ++ "check failed for " ++ toString t)
      return none

/-- The solver, with any search for the exponent. -/
def solveBy (log? : ZSqrt2 → Option Int) (xi : ZSqrt2) (ctx : Context) : Search (Option ZOmega) := do
  if xi = 0 then return some 0
  if !xi.isDoublyPositive then return none
  match ← Search.draw (factorize xi.norm ctx.toLimits) with
  | none => return none
  | some factors =>
    match ← primeParts xi ctx.rootAttempts factors 1 with
    | none => return none
    | some t => adjustUnitBy log? xi t

theorem solve_eq (xi : ZSqrt2) (ctx : Context) : solve xi ctx = solveBy (lambdaLog? · ctx.toConstants) xi ctx := rfl

section Solver

variable {log? : ZSqrt2 → Option Int} {xi : ZSqrt2} {t : ZOmega} {j : ℤ}

/-- The message of a solver that takes what is left over for no unit. -/
def notAUnit (xi unit : ZSqrt2) : Report :=
  ⟨.warning, "norm equation for " ++ toString xi ++ ": " ++ "leftover " ++ toString unit ++ " is not a unit"⟩

/-- With the exponent of the unit the solution is complete. -/
theorem run_adjustUnitBy_of_some (ht : t ≠ 0) (hxi : xi = lambdaPow (2 * j) * t.norm)
    (hlog : log? (lambdaPow (2 * j)) = some (2 * j)) (s : SearchState) :
    (adjustUnitBy log? xi t).run s = (.ok (some (t * ZOmega.ofZSqrt2 (lambdaPow j))), s) := by
  have hdiv : xi.exactDiv? t.norm = some (lambdaPow (2 * j)) :=
    ZSqrt2.exactDiv?_eq_some_iff.2 ⟨(ZOmega.totallyPositive_norm ht).ne_zero, hxi⟩
  have hhalf : 2 * j / 2 = j := by omega
  have hnorm : (t * ZOmega.ofZSqrt2 (lambdaPow j)).norm = xi := by
    rw [ZOmega.norm_mul, ZOmega.norm_ofZSqrt2, ← ZSqrt2.lambdaPow_add, hxi, mul_comm, two_mul]
  unfold adjustUnitBy
  rw [hdiv]
  dsimp only
  rw [hlog]
  dsimp only
  rw [hhalf, if_neg (by omega), if_pos hnorm]
  rfl

/-- Without it the equation is given up with a message. -/
theorem run_adjustUnitBy_of_none (ht : t ≠ 0) {unit : ZSqrt2} (hxi : xi = unit * t.norm) (hlog : log? unit = none)
    (s : SearchState) :
    (adjustUnitBy log? xi t).run s = (.ok none, { s with reports := s.reports.push (notAUnit xi unit) }) := by
  have hdiv : xi.exactDiv? t.norm = some unit :=
    ZSqrt2.exactDiv?_eq_some_iff.2 ⟨(ZOmega.totallyPositive_norm ht).ne_zero, hxi⟩
  unfold adjustUnitBy
  rw [hdiv]
  dsimp only
  rw [hlog]
  rfl

/-- One has no prime factors, and no random number is drawn to find that out. -/
theorem run_factorize_one (l : Limits) (g : Generator) : (factorize 1 l).run g = (some [], g) := by
  have hdivide : trialDivide trialDivisors (1 : Int).natAbs = ([], 1) := by
    unfold trialDivisors trialDivide
    rfl
  have hsplit : (splitCompletely 1 l).run.run g = (some [], g) := by
    unfold splitCompletely
    rfl
  unfold factorize
  rw [if_neg (by decide), hdivide]
  dsimp only
  rw [Draw.run_bind, hsplit]
  rfl

theorem norm_ofZSqrt2_lambdaPow (j : ℤ) : (ZOmega.ofZSqrt2 (lambdaPow j)).norm = lambdaPow (2 * j) := by
  rw [ZOmega.norm_ofZSqrt2, ← ZSqrt2.lambdaPow_add, two_mul]

theorem totallyPositive_lambdaPow (j : ℤ) : (lambdaPow (2 * j)).TotallyPositive := by
  rw [← norm_ofZSqrt2_lambdaPow]
  refine ZOmega.totallyPositive_norm fun h0 => ?_
  have hnorm := ZSqrt2.norm_lambdaPow_two_mul j
  rw [← norm_ofZSqrt2_lambdaPow, h0] at hnorm
  cases hnorm

/-- For an even power of `λ` there is nothing but the unit. -/
theorem run_solveBy_lambdaPow (ctx : Context) (s : SearchState) :
    (solveBy log? (lambdaPow (2 * j)) ctx).run s = (adjustUnitBy log? (lambdaPow (2 * j)) 1).run s := by
  have hpos := totallyPositive_lambdaPow j
  have hdraw : (Search.draw (factorize (lambdaPow (2 * j)).norm ctx.toLimits)).run s = (.ok (some []), s) := by
    rw [Search.run_draw, ZSqrt2.norm_lambdaPow_two_mul, run_factorize_one]
  unfold solveBy
  rw [if_neg hpos.ne_zero, hpos.isDoublyPositive]
  exact Search.run_bind_of_ok hdraw

theorem eq_mul_norm_one (x : ZSqrt2) : x = x * (1 : ZOmega).norm := by
  rw [show (1 : ZOmega).norm = 1 from rfl, mul_one]

theorem run_solveBy_of_some (hlog : log? (lambdaPow (2 * j)) = some (2 * j)) (ctx : Context) (s : SearchState) :
    (solveBy log? (lambdaPow (2 * j)) ctx).run s = (.ok (some (ZOmega.ofZSqrt2 (lambdaPow j))), s) := by
  rw [run_solveBy_lambdaPow, run_adjustUnitBy_of_some one_ne_zero (eq_mul_norm_one _) hlog, one_mul]

theorem run_solveBy_of_none (hlog : log? (lambdaPow (2 * j)) = none) (ctx : Context) (s : SearchState) :
    (solveBy log? (lambdaPow (2 * j)) ctx).run s
      = (.ok none, { s with reports := s.reports.push (notAUnit (lambdaPow (2 * j)) (lambdaPow (2 * j))) }) := by
  rw [run_solveBy_lambdaPow, run_adjustUnitBy_of_none one_ne_zero (eq_mul_norm_one _) hlog]

end Solver

/-- **The leftover unit is recognized up to the working precision.** Let the estimates of exponents be near to the
logarithm, as those in double precision are meant to be, which the program uses. Then an exponent that is found is
right; it is found for the powers of `λ` that are not below one, and for the other ones as long as `λ²ⁿ` is below
`2 ^ prec` by eight bits. Above that by three bits no exponent is found, although there is one. The solver completes
a solution just when the exponent of the unit is found, so that it solves the equation for `λ²ʲ` without a limit, and
for `λ⁻²ʲ` up to that limit: behind it the unit is reported to be none. -/
theorem unit_recognized_up_to_precision {o : Options} {ctx : Context} (hctx : Context.ofOptions o = .ok ctx)
    {exponent : BinFloat → Int} {B : ℝ} (hexp : Estimates exponent B) :
    ((∀ u, lambdaLog? u ctx.toConstants = lambdaLogBy? (doubleExponent ctx.toConstants) u ctx.toConstants) ∧
      ∀ xi, solve xi ctx = solveBy (lambdaLog? · ctx.toConstants) xi ctx) ∧
    (∀ u m, lambdaLogBy? exponent u ctx.toConstants = some m → u = lambdaPow m) ∧
    (∀ n : ℕ, (n + 1) * Real.log lambdaReal ≤ B →
      lambdaLogBy? exponent (lambdaPow n) ctx.toConstants = some (n : ℤ) ∧
      (lambdaReal ^ (2 * n) ≤ 2 ^ (ctx.prec - 8) →
        lambdaLogBy? exponent (lambdaPow (-n)) ctx.toConstants = some (-n : ℤ)) ∧
      (2 ^ (ctx.prec + 3) ≤ lambdaReal ^ (2 * n) →
        lambdaLogBy? exponent (lambdaPow (-n)) ctx.toConstants = none)) ∧
    (∀ (log? : ZSqrt2 → Option Int) (t : ZOmega) (j : ℤ) (s : SearchState), t ≠ 0 →
      (log? (lambdaPow (2 * j)) = some (2 * j) →
        (adjustUnitBy log? (lambdaPow (2 * j) * t.norm) t).run s
          = (.ok (some (t * ZOmega.ofZSqrt2 (lambdaPow j))), s)) ∧
      (log? (lambdaPow (2 * j)) = none →
        ((adjustUnitBy log? (lambdaPow (2 * j) * t.norm) t).run s).1 = .ok none)) ∧
    (∀ (j : ℕ) (s : SearchState), (2 * j + 1) * Real.log lambdaReal ≤ B →
      (solveBy (lambdaLogBy? exponent · ctx.toConstants) (lambdaPow (2 * j)) ctx).run s
        = (.ok (some (ZOmega.ofZSqrt2 (lambdaPow j))), s) ∧
      (lambdaReal ^ (4 * j) ≤ 2 ^ (ctx.prec - 8) →
        (solveBy (lambdaLogBy? exponent · ctx.toConstants) (lambdaPow (2 * -j)) ctx).run s
          = (.ok (some (ZOmega.ofZSqrt2 (lambdaPow (-j)))), s)) ∧
      (2 ^ (ctx.prec + 3) ≤ lambdaReal ^ (4 * j) →
        (solveBy (lambdaLogBy? exponent · ctx.toConstants) (lambdaPow (2 * -j)) ctx).run s
          = (.ok none,
            { s with reports := s.reports.push (notAUnit (lambdaPow (2 * -j)) (lambdaPow (2 * -j))) }))) := by
  have hc : ctx.toConstants.Accurate := by
    obtain ⟨hd, hdigits⟩ := Context.eq_ofDigits hctx
    rw [hdigits]
    exact Constants.ofDigits_accurate hd
  have hfound (n : ℕ) (hn : (n + 1) * Real.log lambdaReal ≤ B) :
      lambdaLogBy? exponent (lambdaPow n) ctx.toConstants = some (n : ℤ) := by
    refine lambdaLogBy?_lambdaPow hc hexp (by simpa using hn) ?_
    rw [Nat.abs_cast, sub_self, zpow_zero]
    exact one_le_pow₀ (by norm_num)
  have hfound' (n : ℕ) (hn : (n + 1) * Real.log lambdaReal ≤ B) (hpow : lambdaReal ^ (2 * n) ≤ 2 ^ (ctx.prec - 8)) :
      lambdaLogBy? exponent (lambdaPow (-n)) ctx.toConstants = some (-n : ℤ) := by
    refine lambdaLogBy?_lambdaPow hc hexp (by simpa using hn) ?_
    rw [abs_neg, Nat.abs_cast, sub_neg_eq_add, ← two_mul]
    exact_mod_cast hpow
  refine ⟨⟨fun u => lambdaLog?_eq u _, fun xi => solve_eq xi ctx⟩, fun u m h => (lambdaPow_of_lambdaLogBy? h).2.2.symm,
    fun n hn => ⟨hfound n hn, hfound' n hn, lambdaLogBy?_lambdaPow_eq_none hc hexp hn⟩, fun log? t j s ht => ?_,
    fun j s hj => ?_⟩
  · refine ⟨fun hlog => run_adjustUnitBy_of_some ht rfl hlog s, fun hlog => ?_⟩
    rw [run_adjustUnitBy_of_none ht rfl hlog]
  · have hn : ((2 * j : ℕ) + 1 : ℝ) * Real.log lambdaReal ≤ B := by exact_mod_cast hj
    have hneg : (2 * -j : ℤ) = -(2 * j : ℕ) := by
      push_cast
      ring
    have hfour : 4 * j = 2 * (2 * j) := by ring
    refine ⟨run_solveBy_of_some ?_ ctx s, fun hpow => run_solveBy_of_some ?_ ctx s,
      fun hpow => run_solveBy_of_none ?_ ctx s⟩
    · exact_mod_cast hfound (2 * j) hn
    · rw [hneg]
      exact hfound' (2 * j) hn (hfour ▸ hpow)
    · rw [hneg]
      exact lambdaLogBy?_lambdaPow_eq_none hc hexp hn (hfour ▸ hpow)

/-- At one digit, with `148` bits, the equations for `λ⁶⁰` and `λ⁻⁴⁰` are solved, and that for `λ⁻⁶⁰` is not. -/
theorem unit_recognized_up_to_precision_sixty :
    ∃ ctx, Context.ofOptions (Options.withPrecision 1) = .ok ctx ∧ ∀ s,
      (solveBy (lambdaLogBy? nearestExponent · ctx.toConstants) (lambdaPow 60) ctx).run s
        = (.ok (some (ZOmega.ofZSqrt2 (lambdaPow 30))), s) ∧
      (solveBy (lambdaLogBy? nearestExponent · ctx.toConstants) (lambdaPow (-40)) ctx).run s
        = (.ok (some (ZOmega.ofZSqrt2 (lambdaPow (-20)))), s) ∧
      ((solveBy (lambdaLogBy? nearestExponent · ctx.toConstants) (lambdaPow (-60)) ctx).run s).1 = .ok none := by
  obtain ⟨ctx, hctx⟩ : ∃ ctx, Context.ofOptions (Options.withPrecision 1) = .ok ctx := ⟨_, rfl⟩
  have hprec : ctx.prec = 148 := congrArg Constants.prec (Context.eq_ofDigits hctx).2
  have hlam := lambdaReal_bounds
  have hlog := log_lambdaReal_bounds
  obtain ⟨-, -, -, -, h⟩ := unit_recognized_up_to_precision hctx (estimates_nearestExponent 100)
  rw [hprec] at h
  refine ⟨ctx, hctx, fun s => ⟨(h 30 s ?_).1, (h 20 s ?_).2.1 ?_, ?_⟩⟩
  · norm_num
    linarith
  · norm_num
    linarith
  · refine (pow_le_pow_left₀ lambdaReal_pos.le hlam.2.le _).trans ?_
    norm_num
  · have hlost := (h 30 s (by norm_num; linarith)).2.2 ?_
    · exact congrArg Prod.fst hlost
    · refine le_trans ?_ (pow_le_pow_left₀ (by norm_num) hlam.1.le _)
      norm_num

/-- **A unit is lost to cancellation.** At one digit nothing is left of `λ⁻⁶⁰` when it is computed, so that no exponent
is found, with whatever estimates; the solver reports that it is no unit and gives up, although `λ⁻³⁰` is a solution. -/
theorem unit_lost_to_cancellation :
    ∃ ctx, Context.ofOptions (Options.withPrecision 1) = .ok ctx ∧
      lambdaLog? (lambdaPow (-60)) ctx.toConstants ≠ some (-60) ∧
      (∀ s, (solve (lambdaPow (-60)) ctx).run s
        = (.ok none, { s with reports := s.reports.push (notAUnit (lambdaPow (-60)) (lambdaPow (-60))) })) ∧
      ZOmega.ofZSqrt2 (lambdaPow (-30)) * (ZOmega.ofZSqrt2 (lambdaPow (-30))).conj
        = ZOmega.ofZSqrt2 (lambdaPow (-60)) := by
  obtain ⟨ctx, hctx⟩ : ∃ ctx, Context.ofOptions (Options.withPrecision 1) = .ok ctx := ⟨_, rfl⟩
  have hdigits : ctx.toConstants = Constants.ofDigits 1 := (Context.eq_ofDigits hctx).2
  have hzero : ((lambdaPow (-60)).toReal (Constants.ofDigits 1)).isPositive = false := by decide +kernel
  have hnone : lambdaLog? (lambdaPow (-60)) ctx.toConstants = none := by
    rw [hdigits, lambdaLog?]
    dsimp only
    rw [if_neg (by rw [hzero]; decide)]
  refine ⟨ctx, hctx, by rw [hnone]; exact nofun, fun s => ?_, ?_⟩
  · show (solveBy (lambdaLog? · ctx.toConstants) (lambdaPow (2 * -30)) ctx).run s = _
    exact run_solveBy_of_none hnone ctx s
  · exact ZOmega.mul_conj_eq_iff.2 (norm_ofZSqrt2_lambdaPow (-30))

end CliffordT.NormEquation
