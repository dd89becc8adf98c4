/-
How near the constants of a context are to the numbers they stand for.

The powers of ten are exact, since the working precision is far above the number of digits. What is
computed from them and from the root of two has the error of the few operations that it took. The
tolerance does not exceed the accuracy: they are the same number from 15 digits on, and a factor ten
or more apart below that.
-/
import CliffordT.Proofs.BinFloat.Rounding
import CliffordT.Settings.Context

namespace CliffordT

namespace BinFloat

/-! ## Exact integers -/

/-- The natural number `n`, as it is. -/
def ofNatExact (n p : Nat) : BinFloat := ⟨n, 0, p⟩

theorem bitLength_le_of_lt {n p : Nat} (h : n < 2 ^ p) : bitLength (n : Int) ≤ p := by
  by_cases h0 : n = 0
  · subst h0
    exact Nat.zero_le p
  · rw [bitLength_of_ne_zero (by exact_mod_cast h0), Int.natAbs_natCast]
    exact (Nat.log2_lt h0).2 h

theorem ofInt_eq_exact {n p : Nat} (h : n < 2 ^ p) : ofInt n p = ofNatExact n p := by
  unfold ofInt ofScaled ofNatExact
  split
  · rename_i h0
    rw [h0]
  · dsimp only
    rw [if_neg (not_lt.2 (bitLength_le_of_lt h))]

theorem mul_exact {a b p : Nat} (h : a * b < 2 ^ p) :
    ofNatExact a p * ofNatExact b p = ofNatExact (a * b) p := by
  have hmul : ofNatExact a p * ofNatExact b p = ofInt (a * b : Nat) p := by
    show ofScaled ((a : Int) * b) (0 + 0) (max p p) = ofScaled (a * b : Nat) 0 p
    rw [Nat.max_self, Nat.cast_mul]
    rfl
  rw [hmul, ofInt_eq_exact h]

/-- A power that fits is exact. The square beyond the last digit of the exponent may not be, but it
is not used. -/
theorem mulPow_exact {a b p n : Nat} (ha : 0 < a) (hb : 0 < b) (h : a * b ^ n < 2 ^ p) :
    mulPow (ofNatExact a p) (ofNatExact b p) n = ofNatExact (a * b ^ n) p := by
  induction n using Nat.strong_induction_on generalizing a b with
  | _ n ih =>
    unfold mulPow
    split
    · rename_i h0
      rw [h0, pow_zero, mul_one]
    · rename_i h0
      have hacc : a * b < 2 ^ p := by
        refine lt_of_le_of_lt (Nat.mul_le_mul_left a ?_) h
        exact Nat.le_self_pow h0 b
      by_cases h1 : n = 1
      · subst h1
        rw [if_pos rfl, mul_exact hacc, pow_one]
        unfold mulPow
        rfl
      · have hsq : b * b < 2 ^ p := by
          refine lt_of_le_of_lt ?_ h
          calc b * b = b ^ 2 := (sq b).symm
            _ ≤ b ^ n := Nat.pow_le_pow_right hb (by omega)
            _ ≤ a * b ^ n := Nat.le_mul_of_pos_left _ ha
        have hpow : b ^ n = b ^ (n % 2) * (b * b) ^ (n / 2) := by
          rw [← sq, ← pow_mul, ← pow_add, Nat.mod_add_div]
        rw [mul_exact hsq]
        split
        · rename_i hodd
          rw [hodd, pow_one] at hpow
          rw [hpow, ← Nat.mul_assoc] at h ⊢
          rw [mul_exact hacc]
          exact ih (n / 2) (by omega) (Nat.mul_pos ha hb) (Nat.mul_pos hb hb) h
        · rename_i heven
          have heven : n % 2 = 0 := by omega
          rw [heven, pow_zero, one_mul] at hpow
          rw [hpow] at h ⊢
          exact ih (n / 2) (by omega) ha (Nat.mul_pos hb hb) h

/-- The powers of ten that the accuracies are taken from. -/
theorem pow_ten_exact {p n : Nat} (h : 10 ^ n < 2 ^ p) (h10 : 10 < 2 ^ p) :
    (ofInt 10 p).pow n = ofNatExact (10 ^ n) p := by
  have hone : one (ofInt 10 p).prec = ofNatExact 1 p := by
    rw [prec_ofInt]
    rfl
  have hten : ofInt 10 p = ofNatExact 10 p := ofInt_eq_exact h10
  unfold pow
  rw [hone, hten, mulPow_exact Nat.one_pos (by norm_num) (by rwa [Nat.one_mul]), Nat.one_mul]

theorem value_ofNatExact (n p : Nat) : (ofNatExact n p).value = n := by
  simp [ofNatExact, value]

end BinFloat

open BinFloat

/-! ## The constants -/

/-- The constants are what they stand for, up to a few rounding errors. -/
structure Constants.Accurate (c : Constants) : Prop where
  prec_ge : 148 ≤ c.prec
  sqrt2 : Within (2 * roundoff c.prec) c.sqrt2.value √2
  prec_sqrt2 : c.sqrt2.prec = c.prec
  invSqrt2 : Within (12 * roundoff c.prec) c.invSqrt2.value (1 / √2)
  prec_invSqrt2 : c.invSqrt2.prec = c.prec
  eps_nonneg : 0 ≤ c.eps.value
  eps_le_one : c.eps.value ≤ 1
  prec_eps : c.eps.prec = c.prec
  tol_le_eps : c.tol.value ≤ c.eps.value

/-- A negative power of ten. -/
theorem value_tenPow_within {p n : Nat} (h : 10 ^ n < 2 ^ p) (h10 : 10 < 2 ^ p) :
    Within (2 * roundoff p) (one p / (ofInt 10 p).pow n).value (1 / 10 ^ n) := by
  have hpow : ((ofInt 10 p).pow n).value = 10 ^ n := by
    rw [pow_ten_exact h h10, value_ofNatExact]
    push_cast
    rfl
  have hdiv := value_div_within (x := one p) (y := (ofInt 10 p).pow n) (p := p) (le_max_left _ _)
    (by rw [hpow]; positivity)
  rwa [value_one, hpow] at hdiv

theorem ten_pow_lt {n p : Nat} (h : 4 * n < p) : 10 ^ n < 2 ^ p :=
  calc 10 ^ n ≤ (2 ^ 4) ^ n := Nat.pow_le_pow_left (by norm_num) n
    _ = 2 ^ (4 * n) := (pow_mul 2 4 n).symm
    _ < 2 ^ p := Nat.pow_lt_pow_right (by norm_num) h

namespace Constants

variable {digits : Nat}

theorem ofDigits_eps (digits : Nat) : (ofDigits digits).eps
    = BinFloat.one (20 * digits + 128) / (ofInt 10 (20 * digits + 128)).pow digits := rfl

theorem ofDigits_tol (digits : Nat) : (ofDigits digits).tol
    = BinFloat.one (20 * digits + 128) / (ofInt 10 (20 * digits + 128)).pow (max 15 digits) := rfl

theorem eps_within (digits : Nat) :
    Within (2 * roundoff (20 * digits + 128)) (ofDigits digits).eps.value (1 / 10 ^ digits) :=
  value_tenPow_within (ten_pow_lt (by omega)) (ten_pow_lt (n := 1) (by omega))

theorem tol_within (digits : Nat) :
    Within (2 * roundoff (20 * digits + 128)) (ofDigits digits).tol.value
      (1 / 10 ^ max 15 digits) :=
  value_tenPow_within (ten_pow_lt (by omega)) (ten_pow_lt (n := 1) (by omega))

theorem sqrt2_within (digits : Nat) :
    Within (2 * roundoff (20 * digits + 128)) (ofDigits digits).sqrt2.value √2 := by
  have htwo : (ofInt 2 (20 * digits + 128)).value = 2 :=
    value_ofInt_of_fits (by show 2 ≤ _; omega)
  have h := value_sqrt_within (x := ofInt 2 (20 * digits + 128)) (by rw [htwo]; norm_num)
  rwa [htwo, prec_ofInt] at h

theorem ofDigits_invSqrt2 (digits : Nat) :
    (ofDigits digits).invSqrt2 = BinFloat.one (20 * digits + 128) / (ofDigits digits).sqrt2 := by
  simp only [ofDigits]

theorem invSqrt2_within (digits : Nat) :
    Within (12 * roundoff (20 * digits + 128)) (ofDigits digits).invSqrt2.value (1 / √2) := by
  have hη := roundoff_pos (20 * digits + 128)
  have hη' : roundoff (20 * digits + 128) ≤ 1 / 2 ^ 128 :=
    (roundoff_anti (by omega)).trans (roundoff_eq 128).le
  have hsqrt := sqrt2_within digits
  have hne : (ofDigits digits).sqrt2.value ≠ 0 := by
    refine abs_pos.1 (lt_of_lt_of_le (mul_pos ?_ ?_) hsqrt.le_abs)
    · linarith
    · positivity
  have hexact := (Within.refl (le_refl 0) (1 : ℝ)).div (by linarith) (by linarith) (by norm_num)
    hsqrt
  have hround := value_div_within (x := BinFloat.one (20 * digits + 128))
    (y := (ofDigits digits).sqrt2)
    (p := 20 * digits + 128) (le_max_left _ _) hne
  rw [value_one] at hround
  rw [ofDigits_invSqrt2]
  exact (hround.trans (by linarith) (by linarith) hexact).mono (by linarith)

/-- The tolerance is the accuracy itself, or smaller by a factor of ten. -/
theorem tol_le_eps (digits : Nat) :
    (ofDigits digits).tol.value ≤ (ofDigits digits).eps.value := by
  rcases Nat.lt_or_ge digits 15 with hlt | hge
  · have hη' : roundoff (20 * digits + 128) ≤ 1 / 2 ^ 128 :=
      (roundoff_anti (by omega)).trans (roundoff_eq 128).le
    have heps := abs_le.1 (eps_within digits).sub_le
    have htol := abs_le.1 (tol_within digits).sub_le
    have hmax : max 15 digits = 15 := max_eq_left hlt.le
    have hpow : (1 : ℝ) / 10 ^ 14 ≤ 1 / 10 ^ digits :=
      one_div_le_one_div_of_le (by positivity) (pow_le_pow_right₀ (by norm_num) (by omega))
    rw [hmax, abs_of_pos (by positivity)] at htol
    rw [abs_of_pos (by positivity)] at heps
    generalize (1 : ℝ) / 10 ^ digits = e at hpow heps
    have hge : e / 2 ≤ (ofDigits digits).eps.value := by
      nlinarith
    linarith
  · have hmax : max 15 digits = digits := max_eq_right hge
    have htol : (ofDigits digits).tol = (ofDigits digits).eps := by
      rw [ofDigits_tol, ofDigits_eps, hmax]
    rw [htol]

theorem ofDigits_accurate (hd : 0 < digits) : (ofDigits digits).Accurate where
  prec_ge := by
    show 148 ≤ 20 * digits + 128
    omega
  sqrt2 := sqrt2_within digits
  prec_sqrt2 := (prec_sqrt _).trans (prec_ofInt _ _)
  invSqrt2 := invSqrt2_within digits
  prec_invSqrt2 := by
    refine (prec_div _ _).trans ?_
    rw [prec_one, prec_sqrt, prec_ofInt, Nat.max_self]
    rfl
  eps_nonneg := by
    have habs := abs_le.1 (eps_within digits).sub_le
    have hη' : roundoff (20 * digits + 128) ≤ 1 / 2 := by
      refine (roundoff_anti (Nat.one_le_iff_ne_zero.2 (by omega))).trans (roundoff_eq 1).le |>.trans ?_
      norm_num
    have hpos : (0 : ℝ) < 1 / 10 ^ digits := by positivity
    rw [abs_of_pos hpos] at habs
    nlinarith [habs.1]
  eps_le_one := by
    have habs := abs_le.1 (eps_within digits).sub_le
    have hpow : (1 : ℝ) / 10 ^ digits ≤ 1 / 10 :=
      one_div_le_one_div_of_le (by norm_num) (le_self_pow₀ (by norm_num) hd.ne')
    have hpos : (0 : ℝ) < 1 / 10 ^ digits := by positivity
    rw [abs_of_pos hpos] at habs
    have hmul := mul_le_of_le_one_left hpos.le (roundoff_le_one (20 * digits + 128))
    linarith [habs.2]
  prec_eps := by
    rw [ofDigits_eps, prec_div, pow_ten_exact (ten_pow_lt (by omega)) (ten_pow_lt (n := 1) (by omega))]
    exact Nat.max_self _
  tol_le_eps := tol_le_eps digits

end Constants

/-- The constants of a context are those of a positive number of digits. -/
theorem Context.eq_ofDigits {o : Options} {ctx : Context} (h : Context.ofOptions o = .ok ctx) :
    0 < o.precision ∧ ctx.toConstants = Constants.ofDigits o.precision := by
  unfold Context.ofOptions at h
  split at h
  · cases h
  · rename_i hvalid
    split at h
    · cases h
    · cases h
      refine ⟨Nat.pos_of_ne_zero fun h0 => ?_, rfl⟩
      unfold Options.validate at hvalid
      rw [if_pos h0] at hvalid
      cases hvalid

/-- The working precision of a context takes 32 bits, with its guard bits. -/
theorem Context.prec_lt {o : Options} {ctx : Context} (h : Context.ofOptions o = .ok ctx) :
    ctx.prec + 32 < 2 ^ 32 := by
  have hprec : ctx.prec = 20 * o.precision + 128 := congrArg Constants.prec (eq_ofDigits h).2
  unfold Context.ofOptions at h
  split at h
  · cases h
  · split at h
    · cases h
    · omega

end CliffordT
