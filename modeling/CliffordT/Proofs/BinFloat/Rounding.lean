/-
What one rounded operation loses.

`Within e a b` says that `a` is `b` up to the relative error `e`. A mantissa of `p` bits is rounded
within `roundoff p = 2⁻ᵖ`; a sum, a quotient and a square root, of which bits are dropped before the
rounding, come out within twice that. The rules for products, quotients and successive errors take the
smaller of two errors with a factor that makes up for their product, so that errors of a chain of
operations are added up.
-/
import Mathlib.Algebra.Order.Floor.Semifield
import Mathlib.Analysis.Real.Sqrt
import Mathlib.Data.Nat.Cast.Order.Field
import Mathlib.Tactic.FieldSimp
import CliffordT.Proofs.BinFloat.Value

namespace CliffordT.BinFloat

/-! ## Relative errors -/

/-- Two differences in a row. -/
theorem abs_sub_le_add {a b c d e f : ℝ} (h : |a - b| ≤ e) (h' : |d| ≤ f) (hd : b - c = d) :
    |a - c| ≤ e + f :=
  (abs_sub_le a b c).trans (add_le_add h (hd ▸ h'))

/-- The number `a` is `b` up to the relative error `e`. -/
def Within (e a b : ℝ) : Prop := |a - b| ≤ e * |b|

namespace Within

variable {e f a b c d : ℝ}

theorem refl (he : 0 ≤ e) (a : ℝ) : Within e a a := by
  unfold Within
  rw [sub_self, abs_zero]
  exact mul_nonneg he (abs_nonneg a)

theorem sub_le (h : Within e a b) : |a - b| ≤ e * |b| := h

theorem mono (h : Within e a b) (hef : e ≤ f) : Within f a b :=
  h.sub_le.trans (mul_le_mul_of_nonneg_right hef (abs_nonneg b))

theorem neg (h : Within e a b) : Within e (-a) (-b) := by
  unfold Within at h ⊢
  rwa [abs_neg, neg_sub_neg, abs_sub_comm]

theorem abs_le (h : Within e a b) : |a| ≤ (1 + e) * |b| :=
  calc |a| = |(a - b) + b| := by rw [sub_add_cancel]
    _ ≤ |a - b| + |b| := abs_add_le _ _
    _ ≤ e * |b| + |b| := by linarith [h.sub_le]
    _ = (1 + e) * |b| := by ring

theorem le_abs (h : Within e a b) : (1 - e) * |b| ≤ |a| := by
  have habs : |b| ≤ |b - a| + |a| := by
    have := abs_add_le (b - a) a
    rwa [sub_add_cancel] at this
  rw [abs_sub_comm] at habs
  linarith [h.sub_le]

theorem eq_zero (h : Within e a b) (hb : b = 0) : a = 0 := by
  have hle := h.sub_le
  rw [hb, sub_zero, abs_zero, mul_zero] at hle
  exact abs_nonpos_iff.1 hle

theorem ne_zero (h : Within e a b) (he : e < 1) (hb : b ≠ 0) : a ≠ 0 :=
  abs_pos.1 (lt_of_lt_of_le (mul_pos (sub_pos.2 he) (abs_pos.2 hb)) h.le_abs)

/-- One error after another. -/
theorem comp (hf : 0 ≤ f) (h : Within f a b) (h' : Within e b c) :
    Within (e + f + f * e) a c :=
  calc |a - c| ≤ |a - b| + |b - c| := abs_sub_le _ _ _
    _ ≤ f * ((1 + e) * |c|) + e * |c| :=
        add_le_add (h.sub_le.trans (mul_le_mul_of_nonneg_left h'.abs_le hf)) h'.sub_le
    _ = (e + f + f * e) * |c| := by ring

theorem trans (hf : 0 ≤ f) (he : e ≤ 1) (h : Within f a b) (h' : Within e b c) :
    Within (e + 2 * f) a c :=
  (h.comp hf h').mono (by nlinarith)

/-- The errors of two factors. -/
theorem mul (he : e ≤ 1) (h : Within e a b) (h' : Within f c d) :
    Within (e + 2 * f) (a * c) (b * d) := by
  have ha : |a| ≤ 2 * |b| :=
    h.abs_le.trans (mul_le_mul_of_nonneg_right (by linarith) (abs_nonneg b))
  have hsplit : a * c - b * d = a * (c - d) + (a - b) * d := by ring
  calc |a * c - b * d| ≤ |a| * |c - d| + |a - b| * |d| := by
        rw [hsplit, ← abs_mul, ← abs_mul]
        exact abs_add_le _ _
    _ ≤ 2 * |b| * (f * |d|) + e * |b| * |d| := by
        refine add_le_add ?_ (mul_le_mul_of_nonneg_right h.sub_le (abs_nonneg d))
        exact mul_le_mul ha h'.sub_le (abs_nonneg _) (by positivity)
    _ = (e + 2 * f) * |b * d| := by
        rw [abs_mul]
        ring

theorem const_mul (h : Within e a b) (c : ℝ) : Within e (c * a) (c * b) := by
  unfold Within at h ⊢
  rw [← mul_sub, abs_mul, abs_mul, mul_left_comm]
  exact mul_le_mul_of_nonneg_left h (abs_nonneg c)

/-- A sum of one and a number that is not negative has no larger relative error than the number. -/
theorem one_add (he : 0 ≤ e) (hb : 0 ≤ b) (h : Within e a b) : Within e (1 + a) (1 + b) := by
  have hsub := h.sub_le
  rw [abs_of_nonneg hb] at hsub
  unfold Within
  rw [add_sub_add_left_eq_sub, abs_of_pos (by linarith : 0 < 1 + b)]
  exact hsub.trans (mul_le_mul_of_nonneg_left (by linarith) he)

/-- A root has the relative error of the number under it, or less. -/
theorem sqrt (ha : 0 ≤ a) (hb : 0 ≤ b) (h : Within e a b) : Within e (√a) (√b) := by
  rcases hb.eq_or_lt with rfl | hbpos
  · rw [h.eq_zero rfl]
    unfold Within
    rw [Real.sqrt_zero, sub_self, abs_zero, mul_zero]
  have hroot : 0 < √b := Real.sqrt_pos.2 hbpos
  have hsum : |√a - √b| * √b ≤ |a - b| := by
    have hfactor : a - b = (√a - √b) * (√a + √b) := by
      nlinarith [Real.sq_sqrt ha, Real.sq_sqrt hb]
    rw [hfactor, abs_mul, abs_of_pos (by positivity : 0 < √a + √b)]
    exact mul_le_mul_of_nonneg_left (by linarith [Real.sqrt_nonneg a]) (abs_nonneg _)
  have hsub := h.sub_le
  have hsq : b = √b * √b := (Real.mul_self_sqrt hb).symm
  rw [abs_of_pos hbpos] at hsub
  unfold Within
  rw [abs_of_pos hroot]
  refine le_of_mul_le_mul_right ?_ hroot
  calc |√a - √b| * √b ≤ |a - b| := hsum
    _ ≤ e * b := hsub
    _ = e * √b * √b := by rw [mul_assoc, ← hsq]

theorem inv (hf : 0 ≤ f) (hf' : f ≤ 1 / 2) (h : Within f c d) : Within (2 * f) c⁻¹ d⁻¹ := by
  by_cases hd : d = 0
  · have hc : c = 0 := by
      unfold Within at h
      rw [hd, abs_zero, mul_zero, sub_zero] at h
      exact abs_eq_zero.1 (le_antisymm h (abs_nonneg c))
    rw [hc, hd]
    exact .refl (by linarith) _
  have hdpos : 0 < |d| := abs_pos.2 hd
  have hlow : 1 / 2 * |d| ≤ |c| :=
    (mul_le_mul_of_nonneg_right (by linarith) hdpos.le).trans h.le_abs
  have hcpos : 0 < |c| := lt_of_lt_of_le (by positivity) hlow
  have hc : c ≠ 0 := abs_pos.1 hcpos
  have hsplit : c⁻¹ - d⁻¹ = (d - c) / (c * d) := by
    field_simp
  unfold Within
  rw [hsplit, abs_div, abs_mul, abs_inv, div_le_iff₀ (mul_pos hcpos hdpos), abs_sub_comm]
  calc |c - d| ≤ f * |d| := h
    _ = 2 * f * (1 / 2 * |d|) := by ring
    _ ≤ 2 * f * |c| := mul_le_mul_of_nonneg_left hlow (by linarith)
    _ = 2 * f * |d|⁻¹ * (|c| * |d|) := by
        field_simp

/-- The errors of a dividend and of a divisor. -/
theorem div (hf : 0 ≤ f) (hf' : f ≤ 1 / 2) (he : e ≤ 1) (h : Within e a b) (h' : Within f c d) :
    Within (e + 4 * f) (a / c) (b / d) := by
  rw [div_eq_mul_inv, div_eq_mul_inv]
  exact (h.mul he (h'.inv hf hf')).mono (by linarith)

end Within

/-! ## Rounding a mantissa -/

/-- The largest relative error of a mantissa rounded to `p` bits. -/
noncomputable def roundoff (p : Nat) : ℝ := 2 ^ (-(p : ℤ))

theorem roundoff_pos (p : Nat) : 0 < roundoff p := two_zpow_pos _

theorem roundoff_add (p q : Nat) : roundoff (p + q) = roundoff p * roundoff q := by
  unfold roundoff
  rw [← two_zpow_add]
  congr 1
  push_cast
  ring

theorem two_zpow_sub (k : ℤ) (p : Nat) : (2 : ℝ) ^ (k - p : ℤ) = 2 ^ k * roundoff p := by
  rw [sub_eq_add_neg, two_zpow_add, roundoff]

theorem roundoff_anti {p q : Nat} (h : p ≤ q) : roundoff q ≤ roundoff p :=
  zpow_le_zpow_right₀ (by norm_num) (by omega)

theorem roundoff_le_one (p : Nat) : roundoff p ≤ 1 := by
  have h := roundoff_anti (Nat.zero_le p)
  unfold roundoff at h ⊢
  simpa using h

theorem roundoff_mul_two_pow (p : Nat) : roundoff p * 2 ^ p = 1 := by
  unfold roundoff
  rw [zpow_neg, zpow_natCast]
  exact inv_mul_cancel₀ (by positivity)

theorem roundoff_eq (p : Nat) : roundoff p = 1 / 2 ^ p := by
  rw [eq_div_iff (by positivity)]
  exact roundoff_mul_two_pow p

theorem roundoff_add_eq_div (p q : Nat) : roundoff (p + q) = roundoff p / 2 ^ q := by
  rw [roundoff_add, roundoff_eq q, mul_one_div]

theorem roundoff_le_quarter {p : Nat} (hp : 2 ≤ p) : roundoff p ≤ 1 / 4 := by
  have hle := roundoff_anti hp
  rw [roundoff_eq 2] at hle
  linarith

/-- Bits grow faster than their number. -/
theorem mul_roundoff_le_one (p : Nat) : (p : ℝ) * roundoff p ≤ 1 := by
  rw [← roundoff_mul_two_pow p, mul_comm]
  exact mul_le_mul_of_nonneg_left (by exact_mod_cast (Nat.lt_two_pow_self).le) (roundoff_pos p).le

/-- The nearest integer, a half going up, does not look at the digits after the point. -/
theorem floor_div_add_half (w : ℝ) (s : Nat) :
    ⌊w / 2 ^ (s + 1) + 1 / 2⌋ = (⌊w⌋ + 2 ^ s) / 2 ^ (s + 1) := by
  have hhalf : w / 2 ^ (s + 1) + 1 / 2 = (w + (2 ^ s : Int)) / ((2 ^ (s + 1) : Nat) : ℝ) := by
    push_cast
    rw [pow_succ]
    field_simp
  rw [hhalf, Int.floor_div_natCast, Int.floor_add_intCast]
  norm_cast

/-- Adding half of `2ˢ⁺¹` before the shift makes the quotient the nearest integer, a half going up. -/
theorem shiftRight_half_up (m : Int) (s : Nat) :
    (m + (1 : Int) <<< s) >>> (s + 1) = ⌊(m : ℝ) / 2 ^ (s + 1) + 1 / 2⌋ := by
  rw [floor_div_add_half, Int.floor_intCast, Int.shiftLeft_eq, one_mul, Int.shiftRight_eq_div_pow]
  norm_cast

/-- What the shift leaves is within half a unit. -/
theorem abs_shiftRight_sub_le (m : Int) (s : Nat) :
    |(((m + (1 : Int) <<< s) >>> (s + 1) : Int) : ℝ) * 2 ^ (s + 1) - m| ≤ 2 ^ s := by
  have hpos : (0 : ℝ) < 2 ^ (s + 1) := by positivity
  have hm : (m : ℝ) / 2 ^ (s + 1) * 2 ^ (s + 1) = m := div_mul_cancel₀ _ hpos.ne'
  have hhalf : (2 : ℝ) ^ s = 1 / 2 * 2 ^ (s + 1) := by
    rw [pow_succ]
    ring
  rw [shiftRight_half_up]
  generalize (m : ℝ) / 2 ^ (s + 1) = w at hm ⊢
  have hlow := Int.floor_le (w + 1 / 2)
  have hhigh := Int.lt_floor_add_one (w + 1 / 2)
  rw [← hm, ← sub_mul, abs_mul, abs_of_pos hpos, hhalf]
  refine mul_le_mul_of_nonneg_right (abs_le.2 ⟨?_, ?_⟩) hpos.le
  · linarith
  · linarith

@[simp] theorem prec_ofScaled (m e : Int) (p : Nat) : (ofScaled m e p).prec = p := by
  unfold ofScaled
  split
  · rfl
  · dsimp only
    split
    · rfl
    · rfl

/-- A mantissa that fits is kept. -/
theorem value_ofScaled_of_fits {m : Int} {p : Nat} (h : bitLength m ≤ p) (e : Int) :
    (ofScaled m e p).value = m * 2 ^ e := by
  unfold ofScaled
  split
  · rename_i h0
    rw [h0, Int.cast_zero, zero_mul]
    exact value_zero p
  · dsimp only
    rw [if_neg (not_lt.2 h)]
    rfl

/-- A mantissa is rounded within half a unit of its last place. -/
theorem ofScaled_within (m e : Int) (p : Nat) :
    Within (roundoff p) (ofScaled m e p).value (m * 2 ^ e) := by
  by_cases hfits : bitLength m ≤ p
  · rw [value_ofScaled_of_fits hfits]
    exact .refl (roundoff_pos p).le _
  have hm : m ≠ 0 := by
    rintro rfl
    exact hfits (Nat.zero_le p)
  obtain ⟨s, hs⟩ := Nat.exists_eq_add_of_lt (not_le.1 hfits)
  have hshift : bitLength m - p = s + 1 := by omega
  have hvalue : (ofScaled m e p).value
      = ((m + (1 : Int) <<< s) >>> (s + 1) : Int) * 2 ^ (s + 1) * 2 ^ e := by
    unfold ofScaled
    rw [if_neg hm]
    dsimp only
    rw [if_pos (not_le.1 hfits), hshift, Nat.add_sub_cancel]
    show ((_ : Int) : ℝ) * 2 ^ (e + (s + 1 : Nat)) = _
    rw [two_zpow_add, zpow_natCast, mul_comm ((2 : ℝ) ^ e), mul_assoc]
  have hround := abs_shiftRight_sub_le m s
  -- half a unit of the last place, against the leading bit
  have hlead : (2 : ℝ) ^ s ≤ roundoff p * |(m : ℝ)| := by
    have hbits : bitLength m - 1 = p + s := by omega
    have hle := two_pow_le_abs hm
    rw [hbits, pow_add] at hle
    calc (2 : ℝ) ^ s = roundoff p * (2 ^ p * 2 ^ s) := by
          rw [← mul_assoc, roundoff_mul_two_pow, one_mul]
      _ ≤ roundoff p * |(m : ℝ)| := mul_le_mul_of_nonneg_left hle (roundoff_pos p).le
  unfold Within
  rw [hvalue, ← sub_mul, abs_mul, abs_mul (m : ℝ), abs_of_pos (two_zpow_pos e), ← mul_assoc]
  exact mul_le_mul_of_nonneg_right (hround.trans hlead) (two_zpow_pos e).le

/-! ## The operations -/

section Operations

variable {x y : BinFloat} {p : Nat}

theorem value_withPrec_within (x : BinFloat) (p : Nat) :
    Within (roundoff p) (x.withPrec p).value x.value :=
  ofScaled_within x.mant x.exp p

@[simp] theorem prec_withPrec (x : BinFloat) (p : Nat) : (x.withPrec p).prec = p :=
  prec_ofScaled _ _ _

@[simp] theorem prec_ofInt (n : Int) (p : Nat) : (ofInt n p).prec = p := prec_ofScaled _ _ _

theorem value_ofInt_within (n : Int) (p : Nat) : Within (roundoff p) (ofInt n p).value n := by
  have h := ofScaled_within n 0 p
  rwa [zpow_zero, mul_one] at h

theorem value_ofInt_of_fits {n : Int} (h : bitLength n ≤ p) : (ofInt n p).value = n := by
  have h := value_ofScaled_of_fits h 0
  rwa [zpow_zero, mul_one] at h

@[simp] theorem prec_mul (x y : BinFloat) : (x * y).prec = max x.prec y.prec := prec_ofScaled _ _ _

/-- A product is rounded once. -/
theorem value_mul_within (h : p ≤ max x.prec y.prec) :
    Within (roundoff p) (x * y).value (x.value * y.value) := by
  have hround := ofScaled_within (x.mant * y.mant) (x.exp + y.exp) (max x.prec y.prec)
  have hexact : ((x.mant * y.mant : Int) : ℝ) * 2 ^ (x.exp + y.exp) = x.value * y.value := by
    unfold value
    rw [two_zpow_add]
    push_cast
    ring
  rw [hexact] at hround
  exact hround.mono (roundoff_anti h)

/-- A product does not vanish by its rounding. -/
theorem value_mul_ne_zero (h : 1 ≤ max x.prec y.prec) (hx : x.value ≠ 0) (hy : y.value ≠ 0) :
    (x * y).value ≠ 0 := by
  have hu : roundoff 1 = 1 / 2 := by rw [roundoff_eq, pow_one]
  exact (value_mul_within h).ne_zero (by rw [hu]; norm_num) (mul_ne_zero hx hy)

/-- A summand wholly below the rounding bit of the other one is lost with little more error. -/
theorem Within.add_small {η a b r : ℝ} (hη : η ≤ 1) (h : Within η r a) (hb : |b| ≤ η / 4 * |a|) :
    Within (2 * η) r (a + b) := by
  have hη0 : 0 ≤ η * |a| := (abs_nonneg _).trans h.sub_le
  have hsum : 3 / 4 * |a| ≤ |a + b| := by
    have htri : |a| ≤ |a + b| + |b| := by
      have := abs_sub (a + b) b
      rwa [add_sub_cancel_right] at this
    nlinarith [abs_nonneg a]
  calc |r - (a + b)| = |(r - a) - b| := by rw [sub_sub]
    _ ≤ |r - a| + |b| := abs_sub _ _
    _ ≤ η * |a| + η / 4 * |a| := add_le_add h.sub_le hb
    _ ≤ 2 * (η * (3 / 4 * |a|)) := by linarith
    _ ≤ 2 * η * |a + b| := by
        by_cases ha : |a| = 0
        · rw [ha, mul_zero, mul_zero, mul_zero]
          rw [ha, mul_zero] at hb
          have hb0 := abs_eq_zero.1 (le_antisymm hb (abs_nonneg b))
          rw [abs_eq_zero.1 ha, hb0, add_zero, abs_zero, mul_zero]
        · have hpos : 0 < |a| := lt_of_le_of_ne (abs_nonneg a) (Ne.symm ha)
          nlinarith

/-- The value of a number whose leading bit is that far below the one of another. -/
theorem abs_value_le_of_top {q : Nat} (hx : x.mant ≠ 0) (h : y.top + (q + 2) < x.top) :
    |y.value| ≤ roundoff q / 4 * |x.value| :=
  calc |y.value| ≤ 2 ^ y.top := (abs_value_lt_top y).le
    _ ≤ 2 ^ (-(q : ℤ) + -2 + (x.top - 1)) := zpow_le_zpow_right₀ (by norm_num) (by omega)
    _ = roundoff q / 4 * 2 ^ (x.top - 1) := by
        have hfour : (2 : ℝ) ^ (-2 : ℤ) = 1 / 4 := by norm_num
        rw [two_zpow_add, two_zpow_add, hfour, mul_one_div, roundoff]
    _ ≤ roundoff q / 4 * |x.value| :=
        mul_le_mul_of_nonneg_left (two_zpow_top_le hx) (by linarith [roundoff_pos q])

@[simp] theorem prec_add (x y : BinFloat) : (x + y).prec = max x.prec y.prec := by
  show (add x y).prec = _
  unfold add
  dsimp only
  split
  · exact prec_withPrec _ _
  · split
    · exact prec_withPrec _ _
    · split
      · exact prec_withPrec _ _
      · split
        · exact prec_withPrec _ _
        · exact prec_ofScaled _ _ _

/-- A sum is rounded once, after a summand that is too small may have been dropped. -/
theorem value_add_within (h : p ≤ max x.prec y.prec) :
    Within (2 * roundoff p) (x + y).value (x.value + y.value) := by
  have hmax := roundoff_pos (max x.prec y.prec)
  refine Within.mono ?_ (mul_le_mul_of_nonneg_left (roundoff_anti h) (by norm_num))
  have hwith (z : BinFloat) := value_withPrec_within z (max x.prec y.prec)
  show Within _ (add x y).value _
  unfold add
  dsimp only
  split
  · rename_i hy
    rw [isZero_iff.1 hy, add_zero]
    exact (hwith x).mono (by linarith)
  · rename_i hy
    split
    · rename_i hx
      rw [isZero_iff.1 hx, zero_add]
      exact (hwith y).mono (by linarith)
    · rename_i hx
      have hx0 : x.mant ≠ 0 := fun h0 => hx (isZero_iff.2 (value_eq_zero_iff.2 h0))
      have hy0 : y.mant ≠ 0 := fun h0 => hy (isZero_iff.2 (value_eq_zero_iff.2 h0))
      split
      · rename_i htop
        exact (hwith x).add_small (roundoff_le_one _) (abs_value_le_of_top hx0 htop)
      · split
        · rename_i htop
          rw [add_comm]
          exact (hwith y).add_small (roundoff_le_one _) (abs_value_le_of_top hy0 htop)
        · obtain ⟨ha, hb⟩ := value_aligned x y
          have hround := ofScaled_within ((aligned x y).1 + (aligned x y).2.1) (aligned x y).2.2
            (max x.prec y.prec)
          rw [Int.cast_add, add_mul, ha, hb] at hround
          exact hround.mono (by linarith)

@[simp] theorem prec_sub (x y : BinFloat) : (x - y).prec = max x.prec y.prec := prec_add x (-y)

/-- A difference is rounded as a sum is. -/
theorem value_sub_within (h : p ≤ max x.prec y.prec) :
    Within (2 * roundoff p) (x - y).value (x.value - y.value) := by
  have hadd : Within (2 * roundoff p) (x + -y).value (x.value + (-y).value) := value_add_within h
  rwa [value_neg, ← sub_eq_add_neg] at hadd

/-! ## Quotients -/

/-- The integer quotient is less than one away from the quotient. -/
theorem abs_tdiv_sub_le (n : Int) {d : Int} (hd : d ≠ 0) :
    |((n.tdiv d : Int) : ℝ) - n / d| ≤ 1 := by
  have hdiv : (n : ℝ) = d * (n.tdiv d : Int) + (n.tmod d : Int) := by
    exact_mod_cast (Int.mul_tdiv_add_tmod n d).symm
  have hmod : |((n.tmod d : Int) : ℝ)| ≤ |(d : ℝ)| := by
    have hlt : (n.tmod d).natAbs < d.natAbs := by
      rw [Int.natAbs_tmod]
      exact Nat.mod_lt _ (Int.natAbs_pos.2 hd)
    simp only [← Int.cast_abs, ← Nat.cast_natAbs]
    exact_mod_cast hlt.le
  have hsplit : ((n.tdiv d : Int) : ℝ) - n / d = -((n.tmod d : Int) / d) := by
    rw [hdiv]
    field_simp
    ring
  rw [hsplit, abs_neg, abs_div]
  exact div_le_one_of_le₀ hmod (abs_nonneg _)

/-- What is cut off is cut off towards zero. -/
theorem abs_tdiv_le (n d : Int) : |((n.tdiv d : Int) : ℝ)| ≤ |(n : ℝ) / d| := by
  rw [abs_div]
  simp only [← Int.cast_abs, ← Nat.cast_natAbs, Int.natAbs_tdiv]
  exact Nat.cast_div_le

/-- The shift before a division makes the quotient long enough. -/
theorem two_pow_le_abs_quotient {m n : Int} (hm : m ≠ 0) (hn : n ≠ 0) {s : Nat}
    (hs : p + 2 + bitLength n ≤ bitLength m + s) : 2 ^ (p + 1) ≤ |((m <<< s : Int) : ℝ) / n| := by
  have hnum : (2 : ℝ) ^ (p + 1 + bitLength n) ≤ |((m <<< s : Int) : ℝ)| := by
    rw [cast_shiftLeft, abs_mul, abs_of_pos (by positivity : (0 : ℝ) < 2 ^ s)]
    calc (2 : ℝ) ^ (p + 1 + bitLength n) ≤ 2 ^ (bitLength m - 1 + s) :=
          pow_le_pow_right₀ (by norm_num) (by omega)
      _ = 2 ^ (bitLength m - 1) * 2 ^ s := pow_add _ _ _
      _ ≤ |(m : ℝ)| * 2 ^ s := mul_le_mul_of_nonneg_right (two_pow_le_abs hm) (by positivity)
  have hnpos : 0 < |(n : ℝ)| := abs_pos.2 (Int.cast_ne_zero.2 hn)
  rw [abs_div, le_div_iff₀ hnpos]
  calc (2 : ℝ) ^ (p + 1) * |(n : ℝ)| ≤ 2 ^ (p + 1) * 2 ^ bitLength n :=
        mul_le_mul_of_nonneg_left (abs_lt_two_pow_bitLength n).le (by positivity)
    _ ≤ |((m <<< s : Int) : ℝ)| := by rwa [← pow_add]

/-- With `p + 2` bits of the quotient developed, what is cut off is below the last place. -/
theorem tdiv_within {m n : Int} (hm : m ≠ 0) (hn : n ≠ 0) {s : Nat}
    (hs : p + 2 + bitLength n ≤ bitLength m + s) :
    Within (roundoff p / 2) (((m <<< s).tdiv n : Int) : ℝ) ((m <<< s : Int) / n) :=
  calc |(((m <<< s).tdiv n : Int) : ℝ) - (m <<< s : Int) / n| ≤ 1 := abs_tdiv_sub_le _ hn
    _ = roundoff p / 2 * 2 ^ (p + 1) := by
        rw [pow_succ, ← roundoff_mul_two_pow p]
        ring
    _ ≤ roundoff p / 2 * |((m <<< s : Int) : ℝ) / n| :=
        mul_le_mul_of_nonneg_left (two_pow_le_abs_quotient hm hn hs) (by linarith [roundoff_pos p])

/-- The quotient of the shifted mantissas, at the exponent that makes up for the shift. -/
theorem quotient_mul_two_zpow (x : BinFloat) (hy : y.value ≠ 0) (s : Nat) :
    ((x.mant <<< s : Int) : ℝ) / y.mant * 2 ^ (x.exp - y.exp - (s : ℤ)) = x.value / y.value := by
  have h2 : (2 : ℝ) ≠ 0 := by norm_num
  have hn : (y.mant : ℝ) ≠ 0 := Int.cast_ne_zero.2 fun h0 => hy (value_eq_zero_iff.2 h0)
  unfold value
  rw [cast_shiftLeft, zpow_sub₀ h2, zpow_sub₀ h2, zpow_natCast]
  field_simp

theorem div?_eq_some (hy : y.value ≠ 0) : x.div? y = some (x / y) := by
  show x.div? y = some ((x.div? y).getD _)
  unfold div?
  dsimp only
  rw [if_neg (mt isZero_iff.1 hy)]
  split
  · rfl
  · rfl

theorem div_eq (hx : x.value ≠ 0) (hy : y.value ≠ 0) :
    x / y = ofScaled
      ((x.mant <<< (max x.prec y.prec + 2 + bitLength y.mant - bitLength x.mant)).tdiv y.mant)
      (x.exp - y.exp - (max x.prec y.prec + 2 + bitLength y.mant - bitLength x.mant : Nat))
      (max x.prec y.prec) := by
  have hx' : ¬ x.isZero = true := fun h => hx (isZero_iff.1 h)
  have hy' : ¬ y.isZero = true := fun h => hy (isZero_iff.1 h)
  show (div? x y).getD _ = _
  unfold div?
  dsimp only
  rw [if_neg hy', if_neg hx']
  rfl

@[simp] theorem prec_div (x y : BinFloat) : (x / y).prec = max x.prec y.prec := by
  show ((div? x y).getD _).prec = _
  unfold div?
  dsimp only
  split
  · rfl
  · split
    · rfl
    · exact prec_ofScaled _ _ _

theorem value_zero_div (hx : x.value = 0) (hy : y.value ≠ 0) : (x / y).value = 0 := by
  show ((div? x y).getD _).value = 0
  unfold div?
  dsimp only
  rw [if_neg (mt isZero_iff.1 hy), if_pos (isZero_iff.2 hx)]
  exact value_zero _

/-- A quotient is cut off below the last place, towards zero, and rounded. -/
theorem value_div_within_three_halves (x : BinFloat) (hy : y.value ≠ 0) :
    Within (3 / 2 * roundoff (max x.prec y.prec)) (x / y).value (x.value / y.value) := by
  have hpos := roundoff_pos (max x.prec y.prec)
  by_cases hx : x.value = 0
  · rw [value_zero_div hx hy, hx, zero_div]
    exact .refl (by linarith) 0
  have hm : x.mant ≠ 0 := fun h0 => hx (value_eq_zero_iff.2 h0)
  have hn : y.mant ≠ 0 := fun h0 => hy (value_eq_zero_iff.2 h0)
  rw [div_eq hx hy]
  generalize hs : max x.prec y.prec + 2 + bitLength y.mant - bitLength x.mant = s
  generalize max x.prec y.prec = q at hs hpos ⊢
  have hcut := tdiv_within hm hn (p := q) (s := s) (by omega)
  have hless := abs_tdiv_le (x.mant <<< s) y.mant
  have hround := ofScaled_within ((x.mant <<< s).tdiv y.mant) (x.exp - y.exp - s) q
  rw [← quotient_mul_two_zpow x hy s]
  have hpow := two_zpow_pos (x.exp - y.exp - (s : ℤ))
  generalize (2 : ℝ) ^ (x.exp - y.exp - (s : ℤ)) = e at hround hpow ⊢
  generalize ((x.mant <<< s : Int) : ℝ) / y.mant = w at hcut hless ⊢
  generalize (((x.mant <<< s).tdiv y.mant : Int) : ℝ) = t at hcut hless hround
  have hfirst : |(ofScaled ((x.mant <<< s).tdiv y.mant) (x.exp - y.exp - s) q).value - t * e|
      ≤ roundoff q * (|w| * e) := by
    refine hround.sub_le.trans (mul_le_mul_of_nonneg_left ?_ hpos.le)
    rw [abs_mul, abs_of_pos hpow]
    exact mul_le_mul_of_nonneg_right hless hpow.le
  have hsecond : |t * e - w * e| ≤ roundoff q / 2 * (|w| * e) := by
    rw [← sub_mul, abs_mul, abs_of_pos hpow, ← mul_assoc]
    exact mul_le_mul_of_nonneg_right hcut hpow.le
  refine (abs_sub_le_add hfirst hsecond rfl).trans (le_of_eq ?_)
  rw [abs_mul, abs_of_pos hpow]
  ring

theorem value_div_within (h : p ≤ max x.prec y.prec) (hy : y.value ≠ 0) :
    Within (2 * roundoff p) (x / y).value (x.value / y.value) := by
  have hpos := roundoff_pos (max x.prec y.prec)
  exact (value_div_within_three_halves x hy).mono (by linarith [roundoff_anti h])

/-! ## Square roots -/

/-- The root of a number of at least `2p + 3` bits has `p + 2` of them at least. -/
theorem two_pow_le_sqrt {n : Nat} (hn : 2 ^ (2 * (p + 1)) ≤ n) : 2 ^ (p + 1) ≤ √(n : ℝ) := by
  refine Real.le_sqrt_of_sq_le ?_
  rw [← pow_mul, mul_comm]
  exact_mod_cast hn

/-- The integer square root of a number of at least `2p + 3` bits is right to `p + 1` of them. -/
theorem natSqrt_within {n : Nat} (hn : 2 ^ (2 * (p + 1)) ≤ n) :
    Within (roundoff p / 2) (Nat.sqrt n) (√(n : ℝ)) := by
  have hlow : ((Nat.sqrt n : Nat) : ℝ) ≤ √(n : ℝ) :=
    Real.le_sqrt_of_sq_le (by exact_mod_cast Nat.sqrt_le' n)
  have hhigh : √(n : ℝ) ≤ (Nat.sqrt n : ℝ) + 1 := by
    refine Real.sqrt_le_iff.2 ⟨by positivity, ?_⟩
    exact_mod_cast (Nat.lt_succ_sqrt' n).le
  calc |((Nat.sqrt n : Nat) : ℝ) - √(n : ℝ)| ≤ 1 := by
        rw [abs_sub_comm, abs_of_nonneg (by linarith)]
        linarith
    _ = roundoff p / 2 * 2 ^ (p + 1) := by
        rw [pow_succ, ← roundoff_mul_two_pow p]
        ring
    _ ≤ roundoff p / 2 * |√(n : ℝ)| := by
        rw [abs_of_nonneg (Real.sqrt_nonneg _)]
        exact mul_le_mul_of_nonneg_left (two_pow_le_sqrt hn) (by linarith [roundoff_pos p])

@[simp] theorem prec_sqrt (x : BinFloat) : x.sqrt.prec = x.prec := by
  unfold sqrt
  split
  · exact prec_ofScaled _ _ _
  · rfl

/-- The shift before a square root makes the exponent even, and the radicand long enough. -/
theorem exists_sqrt_eq (hm : 0 < x.mant) : ∃ (s : Nat) (e : Int),
    2 * x.prec + 4 ≤ bitLength x.mant + s ∧ x.exp = s + (e + e) ∧
      x.sqrt = ofScaled (Nat.sqrt (x.mant.toNat <<< s)) e x.prec := by
  have hpos : x.isPositive = true := decide_eq_true hm
  unfold sqrt
  rw [if_pos hpos]
  dsimp only
  split
  · exact ⟨_, _, by omega, by omega, rfl⟩
  · rename_i hodd
    exact ⟨_, _, by omega, by push_cast at hodd ⊢; omega, rfl⟩

theorem cast_toNat_shiftLeft {m : Int} (hm : 0 < m) (s : Nat) :
    ((m.toNat <<< s : Nat) : ℝ) = m * 2 ^ s := by
  have htoNat : ((m.toNat : Nat) : ℝ) = m := by exact_mod_cast Int.toNat_of_nonneg hm.le
  rw [Nat.shiftLeft_eq]
  push_cast
  rw [htoNat]

theorem two_pow_le_toNat_shiftLeft {m : Int} {s : Nat} (hm : 0 < m)
    (hs : 2 * p + 4 ≤ bitLength m + s) : 2 ^ (2 * (p + 1)) ≤ m.toNat <<< s := by
  have habs := two_pow_le_abs hm.ne'
  rw [abs_of_pos (by exact_mod_cast hm)] at habs
  have hle : (2 : ℝ) ^ (2 * (p + 1)) ≤ ((m.toNat <<< s : Nat) : ℝ) := by
    calc (2 : ℝ) ^ (2 * (p + 1)) ≤ 2 ^ (bitLength m - 1 + s) :=
          pow_le_pow_right₀ (by norm_num) (by omega)
      _ = 2 ^ (bitLength m - 1) * 2 ^ s := pow_add _ _ _
      _ ≤ ((m.toNat <<< s : Nat) : ℝ) := by
          rw [cast_toNat_shiftLeft hm]
          exact mul_le_mul_of_nonneg_right habs (by positivity)
  exact_mod_cast hle

/-- The root of the shifted mantissa, at half of the exponent that makes up for the shift. -/
theorem sqrt_mul_two_zpow {s : Nat} {e : Int} (hm : 0 < x.mant) (hexp : x.exp = s + (e + e)) :
    √((x.mant.toNat <<< s : Nat) : ℝ) * 2 ^ e = √x.value := by
  have hsq : x.value = ((x.mant.toNat <<< s : Nat) : ℝ) * ((2 : ℝ) ^ e * (2 : ℝ) ^ e) := by
    rw [cast_toNat_shiftLeft hm, value, hexp, two_zpow_add, two_zpow_add, zpow_natCast, mul_assoc]
  rw [hsq, Real.sqrt_mul (Nat.cast_nonneg _), Real.sqrt_mul_self (two_zpow_pos e).le]

/-- A square root is cut off below the last place, and rounded. -/
theorem value_sqrt_within (hx : 0 < x.value) :
    Within (2 * roundoff x.prec) x.sqrt.value (√x.value) := by
  have hm := value_pos_iff.1 hx
  obtain ⟨s, e, hs, hexp, hsqrt⟩ := exists_sqrt_eq hm
  have hcut := (natSqrt_within (two_pow_le_toNat_shiftLeft hm hs)).mul
    (by linarith [roundoff_le_one x.prec]) (.refl le_rfl ((2 : ℝ) ^ e))
  have hround := ofScaled_within (Nat.sqrt (x.mant.toNat <<< s)) e x.prec
  rw [sqrt_mul_two_zpow hm hexp] at hcut
  rw [hsqrt]
  exact (hround.comp (roundoff_pos _).le hcut).mono
    (by nlinarith [roundoff_le_one x.prec, roundoff_pos x.prec])

end Operations

end CliffordT.BinFloat
