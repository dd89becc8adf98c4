/-
Sums, differences and products are correctly rounded.

What the nearest number is does not depend on how it is found: `IsNearest` says that no number with the same
bits is closer, and no larger one as close. There is one such number, and it grows with the number that is
rounded. `nearest`, the scaled floor that rounding computes, is this number.

A sum that drops a summand returns the other one. That this is the nearest number too is a matter of spacing:
next to a number with `p` bits the others keep a distance of half a unit in its last place, half since the
spacing changes at a power of two, and what is dropped is an eighth of that unit.
-/
import Mathlib.Algebra.Order.Round
import CliffordT.Proofs.BinFloat.Computed
import CliffordT.Proofs.BinFloat.Nearest

namespace CliffordT.BinFloat

/-! ## Numbers with `p` bits -/

def HasBits (p : ℕ) (v : ℝ) : Prop := ∃ m e : ℤ, |m| < 2 ^ p ∧ v = m * 2 ^ e

section Bits

variable {p : ℕ} {v s : ℝ}

/-- A significand of `2 ^ p` is a one, further up. -/
theorem hasBits_of_le (hp : 1 ≤ p) {m : ℤ} (hm : |m| ≤ 2 ^ p) (e : ℤ) : HasBits p (m * 2 ^ e) := by
  rcases hm.lt_or_eq with hlt | heq
  · exact ⟨m, e, hlt, rfl⟩
  · have hone : (1 : ℤ) < 2 ^ p := one_lt_pow₀ (by norm_num) (by omega)
    rcases eq_or_eq_neg_of_abs_eq heq with rfl | rfl
    · refine ⟨1, p + e, by rwa [abs_one], ?_⟩
      rw [two_zpow_add, zpow_natCast]
      push_cast
      ring
    · refine ⟨-1, p + e, by rwa [abs_neg, abs_one], ?_⟩
      rw [two_zpow_add, zpow_natCast]
      push_cast
      ring

theorem FitsPrecision.hasBits {x : BinFloat} (h : x.FitsPrecision) (hp : 1 ≤ p) (hle : x.prec ≤ p) :
    HasBits p x.value :=
  hasBits_of_le hp (h.trans (pow_le_pow_right₀ (by norm_num) hle)) x.exp

/-- The numbers with `p` bits are multiples of any given power of two, except for small ones. -/
theorem HasBits.multiple_or_small (h : HasBits p s) (q : ℤ) :
    (∃ k : ℤ, s = k * 2 ^ q) ∨ |s| < 2 ^ (p + q - 1) := by
  obtain ⟨m, e, hm, rfl⟩ := h
  rcases le_or_gt q e with hqe | hqe
  · obtain ⟨n, hn⟩ := Int.eq_ofNat_of_zero_le (sub_nonneg.2 hqe)
    refine .inl ⟨m * 2 ^ n, ?_⟩
    have he : e = n + q := by omega
    rw [he, two_zpow_add, zpow_natCast]
    push_cast
    ring
  · refine .inr ?_
    have hcast : |(m : ℝ)| < 2 ^ p := by exact_mod_cast hm
    calc |(m : ℝ) * 2 ^ e| = |(m : ℝ)| * 2 ^ e := by rw [abs_mul, abs_of_pos (two_zpow_pos e)]
      _ < 2 ^ p * 2 ^ e := mul_lt_mul_of_pos_right hcast (two_zpow_pos e)
      _ = 2 ^ ((p : ℤ) + e) := by rw [two_zpow_add, zpow_natCast]
      _ ≤ 2 ^ (p + q - 1) := zpow_le_zpow_right₀ (by norm_num) (by omega)

/-! ## The leading bit -/

theorem two_zpow_leading_le (hv : v ≠ 0) : (2 : ℝ) ^ (leading v - 1) ≤ |v| := by
  unfold leading
  rw [add_sub_cancel_right]
  exact_mod_cast Int.zpow_log_le_self (b := 2) (by norm_num) (abs_pos.2 hv)

theorem abs_lt_two_zpow_leading (v : ℝ) : |v| < 2 ^ leading v := by
  unfold leading
  exact_mod_cast Int.lt_zpow_succ_log_self (b := 2) (by norm_num) |v|

/-- A distance between multiples. -/
theorem abs_mul_sub_mul (w : ℝ) (k : ℤ) (q : ℤ) : |w * 2 ^ q - k * 2 ^ q| = |w - k| * 2 ^ q := by
  rw [← sub_mul, abs_mul, abs_of_pos (two_zpow_pos q)]

/-- Another number with `p` bits is half a unit in the last place away, or more. -/
theorem HasBits.separated (hv : HasBits p v) (hs : HasBits p s) (hp : 1 ≤ p) (hv0 : v ≠ 0) (hne : s ≠ v) :
    (2 : ℝ) ^ (leading v - 1 - p) ≤ |v - s| := by
  have hlead := two_zpow_leading_le hv0
  have hpow {a b : ℤ} (h : a ≤ b) : (2 : ℝ) ^ a ≤ 2 ^ b := zpow_le_zpow_right₀ (by norm_num) h
  have hexp : (p : ℤ) + (leading v - 1 - p) - 1 = leading v - 2 := by ring
  rcases hs.multiple_or_small (leading v - 1 - p) with ⟨k, hk⟩ | hsmall
  · rcases hv.multiple_or_small (leading v - 1 - p) with ⟨m, hm⟩ | hsmall'
    · have hkm : m - k ≠ 0 := fun h => hne (by rw [hm, hk, sub_eq_zero.1 h])
      have hone : (1 : ℝ) ≤ |(m : ℝ) - k| := by exact_mod_cast Int.one_le_abs hkm
      have hdist : |v - s| = |(m : ℝ) - k| * 2 ^ (leading v - 1 - p) := by
        rw [← abs_mul_sub_mul, ← hm, ← hk]
      rw [hdist]
      exact le_mul_of_one_le_left (two_zpow_pos _).le hone
    · rw [hexp] at hsmall'
      exact absurd (hlead.trans_lt hsmall') (not_lt.2 (hpow (by omega)))
  · -- a number below half of `v`
    have hhalf : (2 : ℝ) ^ (leading v - 1) = 2 * 2 ^ (leading v - 2) := by
      have hsplit : leading v - 1 = 1 + (leading v - 2) := by ring
      rw [hsplit, two_zpow_add, zpow_one]
    rw [hexp] at hsmall
    have htri : |v| - |s| ≤ |v - s| := abs_sub_abs_le_abs_sub v s
    have hle : (2 : ℝ) ^ (leading v - 1 - p) ≤ 2 ^ (leading v - 2) := hpow (by omega)
    linarith

end Bits

/-! ## The nearest number -/

/-- Of the numbers with `p` bits, `r` is the one nearest to `v`, and the larger one of two at that distance. -/
structure IsNearest (p : ℕ) (v r : ℝ) : Prop where
  hasBits : HasBits p r
  beats : ∀ s, HasBits p s → |v - r| < |v - s| ∨ |v - r| = |v - s| ∧ s ≤ r

section Nearest

variable {p : ℕ} {v w r s : ℝ}

theorem IsNearest.le (h : IsNearest p v r) (hs : HasBits p s) : |v - r| ≤ |v - s| :=
  (h.beats s hs).elim le_of_lt fun h => h.1.le

/-- There is one nearest number. -/
theorem IsNearest.unique (hr : IsNearest p v r) (hs : IsNearest p v s) : r = s := by
  rcases hr.beats s hs.hasBits with hlt | ⟨heq, hle⟩
  · exact absurd (hs.le hr.hasBits) (not_le.2 hlt)
  · rcases hs.beats r hr.hasBits with hlt' | ⟨-, hle'⟩
    · exact absurd heq.symm hlt'.ne
    · exact le_antisymm hle' hle

/-- What is not farther from `r` than from the smaller `s` is above the middle of them. -/
theorem add_le_two_mul_of_abs_le (hsr : s < r) (h : |v - r| ≤ |v - s|) : s + r ≤ 2 * v := by
  rcases abs_cases (v - r) with ⟨hr, _⟩ | ⟨hr, _⟩ <;> rcases abs_cases (v - s) with ⟨hs, _⟩ | ⟨hs, _⟩ <;>
    linarith

/-- What is closer to `s` than to the larger `r` is below the middle of them. -/
theorem two_mul_lt_add_of_abs_lt (hsr : s < r) (h : |v - s| < |v - r|) : 2 * v < s + r := by
  by_contra hmid
  rcases abs_cases (v - r) with ⟨hr, _⟩ | ⟨hr, _⟩ <;> rcases abs_cases (v - s) with ⟨hs, _⟩ | ⟨hs, _⟩ <;>
    linarith

/-- **Rounding is monotone.** -/
theorem IsNearest.monotone (hr : IsNearest p v r) (hs : IsNearest p w s) (hvw : v ≤ w) : r ≤ s := by
  by_contra hsr
  rw [not_le] at hsr
  have hv := add_le_two_mul_of_abs_le hsr (hr.le hs.hasBits)
  rcases hs.beats r hr.hasBits with hlt | ⟨-, hle⟩
  · linarith [two_mul_lt_add_of_abs_lt hsr hlt]
  · linarith

theorem HasBits.isNearest_self (h : HasBits p v) : IsNearest p v v := by
  refine ⟨h, fun s _ => ?_⟩
  rw [sub_self, abs_zero]
  rcases eq_or_ne s v with rfl | hne
  · exact .inr ⟨by rw [sub_self, abs_zero], le_rfl⟩
  · exact .inl (abs_pos.2 (sub_ne_zero.2 hne.symm))

/-- A number stays the nearest one when less than a quarter of its spacing is added. -/
theorem HasBits.isNearest_add (h : HasBits p v) (hp : 1 ≤ p) (hv : v ≠ 0)
    (hw : |w| < 2 ^ (leading v - p - 3)) : IsNearest p (v + w) v := by
  refine ⟨h, fun s hs => ?_⟩
  rcases eq_or_ne s v with rfl | hne
  · exact .inr ⟨rfl, le_rfl⟩
  · refine .inl ?_
    have hsep := h.separated hs hp hv hne
    have hquarter : (2 : ℝ) ^ (leading v - 1 - p) = 4 * 2 ^ (leading v - p - 3) := by
      have hsplit : leading v - 1 - p = 2 + (leading v - p - 3) := by ring
      rw [hsplit, two_zpow_add]
      norm_num
    have htri : |v - s| ≤ |v + w - s| + |w| := by
      have hsum : v - s = v + w - s - w := by ring
      rw [hsum]
      exact abs_sub _ _
    have hself : |v + w - v| = |w| := by rw [add_sub_cancel_left]
    linarith [abs_nonneg w]

/-! ## Rounding finds the nearest number -/

/-- The nearest integer, a half going up. -/
theorem floor_add_half_beats (w : ℝ) (k : ℤ) :
    |w - ⌊w + 1 / 2⌋| < |w - k| ∨ |w - ⌊w + 1 / 2⌋| = |w - k| ∧ k ≤ ⌊w + 1 / 2⌋ := by
  have hle : |w - ⌊w + 1 / 2⌋| ≤ |w - k| := by
    rw [← round_eq]
    exact round_le w k
  rcases hle.lt_or_eq with hlt | heq
  · exact .inl hlt
  · refine .inr ⟨heq, ?_⟩
    by_contra hk
    -- a larger integer is farther than one half, the floor is not
    have hk' : (⌊w + 1 / 2⌋ : ℝ) + 1 ≤ k := by exact_mod_cast not_le.1 hk
    have hhigh := Int.lt_floor_add_one (w + 1 / 2)
    rw [abs_of_neg (by linarith : w - k < 0)] at heq
    rcases abs_cases (w - ⌊w + 1 / 2⌋) with ⟨h, _⟩ | ⟨h, _⟩ <;> linarith

/-- Between a small number and a large one, `b` or `-b` is closer to the large one. -/
theorem closer_of_abs_lt {b : ℝ} (hs : |s| < b) (hv : b ≤ |v|) :
    |v - b| < |v - s| ∨ |v - -b| < |v - s| := by
  obtain ⟨hs1, hs2⟩ := abs_lt.1 hs
  rcases abs_cases v with ⟨habs, -⟩ | ⟨habs, -⟩
  · rw [habs] at hv
    left
    rw [abs_of_nonneg (by linarith), abs_of_pos (by linarith)]
    linarith
  · rw [habs] at hv
    right
    rw [abs_of_nonpos (by linarith), abs_of_neg (by linarith)]
    linarith

/-- No multiple of the unit in the last place is closer, and a larger one is not as close. -/
theorem nearest_beats (p : ℕ) (v : ℝ) (k : ℤ) :
    |v - nearest p v| < |v - k * 2 ^ (leading v - p)| ∨
      |v - nearest p v| = |v - k * 2 ^ (leading v - p)| ∧ k * 2 ^ (leading v - p) ≤ nearest p v := by
  have hpos := two_zpow_pos (leading v - p)
  obtain ⟨w, hw⟩ : ∃ w : ℝ, v * 2 ^ (p - leading v) = w := ⟨_, rfl⟩
  have hvw : v = w * 2 ^ (leading v - p) := by
    rw [← hw, mul_assoc, ← two_zpow_add, sub_add_sub_cancel', sub_self, zpow_zero, mul_one]
  rw [nearest, hw]
  generalize leading v - (p : ℤ) = t at hpos hvw ⊢
  rw [hvw, abs_mul_sub_mul, abs_mul_sub_mul]
  refine (floor_add_half_beats w k).imp (fun h => mul_lt_mul_of_pos_right h hpos) fun h => ?_
  exact ⟨by rw [h.1], mul_le_mul_of_nonneg_right (Int.cast_le.2 h.2) hpos.le⟩

theorem hasBits_nearest (hp : 1 ≤ p) (v : ℝ) : HasBits p (nearest p v) := by
  have hwlt : |v * 2 ^ (p - leading v)| < 2 ^ p := by
    have hhigh := mul_lt_mul_of_pos_right (abs_lt_two_zpow_leading v) (two_zpow_pos (p - leading v))
    rw [← two_zpow_add, add_sub_cancel, zpow_natCast] at hhigh
    rwa [abs_mul, abs_of_pos (two_zpow_pos _)]
  refine hasBits_of_le hp ?_ _
  generalize v * 2 ^ (p - leading v) = w at hwlt
  obtain ⟨h1, h2⟩ := abs_lt.1 hwlt
  have h3 := Int.floor_le (w + 1 / 2)
  have h4 := Int.lt_floor_add_one (w + 1 / 2)
  rw [abs_le]
  constructor
  · refine Int.lt_add_one_iff.1 ?_
    have : (-2 ^ p : ℝ) < ⌊w + 1 / 2⌋ + 1 := by linarith
    exact_mod_cast this
  · refine Int.lt_add_one_iff.1 ?_
    have : (⌊w + 1 / 2⌋ : ℝ) < 2 ^ p + 1 := by linarith
    exact_mod_cast this

/-- **`nearest` is the nearest number**: a multiple of the unit in the last place cannot be closer, and a
number between the multiples is beyond the power of two below `v`. -/
theorem isNearest_nearest (hp : 1 ≤ p) (v : ℝ) : IsNearest p v (nearest p v) := by
  by_cases hv : v = 0
  · rw [hv, nearest_zero]
    exact HasBits.isNearest_self ⟨0, 0, by simp, by simp⟩
  have hlow := two_zpow_leading_le hv
  have hmultiple := nearest_beats p v
  refine ⟨hasBits_nearest hp v, fun s hs => ?_⟩
  generalize leading v = t at hlow hmultiple
  rcases hs.multiple_or_small (t - p) with ⟨k, rfl⟩ | hsmall
  · exact hmultiple k
  · have hexp : (p : ℤ) + (t - p) - 1 = t - 1 := by ring
    have hpower : ((2 ^ (p - 1) : ℤ) : ℝ) * 2 ^ (t - p) = 2 ^ (t - 1) := by
      have hsplit : t - 1 = ((p - 1 : ℕ) : ℤ) + (t - p) := by omega
      rw [hsplit, two_zpow_add, zpow_natCast]
      push_cast
      rfl
    have hclose (k : ℤ) := (hmultiple k).elim le_of_lt fun h => h.1.le
    rw [hexp] at hsmall
    rcases closer_of_abs_lt hsmall hlow with hlt | hlt
    · have h := hclose (2 ^ (p - 1))
      rw [hpower] at h
      exact .inl (h.trans_lt hlt)
    · have h := hclose (-2 ^ (p - 1))
      rw [Int.cast_neg, neg_mul, hpower] at h
      exact .inl (h.trans_lt hlt)

/-- Rounding moves a number by half a unit of its last place at most. -/
theorem abs_nearest_sub_le (p : ℕ) (v : ℝ) : |nearest p v - v| ≤ 2 ^ (leading v - p - 1) := by
  obtain ⟨w, hw⟩ : ∃ w : ℝ, v * 2 ^ (p - leading v) = w := ⟨_, rfl⟩
  have hvw : v = w * 2 ^ (leading v - p) := by
    rw [← hw, mul_assoc, ← two_zpow_add, sub_add_sub_cancel', sub_self, zpow_zero, mul_one]
  have hfloor : |w - ⌊w + 1 / 2⌋| ≤ 1 / 2 := by
    rw [← round_eq]
    exact abs_sub_round w
  have hhalf : (2 : ℝ) ^ (leading v - p - 1) = 1 / 2 * 2 ^ (leading v - p) := by
    rw [sub_eq_add_neg _ (1 : ℤ), two_zpow_add, zpow_neg_one]
    ring
  have hdist : |nearest p v - v| = |w - ⌊w + 1 / 2⌋| * 2 ^ (leading v - p) := by
    rw [abs_sub_comm, ← abs_mul_sub_mul, ← hvw, nearest, hw]
  rw [hdist, hhalf]
  exact mul_le_mul_of_nonneg_right hfloor (two_zpow_pos _).le

theorem IsNearest.abs_sub_le (h : IsNearest p v r) (hp : 1 ≤ p) {t : ℤ} (hv : |v| < 2 ^ t) :
    |r - v| ≤ 2 ^ (t - 1) * roundoff p := by
  have hr : r = nearest p v := h.unique (isNearest_nearest hp v)
  rw [← two_zpow_sub]
  by_cases hv0 : v = 0
  · rw [hr, hv0, nearest_zero, sub_self, abs_zero]
    exact (two_zpow_pos _).le
  have hlead : leading v - 1 < t :=
    (zpow_lt_zpow_iff_right₀ (by norm_num)).1 ((two_zpow_leading_le hv0).trans_lt hv)
  rw [hr]
  exact (abs_nearest_sub_le p v).trans (zpow_le_zpow_right₀ (by norm_num) (by omega))

theorem isNearest_ofScaled (hp : 1 ≤ p) (m e : ℤ) : IsNearest p (m * 2 ^ e) (ofScaled m e p).value := by
  rw [value_ofScaled]
  exact isNearest_nearest hp _

end Nearest

/-! ## Sums and products -/

/-- The sum with the mantissas brought to one exponent, however far apart the summands are. -/
def addAligned (x y : BinFloat) : BinFloat :=
  let (a, b, e) := aligned x y
  ofScaled (a + b) e (max x.prec y.prec)

section Operations

variable {x y : BinFloat}

theorem isNearest_addAligned (hp : 1 ≤ max x.prec y.prec) :
    IsNearest (max x.prec y.prec) (x.value + y.value) (addAligned x y).value := by
  obtain ⟨ha, hb⟩ := value_aligned x y
  have h := isNearest_ofScaled hp ((aligned x y).1 + (aligned x y).2.1) (aligned x y).2.2
  rwa [Int.cast_add, add_mul, ha, hb] at h

theorem isNearest_mul (hp : 1 ≤ max x.prec y.prec) :
    IsNearest (max x.prec y.prec) (x.value * y.value) (x * y).value := by
  have h := isNearest_ofScaled hp (x.mant * y.mant) (x.exp + y.exp)
  have hexact : ((x.mant * y.mant : ℤ) : ℝ) * 2 ^ (x.exp + y.exp) = x.value * y.value := by
    unfold value
    rw [two_zpow_add]
    push_cast
    ring
  rwa [hexact] at h

/-- More room does not change a number. -/
theorem FitsPrecision.value_withPrec {p : ℕ} (h : x.FitsPrecision) (hp : 1 ≤ p) (hle : x.prec ≤ p) :
    (x.withPrec p).value = x.value :=
  (isNearest_ofScaled hp x.mant x.exp).unique (h.hasBits hp hle).isNearest_self

/-- **A summand below the rounding bit can be dropped**, of either sign and next to a power of two. -/
theorem FitsPrecision.isNearest_withPrec {p : ℕ} (h : x.FitsPrecision) (hp : 1 ≤ p) (hle : x.prec ≤ p)
    (hx : ¬ x.isZero = true) (htop : y.top + (p + 2) < x.top) :
    IsNearest p (x.value + y.value) (x.withPrec p).value := by
  have hx0 : x.value ≠ 0 := mt isZero_iff.2 hx
  rw [h.value_withPrec hp hle]
  refine (h.hasBits hp hle).isNearest_add hp hx0 ?_
  rw [← top_eq_leading hx0]
  exact (abs_value_lt_top y).trans_le (zpow_le_zpow_right₀ (by norm_num) (by omega))

theorem isNearest_add (hx : x.FitsPrecision) (hy : y.FitsPrecision) (hp : 1 ≤ max x.prec y.prec) :
    IsNearest (max x.prec y.prec) (x.value + y.value) (x + y).value := by
  show IsNearest _ _ (add x y).value
  unfold add
  dsimp only
  split
  · rename_i hy0
    rw [isZero_iff.1 hy0, add_zero]
    exact isNearest_ofScaled hp x.mant x.exp
  · rename_i hy0
    split
    · rename_i hx0
      rw [isZero_iff.1 hx0, zero_add]
      exact isNearest_ofScaled hp y.mant y.exp
    · rename_i hx0
      split
      · rename_i htop
        exact hx.isNearest_withPrec hp (le_max_left _ _) hx0 htop
      · split
        · rename_i htop
          rw [add_comm x.value]
          exact hy.isNearest_withPrec hp (le_max_right _ _) hy0 htop
        · exact isNearest_addAligned hp

/-! ## Commutativity -/

theorem aligned_swap (x y : BinFloat) :
    aligned y x = ((aligned x y).2.1, (aligned x y).1, (aligned x y).2.2) := by
  unfold aligned
  rw [min_comm]

theorem withPrec_of_isZero (h : x.isZero = true) (p : ℕ) : x.withPrec p = zero p := by
  have hmant : x.mant = 0 := value_eq_zero_iff.1 (isZero_iff.1 h)
  unfold withPrec ofScaled
  rw [if_pos hmant]
  rfl

/-- The order of the summands makes no difference, not even to the representation. -/
theorem addition_comm (x y : BinFloat) : x + y = y + x := by
  show add x y = add y x
  unfold add
  dsimp only
  rw [max_comm y.prec, aligned_swap x y]
  by_cases hx : x.isZero = true
  · by_cases hy : y.isZero = true
    · rw [if_pos hy, if_pos hx, withPrec_of_isZero hx, withPrec_of_isZero hy]
    · rw [if_pos hx, if_neg hy, if_pos hx]
  · by_cases hy : y.isZero = true
    · rw [if_pos hy, if_neg hx, if_pos hy]
    · rw [if_neg hx, if_neg hy, if_neg hx, if_neg hy]
      by_cases hdrop : y.top + ((max x.prec y.prec : ℕ) + 2) < x.top
      · have hnot : ¬ x.top + ((max x.prec y.prec : ℕ) + 2) < y.top := by omega
        rw [if_pos hdrop, if_neg hnot, if_pos hdrop]
      · rw [if_neg hdrop, if_neg hdrop, add_comm (aligned x y).1]

theorem multiplication_comm (x y : BinFloat) : x * y = y * x := by
  show ofScaled _ _ _ = ofScaled _ _ _
  rw [mul_comm x.mant, add_comm x.exp, max_comm x.prec]

/-! ## Correct rounding -/

/-- `z` is the number `v`, rounded to `p` bits. -/
structure RoundedTo (p : ℕ) (v : ℝ) (z : BinFloat) : Prop where
  prec : z.prec = p
  fits : z.FitsPrecision
  nearest : IsNearest p v z.value

theorem RoundedTo.monotone {p : ℕ} {v w : ℝ} (hx : RoundedTo p v x) (hy : RoundedTo p w y) (h : v ≤ w) :
    x ≤ y :=
  le_iff_value.2 (hx.nearest.monotone hy.nearest h)

theorem Computed.roundedTo_add (hx : Computed x) (hy : Computed y) (hp : 1 ≤ max x.prec y.prec) :
    RoundedTo (max x.prec y.prec) (x.value + y.value) (x + y) :=
  ⟨prec_add x y, fits_add x y, isNearest_add hx.fits hy.fits hp⟩

theorem Computed.roundedTo_sub (hx : Computed x) (hy : Computed y) (hp : 1 ≤ max x.prec y.prec) :
    RoundedTo (max x.prec y.prec) (x.value - y.value) (x - y) := by
  have h := roundedTo_add hx hy.neg hp
  rwa [value_neg, ← sub_eq_add_neg] at h

theorem roundedTo_mul (hp : 1 ≤ max x.prec y.prec) :
    RoundedTo (max x.prec y.prec) (x.value * y.value) (x * y) :=
  ⟨prec_mul x y, fits_mul x y, isNearest_mul hp⟩

/-- **Sums, differences and products are rounded correctly.** For computed numbers, one of one bit or more at
least, the result is the exact one rounded to the larger precision, to the nearest number and up from the middle
between two; and dropping a small summand gives the same number as aligning it. -/
theorem Computed.rounded (hx : Computed x) (hy : Computed y) (hp : 1 ≤ max x.prec y.prec) :
    (RoundedTo (max x.prec y.prec) (x.value + y.value) (x + y) ∧
      RoundedTo (max x.prec y.prec) (x.value - y.value) (x - y) ∧
      RoundedTo (max x.prec y.prec) (x.value * y.value) (x * y)) ∧
    (x + y).value = (addAligned x y).value ∧ (x - y).value = (addAligned x (-y)).value :=
  ⟨⟨hx.roundedTo_add hy hp, hx.roundedTo_sub hy hp, roundedTo_mul hp⟩,
    (hx.roundedTo_add hy hp).nearest.unique (isNearest_addAligned hp),
    (hx.roundedTo_add hy.neg hp).nearest.unique (isNearest_addAligned (y := -y) hp)⟩

/-- The middle between two numbers is rounded up, also below zero; the last mantissa is rounded up to a power of
two. -/
example : ofInt 257 8 = ⟨129, 1, 8⟩ ∧ ofInt (-257) 8 = ⟨-128, 1, 8⟩ ∧ ofInt 511 8 = ⟨256, 1, 8⟩ :=
  ⟨rfl, rfl, rfl⟩

end Operations

/-! ## Results that need no rounding -/

section Exact

variable {p : ℕ} {v : ℝ}

/-- A result that needs no rounding is kept. -/
theorem IsNearest.eq_of_hasBits {r : ℝ} (h : IsNearest p v r) (hv : HasBits p v) : r = v :=
  h.unique hv.isNearest_self

theorem HasBits.mul_two_zpow (h : HasBits p v) (k : ℤ) : HasBits p (v * 2 ^ k) := by
  obtain ⟨m, e, hm, rfl⟩ := h
  exact ⟨m, e + k, hm, by rw [two_zpow_add, mul_assoc]⟩

theorem HasBits.div_two (h : HasBits p v) : HasBits p (v / 2) := by
  have hhalf := h.mul_two_zpow (-1)
  rwa [zpow_neg_one, ← div_eq_mul_inv] at hhalf

/-- The integer part needs no more bits. -/
theorem HasBits.floor (h : HasBits p v) (hp : 1 ≤ p) : HasBits p ⌊v⌋ := by
  obtain ⟨m, e, hm, rfl⟩ := h
  rcases le_or_gt 0 e with he | he
  · obtain ⟨n, rfl⟩ := Int.eq_ofNat_of_zero_le he
    have hint : (m : ℝ) * 2 ^ (n : ℤ) = ((m * 2 ^ n : ℤ) : ℝ) := by
      push_cast
      rw [zpow_natCast]
    rw [hint, Int.floor_intCast, ← hint]
    exact ⟨m, n, hm, rfl⟩
  · have hpow : (2 : ℝ) ^ e ≤ 1 := zpow_le_one_of_nonpos₀ (by norm_num) he.le
    have habs : |(m : ℝ) * 2 ^ e| ≤ 2 ^ p := by
      have hcast : |(m : ℝ)| ≤ 2 ^ p := by exact_mod_cast hm.le
      rw [abs_mul, abs_of_pos (two_zpow_pos e)]
      exact (mul_le_of_le_one_right (abs_nonneg _) hpow).trans hcast
    obtain ⟨hlow, hhigh⟩ := abs_le.1 habs
    have hbits := hasBits_of_le (p := p) hp (m := ⌊(m : ℝ) * 2 ^ e⌋) ?_ 0
    · rwa [zpow_zero, mul_one] at hbits
    · rw [abs_le]
      constructor
      · refine Int.le_floor.2 ?_
        push_cast
        exact hlow
      · refine Int.floor_le_iff.2 ?_
        push_cast
        linarith

theorem value_ofInt_of_hasBits (hp : 1 ≤ p) {n : ℤ} (h : HasBits p n) : (ofInt n p).value = n := by
  have hround := isNearest_ofScaled hp n 0
  rw [zpow_zero, mul_one] at hround
  exact hround.eq_of_hasBits h

theorem ofInt_two (hp : 2 ≤ p) : ofInt 2 p = ⟨2, 0, p⟩ := by
  have hlen : bitLength 2 = 2 := by decide
  unfold ofInt ofScaled
  rw [if_neg (by decide), hlen]
  exact if_neg (by omega)

theorem value_ofInt_two (hp : 2 ≤ p) : (ofInt 2 p).value = 2 := by
  rw [ofInt_two hp]
  simp [value]

/-- The carry of a rounding takes one bit more. -/
theorem FitsPrecision.bitLength_le {x : BinFloat} (h : x.FitsPrecision) : bitLength x.mant ≤ x.prec + 1 := by
  by_cases hm : x.mant = 0
  · rw [hm]
    exact Nat.zero_le _
  have hle := two_pow_le_natAbs hm
  have hfit : x.mant.natAbs ≤ 2 ^ x.prec := by
    have h : |x.mant| ≤ 2 ^ x.prec := h
    rw [Int.abs_eq_natAbs] at h
    exact_mod_cast h
  have := (Nat.pow_le_pow_iff_right (by norm_num)).1 (hle.trans hfit)
  omega

/-- Halving is exact: a bit more than the mantissa has is developed. -/
theorem FitsPrecision.value_div_two {x : BinFloat} (h : x.FitsPrecision) (hp : 2 ≤ x.prec) :
    (x / ofInt 2 x.prec).value = x.value / 2 := by
  have hlen2 : bitLength 2 = 2 := by decide
  by_cases hx : x.value = 0
  · have hround := value_div_within (x := x) (y := ofInt 2 x.prec) (le_max_left _ _) ?_
    · rw [hx, zero_div] at hround ⊢
      exact hround.eq_zero rfl
    · rw [value_ofInt_two hp]
      norm_num
  have hlen := h.bitLength_le
  rw [ofInt_two hp, div_eq hx (by simp [value]), max_self, hlen2]
  obtain ⟨s, hs⟩ : ∃ s, x.prec + 2 + 2 - bitLength x.mant = s + 1 :=
    ⟨x.prec + 2 + 2 - bitLength x.mant - 1, by omega⟩
  have hquot : (x.mant <<< (s + 1)).tdiv 2 = x.mant <<< s := by
    rw [Int.shiftLeft_eq, Int.shiftLeft_eq, pow_succ, ← mul_assoc, Int.mul_tdiv_cancel _ (by decide)]
  have hvalue : ((x.mant <<< s : ℤ) : ℝ) * 2 ^ (x.exp - 0 - (s + 1 : ℕ)) = x.value / 2 := by
    rw [div_eq_mul_inv, ← zpow_neg_one, cast_shiftLeft, value, mul_assoc, mul_assoc, ← zpow_natCast,
      ← two_zpow_add, ← two_zpow_add]
    congr 2
    push_cast
    ring
  rw [hs, hquot]
  have hround := isNearest_ofScaled (by omega : 1 ≤ x.prec) (x.mant <<< s) (x.exp - 0 - (s + 1 : ℕ))
  rw [hvalue] at hround
  exact hround.eq_of_hasBits (h.hasBits (by omega) le_rfl).div_two

end Exact

end CliffordT.BinFloat
