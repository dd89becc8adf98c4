/-
Errors against a scale, and powers.

A sum in which terms cancel has no useful relative error, but an error against the sum of the absolute
values of its terms. `Close e s a b` says that `b` is at most `s` and that `a` is `b` up to `e s`.
Scales are multiplied and added along with the numbers, and the errors `e` are added up, with a few
units for each rounding. Powers have a relative error that grows with the exponent, one unit for the
base and two for the roundings.
-/
import CliffordT.Proofs.BinFloat.Rounding

namespace CliffordT.BinFloat

/-- The number `a` is `b` up to `e` times the scale `s`, which `b` does not exceed. -/
structure Close (e s a b : ℝ) : Prop where
  le : |b| ≤ s
  sub_le : |a - b| ≤ e * s

namespace Close

variable {e f s t a b c d : ℝ}

theorem nonneg (h : Close e s a b) : 0 ≤ s := (abs_nonneg b).trans h.le

theorem exact (a : ℝ) : Close 0 |a| a a where
  le := le_rfl
  sub_le := by rw [sub_self, abs_zero, zero_mul]

theorem of_within (h : Within e a b) : Close e |b| a b := ⟨le_rfl, h.sub_le⟩

theorem mono (h : Close e s a b) (he : e ≤ f) : Close f s a b :=
  ⟨h.le, h.sub_le.trans (mul_le_mul_of_nonneg_right he h.nonneg)⟩

theorem widen (h : Close e s a b) (he : 0 ≤ e) (hst : s ≤ t) : Close e t a b :=
  ⟨h.le.trans hst, h.sub_le.trans (mul_le_mul_of_nonneg_left hst he)⟩

theorem neg (h : Close e s a b) : Close e s (-a) (-b) where
  le := by rw [abs_neg]; exact h.le
  sub_le := by
    rw [neg_sub_neg, abs_sub_comm]
    exact h.sub_le

theorem abs_le (h : Close e s a b) : |a| ≤ (1 + e) * s := by
  have htri := abs_sub_abs_le_abs_sub a b
  linarith [h.le, h.sub_le]

/-- The exact product of two numbers with errors. -/
theorem mul (he : 0 ≤ e) (he1 : e ≤ 1 / 4) (h : Close e s a b) (h' : Close f t c d) :
    Close (e + 5 / 4 * f) (s * t) (a * c) (b * d) where
  le := by
    rw [abs_mul]
    exact mul_le_mul h.le h'.le (abs_nonneg d) h.nonneg
  sub_le := by
    have ha : |a| ≤ 5 / 4 * s :=
      h.abs_le.trans (mul_le_mul_of_nonneg_right (by linarith) h.nonneg)
    have hsplit : a * c - b * d = a * (c - d) + (a - b) * d := by ring
    have hs := h.nonneg
    calc |a * c - b * d| ≤ |a| * |c - d| + |a - b| * |d| := by
          rw [hsplit, ← abs_mul, ← abs_mul]
          exact abs_add_le _ _
      _ ≤ 5 / 4 * s * (f * t) + e * s * t := by
          refine add_le_add (mul_le_mul ha h'.sub_le (abs_nonneg _) (by positivity)) ?_
          exact mul_le_mul h.sub_le h'.le (abs_nonneg _) (by positivity)
      _ = (e + 5 / 4 * f) * (s * t) := by ring

/-- The exact sum of two numbers with errors. -/
theorem add (h : Close e s a b) (h' : Close e t c d) : Close e (s + t) (a + c) (b + d) where
  le := (abs_add_le _ _).trans (add_le_add h.le h'.le)
  sub_le := by
    rw [add_sub_add_comm, mul_add]
    exact (abs_add_le _ _).trans (add_le_add h.sub_le h'.sub_le)

/-- A rounding after an error. -/
theorem round (hf : 0 ≤ f) (h : Close e s b c) (hround : Within f a b) :
    Close (e + f * (1 + e)) s a c where
  le := h.le
  sub_le := by
    have hfirst : |a - b| ≤ f * ((1 + e) * s) :=
      hround.sub_le.trans (mul_le_mul_of_nonneg_left h.abs_le hf)
    have htri := abs_sub_le a b c
    have hsecond := h.sub_le
    linarith

end Close

section Operations

variable {x y : BinFloat} {p : Nat} {e f s t a b : ℝ}

/-- A rounded product. -/
theorem Close.value_mul (hp : p ≤ max x.prec y.prec) (he : 0 ≤ e) (he1 : e ≤ 1 / 4) (hf : 0 ≤ f)
    (hf1 : f ≤ 1 / 4) (h : Close e s x.value a) (h' : Close f t y.value b) :
    Close (e + 2 * f + 2 * roundoff p) (s * t) (x * y).value (a * b) := by
  have hu := roundoff_pos p
  refine ((h.mul he he1 h').round hu.le (value_mul_within hp)).mono ?_
  nlinarith

/-- A rounded sum. -/
theorem Close.value_add (hp : p ≤ max x.prec y.prec) (he1 : e ≤ 1 / 4)
    (h : Close e s x.value a) (h' : Close e t y.value b) :
    Close (e + 3 * roundoff p) (s + t) (x + y).value (a + b) := by
  have hu := roundoff_pos p
  refine ((h.add h').round (by linarith) (value_add_within hp)).mono ?_
  nlinarith

/-- A rounded difference. -/
theorem Close.value_sub (hp : p ≤ max x.prec y.prec) (he1 : e ≤ 1 / 4)
    (h : Close e s x.value a) (h' : Close e t y.value b) :
    Close (e + 3 * roundoff p) (s + t) (x - y).value (a - b) := by
  rw [sub_eq_add_neg]
  refine Close.value_add (x := x) (y := -y) hp he1 h ?_
  rw [value_neg]
  exact h'.neg

/-- A rounded product of numbers with relative errors. -/
theorem Close.value_mul_of_within (hp : p ≤ x.prec) (he : 0 ≤ e) (he1 : e ≤ 1 / 4) (hf : 0 ≤ f)
    (hf1 : f ≤ 1 / 4) (hx : Within e x.value a) (hy : Within f y.value b) :
    Close (e + 2 * f + 2 * roundoff p) (|a| * |b|) (x * y).value (a * b) :=
  .value_mul (hp.trans (le_max_left _ _)) he he1 hf hf1 (.of_within hx) (.of_within hy)

/-- A rounded sum of two products. -/
theorem Close.value_mul_add_mul {x' y' : BinFloat} {a' b' : ℝ} (hp : p ≤ x.prec) (hp' : p ≤ x'.prec)
    (he : 0 ≤ e) (hf : 0 ≤ f) (hsmall : e + 2 * f + 2 * roundoff p ≤ 1 / 4) (hx : Within e x.value a)
    (hy : Within f y.value b) (hx' : Within e x'.value a') (hy' : Within f y'.value b') :
    Close (e + 2 * f + 5 * roundoff p) (|a| * |b| + |a'| * |b'|) (x * y + x' * y').value (a * b + a' * b') := by
  have hu := roundoff_pos p
  exact (Close.value_add (p := p) (by simp [hp]) hsmall
    (.value_mul_of_within hp he (by linarith) hf (by linarith) hx hy)
    (.value_mul_of_within hp' he (by linarith) hf (by linarith) hx' hy')).mono (by linarith)

/-- A rounded difference of two products. -/
theorem Close.value_mul_sub_mul {x' y' : BinFloat} {a' b' : ℝ} (hp : p ≤ x.prec) (hp' : p ≤ x'.prec)
    (he : 0 ≤ e) (hf : 0 ≤ f) (hsmall : e + 2 * f + 2 * roundoff p ≤ 1 / 4) (hx : Within e x.value a)
    (hy : Within f y.value b) (hx' : Within e x'.value a') (hy' : Within f y'.value b') :
    Close (e + 2 * f + 5 * roundoff p) (|a| * |b| + |a'| * |b'|) (x * y - x' * y').value (a * b - a' * b') := by
  have hu := roundoff_pos p
  exact (Close.value_sub (p := p) (by simp [hp]) hsmall
    (.value_mul_of_within hp he (by linarith) hf (by linarith) hx hy)
    (.value_mul_of_within hp' he (by linarith) hf (by linarith) hx' hy')).mono (by linarith)

end Operations

/-! ## Powers -/

/-- Errors of factors, without a bound on them. -/
theorem Within.mul_growth {e f a b c d : ℝ} (he : 0 ≤ e) (h : Within e a b) (h' : Within f c d) :
    Within ((1 + e) * (1 + f) - 1) (a * c) (b * d) := by
  have hsplit : a * c - b * d = a * (c - d) + (a - b) * d := by ring
  calc |a * c - b * d| ≤ |a| * |c - d| + |a - b| * |d| := by
        rw [hsplit, ← abs_mul, ← abs_mul]
        exact abs_add_le _ _
    _ ≤ (1 + e) * |b| * (f * |d|) + e * |b| * |d| := by
        refine add_le_add ?_ (mul_le_mul_of_nonneg_right h.sub_le (abs_nonneg d))
        exact mul_le_mul h.abs_le h'.sub_le (abs_nonneg _) (by positivity)
    _ = ((1 + e) * (1 + f) - 1) * |b * d| := by
        rw [abs_mul]
        ring

/-- A rounded product, with errors as growth factors. -/
theorem value_mul_growth {x y : BinFloat} {p : Nat} {g h v w : ℝ} (hp : p ≤ max x.prec y.prec)
    (hg : 1 ≤ g) (hx : Within (g - 1) x.value v) (hy : Within (h - 1) y.value w) :
    Within (g * h * (1 + roundoff p) - 1) (x * y).value (v * w) := by
  have hexact := Within.mul_growth (by linarith) hx hy
  have hround := (value_mul_within hp).comp (roundoff_pos p).le hexact
  exact hround.mono (le_of_eq (by ring))

@[simp] theorem prec_mulPow (acc base : BinFloat) (n : Nat) (h : acc.prec = base.prec) :
    (mulPow acc base n).prec = base.prec := by
  fun_induction mulPow acc base n with
  | case1 acc base => exact h
  | case2 acc base n _ ih =>
    have hbase : (base * base).prec = base.prec := by rw [prec_mul, max_self]
    rw [← hbase]
    refine ih ?_
    rw [hbase]
    split
    · rw [prec_mul, h, max_self]
    · exact h

@[simp] theorem prec_pow (x : BinFloat) (n : Nat) : (x.pow n).prec = x.prec :=
  prec_mulPow _ _ _ (prec_one _)

/-- The growth in half of an even number of steps, of a base that is squared, and one of an odd number. -/
theorem growth_even {g h t : ℝ} (m : ℕ) (ht : 1 ≤ t) (hg : 1 ≤ g) (hh : 1 ≤ h) :
    g * (h * h * t) ^ m * t ^ (2 * m) ≤ g * h ^ (2 * m) * t ^ (2 * (2 * m)) := by
  calc g * (h * h * t) ^ m * t ^ (2 * m) = g * h ^ (2 * m) * t ^ (3 * m) := by
        rw [mul_pow]
        ring
    _ ≤ g * h ^ (2 * m) * t ^ (2 * (2 * m)) :=
        mul_le_mul_of_nonneg_left (pow_le_pow_right₀ ht (by omega)) (by positivity)

theorem growth_odd {g h t : ℝ} (m : ℕ) (ht : 1 ≤ t) (hg : 1 ≤ g) (hh : 1 ≤ h) :
    g * h * t * (h * h * t) ^ m * t ^ (2 * m) ≤ g * h ^ (2 * m + 1) * t ^ (2 * (2 * m + 1)) := by
  calc g * h * t * (h * h * t) ^ m * t ^ (2 * m) = g * h ^ (2 * m + 1) * t ^ (3 * m + 1) := by
        rw [mul_pow]
        ring
    _ ≤ g * h ^ (2 * m + 1) * t ^ (2 * (2 * m + 1)) :=
        mul_le_mul_of_nonneg_left (pow_le_pow_right₀ ht (by omega)) (by positivity)

/-- Repeated squaring: the base contributes its error `n` times, and there are at most `2n` roundings. -/
theorem mulPow_within {acc base : BinFloat} {p n : Nat} {g h v w : ℝ} (hp : p ≤ base.prec)
    (hacc : acc.prec = base.prec) (hg : 1 ≤ g) (hh : 1 ≤ h) (hv : Within (g - 1) acc.value v)
    (hw : Within (h - 1) base.value w) :
    Within (g * h ^ n * (1 + roundoff p) ^ (2 * n) - 1) (mulPow acc base n).value (v * w ^ n) := by
  have hu : (1 : ℝ) ≤ 1 + roundoff p := by linarith [roundoff_pos p]
  induction n using Nat.strong_induction_on generalizing acc base g h v w with
  | _ n ih =>
    rw [mulPow]
    split
    · rename_i h0
      subst h0
      simpa using hv
    · rename_i h0
      have hbase : (base * base).prec = base.prec := by rw [prec_mul, max_self]
      have hsq := value_mul_growth (p := p) (hp.trans (le_max_left _ _)) hh hw hw
      have hh' : 1 ≤ h * h * (1 + roundoff p) :=
        one_le_mul_of_one_le_of_one_le (one_le_mul_of_one_le_of_one_le hh hh) hu
      split
      · rename_i hodd
        have hmul := value_mul_growth (p := p) (hp.trans (le_max_right _ _)) hg hv hw
        have hg' : 1 ≤ g * h * (1 + roundoff p) :=
          one_le_mul_of_one_le_of_one_le (one_le_mul_of_one_le_of_one_le hg hh) hu
        have hrec := ih (n / 2) (by omega) (by rwa [hbase]) (by rw [prec_mul, hacc, hbase, max_self])
          hg' hh' hmul hsq
        obtain ⟨m, rfl⟩ : ∃ m, n = 2 * m + 1 := ⟨n / 2, by omega⟩
        have hm : (2 * m + 1) / 2 = m := by omega
        rw [hm] at hrec ⊢
        have hvalue : v * w * (w * w) ^ m = v * w ^ (2 * m + 1) := by ring
        rw [hvalue] at hrec
        exact hrec.mono (sub_le_sub_right (growth_odd m hu hg hh) 1)
      · rename_i heven
        have hrec := ih (n / 2) (by omega) (by rwa [hbase]) (by rw [hacc, hbase]) hg hh' hv hsq
        obtain ⟨m, rfl⟩ : ∃ m, n = 2 * m := ⟨n / 2, by omega⟩
        have hm : 2 * m / 2 = m := by omega
        rw [hm] at hrec ⊢
        have hvalue : v * (w * w) ^ m = v * w ^ (2 * m) := by ring
        rw [hvalue] at hrec
        exact hrec.mono (sub_le_sub_right (growth_even m hu hg hh) 1)

/-- Growth over many steps, as long as it is small altogether. -/
theorem one_add_pow_le {x : ℝ} {n : Nat} (hx : 0 ≤ x) (h : n * x ≤ 1 / 2) :
    (1 + x) ^ n ≤ 1 + 2 * (n * x) := by
  induction n with
  | zero => simp
  | succ n ih =>
    push_cast at h ⊢
    have hn : (n : ℝ) * x ≤ 1 / 2 := by linarith
    rw [pow_succ]
    nlinarith [ih hn]

/-- A power has the error of its base and of two roundings, as often as its exponent says. -/
theorem value_pow_within {x : BinFloat} {p n m : Nat} {v : ℝ} (hp : p ≤ x.prec)
    (hx : Within (m * roundoff p) x.value v) (hsmall : ((m + 2) * n : Nat) * roundoff p ≤ 1 / 2) :
    Within (2 * ((m + 2) * n : Nat) * roundoff p) (x.pow n).value (v ^ n) := by
  have hu := (roundoff_pos p).le
  have hone : Within (1 - 1) (one x.prec).value (1 : ℝ) := by
    rw [value_one, sub_self]
    exact .refl le_rfl 1
  have hbase : Within ((1 + m * roundoff p) - 1) x.value v := by rwa [add_sub_cancel_left]
  have hpow := mulPow_within (n := n) hp (prec_one _) le_rfl
    (le_add_of_nonneg_right (by positivity)) hone hbase
  rw [one_mul, one_mul] at hpow
  refine hpow.mono ?_
  have hbern : 1 + m * roundoff p ≤ (1 + roundoff p) ^ m :=
    one_add_mul_le_pow (by linarith) m
  calc (1 + m * roundoff p) ^ n * (1 + roundoff p) ^ (2 * n) - 1
      ≤ ((1 + roundoff p) ^ m) ^ n * (1 + roundoff p) ^ (2 * n) - 1 := by gcongr
    _ = (1 + roundoff p) ^ ((m + 2) * n) - 1 := by
        rw [← pow_mul, ← pow_add]
        congr 2
        ring
    _ ≤ 2 * ((m + 2) * n : Nat) * roundoff p := by
        have := one_add_pow_le hu hsmall
        linarith

theorem value_mulPow_ne_zero {acc base : BinFloat} {n : Nat} (hp : 1 ≤ base.prec) (hacc : acc.value ≠ 0)
    (hbase : base.value ≠ 0) : (mulPow acc base n).value ≠ 0 := by
  fun_induction mulPow acc base n with
  | case1 => exact hacc
  | case2 acc base n hn ih =>
    have hsq : (base * base).prec = base.prec := by rw [prec_mul, max_self]
    refine ih (hsq ▸ hp) ?_ (value_mul_ne_zero (hp.trans (le_max_left _ _)) hbase hbase)
    split
    · exact value_mul_ne_zero (hp.trans (le_max_right _ _)) hacc hbase
    · exact hacc

/-- However large the exponent is, a power does not vanish. -/
theorem value_pow_ne_zero {x : BinFloat} (hp : 1 ≤ x.prec) (hx : x.value ≠ 0) (n : Nat) :
    (x.pow n).value ≠ 0 :=
  value_mulPow_ne_zero hp (by rw [value_one]; exact one_ne_zero) hx

end CliffordT.BinFloat
