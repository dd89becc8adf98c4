/-
The denominator exponent goes down by one.

In a unitary with the denominator `√2ᵏ` and `k` at least one, `√2` divides neither entry of the first
column, so that the exponent of `√2` in `|u|²` is zero or one. For `k` at least two one of the four
sums `u + ω⁻ʲ t` has an exponent that is larger by three. If the exponent is zero, one of `u` and `t`
has one odd coefficient and the other three; multiplication by `ω` moves the coefficients round, and
for one `j` all four coefficients of the sum are odd. If it is one, both have two odd coefficients
next to each other, and for one `j` the sum is `2y`. There `|y|²` has an odd rational part: otherwise
`y` and the half `z` of the difference were such that `√2` divides `u = y + z`.
-/
import CliffordT.Proofs.Unitary.Words

namespace CliffordT

open ZOmega (sqrt2 omegaPow)

/-! ## Moving coefficients round -/

/-- The rest of a division by two as a digit. -/
theorem exists_digit (x : Int) : ∃ i : Fin 2, x % 2 = (i.val : Int) :=
  ⟨⟨(x % 2).toNat, by omega⟩, by simp only; omega⟩

theorem mul_self_emod_four (x : Int) : x * x % 4 = x % 2 := by
  rcases Int.emod_two_eq_zero_or_one x with h | h
  · obtain ⟨y, rfl⟩ : ∃ y, x = 2 * y := ⟨x / 2, by omega⟩
    have hsq : 2 * y * (2 * y) = 4 * (y * y) := by ring
    omega
  · obtain ⟨y, rfl⟩ : ∃ y, x = 2 * y + 1 := ⟨x / 2, by omega⟩
    have hsq : (2 * y + 1) * (2 * y + 1) = 4 * (y * y + y) + 1 := by ring
    omega

/-- The products with `ω⁻ʲ`. -/
theorem omegaPow_neg_mul_eq (t : ZOmega) :
    omegaPow (-((0 : Fin 4).val : Int)) * t = t ∧
    omegaPow (-((1 : Fin 4).val : Int)) * t = ⟨-t.d, t.a, t.b, t.c⟩ ∧
    omegaPow (-((2 : Fin 4).val : Int)) * t = ⟨-t.c, -t.d, t.a, t.b⟩ ∧
    omegaPow (-((3 : Fin 4).val : Int)) * t = ⟨-t.b, -t.c, -t.d, t.a⟩ := by
  have h0 : omegaPow (-((0 : Fin 4).val : Int)) = 1 := by decide
  have h1 : omegaPow (-((1 : Fin 4).val : Int)) = ⟨-1, 0, 0, 0⟩ := by decide
  have h2 : omegaPow (-((2 : Fin 4).val : Int)) = ⟨0, -1, 0, 0⟩ := by decide
  have h3 : omegaPow (-((3 : Fin 4).val : Int)) = ⟨0, 0, -1, 0⟩ := by decide
  rw [h0, h1, h2, h3]
  refine ⟨one_mul t, ?_, ?_, ?_⟩
  · ext <;> simp
  · ext <;> simp
  · ext <;> simp

/-- Holds when a rotation of the last four digits gives sums with the remainder `r` alone. -/
def RotatesTo (r : Nat) (a b c d a' b' c' d' : Fin 2) : Prop :=
  ((a.val + a'.val) % 2 = r ∧ (b.val + b'.val) % 2 = r ∧ (c.val + c'.val) % 2 = r ∧
    (d.val + d'.val) % 2 = r) ∨
  ((a.val + d'.val) % 2 = r ∧ (b.val + a'.val) % 2 = r ∧ (c.val + b'.val) % 2 = r ∧
    (d.val + c'.val) % 2 = r) ∨
  ((a.val + c'.val) % 2 = r ∧ (b.val + d'.val) % 2 = r ∧ (c.val + a'.val) % 2 = r ∧
    (d.val + b'.val) % 2 = r) ∨
  ((a.val + b'.val) % 2 = r ∧ (b.val + c'.val) % 2 = r ∧ (c.val + d'.val) % 2 = r ∧
    (d.val + a'.val) % 2 = r)

instance (r : Nat) (a b c d a' b' c' d' : Fin 2) : Decidable (RotatesTo r a b c d a' b' c' d') :=
  instDecidableOr

/-- One digit against three, or three against one, complement each other after a rotation. -/
theorem exists_complement : ∀ a b c d a' b' c' d' : Fin 2,
    (a.val + b.val + c.val + d.val + a'.val + b'.val + c'.val + d'.val) % 4 = 0 →
    (a.val + b.val + c.val + d.val) % 2 = 1 → RotatesTo 1 a b c d a' b' c' d' := by
  decide

/-- Two digits next to each other agree with two others after a rotation. -/
theorem exists_match : ∀ a b c d a' b' c' d' : Fin 2,
    a ≠ c ∧ b ≠ d ∧ a' ≠ c' ∧ b' ≠ d' → RotatesTo 0 a b c d a' b' c' d' := by
  decide

/-- Holds when all four coefficients have the remainder `r` modulo two. -/
def AllCoefficients (r : Int) (u : ZOmega) : Prop :=
  u.a % 2 = r ∧ u.b % 2 = r ∧ u.c % 2 = r ∧ u.d % 2 = r

/-- The four sums rotate the coefficients of `t`; modulo two their signs do not matter. -/
theorem exists_allCoefficients {r : Nat} {u t : ZOmega}
    (h : ∀ a b c d a' b' c' d' : Fin 2, u.a % 2 = (a.val : Int) → u.b % 2 = (b.val : Int) →
      u.c % 2 = (c.val : Int) → u.d % 2 = (d.val : Int) → t.a % 2 = (a'.val : Int) →
      t.b % 2 = (b'.val : Int) → t.c % 2 = (c'.val : Int) → t.d % 2 = (d'.val : Int) →
      RotatesTo r a b c d a' b' c' d') :
    ∃ j : Fin 4, AllCoefficients r (u + omegaPow (-(j.val : Int)) * t) := by
  obtain ⟨a, ha⟩ := exists_digit u.a
  obtain ⟨b, hb⟩ := exists_digit u.b
  obtain ⟨c, hc⟩ := exists_digit u.c
  obtain ⟨d, hd⟩ := exists_digit u.d
  obtain ⟨a', ha'⟩ := exists_digit t.a
  obtain ⟨b', hb'⟩ := exists_digit t.b
  obtain ⟨c', hc'⟩ := exists_digit t.c
  obtain ⟨d', hd'⟩ := exists_digit t.d
  have hsum {x y : Int} {i j : Fin 2} (hx : x % 2 = (i.val : Int)) (hy : y % 2 = (j.val : Int))
      (hij : (i.val + j.val) % 2 = r) : (x + y) % 2 = r ∧ (x + -y) % 2 = r := by
    omega
  obtain ⟨r0, r1, r2, r3⟩ := omegaPow_neg_mul_eq t
  rcases h a b c d a' b' c' d' ha hb hc hd ha' hb' hc' hd' with h | h | h | h
  · refine ⟨0, ?_⟩
    rw [r0]
    exact ⟨(hsum ha ha' h.1).1, (hsum hb hb' h.2.1).1, (hsum hc hc' h.2.2.1).1,
      (hsum hd hd' h.2.2.2).1⟩
  · refine ⟨1, ?_⟩
    rw [r1]
    exact ⟨(hsum ha hd' h.1).2, (hsum hb ha' h.2.1).1, (hsum hc hb' h.2.2.1).1,
      (hsum hd hc' h.2.2.2).1⟩
  · refine ⟨2, ?_⟩
    rw [r2]
    exact ⟨(hsum ha hc' h.1).2, (hsum hb hd' h.2.1).2, (hsum hc ha' h.2.2.1).1,
      (hsum hd hb' h.2.2.2).1⟩
  · refine ⟨3, ?_⟩
    rw [r3]
    exact ⟨(hsum ha hb' h.1).2, (hsum hb hc' h.2.1).2, (hsum hc hd' h.2.2.1).2,
      (hsum hd ha' h.2.2.2).1⟩

/-- With an odd number of odd coefficients, and sizes that add up to a multiple of four, one of the
four sums has odd coefficients alone. -/
theorem exists_allOdd {u t : ZOmega} (hsum : (u.norm.a + t.norm.a) % 4 = 0)
    (hu : u.norm.a % 2 = 1) :
    ∃ j : Fin 4, AllCoefficients 1 (u + omegaPow (-(j.val : Int)) * t) := by
  simp only [ZOmega.norm] at hsum hu
  have hsq := mul_self_emod_four
  refine exists_allCoefficients (r := 1) ?_
  intro a b c d a' b' c' d' ha hb hc hd ha' hb' hc' hd'
  have h4 : (a.val + b.val + c.val + d.val + a'.val + b'.val + c'.val + d'.val) % 4 = 0 := by
    have := hsq u.a; have := hsq u.b; have := hsq u.c; have := hsq u.d
    have := hsq t.a; have := hsq t.b; have := hsq t.c; have := hsq t.d
    omega
  have h2 : (a.val + b.val + c.val + d.val) % 2 = 1 := by
    have := hsq u.a; have := hsq u.b; have := hsq u.c; have := hsq u.d
    omega
  exact exists_complement a b c d a' b' c' d' h4 h2

/-- With two odd coefficients next to each other on both sides, one of the four sums has even
coefficients alone. -/
theorem exists_allEven {u t : ZOmega} (hu : (u.a + u.c) % 2 = 1 ∧ (u.b + u.d) % 2 = 1)
    (ht : (t.a + t.c) % 2 = 1 ∧ (t.b + t.d) % 2 = 1) :
    ∃ j : Fin 4, AllCoefficients 0 (u + omegaPow (-(j.val : Int)) * t) := by
  refine exists_allCoefficients (r := 0) ?_
  intro a b c d a' b' c' d' ha hb hc hd ha' hb' hc' hd'
  have hac : a ≠ c := fun h => by subst h; omega
  have hbd : b ≠ d := fun h => by subst h; omega
  have hac' : a' ≠ c' := fun h => by subst h; omega
  have hbd' : b' ≠ d' := fun h => by subst h; omega
  exact exists_match a b c d a' b' c' d' ⟨hac, hbd, hac', hbd'⟩

namespace NormalUnitary

open CliffordT.Unitary

variable (m : NormalUnitary)

/-! ## The first column -/

theorem k_nonneg : 0 ≤ m.1.k := m.hasUnitLength.1

/-- The length of the first column, by its rational part and its coefficient of `√2`. -/
theorem length_eq :
    m.1.u.norm.a + m.1.t.norm.a = 2 ^ m.1.k.toNat ∧ m.1.u.norm.b + m.1.t.norm.b = 0 := by
  have h := m.hasUnitLength.2
  rw [two_pow_eq] at h
  exact ⟨congrArg ZSqrt2.a h, congrArg ZSqrt2.b h⟩

theorem two_pow_emod_two (hk : 0 < m.1.k) : (2 : Int) ^ m.1.k.toNat % 2 = 0 := by
  obtain ⟨n, hn⟩ : ∃ n, m.1.k.toNat = n + 1 := ⟨m.1.k.toNat - 1, by omega⟩
  rw [hn, pow_succ]
  omega

theorem two_pow_emod_four (hk : 2 ≤ m.1.k) : (2 : Int) ^ m.1.k.toNat % 4 = 0 := by
  obtain ⟨n, hn⟩ : ∃ n, m.1.k.toNat = n + 2 := ⟨m.1.k.toNat - 2, by omega⟩
  rw [hn, pow_succ, pow_succ]
  omega

theorem norm_even_of_dvd {v : ZOmega} (h : sqrt2 ∣ v) : v.norm.a % 2 = 0 ∧ v.norm.b % 2 = 0 := by
  obtain ⟨w, rfl⟩ := h
  rw [ZOmega.norm_mul, ZOmega.norm_sqrt2]
  constructor
  · show (2 * w.norm.a + 0 * w.norm.b * 2) % 2 = 0
    omega
  · show (2 * w.norm.b + 0 * w.norm.a) % 2 = 0
    omega

/-- With a denominator, `√2` divides neither entry of the first column. -/
theorem not_dvd (hk : 0 < m.1.k) : ¬ sqrt2 ∣ m.1.u ∧ ¬ sqrt2 ∣ m.1.t := by
  obtain ⟨hla, hlb⟩ := m.length_eq
  have h2 := m.two_pow_emod_two hk
  have hboth : ¬ (sqrt2 ∣ m.1.u ∧ sqrt2 ∣ m.1.t) := by
    rintro ⟨hu, ht⟩
    have hred := isReducible_iff_dvd.2 ⟨hu, ht, m.hasUnitLength.ne_zero⟩
    rw [m.2.2] at hred
    cases hred
  constructor
  · intro hu
    obtain ⟨hua, hub⟩ := norm_even_of_dvd hu
    exact hboth ⟨hu, ZOmega.dvd_of_norm_even (by omega) (by omega)⟩
  · intro ht
    obtain ⟨hta, htb⟩ := norm_even_of_dvd ht
    exact hboth ⟨ZOmega.dvd_of_norm_even (by omega) (by omega), ht⟩

/-! ## The denominator exponent -/

theorem sde_eq {n : Unitary} (hu : n.u ≠ 0) : n.sde = 2 * n.k - n.u.absValuation := by
  rw [sde, if_neg hu]
  rfl

/-- The exponent does not depend on the tuple that is chosen for the matrix. -/
theorem sde_eq_of_scales {j : Nat} {n o : Unitary} (h : Scales j n o) (hu : o.u ≠ 0) :
    n.sde = o.sde := by
  have hn : n.u ≠ 0 := by
    rw [h.u]
    exact mul_ne_zero (pow_ne_zero j ZOmega.sqrt2_ne_zero) hu
  rw [sde_eq hn, sde_eq hu, h.u, h.k, ZOmega.absValuation_sqrt2_pow_mul hu]
  push_cast
  ring

theorem sde_ofRaw {n : Unitary} (hn : n.HasUnitLength) (hu : n.u ≠ 0) :
    (ofRaw n hn).1.sde = 2 * n.k - n.u.absValuation := by
  obtain ⟨⟨j, hj⟩, -⟩ := reduce_spec n
  have hu' : (reduce n).u ≠ 0 := by
    intro h0
    refine hu ?_
    rw [hj.u, h0, mul_zero]
  rw [← sde_eq hu]
  exact (sde_eq_of_scales hj hu').symm

/-- With a denominator, the exponent is `2k`, or one less for an even rational part of `|u|²`. -/
theorem sde_of_pos (hk : 0 < m.1.k) :
    m.1.sde = 2 * m.1.k - (if m.1.u.norm.a % 2 = 0 then 1 else 0) := by
  have hu := (m.not_dvd hk).1
  rw [sde_eq (ZOmega.ne_zero_of_not_dvd hu), ZOmega.absValuation_of_not_dvd hu]
  split <;> rfl

/-- Without a denominator, the exponent is zero. -/
theorem sde_of_zero (hk : m.1.k = 0) : m.1.sde = 0 := by
  by_cases hu : m.1.u = 0
  · rw [sde, if_pos hu]
  · have hsum := m.length_eq.1
    rw [hk] at hsum
    have hu0 : m.1.u.norm.a ≠ 0 := fun h => hu ((ZOmega.norm_a_eq_zero_iff _).1 h)
    have hun := ZOmega.norm_a_nonneg m.1.u
    have htn := ZOmega.norm_a_nonneg m.1.t
    have hone : m.1.u.norm.a = 1 := by
      have h1 : m.1.u.norm.a + m.1.t.norm.a = 1 := hsum
      omega
    rw [sde_eq hu, hk, ZOmega.absValuation_of_odd (by rw [hone]; rfl)]
    rfl

/-! ## Taking off a layer -/

theorem tGate_inv : tGate⁻¹ = diagonal 0 7 := by
  refine inv_eq_of_mul_eq_one_left ?_
  rw [tGate, diagonal_mul_diagonal]
  exact diagonal_zero

theorem tGate_inv_pow (n : Nat) : tGate⁻¹ ^ n = diagonal 0 (Fin.ofNat 8 (7 * n)) := by
  rw [tGate_inv]
  induction n with
  | zero => exact diagonal_zero.symm
  | succ n ih =>
    rw [pow_succ, ih, diagonal_mul_diagonal]
    congr 1
    refine Fin.ext ?_
    simp only [Fin.val_add, Fin.ofNat]
    omega

theorem omegaPow_ofNat (n : Nat) :
    omegaPow ((Fin.ofNat 8 (7 * n)).val : Int) = omegaPow (-(n : Int)) := by
  refine ZOmega.omegaPow_eq_of_emod ?_
  simp only [Fin.ofNat]
  omega

/-- The tuple of `H T⁻ʲ m`, not reduced. -/
def rawLayer (j : Nat) (m : Unitary) : Unitary :=
  ⟨m.u + omegaPow (-(j : Int)) * m.t, m.u - omegaPow (-(j : Int)) * m.t, m.k + 1,
    4 + (Fin.ofNat 8 (7 * j) + m.l)⟩

theorem rawLayer_eq (j : Nat) (m : Unitary) :
    rawMul ⟨1, 1, 1, 4⟩ (rawMul ⟨omegaPow ((0 : Fin 8).val : Int), 0, 0, Fin.ofNat 8 (7 * j)⟩ m)
      = rawLayer j m := by
  have h4 : omegaPow ((4 : Fin 8).val : Int) = -1 := by decide
  have h0 : omegaPow ((0 : Fin 8).val : Int) = 1 := rfl
  have hc0 : ZOmega.conj 0 = 0 := rfl
  have hc1 : ZOmega.conj 1 = 1 := rfl
  ext1
  · simp only [rawMul, rawLayer, h4, h0, hc0, hc1, omegaPow_ofNat]
    ring
  · simp only [rawMul, rawLayer, h4, h0, hc0, hc1, omegaPow_ofNat]
    ring
  · show 1 + (0 + m.k) = m.k + 1
    ring
  · rfl

theorem hasUnitLength_rawLayer (j : Nat) : (rawLayer j m.1).HasUnitLength := by
  rw [← rawLayer_eq]
  have hH : (⟨1, 1, 1, 4⟩ : Unitary).HasUnitLength := isUnitary_iff.1 (by decide)
  exact hH.rawMul ((hasUnitLength_diagonal 0 _).rawMul m.hasUnitLength)

/-- The product `H T⁻ʲ m` in normal form. -/
theorem layer_mul_eq (j : Nat) :
    hadamard * tGate⁻¹ ^ j * m = ofRaw (rawLayer j m.1) (m.hasUnitLength_rawLayer j) := by
  rw [tGate_inv_pow, mul_assoc]
  conv_lhs => rw [← ofRaw_coe m]
  rw [diagonal, ofRaw_mul_ofRaw, hadamard, ofRaw_mul_ofRaw]
  exact ofRaw_congr _ (rawLayer_eq j m.1)

/-- Where the sum has an exponent larger by three, the layer lowers the denominator exponent by
one. -/
theorem sde_layer {j : Nat} {v w : Nat} (hk : 0 < m.1.k) (hv : m.1.u.absValuation = v)
    (hw : (m.1.u + omegaPow (-(j : Int)) * m.1.t).absValuation = w) (hwv : w = v + 3)
    (hne : m.1.u + omegaPow (-(j : Int)) * m.1.t ≠ 0) :
    (hadamard * tGate⁻¹ ^ j * m).1.sde = m.1.sde - 1 := by
  have hu := ZOmega.ne_zero_of_not_dvd (m.not_dvd hk).1
  rw [layer_mul_eq, sde_ofRaw _ hne, sde_eq hu, hv]
  show 2 * (m.1.k + 1) - ((m.1.u + omegaPow (-(j : Int)) * m.1.t).absValuation : Int) = _
  rw [hw, hwv]
  push_cast
  ring

theorem exists_half {v : ZOmega} (h : AllCoefficients 0 v) : ∃ y, v = 2 * y := by
  obtain ⟨ha, hb, hc, hd⟩ := h
  refine ⟨⟨v.a / 2, v.b / 2, v.c / 2, v.d / 2⟩, ?_⟩
  have h2 : (2 : ZOmega) = ⟨0, 0, 0, 2⟩ := rfl
  rw [h2]
  ext <;> simp only [ZOmega.mul_a, ZOmega.mul_b, ZOmega.mul_c, ZOmega.mul_d] <;> omega

/-- Where `√2` does not divide a sum `y + z`, and the squares of the absolute values add up to an
even integer, each of them has an odd rational part. -/
theorem norm_odd_of_add {y z : ZOmega} (hyz : ¬ sqrt2 ∣ y + z)
    (ha : (y.norm.a + z.norm.a) % 2 = 0) (hb : y.norm.b + z.norm.b = 0) : y.norm.a % 2 = 1 := by
  by_contra hodd
  by_cases hy : sqrt2 ∣ y
  · obtain ⟨hya, hyb⟩ := norm_even_of_dvd hy
    exact hyz (dvd_add hy (ZOmega.dvd_of_norm_even (by omega) (by omega)))
  · have hyb := ZOmega.norm_b_odd hy (by omega)
    have hz : ¬ sqrt2 ∣ z := by
      intro hz
      have := (norm_even_of_dvd hz).2
      omega
    have hys := ZOmega.odd_sums hy (by omega)
    have hzs := ZOmega.odd_sums hz (by omega)
    refine hyz (ZOmega.isReducible_iff_dvd.1 (ZOmega.isReducible_iff.2 ?_))
    rw [ZOmega.add_a, ZOmega.add_b, ZOmega.add_c, ZOmega.add_d]
    omega

/-- **One of the four layers lowers the denominator exponent by one.** -/
theorem exists_layer (hk : 2 ≤ m.1.k) :
    ∃ j : Fin 4, (hadamard * tGate⁻¹ ^ j.val * m).1.sde = m.1.sde - 1 := by
  have hk0 : 0 < m.1.k := by omega
  obtain ⟨hla, hlb⟩ := m.length_eq
  have h4 := m.two_pow_emod_four hk
  obtain ⟨hu, ht⟩ := m.not_dvd hk0
  by_cases hodd : m.1.u.norm.a % 2 = 1
  · obtain ⟨j, ha, hb, hc, hd⟩ := exists_allOdd (u := m.1.u) (t := m.1.t) (by omega) hodd
    have hval := ZOmega.absValuation_of_all_odd ha hb hc hd
    refine ⟨j, m.sde_layer hk0 (ZOmega.absValuation_of_odd hodd) hval rfl fun h0 => ?_⟩
    rw [h0] at ha
    exact absurd ha (by decide)
  · have hua : m.1.u.norm.a % 2 = 0 := by omega
    have hta : m.1.t.norm.a % 2 = 0 := by omega
    obtain ⟨j, ha, hb, hc, hd⟩ := exists_allEven (ZOmega.odd_sums hu hua) (ZOmega.odd_sums ht hta)
    -- the sum is `2y`, and the difference is `2z` with `u = y + z`
    obtain ⟨y, hy⟩ := exists_half ⟨ha, hb, hc, hd⟩
    have hyodd : y.norm.a % 2 = 1 := by
      have hyz : y + (m.1.u - y) = m.1.u := by ring
      have hdiff : y - (m.1.u - y) = omegaPow (-(j.val : Int)) * m.1.t := by
        linear_combination -hy
      have hpar := ZOmega.norm_add_norm_sub y (m.1.u - y)
      rw [hyz, hdiff, ZOmega.norm_mul, ZOmega.norm_omegaPow, one_mul] at hpar
      have hpa : m.1.u.norm.a + m.1.t.norm.a = 2 * (y.norm.a + (m.1.u - y).norm.a)
          + 0 * (y.norm.b + (m.1.u - y).norm.b) * 2 := congrArg ZSqrt2.a hpar
      have hpb : m.1.u.norm.b + m.1.t.norm.b = 2 * (y.norm.b + (m.1.u - y).norm.b)
          + 0 * (y.norm.a + (m.1.u - y).norm.a) := congrArg ZSqrt2.b hpar
      exact norm_odd_of_add (z := m.1.u - y) (by rwa [hyz]) (by omega) (by omega)
    have hval := ZOmega.absValuation_two_mul hyodd
    rw [← hy] at hval
    refine ⟨j, m.sde_layer hk0 (ZOmega.absValuation_of_even hua (ZOmega.norm_b_odd hu hua)) hval rfl
      fun h0 => ?_⟩
    rw [hy, mul_eq_zero] at h0
    have hy0 := h0.resolve_left (by decide)
    rw [hy0] at hyodd
    exact absurd hyodd (by decide)

end NormalUnitary

end CliffordT
