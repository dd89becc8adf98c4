/-
The unitaries in normal form are a group.

A tuple `(u, t, k, l)` and the one with `u` and `t` times `√2ʲ` and `k + j` stand for the same matrix;
`Scales j m n` says so, and `reduce` chooses the one of them that has no factor `√2` left. Products are
taken on the tuples as they are, by `rawMul`, and reduced after that. A factor `√2ʲ` goes through
`rawMul`, so that it does not matter whether a factor is reduced before or after a product; the laws
of the group are then those of `rawMul`, which are identities in `ℤ[ω]`.
-/
import Mathlib.Algebra.Group.Basic
import Mathlib.Algebra.Group.MinimalAxioms
import Mathlib.Tactic.LinearCombination
import CliffordT.Proofs.Ring.Denominator
import CliffordT.Proofs.Ring.Phase
import CliffordT.Unitary.Basic

namespace CliffordT.Unitary

open ZOmega (sqrt2 omegaPow)

/-! ## Unit length -/

def HasUnitLength (m : Unitary) : Prop :=
  0 ≤ m.k ∧ m.u.norm + m.t.norm = (2 : ZSqrt2) ^ m.k.toNat

theorem two_pow_eq (n : Nat) : (2 : ZSqrt2) ^ n = ⟨2 ^ n, 0⟩ := by
  have h : ((2 : Int) ^ n : Int) = ((2 : ZSqrt2) ^ n) := by
    rw [Int.cast_pow]
    rfl
  rw [← h]
  rfl

theorem isUnitary_iff {m : Unitary} : m.isUnitary = true ↔ m.HasUnitLength := by
  have hpow : ZSqrt2.ofInt ((1 : Int) <<< m.k.toNat) = (2 : ZSqrt2) ^ m.k.toNat := by
    rw [Int.shiftLeft_eq, one_mul, two_pow_eq]
    rfl
  unfold isUnitary HasUnitLength
  rw [Bool.and_eq_true, decide_eq_true_iff, beq_iff_eq, hpow]

/-- A column of unit length is not zero. -/
theorem HasUnitLength.ne_zero {m : Unitary} (h : m.HasUnitLength) : ¬ (m.u = 0 ∧ m.t = 0) := by
  rintro ⟨hu, ht⟩
  have hlen := h.2
  rw [hu, ht] at hlen
  have hzero : (0 : ZOmega).norm = 0 := rfl
  rw [hzero, add_zero] at hlen
  exact pow_ne_zero m.k.toNat (by decide : (2 : ZSqrt2) ≠ 0) hlen.symm

/-! ## Tuples for one matrix -/

/-- The tuple `m` is `n` with numerator and denominator multiplied by `√2ʲ`. -/
structure Scales (j : Nat) (m n : Unitary) : Prop where
  u : m.u = sqrt2 ^ j * n.u
  t : m.t = sqrt2 ^ j * n.t
  k : m.k = n.k + j
  l : m.l = n.l

theorem Scales.refl (m : Unitary) : Scales 0 m m where
  u := by rw [pow_zero, one_mul]
  t := by rw [pow_zero, one_mul]
  k := by simp
  l := rfl

theorem Scales.trans {i j : Nat} {m n o : Unitary} (h : Scales i m n) (h' : Scales j n o) :
    Scales (i + j) m o where
  u := by rw [h.u, h'.u, pow_add, mul_assoc]
  t := by rw [h.t, h'.t, pow_add, mul_assoc]
  k := by
    rw [h.k, h'.k]
    push_cast
    ring
  l := h.l.trans h'.l

theorem isReducible_iff_dvd {m : Unitary} :
    m.isReducible = true ↔ sqrt2 ∣ m.u ∧ sqrt2 ∣ m.t ∧ ¬ (m.u = 0 ∧ m.t = 0) := by
  unfold isReducible
  rw [Bool.and_eq_true, Bool.and_eq_true, ZOmega.isReducible_iff_dvd, ZOmega.isReducible_iff_dvd,
    and_assoc]
  simp [imp_iff_not_or]

theorem reduce_of_not_reducible {m : Unitary} (h : m.isReducible = false) : reduce m = m := by
  rw [reduce, dif_neg (by simp [h])]

theorem reduce_of_reducible {m : Unitary} (h : m.isReducible = true) :
    reduce m = reduce ⟨m.u.reduce, m.t.reduce, m.k - 1, m.l⟩ := by
  rw [reduce, dif_pos h]

/-- Reduction takes out a power of `√2`, and leaves nothing to reduce. -/
theorem reduce_spec (m : Unitary) :
    (∃ j, Scales j m (reduce m)) ∧ (reduce m).isReducible = false := by
  fun_induction reduce m with
  | case1 m h ih =>
    obtain ⟨⟨j, hj⟩, hred⟩ := ih
    obtain ⟨hu, ht, -⟩ := isReducible_iff_dvd.1 h
    have hone : Scales 1 m ⟨m.u.reduce, m.t.reduce, m.k - 1, m.l⟩ := by
      refine ⟨?_, ?_, ?_, rfl⟩
      · rw [pow_one, ZOmega.sqrt2_mul_reduce (ZOmega.isReducible_iff_dvd.2 hu)]
      · rw [pow_one, ZOmega.sqrt2_mul_reduce (ZOmega.isReducible_iff_dvd.2 ht)]
      · simp
    exact ⟨⟨1 + j, hone.trans hj⟩, hred⟩
  | case2 m h => exact ⟨⟨0, .refl m⟩, by simpa using h⟩

/-- A tuple that is multiplied by a power of `√2` is reduced to the same one. -/
theorem reduce_eq_of_scales {j : Nat} {m n : Unitary} (h : Scales j m n)
    (hn : ¬ (n.u = 0 ∧ n.t = 0)) : reduce m = reduce n := by
  induction j generalizing m with
  | zero =>
    congr 1
    ext1
    · rw [h.u, pow_zero, one_mul]
    · rw [h.t, pow_zero, one_mul]
    · simpa using h.k
    · exact h.l
  | succ j ih =>
    have hu : m.u = sqrt2 * (sqrt2 ^ j * n.u) := by rw [h.u, pow_succ', mul_assoc]
    have ht : m.t = sqrt2 * (sqrt2 ^ j * n.t) := by rw [h.t, pow_succ', mul_assoc]
    have hred : m.isReducible = true := by
      refine isReducible_iff_dvd.2 ⟨⟨_, hu⟩, ⟨_, ht⟩, ?_⟩
      rintro ⟨hu0, ht0⟩
      have hpow := pow_ne_zero (j + 1) ZOmega.sqrt2_ne_zero
      exact hn ⟨(mul_eq_zero.1 (h.u.symm.trans hu0)).resolve_left hpow,
        (mul_eq_zero.1 (h.t.symm.trans ht0)).resolve_left hpow⟩
    rw [reduce_of_reducible hred]
    refine ih ⟨?_, ?_, ?_, h.l⟩
    · show m.u.reduce = _
      rw [hu, ZOmega.reduce_sqrt2_mul]
    · show m.t.reduce = _
      rw [ht, ZOmega.reduce_sqrt2_mul]
    · show m.k - 1 = _
      rw [h.k]
      push_cast
      ring

/-- Unit length does not depend on the tuple that is chosen for the matrix. -/
theorem HasUnitLength.of_scales {j : Nat} {m n : Unitary} (hm : m.HasUnitLength)
    (h : Scales j m n) : n.HasUnitLength := by
  obtain ⟨hk, hlen⟩ := hm
  have hpow : (sqrt2 ^ j).norm = (2 : ZSqrt2) ^ j := by rw [ZOmega.norm_pow, ZOmega.norm_sqrt2]
  rw [h.u, h.t, ZOmega.norm_mul, ZOmega.norm_mul, hpow, ← mul_add] at hlen
  have h2 : (2 : ZSqrt2) ≠ 0 := by decide
  have hkj := h.k
  have hle : j ≤ m.k.toNat := by
    -- otherwise two would divide one
    by_contra hlt
    obtain ⟨c, hc⟩ := Nat.exists_eq_add_of_lt (Nat.lt_of_not_le hlt)
    rw [hc, Nat.add_assoc, pow_add, mul_assoc] at hlen
    have hone : (2 : ZSqrt2) ^ (c + 1) * (n.u.norm + n.t.norm) = 1 :=
      mul_left_cancel₀ (pow_ne_zero m.k.toNat h2) (by rw [hlen, mul_one])
    rw [pow_succ', mul_assoc] at hone
    generalize (2 : ZSqrt2) ^ c * (n.u.norm + n.t.norm) = x at hone
    have ha : 2 * x.a + 0 * x.b * 2 = 1 := congrArg ZSqrt2.a hone
    omega
  obtain ⟨c, hc⟩ := Nat.exists_eq_add_of_le hle
  rw [hc, pow_add] at hlen
  have hsum := mul_left_cancel₀ (pow_ne_zero j h2) hlen
  have hn : n.k.toNat = c := by omega
  exact ⟨by omega, by rw [hn, hsum]⟩

/-! ## Products -/

def rawMul (m n : Unitary) : Unitary :=
  ⟨m.u * n.u - m.t.conj * (n.t * omegaPow m.l.val), m.t * n.u + m.u.conj * (n.t * omegaPow m.l.val),
    m.k + n.k, m.l + n.l⟩

theorem rawMul_assoc (m n o : Unitary) : rawMul (rawMul m n) o = rawMul m (rawMul n o) := by
  have hphase := ZOmega.omegaPow_neg_mul (m.l.val : Int)
  ext1
  · simp only [rawMul, ZOmega.omegaPow_val_add, ZOmega.conj_add, ZOmega.conj_mul, ZOmega.conj_conj,
      ZOmega.conj_omegaPow]
    linear_combination (-(m.u * n.t.conj * o.t * omegaPow n.l.val)) * hphase
  · simp only [rawMul, ZOmega.omegaPow_val_add, ZOmega.conj_sub, ZOmega.conj_mul, ZOmega.conj_conj,
      ZOmega.conj_omegaPow]
    linear_combination (-(m.t * n.t.conj * o.t * omegaPow n.l.val)) * hphase
  · exact add_assoc _ _ _
  · exact add_assoc _ _ _

/-- Lengths of columns are multiplied. -/
theorem HasUnitLength.rawMul {m n : Unitary} (hm : m.HasUnitLength) (hn : n.HasUnitLength) :
    (rawMul m n).HasUnitLength := by
  obtain ⟨hmk, hmlen⟩ := hm
  obtain ⟨hnk, hnlen⟩ := hn
  refine ⟨Int.add_nonneg hmk hnk, ?_⟩
  have hk : (m.k + n.k).toNat = m.k.toNat + n.k.toNat := by omega
  show (m.u * n.u - m.t.conj * (n.t * omegaPow m.l.val)).norm
    + (m.t * n.u + m.u.conj * (n.t * omegaPow m.l.val)).norm = 2 ^ (m.k + n.k).toNat
  rw [hk, pow_add, ← hmlen, ← hnlen]
  refine ZOmega.ofZSqrt2_injective ?_
  have hphase := ZOmega.omegaPow_mul_neg (m.l.val : Int)
  simp only [ZOmega.ofZSqrt2_add, ZOmega.ofZSqrt2_mul, ← ZOmega.mul_conj, ZOmega.conj_add,
    ZOmega.conj_sub, ZOmega.conj_mul, ZOmega.conj_conj, ZOmega.conj_omegaPow]
  linear_combination
    (m.u * m.u.conj + m.t * m.t.conj) * n.t * n.t.conj * hphase

/-- Powers of `√2` in the factors go through the product. -/
theorem Scales.rawMul {i j : Nat} {m m' n n' : Unitary} (h : Scales i m m') (h' : Scales j n n') :
    Scales (i + j) (rawMul m n) (rawMul m' n') := by
  have hconj : ∀ (i : Nat) (v : ZOmega), (sqrt2 ^ i * v).conj = sqrt2 ^ i * v.conj := by
    intro i v
    rw [ZOmega.conj_mul]
    exact congrArg (· * v.conj) (map_pow ZOmega.conjHom sqrt2 i)
  refine ⟨?_, ?_, ?_, ?_⟩
  · show m.u * n.u - m.t.conj * (n.t * omegaPow m.l.val) = _ * (_ - _)
    rw [h.u, h.t, h'.u, h'.t, h.l, hconj]
    ring
  · show m.t * n.u + m.u.conj * (n.t * omegaPow m.l.val) = _ * (_ + _)
    rw [h.u, h.t, h'.u, h'.t, h.l, hconj]
    ring
  · show m.k + n.k = m'.k + n'.k + _
    rw [h.k, h'.k]
    push_cast
    ring
  · show m.l + n.l = m'.l + n'.l
    rw [h.l, h'.l]

theorem HasUnitLength.reduce {m : Unitary} (h : m.HasUnitLength) : (reduce m).HasUnitLength := by
  obtain ⟨⟨j, hj⟩, -⟩ := reduce_spec m
  exact h.of_scales hj

/-- The first factor may be reduced before the product. -/
theorem reduce_rawMul_reduce_left {m n : Unitary} (hm : m.HasUnitLength) (hn : n.HasUnitLength) :
    reduce (rawMul (reduce m) n) = reduce (rawMul m n) := by
  obtain ⟨⟨j, hj⟩, -⟩ := reduce_spec m
  exact (reduce_eq_of_scales (hj.rawMul (.refl n)) (hm.reduce.rawMul hn).ne_zero).symm

/-- The second factor may be reduced before the product. -/
theorem reduce_rawMul_reduce_right {m n : Unitary} (hm : m.HasUnitLength) (hn : n.HasUnitLength) :
    reduce (rawMul m (reduce n)) = reduce (rawMul m n) := by
  obtain ⟨⟨j, hj⟩, -⟩ := reduce_spec n
  exact (reduce_eq_of_scales ((Scales.refl m).rawMul hj) (hm.rawMul hn.reduce).ne_zero).symm

/-! ## Inverses -/

def rawDagger (m : Unitary) : Unitary :=
  ⟨m.u.conj, -(m.t * omegaPow (-(m.l.val : Int))), m.k, -m.l⟩

theorem HasUnitLength.rawDagger {m : Unitary} (h : m.HasUnitLength) :
    (rawDagger m).HasUnitLength := by
  refine ⟨h.1, ?_⟩
  have hneg : (-(m.t * omegaPow (-(m.l.val : Int)))).norm = m.t.norm := by
    have hsq : ∀ v : ZOmega, (-v).norm = v.norm := by
      intro v
      ext <;> simp [ZOmega.norm]
    rw [hsq, ZOmega.norm_mul, ZOmega.norm_omegaPow, mul_one]
  show m.u.conj.norm + (-(m.t * omegaPow (-(m.l.val : Int)))).norm = 2 ^ m.k.toNat
  rw [hneg, ZOmega.norm_conj]
  exact h.2

/-- The conjugate transpose times the unitary is the identity over a power of `√2`. -/
theorem scales_rawDagger_rawMul {m : Unitary} (h : m.HasUnitLength) :
    Scales (2 * m.k.toNat) (rawMul (rawDagger m) m) ⟨1, 0, 0, 0⟩ := by
  have hlen : m.u * m.u.conj + m.t * m.t.conj = sqrt2 ^ (2 * m.k.toNat) := by
    rw [ZOmega.mul_conj, ZOmega.mul_conj, ← ZOmega.ofZSqrt2_add, h.2, ZOmega.ofZSqrt2_pow, pow_mul,
      pow_two sqrt2]
    rfl
  have hphase := ZOmega.omegaPow_mul_neg (m.l.val : Int)
  refine ⟨?_, ?_, ?_, ?_⟩
  · show m.u.conj * m.u - (-(m.t * omegaPow (-(m.l.val : Int)))).conj
        * (m.t * omegaPow ((-m.l : Fin 8).val : Int)) = _ * 1
    have hconj : (-(m.t * omegaPow (-(m.l.val : Int)))).conj
        = -(m.t.conj * omegaPow (m.l.val : Int)) := by
      calc (-(m.t * omegaPow (-(m.l.val : Int)))).conj
          = -(m.t * omegaPow (-(m.l.val : Int))).conj := map_neg ZOmega.conjHom _
        _ = -(m.t.conj * omegaPow (m.l.val : Int)) := by
          rw [ZOmega.conj_mul, ZOmega.conj_omegaPow, neg_neg]
    rw [hconj, ZOmega.omegaPow_val_neg, ← hlen]
    linear_combination m.t * m.t.conj * hphase
  · show -(m.t * omegaPow (-(m.l.val : Int))) * m.u
        + m.u.conj.conj * (m.t * omegaPow ((-m.l : Fin 8).val : Int)) = _ * 0
    rw [ZOmega.conj_conj, ZOmega.omegaPow_val_neg]
    ring
  · show m.k + m.k = 0 + _
    have := h.1
    push_cast
    omega
  · show -m.l + m.l = 0
    exact neg_add_cancel m.l

/-- Holds for the unitaries in normal form: the first column has length one, and there is nothing
to reduce. -/
def IsNormal (m : Unitary) : Prop := m.isUnitary = true ∧ m.isReducible = false

theorem isNormal_reduce {m : Unitary} (h : m.HasUnitLength) : (reduce m).IsNormal :=
  ⟨isUnitary_iff.2 h.reduce, (reduce_spec m).2⟩

theorem IsNormal.hasUnitLength {m : Unitary} (h : m.IsNormal) : m.HasUnitLength :=
  isUnitary_iff.1 h.1

theorem IsNormal.reduce_eq {m : Unitary} (h : m.IsNormal) : reduce m = m :=
  reduce_of_not_reducible h.2

/-- The constructor accepts what has unit length in normal form. -/
theorem mk?_eq_ok_iff {u t : ZOmega} {k : Int} {l : Nat} {m : Unitary} :
    mk? u t k l = .ok m ↔
      ∃ h : l < 8, (reduce ⟨u, t, k, ⟨l, h⟩⟩).HasUnitLength ∧ m = reduce ⟨u, t, k, ⟨l, h⟩⟩ := by
  unfold mk?
  by_cases h : l < 8
  · rw [dif_pos h]
    show (if (reduce ⟨u, t, k, ⟨l, h⟩⟩).k < leastExponent then _
      else if (reduce ⟨u, t, k, ⟨l, h⟩⟩).isUnitary = true then _ else _) = _ ↔ _
    by_cases hunit : (reduce ⟨u, t, k, ⟨l, h⟩⟩).isUnitary = true
    · have hlen := isUnitary_iff.1 hunit
      have hrange : ¬ (reduce ⟨u, t, k, ⟨l, h⟩⟩).k < leastExponent :=
        not_lt.2 ((by decide : leastExponent ≤ 0).trans hlen.1)
      rw [if_neg hrange, if_pos hunit, Except.ok.injEq, eq_comm]
      exact ⟨fun hm => ⟨h, hlen, hm⟩, fun ⟨_, _, hm⟩ => hm⟩
    · rw [if_neg hunit]
      refine ⟨fun hm => ?_, fun ⟨_, hlen, _⟩ => absurd (isUnitary_iff.2 hlen) hunit⟩
      split at hm <;> cases hm
  · rw [dif_neg h]
    exact ⟨nofun, fun ⟨hl, _⟩ => absurd hl h⟩

/-- The exponent falls out of its range on the way to the normal form, or it does not. -/
theorem mk?_eq_overflow_iff {u t : ZOmega} {k : Int} {l : Nat} :
    mk? u t k l = .error .overflow ↔ ∃ h : l < 8, (reduce ⟨u, t, k, ⟨l, h⟩⟩).k < leastExponent := by
  unfold mk?
  by_cases h : l < 8
  · rw [dif_pos h]
    show (if (reduce ⟨u, t, k, ⟨l, h⟩⟩).k < leastExponent then _ else if _ then _ else _) = _ ↔ _
    by_cases hrange : (reduce ⟨u, t, k, ⟨l, h⟩⟩).k < leastExponent
    · rw [if_pos hrange]
      exact ⟨fun _ => ⟨h, hrange⟩, fun _ => rfl⟩
    · rw [if_neg hrange]
      refine ⟨fun hm => ?_, fun ⟨_, hk⟩ => absurd hk hrange⟩
      split at hm <;> cases hm
  · rw [dif_neg h]
    exact ⟨nofun, fun ⟨hl, _⟩ => absurd hl h⟩

/-- A column of length one passes the check, in whatever tuple it is given. -/
theorem mk?_of_hasUnitLength {m : Unitary} (h : m.HasUnitLength) :
    mk? m.u m.t m.k m.l.val = .ok (reduce m) :=
  mk?_eq_ok_iff.2 ⟨m.l.isLt, isUnitary_iff.1 (isNormal_reduce h).1, rfl⟩

end CliffordT.Unitary

namespace CliffordT

open CliffordT.Unitary

/-! ## The group -/

def NormalUnitary : Type := { m : Unitary // m.IsNormal }

namespace NormalUnitary

-- The phases count modulo eight: a name for the instance makes their numerals one term everywhere.
scoped instance neZero_eight : NeZero 8 := inferInstance

instance : CoeOut NormalUnitary Unitary := ⟨Subtype.val⟩

theorem coe_injective {m n : NormalUnitary} (h : (m : Unitary) = n) : m = n := Subtype.ext h

/-- The normal form of a tuple of unit length. -/
def ofRaw (m : Unitary) (h : m.HasUnitLength) : NormalUnitary := ⟨reduce m, isNormal_reduce h⟩

theorem hasUnitLength (m : NormalUnitary) : (m : Unitary).HasUnitLength := m.2.hasUnitLength

instance : Mul NormalUnitary := ⟨fun m n => ofRaw (rawMul m n) (m.hasUnitLength.rawMul n.hasUnitLength)⟩

instance : One NormalUnitary := ⟨ofRaw ⟨1, 0, 0, 0⟩ (isUnitary_iff.1 (by decide))⟩

instance : Inv NormalUnitary := ⟨fun m => ofRaw (rawDagger m) m.hasUnitLength.rawDagger⟩

@[simp] theorem coe_mul (m n : NormalUnitary) : ((m * n : NormalUnitary) : Unitary) = m.1 * n.1 := rfl

@[simp] theorem coe_one : ((1 : NormalUnitary) : Unitary) = identity := rfl

theorem one_mul' (m : NormalUnitary) : 1 * m = m := by
  refine coe_injective ?_
  show reduce (rawMul (reduce ⟨1, 0, 0, 0⟩) m.1) = m.1
  rw [reduce_rawMul_reduce_left (isUnitary_iff.1 (by decide)) m.hasUnitLength]
  have hraw : rawMul ⟨1, 0, 0, 0⟩ m.1 = m.1 := by
    ext1
    · show 1 * m.1.u - ZOmega.conj 0 * _ = m.1.u
      have h0 : ZOmega.conj 0 = 0 := rfl
      rw [h0, zero_mul, sub_zero, one_mul]
    · show 0 * m.1.u + ZOmega.conj 1 * (m.1.t * ZOmega.omegaPow 0) = m.1.t
      have h1 : ZOmega.conj 1 = 1 := rfl
      rw [h1, ZOmega.omegaPow_zero, zero_mul, zero_add, one_mul, mul_one]
    · exact zero_add _
    · exact zero_add _
  rw [hraw, m.2.reduce_eq]

theorem inv_mul' (m : NormalUnitary) : m⁻¹ * m = 1 := by
  refine coe_injective ?_
  show reduce (rawMul (reduce (rawDagger m.1)) m.1) = reduce ⟨1, 0, 0, 0⟩
  rw [reduce_rawMul_reduce_left m.hasUnitLength.rawDagger m.hasUnitLength]
  exact reduce_eq_of_scales (scales_rawDagger_rawMul m.hasUnitLength) (by decide)

theorem mul_assoc' (m n o : NormalUnitary) : m * n * o = m * (n * o) := by
  refine coe_injective ?_
  show reduce (rawMul (reduce (rawMul m.1 n.1)) o.1) = reduce (rawMul m.1 (reduce (rawMul n.1 o.1)))
  rw [reduce_rawMul_reduce_left (m.hasUnitLength.rawMul n.hasUnitLength) o.hasUnitLength,
    reduce_rawMul_reduce_right m.hasUnitLength (n.hasUnitLength.rawMul o.hasUnitLength),
    rawMul_assoc]

instance : Group NormalUnitary :=
  Group.ofLeftAxioms mul_assoc' one_mul' inv_mul'

end NormalUnitary

end CliffordT
