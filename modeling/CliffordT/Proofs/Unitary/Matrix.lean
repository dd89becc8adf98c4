/-
The complex matrix that a tuple stands for.

`matrix m` is the matrix with the columns `(u, t)` and `(-t̄ ωˡ, ū ωˡ)`, over `√2ᵏ`. On tuples that need
not be reduced, `rawMul` is the product of matrices and `rawDagger` the conjugate transpose, and a
reduction does not change the matrix; the operations, which reduce at their ends, are therefore exact.
In the other direction a matrix has one tuple in normal form: the exponents agree because otherwise one
of the two columns could be divided by `√2`, the columns because `ℤ[ω]` lies in the complex numbers, and
the phases because the first column is not zero. `Constructible` collects what the operations give.
-/
import Mathlib.LinearAlgebra.Matrix.ConjTranspose
import Mathlib.LinearAlgebra.Matrix.Notation
import CliffordT.Proofs.Ring.Embedding
import CliffordT.Proofs.Unitary.Words

namespace CliffordT

open ZOmega (toComplex complexOmega omegaPow sqrt2)

namespace ZOmega

/-! ## The embedding -/

theorem toComplex_conj (u : ZOmega) : toComplex u.conj = star (toComplex u) := by
  apply Complex.ext
  · rw [toComplex_re, Complex.star_def, Complex.conj_re, toComplex_re, conj_d, conj_c, conj_a]
    push_cast
    ring
  · rw [toComplex_im, Complex.star_def, Complex.conj_im, toComplex_im, conj_b, conj_c, conj_a]
    push_cast
    ring

theorem toComplex_omegaPow_one : toComplex (omegaPow 1) = complexOmega := by
  rw [toComplex_apply]
  simp [omegaPow]

theorem toComplex_omegaPow (n : Nat) : toComplex (omegaPow n) = complexOmega ^ n := by
  induction n with
  | zero => rw [pow_zero, Nat.cast_zero, omegaPow_zero, map_one]
  | succ n ih => rw [Nat.cast_succ, omegaPow_add, map_mul, ih, toComplex_omegaPow_one, pow_succ]

/-- The eight phases are different from each other. -/
theorem omegaPow_val_injective {i j : Fin 8}
    (h : omegaPow (i.val : Int) = omegaPow (j.val : Int)) : i = j := by
  revert i j
  decide

theorem toComplex_injective : Function.Injective toComplex := by
  refine (injective_iff_map_eq_zero toComplex).2 fun u hu => ?_
  have hre := congrArg Complex.re hu
  have him := congrArg Complex.im hu
  rw [toComplex_re, Complex.zero_re] at hre
  rw [toComplex_im, Complex.zero_im] at him
  obtain ⟨hd, hca⟩ := eq_zero_of_add_mul_sqrt_two hre
  obtain ⟨hb, hca'⟩ := eq_zero_of_add_mul_sqrt_two him
  ext
  · show u.a = 0
    omega
  · exact hb
  · show u.c = 0
    omega
  · exact hd

end ZOmega

namespace Unitary

open Matrix

/-! ## The matrix of a tuple -/

noncomputable def rootTwo : ℂ := ((√2 : ℝ) : ℂ)

theorem rootTwo_ne_zero : rootTwo ≠ 0 := by
  unfold rootTwo
  rw [Complex.ofReal_ne_zero]
  positivity

theorem star_rootTwo_zpow (k : ℤ) : star (rootTwo ^ k) = rootTwo ^ k := by
  rw [Complex.star_def, map_zpow₀, rootTwo, Complex.conj_ofReal]

theorem toComplex_sqrt2_pow (j : Nat) (u : ZOmega) :
    ZOmega.toComplex (sqrt2 ^ j * u) = rootTwo ^ j * ZOmega.toComplex u :=
  ZOmega.toComplex_sqrt2_pow_mul j u

/-- The matrix `(1/√2ᵏ) [[u, -t̄ ωˡ], [t, ū ωˡ]]`. -/
noncomputable def matrix (m : Unitary) : Matrix (Fin 2) (Fin 2) ℂ :=
  rootTwo ^ (-m.k) •
    !![ZOmega.toComplex m.u, -(star (ZOmega.toComplex m.t) * complexOmega ^ m.l.val);
      ZOmega.toComplex m.t, star (ZOmega.toComplex m.u) * complexOmega ^ m.l.val]

/-- The phase of the second column, in the ring. -/
theorem complexOmega_pow_val (l : Fin 8) :
    complexOmega ^ l.val = ZOmega.toComplex (omegaPow (l.val : Int)) :=
  (ZOmega.toComplex_omegaPow l.val).symm

/-- The entries of the matrix, as elements of the ring over a power of `√2`. -/
theorem matrix_eq (m : Unitary) : m.matrix = rootTwo ^ (-m.k) •
    !![ZOmega.toComplex m.u, ZOmega.toComplex (-(m.t.conj * omegaPow (m.l.val : Int)));
      ZOmega.toComplex m.t, ZOmega.toComplex (m.u.conj * omegaPow (m.l.val : Int))] := by
  rw [matrix, complexOmega_pow_val, map_neg, map_mul, map_mul, ZOmega.toComplex_conj,
    ZOmega.toComplex_conj]

/-! ## Products and adjoints -/

/-- The product of tuples is the product of matrices. -/
theorem matrix_rawMul (m n : Unitary) : (rawMul m n).matrix = m.matrix * n.matrix := by
  have hphase := congrArg ZOmega.toComplex (ZOmega.omegaPow_mul_neg (m.l.val : Int))
  rw [map_mul, map_one] at hphase
  rw [matrix_eq, matrix_eq m, matrix_eq n, smul_mul_smul_comm, ← zpow_add₀ rootTwo_ne_zero]
  have hk : -(rawMul m n).k = -m.k + -n.k := by
    show -(m.k + n.k) = _
    ring
  rw [hk]
  congr 1
  rw [Matrix.mul_fin_two]
  simp only [rawMul, ZOmega.omegaPow_val_add, ZOmega.conj_add, ZOmega.conj_sub, ZOmega.conj_mul,
    ZOmega.conj_conj, ZOmega.conj_omegaPow, map_add, map_sub, map_mul, map_neg]
  ext i j
  fin_cases i <;> fin_cases j
  · simp
    ring
  · simp
    linear_combination (-(ZOmega.toComplex n.t.conj * ZOmega.toComplex m.u *
      ZOmega.toComplex (omegaPow n.l.val))) * hphase
  · simp
    ring
  · simp
    linear_combination (-(ZOmega.toComplex n.t.conj * ZOmega.toComplex m.t *
      ZOmega.toComplex (omegaPow n.l.val))) * hphase

/-- The adjoint of a tuple is the adjoint of its matrix. -/
theorem matrix_rawDagger (m : Unitary) : (rawDagger m).matrix = m.matrixᴴ := by
  have hphase := congrArg ZOmega.toComplex (ZOmega.omegaPow_mul_neg (m.l.val : Int))
  rw [map_mul, map_one] at hphase
  have hconj : (-(m.t * omegaPow (-(m.l.val : Int)))).conj = -(m.t.conj * omegaPow (m.l.val : Int)) := by
    have hneg : ∀ v : ZOmega, (-v).conj = -v.conj := fun v => map_neg ZOmega.conjHom v
    rw [hneg, ZOmega.conj_mul, ZOmega.conj_omegaPow, neg_neg]
  rw [matrix_eq, matrix_eq m, conjTranspose_smul, star_rootTwo_zpow]
  have hk : (rawDagger m).k = m.k := rfl
  rw [hk]
  congr 1
  ext i j
  fin_cases i <;> fin_cases j
  · simp [rawDagger, ZOmega.toComplex_conj]
  · simp only [rawDagger, hconj, ZOmega.omegaPow_val_neg]
    simp [← ZOmega.toComplex_conj, -map_neg]
    linear_combination ZOmega.toComplex m.t.conj * hphase
  · simp only [rawDagger]
    simp [← ZOmega.toComplex_conj, ZOmega.conj_omegaPow]
  · simp only [rawDagger, ZOmega.omegaPow_val_neg]
    simp [← ZOmega.toComplex_conj, ZOmega.conj_omegaPow]

/-- Tuples that differ by a factor `√2ʲ` stand for one matrix. -/
theorem matrix_of_scales {j : Nat} {m n : Unitary} (h : Scales j m n) : m.matrix = n.matrix := by
  have hconj : ∀ v : ZOmega, (sqrt2 ^ j * v).conj = sqrt2 ^ j * v.conj := fun v => by
    rw [ZOmega.conj_mul]
    exact congrArg (· * v.conj) (map_pow ZOmega.conjHom sqrt2 j)
  have hpow : rootTwo ^ (-m.k) * rootTwo ^ j = rootTwo ^ (-n.k) := by
    rw [← zpow_natCast, ← zpow_add₀ rootTwo_ne_zero, h.k]
    congr 1
    ring
  rw [matrix_eq, matrix_eq n, ← hpow, mul_smul, h.u, h.t, h.l, hconj, hconj]
  congr 1
  ext i k
  fin_cases i <;> fin_cases k
  · simp [toComplex_sqrt2_pow]
  · simp [toComplex_sqrt2_pow, mul_assoc]
  · simp [toComplex_sqrt2_pow]
  · simp [toComplex_sqrt2_pow, mul_assoc]

@[simp] theorem matrix_reduce (m : Unitary) : (reduce m).matrix = m.matrix := by
  obtain ⟨⟨j, hj⟩, -⟩ := reduce_spec m
  exact (matrix_of_scales hj).symm

@[simp] theorem matrix_mul (m n : Unitary) : (m * n).matrix = m.matrix * n.matrix :=
  (matrix_reduce _).trans (matrix_rawMul m n)

@[simp] theorem matrix_dagger (m : Unitary) : m.dagger.matrix = m.matrixᴴ :=
  (matrix_reduce _).trans (matrix_rawDagger m)

/-- The factor of `mulPhase` is a multiple of the identity. -/
theorem matrix_phase (i : Fin 8) :
    (⟨omegaPow (i.val : Int), 0, 0, 2 * i⟩ : Unitary).matrix = complexOmega ^ i.val • 1 := by
  have hcorner : (omegaPow (i.val : Int)).conj * omegaPow ((2 * i : Fin 8).val : Int)
      = omegaPow (i.val : Int) := by
    rw [ZOmega.conj_omegaPow, ← ZOmega.omegaPow_add]
    refine ZOmega.omegaPow_eq_of_emod ?_
    rw [Fin.val_mul]
    omega
  have hzero : ZOmega.conj 0 = 0 := rfl
  rw [matrix_eq, neg_zero, zpow_zero, one_smul]
  dsimp only
  rw [hcorner, hzero, zero_mul, neg_zero, map_zero, complexOmega_pow_val]
  ext r s
  fin_cases r <;> fin_cases s <;> simp

@[simp] theorem matrix_mulPhase (m : Unitary) (n : Nat) :
    (m.mulPhase n).matrix = complexOmega ^ n • m.matrix := by
  have hl : Fin.ofNat 8 (2 * (n % 8)) = 2 * Fin.ofNat 8 n := by
    refine Fin.ext ?_
    simp only [Fin.val_mul, Fin.ofNat]
    omega
  have hpow : complexOmega ^ (Fin.ofNat 8 n).val = complexOmega ^ n := by
    rw [complexOmega_pow_val, ← ZOmega.toComplex_omegaPow]
    refine congrArg ZOmega.toComplex (ZOmega.omegaPow_eq_of_emod ?_)
    simp only [Fin.ofNat]
    omega
  have hphase : (ofParts (omegaPow (n % 8 : Nat)) 0 0 (Fin.ofNat 8 (2 * (n % 8)))).matrix
      = complexOmega ^ n • 1 := by
    rw [hl, ← hpow]
    exact (matrix_reduce _).trans (matrix_phase (Fin.ofNat 8 n))
  rw [mulPhase, matrix_mul, hphase, Matrix.mul_smul, Matrix.mul_one]

@[simp] theorem matrix_identity : identity.matrix = 1 := by
  have h := matrix_phase 0
  rw [Fin.val_zero, pow_zero, one_smul] at h
  exact (matrix_reduce _).trans h

/-! ## One tuple for one matrix -/

/-- A column in normal form is determined by the column over `√2ᵏ`. -/
theorem column_unique {m n : Unitary} (hm : m.IsNormal) (hle : m.k ≤ n.k)
    (hn : n.isReducible = false)
    (hu : rootTwo ^ (-m.k) * ZOmega.toComplex m.u = rootTwo ^ (-n.k) * ZOmega.toComplex n.u)
    (ht : rootTwo ^ (-m.k) * ZOmega.toComplex m.t = rootTwo ^ (-n.k) * ZOmega.toComplex n.t) :
    m.u = n.u ∧ m.t = n.t ∧ m.k = n.k := by
  obtain ⟨j, hj⟩ := Int.le.dest hle
  have hlift : ∀ v w : ZOmega,
      rootTwo ^ (-m.k) * ZOmega.toComplex v = rootTwo ^ (-n.k) * ZOmega.toComplex w →
      w = sqrt2 ^ j * v := by
    intro v w h
    refine ZOmega.toComplex_injective ?_
    have hpow : rootTwo ^ (-n.k) * rootTwo ^ j = rootTwo ^ (-m.k) := by
      rw [← zpow_natCast, ← zpow_add₀ rootTwo_ne_zero, ← hj]
      congr 1
      ring
    rw [toComplex_sqrt2_pow]
    rw [← hpow, mul_assoc] at h
    exact (mul_left_cancel₀ (zpow_ne_zero _ rootTwo_ne_zero) h).symm
  have hu' := hlift _ _ hu
  have ht' := hlift _ _ ht
  -- a positive difference of the exponents leaves something to reduce
  have hj0 : j = 0 := by
    by_contra hj0
    obtain ⟨i, rfl⟩ := Nat.exists_eq_succ_of_ne_zero hj0
    have hred : n.isReducible = true := by
      refine isReducible_iff_dvd.2 ⟨⟨sqrt2 ^ i * m.u, ?_⟩, ⟨sqrt2 ^ i * m.t, ?_⟩, ?_⟩
      · rw [hu', pow_succ', mul_assoc]
      · rw [ht', pow_succ', mul_assoc]
      · rintro ⟨hu0, ht0⟩
        have hpow := pow_ne_zero i.succ ZOmega.sqrt2_ne_zero
        exact hm.hasUnitLength.ne_zero ⟨(mul_eq_zero.1 (hu'.symm.trans hu0)).resolve_left hpow,
          (mul_eq_zero.1 (ht'.symm.trans ht0)).resolve_left hpow⟩
    rw [hn] at hred
    cases hred
  subst hj0
  rw [pow_zero, one_mul] at hu' ht'
  exact ⟨hu'.symm, ht'.symm, by simpa using hj⟩

/-- Unitaries in normal form with one matrix are equal. -/
theorem eq_of_matrix_eq {m n : Unitary} (hm : m.IsNormal) (hn : n.IsNormal)
    (h : m.matrix = n.matrix) : m = n := by
  rw [matrix_eq, matrix_eq n] at h
  have h00 : rootTwo ^ (-m.k) * ZOmega.toComplex m.u = rootTwo ^ (-n.k) * ZOmega.toComplex n.u := by
    simpa using congrFun (congrFun h 0) 0
  have h10 : rootTwo ^ (-m.k) * ZOmega.toComplex m.t = rootTwo ^ (-n.k) * ZOmega.toComplex n.t := by
    simpa using congrFun (congrFun h 1) 0
  have hcolumn : m.u = n.u ∧ m.t = n.t ∧ m.k = n.k := by
    rcases le_total m.k n.k with hle | hle
    · exact column_unique hm hle hn.2 h00 h10
    · obtain ⟨hu, ht, hk⟩ := column_unique hn hle hm.2 h00.symm h10.symm
      exact ⟨hu.symm, ht.symm, hk.symm⟩
  obtain ⟨hu, ht, hk⟩ := hcolumn
  have h01 := congrFun (congrFun h 0) 1
  have h11 := congrFun (congrFun h 1) 1
  rw [← hu, ← ht, ← hk] at h01 h11
  have hpow := zpow_ne_zero (-m.k) rootTwo_ne_zero
  -- the entry of the first column that is not zero decides the phase
  have hl : omegaPow (m.l.val : Int) = omegaPow (n.l.val : Int) := by
    by_cases hu0 : m.u = 0
    · have ht0 : m.t.conj ≠ 0 := fun h0 =>
        hm.hasUnitLength.ne_zero ⟨hu0, by rw [← ZOmega.conj_conj m.t, h0]; rfl⟩
      have h01' : -(m.t.conj * omegaPow (m.l.val : Int)) = -(m.t.conj * omegaPow (n.l.val : Int)) :=
        ZOmega.toComplex_injective (mul_left_cancel₀ hpow h01)
      exact mul_left_cancel₀ ht0 (neg_injective h01')
    · have hu0' : m.u.conj ≠ 0 := fun h0 => hu0 (by rw [← ZOmega.conj_conj m.u, h0]; rfl)
      exact mul_left_cancel₀ hu0' (ZOmega.toComplex_injective (mul_left_cancel₀ hpow h11))
  exact Unitary.ext hu ht hk (ZOmega.omegaPow_val_injective hl)

/-! ## What the operations give -/

/-- The unitaries that the operations give, in any way. -/
inductive Constructible : Unitary → Prop
  | checked {u t : ZOmega} {k : Int} {l : Nat} {m : Unitary} (h : mk? u t k l = .ok m) :
    Constructible m
  | word {w : Word} {m : Unitary} (h : ofWord w = .ok m) : Constructible m
  | identity : Constructible identity
  | hadamard : Constructible hadamard
  | tGate : Constructible tGate
  | sGate : Constructible sGate
  | mul {m n : Unitary} (hm : Constructible m) (hn : Constructible n) : Constructible (m * n)
  | dagger {m : Unitary} (hm : Constructible m) : Constructible m.dagger
  | mulPhase {m : Unitary} (hm : Constructible m) (n : Nat) : Constructible (m.mulPhase n)

theorem isNormal_of_mk? {u t : ZOmega} {k : Int} {l : Nat} {m : Unitary}
    (h : mk? u t k l = .ok m) : m.IsNormal := by
  obtain ⟨_, hlen, rfl⟩ := mk?_eq_ok_iff.1 h
  exact ⟨isUnitary_iff.2 hlen, (reduce_spec _).2⟩

/-- Whatever is built up by the operations is in normal form. -/
theorem Constructible.isNormal {m : Unitary} (h : Constructible m) : m.IsNormal := by
  induction h with
  | checked h => exact isNormal_of_mk? h
  | word h =>
    obtain ⟨g, -, rfl⟩ := Word.ofWord_eq_ok_iff.1 h
    exact g.2
  | identity => exact (1 : NormalUnitary).2
  | hadamard => exact NormalUnitary.hadamard.2
  | tGate => exact NormalUnitary.tGate.2
  | sGate => exact NormalUnitary.sGate.2
  | mul _ _ hm hn =>
    let m : NormalUnitary := ⟨_, hm⟩
    let n : NormalUnitary := ⟨_, hn⟩
    exact (m * n).2
  | dagger _ hm =>
    let m : NormalUnitary := ⟨_, hm⟩
    exact (m⁻¹).2
  | mulPhase _ n hm =>
    let m : NormalUnitary := ⟨_, hm⟩
    have h := NormalUnitary.coe_mul_phase m n
    exact h ▸ (m * NormalUnitary.phase (Fin.ofNat 8 n)).2

theorem IsNormal.not_dvd {m : Unitary} (h : m.IsNormal) : ¬ (sqrt2 ∣ m.u ∧ sqrt2 ∣ m.t) := by
  rintro ⟨hu, ht⟩
  have hred := isReducible_iff_dvd.2 ⟨hu, ht, h.hasUnitLength.ne_zero⟩
  rw [h.2] at hred
  cases hred

/-- **A tuple is a normal form of its matrix.** Whatever two unitaries the operations give, they are the
same tuple just when they stand for the same matrix; and each has a phase below eight, an exponent that
is not negative, a first column of length one exactly, and nothing left to divide by `√2`. -/
theorem constructible_canonical {m n : Unitary} (hm : Constructible m) (hn : Constructible n) :
    (m = n ↔ m.matrix = n.matrix) ∧
      m.l.val < 8 ∧ 0 ≤ m.k ∧ m.u.norm + m.t.norm = (2 : ZSqrt2) ^ m.k.toNat ∧
      ¬ (sqrt2 ∣ m.u ∧ sqrt2 ∣ m.t) := by
  have hunit := hm.isNormal.hasUnitLength
  refine ⟨⟨congrArg matrix, eq_of_matrix_eq hm.isNormal hn.isNormal⟩, m.l.isLt, hunit.1, hunit.2,
    hm.isNormal.not_dvd⟩

/-- The product `H H` and the word `TTTTTTTT`, two ways to build the identity. -/
theorem constructible_canonical_hadamard_sq :
    ∃ m, ofWord "TTTTTTTT".toList = .ok m ∧
      (hadamard * hadamard = m ↔ (hadamard * hadamard).matrix = m.matrix) ∧
      0 ≤ (hadamard * hadamard).k ∧
      ¬ (sqrt2 ∣ (hadamard * hadamard).u ∧ sqrt2 ∣ (hadamard * hadamard).t) := by
  have hword : ofWord "TTTTTTTT".toList = .ok (NormalUnitary.tGate ^ 8 : NormalUnitary).1 :=
    Word.ofWord_eq_ok_iff.2 ⟨_, Word.value?_replicate (c := 'T') (a := .t) rfl 8, rfl⟩
  have h := constructible_canonical (.mul .hadamard .hadamard) (.word hword)
  exact ⟨_, hword, h.1, h.2.2.1, h.2.2.2.2⟩

end Unitary

/-! ## Words -/

namespace Word

def letters : List Char := ['H', 'T', 'S', 'W', 'I']

theorem ofLetter?_eq_none_iff {c : Char} : Gate.ofLetter? c = none ↔ c ∉ letters := by
  unfold Gate.ofLetter? letters
  split <;> simp_all

/-- A word has no value just when some letter is no gate. -/
theorem exists_value?_eq_error_iff {w : Word} :
    (∃ c, value? w = .error c) ↔ ∃ c ∈ w, c ∉ letters := by
  induction w with
  | nil => simp [value?]
  | cons c w ih =>
    rw [value?]
    cases hc : Gate.ofLetter? c with
    | none =>
      have hbad := ofLetter?_eq_none_iff.1 hc
      exact ⟨fun _ => ⟨c, List.mem_cons_self, hbad⟩, fun _ => ⟨c, rfl⟩⟩
    | some g =>
      have hgood : c ∈ letters := by
        by_contra hbad
        rw [ofLetter?_eq_none_iff.2 hbad] at hc
        cases hc
      have hmap : (∃ e, (value? w).map (g.value * ·) = .error e) ↔ ∃ e, value? w = .error e := by
        cases value? w <;> simp [Except.map]
      rw [hmap, ih]
      simp [hgood]

/-- The value of two words put together, when there is one. -/
theorem value?_append_eq_ok_iff {w v : Word} {g : NormalUnitary} :
    value? (w ++ v) = .ok g ↔ ∃ a b, value? w = .ok a ∧ value? v = .ok b ∧ g = a * b := by
  constructor
  · intro h
    have hall : ¬ ∃ c ∈ w ++ v, c ∉ letters := by
      rw [← exists_value?_eq_error_iff, h]
      rintro ⟨c, hc⟩
      cases hc
    have hok : ∀ u : Word, (∀ c ∈ u, c ∈ w ++ v) → ∃ a, value? u = .ok a := by
      intro u hsub
      cases hu : value? u with
      | ok a => exact ⟨a, rfl⟩
      | error e =>
        obtain ⟨c, hc, hbad⟩ := exists_value?_eq_error_iff.1 ⟨e, hu⟩
        exact absurd ⟨c, hsub c hc, hbad⟩ hall
    obtain ⟨a, ha⟩ := hok w fun c hc => List.mem_append_left v hc
    obtain ⟨b, hb⟩ := hok v fun c hc => List.mem_append_right w hc
    rw [value?_append ha hb] at h
    cases h
    exact ⟨a, b, ha, hb, rfl⟩
  · rintro ⟨a, b, ha, hb, rfl⟩
    exact value?_append ha hb

end Word

namespace Unitary

open Matrix

/-! ## The operations are exact -/

/-- The unitary of two words put together is the product of their unitaries. -/
theorem ofWord_append_eq_ok_iff {w v : Word} {m : Unitary} :
    ofWord (w ++ v) = .ok m ↔ ∃ a b, ofWord w = .ok a ∧ ofWord v = .ok b ∧ m = a * b := by
  constructor
  · intro h
    obtain ⟨g, hg, rfl⟩ := Word.ofWord_eq_ok_iff.1 h
    obtain ⟨a, b, ha, hb, rfl⟩ := Word.value?_append_eq_ok_iff.1 hg
    exact ⟨a.1, b.1, Word.ofWord_eq_ok_iff.2 ⟨a, ha, rfl⟩, Word.ofWord_eq_ok_iff.2 ⟨b, hb, rfl⟩, rfl⟩
  · rintro ⟨a, b, ha, hb, rfl⟩
    obtain ⟨a, hva, rfl⟩ := Word.ofWord_eq_ok_iff.1 ha
    obtain ⟨b, hvb, rfl⟩ := Word.ofWord_eq_ok_iff.1 hb
    exact Word.ofWord_eq_ok_iff.2 ⟨a * b, Word.value?_append hva hvb, rfl⟩

/-- A word is refused as a fault of its text, and that when a letter of it is no gate. -/
theorem exists_ofWord_eq_config_iff {w : Word} :
    (∃ text, ofWord w = .error (.config text)) ↔ ∃ c ∈ w, c ∉ Word.letters := by
  have happly := Word.applyWord_eq 1 w
  rw [NormalUnitary.coe_one] at happly
  rw [← Word.exists_value?_eq_error_iff, ofWord, happly]
  cases Word.value? w with
  | error c => simp [Except.map]
  | ok g => simp [Except.map]

/-- The laws of the group, for the tuples. -/
theorem group_laws (x y z : NormalUnitary) :
    x.1 * y.1 * z.1 = x.1 * (y.1 * z.1) ∧ identity * x.1 = x.1 ∧ x.1 * identity = x.1 ∧
      x.1 * x.1.dagger = identity ∧ x.1.dagger * x.1 = identity ∧
      (x.1 * y.1).dagger = y.1.dagger * x.1.dagger := by
  have hcoe : ∀ {p q : NormalUnitary}, p = q → p.1 = q.1 := congrArg Subtype.val
  exact ⟨hcoe (mul_assoc x y z), hcoe (one_mul x), hcoe (mul_one x), hcoe (mul_inv_cancel x),
    hcoe (inv_mul_cancel x), hcoe (mul_inv_rev x y)⟩

/-- **The operations on unitaries are those on matrices.** Products, adjoints and global phases of
unitaries in normal form stand for the products, adjoints and multiples of their matrices. Since a
matrix has one normal form, the laws of a group hold between the tuples themselves. The unitary of a
word is a homomorphism, defined just on the words over the five letters. -/
theorem operations_exact {a b c : Unitary} (ha : a.IsNormal) (hb : b.IsNormal) (hc : c.IsNormal) :
    ((a * b).matrix = a.matrix * b.matrix ∧ a.dagger.matrix = a.matrixᴴ ∧
      ∀ n : Nat, (a.mulPhase n).matrix = complexOmega ^ n • a.matrix) ∧
    (a * b * c = a * (b * c) ∧ identity * a = a ∧ a * identity = a ∧
      a * a.dagger = identity ∧ a.dagger * a = identity ∧
      (a * b).dagger = b.dagger * a.dagger) ∧
    (ofWord [] = .ok identity ∧
      (∀ (s₁ s₂ : Word) (m : Unitary), ofWord (s₁ ++ s₂) = .ok m ↔
        ∃ m₁ m₂, ofWord s₁ = .ok m₁ ∧ ofWord s₂ = .ok m₂ ∧ m = m₁ * m₂) ∧
      ∀ s : Word, (∃ text, ofWord s = .error (.config text)) ↔ ∃ c ∈ s, c ∉ Word.letters) := by
  exact ⟨⟨matrix_mul a b, matrix_dagger a, matrix_mulPhase a⟩, group_laws ⟨a, ha⟩ ⟨b, hb⟩ ⟨c, hc⟩, rfl,
    fun _ _ _ => ofWord_append_eq_ok_iff, fun _ => exists_ofWord_eq_config_iff⟩

/-- The gates `H`, `T` and the product `T H`. -/
theorem operations_exact_gates :
    (hadamard * tGate).matrix = hadamard.matrix * tGate.matrix ∧
      hadamard * tGate * (tGate * hadamard) = hadamard * (tGate * (tGate * hadamard)) ∧
      (hadamard * tGate).dagger = tGate.dagger * hadamard.dagger := by
  have h := operations_exact NormalUnitary.hadamard.2 NormalUnitary.tGate.2
    (NormalUnitary.tGate * NormalUnitary.hadamard).2
  exact ⟨h.1.1, h.2.1.1, h.2.1.2.2.2.2.2⟩

end Unitary

end CliffordT
