/-
The upright problem.

For an accuracy of `d` digits the ellipse around the slice is bounded by powers of `10ᵈ`, and the working
precision leaves room for as many reductions of it as are tried. What `prepare` gives are therefore outlines
of the preimages of the slice and of the disk under the operator that it found and its conjugate, and their
bounding boxes enclose these up to a part that is far below the accuracy. It can only fail where the skew is
so large that the reductions are used up, which takes more than 27 digits.
-/
import CliffordT.Proofs.Approximation.Soundness
import CliffordT.Proofs.Grid.Optimize
import CliffordT.Proofs.Plane.BoundingBox

namespace CliffordT

open BinFloat

/-! ## Bounds of the exact ellipses -/

namespace Form

/-- An exponent, from the ratio of the diagonal entries. -/
theorem IsPos.abs_z_le {F : Form} (h : F.IsPos) {n : ℕ} (hq : F.q ≤ (lambdaReal ^ n) ^ 2 * F.p)
    (hp : F.p ≤ (lambdaReal ^ n) ^ 2 * F.q) : |F.z| ≤ n := by
  have hpow : 0 < lambdaReal ^ n := pow_pos lambdaReal_pos n
  have hratio : F.ratio ≤ lambdaReal ^ n :=
    Real.sqrt_le_iff.2 ⟨hpow.le, (div_le_iff₀ h.p_pos).2 hq⟩
  have hratio' : 1 ≤ lambdaReal ^ n * F.ratio := by
    refine (one_le_sq_iff₀ (mul_pos hpow h.ratio_pos).le).1 ?_
    rw [mul_pow, h.ratio_sq, mul_div_assoc', le_div_iff₀ h.p_pos, one_mul]
    exact hp
  rw [h.ratio_eq_rpow, ← Real.rpow_natCast] at hratio hratio'
  rw [← Real.rpow_add lambdaReal_pos] at hratio'
  have hup := (Real.rpow_le_rpow_left_iff one_lt_lambdaReal).1 hratio
  have hdown : (0 : ℝ) ≤ n + F.z := by
    rw [← Real.rpow_le_rpow_left_iff one_lt_lambdaReal, Real.rpow_zero]
    exact hratio'
  exact abs_le.2 ⟨by linarith, hup⟩

end Form

namespace ExactEllipse

variable {K Γ T ε : ℝ} {n : ℕ}

/-- The ellipse around the slice. -/
theorem bounded_slice (hε : 0 < ε) (hε1 : ε ≤ 1) (θ : ℝ) (hK : 12 / ε ^ 2 ≤ K) (hΓ : 3 / ε ^ 2 ≤ Γ)
    (hn : K ≤ (lambdaReal ^ n) ^ 2) : (slice ε θ).Bounded K Γ n := by
  obtain ⟨hQ, hQP, hratio⟩ := slice_eigenvalues hε hε1
  have hpos := isPos_slice hε hε1 θ
  have hΓ0 : 0 ≤ 3 / ε ^ 2 := by positivity
  refine ⟨hpos, ?_, ⟨1, le_rfl, abs_center_slice_le hε hε1 θ, fun x y => ?_⟩, (offset_slice_le hε hε1 θ).trans hΓ, ?_⟩
  · exact (size_sq_slice_le hε hε1 θ).trans (mul_le_mul_of_nonneg_right hK hpos.det_pos.le)
  · rw [div_one]
    refine (Form.eval_ofAxes_bounds θ x y hQP).2.trans (mul_le_mul_of_nonneg_right ?_ (by positivity))
    exact pow_le_pow_left₀ hΓ0 hΓ 2
  · -- both diagonal entries are between the eigenvalues
    obtain ⟨⟨hp, hp'⟩, hq, hq'⟩ := Form.ofAxes_bounds θ hQP
    have hPQ : (3 / ε ^ 2) ^ 2 ≤ (lambdaReal ^ n) ^ 2 * (3 / (ε ^ 2 * (4 - ε ^ 2))) :=
      (div_le_iff₀ hQ).1 (hratio.trans (hK.trans hn))
    have hscale {x : ℝ} (hx : 3 / (ε ^ 2 * (4 - ε ^ 2)) ≤ x) :
        (3 / ε ^ 2) ^ 2 ≤ (lambdaReal ^ n) ^ 2 * x :=
      hPQ.trans (mul_le_mul_of_nonneg_left hx (sq_nonneg _))
    exact hpos.abs_z_le (hq'.trans (hscale hp)) (hp'.trans (hscale hq))

/-- The disk. -/
theorem bounded_disk (hK : 1 ≤ K) (hΓ : 1 ≤ Γ) : disk.Bounded K Γ n := by
  refine ⟨isPos_disk, ?_, ⟨1, le_rfl, fun i => ?_, fun x y => ?_⟩, ?_, ?_⟩
  · rw [isPos_disk.size_sq']
    simpa [disk, Form.det] using hK
  · fin_cases i
    all_goals simp [disk]
  · have hone : disk.form.eval x y = 1 * (x ^ 2 + y ^ 2) := by
      simp only [disk, Form.eval]
      ring
    rw [hone, div_one]
    exact mul_le_mul_of_nonneg_right (one_le_pow₀ hΓ) (by positivity)
  · have hzero : disk.offset = 0 := by simp [offset, disk, Form.norm, Form.eval]
    rw [hzero]
    linarith
  · have hzero : disk.form.z = 0 := by simp [disk, Form.z]
    rw [hzero, abs_zero]
    exact Nat.cast_nonneg n

end ExactEllipse

namespace Approximation

open EllipsePair

/-! ## Room below the working precision -/

section Room

variable {d : ℕ}

/-- The accuracy, next to the power of ten that it is computed for. -/
theorem le_eps (d : ℕ) : 99 / 100 * (1 / 10 ^ d) ≤ (Constants.ofDigits d).eps.value := by
  have hu1 := Constants.roundoff_le_of_digits d
  have hinv : (0 : ℝ) < 1 / 10 ^ d := by positivity
  have hwithin := (abs_le.1 (Constants.eps_within d).sub_le).1
  rw [abs_of_pos hinv] at hwithin
  have hsmall : 2 * roundoff (20 * d + 128) * (1 / 10 ^ d) ≤ 1 / 100 * (1 / 10 ^ d) :=
    mul_le_mul_of_nonneg_right (by linarith) hinv.le
  linarith

theorem eps_pos (d : ℕ) : 0 < (Constants.ofDigits d).eps.value :=
  lt_of_lt_of_le (by positivity) (le_eps d)

/-- The ratio of the eigenvalues of the slice. -/
theorem twelve_div_sq_le (d : ℕ) : 12 / (Constants.ofDigits d).eps.value ^ 2 ≤ 13 * (10 ^ d) ^ 2 := by
  have hten : (0 : ℝ) < 10 ^ d := by positivity
  have hpos := eps_pos d
  have hone : 99 / 100 ≤ 10 ^ d * (Constants.ofDigits d).eps.value := by
    have := mul_le_mul_of_nonneg_left (le_eps d) hten.le
    field_simp at this
    linarith
  have hsq := pow_le_pow_left₀ (by norm_num) hone 2
  rw [mul_pow] at hsq
  rw [div_le_iff₀ (by positivity)]
  linarith

/-- Powers of ten, below powers of two and of `λ`. -/
theorem ten_pow_bounds (d : ℕ) : ((10 : ℝ) ^ d) ^ 4 ≤ 2 ^ (14 * d) ∧
    (10 : ℝ) ^ d ≤ 2 ^ (4 * d) ∧ ((10 : ℝ) ^ d) ^ 3 ≤ lambdaReal ^ (8 * d) ∧
    ((10 : ℝ) ^ d) ^ 2 ≤ lambdaReal ^ (6 * d) := by
  have hlam := lambdaReal_bounds.1.le
  have hbase {b : ℝ} {m n : ℕ} (h : (10 : ℝ) ^ m ≤ b ^ n) : ((10 : ℝ) ^ d) ^ m ≤ b ^ (n * d) := by
    rw [← pow_mul, mul_comm d, pow_mul, pow_mul]
    exact pow_le_pow_left₀ (by positivity) h d
  refine ⟨hbase (by norm_num), ?_, hbase ?_, hbase ?_⟩
  · have h := hbase (b := 2) (m := 1) (n := 4) (by norm_num)
    rwa [pow_one] at h
  · exact le_trans (by norm_num) (pow_le_pow_left₀ (by norm_num) hlam 8)
  · exact le_trans (by norm_num) (pow_le_pow_left₀ (by norm_num) hlam 6)

/-- The exponents of the slice. -/
theorem slice_exponent_le (d : ℕ) : 13 * ((10 : ℝ) ^ d) ^ 2 ≤ (lambdaReal ^ (3 * d + 2)) ^ 2 := by
  have hlam : (13 : ℝ) ≤ lambdaReal ^ 4 :=
    le_trans (by norm_num) (pow_le_pow_left₀ (by norm_num) lambdaReal_bounds.1.le 4)
  have hpow : (lambdaReal ^ (3 * d + 2)) ^ 2 = lambdaReal ^ 4 * lambdaReal ^ (6 * d) := by
    rw [← pow_mul, ← pow_add]
    congr 1
    ring
  rw [hpow]
  exact mul_le_mul hlam (ten_pow_bounds d).2.2.2 (by positivity) (by linarith)

/-- **The working precision affords the reductions** that are tried. -/
theorem affords (hd : 0 < d) (hprec : 20 * d + 128 < 2 ^ 32) :
    Affords (Constants.ofDigits d) (Constants.ofDigits d).tol.value maxReductions (51 * roundoff (20 * d + 128))
      (6000000 * (d * roundoff (20 * d + 128))) (8 * 10 ^ d) (3 * d + 2 : ℕ) (8 * d + 12 : ℕ) := by
  have hu := roundoff_pos (20 * d + 128)
  have hd1 : (1 : ℝ) ≤ d := by exact_mod_cast hd
  have hdu : roundoff (20 * d + 128) ≤ d * roundoff (20 * d + 128) := le_mul_of_one_le_left hu.le hd1
  have hmax : (maxReductions : ℝ) = 1000 := by norm_num [maxReductions]
  have hself : (d : ℝ) ≤ 2 ^ d := by exact_mod_cast Nat.lt_two_pow_self.le
  have h32 : (20 : ℝ) * d + 128 < 2 ^ 32 := by exact_mod_cast hprec
  obtain ⟨-, hten, hcube, -⟩ := ten_pow_bounds d
  have hsplit (n : ℕ) : (2 : ℝ) ^ (d + n) = 2 ^ n * 2 ^ d := by rw [pow_add, mul_comm]
  refine ⟨by positivity, Nat.cast_nonneg _, Nat.cast_nonneg _, ?_, ?_, ?_, ?_⟩
  · show 250 * (((3 * d + 2 : ℕ) : ℝ) + maxReductions * ((8 * d + 12 : ℕ) + 2) + 2 + 1)
      * roundoff (20 * d + 128) ≤ _
    rw [hmax]
    push_cast
    linarith
  · refine bears_of_le (w := d + 35) (h := 4 * d + 3) hd ?_ (by positivity) ?_ (by positivity) (by omega)
    · have hpow := mul_le_mul_of_nonneg_right hself hu.le
      rw [hmax, hsplit]
      linarith
    · rw [pow_add]
      linarith
  · refine inRange_of_le (w := d + 16) hd (by positivity) ?_ ?_ (by omega)
    · rw [hmax]
      push_cast
      linarith
    · rw [hmax, hsplit]
      push_cast
      linarith
  · rw [Real.rpow_natCast, pow_add, mul_pow]
    have hlam : (35840 : ℝ) ≤ lambdaReal ^ 12 :=
      le_trans (by norm_num) (pow_le_pow_left₀ (by norm_num) lambdaReal_bounds.1.le 12)
    have hmul := mul_le_mul hcube hlam (by norm_num) (by have := lambdaReal_pos; positivity)
    linarith

/-- Twice the digits leave most of the working precision. -/
theorem roundoff_mul_sq_le_pow (d : ℕ) :
    roundoff (20 * d + 128) * (10 ^ d) ^ 2 ≤ 1 / 2 ^ (12 * d + 128) := by
  have hsq : ((10 : ℝ) ^ d) ^ 2 ≤ 2 ^ (8 * d) := by
    have h := pow_le_pow_left₀ (by positivity) (ten_pow_bounds d).2.1 2
    rwa [← pow_mul 2, mul_right_comm] at h
  rw [roundoff_eq, one_div_mul_eq_div, div_le_div_iff₀ (by positivity) (by positivity), one_mul]
  refine (mul_le_mul_of_nonneg_right hsq (by positivity)).trans ?_
  rw [← pow_add]
  exact pow_le_pow_right₀ (by norm_num) (by omega)

theorem roundoff_mul_sq_le (d : ℕ) : roundoff (20 * d + 128) * (10 ^ d) ^ 2 ≤ 1 / 2 ^ 128 :=
  (roundoff_mul_sq_le_pow d).trans (one_div_le_one_div_of_le (by positivity)
    (pow_le_pow_right₀ (by norm_num) (by omega)))

noncomputable def boxError (d : ℕ) : ℝ := 2 ^ 55 * (d * roundoff (20 * d + 128) * (10 ^ d) ^ 3)

/-- Boxes that reach out to `2^(5d + 32)` are off by much less than the accuracy. -/
theorem boxError_mul_le (d : ℕ) : boxError d * 2 ^ (5 * d + 32) ≤ 1 / 2 ^ 41 * (1 / 10 ^ d) := by
  have hself : (d : ℝ) ≤ 2 ^ d := by exact_mod_cast Nat.lt_two_pow_self.le
  have hfour : (d : ℝ) * (10 ^ d) ^ 4 ≤ 2 ^ (15 * d) := by
    have hmul := mul_le_mul hself (ten_pow_bounds d).1 (by positivity) (by positivity)
    rwa [← pow_add, show d + 14 * d = 15 * d by ring] at hmul
  have hpow : (2 : ℝ) ^ (20 * d + 128) = 2 ^ 96 * 2 ^ (15 * d) * 2 ^ (5 * d + 32) := by
    rw [← pow_add, ← pow_add]
    congr 1
    ring
  have hgoal : boxError d * 2 ^ (5 * d + 32)
      = 2 ^ 55 / 2 ^ 96 * (d * (10 ^ d) ^ 4 / 2 ^ (15 * d)) * (1 / 10 ^ d) := by
    rw [boxError, roundoff_eq, hpow]
    field_simp
  rw [hgoal]
  refine mul_le_mul_of_nonneg_right ?_ (by positivity)
  have hquot : (d : ℝ) * (10 ^ d) ^ 4 / 2 ^ (15 * d) ≤ 1 := div_le_one_of_le₀ hfour (by positivity)
  have hscaled := mul_le_mul_of_nonneg_left hquot (by positivity : (0 : ℝ) ≤ 2 ^ 55 / 2 ^ 96)
  refine hscaled.trans (le_of_eq ?_)
  norm_num

theorem roundoff_le_boxError (hd : 0 < d) : 2 ^ 55 * roundoff (20 * d + 128) ≤ boxError d := by
  have hu := roundoff_pos (20 * d + 128)
  have hd1 : (1 : ℝ) ≤ d := by exact_mod_cast hd
  have hten : (1 : ℝ) ≤ (10 ^ d) ^ 3 := one_le_pow₀ (one_le_pow₀ (by norm_num))
  unfold boxError
  refine mul_le_mul_of_nonneg_left ?_ (by positivity)
  exact (le_mul_of_one_le_left hu.le hd1).trans (le_mul_of_one_le_right (by positivity) hten)

/-- The errors that an optimization adds up to, next to the size of the forms. -/
theorem optimized_error_le {ω : ℝ} (hd : 0 < d) (hω0 : 51 * roundoff (20 * d + 128) ≤ ω)
    (hω : ω ≤ 2 ^ 35 * (d * roundoff (20 * d + 128))) :
    2 ^ 20 * (ω * (10 ^ d) ^ 3) ≤ boxError d ∧ ω * (10 ^ d) ^ 3 ≤ 1 / 2 ^ 61 ∧
      ω * (10 ^ d) ^ 2 ≤ ω * (10 ^ d) ^ 3 ∧ ω ≤ ω * (10 ^ d) ^ 3 ∧
      51 * (roundoff (20 * d + 128) * (10 ^ d) ^ 2) ≤ ω * (10 ^ d) ^ 3 := by
  have hu := roundoff_pos (20 * d + 128)
  have hten : (1 : ℝ) ≤ 10 ^ d := one_le_pow₀ (by norm_num)
  have hω1 : 0 ≤ ω := by linarith
  -- everything is a multiple of `ω` times the cube
  have hbox : 2 ^ 20 * (ω * (10 ^ d) ^ 3) ≤ boxError d := by
    have hmul := mul_le_mul_of_nonneg_right hω (by positivity : (0 : ℝ) ≤ (10 ^ d) ^ 3)
    unfold boxError
    linarith
  have hsmall : boxError d ≤ 1 / 2 ^ 41 := by
    have hpow : (1 : ℝ) ≤ 2 ^ (5 * d + 32) := one_le_pow₀ (by norm_num)
    have hinv : (1 : ℝ) / 10 ^ d ≤ 1 := (div_le_one (by positivity)).2 hten
    have hpos : 0 ≤ boxError d := by
      unfold boxError
      positivity
    have hle := (le_mul_of_one_le_right hpos hpow).trans (boxError_mul_le d)
    linarith
  have hsq : ω * (10 ^ d) ^ 2 ≤ ω * (10 ^ d) ^ 3 :=
    mul_le_mul_of_nonneg_left (pow_le_pow_right₀ hten (by norm_num)) hω1
  refine ⟨hbox, by linarith, hsq, le_mul_of_one_le_right hω1 (one_le_pow₀ hten), ?_⟩
  have := mul_le_mul_of_nonneg_right hω0 (by positivity : (0 : ℝ) ≤ (10 ^ d) ^ 2)
  linarith

/-- **The bounding box of an outline** that an optimization leaves. -/
theorem exists_enclosing {E : Ellipse} {X : ExactEllipse} {ω : ℝ} (hd : 0 < d)
    (hω0 : 51 * roundoff (20 * d + 128) ≤ ω) (hω : ω ≤ 2 ^ 35 * (d * roundoff (20 * d + 128)))
    (h : E.Outlines (20 * d + 128) (217 * ω * (8 * 10 ^ d) ^ 2) (27 * ω * (8 * 10 ^ d))
      (102 / 100 * (8 * 10 ^ d) ^ 2) (702 * ω * (8 * 10 ^ d) * (4 * (10 ^ d) ^ 2)) X) :
    ∃ r, E.boundingBox = .ok r ∧ r.Encloses (20 * d + 128) (boxError d) X := by
  have hu := roundoff_pos (20 * d + 128)
  have hω1 : 0 ≤ ω := by linarith
  obtain ⟨hbox, hsmall, hsq, hlin, husq⟩ := optimized_error_le hd hω0 hω
  have hα : (27 * ω * (8 * 10 ^ d)) ^ 2 ≤ 1 / 2 ^ 30 * (ω * (10 ^ d) ^ 3) := by
    have hW0 : 0 ≤ ω * (10 ^ d) ^ 2 := by positivity
    have := mul_le_mul_of_nonneg_left (hlin.trans hsmall) hW0
    have hsplit : (27 * ω * (8 * 10 ^ d)) ^ 2 = 46656 * (ω * (10 ^ d) ^ 2 * ω) := by ring
    rw [hsplit]
    linarith
  have hα1 : 27 * ω * (8 * 10 ^ d) ≤ 1 := by
    have hten : (10 : ℝ) ^ d ≤ (10 ^ d) ^ 3 := le_self_pow₀ (one_le_pow₀ (by norm_num)) (by norm_num)
    linarith [mul_le_mul_of_nonneg_left hten hω1]
  exact h.exists_boundingBox (c := Constants.ofDigits d) (by show 64 ≤ 20 * d + 128; omega) hα1
    (by
      show _ + 160 * roundoff (20 * d + 128) * _ ≤ _
      linarith) (by
      show _ + 640 * roundoff (20 * d + 128) * _ + 35 * roundoff (20 * d + 128) + _ ≤ _
      linarith)

end Room

/-! ## What is prepared -/

section Prepare

variable {d : ℕ} {theta : BinFloat}

section Run

variable {c : Constants} {A B : Ellipse} {sin cos : BinFloat}
  (hA : Ellipse.epsilonRegion theta c.eps c = .ok A) (hB : Ellipse.unitDisk c = .ok B)
  (htrig : theta.sinCos = .ok (sin, cos))
include hA hB htrig

/-- What is prepared, when the two ellipses can be computed. -/
theorem prepare_of_run : prepare theta c = ((optimize c).run ⟨A, B⟩).1.map fun op =>
    ({ theta, cos, sin, threshold := c.one - (c.eps * c.eps).scaleTwo (-1), op },
      ((optimize c).run ⟨A, B⟩).2) := by
  unfold prepare
  rw [hA, hB, htrig]
  change (((optimize c).run ⟨A, B⟩).1 >>= fun op => pure _) = _
  cases ((optimize c).run ⟨A, B⟩).1 with
  | error e => rfl
  | ok op => rfl

end Run

/-- The rectangles enclose what an operator and its conjugate take into the slice in direction `θ` and into
the disk. -/
structure IsUpright (d : ℕ) (θ : ℝ) (g : GridOperator) (a b : Rectangle) : Prop where
  special : g.IsSpecialGrid
  fst : a.Encloses (20 * d + 128) (boxError d)
    ((ExactEllipse.slice (Constants.ofDigits d).eps.value θ).pull g.real)
  snd : ∃ σ : ℝ, σ * σ = 1 ∧
    b.Encloses (20 * d + 128) (boxError d) (ExactEllipse.disk.pull (σ • g.dot.real))

/-- The exact ellipses of the problem are bounded. -/
theorem bounded_problem (hε1 : (Constants.ofDigits d).eps.value ≤ 1) (θ : ℝ) :
    (ExactEllipse.slice (Constants.ofDigits d).eps.value θ).Bounded (13 * (10 ^ d) ^ 2) (4 * (10 ^ d) ^ 2)
        (3 * d + 2 : ℕ) ∧
      ExactEllipse.disk.Bounded (13 * (10 ^ d) ^ 2) (4 * (10 ^ d) ^ 2) (3 * d + 2 : ℕ) := by
  have hK := twelve_div_sq_le d
  have hten2 : (1 : ℝ) ≤ (10 ^ d) ^ 2 := one_le_pow₀ (one_le_pow₀ (by norm_num))
  have hthree : 3 / (Constants.ofDigits d).eps.value ^ 2
      = 12 / (Constants.ofDigits d).eps.value ^ 2 / 4 := by ring
  refine ⟨ExactEllipse.bounded_slice (eps_pos d) hε1 θ hK ?_ (slice_exponent_le d),
    ExactEllipse.bounded_disk (by linarith) (by linarith)⟩
  rw [hthree]
  linarith

/-- The computed ellipses of the problem. -/
theorem exists_rendered (hc : (Constants.ofDigits d).AccurateUnits) (hprec : 20 * d + 128 ≤ theta.prec)
    (hrange : theta.InRange) :
    ∃ A B, Ellipse.epsilonRegion theta (Constants.ofDigits d).eps (Constants.ofDigits d) = .ok A ∧
      Ellipse.unitDisk (Constants.ofDigits d) = .ok B ∧
      A.Renders (20 * d + 128) (10000 * roundoff (20 * d + 128) * (13 * (10 ^ d) ^ 2))
        (600 * roundoff (20 * d + 128)) (.slice (Constants.ofDigits d).eps.value theta.value) ∧
      B.Renders (20 * d + 128) (10000 * roundoff (20 * d + 128) * (13 * (10 ^ d) ^ 2))
        (600 * roundoff (20 * d + 128)) .disk := by
  have hu := roundoff_pos (20 * d + 128)
  have hp : 64 ≤ (Constants.ofDigits d).prec := by
    show 64 ≤ 20 * d + 128
    omega
  have hε := eps_pos d
  obtain ⟨A, hA, hrenderA⟩ := Ellipse.exists_epsilonRegion (c := Constants.ofDigits d) hp hprec hrange
    hc.prec_eps.ge rfl hε hc.eps_le_one
  obtain ⟨B, hB, hrenderB⟩ := Ellipse.exists_unitDisk (c := Constants.ofDigits d) hp
    (by
      show 20 * d + 128 + 32 < 2 ^ 32
      unfold BinFloat.InRange at hrange
      omega)
  refine ⟨A, B, hA, hB, hrenderA.mono (ExactEllipse.isPos_slice hε hc.eps_le_one _) ?_ le_rfl,
    hrenderB.mono ExactEllipse.isPos_disk ?_ (by positivity)⟩
  · calc 120000 * roundoff (20 * d + 128) / (Constants.ofDigits d).eps.value ^ 2
        = 10000 * roundoff (20 * d + 128) * (12 / (Constants.ofDigits d).eps.value ^ 2) := by ring
      _ ≤ 10000 * roundoff (20 * d + 128) * (13 * (10 ^ d) ^ 2) :=
          mul_le_mul_of_nonneg_left (twelve_div_sq_le d) (by positivity)
  · show 120000 * roundoff (20 * d + 128) ≤ _
    have hten2 : (1 : ℝ) ≤ (10 ^ d) ^ 2 := one_le_pow₀ (one_le_pow₀ (by norm_num))
    linarith [mul_le_mul_of_nonneg_left hten2 hu.le]

/-- **Preparation** leaves outlines of the preimages of the slice and the disk, with errors that stay far below
the accuracy; or the skew of the slice is too much for the reductions that are tried. -/
theorem prepare_optimized (hd : 0 < d) (hprec : 20 * d + 128 ≤ theta.prec) (hrange : theta.InRange) :
    (∃ target pair ω σ, prepare theta (Constants.ofDigits d) = .ok (target, pair) ∧
      51 * roundoff (20 * d + 128) ≤ ω ∧ ω ≤ 2 ^ 35 * (d * roundoff (20 * d + 128)) ∧
      Optimized (20 * d + 128) ω (8 * 10 ^ d) (4 * (10 ^ d) ^ 2)
        (ExactEllipse.slice (Constants.ofDigits d).eps.value theta.value) ExactEllipse.disk σ target.op pair) ∨
    149 / 10 ≤ (88 / 100 : ℝ) ^ maxReductions * (8 * 10 ^ d) ^ 2 ∧
      ∃ e, prepare theta (Constants.ofDigits d) = .error e := by
  have hp32 : 20 * d + 128 < 2 ^ 32 := by
    unfold BinFloat.InRange at hrange
    omega
  obtain ⟨sin, cos, htrig, -⟩ := BinFloat.sinCos_spec (by omega : 64 ≤ theta.prec) hrange
  have hc := Constants.ofDigits_accurateUnits hd hp32
  have hu := roundoff_pos (20 * d + 128)
  have hten : (1 : ℝ) ≤ 10 ^ d := one_le_pow₀ (by norm_num)
  have hten2 : (1 : ℝ) ≤ (10 ^ d) ^ 2 := one_le_pow₀ hten
  obtain ⟨hslice, hdisk⟩ := bounded_problem hc.eps_le_one theta.value
  obtain ⟨A, B, hA, hB, hrenderA, hrenderB⟩ := exists_rendered hc hprec hrange
  have hsmall : 31000 * roundoff (20 * d + 128) * (13 * (10 ^ d) ^ 2) ≤ 1 / 1000 := by
    linarith [roundoff_mul_sq_le d]
  have hmax : (maxReductions : ℝ) = 1000 := by norm_num [maxReductions]
  rcases optimize_cases hc hslice hdisk hrenderA hrenderB (H := 8 * 10 ^ d)
    (by
      rw [mul_pow]
      linarith) (by linarith) hsmall (affords hd hp32) rfl with
    ⟨σ, g, s, hrun, hopt⟩ | ⟨⟨e, s, hfail⟩, hwhy⟩
  · left
    have hω : 51 * roundoff (20 * d + 128) + maxReductions * (5 * (6000000 * (d * roundoff (20 * d + 128))))
        ≤ 2 ^ 35 * (d * roundoff (20 * d + 128)) := by
      have hd1 : (1 : ℝ) ≤ d := by exact_mod_cast hd
      have := le_mul_of_one_le_left hu.le hd1
      rw [hmax]
      linarith
    have hω0 : 51 * roundoff (20 * d + 128) ≤ 51 * roundoff (20 * d + 128)
        + maxReductions * (5 * (6000000 * (d * roundoff (20 * d + 128)))) :=
      le_add_of_nonneg_right (by positivity)
    have hrun' : (optimize (Constants.ofDigits d)).run ⟨A, B⟩ = (.ok g, s) := hrun
    have hprepare := prepare_of_run hA hB htrig
    rw [hrun'] at hprepare
    exact ⟨_, s, _, σ, hprepare, hω0, hω, hopt⟩
  · have hprepare := prepare_of_run hA hB htrig
    rw [hfail] at hprepare
    exact .inr ⟨hwhy.resolve_left (lt_irrefl _), e, hprepare⟩

/-- **Preparation** makes the problem upright, and has bounding boxes for it; or the skew of the slice is too
much for the reductions that are tried. -/
theorem prepare_cases (hd : 0 < d) (hprec : 20 * d + 128 ≤ theta.prec) (hrange : theta.InRange) :
    (∃ target pair a b, prepare theta (Constants.ofDigits d) = .ok (target, pair) ∧
      pair.a.boundingBox = .ok a ∧ pair.b.boundingBox = .ok b ∧
      IsUpright d theta.value target.op a b) ∨
    149 / 10 ≤ (88 / 100 : ℝ) ^ maxReductions * (8 * 10 ^ d) ^ 2 ∧
      ∃ e, prepare theta (Constants.ofDigits d) = .error e := by
  refine (prepare_optimized hd hprec hrange).imp_left ?_
  rintro ⟨target, pair, ω, σ, hprepare, hω0, hω, hopt⟩
  obtain ⟨a, ha, hencA⟩ := exists_enclosing hd hω0 hω hopt.fst
  obtain ⟨b, hb, hencB⟩ := exists_enclosing hd hω0 hω hopt.snd
  exact ⟨target, pair, a, b, hprepare, ha, hb, hopt.special, hencA, σ, hopt.sign, hencB⟩

/-- What is left of the skew after all reductions, for up to 27 digits. -/
theorem skew_after_reductions_lt (hd : d ≤ 27) :
    (88 / 100 : ℝ) ^ maxReductions * (8 * 10 ^ d) ^ 2 < 149 / 10 := by
  have hhundred : (88 / 100 : ℝ) ^ 100 ≤ 3 / 10 ^ 6 := by norm_num
  have hall : (88 / 100 : ℝ) ^ maxReductions ≤ (3 / 10 ^ 6) ^ 10 := by
    have h := pow_le_pow_left₀ (by norm_num) hhundred 10
    rwa [← pow_mul] at h
  have hten : (10 : ℝ) ^ d ≤ 10 ^ 27 := pow_le_pow_right₀ (by norm_num) hd
  have hsq := pow_le_pow_left₀ (by positivity) (mul_le_mul_of_nonneg_left hten (by norm_num : (0 : ℝ) ≤ 8)) 2
  refine (mul_le_mul hall hsq (by positivity) (by positivity)).trans_lt ?_
  norm_num

/-- **Preparation succeeds** for up to 27 digits. -/
theorem exists_prepare (hd : 0 < d) (hd27 : d ≤ 27) (hprec : 20 * d + 128 ≤ theta.prec)
    (hrange : theta.InRange) :
    ∃ target pair a b, prepare theta (Constants.ofDigits d) = .ok (target, pair) ∧
      pair.a.boundingBox = .ok a ∧ pair.b.boundingBox = .ok b ∧
      IsUpright d theta.value target.op a b :=
  (prepare_cases hd hprec hrange).resolve_right fun h => not_le.2 (skew_after_reductions_lt hd27) h.1

end Prepare

end Approximation

end CliffordT
