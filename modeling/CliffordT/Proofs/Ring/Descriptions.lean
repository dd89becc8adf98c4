/-
The two descriptions of `ℤ[ω]`.

The element `aω³ + bω² + cω + d` is `α + βi + wω` for just one choice of `α`, `β` and `w`: the parity of `c + a` is
`w`, and then the two coefficients that are halved for `α` and `β` are even, of either sign. The same holds of the
four coefficients that a division by `√2` halves. Both conjugations are automorphisms, and `u ū` is real in the
first description just as `|u|²` is in the second.
-/
import Mathlib.Algebra.Ring.Equiv
import CliffordT.Proofs.Ring.Denominator

namespace CliffordT.ZOmega

/-! ## The form `α + βi + wω` -/

theorem hasOmega_toInt (u : ZOmega) : u.hasOmega.toInt = (u.c + u.a) % 2 := by
  unfold hasOmega
  rcases Int.emod_two_eq_zero_or_one (u.c + u.a) with h | h
  · rw [h]
    rfl
  · rw [h]
    rfl

/-- The coefficients that are halved are even, so that a halving towards zero is the same. -/
theorem tdiv_halved (u : ZOmega) :
    (u.c - u.a - u.hasOmega.toInt).tdiv 2 = u.alpha.b ∧
      (u.c + u.a - u.hasOmega.toInt).tdiv 2 = u.beta.b := by
  have h := hasOmega_toInt u
  exact ⟨Int.tdiv_eq_ediv_of_dvd (by omega), Int.tdiv_eq_ediv_of_dvd (by omega)⟩

theorem ofAlphaBeta_alpha_beta (u : ZOmega) : ofAlphaBeta u.alpha u.beta u.hasOmega = u := by
  have h := hasOmega_toInt u
  unfold ofAlphaBeta alpha beta
  ext
  · dsimp only
    omega
  · rfl
  · dsimp only
    omega
  · rfl

theorem hasOmega_ofAlphaBeta (x y : ZSqrt2) (w : Bool) : (ofAlphaBeta x y w).hasOmega = w := by
  unfold ofAlphaBeta hasOmega
  have hsum : y.b + x.b + w.toInt + (y.b - x.b) = w.toInt + 2 * y.b := by ring
  dsimp only
  rw [hsum, Int.add_mul_emod_self_left]
  cases w with
  | false => rfl
  | true => rfl

theorem ofAlphaBeta_injective {x x' y y' : ZSqrt2} {w : Bool}
    (h : ofAlphaBeta x y w = ofAlphaBeta x' y' w) : x = x' ∧ y = y' := by
  have ha := congrArg ZOmega.a h
  have hb := congrArg ZOmega.b h
  have hc := congrArg ZOmega.c h
  have hd := congrArg ZOmega.d h
  simp only [ofAlphaBeta] at ha hb hc hd
  constructor
  · ext
    · exact hd
    · omega
  · ext
    · exact hb
    · omega

/-- The parts of an element that was put together from them. -/
theorem alpha_beta_ofAlphaBeta (x y : ZSqrt2) (w : Bool) :
    (ofAlphaBeta x y w).alpha = x ∧ (ofAlphaBeta x y w).beta = y := by
  have h := ofAlphaBeta_alpha_beta (ofAlphaBeta x y w)
  rw [hasOmega_ofAlphaBeta] at h
  exact ofAlphaBeta_injective h

/-- What is put together is the sum that the parts stand for. -/
theorem ofAlphaBeta_eq (x y : ZSqrt2) (w : Bool) :
    ofAlphaBeta x y w = ofZSqrt2 x + ofZSqrt2 y * i + if w then omegaPow 1 else 0 := by
  have homega : omegaPow 1 = ⟨0, 0, 1, 0⟩ := rfl
  cases w with
  | false =>
    ext <;> simp [ofAlphaBeta, ofZSqrt2, i] <;> ring
  | true =>
    ext <;> simp [ofAlphaBeta, ofZSqrt2, i, homega] <;> ring

/-! ## Conjugations -/

/-- A homomorphism that is its own inverse is an automorphism. -/
theorem exists_ringEquiv {f : ZOmega →+* ZOmega} (h : ∀ u, f (f u) = u) :
    ∃ e : ZOmega ≃+* ZOmega, ∀ u, e u = f u := by
  have hcomp : f.comp f = RingHom.id ZOmega := RingHom.ext h
  exact ⟨RingEquiv.ofRingHom f f hcomp hcomp, fun _ => rfl⟩

theorem dot_conj (u : ZOmega) : u.conj.dot = u.dot.conj := by
  ext <;> simp

theorem toZSqrt2_mul_conj (u : ZOmega) : (u * u.conj).toZSqrt2 = .ok u.norm := by
  rw [mul_conj, toZSqrt2_ofZSqrt2]

/-! ## Both descriptions -/

/-- **The two descriptions agree.** Taking an element apart and putting it together undo each other, and what is put
together is `α + βi + wω`; what is halved for `α` and `β` is even. Both conjugations are automorphisms and their own
inverses, and they commute. The product `u ū` is real and converts to `|u|²`, which is multiplicative and goes along
with the conjugation of `√2`. An element is reducible just when it is a multiple of `√2`, and is then reduced to the
other factor. -/
theorem descriptions_agree :
    (∀ u : ZOmega, ofAlphaBeta u.alpha u.beta u.hasOmega = u) ∧
    (∀ u : ZOmega, (u.c - u.a - u.hasOmega.toInt).tdiv 2 = u.alpha.b ∧
      (u.c + u.a - u.hasOmega.toInt).tdiv 2 = u.beta.b) ∧
    (∀ (x y : ZSqrt2) (w : Bool), (ofAlphaBeta x y w).alpha = x ∧ (ofAlphaBeta x y w).beta = y ∧
      (ofAlphaBeta x y w).hasOmega = w) ∧
    (∀ (x y : ZSqrt2) (w : Bool),
      ofAlphaBeta x y w = ofZSqrt2 x + ofZSqrt2 y * i + if w then omegaPow 1 else 0) ∧
    (∃ f : ZOmega ≃+* ZOmega, ∀ u, f u = u.conj) ∧
    (∃ f : ZOmega ≃+* ZOmega, ∀ u, f u = u.dot) ∧
    (∀ u : ZOmega, u.conj.conj = u ∧ u.dot.dot = u ∧ u.conj.dot = u.dot.conj) ∧
    (∀ u : ZOmega, (u * u.conj).toZSqrt2 = .ok u.norm) ∧
    (∀ u v : ZOmega, (u * v).norm = u.norm * v.norm ∧ u.dot.norm = u.norm.dot) ∧
    (∀ u : ZOmega, u.isReducible = true ↔ ∃ v, u = v * sqrt2) ∧
    ∀ v : ZOmega, (v * sqrt2).reduce = v := by
  refine ⟨ofAlphaBeta_alpha_beta, tdiv_halved, fun x y w => ?_, ofAlphaBeta_eq,
    exists_ringEquiv (f := conjHom) conj_conj, exists_ringEquiv (f := dotHom) dot_dot,
    fun u => ⟨conj_conj u, dot_dot u, dot_conj u⟩, toZSqrt2_mul_conj,
    fun u v => ⟨norm_mul u v, norm_dot u⟩, fun u => ?_, fun v => ?_⟩
  · obtain ⟨halpha, hbeta⟩ := alpha_beta_ofAlphaBeta x y w
    exact ⟨halpha, hbeta, hasOmega_ofAlphaBeta x y w⟩
  · simp only [isReducible_iff_dvd, dvd_def, mul_comm]
  · rw [mul_comm, reduce_sqrt2_mul]

end CliffordT.ZOmega
