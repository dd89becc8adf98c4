/-
Square roots modulo an odd number.

Whatever `sqrtMod` gives for an odd modulus is a square root, also when the modulus is no prime: the
invariant `r² = a t` of the corrections holds in every ring `ℤ/p`, and a root is given out only for
`t = 1`. That the corrections end does not need a prime either, for each of them lowers the bound
on the number of squarings. `Corrects` describes them without the guard that the definition has, and
with the loop of squarings as it runs, which would not end for a bound of zero.
-/
import Mathlib.Data.ZMod.Basic
import Mathlib.Tactic.LinearCombination
import CliffordT.Prime.Root
import CliffordT.Proofs.Loop
import CliffordT.Proofs.Numeral
import CliffordT.Proofs.Prime.Factorization
import CliffordT.Proofs.Random.Ensures

namespace CliffordT

/-! ## Powers in `ℤ/p` -/

theorem powMod_lt (b e : Nat) {p : Nat} (hp : 0 < p) : powMod b e p < p := by
  rw [powMod_eq]
  exact Nat.mod_lt _ hp

theorem cast_powMod (b e p : Nat) : (powMod b e p : ZMod p) = (b : ZMod p) ^ e := by
  rw [powMod_eq, ZMod.natCast_mod]
  exact Nat.cast_pow b e

/-- A residue is one as a number just when it is one in `ℤ/p`. -/
theorem cast_eq_one_iff {p t : Nat} (hp : 1 < p) (ht : t < p) : (t : ZMod p) = 1 ↔ t = 1 := by
  have h := ZMod.natCast_eq_natCast_iff' t 1 p
  rwa [Nat.cast_one, Nat.mod_eq_of_lt ht, Nat.mod_eq_of_lt hp] at h

/-! ## The corrections -/

/-- One squaring: leaves with the count when `t` is one, and with nothing when the count reaches the
bound. -/
def squareStep (p m : Nat) : Nat × Nat → (Nat × Nat) ⊕ Option Nat
  | (i, t) =>
    if t = 1 then .inr (some i)
    else if i + 1 = m then .inr none
    else .inl (i + 1, t * t % p)

/-- The squarings end for a bound that is not yet reached. -/
theorem squareStep_ends (p m k i t : Nat) (h : m = i + (k + 1)) :
    LoopEnds (squareStep p m) (i, t) ((squaringsToOne p (k + 1) t).map (· + i)) := by
  induction k generalizing i t with
  | zero =>
    unfold squaringsToOne squaringsToOne
    by_cases ht : t = 1
    · rw [if_pos ht]
      exact .done (by simp [squareStep, ht])
    · rw [if_neg ht]
      exact .done (by simp [squareStep, ht, h])
  | succ k ih =>
    unfold squaringsToOne
    by_cases ht : t = 1
    · rw [if_pos ht]
      exact .done (by simp [squareStep, ht])
    · rw [if_neg ht, Option.map_map]
      have hstep : squareStep p m (i, t) = .inl (i + 1, t * t % p) := by
        have hne : ¬ i + 1 = m := by omega
        simp [squareStep, ht, hne]
      refine .next hstep ?_
      have hadd : ((fun j => j + i) ∘ fun j => j + 1) = fun j => j + (i + 1) := by
        funext j
        simp only [Function.comp_apply]
        omega
      rw [hadd]
      exact ih (i + 1) _ (by omega)

/-- The count of the squarings is below the bound, and is zero only for one. -/
theorem squaringsToOne_spec {p : Nat} : ∀ {bound t i : Nat}, squaringsToOne p bound t = some i →
    i < bound ∧ (t ≠ 1 → 0 < i)
  | 0, t, i, h => by
    simp [squaringsToOne] at h
  | bound + 1, t, i, h => by
    unfold squaringsToOne at h
    split at h
    · rename_i ht
      cases h
      exact ⟨by omega, fun hne => absurd ht hne⟩
    · obtain ⟨j, hj, rfl⟩ := Option.map_eq_some_iff.1 h
      have := (squaringsToOne_spec hj).1
      omega

/-- The run of the corrections, without a guard. -/
inductive Corrects (p : Nat) : Nat → Nat → Nat → Nat → Option Nat → Prop
  | done {m c r : Nat} : Corrects p m c 1 r (some r)
  | stuck {m c t r : Nat} (ht : t ≠ 1) (hi : LoopEnds (squareStep p m) (0, t) none) :
      Corrects p m c t r none
  | next {m c t r i b : Nat} {x : Option Nat} (ht : t ≠ 1)
      (hi : LoopEnds (squareStep p m) (0, t) (some i)) (hb : b = powMod c (1 <<< (m - i - 1)) p)
      (tail : Corrects p i (b * b % p) (t * (b * b % p) % p) (r * b % p) x) : Corrects p m c t r x

/-- The corrections end, whatever the modulus is. -/
theorem corrects_correctRoot (p : Nat) {m : Nat} (hm : 0 < m) (c t r : Nat) :
    Corrects p m c t r (correctRoot p m c t r) := by
  fun_induction correctRoot p m c t r with
  | case1 m c r => exact .done
  | case2 m c t r ht hi =>
    have hends := squareStep_ends p m (m - 1) 0 t (by omega)
    rw [Nat.sub_add_cancel hm, hi] at hends
    exact .stuck ht hends
  | case3 m c t r ht i hi hlt b c' ih =>
    have hends := squareStep_ends p m (m - 1) 0 t (by omega)
    rw [Nat.sub_add_cancel hm, hi] at hends
    exact .next ht hends rfl (ih ((squaringsToOne_spec hi).2 ht))
  | case4 m c t r ht i hi hlt => exact absurd (squaringsToOne_spec hi).1 hlt

/-- The corrections keep `r² = a t`, so that what they end with is a root of `a`. -/
theorem correctRoot_sound {p m c t r x : Nat} {a : ZMod p} (h : correctRoot p m c t r = some x)
    (hinv : (r : ZMod p) * r = a * t) : (x : ZMod p) * x = a := by
  fun_induction correctRoot p m c t r with
  | case1 m c r =>
    cases h
    simpa using hinv
  | case2 => cases h
  | case3 m c t r ht i hi hlt b c' ih =>
    refine ih h ?_
    simp only [c', ZMod.natCast_mod, Nat.cast_mul]
    linear_combination (b : ZMod p) * b * hinv
  | case4 => cases h

/-- The corrections give a residue. -/
theorem correctRoot_lt {p m c t r x : Nat} (h : correctRoot p m c t r = some x) (hr : r < p) :
    x < p := by
  fun_induction correctRoot p m c t r with
  | case1 m c r =>
    cases h
    exact hr
  | case2 => cases h
  | case3 m c t r ht i hi hlt b c' ih => exact ih h (Nat.mod_lt _ (by omega))
  | case4 => cases h

/-! ## Square roots -/

theorem toNat_emod_lt (a : Int) {p : Nat} (hp : 0 < p) : (a % p).toNat < p := by
  have hlt := Int.emod_lt_of_pos a (b := p) (by omega)
  omega

theorem cast_toNat_emod (a : Int) {p : Nat} (hp : 0 < p) : ((a % p).toNat : ZMod p) = a := by
  have h0 : 0 ≤ a % p := Int.emod_nonneg a (by omega)
  calc ((a % p).toNat : ZMod p) = (((a % p).toNat : Int) : ZMod p) := (Int.cast_natCast _).symm
    _ = ((a % p : Int) : ZMod p) := by rw [Int.toNat_of_nonneg h0]
    _ = a := ZMod.intCast_mod a p

/-- What is given as a root modulo an odd number is one, and a residue. -/
theorem sqrtMod_spec (a : Int) {p : Nat} (hp : 1 < p) (hodd : p % 2 = 1) (attempts : Nat) :
    (sqrtMod a p attempts).Ensures fun r => ∀ x, r = some x → x < p ∧ (x : ZMod p) * x = a := by
  unfold sqrtMod
  have hp0 : 0 < p := by omega
  have hcast := cast_toNat_emod a hp0
  have hlt := toNat_emod_lt a hp0
  generalize (a % p).toNat = a' at hcast hlt ⊢
  dsimp only
  split
  · rename_i h
    have ha : a' = 0 := by omega
    refine .pure fun x hx => ?_
    cases hx
    refine ⟨hlt, ?_⟩
    rw [← hcast, ha]
    simp
  split
  · exact .pure fun x hx => by cases hx
  rename_i hhalf
  have hone : (a' : ZMod p) ^ ((p - 1) / 2) = 1 := by
    rw [← cast_powMod, not_not.1 hhalf, Nat.cast_one]
  split
  · -- `p = 4k + 3`: the power of `a` to `k + 1`
    rename_i h3
    refine .pure fun x hx => ?_
    cases hx
    refine ⟨powMod_lt _ _ hp0, ?_⟩
    have he : (p + 1) / 4 + (p + 1) / 4 = (p - 1) / 2 + 1 := by omega
    rw [cast_powMod, ← pow_add, he, pow_succ, hone, one_mul, hcast]
  · have hq := not_dvd_removeFactor (q := 2) (by decide) (p - 1) (by omega)
    generalize removeFactor 2 (p - 1) = sq at hq ⊢
    obtain ⟨s, q⟩ := sq
    refine .bind (.trivial _) fun z _ => ?_
    cases z with
    | none => exact .pure fun x hx => by cases hx
    | some z =>
      refine .pure fun x hx => ⟨correctRoot_lt hx (powMod_lt _ _ hp0), ?_⟩
      refine (correctRoot_sound hx ?_).trans hcast
      have he : (q + 1) / 2 + (q + 1) / 2 = q + 1 := by
        simp only at hq
        omega
      rw [cast_powMod, cast_powMod, ← pow_add, he, pow_succ, mul_comm]

/-! ## Remainders -/

/-- One division with remainder: leaves with the remainder that has a square below `p`. -/
def remainderStep (p : Nat) : Nat × Nat → (Nat × Nat) ⊕ Nat
  | (a, b) => if p ≤ b * b then .inl (b, a % b) else .inr b

/-- The divisions for a positive `p` end, and never divide by zero. -/
theorem remainderStep_ends {p : Nat} (hp : 0 < p) (a b : Nat) :
    LoopEnds (remainderStep p) (a, b) (remainderBelowRoot p a b) := by
  fun_induction remainderBelowRoot p a b with
  | case1 a b h ih => exact .next (if_pos h.1) ih
  | case2 a b h =>
    refine .done (if_neg fun hle => h ⟨hle, ?_⟩)
    refine Nat.pos_of_ne_zero fun h0 => ?_
    rw [h0] at hle
    omega

end CliffordT
