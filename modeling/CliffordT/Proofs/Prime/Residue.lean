/-
A square modulo a prime has a root that is found.

Modulo a prime, a power `t^(2ⁱ)` with square one is one or minus one. So where `t` has order `2ⁱ` and `c`
has order `2ᵐ`, the correction by `b² = c^(2^(m-i))` multiplies `t^(2^(i-1)) = -1` by another minus one, and
the order of `t` goes down: `t^(2^(m-1)) = 1` and `c^(2^(m-1)) = -1` are the invariant of the corrections.
It holds at the start by Euler's criterion, for `a` is a square and `c` comes from a number that is none.
What may be missing is such a number, when no attempt draws one.

That the corrections end, and never subtract more than they have, holds for every odd modulus.
-/
import Mathlib.NumberTheory.LegendreSymbol.Basic
import CliffordT.Proofs.Prime.SquareRoot

namespace CliffordT

/-! ## The corrections without underflow -/

/-- The run of the corrections, with `e` for the difference `m - i - 1`. It is a natural number with
`m = i + e + 1`: were `i` not below `m`, there would be no run. -/
inductive CorrectsExactly (p : Nat) : Nat → Nat → Nat → Nat → Option Nat → Prop
  | done {m c r : Nat} : CorrectsExactly p m c 1 r (some r)
  | stuck {m c t r : Nat} (ht : t ≠ 1) (hi : LoopEnds (squareStep p m) (0, t) none) :
      CorrectsExactly p m c t r none
  | next {m c t r i e b : Nat} {x : Option Nat} (ht : t ≠ 1)
      (hi : LoopEnds (squareStep p m) (0, t) (some i)) (he : m = i + e + 1)
      (hb : b = powMod c (1 <<< e) p)
      (tail : CorrectsExactly p i (b * b % p) (t * (b * b % p) % p) (r * b % p) x) :
      CorrectsExactly p m c t r x

/-- The corrections end without underflow, whatever the modulus is. -/
theorem correctsExactly_correctRoot (p : Nat) {m : Nat} (hm : 0 < m) (c t r : Nat) :
    CorrectsExactly p m c t r (correctRoot p m c t r) := by
  fun_induction correctRoot p m c t r with
  | case1 m c r => exact .done
  | case2 m c t r ht hi =>
    have hends := squareStep_ends p m (m - 1) 0 t (by omega)
    rw [Nat.sub_add_cancel hm, hi] at hends
    exact .stuck ht hends
  | case3 m c t r ht i hi hlt b c' ih =>
    have hends := squareStep_ends p m (m - 1) 0 t (by omega)
    rw [Nat.sub_add_cancel hm, hi] at hends
    exact .next (i := i) (e := m - i - 1) ht hends (by omega) rfl (ih ((squaringsToOne_spec hi).2 ht))
  | case4 m c t r ht i hi hlt => exact absurd (squaringsToOne_spec hi).1 hlt

/-! ## Orders -/

theorem cast_mul_mod (t u p : Nat) : ((t * u % p : Nat) : ZMod p) = t * u := by
  rw [ZMod.natCast_mod, Nat.cast_mul]

/-- A power of two more in the exponent is a squaring first. -/
theorem pow_two_pow_succ {p : Nat} (t : ZMod p) (n : Nat) : t ^ 2 ^ (n + 1) = (t * t) ^ 2 ^ n := by
  rw [pow_succ', pow_mul, pow_two]

/-- The count of squarings is the least exponent that gives one. -/
theorem squaringsToOne_order {p : Nat} (hp : 1 < p) {bound t i : Nat} (ht : t < p)
    (h : squaringsToOne p bound t = some i) :
    (t : ZMod p) ^ 2 ^ i = 1 ∧ ∀ j < i, (t : ZMod p) ^ 2 ^ j ≠ 1 := by
  induction bound generalizing t i with
  | zero => cases h
  | succ bound ih =>
    unfold squaringsToOne at h
    by_cases ht1 : t = 1
    · rw [if_pos ht1] at h
      cases h
      refine ⟨?_, fun j hj => absurd hj (Nat.not_lt_zero j)⟩
      rw [ht1, Nat.cast_one, one_pow]
    · rw [if_neg ht1] at h
      obtain ⟨i, hi, rfl⟩ := Option.map_eq_some_iff.1 h
      obtain ⟨hone, hleast⟩ := ih (Nat.mod_lt _ (by omega)) hi
      rw [cast_mul_mod] at hone hleast
      refine ⟨by rw [pow_two_pow_succ, hone], fun j hj => ?_⟩
      cases j with
      | zero =>
        rw [pow_zero, pow_one, Ne, cast_eq_one_iff hp ht]
        exact ht1
      | succ j =>
        rw [pow_two_pow_succ]
        exact hleast j (by omega)

/-- The count is found when some exponent below the bound gives one. -/
theorem exists_squaringsToOne {p : Nat} (hp : 1 < p) {n t : Nat} (ht : t < p)
    (h : (t : ZMod p) ^ 2 ^ n = 1) : ∃ i, squaringsToOne p (n + 1) t = some i := by
  induction n generalizing t with
  | zero =>
    rw [pow_zero, pow_one, cast_eq_one_iff hp ht] at h
    exact ⟨0, by rw [squaringsToOne, if_pos h]⟩
  | succ n ih =>
    by_cases ht1 : t = 1
    · exact ⟨0, by rw [squaringsToOne, if_pos ht1]⟩
    · obtain ⟨i, hi⟩ := ih (t := t * t % p) (Nat.mod_lt _ (by omega))
        (by rw [cast_mul_mod, ← pow_two_pow_succ, h])
      exact ⟨i + 1, by rw [squaringsToOne, if_neg ht1, hi, Option.map_some]⟩

/-! ## The corrections modulo a prime -/

section Prime

variable {p : Nat} [hp : Fact p.Prime]

/-- Where the squarings reach one, they come from minus one. -/
theorem pow_two_pow_eq_neg_one {t : ZMod p} {i : Nat} (h : t ^ 2 ^ (i + 1) = 1)
    (hne : t ^ 2 ^ i ≠ 1) : t ^ 2 ^ i = -1 := by
  have hsq : t ^ 2 ^ i * t ^ 2 ^ i = 1 := by rw [← pow_two, ← pow_mul, ← pow_succ, h]
  exact (mul_self_eq_one_iff.1 hsq).resolve_left hne

/-- **The corrections modulo a prime find a root**, from a `t` of smaller order than `c`. -/
theorem exists_correctRoot {m c t r : Nat} (hm : 0 < m) (ht : t < p)
    (htm : (t : ZMod p) ^ 2 ^ (m - 1) = 1) (hcm : (c : ZMod p) ^ 2 ^ (m - 1) = -1) :
    ∃ x, correctRoot p m c t r = some x := by
  have hp1 : 1 < p := hp.out.one_lt
  fun_induction correctRoot p m c t r with
  | case1 m c r => exact ⟨r, rfl⟩
  | case2 m c t r ht1 hi =>
    obtain ⟨i, hsome⟩ := exists_squaringsToOne hp1 ht htm
    rw [Nat.sub_add_cancel hm, hi] at hsome
    cases hsome
  | case3 m c t r ht1 i hi hlt b c' ih =>
    obtain ⟨hone, hleast⟩ := squaringsToOne_order hp1 ht hi
    have hi0 : 0 < i := (squaringsToOne_spec hi).2 ht1
    obtain ⟨j, rfl⟩ : ∃ j, i = j + 1 := ⟨i - 1, by omega⟩
    obtain ⟨e, rfl⟩ : ∃ e, m = j + 1 + e + 1 := ⟨m - j - 2, by omega⟩
    -- `b²` has the power `-1` where `t` has it
    have hminus : (t : ZMod p) ^ 2 ^ j = -1 := pow_two_pow_eq_neg_one hone (hleast j (by omega))
    have hb : (b : ZMod p) = (c : ZMod p) ^ 2 ^ e := by
      have he : j + 1 + e + 1 - (j + 1) - 1 = e := by omega
      simp only [b]
      rw [he, cast_powMod, Nat.shiftLeft_eq, one_mul]
    have hc' : (c' : ZMod p) ^ 2 ^ j = -1 := by
      simp only [c']
      rw [cast_mul_mod, ← pow_two_pow_succ, hb, ← pow_mul, ← pow_add, Nat.add_comm e]
      exact hcm
    refine ih hi0 (Nat.mod_lt _ (by omega)) ?_ hc'
    rw [Nat.add_sub_cancel, cast_mul_mod, mul_pow, hminus, hc', neg_one_mul, neg_neg]
  | case4 m c t r ht1 i hi hlt => exact absurd (squaringsToOne_spec hi).1 hlt

/-! ## Euler's criterion -/

/-- A residue other than zero is a square just when its power to the half of `p - 1` is one. -/
theorem powMod_half_eq_one_iff (hodd : p % 2 = 1) {a : Nat} (ha : (a : ZMod p) ≠ 0) :
    powMod a ((p - 1) / 2) p = 1 ↔ IsSquare (a : ZMod p) := by
  have hp1 : 1 < p := hp.out.one_lt
  have hhalf : (p - 1) / 2 = p / 2 := by omega
  rw [← cast_eq_one_iff hp1 (powMod_lt _ _ (by omega)), cast_powMod, hhalf, ZMod.euler_criterion p ha]

/-- The power is minus one for the others. -/
theorem powMod_half_eq_sub_one_iff (hodd : p % 2 = 1) {z : Nat} (hz : (z : ZMod p) ≠ 0) :
    powMod z ((p - 1) / 2) p = p - 1 ↔ ¬ IsSquare (z : ZMod p) := by
  have hiff := powMod_half_eq_one_iff hodd hz
  constructor
  · intro h hsq
    have := hiff.2 hsq
    omega
  · intro hsq
    have hlt : powMod z ((p - 1) / 2) p < p := powMod_lt _ _ (by omega)
    have hhalf : (p - 1) / 2 = p / 2 := by omega
    have hminus : (powMod z ((p - 1) / 2) p : ZMod p) = (p - 1 : Nat) := by
      rw [cast_powMod, hhalf, Nat.cast_sub (by omega), ZMod.natCast_self, Nat.cast_one, zero_sub]
      rcases ZMod.pow_div_two_eq_neg_one_or_one p hz with h | h
      · exact absurd ((ZMod.euler_criterion p hz).2 h) hsq
      · exact h
    rw [ZMod.natCast_eq_natCast_iff', Nat.mod_eq_of_lt hlt, Nat.mod_eq_of_lt (by omega)] at hminus
    exact hminus

/-! ## Numbers that are drawn -/

/-- The numbers that so many attempts draw. -/
def drawnBases (p : Nat) : Nat → Draw (List Nat)
  | 0 => return []
  | attempts + 1 => do
    let z := (← Generator.below (p - 2)) + 2
    return z :: (← drawnBases p attempts)

theorem run_drawnBases_succ (p attempts : Nat) (g : Generator) :
    ((drawnBases p (attempts + 1)).run g).1
      = (((Generator.below (p - 2)).run g).1 + 2)
        :: ((drawnBases p attempts).run ((Generator.below (p - 2)).run g).2).1 := rfl

theorem run_nonResidue_succ (p attempts : Nat) (g : Generator) :
    ((nonResidue p (attempts + 1)).run g).1
      = if powMod (((Generator.below (p - 2)).run g).1 + 2) ((p - 1) / 2) p = p - 1
        then some (((Generator.below (p - 2)).run g).1 + 2)
        else ((nonResidue p attempts).run ((Generator.below (p - 2)).run g).2).1 := by
  unfold nonResidue
  rw [Draw.run_bind]
  dsimp only
  split
  · rfl
  · cases attempts <;> rfl

/-- **No number is found just when all that are drawn are squares.** -/
theorem nonResidue_eq_none_iff (hodd : p % 2 = 1) (attempts : Nat) (g : Generator) :
    ((nonResidue p attempts).run g).1 = none ↔
      ∀ z ∈ ((drawnBases p attempts).run g).1, IsSquare (z : ZMod p) := by
  have hp2 := hp.out.two_le
  induction attempts generalizing g with
  | zero => exact ⟨fun _ z hz => absurd hz List.not_mem_nil, fun _ => rfl⟩
  | succ attempts ih =>
    have hlt := Draw.below_lt (n := p - 2) (by omega) g
    have hrest := ih ((Generator.below (p - 2)).run g).2
    rw [run_nonResidue_succ, run_drawnBases_succ, List.forall_mem_cons]
    generalize ((Generator.below (p - 2)).run g).1 = y at hlt ⊢
    have hz : ((y + 2 : Nat) : ZMod p) ≠ 0 := by
      rw [Ne, ZMod.natCast_eq_zero_iff]
      exact Nat.not_dvd_of_pos_of_lt (by omega) (by omega)
    have hiff := powMod_half_eq_sub_one_iff hodd hz
    by_cases hsq : IsSquare ((y + 2 : Nat) : ZMod p)
    · rw [if_neg (fun h => hiff.1 h hsq)]
      exact ⟨fun h => ⟨hsq, hrest.1 h⟩, fun h => hrest.2 h.2⟩
    · rw [if_pos (hiff.2 hsq)]
      exact ⟨fun h => absurd h (Option.some_ne_none _), fun h => absurd h.1 hsq⟩

end Prime

/-- A number that is found has the power minus one. -/
theorem powMod_of_nonResidue {p attempts z : Nat} {g : Generator}
    (h : ((nonResidue p attempts).run g).1 = some z) : powMod z ((p - 1) / 2) p = p - 1 := by
  induction attempts generalizing g with
  | zero => cases h
  | succ attempts ih =>
    rw [run_nonResidue_succ] at h
    split at h
    · cases h
      assumption
    · exact ih h

/-! ## Roots -/

section Cases

variable {a : Int} {p attempts : Nat} {g : Generator}

theorem sqrtMod_of_zero (h : (a % p).toNat = 0 ∨ p = 2) :
    sqrtMod a p attempts = pure (some (a % p).toNat) := by
  unfold sqrtMod
  exact if_pos h

variable (h0 : ¬ ((a % p).toNat = 0 ∨ p = 2))
include h0

theorem sqrtMod_of_half_ne (hhalf : powMod (a % p).toNat ((p - 1) / 2) p ≠ 1) :
    sqrtMod a p attempts = pure none := by
  unfold sqrtMod
  exact (if_neg h0).trans (if_pos hhalf)

variable (hhalf : powMod (a % p).toNat ((p - 1) / 2) p = 1)
include hhalf

theorem sqrtMod_of_three (h3 : p % 4 = 3) :
    sqrtMod a p attempts = pure (some (powMod (a % p).toNat ((p + 1) / 4) p)) := by
  unfold sqrtMod
  exact (if_neg h0).trans ((if_neg (not_not.2 hhalf)).trans (if_pos h3))

/-- The general case corrects a root with the number that is drawn, if there is one. -/
theorem run_sqrtMod_of_ne_three (h3 : p % 4 ≠ 3) :
    ((sqrtMod a p attempts).run g).1 = ((nonResidue p attempts).run g).1.bind fun z =>
      correctRoot p (removeFactor 2 (p - 1)).1 (powMod z (removeFactor 2 (p - 1)).2 p)
        (powMod (a % p).toNat (removeFactor 2 (p - 1)).2 p)
        (powMod (a % p).toNat (((removeFactor 2 (p - 1)).2 + 1) / 2) p) := by
  unfold sqrtMod
  dsimp only
  rw [if_neg h0, if_neg (not_not.2 hhalf), if_neg h3, Draw.run_bind]
  cases ((nonResidue p attempts).run g).1 with
  | none => rfl
  | some z => rfl

end Cases

section Prime

variable {p : Nat} [hp : Fact p.Prime] (hodd : p % 2 = 1)
include hodd

/-- The invariant of the corrections holds at their start. -/
theorem pow_two_pow_start {x y : Nat} (h : powMod x ((p - 1) / 2) p = y) :
    (powMod x (removeFactor 2 (p - 1)).2 p : ZMod p) ^ 2 ^ ((removeFactor 2 (p - 1)).1 - 1) = y := by
  have hp2 := hp.out.two_le
  have hpos : 0 < (removeFactor 2 (p - 1)).1 := removeFactor_two_pos (by omega) (by omega)
  have hmul := pow_mul_removeFactor 2 (p - 1)
  rw [Nat.pow_eq] at hmul
  generalize removeFactor 2 (p - 1) = sq at hpos hmul ⊢
  obtain ⟨s, q⟩ := sq
  obtain ⟨n, rfl⟩ : ∃ n, s = n + 1 := ⟨s - 1, by omega⟩
  have hexp : q * 2 ^ n = (p - 1) / 2 := by
    rw [pow_succ] at hmul
    rw [← hmul, Nat.mul_right_comm, Nat.mul_div_cancel _ (by decide), Nat.mul_comm]
  rw [cast_powMod, ← pow_mul, Nat.add_sub_cancel, hexp, ← cast_powMod, h]

/-- The corrections lead to a root, from any number that is not a square. -/
theorem exists_correctRoot_of_nonResidue {a z attempts : Nat} {g : Generator}
    (hhalf : powMod a ((p - 1) / 2) p = 1) (hz : ((nonResidue p attempts).run g).1 = some z) :
    ∃ x, correctRoot p (removeFactor 2 (p - 1)).1 (powMod z (removeFactor 2 (p - 1)).2 p)
      (powMod a (removeFactor 2 (p - 1)).2 p) (powMod a (((removeFactor 2 (p - 1)).2 + 1) / 2) p) = some x := by
  have hp2 := hp.out.two_le
  have hc := pow_two_pow_start hodd (powMod_of_nonResidue hz)
  have ht := pow_two_pow_start hodd hhalf
  rw [Nat.cast_one] at ht
  rw [Nat.cast_sub (by omega), ZMod.natCast_self, Nat.cast_one, zero_sub] at hc
  exact exists_correctRoot (removeFactor_two_pos (by omega) (by omega)) (powMod_lt _ _ (by omega)) ht hc

/-- **Modulo a prime no root is given just when there is none, or when every number that is drawn is a
square.** -/
theorem sqrtMod_eq_none_iff (a : Int) (attempts : Nat) (g : Generator) :
    ((sqrtMod a p attempts).run g).1 = none ↔ ¬ IsSquare (a : ZMod p) ∨
      (p % 4 = 1 ∧ (a : ZMod p) ≠ 0 ∧ ∀ z ∈ ((drawnBases p attempts).run g).1, IsSquare (z : ZMod p)) := by
  have hcast := cast_toNat_emod a (p := p) (by omega)
  have hlt := toNat_emod_lt a (p := p) (by omega)
  by_cases hzero : (a % p).toNat = 0
  · -- zero is a square, and its own root
    have ha : (a : ZMod p) = 0 := by rw [← hcast, hzero, Nat.cast_zero]
    rw [sqrtMod_of_zero (.inl hzero), ha]
    refine ⟨fun h => absurd h (Option.some_ne_none _), ?_⟩
    rintro (h | ⟨-, h, -⟩)
    · exact absurd IsSquare.zero h
    · exact absurd rfl h
  have h0 : ¬ ((a % p).toNat = 0 ∨ p = 2) := by omega
  have ha : (a : ZMod p) ≠ 0 := by
    rw [← hcast, Ne, ZMod.natCast_eq_zero_iff]
    exact Nat.not_dvd_of_pos_of_lt (Nat.pos_of_ne_zero hzero) hlt
  have heuler := powMod_half_eq_one_iff hodd (a := (a % p).toNat) (by rwa [hcast])
  rw [hcast] at heuler
  by_cases hhalf : powMod (a % p).toNat ((p - 1) / 2) p = 1
  swap
  · rw [sqrtMod_of_half_ne h0 hhalf]
    exact ⟨fun _ => .inl (mt heuler.2 hhalf), fun _ => rfl⟩
  have hsq : IsSquare (a : ZMod p) := heuler.1 hhalf
  by_cases h3 : p % 4 = 3
  · rw [sqrtMod_of_three h0 hhalf h3]
    refine ⟨fun h => absurd h (Option.some_ne_none _), ?_⟩
    rintro (h | ⟨h, -⟩)
    · exact absurd hsq h
    · omega
  rw [run_sqrtMod_of_ne_three h0 hhalf h3, Option.bind_eq_none_iff]
  have hdrawn := nonResidue_eq_none_iff hodd attempts g
  constructor
  · -- a number that is found leads to a root
    intro h
    refine .inr ⟨by omega, ha, hdrawn.1 ?_⟩
    cases hz : ((nonResidue p attempts).run g).1 with
    | none => rfl
    | some z =>
      obtain ⟨x, hx⟩ := exists_correctRoot_of_nonResidue hodd hhalf hz
      rw [h z hz] at hx
      cases hx
  · rintro (h | ⟨-, -, h⟩)
    · exact absurd hsq h
    · intro z hz
      rw [hdrawn.2 h] at hz
      cases hz

end Prime

/-- **Roots modulo an odd number.** The loops end, whatever the number is: the division of `p - 1` by two, and
the corrections, which never subtract more than they have. What is given is a residue and a root. Modulo a
prime none is given only when there is none, or when `p` is one modulo four and every number that was drawn
is a square. -/
theorem sqrtMod_finds_roots (a : Int) {p : Nat} (hp : 3 ≤ p) (hodd : p % 2 = 1) (attempts : Nat)
    (g : Generator) :
    (LoopEnds (divideStep 2) (0, p - 1) (removeFactor 2 (p - 1)) ∧
      ∀ c t r, CorrectsExactly p (removeFactor 2 (p - 1)).1 c t r
        (correctRoot p (removeFactor 2 (p - 1)).1 c t r)) ∧
    (∀ x, ((sqrtMod a p attempts).run g).1 = some x → x < p ∧ (x : Int) ^ 2 ≡ a [ZMOD p]) ∧
    (p.Prime → (((sqrtMod a p attempts).run g).1 = none ↔ ¬ IsSquare (a : ZMod p) ∨
      (p % 4 = 1 ∧ (a : ZMod p) ≠ 0 ∧
        ∀ z ∈ ((drawnBases p attempts).run g).1, IsSquare (z : ZMod p)))) := by
  refine ⟨⟨?_, fun c t r => ?_⟩, fun x hx => ?_, fun hprime => ?_⟩
  · have hends := divideStep_ends (q := 2) (by decide) 0 (p - 1) (by omega)
    simpa using hends
  · exact correctsExactly_correctRoot p (removeFactor_two_pos (by omega) (by omega)) c t r
  · obtain ⟨hlt, hroot⟩ := sqrtMod_spec a (by omega) hodd attempts g x hx
    refine ⟨hlt, (ZMod.intCast_eq_intCast_iff _ _ p).1 ?_⟩
    rw [Int.cast_pow, Int.cast_natCast, pow_two, hroot]
  · have : Fact p.Prime := ⟨hprime⟩
    exact sqrtMod_eq_none_iff hodd a attempts g

/-- Modulo 17 with one attempt, for the square two and for three, which is none. The first seed draws
eleven, which is no square, and the second one nine. -/
theorem sqrtMod_finds_roots_seventeen :
    3 ≤ 17 ∧ 17 % 2 = 1 ∧
      (∃ x, ((sqrtMod 2 17 1).run (Generator.ofSeed 0)).1 = some x ∧ x < 17 ∧
        (x : Int) ^ 2 ≡ 2 [ZMOD 17]) ∧
      ((sqrtMod 2 17 1).run (Generator.ofSeed 1)).1 = none ∧
      ((sqrtMod 3 17 1).run (Generator.ofSeed 0)).1 = none := by
  have hprime : Nat.Prime 17 := by decide
  have hroots (a : Int) := sqrtMod_finds_roots a (p := 17) (by decide) (by decide) 1
  refine ⟨by decide, by decide, ?_, ?_, ?_⟩
  · obtain ⟨-, hsound, hnone⟩ := hroots 2 (Generator.ofSeed 0)
    have hdrawn : ((drawnBases 17 1).run (Generator.ofSeed 0)).1 = [11] := by decide +kernel
    cases hx : ((sqrtMod 2 17 1).run (Generator.ofSeed 0)).1 with
    | some x => exact ⟨x, rfl, hsound x hx⟩
    | none =>
      rcases (hnone hprime).1 hx with h | ⟨-, -, h⟩
      · exact absurd (by decide) h
      · exact absurd (h 11 (hdrawn ▸ List.mem_cons_self)) (by decide)
  · obtain ⟨-, -, hnone⟩ := hroots 2 (Generator.ofSeed 1)
    have hdrawn : ((drawnBases 17 1).run (Generator.ofSeed 1)).1 = [9] := by decide +kernel
    refine (hnone hprime).2 (.inr ⟨by decide, by decide, fun z hz => ?_⟩)
    rw [hdrawn, List.mem_singleton] at hz
    rw [hz]
    decide
  · obtain ⟨-, -, hnone⟩ := hroots 3 (Generator.ofSeed 0)
    exact (hnone hprime).2 (.inl (by decide))

end CliffordT
