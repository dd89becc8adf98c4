/-
A prime of which `-d` is a square is found as `x² + d y²`, for `d` one and two.

Euclid's algorithm on `p` and a root of `-d` gives remainders `a` and `b` that follow each other,
with numbers `s` and `t` beside them such that `a t + b s = p` and `p` divides `a² + d s²`,
`b² + d t²` and `a b - d s t`. At the first `b` with `b² < p` also `t² < p`, so that `b² + d t²` is a
multiple of `p` below `(d + 1) p`. For `d = 1` that leaves `p` alone. For `d = 2` it could be `2p`;
but then `(a² + 2s²)(b² + 2t²) = (ab - 2st)² + 2p²` makes `ab - 2st` an even multiple of `p`, too
small not to be zero, and `a² ≤ p` follows, which is not so.

Whether `p` is a prime or not, the divisions end, and what is given out is such a sum.
-/
import Mathlib.Data.Nat.Prime.Basic
import Mathlib.Data.ZMod.Basic
import Mathlib.Tactic.LinearCombination
import Mathlib.Tactic.Linarith
import Mathlib.Tactic.Ring
import CliffordT.Prime.Root
import CliffordT.Proofs.Numeral
import CliffordT.Proofs.Prime.Residue

namespace CliffordT

/-- What holds of two remainders that follow each other, and of the numbers beside them. -/
structure RemainderInv (d p a b s t : Nat) : Prop where
  cross : a * t + b * s = p
  fst : (p : Int) ∣ a * a + d * (s * s)
  snd : (p : Int) ∣ b * b + d * (t * t)
  mixed : (p : Int) ∣ a * b - d * (s * t)
  lt : b < a
  le : s ≤ t
  big : p ≤ a * a

namespace RemainderInv

variable {d p a b s t : Nat}

/-- The start: the prime itself and a root of `-d`. -/
theorem start {r : Nat} (hr : r < p) (hroot : (p : Int) ∣ r * r + d) :
    RemainderInv d p p r 0 1 where
  cross := by omega
  fst := ⟨p, by simp⟩
  snd := by simpa using hroot
  mixed := ⟨r, by simp⟩
  lt := hr
  le := by omega
  big := Nat.le_mul_self p

/-- One division with remainder keeps the invariant while the square is not below `p`. -/
theorem step (h : RemainderInv d p a b s t) (hb : 0 < b) (hbig : p ≤ b * b) :
    RemainderInv d p b (a % b) t (s + a / b * t) := by
  have hdiv := Nat.div_add_mod a b
  have hq : 1 ≤ a / b := (Nat.one_le_div_iff hb).2 h.lt.le
  have hlt := Nat.mod_lt a hb
  have hcast : (b : Int) * (a / b : Nat) + (a % b : Nat) = a := by exact_mod_cast hdiv
  have hmod : ((a % b : Nat) : Int) = a - (a / b : Nat) * b := by linarith
  obtain ⟨k₁, h₁⟩ := h.fst
  obtain ⟨k₂, h₂⟩ := h.snd
  obtain ⟨k₃, h₃⟩ := h.mixed
  generalize a / b = q at *
  generalize a % b = c at *
  refine ⟨?_, h.snd, ?_, ?_, hlt, ?_, hbig⟩
  · rw [← h.cross, ← hdiv]
    ring
  · refine ⟨k₁ - 2 * q * k₃ + q * q * k₂, ?_⟩
    rw [hmod]
    push_cast
    linear_combination h₁ - 2 * q * h₃ + q * q * h₂
  · refine ⟨k₃ - q * k₂, ?_⟩
    rw [hmod]
    push_cast
    linear_combination h₃ - q * h₂
  · have := Nat.mul_le_mul_right t hq
    omega

theorem mul_le (h : RemainderInv d p a b s t) : a * t ≤ p := by
  rw [← h.cross]
  exact Nat.le_add_right _ _

/-- Where the square of the smaller remainder is below `p`, so is that of the number beside it. -/
theorem sq_le (h : RemainderInv d p a b s t) : t * t ≤ p := by
  have hat := h.mul_le
  have hsq : p * (t * t) ≤ p * p := by
    calc p * (t * t) ≤ a * a * (t * t) := Nat.mul_le_mul_right _ h.big
      _ = a * t * (a * t) := by ring
      _ ≤ p * p := Nat.mul_le_mul hat hat
  rcases Nat.eq_zero_or_pos p with rfl | hp
  · have := h.lt
    have hat0 : a * t = 0 := by omega
    rcases Nat.mul_eq_zero.1 hat0 with h0 | h0
    · omega
    · simp [h0]
  · exact Nat.le_of_mul_le_mul_left hsq hp

theorem sq_lt (h : RemainderInv d p a b s t) (hp : p.Prime) : t * t < p := by
  refine Nat.lt_of_le_of_ne h.sq_le fun heq => ?_
  exact (Irreducible.not_isSquare hp) ⟨t, heq.symm⟩

/-- The number beside the smaller remainder is not zero. -/
theorem pos (h : RemainderInv d p a b s t) (hp : 0 < p) : 0 < t := by
  refine Nat.pos_of_ne_zero fun h0 => ?_
  have hs : s = 0 := by
    have := h.le
    omega
  have hcross := h.cross
  rw [h0, hs] at hcross
  omega

/-- At the end, for `d = 1`: the value is a positive multiple of `p` below `2p`. -/
theorem eq_of_one (h : RemainderInv 1 p a b s t) (hp : p.Prime) (hb : b * b < p) :
    b * b + 1 * (t * t) = p := by
  have ht := h.sq_lt hp
  have hpos := Nat.mul_pos (h.pos hp.pos) (h.pos hp.pos)
  have hdvd : p ∣ b * b + 1 * (t * t) := by exact_mod_cast h.snd
  obtain ⟨k, hk⟩ := hdvd
  have hk1 : k = 1 := by
    have hk0 : k ≠ 0 := by
      rintro rfl
      omega
    have hk2 : k < 2 := by
      refine Nat.lt_of_mul_lt_mul_left (a := p) ?_
      omega
    omega
  rw [hk, hk1, Nat.mul_one]

/-- At the end, for `d = 2`: the value is `p` or `2p`. -/
theorem eq_or_eq_of_two (h : RemainderInv 2 p a b s t) (hp : p.Prime) (hb : b * b < p) :
    b * b + 2 * (t * t) = p ∨ b * b + 2 * (t * t) = 2 * p := by
  have ht := h.sq_lt hp
  have hpos := Nat.mul_pos (h.pos hp.pos) (h.pos hp.pos)
  have hdvd : p ∣ b * b + 2 * (t * t) := by exact_mod_cast h.snd
  obtain ⟨k, hk⟩ := hdvd
  have hk0 : k ≠ 0 := by
    rintro rfl
    omega
  have hk3 : k < 3 := by
    refine Nat.lt_of_mul_lt_mul_left (a := p) ?_
    omega
  have h12 : k = 1 ∨ k = 2 := by omega
  rcases h12 with rfl | rfl
  · left
    omega
  · right
    omega

/-- The product of the two values, by the identity of sums of squares. -/
theorem mul_eq (h : RemainderInv 2 p a b s t) :
    ((a : Int) * a + 2 * (s * s)) * (b * b + 2 * (t * t))
      = (a * b - 2 * (s * t)) * (a * b - 2 * (s * t)) + 2 * (p * p) := by
  have hcross : (a : Int) * t + b * s = p := by exact_mod_cast h.cross
  rw [← hcross]
  ring

/-- With the value `2p` the remainders have a product below `2p`. -/
theorem mul_lt_of_two_mul (h : RemainderInv 2 p a b s t) (hp : 0 < p) (hb : b * b < p)
    (heq : b * b + 2 * (t * t) = 2 * p) : a * b < 2 * p := by
  by_contra hge
  have h1 : 2 * p * (2 * p) ≤ a * b * (a * b) := Nat.mul_le_mul (by omega) (by omega)
  have h2 : a * t * (a * t) ≤ p * p := Nat.mul_le_mul h.mul_le h.mul_le
  have h3 : a * a * (b * b) + 2 * (a * a * (t * t)) = a * a * (2 * p) := by
    rw [← heq]
    ring
  have h4 : a * a * (b * b) ≤ a * a * p := Nat.mul_le_mul_left _ hb.le
  have h6 : 0 < p * p := Nat.mul_pos hp hp
  linarith

/-- An even multiple of `p` between `-2p` and `2p` is zero. -/
theorem eq_zero_of_even {p : Nat} {z w : Int} (hp : 0 < p) (hodd : p % 2 = 1)
    (hlow : p * -2 < p * z) (hhigh : p * z < p * 2) (hw : 2 * w = p * (z * z) + 2 * p) : z = 0 := by
  have hp' : (0 : Int) ≤ p := by omega
  have hz0 : -2 < z := lt_of_mul_lt_mul_left hlow hp'
  have hz2 : z < 2 := lt_of_mul_lt_mul_left hhigh hp'
  have hpar : (p : Int) * (z * z) % 2 = 0 := by omega
  have hz : z % 2 = 0 := by
    rcases Int.emod_two_eq_zero_or_one z with h0 | h1
    · exact h0
    · have hp2 : (p : Int) % 2 = 1 := by omega
      rw [Int.mul_emod, Int.mul_emod z z, h1, hp2] at hpar
      simp at hpar
  omega

/-- The value `2p` does not occur for an odd prime. -/
theorem ne_two_mul (h : RemainderInv 2 p a b s t) (hp : p.Prime) (hodd : p % 2 = 1)
    (hb : b * b < p) : b * b + 2 * (t * t) ≠ 2 * p := by
  intro heq
  have ht := h.sq_lt hp
  -- both parts of `a b - 2 s t` are below `2p`
  have hab : (a : Int) * b < 2 * p := by exact_mod_cast h.mul_lt_of_two_mul hp.pos hb heq
  have hst : s * t ≤ t * t := Nat.mul_le_mul_right t h.le
  have hst' : (s : Int) * t < p := by exact_mod_cast Nat.lt_of_le_of_lt hst ht
  have hab0 : (0 : Int) ≤ a * b := by positivity
  have hst0 : (0 : Int) ≤ s * t := by positivity
  -- the identity makes it an even multiple of `p`
  obtain ⟨z, hz⟩ := h.mixed
  have hmul := h.mul_eq
  have heq' : (b : Int) * b + 2 * (t * t) = 2 * p := by exact_mod_cast heq
  push_cast at hz
  rw [heq', hz] at hmul
  have hp0 : (p : Int) ≠ 0 := by exact_mod_cast hp.ne_zero
  have hsum : 2 * ((a : Int) * a + 2 * (s * s)) = p * (z * z) + 2 * p := by
    refine mul_left_cancel₀ hp0 ?_
    linear_combination hmul
  have hz0 : z = 0 := eq_zero_of_even hp.pos hodd (by linarith) (by linarith) hsum
  rw [hz0] at hsum
  have hbig : (p : Int) ≤ a * a := by exact_mod_cast h.big
  have hsq : (a : Int) * a = p := by linarith [mul_self_nonneg (s : Int)]
  exact Irreducible.not_isSquare hp ⟨a, by exact_mod_cast hsq.symm⟩

end RemainderInv

/-- The divisions end with a remainder that has a square below `p`, whatever they start from. -/
theorem remainderBelowRoot_sq_lt {p : Nat} (hp : 0 < p) (a b : Nat) :
    remainderBelowRoot p a b * remainderBelowRoot p a b < p := by
  fun_induction remainderBelowRoot p a b with
  | case1 a b h ih => exact ih
  | case2 a b h =>
    by_contra hge
    refine h ⟨by omega, Nat.pos_of_ne_zero fun h0 => ?_⟩
    rw [h0] at hge
    omega

/-- Euclid's algorithm ends with the first remainder whose square is below `p`. -/
theorem exists_of_remainderBelowRoot {d p a b s t : Nat} (hp : 0 < p)
    (h : RemainderInv d p a b s t) :
    ∃ a' s' t', RemainderInv d p a' (remainderBelowRoot p a b) s' t' ∧
      remainderBelowRoot p a b * remainderBelowRoot p a b < p := by
  have hlt := remainderBelowRoot_sq_lt hp a b
  fun_induction remainderBelowRoot p a b generalizing s t with
  | case1 a b hb ih => exact ih (h.step hb.2 hb.1) hlt
  | case2 a b hb => exact ⟨a, s, t, h, hlt⟩

/-- The larger one of a root and its negative is a root. -/
theorem larger_root {d p r : Nat} (hr : r < p) (hr0 : 0 < r) (h : (p : Int) ∣ r * r + d) :
    (if r ≤ p / 2 then p - r else r) < p ∧
      (p : Int) ∣ ((if r ≤ p / 2 then p - r else r : Nat) : Int)
        * (if r ≤ p / 2 then p - r else r : Nat) + d := by
  split
  · refine ⟨by omega, ?_⟩
    obtain ⟨k, hk⟩ := h
    refine ⟨p - 2 * r + k, ?_⟩
    rw [Nat.cast_sub hr.le]
    linear_combination hk
  · exact ⟨hr, h⟩

/-- **Every prime of which `-d` is a square is written as a sum**, for `d` one and two. -/
theorem exists_sumOfSquares? {d p r : Nat} (hd : d = 1 ∨ d = 2) (hp : p.Prime)
    (hodd : p % 2 = 1) (hr : r < p) (h : (p : Int) ∣ r * r + d) :
    ∃ x y, sumOfSquares? d p r = some (x, y) ∧ x * x + d * (y * y) = p := by
  have hr0 : 0 < r := by
    refine Nat.pos_of_ne_zero fun h0 => ?_
    rw [h0] at h
    have hdvd : p ∣ d := by
      have : (p : Int) ∣ d := by simpa using h
      exact_mod_cast this
    have := Nat.le_of_dvd (by omega) hdvd
    have := hp.two_le
    omega
  obtain ⟨hlt, hroot⟩ := larger_root hr hr0 h
  obtain ⟨a, s, t, hinv, hb⟩ := exists_of_remainderBelowRoot hp.pos (.start hlt hroot)
  unfold sumOfSquares?
  dsimp only
  generalize remainderBelowRoot p p (if r ≤ p / 2 then p - r else r) = b at hinv hb ⊢
  have hsum : b * b + d * (t * t) = p := by
    rcases hd with rfl | rfl
    · exact hinv.eq_of_one hp hb
    · rcases hinv.eq_or_eq_of_two hp hb with heq | heq
      · exact heq
      · exact absurd heq (hinv.ne_two_mul hp hodd hb)
  have hd0 : 0 < d := by omega
  have hrest : p - b * b = d * (t * t) := by omega
  refine ⟨b, t, ?_, hsum⟩
  rw [hrest, Nat.mul_div_cancel_left _ hd0, Nat.sqrt_eq, Nat.mul_mod_right, if_pos ⟨rfl, rfl⟩]

/-! ## Numbers that need not be primes -/

/-- What is given out is a sum with the value `p`. -/
theorem sumOfSquares?_sound {d p r x y : Nat} (hp : 0 < p)
    (h : sumOfSquares? d p r = some (x, y)) : x ^ 2 + d * y ^ 2 = p := by
  have hlt := remainderBelowRoot_sq_lt hp p (if r ≤ p / 2 then p - r else r)
  unfold sumOfSquares? at h
  dsimp only at h
  generalize remainderBelowRoot p p (if r ≤ p / 2 then p - r else r) = b at hlt h
  split at h
  · rename_i hrest
    cases h
    have hdiv : d * ((p - x * x) / d) = p - x * x := Nat.mul_div_cancel' (Nat.dvd_of_mod_eq_zero hrest.1)
    rw [pow_two, pow_two, hrest.2, hdiv]
    omega
  · cases h

/-- The sum comes from the root that is found, if there is one. -/
theorem run_asSumOfSquares (d p attempts : Nat) (g : Generator) :
    ((asSumOfSquares d p attempts).run g).1
      = ((sqrtMod (-d) p attempts).run g).1.bind (sumOfSquares? d p) := rfl

/-- **Sums with a given value.** For `d` one and two the divisions end for every positive number, and what
is given out is a sum `x² + d y²` with this value; for an odd prime it is given out whenever a root of `-d`
is found. -/
theorem asSumOfSquares_represents {d : Nat} (hd : d = 1 ∨ d = 2) {p : Nat} (hp : 0 < p) (attempts : Nat)
    (g : Generator) :
    (∀ a b, LoopEnds (remainderStep p) (a, b) (remainderBelowRoot p a b)) ∧
    (∀ x y, ((asSumOfSquares d p attempts).run g).1 = some (x, y) → x ^ 2 + d * y ^ 2 = p) ∧
    (p.Prime → p % 2 = 1 → ∀ r, ((sqrtMod (-d) p attempts).run g).1 = some r →
      ∃ x y, ((asSumOfSquares d p attempts).run g).1 = some (x, y) ∧ x ^ 2 + d * y ^ 2 = p) := by
  have hsound (x y : Nat) (h : ((asSumOfSquares d p attempts).run g).1 = some (x, y)) :
      x ^ 2 + d * y ^ 2 = p := by
    rw [run_asSumOfSquares] at h
    obtain ⟨r, -, hr⟩ := Option.bind_eq_some_iff.1 h
    exact sumOfSquares?_sound hp hr
  refine ⟨remainderStep_ends hp, hsound, fun hprime hodd r hr => ?_⟩
  obtain ⟨hlt, hroot⟩ := sqrtMod_spec (-d) hprime.one_lt hodd attempts g r hr
  have hdvd : (p : Int) ∣ r * r + d := by
    rw [← ZMod.intCast_zmod_eq_zero_iff_dvd]
    push_cast at hroot ⊢
    rw [hroot, neg_add_cancel]
  obtain ⟨x, y, hsum, -⟩ := exists_sumOfSquares? hd hprime hodd hlt hdvd
  have hrun : ((asSumOfSquares d p attempts).run g).1 = some (x, y) := by
    rw [run_asSumOfSquares, hr]
    exact hsum
  exact ⟨x, y, hrun, hsound x y hrun⟩

/-- The number 17 as a sum of two squares, from a root of minus one modulo 17: eleven, which is no square,
is drawn for it. -/
theorem asSumOfSquares_represents_seventeen :
    (1 = 1 ∨ 1 = 2) ∧ 0 < 17 ∧
      ∃ x y, ((asSumOfSquares 1 17 1).run (Generator.ofSeed 0)).1 = some (x, y) ∧
        x ^ 2 + 1 * y ^ 2 = 17 := by
  have hroot : IsSquare ((-(1 : Nat) : Int) : ZMod 17) := by decide
  have hnot : ¬ IsSquare ((11 : Nat) : ZMod 17) := by decide
  have hprime : Nat.Prime 17 := by decide
  have : Fact (Nat.Prime 17) := ⟨hprime⟩
  obtain ⟨-, -, hfound⟩ := asSumOfSquares_represents (.inl rfl) (p := 17) (by decide) 1
    (Generator.ofSeed 0)
  have hdrawn : ((drawnBases 17 1).run (Generator.ofSeed 0)).1 = [11] := by decide +kernel
  refine ⟨.inl rfl, by decide, ?_⟩
  cases hr : ((sqrtMod (-(1 : Nat)) 17 1).run (Generator.ofSeed 0)).1 with
  | some r => exact hfound hprime (by decide) r hr
  | none =>
    rcases (sqrtMod_eq_none_iff (by decide) _ _ _).1 hr with h | ⟨-, -, h⟩
    · exact absurd hroot h
    · exact absurd (h 11 (hdrawn ▸ List.mem_cons_self)) hnot

end CliffordT
