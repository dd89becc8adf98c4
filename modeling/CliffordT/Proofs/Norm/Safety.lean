/-
The solver of the norm equation is safe for every input.

Nothing here asks that the test for primes is right: a base of a factorization is only known to be
two, or odd and larger than one. That is enough for the solver to come to a value without a fault,
and for every loop on the way to end. The one loop that could go on without end is the count of how
often a factor of a base divides `ξ`, and it is never entered with a unit.
-/
import CliffordT.Proofs.Norm.Splitting

namespace CliffordT.NormEquation

/-! ## The count of divisions -/

/-- One exact division by `y`: counts it, or leaves with the count where there is no quotient. -/
def valuationStep (y : ZSqrt2) : ZSqrt2 × Nat → (ZSqrt2 × Nat) ⊕ Nat
  | (x, v) =>
    match x.exactDiv? y with
    | some q => .inl (q, v + 1)
    | none => .inr v

/-- The divisions of an element other than zero by one that is no unit end. -/
theorem valuationStep_ends {x y : ZSqrt2} (hx : x ≠ 0) (hy : 1 < y.norm.natAbs) (v : Nat) :
    LoopEnds (valuationStep y) (x, v) (v + x.valuation y) := by
  fun_induction ZSqrt2.valuation x y generalizing v with
  | case1 x h q hq ih =>
    have hstep : valuationStep y (x, v) = .inl (q, v + 1) := by simp [valuationStep, hq]
    have hq0 : q ≠ 0 := by
      rintro rfl
      exact hx (by rw [(ZSqrt2.exactDiv?_eq_some_iff.1 hq).2, zero_mul])
    refine .next hstep ?_
    rw [← Nat.add_assoc, Nat.add_right_comm]
    exact ih hq0 (v + 1)
  | case2 x h hq => exact .done (by simp [valuationStep, hq])
  | case3 x h => exact absurd ⟨hx, hy⟩ h

/-! ## The loops over one base -/

/-- Every loop that the solver runs over the base `p` of a factorization ends without a guard, and
no division in it is by zero. -/
structure LoopsEnd (xi : ZSqrt2) (p : Nat) : Prop where
  one_lt : 1 < p
  two_or_odd : p = 2 ∨ p % 2 = 1
  /-- The division of `p - 1` by two, before the corrections of a root. -/
  halvings : LoopEnds (divideStep 2) (0, p - 1) (removeFactor 2 (p - 1))
  /-- The corrections of a root, from any start. -/
  corrections : p % 2 = 1 → ∀ c t r,
    Corrects p (removeFactor 2 (p - 1)).1 c t r (correctRoot p (removeFactor 2 (p - 1)).1 c t r)
  /-- The divisions that find a sum of squares. -/
  remainders : ∀ a b, LoopEnds (remainderStep p) (a, b) (remainderBelowRoot p a b)
  /-- The factor of `p` that any root of two gives is no unit, nor is its conjugate. -/
  not_isUnit : p % 2 = 1 → ∀ attempts g x, ((sqrtMod 2 p attempts).run g).1 = some x →
    ¬ IsUnit (splitFactor p x) ∧ ¬ IsUnit (splitFactor p x).dot
  /-- The count of how often that factor and its conjugate divide `ξ`. -/
  valuations : p % 2 = 1 → ∀ attempts g x, ((sqrtMod 2 p attempts).run g).1 = some x →
    LoopEnds (valuationStep (splitFactor p x)) (xi, 0) (xi.valuation (splitFactor p x)) ∧
    LoopEnds (valuationStep (splitFactor p x).dot) (xi, 0) (xi.valuation (splitFactor p x).dot)

/-- A root of two that the solver finds modulo an odd base is one. -/
theorem mul_self_of_sqrtMod_two {p attempts x : Nat} {g : Generator} (hp : 1 < p)
    (hodd : p % 2 = 1) (h : ((sqrtMod 2 p attempts).run g).1 = some x) :
    (x : ZMod p) * x = 2 := by
  have hx := (sqrtMod_spec 2 hp hodd attempts g x h).2
  simpa using hx

theorem loopsEnd {xi : ZSqrt2} (hxi : xi ≠ 0) {p : Nat} (hp : 1 < p)
    (htwo : p = 2 ∨ p % 2 = 1) : LoopsEnd xi p where
  one_lt := hp
  two_or_odd := htwo
  halvings := by
    have h := divideStep_ends (q := 2) (by decide) 0 (p - 1) (by omega)
    simpa using h
  corrections hodd c t r :=
    corrects_correctRoot p (removeFactor_two_pos (by omega) (by omega)) c t r
  remainders a b := remainderStep_ends (by omega) a b
  not_isUnit hodd attempts g x hx := by
    have hroot := mul_self_of_sqrtMod_two hp hodd hx
    have hunit := not_isUnit_splitFactor hp hroot
    refine ⟨hunit, ?_⟩
    rwa [ZSqrt2.isUnit_iff, ZSqrt2.norm_dot, ← ZSqrt2.isUnit_iff]
  valuations hodd attempts g x hx := by
    have hnorm := one_lt_natAbs_norm_splitFactor hp (mul_self_of_sqrtMod_two hp hodd hx)
    have hv := valuationStep_ends hxi hnorm 0
    have hw := valuationStep_ends hxi (y := (splitFactor p x).dot)
      (by rwa [ZSqrt2.norm_dot]) 0
    rw [Nat.zero_add] at hv hw
    exact ⟨hv, hw⟩

/-! ## The solver comes to a value -/

/-- The part over two or over an odd base is found or given up, without a fault. -/
theorem primePart_ensures (xi : ZSqrt2) {p : Nat} (hp : p = 2 ∨ p % 2 = 1) (e attempts : Nat) :
    (primePart xi p e attempts).Ensures fun _ => True := by
  have h8 : p % 8 = 2 ∨ p % 8 = 3 ∨ p % 8 = 5 ∨ p % 8 = 1 ∨ p % 8 = 7 := by omega
  unfold primePart
  split
  · exact .pure True.intro
  · split
    · exact .bind (.draw (.trivial _)) fun _ _ => .pure True.intro
    · exact .pure True.intro
  · split
    · exact .bind (.draw (.trivial _)) fun _ _ => .pure True.intro
    · exact .pure True.intro
  · refine .bind (.draw (.trivial _)) fun r _ => ?_
    cases r with
    | none => exact .pure True.intro
    | some x => exact .draw (.trivial _)
  · refine .bind (.draw (.trivial _)) fun r _ => ?_
    cases r with
    | none => exact .pure True.intro
    | some x => exact .draw (.trivial _)
  · rename_i h2 h3 h5 h1 h7
    rcases h8 with h | h | h | h | h
    · exact absurd h h2
    · exact absurd h h3
    · exact absurd h h5
    · exact absurd h h1
    · exact absurd h h7

/-- The loop over the bases of a factorization comes to a value. -/
theorem primeParts_ensures (xi : ZSqrt2) (attempts : Nat) {fs : List (Nat × Nat)}
    (hfs : ∀ pe ∈ fs, pe.1 = 2 ∨ pe.1 % 2 = 1) (t : ZOmega) :
    (primeParts xi attempts fs t).Ensures fun _ => True := by
  induction fs generalizing t with
  | nil => exact .pure True.intro
  | cons pe fs ih =>
    unfold primeParts
    refine .bind (primePart_ensures xi (hfs pe List.mem_cons_self) pe.2 attempts) fun r _ => ?_
    cases r with
    | none => exact .pure True.intro
    | some part => exact ih (fun qe hqe => hfs qe (List.mem_cons_of_mem _ hqe)) _

/-- What is left of the equation after the primes is solved, or given up with a message. -/
theorem adjustUnit_ensures (xi : ZSqrt2) (t : ZOmega) (c : Constants) :
    (adjustUnit xi t c).Ensures fun r => ∀ t', r = some t' → t'.norm = xi := by
  have hnone : ∀ t' : ZOmega, (none : Option ZOmega) = some t' → t'.norm = xi := by
    intro t' h
    cases h
  unfold adjustUnit
  dsimp only
  split
  · exact .bind (.warn _) fun _ _ => .pure hnone
  · split
    · exact .bind (.warn _) fun _ _ => .pure hnone
    · split
      · exact .pure hnone
      · split
        · rename_i hnorm
          refine .pure fun t' h => ?_
          cases h
          exact hnorm
        · exact .bind (.warn _) fun _ _ => .pure hnone

/-- The solver comes to a value for every input, and what it gives solves the equation. -/
theorem solve_ensures (xi : ZSqrt2) (ctx : Context) :
    (solve xi ctx).Ensures fun r => ∀ t, r = some t → t.norm = xi := by
  have hnone : ∀ t : ZOmega, (none : Option ZOmega) = some t → t.norm = xi := by
    intro t h
    cases h
  unfold solve
  split
  · rename_i hxi
    refine .pure fun t h => ?_
    cases h
    rw [hxi]
    rfl
  split
  · exact .pure hnone
  refine .bind (.draw (factorize_spec xi.norm ctx.toLimits)) fun fs? hfs => ?_
  cases fs? with
  | none => exact .pure hnone
  | some fs =>
    have hbases := fun pe hpe => (hfs fs rfl pe hpe).2
    refine .bind (primeParts_ensures xi ctx.rootAttempts hbases 1) fun t? _ => ?_
    cases t? with
    | none => exact .pure hnone
    | some t => exact adjustUnit_ensures xi t ctx.toConstants

/-- **The solver is safe.** From every state it comes to a value, never to a fault, and a value
other than none solves the equation. The trial division and the splitting of what it leaves end
without a guard, and so does every loop over the bases that come out of them; none of these bases is
even, apart from two, and no division by a unit is ever counted. -/
theorem solve_safe (xi : ZSqrt2) (ctx : Context) (s : SearchState) :
    (∃ r s', (solve xi ctx).run s = (.ok r, s') ∧
      ∀ t, r = some t → t * t.conj = ZOmega.ofZSqrt2 xi) ∧
    (∀ q ∈ trialDivisors, ∀ m, 0 < m → LoopEnds (divideStep q) (0, m) (removeFactor q m)) ∧
    (∀ n g, 0 < n → Splits ctx.toLimits [n] g ((splitCompletely n ctx.toLimits).run.run g).1
      ((splitCompletely n ctx.toLimits).run.run g).2) ∧
    ∀ g fs, ((factorize xi.norm ctx.toLimits).run g).1 = some fs →
      ∀ pe ∈ fs, LoopsEnd xi pe.1 := by
  refine ⟨?_, ?_, ?_, ?_⟩
  · obtain ⟨r, s', hrun, hr⟩ := solve_ensures xi ctx s
    exact ⟨r, s', hrun, fun t ht => ZOmega.mul_conj_eq_iff.2 (hr t ht)⟩
  · intro q hq m hm
    have h := divideStep_ends (trialDivisors_spec hq).1 0 m hm
    simpa using h
  · intro n g hn
    exact splits_splitCompletely ctx.toLimits hn g
  · intro g fs hfs pe hpe
    have hxi : xi ≠ 0 := by
      rintro rfl
      cases hfs
    obtain ⟨hp, htwo⟩ := factorize_spec xi.norm ctx.toLimits g fs hfs pe hpe
    exact loopsEnd hxi hp htwo

end CliffordT.NormEquation
