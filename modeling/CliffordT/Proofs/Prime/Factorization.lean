/-
What the factoring of an integer leaves behind.

The numbers that come out are divisors of the integer that are larger than one, and all of them are
two or odd: two is divided out first, and what is split after that is odd. They need not be primes,
for the test for primes may be wrong. Both loops are also described without the guards that make
them recursive definitions: `divideStep` for the division by one number, and the relation `Splits`
for the stack of numbers that wait to be split. The guards decide nothing, since a divisor that the
walk finds is a proper one.
-/
import Mathlib.Data.Nat.Prime.Basic
import CliffordT.Prime.Factor
import CliffordT.Proofs.Loop
import CliffordT.Proofs.Random.Ensures

namespace CliffordT

/-! ## Division by one number -/

/-- One round of the division by `q`: counts the division, or leaves with the count and the rest. -/
def divideStep (q : Nat) : Nat × Nat → (Nat × Nat) ⊕ (Nat × Nat)
  | (e, m) => if m % q = 0 then .inl (e + 1, m / q) else .inr (e, m)

theorem removeFactor_of_dvd {q m : Nat} (hq : 1 < q) (hm : 0 < m) (h : m % q = 0) :
    removeFactor q m = ((removeFactor q (m / q)).1 + 1, (removeFactor q (m / q)).2) := by
  rw [removeFactor, dif_pos ⟨hq, hm, h⟩]

theorem removeFactor_of_not_dvd {q m : Nat} (h : ¬ m % q = 0) : removeFactor q m = (0, m) := by
  rw [removeFactor, dif_neg fun h' => h h'.2.2]

/-- An even number has a factor two. -/
theorem removeFactor_two_pos {m : Nat} (hm : 0 < m) (h : m % 2 = 0) : 0 < (removeFactor 2 m).1 := by
  rw [removeFactor_of_dvd (by decide) hm h]
  exact Nat.succ_pos _

/-- The division of a positive number by a larger one than one ends, without a guard. -/
theorem divideStep_ends {q : Nat} (hq : 1 < q) (e m : Nat) (hm : 0 < m) :
    LoopEnds (divideStep q) (e, m) (e + (removeFactor q m).1, (removeFactor q m).2) := by
  induction m using Nat.strongRecOn generalizing e with
  | ind m ih =>
    by_cases h : m % q = 0
    · rw [removeFactor_of_dvd hq hm h, ← Nat.add_assoc, Nat.add_right_comm]
      refine .next (if_pos h) ?_
      refine ih (m / q) (Nat.div_lt_self hm hq) (e + 1) ?_
      exact Nat.div_pos (Nat.le_of_dvd hm (Nat.dvd_of_mod_eq_zero h)) (by omega)
    · rw [removeFactor_of_not_dvd h]
      exact .done (if_neg h)

/-- What is left has no further factor `q`. -/
theorem not_dvd_removeFactor {q : Nat} (hq : 1 < q) (m : Nat) (hm : 0 < m) :
    ¬ q ∣ (removeFactor q m).2 := by
  induction m using Nat.strongRecOn with
  | ind m ih =>
    by_cases h : m % q = 0
    · rw [removeFactor_of_dvd hq hm h]
      refine ih (m / q) (Nat.div_lt_self hm hq) ?_
      exact Nat.div_pos (Nat.le_of_dvd hm (Nat.dvd_of_mod_eq_zero h)) (by omega)
    · rw [removeFactor_of_not_dvd h]
      exact fun hd => h (Nat.mod_eq_zero_of_dvd hd)

theorem removeFactor_dvd (q m : Nat) : (removeFactor q m).2 ∣ m :=
  ⟨_, by rw [Nat.mul_comm]; exact (pow_mul_removeFactor q m).symm⟩

/-- Trial division takes out some of the given numbers, and leaves a divisor. -/
theorem trialDivide_spec (qs : List Nat) {m : Nat} (hm : 0 < m) :
    (∀ pe ∈ (trialDivide qs m).1, pe.1 ∈ qs) ∧ (trialDivide qs m).2 ∣ m := by
  induction qs generalizing m with
  | nil => exact ⟨fun pe hpe => by simp [trialDivide] at hpe, Nat.dvd_refl m⟩
  | cons q qs ih =>
    unfold trialDivide
    by_cases h : m ≤ 1
    · rw [if_pos h]
      exact ⟨fun pe hpe => by simp at hpe, Nat.dvd_refl m⟩
    · rw [if_neg h]
      obtain ⟨hmem, hdvd⟩ := ih (Nat.pos_of_dvd_of_pos (removeFactor_dvd q m) hm)
      refine ⟨?_, Nat.dvd_trans hdvd (removeFactor_dvd q m)⟩
      intro pe hpe
      simp only at hpe
      split at hpe
      · exact List.mem_cons_of_mem _ (hmem pe hpe)
      · rcases List.mem_cons.1 hpe with rfl | hpe
        · exact List.mem_cons_self
        · exact List.mem_cons_of_mem _ (hmem pe hpe)

/-- After trial division no factor two is left. -/
theorem trialDivide_odd {m : Nat} (hm : 0 < m) : (trialDivide trialDivisors m).2 % 2 = 1 := by
  unfold trialDivisors
  generalize (List.range 511).map (fun i => 2 * i + 3) = odds
  unfold trialDivide
  by_cases h : m ≤ 1
  · rw [if_pos h]
    show m % 2 = 1
    omega
  · rw [if_neg h]
    have hodd := not_dvd_removeFactor (q := 2) (by decide) m hm
    have hdvd := (trialDivide_spec odds (Nat.pos_of_dvd_of_pos (removeFactor_dvd 2 m) hm)).2
    have hnot : ¬ 2 ∣ (trialDivide odds (removeFactor 2 m).2).2 := fun h2 =>
      hodd (Nat.dvd_trans h2 hdvd)
    show (trialDivide odds (removeFactor 2 m).2).2 % 2 = 1
    omega

theorem trialDivisors_spec {q : Nat} (h : q ∈ trialDivisors) : 1 < q ∧ (q = 2 ∨ q % 2 = 1) := by
  rcases List.mem_cons.1 h with rfl | h
  · decide
  · obtain ⟨i, -, rfl⟩ := List.mem_map.1 h
    omega

/-! ## Splitting -/

/-- A number that the test refuses is at least four. -/
theorem four_le_of_refused {n rounds : Nat} {g g' : Generator} (hn : 1 < n)
    (h : (isProbablePrime n rounds).run g = (false, g')) : 4 ≤ n := by
  by_contra hlt
  rw [isProbablePrime, if_neg (by omega), if_pos (by omega)] at h
  cases h

/-- A divisor that the walk finds is a proper one. -/
theorem findDivisor_spec {n : Nat} (hn : 0 < n) (effort : Nat) (w : Walk) :
    (findDivisor n effort w).Ensures fun r => ∀ d, r = some d → d ∣ n ∧ 1 < d ∧ d < n := by
  induction effort generalizing w with
  | zero => exact .pure fun d h => by cases h
  | succ effort ih =>
    unfold findDivisor
    have hdvd : (w.advance n).commonDivisor n ∣ n := by
      unfold Walk.commonDivisor
      exact Int.natAbs_dvd_natAbs.2 (Int.gcd_dvd_right ..)
    simp only [Int.natAbs_natCast]
    split
    · exact .bind (.trivial _) fun x _ => ih _
    · rename_i hne
      split
      · exact ih _
      · rename_i h1
        refine .pure fun d h => ?_
        cases h
        have hle := Nat.le_of_dvd hn hdvd
        have hpos := Nat.pos_of_dvd_of_pos hdvd hn
        omega

/-- A divisor of a number that is no prime is a proper one. -/
theorem divisor?_spec {n : Nat} (hn : 4 ≤ n) (effort : Nat) :
    (divisor? n effort).Ensures fun r => ∀ d, r = some d → d ∣ n ∧ 1 < d ∧ d < n := by
  unfold divisor?
  split
  · refine .pure fun d h => ?_
    cases h
    omega
  · exact findDivisor_spec (by omega) effort _

/-- What is found in a number that the test refuses is a proper divisor. -/
theorem divisor_of_refused {n d rounds effort : Nat} {g g₁ g₂ : Generator} (hn : 0 < n)
    (hn1 : n ≠ 1) (hp : (isProbablePrime n rounds).run g = (false, g₁))
    (hd : (divisor? n effort).run g₁ = (some d, g₂)) : d ∣ n ∧ 1 < d ∧ d < n := by
  have hspec := divisor?_spec (four_le_of_refused (by omega) hp) effort g₁
  rw [hd] at hspec
  exact hspec d rfl

/-- The run of the splitting, with the numbers that wait as a stack: ones are dropped, probable
primes are kept, and of any other number a divisor and its cofactor go back on the stack. There is
no guard, so that a number which divides itself off would have no run. -/
inductive Splits (l : Limits) : List Nat → Generator → Option (List Nat) → Generator → Prop
  | done {g : Generator} : Splits l [] g (some []) g
  | one {rest : List Nat} {g g' : Generator} {r : Option (List Nat)}
      (tail : Splits l rest g r g') : Splits l (1 :: rest) g r g'
  | prime {n : Nat} {rest : List Nat} {g g₁ g' : Generator} {r : Option (List Nat)} (hn : n ≠ 1)
      (hp : (isProbablePrime n l.fermatRounds).run g = (true, g₁))
      (tail : Splits l rest g₁ r g') : Splits l (n :: rest) g (r.map (n :: ·)) g'
  | stuck {n : Nat} {rest : List Nat} {g g₁ g' : Generator} (hn : n ≠ 1)
      (hp : (isProbablePrime n l.fermatRounds).run g = (false, g₁))
      (hd : (divisor? n l.factorEffort).run g₁ = (none, g')) : Splits l (n :: rest) g none g'
  | split {n d : Nat} {rest : List Nat} {g g₁ g₂ g' : Generator} {r : Option (List Nat)} (hn : n ≠ 1)
      (hp : (isProbablePrime n l.fermatRounds).run g = (false, g₁))
      (hd : (divisor? n l.factorEffort).run g₁ = (some d, g₂))
      (tail : Splits l (d :: n / d :: rest) g₂ r g') : Splits l (n :: rest) g r g'

/-- The numbers that come out of a stack are larger than one, and each divides a number on it. -/
theorem Splits.mem {l : Limits} {stack : List Nat} {g g' : Generator} {r : Option (List Nat)}
    (h : Splits l stack g r g') (hpos : ∀ n ∈ stack, 0 < n) :
    ∀ ps, r = some ps → ∀ p ∈ ps, 1 < p ∧ ∃ n ∈ stack, p ∣ n := by
  induction h with
  | done =>
    intro ps hps p hp
    cases hps
    simp at hp
  | one _ ih =>
    intro ps hps p hp
    obtain ⟨h1, n, hn, hd⟩ := ih (fun n hn => hpos n (List.mem_cons_of_mem _ hn)) ps hps p hp
    exact ⟨h1, n, List.mem_cons_of_mem _ hn, hd⟩
  | @prime n _ _ _ _ r hn1 _ _ ih =>
    intro ps hps p hp
    cases r with
    | none => cases hps
    | some qs =>
      cases hps
      rcases List.mem_cons.1 hp with rfl | hp
      · have := hpos p List.mem_cons_self
        exact ⟨by omega, p, List.mem_cons_self, Nat.dvd_refl p⟩
      · obtain ⟨h1, n, hn, hd⟩ := ih (fun n hn => hpos n (List.mem_cons_of_mem _ hn)) qs rfl p hp
        exact ⟨h1, n, List.mem_cons_of_mem _ hn, hd⟩
  | stuck =>
    intro ps hps
    cases hps
  | @split n d rest g₁ g₂ _ _ _ hn1 hp hd _ ih =>
    intro ps hps p hmem
    obtain ⟨hdvd, hd1, hlt⟩ := divisor_of_refused (hpos n List.mem_cons_self) hn1 hp hd
    have hstack : ∀ m ∈ d :: n / d :: rest, 0 < m := by
      intro m hm
      rcases List.mem_cons.1 hm with rfl | hm
      · omega
      rcases List.mem_cons.1 hm with rfl | hm
      · exact Nat.div_pos hlt.le (by omega)
      · exact hpos m (List.mem_cons_of_mem _ hm)
    obtain ⟨h1, m, hm, hpm⟩ := ih hstack ps hps p hmem
    refine ⟨h1, ?_⟩
    rcases List.mem_cons.1 hm with rfl | hm
    · exact ⟨n, List.mem_cons_self, Nat.dvd_trans hpm hdvd⟩
    rcases List.mem_cons.1 hm with rfl | hm
    · exact ⟨n, List.mem_cons_self, Nat.dvd_trans hpm (Nat.div_dvd_of_dvd hdvd)⟩
    · exact ⟨m, List.mem_cons_of_mem _ hm, hpm⟩

/-- What a run of the splitting from one number says about the stack that the number stands on. -/
def SplitsOff (l : Limits) (n : Nat) (g : Generator) (out : Option (List Nat) × Generator) : Prop :=
  match out with
  | (none, g') => ∀ rest, Splits l (n :: rest) g none g'
  | (some ps, g') => ∀ rest r g'', Splits l rest g' r g'' →
      Splits l (n :: rest) g (r.map (ps ++ ·)) g''

theorem splitCompletely_of_prime {l : Limits} {n : Nat} (hn : ¬ n ≤ 1) {g g' : Generator}
    (hp : (isProbablePrime n l.fermatRounds).run g = (true, g')) :
    (splitCompletely n l).run.run g = (some [n], g') := by
  rw [splitCompletely, if_neg hn, Draw.run_bind_some (Draw.run_lift ..), hp]
  rfl

theorem splitCompletely_of_stuck {l : Limits} {n : Nat} (hn : ¬ n ≤ 1) {g g₁ g₂ : Generator}
    (hp : (isProbablePrime n l.fermatRounds).run g = (false, g₁))
    (hd : (divisor? n l.factorEffort).run g₁ = (none, g₂)) :
    (splitCompletely n l).run.run g = (none, g₂) := by
  rw [splitCompletely, if_neg hn, Draw.run_bind_some (Draw.run_lift ..), hp]
  exact Draw.run_bind_none hd

theorem splitCompletely_of_divisor {l : Limits} {n d : Nat} (hn : ¬ n ≤ 1) {g g₁ g₂ : Generator}
    (hp : (isProbablePrime n l.fermatRounds).run g = (false, g₁))
    (hd : (divisor? n l.factorEffort).run g₁ = (some d, g₂)) (hlt : 1 < d ∧ d < n) :
    (splitCompletely n l).run.run g
      = ((splitCompletely d l >>= fun front => splitCompletely (n / d) l >>= fun back =>
          pure (front ++ back)) : OptionT Draw (List Nat)).run.run g₂ := by
  rw [splitCompletely, if_neg hn, Draw.run_bind_some (Draw.run_lift ..), hp]
  refine (Draw.run_bind_some hd).trans ?_
  rw [dif_pos hlt]

/-- The recursive splitting is the run of the stack. -/
theorem splitsOff_splitCompletely (l : Limits) {n : Nat} (hn : 0 < n) (g : Generator) :
    SplitsOff l n g ((splitCompletely n l).run.run g) := by
  induction n using Nat.strongRecOn generalizing g with
  | ind n ih =>
    by_cases h1 : n ≤ 1
    · obtain rfl : n = 1 := by omega
      rw [splitCompletely, if_pos h1]
      intro rest r g' hrest
      simpa using Splits.one hrest
    have hne : n ≠ 1 := by omega
    rcases hp : (isProbablePrime n l.fermatRounds).run g with ⟨_ | _, g₁⟩
    · -- refused: the divisor that is found is a proper one, so the guard lets it through
      rcases hd : (divisor? n l.factorEffort).run g₁ with ⟨_ | d, g₂⟩
      · rw [splitCompletely_of_stuck h1 hp hd]
        exact fun rest => .stuck hne hp hd
      obtain ⟨-, hd1, hlt⟩ := divisor_of_refused hn hne hp hd
      rw [splitCompletely_of_divisor h1 hp hd ⟨hd1, hlt⟩]
      have hfront := ih d hlt (by omega) g₂
      rcases hrf : (splitCompletely d l).run.run g₂ with ⟨_ | front, g₃⟩
      · rw [Draw.run_bind_none hrf]
        rw [hrf] at hfront
        exact fun rest => .split hne hp hd (hfront _)
      rw [Draw.run_bind_some hrf]
      rw [hrf] at hfront
      have hback := ih (n / d) (Nat.div_lt_self hn hd1) (Nat.div_pos hlt.le (by omega)) g₃
      rcases hrb : (splitCompletely (n / d) l).run.run g₃ with ⟨_ | back, g₄⟩
      · rw [Draw.run_bind_none hrb]
        rw [hrb] at hback
        exact fun rest => .split hne hp hd (hfront _ none g₄ (hback rest))
      rw [Draw.run_bind_some hrb]
      rw [hrb] at hback
      intro rest r g' hrest
      have hstack := hfront _ _ _ (hback rest r g' hrest)
      simpa [Option.map_map, Function.comp_def, List.append_assoc] using
        Splits.split hne hp hd hstack
    · rw [splitCompletely_of_prime h1 hp]
      intro rest r g' hrest
      simpa using Splits.prime hne hp hrest

/-- The splitting of a positive number ends, without a guard. -/
theorem splits_splitCompletely (l : Limits) {n : Nat} (hn : 0 < n) (g : Generator) :
    Splits l [n] g ((splitCompletely n l).run.run g).1 ((splitCompletely n l).run.run g).2 := by
  have h := splitsOff_splitCompletely l hn g
  rcases hr : (splitCompletely n l).run.run g with ⟨_ | ps, g'⟩
  · rw [hr] at h
    exact h []
  · rw [hr] at h
    simpa using h [] _ _ .done

/-! ## Factorizations -/

theorem mem_insertPrime {p : Nat} {fs : List (Nat × Nat)} {pe : Nat × Nat}
    (h : pe ∈ insertPrime p fs) : pe.1 = p ∨ ∃ e, (pe.1, e) ∈ fs := by
  induction fs with
  | nil =>
    obtain rfl := List.mem_singleton.1 h
    exact .inl rfl
  | cons qe fs ih =>
    obtain ⟨q, e⟩ := qe
    unfold insertPrime at h
    split at h
    · rcases List.mem_cons.1 h with rfl | h
      · exact .inr ⟨e, List.mem_cons_self⟩
      · exact .inr ⟨pe.2, List.mem_cons_of_mem _ h⟩
    split at h
    · rcases List.mem_cons.1 h with rfl | h
      · exact .inl rfl
      · exact .inr ⟨pe.2, h⟩
    · rcases List.mem_cons.1 h with rfl | h
      · exact .inr ⟨e, List.mem_cons_self⟩
      · rcases ih h with hp | ⟨e', he'⟩
        · exact .inl hp
        · exact .inr ⟨e', List.mem_cons_of_mem _ he'⟩

theorem mem_foldr_insertPrime {ps : List Nat} {fs : List (Nat × Nat)} {pe : Nat × Nat}
    (h : pe ∈ ps.foldr insertPrime fs) : pe.1 ∈ ps ∨ ∃ e, (pe.1, e) ∈ fs := by
  induction ps generalizing pe with
  | nil => exact .inr ⟨pe.2, h⟩
  | cons p ps ih =>
    rcases mem_insertPrime h with hp | ⟨e, he⟩
    · exact .inl (hp ▸ List.mem_cons_self)
    · rcases ih he with hq | hfs
      · exact .inl (List.mem_cons_of_mem _ hq)
      · exact .inr hfs

/-- The bases of a factorization are two, or odd and larger than one: no even number other than two
is ever among them, prime or not. -/
theorem factorize_spec (n : Int) (l : Limits) :
    (factorize n l).Ensures fun r => ∀ fs, r = some fs →
      ∀ pe ∈ fs, 1 < pe.1 ∧ (pe.1 = 2 ∨ pe.1 % 2 = 1) := by
  unfold factorize
  split
  · refine .pure fun fs h => ?_
    cases h
  · rename_i hn
    have hpos : 0 < n.natAbs := by omega
    obtain ⟨hpowers, hdvd⟩ := trialDivide_spec trialDivisors hpos
    have hodd := trialDivide_odd hpos
    have hrest := Nat.pos_of_dvd_of_pos hdvd hpos
    intro g fs hfs pe hpe
    have hsplit := splits_splitCompletely l hrest g
    rw [Draw.run_bind] at hfs
    rcases hr : (splitCompletely (trialDivide trialDivisors n.natAbs).2 l).run.run g
      with ⟨_ | ps, g'⟩
    · rw [hr] at hfs
      cases hfs
    · rw [hr] at hfs hsplit
      cases hfs
      rcases mem_foldr_insertPrime hpe with hps | ⟨e, he⟩
      · have hstack : ∀ m ∈ [(trialDivide trialDivisors n.natAbs).2], 0 < m := by
          simpa using hrest
        obtain ⟨h1, m, hm, hpm⟩ := hsplit.mem hstack ps rfl _ hps
        obtain rfl := List.mem_singleton.1 hm
        refine ⟨h1, .inr ?_⟩
        have htwo : ¬ 2 ∣ pe.1 := fun h2 => by
          have := Nat.dvd_trans h2 hpm
          omega
        omega
      · exact trialDivisors_spec (hpowers (pe.1, e) he)

end CliffordT
