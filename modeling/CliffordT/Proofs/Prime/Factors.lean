/-
The factorization that comes out, and when there is one.

Nothing is lost on the way and nothing counted twice, whatever is drawn: the division by small numbers and
each splitting keep the product, and equal bases are merged where they meet. A base need not be a prime, but
a small one is. A number below 1024 still divides only when its own factors do, so it is a prime; and what is
left has no prime factor below 1031, so that a composite base is 1031² at least.

Only the splitting can give up, when a walk uses up its steps. It has nothing to do for a prime, which the
test accepts for every base, by Fermat's theorem. So a number of whose prime factors at most one is 1024 or
larger has its true factorization come out from every generator.
-/
import Mathlib.FieldTheory.Finite.Basic
import Mathlib.Logic.Relation
import Mathlib.Tactic.NormNum.Prime
import CliffordT.Proofs.Prime.SquareRoot

namespace CliffordT

/-! ## Lists of prime powers -/

/-- The list `fs` is a way to write `m` as a product of powers of increasing bases. -/
structure IsFactorization (m : Nat) (fs : List (Nat × Nat)) : Prop where
  prod_eq : (fs.map fun pe => pe.1 ^ pe.2).prod = m
  increasing : fs.Pairwise (·.1 < ·.1)
  two_le : ∀ pe ∈ fs, 2 ≤ pe.1
  one_le : ∀ pe ∈ fs, 1 ≤ pe.2

def primePowers (m : Nat) : List (Nat × Nat) :=
  m.primeFactorsList.dedup.map fun p => (p, m.primeFactorsList.count p)

theorem prod_insertPrime (p : Nat) (fs : List (Nat × Nat)) :
    ((insertPrime p fs).map fun pe => pe.1 ^ pe.2).prod = p * (fs.map fun pe => pe.1 ^ pe.2).prod := by
  induction fs with
  | nil => simp [insertPrime]
  | cons qe fs ih =>
    unfold insertPrime
    split
    · rename_i heq
      rw [List.map_cons, List.prod_cons, List.map_cons, List.prod_cons, pow_succ', heq, mul_assoc]
    split
    · rw [List.map_cons, List.prod_cons, pow_one]
    · rw [List.map_cons, List.prod_cons, ih, List.map_cons, List.prod_cons, mul_left_comm]

namespace IsFactorization

variable {m : Nat} {fs : List (Nat × Nat)}

theorem nil : IsFactorization 1 [] where
  prod_eq := rfl
  increasing := .nil
  two_le := fun _ h => absurd h List.not_mem_nil
  one_le := fun _ h => absurd h List.not_mem_nil

theorem cons {q e : Nat} (h : IsFactorization m fs) (hq : 2 ≤ q) (he : 1 ≤ e)
    (hlt : ∀ pe ∈ fs, q < pe.1) : IsFactorization (q ^ e * m) ((q, e) :: fs) where
  prod_eq := by rw [List.map_cons, List.prod_cons, h.prod_eq]
  increasing := List.pairwise_cons.2 ⟨hlt, h.increasing⟩
  two_le := List.forall_mem_cons.2 ⟨hq, h.two_le⟩
  one_le := List.forall_mem_cons.2 ⟨he, h.one_le⟩

/-- What follows the first power is a factorization of its cofactor. -/
theorem tail {q e : Nat} (h : IsFactorization m ((q, e) :: fs)) :
    ∃ m', IsFactorization m' fs ∧ m = q ^ e * m' := by
  refine ⟨_, ⟨rfl, h.increasing.of_cons, (List.forall_mem_cons.1 h.two_le).2,
    (List.forall_mem_cons.1 h.one_le).2⟩, ?_⟩
  rw [← h.prod_eq, List.map_cons, List.prod_cons]

theorem ne_zero (h : IsFactorization m fs) : m ≠ 0 := by
  rw [← h.prod_eq]
  refine List.prod_ne_zero fun h0 => ?_
  obtain ⟨pe, hpe, hpow⟩ := List.mem_map.1 h0
  have := h.two_le pe hpe
  exact absurd hpow (pow_ne_zero _ (by omega))

/-- One more factor goes into its place. -/
theorem insertPrime {p : Nat} (hp : 2 ≤ p) (h : IsFactorization m fs) :
    IsFactorization (p * m) (insertPrime p fs) where
  prod_eq := by rw [prod_insertPrime, h.prod_eq]
  two_le := by
    intro pe hpe
    rcases mem_insertPrime hpe with heq | ⟨e, he⟩
    · exact heq ▸ hp
    · exact h.two_le (pe.1, e) he
  increasing := by
    induction fs generalizing m with
    | nil => exact List.pairwise_singleton _ _
    | cons qe fs ih =>
      obtain ⟨m', htail, -⟩ := h.tail
      obtain ⟨hlt, hinc⟩ := List.pairwise_cons.1 h.increasing
      unfold CliffordT.insertPrime
      split
      · exact List.pairwise_cons.2 ⟨hlt, hinc⟩
      split
      · rename_i hpq
        refine List.pairwise_cons.2 ⟨List.forall_mem_cons.2 ⟨hpq, fun pe hpe => ?_⟩, h.increasing⟩
        exact hpq.trans (hlt pe hpe)
      · refine List.pairwise_cons.2 ⟨fun pe hpe => ?_, ih htail⟩
        rcases mem_insertPrime hpe with heq | ⟨e, he⟩
        · show qe.1 < pe.1
          omega
        · exact hlt (pe.1, e) he
  one_le := by
    induction fs generalizing m with
    | nil => simp [CliffordT.insertPrime]
    | cons qe fs ih =>
      obtain ⟨m', htail, -⟩ := h.tail
      obtain ⟨hone, hones⟩ := List.forall_mem_cons.1 h.one_le
      unfold CliffordT.insertPrime
      split
      · exact List.forall_mem_cons.2 ⟨by simp, hones⟩
      split
      · exact List.forall_mem_cons.2 ⟨le_refl 1, h.one_le⟩
      · exact List.forall_mem_cons.2 ⟨hone, ih htail⟩

theorem foldr_insertPrime {ps : List Nat} (hps : ∀ p ∈ ps, 2 ≤ p) (h : IsFactorization m fs) :
    IsFactorization (ps.prod * m) (ps.foldr CliffordT.insertPrime fs) := by
  induction ps with
  | nil => simpa using h
  | cons p ps ih =>
    obtain ⟨hp, hps⟩ := List.forall_mem_cons.1 hps
    rw [List.prod_cons, mul_assoc]
    exact (ih hps).insertPrime hp

end IsFactorization

/-- The prime factors of a number without small ones come after a power of a small prime. -/
theorem primeFactorsList_pow_mul {p e m : Nat} (hp : p.Prime) (hm : m ≠ 0)
    (hlt : ∀ r ∈ m.primeFactorsList, p < r) :
    (p ^ e * m).primeFactorsList = List.replicate e p ++ m.primeFactorsList := by
  have hperm := Nat.perm_primeFactorsList_mul (pow_ne_zero e hp.ne_zero) hm
  rw [hp.primeFactorsList_pow] at hperm
  refine hperm.eq_of_sortedLE (Nat.primeFactorsList_sorted _) (List.Pairwise.sortedLE ?_)
  refine List.pairwise_append.2 ⟨?_, (Nat.primeFactorsList_sorted m).pairwise, ?_⟩
  · exact List.pairwise_replicate.2 (.inr (le_refl p))
  · intro a ha b hb
    rw [List.eq_of_mem_replicate ha]
    exact (hlt b hb).le

/-- The power of a smaller prime comes first. -/
theorem primePowers_pow_mul {p e m : Nat} (hp : p.Prime) (he : 1 ≤ e) (hm : m ≠ 0)
    (hlt : ∀ r ∈ m.primeFactorsList, p < r) :
    primePowers (p ^ e * m) = (p, e) :: primePowers m := by
  have hnot : p ∉ m.primeFactorsList := fun h => absurd (hlt p h) (lt_irrefl p)
  have hdisj : (List.replicate e p).Disjoint m.primeFactorsList := by
    intro a ha
    rw [List.eq_of_mem_replicate ha]
    exact hnot
  unfold primePowers
  rw [primeFactorsList_pow_mul hp hm hlt, hdisj.dedup_append, List.replicate_dedup (by omega),
    List.cons_append, List.nil_append, List.map_cons, List.count_append, List.count_replicate_self,
    List.count_eq_zero_of_not_mem hnot, Nat.add_zero]
  refine congrArg _ (List.map_congr_left fun r hr => ?_)
  have hne : ¬ p = r := fun heq => hnot (heq ▸ List.mem_dedup.1 hr)
  rw [List.count_append, List.count_replicate, beq_eq_false_iff_ne.2 hne, if_neg Bool.false_ne_true,
    Nat.zero_add]

/-- **The factorization into primes is unique.** -/
theorem IsFactorization.eq_primePowers {m : Nat} {fs : List (Nat × Nat)} (h : IsFactorization m fs)
    (hprime : ∀ pe ∈ fs, pe.1.Prime) : fs = primePowers m := by
  induction fs generalizing m with
  | nil =>
    obtain rfl : 1 = m := h.prod_eq
    simp [primePowers]
  | cons pe fs ih =>
    obtain ⟨p, e⟩ := pe
    obtain ⟨hp, hprimes⟩ := List.forall_mem_cons.1 hprime
    obtain ⟨m', htail, rfl⟩ := h.tail
    have heq := ih htail hprimes
    -- the primes of the cofactor are the bases that follow, so they are larger
    have hlt : ∀ r ∈ m'.primeFactorsList, p < r := by
      intro r hr
      have hmem : (r, m'.primeFactorsList.count r) ∈ fs := by
        rw [heq]
        exact List.mem_map.2 ⟨r, List.mem_dedup.2 hr, rfl⟩
      exact (List.pairwise_cons.1 h.increasing).1 _ hmem
    rw [primePowers_pow_mul hp (h.one_le _ List.mem_cons_self) htail.ne_zero hlt, ← heq]

/-! ## The division by small numbers -/

/-- One round of the loop over the small numbers, with the number to divide by, what is left, and the powers
found so far. -/
def trialStep : Nat × Nat × List (Nat × Nat) →
    (Nat × Nat × List (Nat × Nat)) ⊕ (List (Nat × Nat) × Nat)
  | (q, m, powers) =>
    if q < 1024 ∧ 1 < m then
      let (e, m') := removeFactor q m
      .inl (if q = 2 then q + 1 else q + 2, m', if e = 0 then powers else powers ++ [(q, e)])
    else .inr (powers, m)

/-- A round and the rounds after it do what the recursion does with the first of its numbers. -/
theorem LoopEnds.trialStep_cons {q q' m : Nat} {qs : List Nat} {powers : List (Nat × Nat)} (hq : q < 1024)
    (hnext : (if q = 2 then q + 1 else q + 2) = q')
    (hrest : ∀ powers, LoopEnds trialStep (q', (removeFactor q m).2, powers)
      (powers ++ (trialDivide qs (removeFactor q m).2).1, (trialDivide qs (removeFactor q m).2).2)) :
    LoopEnds trialStep (q, m, powers)
      (powers ++ (trialDivide (q :: qs) m).1, (trialDivide (q :: qs) m).2) := by
  unfold trialDivide
  by_cases hm : m ≤ 1
  · rw [if_pos hm, List.append_nil]
    exact .done (if_neg fun h => by omega)
  · rw [if_neg hm]
    refine .next (if_pos ⟨hq, by omega⟩) ?_
    rw [hnext]
    dsimp only
    split
    · exact hrest powers
    · have hends := hrest (powers ++ [(q, (removeFactor q m).1)])
      rw [List.append_assoc, List.singleton_append] at hends
      exact hends

theorem trialStep_ends_odd (k q m : Nat) (powers : List (Nat × Nat)) (hodd : q % 2 = 1)
    (hq : q + 2 * k = 1025) :
    LoopEnds trialStep (q, m, powers)
      (powers ++ (trialDivide ((List.range k).map fun i => 2 * i + q) m).1,
        (trialDivide ((List.range k).map fun i => 2 * i + q) m).2) := by
  induction k generalizing q m powers with
  | zero =>
    rw [List.range_zero, List.map_nil, trialDivide, List.append_nil]
    exact .done (if_neg fun h => by omega)
  | succ k ih =>
    have hrange : (List.range (k + 1)).map (fun i => 2 * i + q)
        = q :: (List.range k).map fun i => 2 * i + (q + 2) := by
      rw [List.range_succ_eq_map, List.map_cons, List.map_map, Nat.mul_zero, Nat.zero_add]
      refine congrArg _ (List.map_congr_left fun i _ => ?_)
      simp only [Function.comp_apply]
      omega
    rw [hrange]
    refine .trialStep_cons (by omega) (if_neg (by omega)) fun powers => ?_
    exact ih (q + 2) _ powers (by omega) (by omega)

/-- The loop over the small numbers ends, and does what the recursion over their list does. -/
theorem trialStep_ends (m : Nat) : LoopEnds trialStep (2, m, []) (trialDivide trialDivisors m) := by
  have hodd (m : Nat) (powers : List (Nat × Nat)) :=
    trialStep_ends_odd 511 3 m powers (by decide) (by decide)
  have hends : LoopEnds trialStep (2, m, [])
      ([] ++ (trialDivide trialDivisors m).1, (trialDivide trialDivisors m).2) :=
    .trialStep_cons (by decide) (if_pos rfl) (hodd _)
  rw [List.nil_append] at hends
  exact hends

/-- The powers that are divided out, and what is left, make up the number. -/
theorem exists_isFactorization_trialDivide {qs : List Nat} (hsorted : qs.Pairwise (· < ·))
    (hqs : ∀ q ∈ qs, 2 ≤ q) {m : Nat} (hm : 0 < m) :
    ∃ k, IsFactorization k (trialDivide qs m).1 ∧ k * (trialDivide qs m).2 = m := by
  induction qs generalizing m with
  | nil => exact ⟨1, .nil, Nat.one_mul m⟩
  | cons q qs ih =>
    unfold trialDivide
    by_cases hm1 : m ≤ 1
    · rw [if_pos hm1]
      exact ⟨1, .nil, Nat.one_mul m⟩
    rw [if_neg hm1]
    obtain ⟨hlt, hsorted⟩ := List.pairwise_cons.1 hsorted
    obtain ⟨hq, hqs⟩ := List.forall_mem_cons.1 hqs
    have hpos : 0 < (removeFactor q m).2 := Nat.pos_of_dvd_of_pos (removeFactor_dvd q m) hm
    have hmul := pow_mul_removeFactor q m
    rw [Nat.pow_eq] at hmul
    obtain ⟨k, hk, hkm⟩ := ih hsorted hqs hpos
    have hbase := (trialDivide_spec qs hpos).1
    generalize removeFactor q m = r at hmul hk hkm hbase ⊢
    obtain ⟨e, m'⟩ := r
    dsimp only at hmul hk hkm hbase ⊢
    by_cases he : e = 0
    · rw [if_pos he]
      rw [he, pow_zero, Nat.one_mul] at hmul
      exact ⟨k, hk, hkm.trans hmul⟩
    · rw [if_neg he]
      refine ⟨q ^ e * k, hk.cons hq (by omega) fun pe hpe => hlt _ (hbase pe hpe), ?_⟩
      rw [Nat.mul_assoc, hkm, hmul]

/-- The first number of a sorted list is a prime, when it divides and every prime factor is in the list or
larger than all of it: a smaller prime factor would divide as well. -/
theorem prime_of_dvd {q : Nat} {qs : List Nat} (hq : 2 ≤ q) (hlt : ∀ q' ∈ qs, q < q') {m : Nat}
    (hall : ∀ r, r.Prime → r ∣ m → r ∈ q :: qs ∨ ∀ q' ∈ q :: qs, q' < r) (hdvd : q ∣ m) : q.Prime := by
  have hmin := Nat.minFac_prime (n := q) (by omega)
  have hle : q ≤ q.minFac := by
    rcases hall _ hmin ((Nat.minFac_dvd q).trans hdvd) with h | h
    · rcases List.mem_cons.1 h with heq | h
      · exact heq.ge
      · exact (hlt _ h).le
    · exact (h q List.mem_cons_self).le
  exact (Nat.le_antisymm (Nat.minFac_le (by omega)) hle) ▸ hmin

/-- **A number of the list that divides is a prime**, and what is left has only larger prime factors, where
every prime factor is in the list or larger than all of it. -/
theorem prime_of_trialDivide {qs : List Nat} (hsorted : qs.Pairwise (· < ·)) (hqs : ∀ q ∈ qs, 2 ≤ q)
    {m : Nat} (hm : 0 < m) (hall : ∀ r, r.Prime → r ∣ m → r ∈ qs ∨ ∀ q ∈ qs, q < r) :
    (∀ pe ∈ (trialDivide qs m).1, pe.1.Prime) ∧
      ∀ r, r.Prime → r ∣ (trialDivide qs m).2 → ∀ q ∈ qs, q < r := by
  induction qs generalizing m with
  | nil => exact ⟨fun _ h => absurd h List.not_mem_nil, fun _ _ _ _ h => absurd h List.not_mem_nil⟩
  | cons q qs ih =>
    unfold trialDivide
    by_cases hm1 : m ≤ 1
    · rw [if_pos hm1]
      obtain rfl : m = 1 := by omega
      exact ⟨fun _ h => absurd h List.not_mem_nil, fun r hr h => absurd (Nat.dvd_one.1 h) hr.ne_one⟩
    rw [if_neg hm1]
    obtain ⟨hlt, hsorted⟩ := List.pairwise_cons.1 hsorted
    obtain ⟨hq, hqs⟩ := List.forall_mem_cons.1 hqs
    have hdvd := removeFactor_dvd q m
    have hpos : 0 < (removeFactor q m).2 := Nat.pos_of_dvd_of_pos hdvd hm
    have hnot := not_dvd_removeFactor (q := q) (by omega) m hm
    obtain ⟨hprimes, hlarge⟩ := ih hsorted hqs hpos fun r hr hrm => by
      rcases hall r hr (hrm.trans hdvd) with h | h
      · refine .inl ((List.mem_cons.1 h).resolve_left ?_)
        rintro rfl
        exact hnot hrm
      · exact .inr fun q' hq' => h q' (List.mem_cons_of_mem _ hq')
    have hrest := (trialDivide_spec qs hpos).2
    refine ⟨?_, fun r hr hrm => ?_⟩
    · dsimp only
      split
      · exact hprimes
      rename_i he
      refine List.forall_mem_cons.2 ⟨prime_of_dvd hq hlt hall ?_, hprimes⟩
      by_contra h
      rw [removeFactor_of_not_dvd fun h0 => h (Nat.dvd_of_mod_eq_zero h0)] at he
      exact he rfl
    · have hrm' := hrm.trans hrest
      rcases hall r hr (hrm'.trans hdvd) with h | h
      · rcases List.mem_cons.1 h with rfl | h
        · exact absurd hrm' hnot
        · exact absurd (hlarge r hr hrm r h) (lt_irrefl r)
      · exact h

theorem trialDivisors_sorted : trialDivisors.Pairwise (· < ·) := by
  refine List.pairwise_cons.2 ⟨fun q hq => ?_, List.pairwise_map.2 ?_⟩
  · obtain ⟨i, -, rfl⟩ := List.mem_map.1 hq
    omega
  · refine List.pairwise_lt_range.imp fun h => ?_
    omega

/-- A prime is among the small numbers, or larger than all of them. -/
theorem mem_trialDivisors_or_lt {r : Nat} (hr : r.Prime) :
    r ∈ trialDivisors ∨ ∀ q ∈ trialDivisors, q < r := by
  have hmem : r ∈ trialDivisors ∨ 1024 ≤ r := by
    rcases hr.eq_two_or_odd with rfl | hodd
    · exact .inl List.mem_cons_self
    by_cases hlt : r < 1024
    · have hr2 := hr.two_le
      refine .inl (List.mem_cons_of_mem _ (List.mem_map.2 ⟨(r - 3) / 2, List.mem_range.2 ?_, ?_⟩)) <;>
        omega
    · exact .inr (Nat.le_of_not_lt hlt)
  refine hmem.imp_right fun hle q hq => ?_
  rcases List.mem_cons.1 hq with rfl | hq
  · omega
  · obtain ⟨i, hi, rfl⟩ := List.mem_map.1 hq
    have := List.mem_range.1 hi
    omega

theorem two_le_of_mem_trialDivisors (q : Nat) (hq : q ∈ trialDivisors) : 2 ≤ q := (trialDivisors_spec hq).1

section Rest

variable {m : Nat} (hm : 0 < m)
include hm

theorem trialDivide_rest_pos : 0 < (trialDivide trialDivisors m).2 :=
  Nat.pos_of_dvd_of_pos (trialDivide_spec trialDivisors hm).2 hm

theorem exists_isFactorization_powers :
    ∃ k, IsFactorization k (trialDivide trialDivisors m).1 ∧ k * (trialDivide trialDivisors m).2 = m :=
  exists_isFactorization_trialDivide trialDivisors_sorted two_le_of_mem_trialDivisors hm

theorem prime_of_trialDivisors :
    (∀ pe ∈ (trialDivide trialDivisors m).1, pe.1.Prime) ∧
      ∀ r, r.Prime → r ∣ (trialDivide trialDivisors m).2 → ∀ q ∈ trialDivisors, q < r :=
  prime_of_trialDivide trialDivisors_sorted two_le_of_mem_trialDivisors hm
    fun _ hr _ => mem_trialDivisors_or_lt hr

/-- The numbers from 1024 to 1030 are composite, so no prime factor of what is left is below 1031. -/
theorem le_of_prime_dvd_rest {r : Nat} (hr : r.Prime) (h : r ∣ (trialDivide trialDivisors m).2) :
    1031 ≤ r := by
  have hlast : 1023 ∈ trialDivisors :=
    List.mem_cons_of_mem _ (List.mem_map.2 ⟨510, List.mem_range.2 (by decide), rfl⟩)
  have hlarge := (prime_of_trialDivisors hm).2 r hr h 1023 hlast
  by_contra hlt
  interval_cases r <;> norm_num at hr

/-- A divisor of what is left that is below 1031² is a prime. -/
theorem prime_of_dvd_rest {p : Nat} (hp : 1 < p) (hlt : p < 1031 ^ 2)
    (h : p ∣ (trialDivide trialDivisors m).2) : p.Prime := by
  by_contra hnot
  have hmin := Nat.minFac_prime (n := p) (by omega)
  have hle := le_of_prime_dvd_rest hm hmin ((Nat.minFac_dvd p).trans h)
  have hsq := Nat.minFac_sq_le_self (by omega) hnot
  have : 1031 ^ 2 ≤ p.minFac ^ 2 := Nat.pow_le_pow_left hle 2
  omega

/-- Where at most one prime factor is 1024 or larger, one or a prime is left. -/
theorem rest_eq_one_or_prime (h : m.primeFactorsList.countP (1024 ≤ ·) ≤ 1) :
    (trialDivide trialDivisors m).2 = 1 ∨ (trialDivide trialDivisors m).2.Prime := by
  obtain ⟨k, hk, hmul⟩ := exists_isFactorization_powers hm
  have hlarge := fun r hr => le_of_prime_dvd_rest (r := r) hm hr
  have hpos := trialDivide_rest_pos hm
  generalize (trialDivide trialDivisors m).2 = rest at hmul hlarge hpos ⊢
  have hcount : rest.primeFactorsList.countP (1024 ≤ ·) = rest.primeFactorsList.length := by
    refine List.countP_eq_length.2 fun r hr => ?_
    have hle := hlarge r (Nat.prime_of_mem_primeFactorsList hr) (Nat.dvd_of_mem_primeFactorsList hr)
    exact decide_eq_true (by omega)
  have hperm := Nat.perm_primeFactorsList_mul hk.ne_zero hpos.ne'
  rw [hmul] at hperm
  rw [hperm.countP_eq, List.countP_append, hcount] at h
  have hprod := Nat.prod_primeFactorsList hpos.ne'
  match hl : rest.primeFactorsList with
  | [] =>
    rw [hl] at hprod
    exact .inl hprod.symm
  | [r] =>
    rw [hl, List.prod_singleton] at hprod
    exact .inr (hprod ▸ Nat.prime_of_mem_primeFactorsList (hl ▸ List.mem_singleton_self r))
  | _ :: _ :: _ =>
    rw [hl] at h
    simp only [List.length_cons] at h
    omega

end Rest

/-! ## The test accepts every prime -/

/-- No base from 2 to `p - 2` shows a prime to be composite. -/
theorem passesFermat_of_prime {p : Nat} (hp : p.Prime) (hp4 : 4 ≤ p) (rounds : Nat) :
    (passesFermat p rounds).Ensures (· = true) := by
  have : Fact p.Prime := ⟨hp⟩
  induction rounds with
  | zero => exact .pure rfl
  | succ rounds ih =>
    unfold passesFermat
    refine .bind (Draw.below_lt (by omega)) fun a ha => ?_
    have hne : ((a + 2 : Nat) : ZMod p) ≠ 0 := by
      rw [Ne, ZMod.natCast_eq_zero_iff]
      exact Nat.not_dvd_of_pos_of_lt (by omega) (by omega)
    have hone : powMod (a + 2) (p - 1) p = 1 := by
      rw [← cast_eq_one_iff hp.one_lt (powMod_lt _ _ hp.pos), cast_powMod,
        ZMod.pow_card_sub_one_eq_one hne]
    rw [if_pos hone]
    exact ih

theorem isProbablePrime_of_prime {p : Nat} (hp : p.Prime) (rounds : Nat) :
    (isProbablePrime p rounds).Ensures (· = true) := by
  have hp2 := hp.two_le
  unfold isProbablePrime
  rw [if_neg (by omega)]
  split
  · exact .pure rfl
  rename_i h4
  have hodd : p % 2 = 1 := hp.eq_two_or_odd.resolve_left (by omega)
  rw [if_neg (by omega), Int.toNat_natCast]
  exact passesFermat_of_prime hp (by omega) rounds

/-! ## A walk that runs out -/

/-- A walk on `m` that makes so many steps, in none of which the distance of the walkers has a proper divisor
in common with `m`: they are apart, or meet and start again elsewhere. -/
inductive Walk.RunsOut (m : Nat) : Nat → Walk → Generator → Prop
  | done {w : Walk} {g : Generator} : RunsOut m 0 w g
  | apart {k : Nat} {w : Walk} {g : Generator} (hd : (w.advance m).commonDivisor m = 1)
      (tail : RunsOut m k (w.advance m) g) : RunsOut m (k + 1) w g
  | meet {k x : Nat} {w : Walk} {g g' : Generator} (hd : (w.advance m).commonDivisor m = m)
      (hx : (Generator.below m).run g = (x, g')) (tail : RunsOut m k ⟨x, x, w.addend + 1⟩ g') :
      RunsOut m (k + 1) w g

/-- **No divisor is found just when the walk makes all its steps** without one. -/
theorem findDivisor_eq_none_iff {m : Nat} (hm : 1 < m) (effort : Nat) (w : Walk) (g : Generator) :
    ((findDivisor m effort w).run g).1 = none ↔ w.RunsOut m effort g := by
  induction effort generalizing w g with
  | zero => exact ⟨fun _ => .done, fun _ => rfl⟩
  | succ effort ih =>
    unfold findDivisor
    simp only [Int.natAbs_natCast, Nat.cast_inj]
    constructor
    · intro h
      split at h
      · rename_i hd
        exact .meet hd rfl ((ih _ _).1 h)
      split at h
      · rename_i hd
        exact .apart hd ((ih _ _).1 h)
      · cases h
    · intro h
      cases h with
      | apart hd tail =>
        rw [if_neg (by omega), if_pos hd]
        exact (ih _ _).2 tail
      | meet hd hx tail =>
        rw [if_pos hd, Draw.run_bind, hx]
        exact (ih _ _).2 tail

/-! ## The run of the splitting -/

/-- One step of the splitting: the first of the numbers that wait is dropped, kept, or split. -/
inductive SplitStep (l : Limits) : List Nat × Generator → List Nat × Generator → Prop
  | one {stack : List Nat} {g : Generator} : SplitStep l (1 :: stack, g) (stack, g)
  | prime {n : Nat} {stack : List Nat} {g g' : Generator} (hn : n ≠ 1)
      (hp : (isProbablePrime n l.fermatRounds).run g = (true, g')) :
      SplitStep l (n :: stack, g) (stack, g')
  | split {n d : Nat} {stack : List Nat} {g g₁ g' : Generator} (hn : n ≠ 1)
      (hp : (isProbablePrime n l.fermatRounds).run g = (false, g₁))
      (hd : (divisor? n l.factorEffort).run g₁ = (some d, g')) :
      SplitStep l (n :: stack, g) (d :: n / d :: stack, g')

/-- A step leaves divisors of a number where it finds divisors of it. -/
theorem SplitStep.dvd {l : Limits} {N : Nat} (hN : 0 < N) {s s' : List Nat × Generator} (h : SplitStep l s s')
    (hs : ∀ n ∈ s.1, n ∣ N) : ∀ n ∈ s'.1, n ∣ N := by
  cases h with
  | one => exact (List.forall_mem_cons.1 hs).2
  | prime => exact (List.forall_mem_cons.1 hs).2
  | @split n _ _ _ _ _ hn hp hd =>
    obtain ⟨hnN, hstack⟩ := List.forall_mem_cons.1 hs
    have hdn := (divisor_of_refused (Nat.pos_of_dvd_of_pos hnN hN) hn hp hd).1
    exact List.forall_mem_cons.2 ⟨hdn.trans hnN,
      List.forall_mem_cons.2 ⟨(Nat.div_dvd_of_dvd hdn).trans hnN, hstack⟩⟩

theorem dvd_of_splitSteps {l : Limits} {N : Nat} (hN : 0 < N) {s s' : List Nat × Generator}
    (h : Relation.ReflTransGen (SplitStep l) s s') (hs : ∀ n ∈ s.1, n ∣ N) : ∀ n ∈ s'.1, n ∣ N := by
  induction h with
  | refl => exact hs
  | tail _ hstep ih => exact hstep.dvd hN ih

/-- A run that gives up comes to a number which the test refuses and in which no divisor is found. -/
theorem Splits.exists_stuck {l : Limits} {stack : List Nat} {g g' : Generator} {r : Option (List Nat)}
    (h : Splits l stack g r g') (hr : r = none) :
    ∃ n rest g₀ g₁, Relation.ReflTransGen (SplitStep l) (stack, g) (n :: rest, g₀) ∧ n ≠ 1 ∧
      (isProbablePrime n l.fermatRounds).run g₀ = (false, g₁) ∧
      ((divisor? n l.factorEffort).run g₁).1 = none := by
  induction h with
  | done => cases hr
  | one _ ih =>
    obtain ⟨n, rest, g₀, g₁, hrun, hstuck⟩ := ih hr
    exact ⟨n, rest, g₀, g₁, .head .one hrun, hstuck⟩
  | prime hn hp _ ih =>
    obtain ⟨n, rest, g₀, g₁, hrun, hstuck⟩ := ih (Option.map_eq_none_iff.1 hr)
    exact ⟨n, rest, g₀, g₁, .head (.prime hn hp) hrun, hstuck⟩
  | @stuck n rest g g₁ _ hn hp hd => exact ⟨n, rest, g, g₁, .refl, hn, hp, by rw [hd]⟩
  | split hn hp hd _ ih =>
    obtain ⟨n, rest, g₀, g₁, hrun, hstuck⟩ := ih hr
    exact ⟨n, rest, g₀, g₁, .head (.split hn hp hd) hrun, hstuck⟩

/-- The numbers that come out have the product of those on the stack. -/
theorem Splits.prod_eq {l : Limits} {stack : List Nat} {g g' : Generator} {r : Option (List Nat)}
    (h : Splits l stack g r g') (hpos : ∀ n ∈ stack, 0 < n) :
    ∀ ps, r = some ps → ps.prod = stack.prod := by
  induction h with
  | done =>
    intro ps hps
    cases hps
    rfl
  | one _ ih =>
    intro ps hps
    rw [List.prod_cons, Nat.one_mul, ih (List.forall_mem_cons.1 hpos).2 ps hps]
  | prime _ _ _ ih =>
    intro ps hps
    obtain ⟨qs, hqs, rfl⟩ := Option.map_eq_some_iff.1 hps
    rw [List.prod_cons, List.prod_cons, ih (List.forall_mem_cons.1 hpos).2 qs hqs]
  | stuck =>
    intro ps hps
    cases hps
  | @split n d rest _ _ _ _ _ hn hp hd _ ih =>
    intro ps hps
    obtain ⟨hn0, hrest⟩ := List.forall_mem_cons.1 hpos
    obtain ⟨hdvd, hd1, hlt⟩ := divisor_of_refused hn0 hn hp hd
    have hcofactor : 0 < n / d := Nat.div_pos hlt.le (by omega)
    rw [ih (List.forall_mem_cons.2 ⟨by omega, List.forall_mem_cons.2 ⟨hcofactor, hrest⟩⟩) ps hps,
      List.prod_cons, List.prod_cons, List.prod_cons, ← Nat.mul_assoc, Nat.mul_div_cancel' hdvd]

/-! ## Factorizations -/

section Factorize

variable {n : Int} (hn : n ≠ 0) (l : Limits) (g : Generator)
include hn

/-- What the splitting finds is merged with the powers of the small primes. -/
theorem run_factorize :
    ((factorize n l).run g).1
      = ((splitCompletely (trialDivide trialDivisors n.natAbs).2 l).run.run g).1.map fun ps =>
          ps.foldr insertPrime (trialDivide trialDivisors n.natAbs).1 := by
  unfold factorize
  rw [if_neg hn]
  dsimp only
  rw [Draw.run_bind]
  cases ((splitCompletely (trialDivide trialDivisors n.natAbs).2 l).run.run g).1 with
  | none => rfl
  | some ps => rfl

/-- A factorization that is given multiplies back, and its small bases are primes. -/
theorem factorize_sound {fs : List (Nat × Nat)} (h : ((factorize n l).run g).1 = some fs) :
    IsFactorization n.natAbs fs ∧ ∀ pe ∈ fs, pe.1 < 1031 ^ 2 → pe.1.Prime := by
  have hm : 0 < n.natAbs := Int.natAbs_pos.2 hn
  have hrest := trialDivide_rest_pos hm
  rw [run_factorize hn] at h
  obtain ⟨ps, hps, rfl⟩ := Option.map_eq_some_iff.1 h
  have hsplits := splits_splitCompletely l hrest g
  have hstack := List.forall_mem_singleton.2 hrest
  have hmem := hsplits.mem hstack ps hps
  have hprod := hsplits.prod_eq hstack ps hps
  rw [List.prod_singleton] at hprod
  obtain ⟨k, hk, hmul⟩ := exists_isFactorization_powers hm
  constructor
  · have hfold := hk.foldr_insertPrime fun p hp => (hmem p hp).1
    rwa [hprod, Nat.mul_comm, hmul] at hfold
  · intro pe hpe hlt
    rcases mem_foldr_insertPrime hpe with hp | ⟨e, he⟩
    · obtain ⟨h1, r, hr, hdvd⟩ := hmem _ hp
      obtain rfl := List.mem_singleton.1 hr
      exact prime_of_dvd_rest hm h1 hlt hdvd
    · exact (prime_of_trialDivisors hm).1 (pe.1, e) he

/-- With at most one prime factor from 1024 on, the true factorization is given. -/
theorem factorize_eq_primePowers (h : n.natAbs.primeFactorsList.countP (1024 ≤ ·) ≤ 1) :
    ((factorize n l).run g).1 = some (primePowers n.natAbs) := by
  have hm : 0 < n.natAbs := Int.natAbs_pos.2 hn
  have hsplit : ∃ ps, ((splitCompletely (trialDivide trialDivisors n.natAbs).2 l).run.run g).1 = some ps ∧
      ∀ p ∈ ps, p.Prime := by
    rcases rest_eq_one_or_prime hm h with hone | hprime
    · rw [hone, splitCompletely, if_pos (le_refl 1)]
      exact ⟨[], rfl, fun _ hp => absurd hp List.not_mem_nil⟩
    · generalize (trialDivide trialDivisors n.natAbs).2 = p at hprime ⊢
      have htrue : (isProbablePrime p l.fermatRounds).run g
          = (true, ((isProbablePrime p l.fermatRounds).run g).2) :=
        Prod.ext (isProbablePrime_of_prime hprime _ g) rfl
      rw [splitCompletely_of_prime (Nat.not_le.2 hprime.one_lt) htrue]
      exact ⟨[p], rfl, List.forall_mem_singleton.2 hprime⟩
  obtain ⟨ps, hps, hprimes⟩ := hsplit
  have hrun := run_factorize hn l g
  rw [hps, Option.map_some] at hrun
  rw [hrun, (factorize_sound hn l g hrun).1.eq_primePowers fun pe hpe => ?_]
  rcases mem_foldr_insertPrime hpe with hp | ⟨e, he⟩
  · exact hprimes _ hp
  · exact (prime_of_trialDivisors hm).1 (pe.1, e) he

/-- Where no factorization is given, a walk on a composite divisor has run out. -/
theorem exists_runsOut_of_factorize (h : ((factorize n l).run g).1 = none) :
    ∃ m stack g₀ g₁, Relation.ReflTransGen (SplitStep l)
        ([(trialDivide trialDivisors n.natAbs).2], g) (m :: stack, g₀) ∧
      m ∣ n.natAbs ∧ 1 < m ∧ ¬ m.Prime ∧
      (isProbablePrime m l.fermatRounds).run g₀ = (false, g₁) ∧
      Walk.RunsOut m l.factorEffort ⟨2, 2, 1⟩ g₁ := by
  have hm : 0 < n.natAbs := Int.natAbs_pos.2 hn
  have hrest := trialDivide_rest_pos hm
  rw [run_factorize hn, Option.map_eq_none_iff] at h
  obtain ⟨m, stack, g₀, g₁, hsteps, hne, hp, hd⟩ := (splits_splitCompletely l hrest g).exists_stuck h
  have hdvd : m ∣ (trialDivide trialDivisors n.natAbs).2 :=
    dvd_of_splitSteps hrest hsteps (List.forall_mem_singleton.2 (dvd_refl _)) m List.mem_cons_self
  have hodd : m % 2 = 1 := by
    have hrest2 := trialDivide_odd hm
    by_contra heven
    have : 2 ∣ (trialDivide trialDivisors n.natAbs).2 :=
      (Nat.dvd_of_mod_eq_zero (by omega)).trans hdvd
    omega
  have hdvdN : m ∣ n.natAbs := hdvd.trans (trialDivide_spec trialDivisors hm).2
  refine ⟨m, stack, g₀, g₁, hsteps, hdvdN, by omega, ?_, hp, ?_⟩
  · intro hprime
    have htrue := isProbablePrime_of_prime hprime l.fermatRounds g₀
    rw [hp] at htrue
    cases htrue
  · unfold divisor? at hd
    rw [if_neg (by omega)] at hd
    exact (findDivisor_eq_none_iff (by omega) _ _ _).1 hd

/-- **Factoring an integer.** All loops end. What is given multiplies back to the absolute value, by powers of
increasing bases, and the bases below 1031² are primes. With at most one prime factor from 1024 on, it is the
true factorization, for the test accepts every prime. A divisor of a number that the test refuses is a proper
one, so that nothing is given only where a walk on such a number has run out. -/
theorem factorize_correct :
    (LoopEnds trialStep (2, n.natAbs, []) (trialDivide trialDivisors n.natAbs) ∧
      (∀ q ∈ trialDivisors, ∀ m, 0 < m → LoopEnds (divideStep q) (0, m) (removeFactor q m)) ∧
      Splits l [(trialDivide trialDivisors n.natAbs).2] g
        ((splitCompletely (trialDivide trialDivisors n.natAbs).2 l).run.run g).1
        ((splitCompletely (trialDivide trialDivisors n.natAbs).2 l).run.run g).2) ∧
    (∀ fs, ((factorize n l).run g).1 = some fs →
      IsFactorization n.natAbs fs ∧ ∀ pe ∈ fs, pe.1 < 1031 ^ 2 → pe.1.Prime) ∧
    (n.natAbs.primeFactorsList.countP (1024 ≤ ·) ≤ 1 →
      ((factorize n l).run g).1 = some (primePowers n.natAbs)) ∧
    (∀ p rounds : Nat, p.Prime → (isProbablePrime p rounds).Ensures (· = true)) ∧
    (∀ (m d rounds effort : Nat) (g₀ g₁ g₂ : Generator), 1 < m →
      (isProbablePrime m rounds).run g₀ = (false, g₁) →
      (divisor? m effort).run g₁ = (some d, g₂) → d ∣ m ∧ 1 < d ∧ d < m) ∧
    (((factorize n l).run g).1 = none →
      ∃ m stack g₀ g₁, Relation.ReflTransGen (SplitStep l)
          ([(trialDivide trialDivisors n.natAbs).2], g) (m :: stack, g₀) ∧
        m ∣ n.natAbs ∧ 1 < m ∧ ¬ m.Prime ∧
        (isProbablePrime m l.fermatRounds).run g₀ = (false, g₁) ∧
        Walk.RunsOut m l.factorEffort ⟨2, 2, 1⟩ g₁) := by
  have hm : 0 < n.natAbs := Int.natAbs_pos.2 hn
  refine ⟨⟨trialStep_ends n.natAbs, fun q hq m hm => ?_,
    splits_splitCompletely l (trialDivide_rest_pos hm) g⟩, fun fs => factorize_sound hn l g,
    factorize_eq_primePowers hn l g, fun p rounds hp => isProbablePrime_of_prime hp rounds, ?_,
    exists_runsOut_of_factorize hn l g⟩
  · have hends := divideStep_ends (trialDivisors_spec hq).1 0 m hm
    simpa using hends
  · intro m d rounds effort g₀ g₁ g₂ hm1
    exact divisor_of_refused (by omega) (by omega)

end Factorize

/-- A number with one large prime factor comes out in full, also where a walk may not make a single step. -/
theorem factorize_correct_one_large :
    (-18558 : Int) ≠ 0 ∧ (-18558 : Int).natAbs.primeFactorsList.countP (1024 ≤ ·) ≤ 1 ∧
      ((factorize (-18558) ⟨0, 0, 0, 1, 0⟩).run (Generator.ofSeed 0)).1
        = some [(2, 1), (3, 2), (1031, 1)] := by
  obtain ⟨-, -, hcomplete, -⟩ := factorize_correct (n := -18558) (by decide) ⟨0, 0, 0, 1, 0⟩
    (Generator.ofSeed 0)
  have hprime : Nat.Prime 1031 := by norm_num
  have hcount : (-18558 : Int).natAbs.primeFactorsList.countP (1024 ≤ ·) ≤ 1 := by
    have hperm := Nat.primeFactorsList_unique (n := (-18558 : Int).natAbs) (l := [2, 3, 3, 1031]) rfl
      (by simp [Nat.prime_two, Nat.prime_three, hprime])
    rw [← hperm.countP_eq]
    decide
  have hfs : IsFactorization 18558 [(2, 1), (3, 2), (1031, 1)] :=
    ⟨by decide, by decide, by decide, by decide⟩
  have heq := hfs.eq_primePowers (by simp [Nat.prime_two, Nat.prime_three, hprime])
  exact ⟨by decide, hcount, by rw [heq, hcomplete hcount]; rfl⟩

end CliffordT
