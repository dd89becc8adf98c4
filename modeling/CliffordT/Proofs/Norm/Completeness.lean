/-
The construction of a solution prime by prime is complete.

The part over each prime has a norm that divides `ξ` and takes the whole power of the prime out of
the norm of `ξ`; or there is no solution. Parts over different primes have coprime norms, so that
the norm of their product divides `ξ` with a unit as the quotient. This unit is totally positive, and
so an even power of `λ`.

That a part is found needs the roots that the loop asks for. `AsksRoot` says which calls these are,
each with the state of the generator in which it is made.
-/
import CliffordT.Proofs.Norm.PrimeParts
import CliffordT.Proofs.Ring.Units

namespace CliffordT.NormEquation

/-- A factorization of a number into powers of different primes. -/
structure IsPrimeFactorization (n : Int) (fs : List (Nat × Nat)) : Prop where
  prime : ∀ pe ∈ fs, pe.1.Prime
  pos : ∀ pe ∈ fs, 0 < pe.2
  nodup : (fs.map Prod.fst).Nodup
  prod : (fs.map fun pe => pe.1 ^ pe.2).prod = n.natAbs

/-- The roots that the loop over a factorization asks for: `AsksRoot xi attempts fs s a p g` holds
when the loop over `fs` from the state `s` looks for a root of `a` modulo `p` with the generator in
the state `g`. -/
inductive AsksRoot (xi : ZSqrt2) (attempts : Nat) :
    List (Nat × Nat) → SearchState → Int → Nat → Generator → Prop
  | three {p e : Nat} {rest : List (Nat × Nat)} {s : SearchState} (h : p % 8 = 3)
      (he : e % 2 = 0) : AsksRoot xi attempts ((p, e) :: rest) s (-2) p s.generator
  | five {p e : Nat} {rest : List (Nat × Nat)} {s : SearchState} (h : p % 8 = 5)
      (he : e % 2 = 0) : AsksRoot xi attempts ((p, e) :: rest) s (-1) p s.generator
  | split {p e : Nat} {rest : List (Nat × Nat)} {s : SearchState} (h : p % 8 = 1 ∨ p % 8 = 7) :
      AsksRoot xi attempts ((p, e) :: rest) s 2 p s.generator
  | splitOmega {p e x : Nat} {rest : List (Nat × Nat)} {s : SearchState} {g : Generator}
      (h : p % 8 = 1) (hx : (sqrtMod 2 p attempts).run s.generator = (some x, g)) :
      AsksRoot xi attempts ((p, e) :: rest) s (-1) p g
  | later {p e q : Nat} {rest : List (Nat × Nat)} {s s' : SearchState} {part : ZOmega} {a : Int}
      {g : Generator} (h : (primePart xi p e attempts).run s = (.ok (some part), s'))
      (tail : AsksRoot xi attempts rest s' a q g) : AsksRoot xi attempts ((p, e) :: rest) s a q g

/-- Every root of a square that the loop asks for is found. -/
def RootsFound (xi : ZSqrt2) (attempts : Nat) (fs : List (Nat × Nat)) (s : SearchState) : Prop :=
  ∀ a p g, AsksRoot xi attempts fs s a p g → IsSquare (a : ZMod p) →
    ((sqrtMod a p attempts).run g).1 ≠ none

/-- What the part over `p`, with the exponent `e` in the norm of `ξ`, is to be. -/
def PartSpec (xi : ZSqrt2) (p e : Nat) (r : Option ZOmega) : Prop :=
  (r = none → ∀ t : ZOmega, t.norm ≠ xi) ∧
    ∀ part, r = some part → part.norm ∣ xi ∧ part.norm.norm.natAbs = p ^ e

theorem PartSpec.found {xi : ZSqrt2} {p e : Nat} {part : ZOmega} (hdvd : part.norm ∣ xi)
    (hn : part.norm.norm.natAbs = p ^ e) : PartSpec xi p e (some part) := by
  refine ⟨fun h => ?_, fun part' h => ?_⟩
  · cases h
  · cases h
    exact ⟨hdvd, hn⟩

theorem PartSpec.unsolvable {xi : ZSqrt2} {p e : Nat} (h : ∀ t : ZOmega, t.norm ≠ xi) :
    PartSpec xi p e none :=
  ⟨fun _ => h, fun part h' => absurd h' (by simp)⟩

/-! ## The part over each kind of prime -/

section Part

variable {xi : ZSqrt2} {p e m attempts : Nat} {s : SearchState} {rest : List (Nat × Nat)}

/-- A root that the loop asks for is found, is a residue, and is a root. -/
theorem exists_root [hp : Fact p.Prime] (hodd : p % 2 = 1) {a : Int} {g : Generator}
    (hfound : ((sqrtMod a p attempts).run g).1 ≠ none) :
    ∃ x g', (sqrtMod a p attempts).run g = (some x, g') ∧ x < p ∧ (x : ZMod p) * x = a := by
  rcases hr : (sqrtMod a p attempts).run g with ⟨_ | x, g'⟩
  · rw [hr] at hfound
    exact absurd rfl hfound
  · have h := sqrtMod_spec a hp.out.one_lt hodd attempts g x (by rw [hr])
    exact ⟨x, g', rfl, h⟩

/-- The part over two. -/
theorem primePart_two (hn : xi.norm.natAbs = 2 ^ e * m) (hm : ¬ 2 ∣ m) :
    ∃ r s', (primePart xi 2 e attempts).run s = (.ok r, s') ∧ PartSpec xi 2 e r := by
  refine ⟨_, s, rfl, .found ?_ ?_⟩
  · obtain ⟨j, hj, hdvd⟩ := exists_pow_dvd Nat.prime_two one_pos rfl
      (fun z hz => dvd_of_two_dvd_norm hz) e hn hm
    rw [one_mul] at hj
    rwa [ZOmega.norm_pow, hj]
  · rw [ZOmega.norm_pow, ZSqrt2.norm_pow, Int.natAbs_pow]
    rfl

theorem natAbs_norm_natCast (p : Nat) : (p : ZSqrt2).norm.natAbs = p ^ 2 := by
  rw [ZSqrt2.norm_natCast, Int.natAbs_mul, Int.natAbs_natCast, pow_two]

/-- An inert prime has an even exponent in a norm, and half of it in the element. -/
theorem exists_pow_dvd_of_inert [hp : Fact p.Prime] (h2 : ¬ IsSquare (2 : ZMod p))
    (hn : xi.norm.natAbs = p ^ e * m) (hm : ¬ p ∣ m) : ∃ j, e = 2 * j ∧ (p : ZSqrt2) ^ j ∣ xi :=
  exists_pow_dvd hp.out two_pos (natAbs_norm_natCast p)
    (fun _ hz => dvd_of_dvd_norm_of_inert h2 hz) e hn hm

/-- A power of an element with an inert prime as its norm is the part over that prime. -/
theorem partSpec_of_norm_eq [hp : Fact p.Prime] (h2 : ¬ IsSquare (2 : ZMod p))
    (hn : xi.norm.natAbs = p ^ e * m) (hm : ¬ p ∣ m) {u : ZOmega} (hu : u.norm = (p : ZSqrt2)) :
    PartSpec xi p e (some (u ^ (e / 2))) := by
  obtain ⟨j, rfl, hdvd⟩ := exists_pow_dvd_of_inert h2 hn hm
  have hj : 2 * j / 2 = j := by omega
  refine .found ?_ ?_
  · rwa [hj, ZOmega.norm_pow, hu]
  · rw [hj, ZOmega.norm_pow, hu, ZSqrt2.norm_pow, Int.natAbs_pow, natAbs_norm_natCast, ← pow_mul]

/-- The sum that is looked for is found, once there is a root. -/
theorem exists_asSumOfSquares [hp : Fact p.Prime] (hodd : p % 2 = 1) {d : Nat}
    (hd : d = 1 ∨ d = 2) {g : Generator}
    (hfound : ((sqrtMod (-(d : Int)) p attempts).run g).1 ≠ none) :
    ∃ x y g', (asSumOfSquares d p attempts).run g = (some (x, y), g') ∧
      x * x + d * (y * y) = p := by
  obtain ⟨r, g', hrun, hlt, hroot⟩ := exists_root hodd hfound
  have hdvd : (p : Int) ∣ r * r + d := by
    rw [← ZMod.intCast_zmod_eq_zero_iff_dvd]
    push_cast at hroot ⊢
    rw [hroot, neg_add_cancel]
  obtain ⟨x, y, hsum, heq⟩ := exists_sumOfSquares? hd hp.out hodd hlt hdvd
  refine ⟨x, y, g', ?_, heq⟩
  rw [asSumOfSquares, Draw.run_bind, hrun, ← hsum]
  rfl

/-- A search that draws and then maps what it drew. -/
theorem run_draw_map {α β : Type} {x : Draw (Option α)} {v : α} {g : Generator} (f : α → β)
    (h : x.run s.generator = (some v, g)) :
    ((do return (← Search.draw x).map f) : Search (Option β)).run s
      = (.ok (some (f v)), { s with generator := g }) := by
  refine (Search.run_bind_of_ok (Search.run_draw x s)).trans ?_
  rw [h]
  rfl

/-- The part over a prime that is three modulo 8. -/
theorem primePart_three [hp : Fact p.Prime] (h8 : p % 8 = 3) (hn : xi.norm.natAbs = p ^ e * m)
    (hm : ¬ p ∣ m) (hroots : RootsFound xi attempts ((p, e) :: rest) s) :
    ∃ r s', (primePart xi p e attempts).run s = (.ok r, s') ∧ PartSpec xi p e r := by
  have hne : p ≠ 2 := by omega
  have h2 : ¬ IsSquare (2 : ZMod p) := by
    rw [ZMod.exists_sq_eq_two_iff hne]
    omega
  have hsq : IsSquare ((-2 : Int) : ZMod p) := by
    push_cast
    rw [ZMod.exists_sq_eq_neg_two_iff hne]
    omega
  obtain ⟨j, hj, -⟩ := exists_pow_dvd_of_inert h2 hn hm
  have he : e % 2 = 0 := by omega
  obtain ⟨x, y, g, hrun, hxy⟩ := exists_asSumOfSquares (d := 2) (by omega) (.inr rfl)
    (hroots _ _ _ (.three h8 he) hsq)
  have hu : (⟨y, 0, y, x⟩ : ZOmega).norm = (p : ZSqrt2) := by
    ext
    · simp only [ZOmega.norm, ZSqrt2.natCast_a]
      rw [← hxy]
      push_cast
      ring
    · simp only [ZOmega.norm, ZSqrt2.natCast_b]
      ring
  refine ⟨_, { s with generator := g }, ?_, partSpec_of_norm_eq h2 hn hm hu⟩
  unfold primePart
  rw [h8]
  simp only [he, if_true]
  exact run_draw_map (fun ab : Nat × Nat => (⟨ab.2, 0, ab.2, ab.1⟩ : ZOmega) ^ (e / 2)) hrun

/-- The part over a prime that is five modulo 8. -/
theorem primePart_five [hp : Fact p.Prime] (h8 : p % 8 = 5) (hn : xi.norm.natAbs = p ^ e * m)
    (hm : ¬ p ∣ m) (hroots : RootsFound xi attempts ((p, e) :: rest) s) :
    ∃ r s', (primePart xi p e attempts).run s = (.ok r, s') ∧ PartSpec xi p e r := by
  have h2 : ¬ IsSquare (2 : ZMod p) := by
    rw [ZMod.exists_sq_eq_two_iff (by omega)]
    omega
  have hsq : IsSquare ((-1 : Int) : ZMod p) := by
    push_cast
    rw [ZMod.exists_sq_eq_neg_one_iff]
    omega
  obtain ⟨j, hj, -⟩ := exists_pow_dvd_of_inert h2 hn hm
  have he : e % 2 = 0 := by omega
  obtain ⟨x, y, g, hrun, hxy⟩ := exists_asSumOfSquares (d := 1) (by omega) (.inl rfl)
    (hroots _ _ _ (.five h8 he) hsq)
  have hu : (⟨0, y, 0, x⟩ : ZOmega).norm = (p : ZSqrt2) := by
    ext
    · simp only [ZOmega.norm, ZSqrt2.natCast_a]
      rw [← hxy]
      push_cast
      ring
    · simp only [ZOmega.norm, ZSqrt2.natCast_b]
      ring
  refine ⟨_, { s with generator := g }, ?_, partSpec_of_norm_eq h2 hn hm hu⟩
  unfold primePart
  rw [h8]
  simp only [he, if_true]
  exact run_draw_map (fun ab : Nat × Nat => (⟨0, ab.2, 0, ab.1⟩ : ZOmega) ^ (e / 2)) hrun

/-- The powers of a factor and of its conjugate that divide `ξ` make up a part. -/
theorem partSpec_of_associated [hp : Fact p.Prime] {x : Nat} (hodd : p % 2 = 1)
    (hx : (x : ZMod p) * x = 2) (hxi : xi ≠ 0) (hn : xi.norm.natAbs = p ^ e * m) (hm : ¬ p ∣ m)
    {part : ZOmega} (hpart : Associated part.norm (splitFactor p x ^ xi.valuation (splitFactor p x)
      * (splitFactor p x).dot ^ xi.valuation (splitFactor p x).dot)) :
    PartSpec xi p e (some part) := by
  obtain ⟨q, hq, -⟩ := exists_eq_split hodd hx hxi
  refine .found ?_ ?_
  · rw [hpart.dvd_iff_dvd_left]
    exact ⟨q, hq⟩
  · have hnorm := Int.associated_iff_natAbs.1 (hpart.map ZSqrt2.normHom)
    have heq : part.norm.norm.natAbs = (splitFactor p x ^ xi.valuation (splitFactor p x)
        * (splitFactor p x).dot ^ xi.valuation (splitFactor p x).dot).norm.natAbs := hnorm
    rw [heq, ZSqrt2.norm_mul, ZSqrt2.norm_pow, ZSqrt2.norm_pow, ZSqrt2.norm_dot, Int.natAbs_mul,
      Int.natAbs_pow, Int.natAbs_pow, natAbs_norm_splitFactor hx, ← pow_add,
      valuation_add_valuation hodd hx hxi hn hm]

/-- The part over a prime that is seven modulo 8, once there is a root of two. -/
theorem splitPart_seven [hp : Fact p.Prime] {x : Nat} (h8 : p % 8 = 7)
    (hx : (x : ZMod p) * x = 2) (hxi : xi ≠ 0) (hn : xi.norm.natAbs = p ^ e * m) (hm : ¬ p ∣ m)
    (g : Generator) : PartSpec xi p e ((splitPart xi p attempts x).run g).1 := by
  have hodd : p % 2 = 1 := by omega
  have hneg : ¬ IsSquare (-1 : ZMod p) := by
    rw [ZMod.exists_sq_eq_neg_one_iff]
    omega
  rw [splitPart_of_ne (by omega)]
  split
  · rename_i heven
    refine partSpec_of_associated hodd hx hxi hn hm (.of_eq ?_)
    rw [ZOmega.norm_mul, ZOmega.norm_pow, ZOmega.norm_pow, ZOmega.norm_ofZSqrt2,
      ZOmega.norm_ofZSqrt2, ← pow_two, ← pow_two, ← pow_mul, ← pow_mul,
      Nat.mul_div_cancel' (Nat.dvd_of_mod_eq_zero heven.1),
      Nat.mul_div_cancel' (Nat.dvd_of_mod_eq_zero heven.2)]
  · rename_i hnot
    refine .unsolvable fun t ht => hnot ?_
    rw [← ht]
    exact even_valuation_of_norm_eq hodd hneg hx (ht ▸ hxi)

/-- The part over a prime that is one modulo 8, once there is a root of two. -/
theorem splitPart_one [hp : Fact p.Prime] {x : Nat} (h8 : p % 8 = 1)
    (hx : (x : ZMod p) * x = 2) (hxi : xi ≠ 0) (hn : xi.norm.natAbs = p ^ e * m) (hm : ¬ p ∣ m)
    {g : Generator} (hfound : ((sqrtMod (-1) p attempts).run g).1 ≠ none) :
    PartSpec xi p e ((splitPart xi p attempts x).run g).1 := by
  have hodd : p % 2 = 1 := by omega
  obtain ⟨y, g', hrun, -, hy⟩ := exists_root hodd hfound
  push_cast at hy
  have hassoc := associated_norm_splitFactorOmega hodd hx hy
  rw [splitPart_of_one h8, Draw.run_bind, hrun]
  refine partSpec_of_associated hodd hx hxi hn hm ?_
  rw [ZOmega.norm_mul, ZOmega.norm_pow, ZOmega.norm_pow, ZOmega.norm_dot]
  exact (hassoc.pow_pow).mul_mul (hassoc.map ZSqrt2.dotHom).pow_pow

/-- The part over a prime that splits in `ℤ[√2]`. -/
theorem primePart_split [hp : Fact p.Prime] (h8 : p % 8 = 1 ∨ p % 8 = 7) (hxi : xi ≠ 0)
    (hn : xi.norm.natAbs = p ^ e * m) (hm : ¬ p ∣ m)
    (hroots : RootsFound xi attempts ((p, e) :: rest) s) :
    ∃ r s', (primePart xi p e attempts).run s = (.ok r, s') ∧ PartSpec xi p e r := by
  have hodd : p % 2 = 1 := by omega
  have hsq : IsSquare ((2 : Int) : ZMod p) := by
    push_cast
    rw [ZMod.exists_sq_eq_two_iff (by omega)]
    exact h8
  obtain ⟨x, g, hrun, -, hx⟩ := exists_root hodd (hroots _ _ _ (.split h8) hsq)
  push_cast at hx
  have hpart : PartSpec xi p e ((splitPart xi p attempts x).run g).1 := by
    rcases h8 with h8 | h8
    · have hneg : IsSquare ((-1 : Int) : ZMod p) := by
        push_cast
        rw [ZMod.exists_sq_eq_neg_one_iff]
        omega
      exact splitPart_one h8 hx hxi hn hm (hroots _ _ _ (.splitOmega h8 hrun) hneg)
    · exact splitPart_seven h8 hx hxi hn hm g
  refine ⟨_, { s with generator := ((splitPart xi p attempts x).run g).2 }, ?_, hpart⟩
  rw [primePart_of_split h8]
  refine (Search.run_bind_of_ok (Search.run_draw _ s)).trans ?_
  rw [hrun]
  rfl

/-- **The part over a prime is found, or there is no solution.** -/
theorem primePart_spec (hp : p.Prime) (hxi : xi ≠ 0) (hn : xi.norm.natAbs = p ^ e * m)
    (hm : ¬ p ∣ m) (hroots : RootsFound xi attempts ((p, e) :: rest) s) :
    ∃ r s', (primePart xi p e attempts).run s = (.ok r, s') ∧ PartSpec xi p e r := by
  have : Fact p.Prime := ⟨hp⟩
  rcases hp.eq_two_or_odd with rfl | hodd
  · exact primePart_two hn hm
  · have h8 : p % 8 = 3 ∨ p % 8 = 5 ∨ p % 8 = 1 ∨ p % 8 = 7 := by omega
    rcases h8 with h8 | h8 | h8
    · exact primePart_three h8 hn hm hroots
    · exact primePart_five h8 hn hm hroots
    · exact primePart_split h8 hxi hn hm hroots

end Part

/-! ## The loop over the primes -/

/-- A prime divides no product of powers of other primes. -/
theorem not_dvd_prod {p : Nat} (hp : p.Prime) {fs : List (Nat × Nat)}
    (hfs : ∀ pe ∈ fs, pe.1.Prime) (hne : p ∉ fs.map Prod.fst) :
    ¬ p ∣ (fs.map fun pe => pe.1 ^ pe.2).prod := by
  intro h
  obtain ⟨a, ha, hdvd⟩ := (Prime.dvd_prod_iff hp.prime).1 h
  obtain ⟨pe, hpe, rfl⟩ := List.mem_map.1 ha
  have heq := (Nat.prime_dvd_prime_iff_eq hp (hfs pe hpe)).1 (hp.dvd_of_dvd_pow hdvd)
  exact hne (heq ▸ List.mem_map_of_mem hpe)

/-- What is kept by the loop: the primes that have been taken out of `ξ` are in `t`, and the others
are still to come. -/
structure PartsInv (xi : ZSqrt2) (fs : List (Nat × Nat)) (t : ZOmega) : Prop where
  prime : ∀ pe ∈ fs, pe.1.Prime
  nodup : (fs.map Prod.fst).Nodup
  dvd : t.norm ∣ xi
  prod : t.norm.norm.natAbs * (fs.map fun pe => pe.1 ^ pe.2).prod = xi.norm.natAbs
  fresh : ∀ pe ∈ fs, ¬ pe.1 ∣ t.norm.norm.natAbs

namespace PartsInv

variable {xi : ZSqrt2} {p e : Nat} {fs : List (Nat × Nat)} {t : ZOmega}

theorem start (hfs : IsPrimeFactorization xi.norm fs) : PartsInv xi fs 1 where
  prime := hfs.prime
  nodup := hfs.nodup
  dvd := one_dvd xi
  prod := by
    rw [hfs.prod]
    exact Nat.one_mul _
  fresh pe hpe h := (hfs.prime pe hpe).one_lt.ne' (Nat.dvd_one.1 h)

/-- The exponent of the next prime in the norm of `ξ`. -/
theorem head_exponent (h : PartsInv xi ((p, e) :: fs) t) :
    ∃ m, xi.norm.natAbs = p ^ e * m ∧ ¬ p ∣ m := by
  have hp := h.prime (p, e) List.mem_cons_self
  refine ⟨t.norm.norm.natAbs * (fs.map fun pe => pe.1 ^ pe.2).prod, ?_, fun hdvd => ?_⟩
  · rw [← h.prod, List.map_cons, List.prod_cons]
    ring
  · rcases hp.dvd_mul.1 hdvd with h' | h'
    · exact h.fresh (p, e) List.mem_cons_self h'
    · exact not_dvd_prod hp (fun qe hqe => h.prime qe (List.mem_cons_of_mem _ hqe))
        (List.nodup_cons.1 h.nodup).1 h'

/-- A part over the next prime keeps what is kept. -/
theorem step (h : PartsInv xi ((p, e) :: fs) t) {part : ZOmega} (hdvd : part.norm ∣ xi)
    (hn : part.norm.norm.natAbs = p ^ e) : PartsInv xi fs (t * part) := by
  have hp := h.prime (p, e) List.mem_cons_self
  have hnorm : (t * part).norm.norm.natAbs = t.norm.norm.natAbs * p ^ e := by
    rw [ZOmega.norm_mul, ZSqrt2.norm_mul, Int.natAbs_mul, hn]
  have hcop : IsCoprime t.norm part.norm := by
    refine ZSqrt2.isCoprime_of_norm (Int.isCoprime_iff_nat_coprime.2 ?_)
    rw [hn]
    exact ((hp.coprime_iff_not_dvd.2 (h.fresh (p, e) List.mem_cons_self)).symm).pow_right e
  refine ⟨fun qe hqe => h.prime qe (List.mem_cons_of_mem _ hqe), (List.nodup_cons.1 h.nodup).2,
    ?_, ?_, fun qe hqe hq => ?_⟩
  · rw [ZOmega.norm_mul]
    exact hcop.mul_dvd h.dvd hdvd
  · rw [hnorm, ← h.prod, List.map_cons, List.prod_cons, mul_assoc]
  · have hq' := h.prime qe (List.mem_cons_of_mem _ hqe)
    rw [hnorm] at hq
    rcases hq'.dvd_mul.1 hq with h' | h'
    · exact h.fresh qe (List.mem_cons_of_mem _ hqe) h'
    · have heq := (Nat.prime_dvd_prime_iff_eq hq' hp).1 (hq'.dvd_of_dvd_pow h')
      exact (List.nodup_cons.1 h.nodup).1 (heq ▸ List.mem_map_of_mem hqe)

end PartsInv

/-- The loop finds an element whose norm divides `ξ` with the same norm, or there is no solution. -/
theorem primeParts_spec {xi : ZSqrt2} (hxi : xi ≠ 0) {attempts : Nat} {fs : List (Nat × Nat)}
    {t : ZOmega} (h : PartsInv xi fs t) {s : SearchState} (hroots : RootsFound xi attempts fs s) :
    ∃ r s', (primeParts xi attempts fs t).run s = (.ok r, s') ∧
      (r = none → ∀ u : ZOmega, u.norm ≠ xi) ∧
      ∀ u, r = some u → u.norm ∣ xi ∧ u.norm.norm.natAbs = xi.norm.natAbs := by
  induction fs generalizing t s with
  | nil =>
    refine ⟨some t, s, rfl, fun hr => ?_, fun u hu => ?_⟩
    · cases hr
    · cases hu
      have hprod := h.prod
      rw [List.map_nil, List.prod_nil, Nat.mul_one] at hprod
      exact ⟨h.dvd, hprod⟩
  | cons pe fs ih =>
    obtain ⟨p, e⟩ := pe
    obtain ⟨m, hm, hpm⟩ := h.head_exponent
    obtain ⟨r, s', hrun, hnone, hsome⟩ :=
      primePart_spec (h.prime (p, e) List.mem_cons_self) hxi hm hpm hroots
    cases r with
    | none =>
      refine ⟨none, s', ?_, fun _ => hnone rfl, fun u hu => ?_⟩
      · unfold primeParts
        rw [Search.run_bind_of_ok hrun]
        rfl
      · cases hu
    | some part =>
      obtain ⟨hdvd, hn⟩ := hsome part rfl
      have hrest : RootsFound xi attempts fs s' := fun a q g hasks =>
        hroots a q g (.later hrun hasks)
      obtain ⟨r', s'', hrun', hspec⟩ := ih (h.step hdvd hn) hrest
      refine ⟨r', s'', ?_, hspec⟩
      unfold primeParts
      rw [Search.run_bind_of_ok hrun]
      exact hrun'

/-- An element whose norm divides a totally positive one with the same norm solves the equation up
to an even power of `λ`. -/
theorem exists_exactDiv?_eq_lambdaPow {xi : ZSqrt2} (hxi : xi.TotallyPositive) {t : ZOmega}
    (hdvd : t.norm ∣ xi) (hn : t.norm.norm.natAbs = xi.norm.natAbs) :
    ∃ j : Int, xi.exactDiv? t.norm = some (ZSqrt2.lambdaPow (2 * j)) := by
  obtain ⟨u, rfl⟩ := hdvd
  have ht : t ≠ 0 := by
    rintro rfl
    have hzero : (0 : ZOmega).norm = 0 := rfl
    rw [hzero, zero_mul] at hxi
    exact hxi.ne_zero rfl
  have hpos := ZOmega.totallyPositive_norm ht
  have hu : u.TotallyPositive := (mul_comm t.norm u ▸ hxi).of_mul hpos
  have hunit : IsUnit u := by
    rw [ZSqrt2.isUnit_iff]
    rw [ZSqrt2.norm_mul, Int.natAbs_mul] at hn
    have h0 : 0 < t.norm.norm.natAbs := Int.natAbs_pos.2 hpos.2.ne'
    exact Nat.eq_of_mul_eq_mul_left h0 (by rw [← hn, Nat.mul_one])
  obtain ⟨j, rfl⟩ := ZSqrt2.exists_lambdaPow_of_norm_eq_one hu.1 (hu.norm_eq_one hunit)
  exact ⟨j, ZSqrt2.exactDiv?_eq_some_iff.2 ⟨hpos.ne_zero, mul_comm _ _⟩⟩

/-- An exponent that is found for a unit of norm one is even. -/
theorem even_of_lambdaLog? {u : ZSqrt2} {c : Constants} {m : Int} (hu : u.norm = 1)
    (h : lambdaLog? u c = some m) : m % 2 = 0 := by
  unfold lambdaLog? at h
  dsimp only at h
  split at h
  · split at h
    · rename_i hpow
      cases h
      exact ZSqrt2.even_of_norm_lambdaPow (by rw [hpow, hu])
    · cases h
  · cases h

/-- **The construction prime by prime is complete.** Over the true factorization of the norm, and
with every root found that there is, the loop comes to a value. If that is none, then the equation
has no solution; and otherwise the norm of what it gives divides `ξ`, the quotient is an even power
of `λ`, and no odd exponent can be found for it. -/
theorem primeParts_complete {xi : ZSqrt2} (hxi : xi ≠ 0) (hpos : xi.isDoublyPositive = true)
    {fs : List (Nat × Nat)} (hfs : IsPrimeFactorization xi.norm fs) {attempts : Nat}
    {s : SearchState} (hroots : RootsFound xi attempts fs s) :
    ∃ r s', (primeParts xi attempts fs 1).run s = (.ok r, s') ∧
      (r = none → ∀ t : ZOmega, t * t.conj ≠ ZOmega.ofZSqrt2 xi) ∧
      ∀ t, r = some t → ∃ j : Int, xi.exactDiv? t.norm = some (ZSqrt2.lambdaPow (2 * j)) ∧
        ∀ c m, lambdaLog? (ZSqrt2.lambdaPow (2 * j)) c = some m → m % 2 = 0 := by
  obtain ⟨r, s', hrun, hnone, hsome⟩ := primeParts_spec hxi (.start hfs) hroots
  have htp := ZSqrt2.totallyPositive_of_isDoublyPositive hxi hpos
  refine ⟨r, s', hrun, fun hr t ht => ?_, fun t ht => ?_⟩
  · exact hnone hr t (ZOmega.mul_conj_eq_iff.1 ht)
  · obtain ⟨hdvd, hn⟩ := hsome t ht
    obtain ⟨j, hj⟩ := exists_exactDiv?_eq_lambdaPow htp hdvd hn
    exact ⟨j, hj, fun c m hm => even_of_lambdaLog? (ZSqrt2.norm_lambdaPow_two_mul j) hm⟩

/-- Seven is three modulo four, so that its root of two needs no random number. -/
theorem rootsFound_seven (xi : ZSqrt2) (s : SearchState) : RootsFound xi 0 [(7, 2)] s := by
  intro a p g hasks _
  have hroot : (sqrtMod 2 7 0).run g = (some 4, g) := by
    simp only [sqrtMod, powMod_eq]
    rfl
  cases hasks with
  | three h _ => exact absurd h (by decide)
  | five h _ => exact absurd h (by decide)
  | split _ =>
    rw [hroot]
    exact Option.some_ne_none 4
  | splitOmega h _ => exact absurd h (by decide)
  | later _ tail => cases tail

theorem isPrimeFactorization_eleven_six :
    IsPrimeFactorization (⟨11, 6⟩ : ZSqrt2).norm [(7, 2)] where
  prime pe hpe := by
    obtain rfl := List.mem_singleton.1 hpe
    exact (by decide : Nat.Prime 7)
  pos pe hpe := by
    obtain rfl := List.mem_singleton.1 hpe
    decide
  nodup := by decide
  prod := by decide

/-- The construction for `(3 + √2)²`, whose norm is `7²`. -/
theorem primeParts_complete_eleven_six :
    ∃ r s', (primeParts ⟨11, 6⟩ 0 [(7, 2)] 1).run ⟨.ofSeed 1, #[]⟩ = (.ok r, s') ∧
      (r = none → ∀ t : ZOmega, t * t.conj ≠ ZOmega.ofZSqrt2 ⟨11, 6⟩) ∧
      ∀ t, r = some t →
        ∃ j : Int, (⟨11, 6⟩ : ZSqrt2).exactDiv? t.norm = some (ZSqrt2.lambdaPow (2 * j)) ∧
          ∀ c m, lambdaLog? (ZSqrt2.lambdaPow (2 * j)) c = some m → m % 2 = 0 :=
  primeParts_complete (by decide) (by decide) isPrimeFactorization_eleven_six (rootsFound_seven _ _)

end CliffordT.NormEquation
