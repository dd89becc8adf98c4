/-
Exact synthesis never fails over the generated table.

While the denominator exponent is above three, one of the four layers lowers it, by
`NormalUnitary.exists_layer`. A unitary that is left has the denominator exponent zero, two or three.
Without a denominator it is diagonal or antidiagonal; for the exponent two both entries of its first
column are powers of `ω`, so that it is `Tⁱ H Tᵖ` times a phase; and for the exponent three one layer
more leads to the exponent two. All of these are words with at most two Hadamard gates.
-/
import Mathlib.Tactic.Abel
import CliffordT.Proofs.Unitary.Descent
import CliffordT.Proofs.Unitary.Table
import CliffordT.Unitary.Synthesis

namespace CliffordT

open ZOmega (omegaPow)

namespace NormalUnitary

open CliffordT.Unitary

variable (m : NormalUnitary)

/-! ## Words with few Hadamard gates -/

def tWord (n : Fin 8) : Word := List.replicate n.val 'T'

theorem value?_tWord (n : Fin 8) : (tWord n).value? = .ok (diagonal 0 n) := by
  rw [tWord, Word.value?_replicate (c := 'T') (a := .t) rfl, Gate.value, tGate_pow]
  congr 2
  exact Fin.ext (Nat.mod_eq_of_lt n.isLt)

/-- A word with `H Tⁿ` behind it. -/
theorem value?_layer {w : Word} {g : NormalUnitary} (hw : w.value? = .ok g) (n : Fin 8) :
    Word.value? (w ++ 'H' :: tWord n) = .ok (g * (hadamard * diagonal 0 n)) := by
  refine Word.value?_append hw ?_
  rw [Word.value?_cons (g := .h) rfl, value?_tWord]
  rfl

theorem tWord_mem (n : Fin 8) : tWord n ∈ GateTable.layer 0 := GateTable.mem_tPowers n.isLt

theorem layer_mem {w : Word} {k : Nat} (hw : w ∈ GateTable.layer k) (n : Fin 8) :
    w ++ 'H' :: tWord n ∈ GateTable.layer (k + 1) :=
  GateTable.mem_addLayer hw n.isLt

/-- Holds when the unitary is that of a word with so many Hadamard gates, times a phase. -/
def InLayer (k : Nat) (m : NormalUnitary) : Prop :=
  ∃ w ∈ GateTable.layer k, ∃ (g : NormalUnitary) (i : Fin 8), w.value? = .ok g ∧ m = g * phase i

/-! ## The unitaries that are left -/

/-- A unitary whose first column is `(ωᵃ, 0)`. -/
theorem inLayer_diagonal (a l : Fin 8) : InLayer 0 (diagonal a l) := by
  refine ⟨tWord (l - 2 * a), tWord_mem _, _, a, value?_tWord _, ?_⟩
  rw [phase, diagonal_mul_diagonal, zero_add, sub_add_cancel]

/-- The tuple of `Tⁱ H Tᵖ ω^q`. -/
theorem hasUnitLength_column (a b l : Fin 8) :
    (⟨omegaPow (a.val : Int), omegaPow (b.val : Int), 1, l⟩ : Unitary).HasUnitLength := by
  refine ⟨Int.natCast_nonneg 1, ?_⟩
  show (omegaPow (a.val : Int)).norm + (omegaPow (b.val : Int)).norm = 2 ^ 1
  rw [ZOmega.norm_omegaPow, ZOmega.norm_omegaPow, pow_one]
  rfl

/-- The word `Tⁱ H Tᵖ` times a phase, as a tuple. -/
theorem tht_mul_phase (i p q : Fin 8) :
    diagonal 0 i * (hadamard * diagonal 0 p) * phase q
      = ofRaw ⟨omegaPow (q.val : Int), omegaPow ((i + q : Fin 8).val : Int), 1, i + (4 + p) + 2 * q⟩
          (hasUnitLength_column _ _ _) := by
  have h0 : omegaPow ((0 : Fin 8).val : Int) = 1 := rfl
  have hc0 : ZOmega.conj 0 = 0 := rfl
  have hc1 : ZOmega.conj 1 = 1 := rfl
  rw [hadamard, diagonal, diagonal, phase, diagonal, ofRaw_mul_ofRaw, ofRaw_mul_ofRaw,
    ofRaw_mul_ofRaw]
  refine ofRaw_congr _ ?_
  ext1
  · simp only [rawMul, h0, hc0, hc1]
    ring
  · simp only [rawMul, h0, hc0, hc1, ZOmega.omegaPow_val_add]
    ring
  · rfl
  · rfl

/-- A unitary whose first column is `(ωᵃ, ωᵇ)` over `√2`. -/
theorem column_eq (a b l : Fin 8) :
    ofRaw ⟨omegaPow (a.val : Int), omegaPow (b.val : Int), 1, l⟩ (hasUnitLength_column a b l)
      = diagonal 0 (b - a) * (hadamard * diagonal 0 (l - (b - a) - 4 - 2 * a)) * phase a := by
  rw [tht_mul_phase]
  refine (ofRaw_congr _ ?_).symm
  have hl : b - a + (4 + (l - (b - a) - 4 - 2 * a)) + 2 * a = l := by abel
  rw [sub_add_cancel, hl]

theorem inLayer_column (a b l : Fin 8) :
    InLayer 1 (ofRaw ⟨omegaPow (a.val : Int), omegaPow (b.val : Int), 1, l⟩
      (hasUnitLength_column a b l)) :=
  ⟨_, layer_mem (tWord_mem (b - a)) (l - (b - a) - 4 - 2 * a), _, a,
    value?_layer (value?_tWord (b - a)) _, column_eq a b l⟩

/-- One layer in front of such a unitary. -/
theorem inLayer_layer_column (j a b l : Fin 8) :
    InLayer 2 (diagonal 0 j * hadamard
      * ofRaw ⟨omegaPow (a.val : Int), omegaPow (b.val : Int), 1, l⟩ (hasUnitLength_column a b l)) := by
  refine ⟨_, layer_mem (layer_mem (tWord_mem j) (b - a)) (l - (b - a) - 4 - 2 * a), _, a,
    value?_layer (value?_layer (value?_tWord j) _) _, ?_⟩
  rw [column_eq]
  simp only [mul_assoc]

theorem hasUnitLength_antidiagonal (b l : Fin 8) :
    (⟨0, omegaPow (b.val : Int), 0, l⟩ : Unitary).HasUnitLength := by
  refine ⟨Int.le_refl 0, ?_⟩
  show ZOmega.norm 0 + (omegaPow (b.val : Int)).norm = 2 ^ 0
  rw [ZOmega.norm_omegaPow, pow_zero]
  rfl

/-- The product `H T⁴ H` is antidiagonal. -/
theorem hadamard_mul_hadamard_antidiagonal :
    hadamard * diagonal 0 4 * hadamard
      = ofRaw ⟨0, omegaPow ((0 : Fin 8).val : Int), 0, 4⟩ (hasUnitLength_antidiagonal 0 4) := by
  rw [hadamard, diagonal, ofRaw_mul_ofRaw, ofRaw_mul_ofRaw]
  refine ofRaw_eq_of_scales (j := 2) _ _ ⟨?_, ?_, rfl, rfl⟩
  · rw [pow_two]
    decide
  · rw [pow_two]
    decide

/-- A unitary whose first column is `(0, ωᵇ)`. -/
theorem inLayer_antidiagonal (b l : Fin 8) :
    InLayer 2 (ofRaw ⟨0, omegaPow (b.val : Int), 0, l⟩ (hasUnitLength_antidiagonal b l)) := by
  have hw := value?_layer (value?_layer (value?_tWord 0) 4) (l - 4 - 2 * b)
  refine ⟨_, layer_mem (layer_mem (tWord_mem 0) 4) (l - 4 - 2 * b), _, b, hw, ?_⟩
  have hprod : diagonal 0 0 * (hadamard * diagonal 0 4) * (hadamard * diagonal 0 (l - 4 - 2 * b))
      = hadamard * diagonal 0 4 * hadamard * diagonal 0 (l - 4 - 2 * b) := by
    rw [diagonal_zero, one_mul, mul_assoc]
    rw [mul_assoc, mul_assoc]
  rw [hprod, hadamard_mul_hadamard_antidiagonal, mul_assoc, phase, diagonal_mul_diagonal, diagonal,
    ofRaw_mul_ofRaw]
  refine ofRaw_congr _ ?_
  have hl : 4 + (l - 4 - 2 * b + 2 * b) = l := by abel
  ext1
  · simp [rawMul]
  · simp [rawMul, ZOmega.omegaPow_zero]
  · rfl
  · exact hl.symm

/-! ## The classification -/

theorem exists_column (hk : m.1.k = 1) : ∃ a b l : Fin 8,
    m = ofRaw ⟨omegaPow (a.val : Int), omegaPow (b.val : Int), 1, l⟩ (hasUnitLength_column a b l) := by
  have hlen := m.length_eq.1
  rw [hk] at hlen
  have hsum : m.1.u.norm.a + m.1.t.norm.a = 2 := hlen
  obtain ⟨hu, ht⟩ := m.not_dvd (by omega)
  have hu0 : m.1.u.norm.a ≠ 0 := fun h =>
    ZOmega.ne_zero_of_not_dvd hu ((ZOmega.norm_a_eq_zero_iff _).1 h)
  have ht0 : m.1.t.norm.a ≠ 0 := fun h =>
    ZOmega.ne_zero_of_not_dvd ht ((ZOmega.norm_a_eq_zero_iff _).1 h)
  have hun := ZOmega.norm_a_nonneg m.1.u
  have htn := ZOmega.norm_a_nonneg m.1.t
  obtain ⟨a, ha⟩ := ZOmega.exists_omegaPow_of_size (u := m.1.u) (by omega)
  obtain ⟨b, hb⟩ := ZOmega.exists_omegaPow_of_size (u := m.1.t) (by omega)
  refine ⟨a, b, m.1.l, (ofRaw_coe m).symm.trans (ofRaw_congr _ ?_)⟩
  ext1
  · exact ha
  · exact hb
  · exact hk
  · rfl

/-- Without a denominator, a unitary is diagonal or antidiagonal. -/
theorem inLayer_of_zero (hk : m.1.k = 0) : ∃ k ≤ GateTable.layers, InLayer k m := by
  have hlen := m.length_eq.1
  rw [hk] at hlen
  have hsum : m.1.u.norm.a + m.1.t.norm.a = 1 := hlen
  have hun := ZOmega.norm_a_nonneg m.1.u
  have htn := ZOmega.norm_a_nonneg m.1.t
  by_cases hu : m.1.u.norm.a = 0
  · obtain ⟨b, hb⟩ := ZOmega.exists_omegaPow_of_size (u := m.1.t) (by omega)
    have heq : m = ofRaw ⟨0, omegaPow (b.val : Int), 0, m.1.l⟩ (hasUnitLength_antidiagonal b m.1.l) := by
      refine (ofRaw_coe m).symm.trans (ofRaw_congr _ ?_)
      ext1
      · exact (ZOmega.norm_a_eq_zero_iff _).1 hu
      · exact hb
      · exact hk
      · rfl
    rw [heq]
    exact ⟨2, by decide, inLayer_antidiagonal b m.1.l⟩
  · obtain ⟨a, ha⟩ := ZOmega.exists_omegaPow_of_size (u := m.1.u) (by omega)
    have heq : m = diagonal a m.1.l := by
      refine (ofRaw_coe m).symm.trans (ofRaw_congr _ ?_)
      ext1
      · exact ha
      · exact (ZOmega.norm_a_eq_zero_iff _).1 (by omega)
      · exact hk
      · rfl
    rw [heq]
    exact ⟨0, by decide, inLayer_diagonal a m.1.l⟩

/-- The denominator exponent tells small denominators apart. -/
theorem sde_cases : (m.1.k = 0 ∧ m.1.sde = 0) ∨ (m.1.k = 1 ∧ m.1.sde = 2) ∨
    (2 ≤ m.1.k ∧ 2 * m.1.k - 1 ≤ m.1.sde) := by
  have hk := m.k_nonneg
  rcases lt_or_ge 1 m.1.k with h2 | h1
  · right; right
    refine ⟨by omega, ?_⟩
    rw [m.sde_of_pos (by omega)]
    split <;> omega
  rcases lt_or_ge 0 m.1.k with h1' | h0
  · right; left
    have hk1 : m.1.k = 1 := by omega
    obtain ⟨a, b, l, heq⟩ := m.exists_column hk1
    refine ⟨hk1, ?_⟩
    have hu : omegaPow (a.val : Int) ≠ 0 := by
      intro h0
      have hnorm := ZOmega.norm_omegaPow (a.val : Int)
      rw [h0] at hnorm
      exact absurd hnorm (by decide)
    rw [heq, sde_ofRaw _ hu, ZOmega.absValuation_of_odd (by rw [ZOmega.norm_omegaPow]; rfl)]
    rfl
  · left
    have hk0 : m.1.k = 0 := by omega
    exact ⟨hk0, m.sde_of_zero hk0⟩

theorem layer_inv_mul (j : Nat) (n : NormalUnitary) :
    tGate ^ j * hadamard * (hadamard * tGate⁻¹ ^ j * n) = n := by
  calc tGate ^ j * hadamard * (hadamard * tGate⁻¹ ^ j * n)
      = tGate ^ j * (hadamard * hadamard) * tGate⁻¹ ^ j * n := by simp only [mul_assoc]
    _ = n := by rw [hadamard_mul_hadamard, mul_one, inv_pow, mul_inv_cancel, one_mul]

/-- **A unitary with a denominator exponent of at most three is that of a short word.** -/
theorem inLayer_of_sde (hs : m.1.sde ≤ 3) : ∃ k ≤ GateTable.layers, InLayer k m := by
  rcases m.sde_cases with ⟨hk, -⟩ | ⟨hk, -⟩ | ⟨hk, hle⟩
  · exact m.inLayer_of_zero hk
  · obtain ⟨a, b, l, heq⟩ := m.exists_column hk
    rw [heq]
    exact ⟨1, by decide, inLayer_column a b l⟩
  · -- one layer leads to the exponent two, and so to the case before
    obtain ⟨j, hj⟩ := m.exists_layer hk
    have hk1 : (hadamard * tGate⁻¹ ^ j.val * m).1.k = 1 := by
      rcases (hadamard * tGate⁻¹ ^ j.val * m).sde_cases with ⟨-, h⟩ | ⟨h, -⟩ | ⟨h, h'⟩
      · omega
      · exact h
      · omega
    obtain ⟨a, b, l, heq⟩ := exists_column _ hk1
    have hm := layer_inv_mul j.val m
    rw [heq, tGate_pow] at hm
    rw [← hm]
    exact ⟨2, by decide, inLayer_layer_column _ a b l⟩

/-- The generated table has an entry for every such unitary. -/
theorem exists_get? (hs : m.1.sde ≤ 3) : ∃ w, GateTable.generate.get? m.1 = some w := by
  obtain ⟨k, hk, w, hw, g, i, hg, rfl⟩ := m.inLayer_of_sde hs
  exact GateTable.exists_get?_generate (GateTable.mem_words hw hk) hg i

/-! ## The run -/

theorem coe_hadamard : hadamard.1 = Unitary.hadamard := rfl

theorem coe_tGate_inv : (tGate⁻¹).1 = Unitary.tGate.dagger := rfl

/-- The four layers are the products `H T⁻ʲ`, each with the word `Tʲ H`. -/
theorem peelings_eq : peelings = [0, 1, 2, 3].map fun j : Nat =>
    ((hadamard * tGate⁻¹ ^ j : NormalUnitary).1, List.replicate j 'T' ++ ['H']) := by
  have h0 : hadamard * tGate⁻¹ ^ 0 = hadamard := by rw [pow_zero, mul_one]
  have h1 : hadamard * tGate⁻¹ ^ 1 = hadamard * tGate⁻¹ := by rw [pow_one]
  have h2 : hadamard * tGate⁻¹ ^ 2 = hadamard * tGate⁻¹ * tGate⁻¹ := by rw [pow_two, mul_assoc]
  have h3 : hadamard * tGate⁻¹ ^ 3 = hadamard * tGate⁻¹ * tGate⁻¹ * tGate⁻¹ := by
    rw [pow_succ, pow_two, mul_assoc, mul_assoc, mul_assoc]
  simp only [List.map_cons, List.map_nil, h0, h1, h2, h3]
  simp only [coe_mul, coe_hadamard, coe_tGate_inv]
  rfl

/-- Each layer is the inverse of its word. -/
theorem value?_peeling {p : Unitary × Word} (hp : p ∈ peelings) :
    ∃ g : NormalUnitary, p.1 = (g⁻¹).1 ∧ Word.value? p.2 = .ok g := by
  rw [peelings_eq] at hp
  obtain ⟨j, -, rfl⟩ := List.mem_map.1 hp
  have hT := Word.value?_replicate (c := 'T') (a := .t) rfl j
  have hH : Word.value? ['H'] = .ok hadamard := by
    rw [Word.value?_cons (g := .h) rfl]
    show Except.ok (hadamard * 1) = .ok hadamard
    rw [mul_one]
  refine ⟨tGate ^ j * hadamard, ?_, Word.value?_append hT hH⟩
  rw [mul_inv_rev, hadamard_inv, inv_pow]

/-- While the exponent is above three, some layer lowers it. -/
theorem exists_peeling (hs : 3 < m.1.sde) : ∃ p ∈ peelings, (p.1 * m.1).sde = m.1.sde - 1 := by
  have hk : 2 ≤ m.1.k := by
    rcases m.sde_cases with ⟨-, h⟩ | ⟨-, h⟩ | ⟨h, -⟩
    · omega
    · omega
    · exact h
  obtain ⟨j, hj⟩ := m.exists_layer hk
  refine ⟨((hadamard * tGate⁻¹ ^ j.val : NormalUnitary).1, List.replicate j.val 'T' ++ ['H']), ?_,
    hj⟩
  rw [peelings_eq]
  refine List.mem_map.2 ⟨j.val, ?_, rfl⟩
  simp
  omega

/-- The layer that is taken off is the inverse of its word. -/
theorem value?_of_peel? {layer : Word} {n : { n : Unitary // n.sde = m.1.sde - 1 }}
    (h : peel? m.1 = some (layer, n)) :
    ∃ g : NormalUnitary, layer.value? = .ok g ∧ n.1 = (g⁻¹ * m).1 := by
  obtain ⟨q, hq, heq⟩ := List.exists_of_findSome?_eq_some h
  dsimp only at heq
  split at heq
  · cases heq
    obtain ⟨g, hg, hv⟩ := value?_peeling hq
    refine ⟨g, hv, ?_⟩
    show q.1 * m.1 = (g⁻¹ * m).1
    rw [hg, coe_mul]
  · cases heq

/-- The layer that is taken off, and what is left, as elements of the group. -/
theorem exists_peel? (hs : 3 < m.1.sde) : ∃ (layer : Word) (n : { n : Unitary // n.sde = m.1.sde - 1 })
    (g : NormalUnitary), peel? m.1 = some (layer, n) ∧ layer.value? = .ok g ∧ n.1 = (g⁻¹ * m).1 := by
  obtain ⟨p, hp, hlow⟩ := m.exists_peeling hs
  cases hpeel : peel? m.1 with
  | none =>
    obtain ⟨op, word⟩ := p
    have hnone := List.findSome?_eq_none_iff.1 hpeel (op, word) hp
    dsimp only at hnone
    rw [dif_pos hlow] at hnone
    cases hnone
  | some found =>
    obtain ⟨g, hv, hleft⟩ := m.value?_of_peel? hpeel
    exact ⟨_, _, g, rfl, hv, hleft⟩

/-- The synthesis behind a word ends with a word for the product. -/
theorem synthesizeFrom_spec {word : Word} {h : NormalUnitary} (hw : word.value? = .ok h) :
    ∃ w, synthesizeFrom GateTable.generate word m.1 = .ok w ∧ w.value? = .ok (h * m) := by
  induction hn : m.1.sde.toNat using Nat.strongRecOn generalizing m word h with
  | ind n ih =>
    rw [synthesizeFrom]
    by_cases hs : 3 < m.1.sde
    · obtain ⟨layer, n', g, hpeel, hg, hn'⟩ := m.exists_peel? hs
      have hsde := n'.2
      rw [hn'] at hsde
      obtain ⟨w, hrun, hv⟩ := ih (g⁻¹ * m).1.sde.toNat (by omega) (g⁻¹ * m)
        (Word.value?_append hw hg) rfl
      rw [dif_pos hs, hpeel]
      refine ⟨w, ?_, ?_⟩
      · dsimp only
        rw [hn']
        exact hrun
      · rw [hv, mul_assoc, mul_inv_cancel_left]
    · obtain ⟨rest, hget⟩ := m.exists_get? (by omega)
      rw [dif_neg hs, hget]
      obtain ⟨g, hg, hm⟩ := Word.ofWord_eq_ok_iff.1 (GateTable.sound_generate _ _ hget)
      refine ⟨word ++ rest, rfl, ?_⟩
      rw [Word.value?_append hw hg, coe_injective hm]

end NormalUnitary

namespace Unitary

/-- **Exact synthesis never fails over the generated table.** For a unitary in normal form it gives a
word, and the word has that unitary. At every state of the loop some layer lowers a denominator
exponent above three by one, every layer leads to a normal form again, and a unitary with a smaller
exponent has an entry in the table. -/
theorem synthesize_generate {m : Unitary} (hm : m.isUnitary = true) (hr : m.isReducible = false) :
    (∃ word, synthesize m GateTable.generate = .ok word ∧ ofWord word = .ok m) ∧
    (3 < m.sde → ∃ p ∈ peelings, (p.1 * m).sde = m.sde - 1) ∧
    (∀ p ∈ peelings, (p.1 * m).isUnitary = true ∧ (p.1 * m).isReducible = false) ∧
    (m.sde ≤ 3 → ∃ word, GateTable.generate.get? m = some word) := by
  let n : NormalUnitary := ⟨m, hm, hr⟩
  refine ⟨?_, n.exists_peeling, fun p hp => ?_, n.exists_get?⟩
  · obtain ⟨w, hrun, hv⟩ := n.synthesizeFrom_spec (show Word.value? [] = .ok 1 from rfl)
    refine ⟨w, hrun, Word.ofWord_eq_ok_iff.2 ⟨_, hv, ?_⟩⟩
    rw [one_mul]
  · obtain ⟨g, hg, -⟩ := NormalUnitary.value?_peeling hp
    rw [hg]
    exact (g⁻¹ * n).2

/-- The synthesis of a unitary with the denominator exponent five. -/
theorem synthesize_generate_five :
    (3 < (⟨⟨-1, 2, 0, 1⟩, ⟨-1, 0, 0, 1⟩, 3, 3⟩ : Unitary).sde) ∧
    ∃ word, synthesize ⟨⟨-1, 2, 0, 1⟩, ⟨-1, 0, 0, 1⟩, 3, 3⟩ GateTable.generate = .ok word ∧
      ofWord word = .ok ⟨⟨-1, 2, 0, 1⟩, ⟨-1, 0, 0, 1⟩, 3, 3⟩ := by
  refine ⟨?_, (synthesize_generate (by decide) (by decide)).1⟩
  have hu : (⟨-1, 2, 0, 1⟩ : ZOmega) ≠ 0 := by decide
  rw [NormalUnitary.sde_eq hu, ZOmega.absValuation_of_even (by decide) (by decide)]
  decide

end Unitary

end CliffordT
