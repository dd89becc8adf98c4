/-
Exact synthesis over any table whose entries are right.

A round of the loop takes a layer off what is left of the unitary and puts the word of the layer behind
the word so far. The layer is the inverse of its word, so the product of the word's unitary with what is
left stays the same: `Invariant` says so, and `Invariant.round` that a round keeps it. Each round lowers
the denominator exponent by one, so that their number is known beforehand. After the last one what is
left is looked up, and an entry that is right completes the word. The table need not be complete for
this, nor be the generated one.
-/
import CliffordT.Proofs.Unitary.Synthesis

namespace CliffordT

namespace Unitary

/-! ## Rounds -/

/-- One round, on the word so far and what is left of the unitary; none where the loop ends. -/
def round? (state : Word × Unitary) : Option (Word × Unitary) :=
  if 3 < state.2.sde then (peel? state.2).map fun (layer, rest) => (state.1 ++ layer, rest.val)
  else none

/-- The word so far and what is left of a unitary after a number of rounds, if the loop makes as many. -/
def afterRounds (m : Unitary) : Nat → Option (Word × Unitary)
  | 0 => some ([], m)
  | n + 1 => (afterRounds m n).bind round?

/-- The synthesis goes on with the state after a round. -/
theorem synthesizeFrom_round {table : GateTable} {state next : Word × Unitary}
    (h : round? state = some next) :
    synthesizeFrom table state.1 state.2 = synthesizeFrom table next.1 next.2 := by
  unfold round? at h
  split at h
  · rename_i hs
    obtain ⟨⟨layer, rest⟩, hpeel, rfl⟩ := Option.map_eq_some_iff.1 h
    rw [synthesizeFrom, dif_pos hs, hpeel]
  · cases h

/-- With a denominator exponent of at most three, what is left is looked up. -/
theorem synthesizeFrom_of_le {table : GateTable} {word : Word} {m : Unitary} (hs : m.sde ≤ 3) :
    synthesizeFrom table word m = match table.get? m with
      | some rest => .ok (word ++ rest)
      | none => .error (.internal ("no table entry for residual\n" ++ toString m)) := by
  cases hget : table.get? m with
  | none => rw [synthesizeFrom, dif_neg (by omega), hget]
  | some rest => rw [synthesizeFrom, dif_neg (by omega), hget]

/-! ## What a round keeps -/

/-- The state after `n` rounds from `m`: the word so far times what is left is `m`, each round has lowered
the denominator exponent by one, and the synthesis goes on from here. -/
structure Invariant (table : GateTable) (m : NormalUnitary) (n : Nat) (state : Word × Unitary) :
    Prop where
  splits : ∃ g h : NormalUnitary, state.1.value? = .ok g ∧ state.2 = h ∧ g * h = m
  sde : state.2.sde = m.1.sde - n
  continues : synthesize m table = synthesizeFrom table state.1 state.2

section Invariant

variable {table : GateTable} {m : NormalUnitary} {n : Nat} {state next : Word × Unitary}

theorem Invariant.start (table : GateTable) (m : NormalUnitary) : Invariant table m 0 ([], m) :=
  ⟨⟨1, m, rfl, rfl, one_mul m⟩, by simp, rfl⟩

/-- A round keeps the invariant. -/
theorem Invariant.round (h : Invariant table m n state) (hnext : round? state = some next) :
    Invariant table m (n + 1) next := by
  have hcontinues := h.continues.trans (synthesizeFrom_round hnext)
  obtain ⟨word, rest⟩ := state
  obtain ⟨⟨g, h', hg, hrest, hprod⟩, hsde, -⟩ := h
  cases hrest
  unfold round? at hnext
  split at hnext
  · obtain ⟨⟨layer, left⟩, hpeel, rfl⟩ := Option.map_eq_some_iff.1 hnext
    obtain ⟨a, ha, hleft⟩ := h'.value?_of_peel? hpeel
    refine ⟨⟨g * a, a⁻¹ * h', Word.value?_append hg ha, hleft, ?_⟩, ?_, hcontinues⟩
    · rw [mul_assoc, mul_inv_cancel_left, hprod]
    · have hlow := left.property
      dsimp only at hsde ⊢
      rw [hlow, hsde]
      push_cast
      ring
  · cases hnext

/-- A round is made as long as the exponent is above three. -/
theorem Invariant.exists_round (h : Invariant table m n state) (hs : 3 < state.2.sde) :
    ∃ next, round? state = some next := by
  obtain ⟨-, rest, -, hrest, -⟩ := h.splits
  obtain ⟨word, left⟩ := state
  cases hrest
  obtain ⟨layer, left, -, hpeel, -⟩ := rest.exists_peel? hs
  unfold round?
  rw [if_pos hs, hpeel]
  exact ⟨_, rfl⟩

theorem invariant_afterRounds (h : afterRounds m n = some state) : Invariant table m n state := by
  induction n generalizing state with
  | zero =>
    cases h
    exact .start table m
  | succ n ih =>
    obtain ⟨before, hbefore, hround⟩ := Option.bind_eq_some_iff.1 h
    exact (ih hbefore).round hround

/-- As many rounds are made as the exponent is above three. -/
theorem exists_afterRounds (hn : n ≤ (m.1.sde - 3).toNat) : ∃ state, afterRounds m n = some state := by
  induction n with
  | zero => exact ⟨_, rfl⟩
  | succ n ih =>
    obtain ⟨before, hbefore⟩ := ih (by omega)
    have hinv : Invariant GateTable.empty m n before := invariant_afterRounds hbefore
    obtain ⟨state, hround⟩ := hinv.exists_round (by rw [hinv.sde]; omega)
    exact ⟨state, Option.bind_eq_some_iff.2 ⟨before, hbefore, hround⟩⟩

/-- A word that is found over right entries is one for the unitary. -/
theorem value?_of_synthesize (htable : table.Sound) {word : Word}
    (h : synthesize m table = .ok word) : word.value? = .ok m := by
  obtain ⟨⟨sofar, rest⟩, hlast⟩ := exists_afterRounds (m := m) le_rfl
  have hinv : Invariant table m _ _ := invariant_afterRounds hlast
  obtain ⟨g, r, hg, hr, hprod⟩ := hinv.splits
  have hsde := hinv.sde
  dsimp only at hr hsde hg
  rw [hinv.continues] at h
  dsimp only at h
  rw [synthesizeFrom_of_le (by omega)] at h
  split at h
  · rename_i found hget
    cases h
    obtain ⟨v, hv, heq⟩ := Word.ofWord_eq_ok_iff.1 (htable _ _ hget)
    rw [Word.value?_append hg hv, ← NormalUnitary.coe_injective (hr.symm.trans heq), hprod]
  · cases h

end Invariant

/-- **Exact synthesis is sound over every table whose entries are right.** For a unitary in normal form the
loop makes as many rounds as the denominator exponent is above three, and then looks up what is left. After
any number of rounds what is left is in normal form, and the unitary of the word so far times what is left is
the unitary that was given. A word that is returned has that unitary. -/
theorem synthesize_sound {table : GateTable} (htable : table.Sound) {m : Unitary}
    (hm : m.isUnitary = true) (hr : m.isReducible = false) :
    (∃ word rest, afterRounds m (m.sde - 3).toNat = some (word, rest) ∧ rest.sde ≤ 3 ∧
      round? (word, rest) = none ∧
      synthesize m table = match table.get? rest with
        | some last => .ok (word ++ last)
        | none => .error (.internal ("no table entry for residual\n" ++ toString rest))) ∧
    (∀ n word rest, afterRounds m n = some (word, rest) →
      rest.isUnitary = true ∧ rest.isReducible = false ∧ rest.sde = m.sde - n ∧
      synthesize m table = synthesizeFrom table word rest ∧
      ∃ g, ofWord word = .ok g ∧ g * rest = m) ∧
    ∀ word, synthesize m table = .ok word → ofWord word = .ok m := by
  let d : NormalUnitary := ⟨m, hm, hr⟩
  refine ⟨?_, fun n word rest h => ?_, fun word h => ?_⟩
  · obtain ⟨⟨word, rest⟩, hlast⟩ := exists_afterRounds (m := d) le_rfl
    have hinv : Invariant table d _ _ := invariant_afterRounds hlast
    have hsde : rest.sde ≤ 3 := by
      have := hinv.sde
      dsimp only [d] at this
      omega
    refine ⟨word, rest, hlast, hsde, ?_, hinv.continues.trans (synthesizeFrom_of_le hsde)⟩
    rw [round?, if_neg (by dsimp only; omega)]
  · have hinv : Invariant table d n (word, rest) := invariant_afterRounds h
    obtain ⟨g, r, hg, hr, hprod⟩ := hinv.splits
    dsimp only at hr hg
    subst hr
    exact ⟨r.2.1, r.2.2, hinv.sde, hinv.continues, g, Word.ofWord_eq_ok_iff.2 ⟨g, hg, rfl⟩,
      congrArg Subtype.val hprod⟩
  · exact Word.ofWord_eq_ok_iff.2 ⟨d, value?_of_synthesize htable h, rfl⟩

/-- A table with the one entry `T H T H`, over which `H T H T H` is found. -/
theorem synthesize_sound_one_entry :
    ∃ table : GateTable,
      table = ⟨(∅ : Std.HashMap Unitary Word).insert ⟨⟨0, 0, 1, 1⟩, ⟨0, -1, 1, 0⟩, 2, 2⟩
        ['T', 'H', 'T', 'H']⟩ ∧
      table.Sound ∧
      (⟨⟨-1, 1, 0, 1⟩, ⟨0, 0, 1, 0⟩, 2, 6⟩ : Unitary).isUnitary = true ∧
      (⟨⟨-1, 1, 0, 1⟩, ⟨0, 0, 1, 0⟩, 2, 6⟩ : Unitary).isReducible = false ∧
      synthesize ⟨⟨-1, 1, 0, 1⟩, ⟨0, 0, 1, 0⟩, 2, 6⟩ table = .ok ['H', 'T', 'H', 'T', 'H'] ∧
      ofWord ['H', 'T', 'H', 'T', 'H'] = .ok ⟨⟨-1, 1, 0, 1⟩, ⟨0, 0, 1, 0⟩, 2, 6⟩ := by
  have hsound := GateTable.sound_empty.insert
    (m := ⟨⟨0, 0, 1, 1⟩, ⟨0, -1, 1, 0⟩, 2, 2⟩) (w := ['T', 'H', 'T', 'H']) (by decide +kernel)
  have hsde : ((⟨⟨-1, 1, 0, 1⟩, ⟨0, 0, 1, 0⟩, 2, 6⟩ : Unitary).sde - 3).toNat = 1 := by decide +kernel
  have hround : afterRounds ⟨⟨-1, 1, 0, 1⟩, ⟨0, 0, 1, 0⟩, 2, 6⟩ 1
      = some (['H'], ⟨⟨0, 0, 1, 1⟩, ⟨0, -1, 1, 0⟩, 2, 2⟩) := by decide +kernel
  obtain ⟨⟨word, rest, hlast, -, -, hrun⟩, -, hword⟩ :=
    synthesize_sound hsound (m := ⟨⟨-1, 1, 0, 1⟩, ⟨0, 0, 1, 0⟩, 2, 6⟩) (by decide) (by decide)
  rw [hsde, hround] at hlast
  cases hlast
  rw [GateTable.get?, Std.HashMap.getElem?_insert_self] at hrun
  exact ⟨_, rfl, hsound, by decide, by decide, hrun, hword _ hrun⟩

end Unitary

end CliffordT
