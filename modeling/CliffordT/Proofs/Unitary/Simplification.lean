/-
The form of a simplified word.

A pass never makes a word longer, and makes it shorter where `HH` or `TT` stands in it. So a word at which
the passes stop has neither: `noPairs_of_length_le` reads this off the lengths alone. The letter `I` goes in
the first pass and comes back only for the empty word.
-/
import CliffordT.Proofs.Unitary.Words

namespace CliffordT.Word

/-- Neither `HH` nor `TT` stands in the word. -/
def NoPairs (w : Word) : Prop := ¬ ['H', 'H'] <:+: w ∧ ¬ ['T', 'T'] <:+: w

theorem noPairs_nil : NoPairs [] := by simp [NoPairs]

/-! ## One pass -/

theorem length_cancelPairs_le (w : Word) : (cancelPairs w).length ≤ w.length := by
  fun_induction cancelPairs w with
  | case1 rest ih => exact Nat.le_trans ih (by simp only [List.length_cons]; omega)
  | case2 rest ih => simp only [List.length_cons]; omega
  | case3 c rest _ _ ih => exact Nat.succ_le_succ ih
  | case4 => exact Nat.le_refl 0

/-- A word that a pass leaves as long as it was has no pairs. -/
theorem noPairs_of_length_le {w : Word} (h : w.length ≤ (cancelPairs w).length) : NoPairs w := by
  fun_induction cancelPairs w with
  | case1 rest ih =>
    have := length_cancelPairs_le rest
    simp only [List.length_cons] at h
    omega
  | case2 rest ih =>
    have := length_cancelPairs_le rest
    simp only [List.length_cons] at h
    omega
  | case3 c rest hHH hTT ih =>
    obtain ⟨hH, hT⟩ := ih (Nat.le_of_succ_le_succ h)
    -- the pair would be inside the rest, or be `c` with the first letter of the rest
    refine ⟨fun hpair => ?_, fun hpair => ?_⟩
    · rcases List.infix_cons_iff.1 hpair with hfront | hrest
      · obtain ⟨tail, heq⟩ := hfront
        cases heq
        exact hHH tail rfl rfl
      · exact hH hrest
    · rcases List.infix_cons_iff.1 hpair with hfront | hrest
      · obtain ⟨tail, heq⟩ := hfront
        cases heq
        exact hTT tail rfl rfl
      · exact hT hrest
  | case4 => exact noPairs_nil

theorem cancelPairs_singleton (c : Char) : cancelPairs [c] = [c] := by
  simp [cancelPairs]

theorem mem_of_mem_cancelPairs {c : Char} {w : Word} (h : c ∈ cancelPairs w) : c = 'S' ∨ c ∈ w := by
  fun_induction cancelPairs w with
  | case1 rest ih => exact (ih h).imp_right fun h => by simp [h]
  | case2 rest ih =>
    rcases List.mem_cons.1 h with rfl | h
    · exact .inl rfl
    · exact (ih h).imp_right fun h => by simp [h]
  | case3 a rest _ _ ih =>
    rcases List.mem_cons.1 h with rfl | h
    · exact .inr List.mem_cons_self
    · exact (ih h).imp_right (List.mem_cons_of_mem a)
  | case4 => cases h

theorem not_mem_dropIdentity (w : Word) : 'I' ∉ dropIdentity w := by
  simp [dropIdentity]

theorem dropIdentity_eq_self {w : Word} (h : 'I' ∉ w) : dropIdentity w = w := by
  refine List.filter_eq_self.2 fun c hc => bne_iff_ne.2 ?_
  rintro rfl
  exact h hc

/-- After a pass the word is `I`, or is not empty and has no `I`. -/
theorem simplify_cases (w : Word) : simplify w = ['I'] ∨ simplify w ≠ [] ∧ 'I' ∉ simplify w := by
  unfold simplify orIdentity
  split
  · exact .inl rfl
  · rename_i hne
    refine .inr ⟨by simpa using hne, fun h => ?_⟩
    rcases mem_of_mem_cancelPairs h with h | h
    · cases h
    · exact not_mem_dropIdentity w h

/-! ## Passes until the word stays as long -/

/-- The passes stop at a word that is simplified, and that another pass would not make shorter. -/
theorem shrink_simplify (w : Word) :
    ∃ v, shrink (simplify w) = simplify v ∧ (simplify v).length ≤ (simplify (simplify v)).length := by
  generalize hu : simplify w = u
  fun_induction shrink u generalizing w with
  | case1 u _ ih => exact ih u rfl
  | case2 u hstop => exact ⟨w, hu.symm, by rw [hu]; omega⟩

/-- **A simplified word is `I`, or is not empty and has neither `I` nor `HH` nor `TT`.** -/
theorem fullSimplify_cases (w : Word) : fullSimplify w = ['I'] ∨
    fullSimplify w ≠ [] ∧ 'I' ∉ fullSimplify w ∧ NoPairs (fullSimplify w) := by
  obtain ⟨v, hv, hlen⟩ := shrink_simplify w
  rw [fullSimplify, hv]
  rcases simplify_cases v with h | ⟨hne, hI⟩
  · exact .inl h
  refine .inr ⟨hne, hI, ?_⟩
  generalize simplify v = u at *
  rw [simplify, dropIdentity_eq_self hI, orIdentity] at hlen
  split at hlen
  · -- a word that vanishes in a pass is longer than one letter
    rename_i hempty
    rw [List.isEmpty_iff] at hempty
    obtain ⟨c, rest, rfl⟩ := List.exists_cons_of_ne_nil hne
    obtain rfl : rest = [] := List.eq_nil_of_length_eq_zero (by simpa using hlen)
    rw [cancelPairs_singleton] at hempty
    cases hempty
  · exact noPairs_of_length_le hlen

/-- The simplified word without `I` has no pairs either. -/
theorem noPairs_dropIdentity_fullSimplify (w : Word) : NoPairs (dropIdentity (fullSimplify w)) := by
  rcases fullSimplify_cases w with h | ⟨-, hI, hpairs⟩
  · rw [h]
    exact noPairs_nil
  · rwa [dropIdentity_eq_self hI]

end CliffordT.Word
