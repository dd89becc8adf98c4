/-
The simplified word as a normal form.

A word that is `I`, or is not empty and has neither `I` nor `HH` nor `TT`, is left as it is by a pass, so that
simplification is idempotent: `fullSimplify_cases` gives every simplified word this form.

`shrink` compares the words of two passes by their letters. The same loop on their lengths in bytes ends with the
same word: a pass drops and writes letters of one byte only, and copies a letter that is no gate, of however many
bytes, so that it saves as many bytes as letters.
-/
import CliffordT.Proofs.Unitary.Simplification
import CliffordT.Proofs.Unitary.Matrix
import CliffordT.Proofs.Loop

namespace CliffordT.Word

open CliffordT.Unitary

/-! ## What a pass leaves as it is -/

theorem cancelPairs_eq_self {w : Word} (h : NoPairs w) : cancelPairs w = w := by
  fun_induction cancelPairs w with
  | case1 rest _ => exact absurd ⟨[], rest, rfl⟩ h.1
  | case2 rest _ => exact absurd ⟨[], rest, rfl⟩ h.2
  | case3 c rest _ _ ih =>
    have hrest : NoPairs rest :=
      ⟨fun hpair => h.1 (hpair.trans (List.suffix_cons c rest).isInfix),
        fun hpair => h.2 (hpair.trans (List.suffix_cons c rest).isInfix)⟩
    rw [ih hrest]
  | case4 => rfl

/-- The words in which a pass finds nothing to do: `I`, and the words that are not empty and have neither `I`
nor a pair. -/
def IsReduced (w : Word) : Prop := w = ['I'] ∨ w ≠ [] ∧ 'I' ∉ w ∧ NoPairs w

theorem IsReduced.simplify_eq {w : Word} (h : IsReduced w) : simplify w = w := by
  rcases h with rfl | ⟨hne, hI, hpairs⟩
  · rfl
  · rw [simplify, dropIdentity_eq_self hI, cancelPairs_eq_self hpairs, orIdentity, List.isEmpty_eq_false_iff.2 hne]
    rfl

theorem IsReduced.fullSimplify_eq {w : Word} (h : IsReduced w) : fullSimplify w = w := by
  rw [fullSimplify, h.simplify_eq, shrink, h.simplify_eq, if_neg (Nat.lt_irrefl _)]

/-! ## Lengths in bytes -/

/-- The length of a word in bytes, as it is written in UTF-8. -/
def byteLength (w : Word) : Nat := (String.ofList w).utf8ByteSize

@[simp] theorem byteLength_nil : byteLength [] = 0 := rfl

@[simp] theorem byteLength_cons (c : Char) (w : Word) : byteLength (c :: w) = c.utf8Size + byteLength w := by
  simp [byteLength]

/-- `v` is longer or shorter than `w` by as many bytes as letters. -/
def SameExcess (v w : Word) : Prop := byteLength v + w.length = byteLength w + v.length

theorem SameExcess.trans {u v w : Word} (h : SameExcess u v) (h' : SameExcess v w) : SameExcess u w := by
  unfold SameExcess at *
  omega

theorem SameExcess.cons {v w : Word} (c : Char) (h : SameExcess v w) : SameExcess (c :: v) (c :: w) := by
  unfold SameExcess at *
  simp only [byteLength_cons, List.length_cons]
  omega

theorem SameExcess.length_lt_iff {v w : Word} (h : SameExcess v w) :
    byteLength v < byteLength w ↔ v.length < w.length := by
  unfold SameExcess at h
  omega

theorem sameExcess_dropIdentity (w : Word) : SameExcess (dropIdentity w) w := by
  induction w with
  | nil => rfl
  | cons c w ih =>
    unfold dropIdentity at ih ⊢
    by_cases hc : c = 'I'
    · subst hc
      rw [List.filter_cons_of_neg (by decide)]
      unfold SameExcess at *
      simp only [byteLength_cons, List.length_cons]
      have : 'I'.utf8Size = 1 := rfl
      omega
    · rw [List.filter_cons_of_pos (by simpa using hc)]
      exact ih.cons c

theorem sameExcess_cancelPairs (w : Word) : SameExcess (cancelPairs w) w := by
  have hH : 'H'.utf8Size = 1 := rfl
  have hT : 'T'.utf8Size = 1 := rfl
  have hS : 'S'.utf8Size = 1 := rfl
  fun_induction cancelPairs w with
  | case1 rest ih =>
    unfold SameExcess at *
    simp only [byteLength_cons, List.length_cons]
    omega
  | case2 rest ih =>
    unfold SameExcess at *
    simp only [byteLength_cons, List.length_cons]
    omega
  | case3 c rest _ _ ih => exact ih.cons c
  | case4 => rfl

theorem sameExcess_orIdentity (w : Word) : SameExcess (orIdentity w) w := by
  cases w with
  | nil => rfl
  | cons c w => rfl

theorem sameExcess_simplify (w : Word) : SameExcess (simplify w) w :=
  ((sameExcess_orIdentity _).trans (sameExcess_cancelPairs _)).trans (sameExcess_dropIdentity w)

/-! ## The loop of passes -/

/-- One round of the loop: the word after another pass, or the word itself when the pass does not save a byte. -/
def passRound (w : Word) : Word ⊕ Word :=
  if byteLength w ≤ byteLength (simplify w) then .inr w else .inl (simplify w)

theorem loopEnds_shrink (w : Word) : LoopEnds passRound w (shrink w) := by
  fun_induction shrink w with
  | case1 w hlt ih =>
    have hbytes := (sameExcess_simplify w).length_lt_iff.2 hlt
    exact .next (if_neg (Nat.not_le.2 hbytes)) ih
  | case2 w hstop =>
    have hbytes := mt (sameExcess_simplify w).length_lt_iff.1 hstop
    exact .done (if_pos (Nat.not_lt.1 hbytes))

/-! ## Values -/

theorem ofWord_eq_ok_congr {v w : Word} (h : value? v = value? w) (m : Unitary) :
    ofWord v = .ok m ↔ ofWord w = .ok m := by
  rw [ofWord_eq_ok_iff, ofWord_eq_ok_iff, h]

theorem exists_ofWord_eq_error_iff {w : Word} : (∃ e, ofWord w = .error e) ↔ ∃ c ∈ w, c ∉ letters := by
  rw [← exists_ofWord_eq_config_iff, ofWord]
  cases applyWord identity w with
  | ok m => simp
  | error c => simp

theorem exists_ofWord_eq_error_congr {v w : Word} (h : value? v = value? w) :
    (∃ e, ofWord v = .error e) ↔ ∃ e, ofWord w = .error e := by
  rw [exists_ofWord_eq_error_iff, exists_ofWord_eq_error_iff, ← exists_value?_eq_error_iff,
    ← exists_value?_eq_error_iff, h]

theorem exists_ofWord_eq_ok {w : Word} (h : ∀ c ∈ w, c ∈ letters) : ∃ m, ofWord w = .ok m := by
  cases hw : ofWord w with
  | ok m => exact ⟨m, rfl⟩
  | error e =>
    obtain ⟨c, hc, hbad⟩ := exists_ofWord_eq_error_iff.1 ⟨e, hw⟩
    exact absurd (h c hc) hbad

/-- **Simplification ends with the normal form of a word, which has the same unitary.** The passes, compared by
the length in bytes of their words, come to an end for every word, with a word that neither a pass nor a second
simplification changes. It is `I`, or is not empty and has neither `I` nor `HH` nor `TT`. A word over the five
letters has a unitary, and the simplified word has the same one; a word with another letter is refused, before
and after. -/
theorem fullSimplify_normalizes (w : Word) :
    LoopEnds passRound (simplify w) (fullSimplify w) ∧
    (simplify (fullSimplify w) = fullSimplify w ∧ fullSimplify (fullSimplify w) = fullSimplify w ∧
      (fullSimplify w = ['I'] ∨
        fullSimplify w ≠ [] ∧ 'I' ∉ fullSimplify w ∧
          ¬ ['H', 'H'] <:+: fullSimplify w ∧ ¬ ['T', 'T'] <:+: fullSimplify w)) ∧
    ((∀ c ∈ w, c ∈ letters) → ∃ m, ofWord w = .ok m ∧ ofWord (fullSimplify w) = .ok m) ∧
    ((∃ e, ofWord (fullSimplify w) = .error e) ↔ ∃ e, ofWord w = .error e) := by
  have hreduced : IsReduced (fullSimplify w) := fullSimplify_cases w
  have hvalue := value?_fullSimplify w
  refine ⟨loopEnds_shrink (simplify w), ⟨hreduced.simplify_eq, hreduced.fullSimplify_eq, hreduced⟩,
    fun hletters => ?_, exists_ofWord_eq_error_congr hvalue⟩
  obtain ⟨m, hm⟩ := exists_ofWord_eq_ok hletters
  exact ⟨m, hm, (ofWord_eq_ok_congr hvalue m).2 hm⟩

/-- Passes that expose new pairs, next to a letter of two bytes that is copied. -/
example : fullSimplify "HTTTTHéIH".toList = "HSSHéH".toList := by decide +kernel

end CliffordT.Word
