/-
The integers and the lines that are read from a text.

`WritesInt` and `WritesBounded` are the grammars of the two readers of integers: each accepts the texts of its
grammar, with the number that they write, and no others. A text is cut at its line feeds; what else ends a line,
the carriage return in front of the line feed, is blank and goes when the line is trimmed.
-/
import Mathlib.Data.List.Basic
import Mathlib.Data.List.TakeWhile
import CliffordT.Proofs.Text.Written

namespace CliffordT.Text

/-! ## Integers of any size -/

/-- A text writes an integer: a sign, or none, and digits, among which `_` may stand anywhere but first. -/
def WritesInt (cs : List Char) (n : Int) : Prop :=
  ∃ (sign : Sign) (ds : List Char), cs = sign.text ++ ds ∧ (∃ d ∈ ds.head?, d.isDigit = true) ∧
    (∀ c ∈ ds, c.isDigit = true ∨ c = '_') ∧
    n = signed sign.isMinus (Nat.ofDigitChars 10 (ds.filter (· != '_')) 0)

/-- The digits are what is left without the marks `_`, if the first one is no mark. -/
theorem digits?_filter_eq_some_iff {ds : List Char} (hhead : ∀ d ∈ ds.head?, d ≠ '_') {n : Nat} :
    digits? (ds.filter (· != '_')) = some n ↔ (∃ d ∈ ds.head?, d.isDigit = true) ∧
      (∀ c ∈ ds, c.isDigit = true ∨ c = '_') ∧ n = Nat.ofDigitChars 10 (ds.filter (· != '_')) 0 := by
  have hmem (c : Char) : c ∈ ds.filter (· != '_') ↔ c ∈ ds ∧ c ≠ '_' := by simp
  have hdigits : (∀ c ∈ ds.filter (· != '_'), c.isDigit = true) ↔ ∀ c ∈ ds, c.isDigit = true ∨ c = '_' := by
    refine forall_congr' fun c => ?_
    rw [hmem, and_imp, or_iff_not_imp_right]
  rw [digits?_eq_some_iff, hdigits]
  cases ds with
  | nil => simp
  | cons d ds =>
    have hd : d ≠ '_' := hhead d rfl
    have hne : (d :: ds).filter (· != '_') ≠ [] := List.ne_nil_of_mem ((hmem d).2 ⟨List.mem_cons_self, hd⟩)
    constructor
    · rintro ⟨-, hall, hn⟩
      exact ⟨⟨d, rfl, (hall d List.mem_cons_self).resolve_right hd⟩, hall, hn⟩
    · rintro ⟨-, hall, hn⟩
      exact ⟨hne, hall, hn⟩

/-- What is read behind the sign. -/
theorem parseInt_eq_ok_iff_of_splitSign {cs ds : List Char} {negative : Bool}
    (h : splitSign cs = (negative, ds)) {n : Int} :
    parseInt cs = .ok n ↔ (∃ d ∈ ds.head?, d.isDigit = true) ∧ (∀ c ∈ ds, c.isDigit = true ∨ c = '_') ∧
      n = signed negative (Nat.ofDigitChars 10 (ds.filter (· != '_')) 0) := by
  rw [parseInt, h]
  dsimp only
  split
  · simp
  · simp
  · rename_i hfirst
    have hhead : ∀ d ∈ ds.head?, d ≠ '_' := by
      rintro d hd rfl
      obtain ⟨tail, rfl⟩ := List.head?_eq_some_iff.1 hd
      exact hfirst tail rfl
    split
    · rename_i k hk
      obtain ⟨hfirst, hall, rfl⟩ := (digits?_filter_eq_some_iff hhead).1 hk
      rw [Except.ok.injEq, eq_comm]
      exact ⟨fun hn => ⟨hfirst, hall, hn⟩, fun hn => hn.2.2⟩
    · rename_i hk
      constructor
      · intro h
        cases h
      · rintro ⟨hfirst, hall, -⟩
        rw [(digits?_filter_eq_some_iff hhead).2 ⟨hfirst, hall, rfl⟩] at hk
        cases hk

/-- The texts that are read as integers are those that write them. -/
theorem parseInt_eq_ok_iff {cs : List Char} {n : Int} : parseInt cs = .ok n ↔ WritesInt cs n := by
  constructor
  · intro h
    obtain ⟨sign, hsign, hcs⟩ := exists_sign cs
    exact ⟨sign, _, hcs, (parseInt_eq_ok_iff_of_splitSign (Prod.ext hsign rfl)).1 h⟩
  · rintro ⟨sign, ds, rfl, hfirst, hds⟩
    obtain ⟨d, hd, hdigit⟩ := hfirst
    have hhead : ∀ c ∈ ds.head?, c ≠ '-' ∧ c ≠ '+' := fun c hc =>
      Option.some.inj (hd.symm.trans hc) ▸ isDigit_ne_sign hdigit
    exact (parseInt_eq_ok_iff_of_splitSign (splitSign_append sign hhead)).2 ⟨⟨d, hd, hdigit⟩, hds⟩

/-! ## Integers of a bounded type -/

/-- A text writes an integer of a bounded type: a plus, a minus where the type has negative numbers, or no sign, and
digits, and the type holds the number. -/
def WritesBounded (range : IntRange) (cs : List Char) (n : Int) : Prop :=
  ∃ (sign : Sign) (ds : List Char), cs = sign.text ++ ds ∧ (sign.isMinus = true → range.lo < 0) ∧ ds ≠ [] ∧
    (∀ c ∈ ds, c.isDigit = true) ∧ n = signed sign.isMinus (Nat.ofDigitChars 10 ds 0) ∧
    range.lo ≤ n ∧ n ≤ range.hi

theorem parseBounded_plus {range : IntRange} {ds : List Char} (hne : ds ≠ []) :
    parseBounded range ('+' :: ds) = ds.foldlM (boundedDigit range false) 0 := by
  simp [parseBounded, hne]

theorem WritesBounded.bounds {range : IntRange} {cs : List Char} {n : Int} (h : WritesBounded range cs n) :
    range.lo ≤ n ∧ n ≤ range.hi := by
  obtain ⟨_, _, _, _, _, _, _, hn⟩ := h
  exact hn

/-- Where there are no negative numbers, a minus is no sign. -/
theorem parseBounded_of_unsigned {range : IntRange} (hlo : ¬ range.lo < 0) {ds : List Char} (hne : ds ≠ [])
    (hplus : ∀ c ∈ ds.head?, c ≠ '+') : parseBounded range ds = ds.foldlM (boundedDigit range false) 0 := by
  obtain ⟨c, ds, rfl⟩ := List.exists_cons_of_ne_nil hne
  have hc : c ≠ '+' := hplus c rfl
  by_cases hminus : c = '-'
  · subst hminus
    simp [parseBounded, hlo]
  · simp [parseBounded, hc, hminus]

/-- The texts that are read as integers of a bounded type are those that write them. -/
theorem parseBounded_eq_ok_iff_writes {range : IntRange} (hlo : range.lo ≤ 0) (hhi : 0 ≤ range.hi) {cs : List Char}
    {n : Int} : parseBounded range cs = .ok n ↔ WritesBounded range cs n := by
  by_cases hneg : range.lo < 0
  · rw [parseBounded_eq_ok_iff hneg hhi]
    simp only [WritesBounded, hneg, implies_true, true_and]
  · have hzero : signed false 0 = 0 := rfl
    have hfold (ds : List Char) := foldlM_boundedDigit_eq_ok_iff hlo hhi false ds (n := 0) (w := n) ⟨hlo, hhi⟩
    rw [hzero] at hfold
    constructor
    · intro h
      by_cases hcs : cs = []
      · subst hcs
        cases h
      · obtain ⟨c, ds, rfl⟩ := List.exists_cons_of_ne_nil hcs
        by_cases hplus : c = '+'
        · subst hplus
          by_cases hds : ds = []
          · subst hds
            cases h
          · rw [parseBounded_plus hds] at h
            exact ⟨.plus, ds, rfl, nofun, hds, (hfold ds).1 h⟩
        · rw [parseBounded_of_unsigned hneg hcs (by simpa using hplus)] at h
          exact ⟨.none, c :: ds, rfl, nofun, hcs, (hfold _).1 h⟩
    · rintro ⟨sign, ds, rfl, hsign, hne, hds, hn⟩
      have hhead : ∀ c ∈ ds.head?, c ≠ '+' := fun c hc =>
        (isDigit_ne_sign (hds c (List.mem_of_mem_head? hc))).2
      cases sign with
      | minus => exact absurd (hsign rfl) hneg
      | none => exact (parseBounded_of_unsigned hneg hne hhead).trans ((hfold ds).2 ⟨hds, hn⟩)
      | plus => exact (parseBounded_plus hne).trans ((hfold ds).2 ⟨hds, hn⟩)

/-! ## Lines -/

theorem trim_eq_nil_iff {cs : List Char} : trim cs = [] ↔ ∀ c ∈ cs, isBlank c = true := by
  rw [trim, List.reverse_eq_nil_iff, List.dropWhile_eq_nil_iff]
  constructor
  · intro h
    by_contra hcs
    -- the first character that is no blank would stay
    have hne : cs.dropWhile isBlank ≠ [] := mt List.dropWhile_eq_nil_iff.1 hcs
    have hhead := h _ (List.mem_reverse.2 (List.head_mem hne))
    rw [List.head_dropWhile_not isBlank hne] at hhead
    cases hhead
  · intro h c hc
    rw [List.dropWhile_eq_nil_iff.2 h] at hc
    cases hc

theorem trim_append_blank {cs : List Char} {c : Char} (hc : isBlank c = true) : trim (cs ++ [c]) = trim cs := by
  rw [trim, trim, List.dropWhile_append]
  split
  · rename_i hnil
    simp [List.isEmpty_iff.1 hnil, hc]
  · simp [hc]

/-- The carriage return at the end of a line is a blank. -/
theorem trim_dropReturn (cs : List Char) : trim (dropReturn cs) = trim cs := by
  unfold dropReturn
  split
  · rename_i hlast
    rw [← trim_append_blank (c := '\r') (by decide), List.dropLast_append_getLast? _ hlast]
  · rfl

end CliffordT.Text
