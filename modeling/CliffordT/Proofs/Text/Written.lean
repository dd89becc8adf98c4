/-
What is written is read back.

A number is written in digits with a minus in front of it where it is negative, so that its text has no
blank and no separator in it, and the readers of numbers take it for the number. They take nothing for a number
but a sign, where the type has one, and digits. Pieces without the separator that are put together with separators
come apart again.
-/
import Mathlib.Tactic.Common
import CliffordT.Text.Blank
import CliffordT.Text.Digits
import CliffordT.Text.Fields

namespace CliffordT.Text

/-! ## Blanks at the ends -/

/-- No blank stands at either end. -/
structure Trimmed (cs : List Char) : Prop where
  head : ∀ c ∈ cs.head?, isBlank c = false
  last : ∀ c ∈ cs.getLast?, isBlank c = false

theorem trimmed_iff {cs : List Char} :
    Trimmed cs ↔ cs.head?.all (!isBlank ·) = true ∧ cs.getLast?.all (!isBlank ·) = true := by
  simp only [Option.all_eq_true, Bool.not_eq_true']
  exact ⟨fun h => ⟨h.head, h.last⟩, fun h => ⟨h.1, h.2⟩⟩

instance (cs : List Char) : Decidable (Trimmed cs) := decidable_of_iff _ trimmed_iff.symm

theorem dropWhile_eq_self {p : Char → Bool} {cs : List Char} (h : ∀ c ∈ cs.head?, p c = false) :
    cs.dropWhile p = cs := by
  cases cs with
  | nil => rfl
  | cons c cs => rw [List.dropWhile_cons_of_neg (by simp [h c rfl])]

theorem Trimmed.trim_eq {cs : List Char} (h : Trimmed cs) : trim cs = cs := by
  rw [trim, dropWhile_eq_self h.head, dropWhile_eq_self (by rw [List.head?_reverse]; exact h.last),
    List.reverse_reverse]

theorem trimmed_of_forall {cs : List Char} (h : ∀ c ∈ cs, isBlank c = false) : Trimmed cs :=
  ⟨fun c hc => h c (List.mem_of_mem_head? hc), fun c hc => h c (List.mem_of_mem_getLast? hc)⟩

/-! ## Pieces -/

theorem pieces_eq_splitOn {α : Type} [BEq α] [LawfulBEq α] (sep : α) (l : List α) :
    pieces sep l = l.splitOn sep := by
  induction l with
  | nil => rfl
  | cons c l ih =>
    rw [List.splitOn_cons_eq_if_modifyHead, pieces, ih]
    split
    · rename_i h
      exact absurd h (List.splitOn_ne_nil sep l)
    · rename_i h
      rw [h, List.modifyHead_cons]

/-- Pieces without the separator, with separators between them. -/
theorem pieces_intercalate {α : Type} [BEq α] [LawfulBEq α] {sep : α} {ps : List (List α)}
    (hps : ∀ p ∈ ps, sep ∉ p) (hne : ps ≠ []) : pieces sep ([sep].intercalate ps) = ps := by
  rw [pieces_eq_splitOn, List.splitOn_intercalate sep hps hne]

/-- Pieces without the separator, each with a separator behind it. -/
theorem pieces_flatMap {α : Type} [BEq α] [LawfulBEq α] {sep : α} {ps : List (List α)}
    (hps : ∀ p ∈ ps, sep ∉ p) : pieces sep (ps.flatMap (· ++ [sep])) = ps ++ [[]] := by
  induction ps with
  | nil => rfl
  | cons p ps ih =>
    rw [List.flatMap_cons, List.append_assoc, List.singleton_append,
      pieces_append_cons (hps p List.mem_cons_self), ih fun q hq => hps q (List.mem_cons_of_mem p hq)]
    rfl

theorem mem_of_mem_intercalate {α : Type} {a sep : α} {ps : List (List α)}
    (h : a ∈ [sep].intercalate ps) : a = sep ∨ ∃ p ∈ ps, a ∈ p := by
  induction ps with
  | nil => cases h
  | cons p ps ih =>
    cases ps with
    | nil =>
      rw [List.intercalate_singleton] at h
      exact .inr ⟨p, List.mem_cons_self, h⟩
    | cons q ps =>
      rw [List.intercalate_cons_cons, List.mem_append, List.mem_append, List.mem_singleton] at h
      rcases h with (h | h) | h
      · exact .inr ⟨p, List.mem_cons_self, h⟩
      · exact .inl h
      · exact (ih h).imp_right fun ⟨r, hr, ha⟩ => ⟨r, List.mem_cons_of_mem p hr, ha⟩

/-- Pieces without blanks at their ends give a text without them, unless the first one is empty. -/
theorem trimmed_intercalate {sep : Char} (hsep : isBlank sep = false) {p : List Char} (hne : p ≠ [])
    {ps : List (List Char)} (hp : ∀ q ∈ p :: ps, Trimmed q) : Trimmed ([sep].intercalate (p :: ps)) := by
  constructor
  · obtain ⟨c, cs, rfl⟩ := List.exists_cons_of_ne_nil hne
    have hc := (hp _ List.mem_cons_self).head c rfl
    intro d hd
    cases ps with
    | nil =>
      rw [List.intercalate_singleton] at hd
      cases hd
      exact hc
    | cons q ps =>
      rw [List.intercalate_cons_cons] at hd
      cases hd
      exact hc
  · clear hne
    induction ps generalizing p with
    | nil =>
      rw [List.intercalate_singleton]
      exact (hp p List.mem_cons_self).last
    | cons q ps ih =>
      have hrest := ih fun r hr => hp r (List.mem_cons_of_mem p hr)
      intro c hc
      rw [List.intercalate_cons_cons, List.append_assoc, List.getLast?_append, List.singleton_append,
        List.getLast?_cons, Option.some_or] at hc
      cases hlast : ([sep].intercalate (q :: ps)).getLast? with
      | none =>
        rw [hlast] at hc
        cases hc
        exact hsep
      | some d =>
        rw [hlast] at hc
        cases hc
        exact hrest d hlast

/-! ## Digits -/

theorem toNat_of_isDigit {c : Char} (h : c.isDigit = true) : 48 ≤ c.toNat ∧ c.toNat ≤ 57 := by
  simpa [Char.isDigit, UInt32.le_iff_toNat_le] using h

theorem isBlank_of_isDigit {c : Char} (h : c.isDigit = true) : isBlank c = false := by
  have hrange := toNat_of_isDigit h
  simp only [isBlank, Bool.or_eq_false_iff, Bool.and_eq_false_iff, beq_eq_false_iff_ne,
    decide_eq_false_iff_not]
  omega

theorem isDigit_of_mem {n : Nat} {c : Char} (h : c ∈ Nat.toDigits 10 n) : c.isDigit = true :=
  Nat.isDigit_of_mem_toDigits (by decide) (by decide) h

/-- The text of an integer has digits, and a minus. -/
theorem mem_toString {n : Int} {c : Char} (h : c ∈ (toString n).toList) :
    c.isDigit = true ∨ c = '-' := by
  rw [Int.toString_eq_repr, Int.repr_eq_if] at h
  split at h
  · rw [Nat.toList_repr] at h
    exact .inl (isDigit_of_mem h)
  · rw [String.toList_append, Nat.toList_repr, List.mem_append] at h
    rcases h with h | h
    · exact .inr (List.mem_singleton.1 h)
    · exact .inl (isDigit_of_mem h)

theorem not_mem_toString {c : Char} (hdigit : c.isDigit = false) (hminus : c ≠ '-') (n : Int) :
    c ∉ (toString n).toList := by
  intro h
  rcases mem_toString h with h | h
  · rw [hdigit] at h
    cases h
  · exact hminus h

theorem trimmed_toString (n : Int) : Trimmed (toString n).toList := by
  refine trimmed_of_forall fun c hc => ?_
  rcases mem_toString hc with h | rfl
  · exact isBlank_of_isDigit h
  · decide

theorem toString_ne_nil (n : Int) : (toString n).toList ≠ [] := by
  rw [Int.toString_eq_repr, Int.repr_eq_if]
  split
  · rw [Nat.toList_repr]
    exact Nat.toDigits_ne_nil
  · simp

/-! ## Numbers -/

theorem digits?_toDigits (n : Nat) : digits? (Nat.toDigits 10 n) = some n := by
  have hall : (Nat.toDigits 10 n).all Char.isDigit = true :=
    List.all_eq_true.2 fun c hc => isDigit_of_mem hc
  rw [digits?, if_neg (by simp [Nat.toDigits_ne_nil]), if_pos hall]
  exact congrArg some Nat.ofDigitChars_ten_toDigits

theorem splitSign_toDigits (n : Nat) : splitSign (Nat.toDigits 10 n) = (false, Nat.toDigits 10 n) := by
  have hsign {c : Char} {cs : List Char} (h : Nat.toDigits 10 n = c :: cs) : c.isDigit = true :=
    isDigit_of_mem (h ▸ List.mem_cons_self)
  unfold splitSign
  split
  · rename_i h
    cases hsign h
  · rename_i h
    cases hsign h
  · rfl

/-- A number is read from its digits behind a sign. -/
theorem parseInt_of_splitSign {cs : List Char} {negative : Bool} {n : Nat}
    (h : splitSign cs = (negative, Nat.toDigits 10 n)) :
    parseInt cs = .ok (if negative then -(n : Int) else n) := by
  have hfilter : (Nat.toDigits 10 n).filter (· != '_') = Nat.toDigits 10 n :=
    List.filter_eq_self.2 fun c hc => bne_iff_ne.2 fun h => Nat.underscore_not_in_toDigits (h ▸ hc)
  rw [parseInt, h]
  dsimp only
  split
  · rename_i heq
    exact absurd heq Nat.toDigits_ne_nil
  · rename_i heq
    exact absurd (heq ▸ List.mem_cons_self) Nat.underscore_not_in_toDigits
  · rw [hfilter, digits?_toDigits]

/-- The text of an integer is read as the integer. -/
theorem parseInt_toString (n : Int) : parseInt (toString n).toList = .ok n := by
  rw [Int.toString_eq_repr, Int.repr_eq_if]
  split
  · rw [Nat.toList_repr, parseInt_of_splitSign (splitSign_toDigits n.toNat), if_neg (by decide),
      Int.toNat_of_nonneg ‹_›]
  · rw [String.toList_append, Nat.toList_repr]
    have hsign : splitSign ("-".toList ++ Nat.toDigits 10 (-n).toNat)
        = (true, Nat.toDigits 10 (-n).toNat) := rfl
    rw [parseInt_of_splitSign hsign, if_pos rfl]
    congr 1
    omega

theorem le_ofDigitChars (ds : List Char) (v : Nat) : v ≤ Nat.ofDigitChars 10 ds v := by
  rw [Nat.ofDigitChars_eq_ofDigitChars_zero]
  exact Nat.le_add_right_of_le (Nat.le_mul_of_pos_left v (Nat.pow_pos (by decide)))

/-! ## Bounded integers -/

inductive Sign
  | none
  | plus
  | minus

namespace Sign

def text : Sign → List Char
  | none => []
  | plus => ['+']
  | minus => ['-']

def isMinus : Sign → Bool
  | minus => true
  | _ => false

end Sign

def signed (negative : Bool) (n : Nat) : Int := if negative then -(n : Int) else n

/-- Every text is a sign, or none, and what is left of it. -/
theorem exists_sign (cs : List Char) :
    ∃ sign : Sign, (splitSign cs).1 = sign.isMinus ∧ cs = sign.text ++ (splitSign cs).2 := by
  unfold splitSign
  split
  · exact ⟨.minus, rfl, rfl⟩
  · exact ⟨.plus, rfl, rfl⟩
  · exact ⟨.none, rfl, rfl⟩

/-- A sign comes off, unless another one is behind it. -/
theorem splitSign_append (sign : Sign) {cs : List Char} (h : ∀ c ∈ cs.head?, c ≠ '-' ∧ c ≠ '+') :
    splitSign (sign.text ++ cs) = (sign.isMinus, cs) := by
  cases sign with
  | none =>
    cases cs with
    | nil => rfl
    | cons c cs =>
      obtain ⟨hminus, hplus⟩ := h c rfl
      show splitSign (c :: cs) = (false, c :: cs)
      unfold splitSign
      split
      · rename_i heq
        cases heq
        exact absurd rfl hminus
      · rename_i heq
        cases heq
        exact absurd rfl hplus
      · rfl
  | plus => rfl
  | minus => rfl

theorem isDigit_ne_sign {c : Char} (h : c.isDigit = true) : c ≠ '-' ∧ c ≠ '+' := by
  constructor
  · rintro rfl
    cases h
  · rintro rfl
    cases h

theorem boundedDigit_eq_ok_iff (range : IntRange) (negative : Bool) (n : Nat) {c : Char} {v : Int} :
    boundedDigit range negative (signed negative n) c = .ok v ↔
      c.isDigit = true ∧ v = signed negative (10 * n + (c.toNat - '0'.toNat)) ∧ range.lo ≤ v ∧ v ≤ range.hi := by
  unfold boundedDigit
  by_cases hc : c.isDigit = true
  · have hzero : '0'.toNat ≤ c.toNat := (toNat_of_isDigit hc).1
    have hnext : (if negative then 10 * signed negative n - ((c.toNat : Int) - ('0'.toNat : Nat))
          else 10 * signed negative n + ((c.toNat : Int) - ('0'.toNat : Nat)))
        = signed negative (10 * n + (c.toNat - '0'.toNat)) := by
      cases negative <;> simp only [signed, Bool.false_eq_true, if_true, if_false] <;> omega
    rw [if_pos hc]
    dsimp only
    rw [hnext]
    generalize signed negative (10 * n + (c.toNat - '0'.toNat)) = next
    split
    · simp only [reduceCtorEq, false_iff, not_and]
      omega
    · split
      · simp only [reduceCtorEq, false_iff, not_and]
        omega
      · simp only [Except.ok.injEq]
        constructor
        · rintro rfl
          exact ⟨hc, rfl, by omega, by omega⟩
        · exact fun h => h.2.1.symm
  · rw [if_neg hc]
    exact ⟨nofun, fun h => absurd h.1 hc⟩

/-- Digits are taken up one after the other; the number only moves away from zero, so that it is in the range all
the time if it is at the end. -/
theorem foldlM_boundedDigit_eq_ok_iff {range : IntRange} (hlo : range.lo ≤ 0) (hhi : 0 ≤ range.hi) (negative : Bool)
    (ds : List Char) {n : Nat} {w : Int}
    (hn : range.lo ≤ signed negative n ∧ signed negative n ≤ range.hi) :
    ds.foldlM (boundedDigit range negative) (signed negative n) = .ok w ↔
      (∀ c ∈ ds, c.isDigit = true) ∧ w = signed negative (Nat.ofDigitChars 10 ds n) ∧
        range.lo ≤ w ∧ w ≤ range.hi := by
  induction ds generalizing n with
  | nil =>
    show Except.ok (signed negative n) = .ok w ↔ _
    rw [Except.ok.injEq, Nat.ofDigitChars_nil]
    constructor
    · rintro rfl
      exact ⟨by simp, rfl, hn⟩
    · exact fun h => h.2.1.symm
  | cons c ds ih =>
    rw [List.foldlM_cons, Nat.ofDigitChars_cons]
    have hstep {v : Int} := boundedDigit_eq_ok_iff range negative n (c := c) (v := v)
    constructor
    · intro h
      cases hread : boundedDigit range negative (signed negative n) c with
      | error e =>
        rw [hread] at h
        cases h
      | ok v =>
        obtain ⟨hc, rfl, hv⟩ := hstep.1 hread
        rw [hread] at h
        obtain ⟨hds, hw⟩ := (ih hv).1 h
        exact ⟨List.forall_mem_cons.2 ⟨hc, hds⟩, hw⟩
    · rintro ⟨hds, rfl, hw⟩
      obtain ⟨hc, hds⟩ := List.forall_mem_cons.1 hds
      have hgrow := le_ofDigitChars ds (10 * n + (c.toNat - '0'.toNat))
      have hv : range.lo ≤ signed negative (10 * n + (c.toNat - '0'.toNat)) ∧
          signed negative (10 * n + (c.toNat - '0'.toNat)) ≤ range.hi := by
        cases negative <;> simp only [signed, Bool.false_eq_true, if_true, if_false] at hw ⊢ <;> omega
      rw [hstep.2 ⟨hc, rfl, hv⟩]
      exact (ih hv).2 ⟨hds, rfl, hw⟩

/-- Where there are negative numbers, both signs come off. -/
theorem parseBounded_eq {range : IntRange} (hlo : range.lo < 0) (cs : List Char) :
    parseBounded range cs = if cs.isEmpty then .error .empty
      else if (splitSign cs).2.isEmpty then .error .invalidDigit
      else (splitSign cs).2.foldlM (boundedDigit range (splitSign cs).1) 0 := by
  cases cs with
  | nil => rfl
  | cons c cs =>
    by_cases hplus : c = '+'
    · subst hplus
      rfl
    · by_cases hminus : c = '-'
      · subst hminus
        simp [parseBounded, splitSign, hlo]
      · simp [parseBounded, splitSign, hplus, hminus]

/-- An integer of a type with negative numbers is written as a sign, or none, and digits, and the type holds it. -/
theorem parseBounded_eq_ok_iff {range : IntRange} (hlo : range.lo < 0) (hhi : 0 ≤ range.hi) {cs : List Char}
    {v : Int} :
    parseBounded range cs = .ok v ↔ ∃ (sign : Sign) (ds : List Char), cs = sign.text ++ ds ∧ ds ≠ [] ∧
      (∀ c ∈ ds, c.isDigit = true) ∧ v = signed sign.isMinus (Nat.ofDigitChars 10 ds 0) ∧
        range.lo ≤ v ∧ v ≤ range.hi := by
  have hzero (negative : Bool) : signed negative 0 = 0 := by cases negative <;> rfl
  have hfold (sign : Sign) (ds : List Char) := foldlM_boundedDigit_eq_ok_iff (Int.le_of_lt hlo) hhi sign.isMinus ds
    (n := 0) (w := v) (by rw [hzero]; exact ⟨Int.le_of_lt hlo, hhi⟩)
  simp only [hzero] at hfold
  rw [parseBounded_eq hlo]
  constructor
  · intro h
    obtain ⟨sign, hsign, hcs⟩ := exists_sign cs
    split at h
    · cases h
    · split at h
      · cases h
      · rename_i hne
        rw [hsign] at h
        exact ⟨sign, (splitSign cs).2, hcs, by simpa using hne, (hfold _ _).1 h⟩
  · rintro ⟨sign, ds, rfl, hne, hds, hv⟩
    have hhead : ∀ c ∈ ds.head?, c ≠ '-' ∧ c ≠ '+' :=
      fun c hc => isDigit_ne_sign (hds c (List.mem_of_mem_head? hc))
    rw [splitSign_append sign hhead, if_neg (by simp [hne]), if_neg (by simp [hne])]
    exact (hfold _ _).2 ⟨hds, hv⟩

/-- The text of a number is read as the number, if the type holds it. -/
theorem parseBounded_toString {range : IntRange} (hlo : range.lo ≤ 0) {n : Int} (hn : 0 ≤ n)
    (hhi : n ≤ range.hi) : parseBounded range (toString n).toList = .ok n := by
  obtain ⟨n, rfl⟩ := Int.eq_ofNat_of_zero_le hn
  have htext : (toString (n : Int)).toList = Nat.toDigits 10 n := Nat.toList_repr
  have hsign {c : Char} {cs : List Char} (h : Nat.toDigits 10 n = c :: cs) : c.isDigit = true :=
    isDigit_of_mem (h ▸ List.mem_cons_self)
  have hread := (foldlM_boundedDigit_eq_ok_iff (n := 0) hlo (by omega : 0 ≤ range.hi) false
    (Nat.toDigits 10 n) ⟨hlo, by show (0 : Int) ≤ range.hi; omega⟩).2 ⟨fun c hc => isDigit_of_mem hc, rfl, by
      rw [Nat.ofDigitChars_ten_toDigits]; exact ⟨by show range.lo ≤ (n : Int); omega, hhi⟩⟩
  have hempty : (Nat.toDigits 10 n).isEmpty = false := by simp [Nat.toDigits_ne_nil]
  rw [Nat.ofDigitChars_ten_toDigits] at hread
  -- the first digit is no sign
  rw [htext, parseBounded, if_neg (by simp [hempty]), if_neg (by simp [hempty])]
  · exact hread
  · intro cs h
    cases hsign h
  · intro cs h
    cases hsign h

/-! ## Digits alone -/

theorem digits?_eq_some_iff {ds : List Char} {n : Nat} :
    digits? ds = some n ↔ ds ≠ [] ∧ (∀ c ∈ ds, c.isDigit = true) ∧ n = Nat.ofDigitChars 10 ds 0 := by
  have hvalue : digitsValue ds = Nat.ofDigitChars 10 ds 0 := rfl
  unfold digits?
  rw [hvalue]
  by_cases hne : ds = []
  · simp [hne]
  · rw [if_neg (by simpa using hne)]
    by_cases hall : ds.all Char.isDigit = true
    · rw [if_pos hall, Option.some.injEq, eq_comm]
      exact ⟨fun h => ⟨hne, List.all_eq_true.1 hall, h⟩, fun h => h.2.2⟩
    · rw [if_neg hall]
      exact ⟨nofun, fun h => absurd (List.all_eq_true.2 h.2.1) hall⟩

end CliffordT.Text
