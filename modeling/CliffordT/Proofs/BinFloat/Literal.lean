/-
The texts that are decimal literals, and the numbers they are read as.

`DecimalParts` is the grammar: an optional sign, digits, optionally a point and more digits, and optionally a mark
with a sign and digits for the power of ten. The reader looks for these parts one after the other, each by a
search of its own, and what it accepts is what the parts can be put together to, `parse?_eq_some_iff`. The number
is the exact one up to at most three roundings, of the digits, of the power of ten and of their quotient; where the
power of ten does not divide, there is one rounding only.
-/
import CliffordT.BinFloat.Decimal
import CliffordT.Proofs.BinFloat.CorrectRounding
import CliffordT.Proofs.Text.Written

namespace CliffordT

/-! ## The grammar -/

/-- The power of ten of a literal, behind its mark. -/
structure ExponentPart where
  mark : Char
  sign : Text.Sign
  digits : List Char

namespace ExponentPart

def number (e : ExponentPart) : List Char := e.sign.text ++ e.digits

def value (e : ExponentPart) : Int := Text.signed e.sign.isMinus (Nat.ofDigitChars 10 e.digits 0)

/-- The mark is one of the letters, there are digits and nothing else, and the number has 64 bits. -/
structure WellFormed (e : ExponentPart) : Prop where
  mark : e.mark = 'e' ∨ e.mark = 'E'
  ne_nil : e.digits ≠ []
  digits : ∀ c ∈ e.digits, c.isDigit = true
  bounds : -2 ^ 63 ≤ e.value ∧ e.value < 2 ^ 63

end ExponentPart

/-- The parts of a decimal literal; the digits behind the point may be missing with the point or without it. -/
structure DecimalParts where
  sign : Text.Sign
  whole : List Char
  fraction : Option (List Char)
  exponent : Option ExponentPart

namespace DecimalParts

def fractionDigits (l : DecimalParts) : List Char := l.fraction.getD []

def body (l : DecimalParts) : List Char := l.whole ++ l.fraction.elim [] ('.' :: ·)

def unsignedText (l : DecimalParts) : List Char := l.body ++ l.exponent.elim [] fun e => e.mark :: e.number

def text (l : DecimalParts) : List Char := l.sign.text ++ l.unsignedText

/-- There is a digit, and there are only digits; the power of ten is well formed. -/
structure WellFormed (l : DecimalParts) : Prop where
  digits : ∀ c ∈ l.whole ++ l.fractionDigits, c.isDigit = true
  ne_nil : l.whole ++ l.fractionDigits ≠ []
  exponent : ∀ e ∈ l.exponent, e.WellFormed

def power (l : DecimalParts) : Int := l.exponent.elim 0 ExponentPart.value

/-- The power of ten of the last digit. -/
def netPower (l : DecimalParts) : Int := l.power - l.fractionDigits.length

/-- The exact number: what stands before the point and behind it, times the power of ten. -/
noncomputable def value (l : DecimalParts) : ℝ :=
  (if l.sign.isMinus then -1 else 1) * ((Nat.ofDigitChars 10 l.whole 0 : ℝ)
    + Nat.ofDigitChars 10 l.fractionDigits 0 / 10 ^ l.fractionDigits.length) * 10 ^ l.power

def literal (l : DecimalParts) : DecimalLiteral where
  numerator := Text.signed l.sign.isMinus (Nat.ofDigitChars 10 (l.whole ++ l.fractionDigits) 0)
  exponent := l.netPower

end DecimalParts

/-! ## The reader -/

namespace DecimalLiteral

open Text (splitSign trim digits? parseBounded)

/-- The two parts of a text that splits at a mark, put together again with the mark. -/
theorem exists_mark_of_splitAtFirst {isMark : Char → Bool} {cs before : List Char} {after : Option (List Char)}
    (h : splitAtFirst isMark cs = (before, after)) :
    ∃ marked : Option (Char × List Char), (∀ m ∈ marked, isMark m.1 = true) ∧
      cs = before ++ marked.elim [] (fun m => m.1 :: m.2) ∧ after = marked.map Prod.snd := by
  induction cs generalizing before with
  | nil =>
    cases h
    exact ⟨none, by simp, rfl, rfl⟩
  | cons c cs ih =>
    rw [splitAtFirst] at h
    by_cases hc : isMark c = true
    · rw [if_pos hc] at h
      cases h
      exact ⟨some (c, cs), by simpa using hc, rfl, rfl⟩
    · rw [if_neg hc] at h
      cases h
      obtain ⟨marked, hmarked, hcs, hafter⟩ := ih rfl
      exact ⟨marked, hmarked, congrArg (c :: ·) hcs, hafter⟩

/-- A text splits at the first mark. -/
theorem splitAtFirst_append {isMark : Char → Bool} {before : List Char} (hbefore : ∀ c ∈ before, isMark c = false)
    {marked : Option (Char × List Char)} (hmarked : ∀ m ∈ marked, isMark m.1 = true) :
    splitAtFirst isMark (before ++ marked.elim [] fun m => m.1 :: m.2) = (before, marked.map Prod.snd) := by
  induction before with
  | nil =>
    cases marked with
    | none => rfl
    | some m => exact if_pos (hmarked m rfl)
  | cons c before ih =>
    obtain ⟨hc, hrest⟩ := List.forall_mem_cons.1 hbefore
    rw [List.cons_append, splitAtFirst, if_neg (by simp [hc]), ih hrest]

def isExponentMark (c : Char) : Bool := c == 'e' || c == 'E'

/-- The searches of the reader one after the other, without the names for their results. -/
theorem parse?_eq_some_iff_searches {s : String} {l : DecimalLiteral} :
    parse? s = some l ↔ ∃ (negative : Bool) (cs body : List Char) (power : Option (List Char)) (whole : List Char)
      (fraction : Option (List Char)) (e : Int) (n : Nat),
      splitSign (trim s.toList) = (negative, cs) ∧ splitAtFirst isExponentMark cs = (body, power) ∧
      splitAtFirst (· == '.') body = (whole, fraction) ∧
      power.elim (.ok 0) (parseBounded .int64) = .ok e ∧ digits? (whole ++ fraction.getD []) = some n ∧
      l = ⟨Text.signed negative n, e - (fraction.getD []).length⟩ := by
  constructor
  · intro h
    unfold parse? at h
    dsimp only at h
    split at h
    · rename_i e n he hn
      exact ⟨_, _, _, _, _, _, e, n, rfl, rfl, rfl, he, hn, (Option.some.inj h).symm⟩
    · cases h
  · rintro ⟨negative, cs, body, power, whole, fraction, e, n, hsign, hmark, hpoint, he, hn, rfl⟩
    unfold parse?
    rw [hsign]
    dsimp only
    rw [show splitAtFirst (fun c => c == 'e' || c == 'E') cs = (body, power) from hmark]
    dsimp only
    rw [hpoint]
    dsimp only
    rw [he, hn]
    rfl

theorem isDigit_ne_mark {c : Char} (h : c.isDigit = true) : isExponentMark c = false ∧ (c == '.') = false := by
  have hne {d : Char} (hd : d.isDigit = false) : (c == d) = false := by
    rw [beq_eq_false_iff_ne]
    rintro rfl
    rw [hd] at h
    cases h
  exact ⟨Bool.or_eq_false_iff.2 ⟨hne rfl, hne rfl⟩, hne rfl⟩

/-- Behind its mark, a power of ten is a number of the type that it is read into. -/
theorem parseExponent_eq_ok_iff {mark : Char} (hmark : isExponentMark mark = true) {cs : List Char} {e : Int} :
    parseBounded .int64 cs = .ok e ↔
      ∃ part : ExponentPart, part.mark = mark ∧ part.WellFormed ∧ cs = part.number ∧ e = part.value := by
  have hlo : Text.IntRange.int64.lo = -2 ^ 63 := by decide
  have hhi : Text.IntRange.int64.hi = 2 ^ 63 - 1 := by decide
  have hletter : mark = 'e' ∨ mark = 'E' := by simpa [isExponentMark] using hmark
  rw [Text.parseBounded_eq_ok_iff (by decide) (by decide), hlo, hhi]
  constructor
  · rintro ⟨sign, ds, rfl, hne, hds, rfl, hlow, hhigh⟩
    exact ⟨⟨mark, sign, ds⟩, rfl, ⟨hletter, hne, hds, hlow, Int.le_sub_one_iff.1 hhigh⟩, rfl, rfl⟩
  · rintro ⟨part, -, hpart, rfl, rfl⟩
    obtain ⟨hlow, hhigh⟩ := hpart.bounds
    exact ⟨part.sign, part.digits, rfl, hpart.ne_nil, hpart.digits, rfl, hlow, Int.le_sub_one_iff.2 hhigh⟩

/-- What is accepted can be put together from parts. -/
theorem exists_parts_of_parse? {s : String} {l : DecimalLiteral} (h : parse? s = some l) :
    ∃ parts : DecimalParts, parts.WellFormed ∧ trim s.toList = parts.text ∧ l = parts.literal := by
  obtain ⟨negative, cs, body, power, whole, fraction, e, n, hsign, hmark, hpoint, he, hn, rfl⟩ :=
    parse?_eq_some_iff_searches.1 h
  obtain ⟨sign, hnegative, htext⟩ := Text.exists_sign (trim s.toList)
  rw [hsign] at hnegative htext
  obtain ⟨marked, hmarked, rfl, rfl⟩ := exists_mark_of_splitAtFirst hmark
  obtain ⟨pointed, hpointed, rfl, rfl⟩ := exists_mark_of_splitAtFirst hpoint
  obtain ⟨hne, hdigits, rfl⟩ := Text.digits?_eq_some_iff.1 hn
  obtain ⟨exponent, hexponent, hpower, hmarkedText⟩ : ∃ exponent : Option ExponentPart,
      (∀ part ∈ exponent, part.WellFormed) ∧ e = exponent.elim 0 ExponentPart.value ∧
        marked.elim [] (fun m => m.1 :: m.2) = exponent.elim [] fun part => part.mark :: part.number := by
    cases marked with
    | none =>
      cases he
      exact ⟨none, by simp, rfl, rfl⟩
    | some m =>
      obtain ⟨mark, after⟩ := m
      obtain ⟨part, rfl, hpart, rfl, rfl⟩ := (parseExponent_eq_ok_iff (hmarked _ rfl)).1 he
      exact ⟨some part, by simpa using hpart, rfl, rfl⟩
  have hpointedText : pointed.elim [] (fun m => m.1 :: m.2) = (pointed.map Prod.snd).elim [] ('.' :: ·) := by
    cases pointed with
    | none => rfl
    | some m =>
      have hm : m.1 = '.' := by simpa using hpointed m rfl
      rw [Option.elim_some, hm]
      rfl
  refine ⟨⟨sign, whole, pointed.map Prod.snd, exponent⟩, ⟨hdigits, hne, hexponent⟩, ?_, ?_⟩
  · rw [htext, hmarkedText, hpointedText]
    rfl
  · rw [show negative = sign.isMinus from hnegative, hpower]
    rfl

theorem isExponentMark_of_wellFormed {e : ExponentPart} (h : e.WellFormed) : isExponentMark e.mark = true := by
  unfold isExponentMark
  rcases h.mark with hmark | hmark
  · rw [hmark]
    rfl
  · rw [hmark]
    rfl

section Parts

variable {parts : DecimalParts}

/-- A literal starts with a digit or with the point behind its sign. -/
theorem head_unsignedText (h : parts.WellFormed) : ∀ c ∈ parts.unsignedText.head?, c ≠ '-' ∧ c ≠ '+' := by
  unfold DecimalParts.unsignedText DecimalParts.body
  cases hwhole : parts.whole with
  | cons d ds =>
    intro c hc
    cases hc
    exact Text.isDigit_ne_sign (h.digits _ (List.mem_append_left _ (hwhole ▸ List.mem_cons_self)))
  | nil =>
    cases hfraction : parts.fraction with
    | none =>
      refine absurd ?_ h.ne_nil
      rw [hwhole, DecimalParts.fractionDigits, hfraction]
      rfl
    | some ds =>
      intro c hc
      cases hc
      decide

/-- The letter is found at the power of ten. -/
theorem splitAtFirst_unsignedText (h : parts.WellFormed) :
    splitAtFirst isExponentMark parts.unsignedText = (parts.body, parts.exponent.map ExponentPart.number) := by
  have hbody : ∀ c ∈ parts.body, isExponentMark c = false := by
    have hdigit {c : Char} (hc : c ∈ parts.whole ++ parts.fractionDigits) := (isDigit_ne_mark (h.digits c hc)).1
    unfold DecimalParts.fractionDigits at hdigit
    unfold DecimalParts.body
    intro c hc
    cases hfraction : parts.fraction with
    | none =>
      rw [hfraction, Option.elim_none, List.append_nil] at hc
      exact hdigit (List.mem_append_left _ hc)
    | some ds =>
      rw [hfraction, Option.elim_some, List.mem_append, List.mem_cons] at hc
      rw [hfraction, Option.getD_some] at hdigit
      rcases hc with hc | rfl | hc
      · exact hdigit (List.mem_append_left _ hc)
      · rfl
      · exact hdigit (List.mem_append_right _ hc)
  have hmarked : ∀ m ∈ parts.exponent.map fun e => (e.mark, e.number), isExponentMark m.1 = true := by
    intro m hm
    obtain ⟨e, he, rfl⟩ := Option.mem_map.1 hm
    exact isExponentMark_of_wellFormed (h.exponent e he)
  have hsplit := splitAtFirst_append hbody hmarked
  unfold DecimalParts.unsignedText
  cases hexponent : parts.exponent <;> rw [hexponent] at hsplit <;> exact hsplit

/-- The point is found in front of the fraction. -/
theorem splitAtFirst_body (h : parts.WellFormed) :
    splitAtFirst (· == '.') parts.body = (parts.whole, parts.fraction) := by
  have hwhole : ∀ c ∈ parts.whole, (c == '.') = false :=
    fun c hc => (isDigit_ne_mark (h.digits c (List.mem_append_left _ hc))).2
  have hmarked : ∀ m ∈ parts.fraction.map fun ds => ('.', ds), (m.1 == '.') = true := by
    intro m hm
    obtain ⟨ds, -, rfl⟩ := Option.mem_map.1 hm
    rfl
  have hsplit := splitAtFirst_append hwhole hmarked
  unfold DecimalParts.body
  cases hfraction : parts.fraction <;> rw [hfraction] at hsplit <;> exact hsplit

theorem parsePower_of_parts (h : parts.WellFormed) :
    (parts.exponent.map ExponentPart.number).elim (.ok 0) (parseBounded .int64) = .ok parts.power := by
  unfold DecimalParts.power
  cases hexponent : parts.exponent with
  | none => rfl
  | some e =>
    have he := h.exponent e hexponent
    exact (parseExponent_eq_ok_iff (isExponentMark_of_wellFormed he)).2 ⟨e, rfl, he, rfl, rfl⟩

/-- What is put together from parts is accepted. -/
theorem parse?_of_parts {s : String} (h : parts.WellFormed) (htext : trim s.toList = parts.text) :
    parse? s = some parts.literal := by
  have hsign : splitSign (trim s.toList) = (parts.sign.isMinus, parts.unsignedText) := by
    rw [htext]
    exact Text.splitSign_append parts.sign (head_unsignedText h)
  exact parse?_eq_some_iff_searches.2 ⟨_, _, _, _, _, _, _, _, hsign, splitAtFirst_unsignedText h,
    splitAtFirst_body h, parsePower_of_parts h, Text.digits?_eq_some_iff.2 ⟨h.ne_nil, h.digits, rfl⟩, rfl⟩

end Parts

/-- **The reader accepts exactly its grammar.** -/
theorem parse?_eq_some_iff {s : String} {l : DecimalLiteral} : parse? s = some l ↔
    ∃ parts : DecimalParts, parts.WellFormed ∧ trim s.toList = parts.text ∧ l = parts.literal := by
  constructor
  · exact exists_parts_of_parse?
  · rintro ⟨parts, h, htext, rfl⟩
    exact parse?_of_parts h htext

/-! ## The number -/

section Value

variable {p : Nat}

theorem cast_signed (negative : Bool) (n : Nat) :
    ((Text.signed negative n : Int) : ℝ) = (if negative then -1 else 1) * n := by
  cases negative <;> simp [Text.signed]

/-- The digits in one row, at the power of ten of the last of them, are the number. -/
theorem cast_literal (parts : DecimalParts) :
    (parts.literal.numerator : ℝ) * 10 ^ parts.literal.exponent = parts.value := by
  have hten : (10 : ℝ) ≠ 0 := by norm_num
  have hdigits : (Nat.ofDigitChars 10 (parts.whole ++ parts.fractionDigits) 0 : ℝ)
      = 10 ^ parts.fractionDigits.length * Nat.ofDigitChars 10 parts.whole 0
        + Nat.ofDigitChars 10 parts.fractionDigits 0 := by
    rw [Nat.ofDigitChars_append, Nat.ofDigitChars_eq_ofDigitChars_zero]
    push_cast
    rfl
  unfold DecimalParts.literal DecimalParts.value DecimalParts.netPower
  rw [cast_signed, hdigits, zpow_sub₀ hten, zpow_natCast]
  field_simp

/-- A power of ten that multiplies is exact, and there is one rounding. -/
theorem roundedTo_value {l : DecimalLiteral} (hp : 1 ≤ p) (hexp : 0 ≤ l.exponent) :
    BinFloat.RoundedTo p (l.numerator * 10 ^ l.exponent) (l.value p) := by
  have hexact : (l.numerator : ℝ) * 10 ^ l.exponent
      = ((l.numerator * (Nat.pow 10 l.exponent.toNat : Nat) : Int) : ℝ) * 2 ^ (0 : Int) := by
    obtain ⟨n, hn⟩ := Int.eq_ofNat_of_zero_le hexp
    rw [hn, zpow_natCast, zpow_zero, mul_one, Int.toNat_natCast]
    push_cast [Nat.pow_eq]
    rfl
  unfold DecimalLiteral.value
  rw [if_pos hexp, hexact]
  exact ⟨BinFloat.prec_ofScaled _ _ _, BinFloat.fits_ofScaled _ _ _, BinFloat.isNearest_ofScaled hp _ _⟩

/-- A power of ten that divides is rounded, and so are the digits and the quotient. -/
theorem value_within (l : DecimalLiteral) (hp : 4 ≤ p) :
    BinFloat.Within (8 * BinFloat.roundoff p) (l.value p).value (l.numerator * 10 ^ l.exponent) := by
  have hη := BinFloat.roundoff_pos p
  have hη1 : BinFloat.roundoff p ≤ 1 / 2 ^ 4 := (BinFloat.roundoff_anti hp).trans (BinFloat.roundoff_eq 4).le
  unfold DecimalLiteral.value
  by_cases hexp : 0 ≤ l.exponent
  · obtain ⟨n, hn⟩ := Int.eq_ofNat_of_zero_le hexp
    have hround := BinFloat.value_ofInt_within (l.numerator * (Nat.pow 10 l.exponent.toNat : Nat)) p
    rw [if_pos hexp, hn, zpow_natCast]
    rw [hn, Int.toNat_natCast, Nat.pow_eq] at hround
    push_cast at hround
    exact hround.mono (by linarith)
  · obtain ⟨n, hn⟩ := Int.eq_ofNat_of_zero_le (by omega : 0 ≤ -l.exponent)
    have hneg : l.exponent = -(n : Int) := by omega
    have hnum := BinFloat.value_ofInt_within l.numerator p
    have hden := BinFloat.value_ofInt_within (Nat.pow 10 n : Nat) p
    rw [Nat.pow_eq] at hden
    push_cast at hden
    have hne : (BinFloat.ofInt (10 ^ n : Nat) p).value ≠ 0 := hden.ne_zero (by linarith) (by positivity)
    have hquot := BinFloat.value_div_within_three_halves (BinFloat.ofInt l.numerator p) hne
    rw [BinFloat.prec_ofInt, BinFloat.prec_ofInt, max_self] at hquot
    rw [if_neg hexp, hneg, neg_neg, Int.toNat_natCast, zpow_neg, zpow_natCast, ← div_eq_mul_inv, Nat.pow_eq]
    exact (hquot.trans (by linarith) (by linarith)
      (hnum.div hη.le (by linarith) (by linarith) hden)).mono (by linarith)

end Value

end DecimalLiteral

namespace BinFloat

/-- **Decimal texts.** A text is accepted exactly if it is a literal, up to blanks around it. The number is then the
exact one within `2 ^ (3 - p)` of its size, and the exact one rounded to the nearest number where the last digit
does not stand for a fraction. The power of ten that is written has 64 bits; the one of the last digit may have
more. -/
theorem parseDecimal?_accurate {p : Nat} (hp : 4 ≤ p) (s : String) :
    ((parseDecimal? s p).isSome ↔
      ∃ parts : DecimalParts, parts.WellFormed ∧ Text.trim s.toList = parts.text) ∧
    ∀ parts : DecimalParts, parts.WellFormed → Text.trim s.toList = parts.text →
      ∃ z, parseDecimal? s p = some z ∧
        |z.value - parts.value| ≤ 2 ^ (3 - p : ℤ) * |parts.value| ∧
        (0 ≤ parts.netPower → RoundedTo p parts.value z) := by
  have hpow : (2 : ℝ) ^ (3 - p : ℤ) = 8 * roundoff p := by
    rw [two_zpow_sub]
    norm_num
  constructor
  · unfold parseDecimal?
    rw [Option.isSome_map, Option.isSome_iff_exists]
    constructor
    · rintro ⟨l, hl⟩
      obtain ⟨parts, h, htext, -⟩ := DecimalLiteral.parse?_eq_some_iff.1 hl
      exact ⟨parts, h, htext⟩
    · rintro ⟨parts, h, htext⟩
      exact ⟨parts.literal, DecimalLiteral.parse?_of_parts h htext⟩
  · intro parts h htext
    refine ⟨parts.literal.value p, ?_, ?_, fun hexp => ?_⟩
    · rw [parseDecimal?, DecimalLiteral.parse?_of_parts h htext]
      rfl
    · rw [hpow, ← DecimalLiteral.cast_literal]
      exact DecimalLiteral.value_within parts.literal hp
    · rw [← DecimalLiteral.cast_literal]
      exact DecimalLiteral.roundedTo_value (by omega) hexp

/-- One tenth at four bits, with a plus, a power of ten and blanks around it; and a text with a second point. -/
theorem parseDecimal?_accurate_tenth :
    4 ≤ 4 ∧ (∃ z, parseDecimal? " +.1e0\n" 4 = some z ∧ |z.value - 1 / 10| ≤ 2 ^ (3 - (4 : ℕ) : ℤ) * |(1 : ℝ) / 10|) ∧
      ¬ ∃ parts : DecimalParts, parts.WellFormed ∧ Text.trim "1.2.3".toList = parts.text := by
  have hone : ∀ c ∈ ['1'], c.isDigit = true := List.forall_mem_singleton.2 rfl
  have hzero : ∀ c ∈ ['0'], c.isDigit = true := List.forall_mem_singleton.2 rfl
  obtain ⟨z, hz, hnear, -⟩ := (parseDecimal?_accurate (p := 4) le_rfl " +.1e0\n").2
    ⟨.plus, [], some ['1'], some ⟨'e', .none, ['0']⟩⟩
    ⟨hone, by decide, by
      rintro e he
      cases he
      exact ⟨.inl rfl, by decide, hzero, by decide⟩⟩ (by decide)
  refine ⟨le_rfl, ⟨z, hz, ?_⟩, fun h => ?_⟩
  · have hvalue : DecimalParts.value ⟨.plus, [], some ['1'], some ⟨'e', .none, ['0']⟩⟩ = 1 / 10 := by
      norm_num [DecimalParts.value, DecimalParts.fractionDigits, DecimalParts.power, ExponentPart.value,
        Text.signed, Text.Sign.isMinus, Nat.ofDigitChars]
      rfl
    rwa [hvalue] at hnear
  · have hsome := (parseDecimal?_accurate (p := 4) le_rfl "1.2.3").1.2 h
    cases hsome

end BinFloat

end CliffordT
