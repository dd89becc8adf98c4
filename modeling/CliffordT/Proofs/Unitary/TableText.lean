/-
A table that is written is read back.

The line of an entry is cut into the fields that it was put together from: the numbers have no comma in
them, and no blank that trimming could take away, and neither has a word of a writable entry. The numbers are
read as they were, and the unitary in them is in normal form already, so that its constructor leaves it alone.
The word comes last and may be empty; the comma in front of it stays at the end of the line. Every key of a
table occurs once, so that the order of the lines does not matter.
-/
import CliffordT.Proofs.Text.Written
import CliffordT.Proofs.Unitary.Group
import CliffordT.Unitary.Table

namespace CliffordT

namespace Unitary

/-- A unitary in normal form is its own normal form, and passes the check. -/
theorem mk?_of_isNormal {m : Unitary} (h : m.IsNormal) : mk? m.u m.t m.k m.l.val = .ok m := by
  rw [mk?_of_hasUnitLength h.hasUnitLength, h.reduce_eq]

end Unitary

namespace GateTable

open Text

/-- An entry that a line holds: the unitary is in normal form with an exponent of 64 bits, and the word has
no comma, no line feed, no `I`, and no blank at either end. -/
structure Writable (m : Unitary) (w : Word) : Prop where
  normal : m.IsNormal
  k_lt : m.k < 2 ^ 63
  comma : ',' ∉ w
  lineFeed : '\n' ∉ w
  identity : 'I' ∉ w
  trimmed : Trimmed w

/-! ## One line -/

def fields (m : Unitary) (w : Word) : List (List Char) :=
  [(toString m.u.a).toList, (toString m.u.b).toList, (toString m.u.c).toList, (toString m.u.d).toList,
    (toString m.t.a).toList, (toString m.t.b).toList, (toString m.t.c).toList, (toString m.t.d).toList,
    (toString m.k).toList, (toString (m.l.val : Int)).toList, w]

theorem toList_line (m : Unitary) (w : Word) : (line m w).toList = [','].intercalate (fields m w) := by
  rw [line, String.toList_intercalate]
  simp only [List.map_cons, List.map_nil, List.cons_append, List.nil_append,
    String.toList_ofList]
  rfl

theorem mem_fields {m : Unitary} {w : Word} {f : List Char} (h : f ∈ fields m w) :
    (∃ n : Int, f = (toString n).toList) ∨ f = w := by
  simp only [fields, List.mem_cons, List.not_mem_nil, or_false] at h
  rcases h with h | h | h | h | h | h | h | h | h | h | h
  all_goals first | exact .inr h | exact .inl ⟨_, h⟩

section Line

variable {m : Unitary} {w : Word}

theorem lineFeed_not_mem_line (h : Writable m w) : '\n' ∉ (line m w).toList := by
  rw [toList_line]
  intro hmem
  rcases mem_of_mem_intercalate hmem with hsep | ⟨f, hf, hin⟩
  · cases hsep
  · rcases mem_fields hf with ⟨n, rfl⟩ | rfl
    · exact not_mem_toString (by decide) (by decide) n hin
    · exact h.lineFeed hin

theorem trimmed_line (h : Writable m w) : Trimmed (line m w).toList := by
  rw [toList_line]
  refine trimmed_intercalate (by decide) (toString_ne_nil m.u.a) fun f hf => ?_
  rcases mem_fields hf with ⟨n, rfl⟩ | rfl
  · exact trimmed_toString n
  · exact h.trimmed

theorem pieces_line (h : Writable m w) : pieces ',' (line m w).toList = fields m w := by
  rw [toList_line]
  refine pieces_intercalate (fun f hf => ?_) (List.cons_ne_nil _ _)
  rcases mem_fields hf with ⟨n, rfl⟩ | rfl
  · exact not_mem_toString (by decide) (by decide) n
  · exact h.comma

theorem line_ne_nil (m : Unitary) (w : Word) : (line m w).toList ≠ [] := by
  rw [toList_line, fields, List.intercalate_cons_cons]
  simp

theorem intField_toString (n : Int) : intField (toString n).toList = .ok n := by
  rw [intField, (trimmed_toString n).trim_eq, parseInt_toString]

theorem boundedField_toString {range : IntRange} (hlo : range.lo ≤ 0) {n : Int} (hn : 0 ≤ n)
    (hhi : n ≤ range.hi) (name : String) : boundedField name range (toString n).toList = .ok n := by
  rw [boundedField, (trimmed_toString n).trim_eq, parseBounded_toString hlo hn hhi]

/-- The line of a writable entry is read as the entry. -/
theorem parseLine_line (h : Writable m w) (number : Nat) :
    parseLine number (line m w).toList = .ok (m, w) := by
  have hk : boundedField "k" .int64 (toString m.k).toList = .ok m.k :=
    boundedField_toString (by decide) h.normal.hasUnitLength.1 (Int.le_sub_one_of_lt h.k_lt) "k"
  have hl : boundedField "l" (.unsigned 8) (toString (m.l.val : Int)).toList = .ok m.l.val := by
    refine boundedField_toString (by decide) (by omega) ?_ "l"
    show (m.l.val : Int) ≤ 255
    omega
  have hword : Word.dropIdentity w = w :=
    List.filter_eq_self.2 fun c hc => bne_iff_ne.2 fun hI => h.identity (hI ▸ hc)
  have hfields : parseFields (line m w).toList = .ok (m.u, m.t, m.k, m.l.val, w) := by
    unfold parseFields
    rw [(trimmed_line h).trim_eq, pieces_line h]
    simp only [fields, intField_toString, hk, hl]
    dsimp only [bind, Except.bind]
    rw [h.trimmed.trim_eq, hword]
    rfl
  unfold parseLine
  rw [hfields]
  dsimp only
  rw [Unitary.mk?_of_isNormal h.normal]

end Line

/-! ## The whole text -/

/-- The text of a table whose entries come in some order. -/
def textOf (es : List (Unitary × Word)) : String :=
  (es.map fun (m, w) => line m w).foldl (fun text l => text ++ l ++ "\n") ""

theorem toText_eq (table : GateTable) : table.toText = textOf table.toList := rfl

theorem toList_textOf (es : List (Unitary × Word)) :
    (textOf es).toList = (es.map fun e => (line e.1 e.2).toList).flatMap (· ++ ['\n']) := by
  have hfold (ls : List String) (text : String) :
      (ls.foldl (fun text l => text ++ l ++ "\n") text).toList
        = text.toList ++ (ls.map String.toList).flatMap (· ++ ['\n']) := by
    induction ls generalizing text with
    | nil => simp
    | cons l ls ih =>
      rw [List.foldl_cons, ih]
      simp
  rw [textOf, hfold, List.map_map]
  rfl

/-- The lines of writable entries are read one after the other; the text ends with a blank line. -/
theorem readLines_lines {es : List (Unitary × Word)} (h : ∀ e ∈ es, Writable e.1 e.2)
    (table : GateTable) (number : Nat) :
    readLines table number ((es.map fun e => (line e.1 e.2).toList) ++ [[]])
      = .ok ⟨table.entries.insertMany es⟩ := by
  induction es generalizing table number with
  | nil =>
    rw [Std.HashMap.insertMany_nil]
    rfl
  | cons e es ih =>
    have he := h e List.mem_cons_self
    have hblank : ¬ (trim (line e.1 e.2).toList).isEmpty = true := by
      rw [(trimmed_line he).trim_eq, List.isEmpty_iff]
      exact line_ne_nil e.1 e.2
    rw [List.map_cons, List.cons_append, readLines, if_neg hblank, parseLine_line he]
    dsimp only
    rw [ih fun e' he' => h e' (List.mem_cons_of_mem e he'), Std.HashMap.insertMany_cons]

theorem ofText_textOf {es : List (Unitary × Word)} (h : ∀ e ∈ es, Writable e.1 e.2) :
    ofText (textOf es) = .ok ⟨Std.HashMap.ofList es⟩ := by
  have hpieces : pieces '\n' (textOf es).toList
      = (es.map fun e => (line e.1 e.2).toList) ++ [[]] := by
    rw [toList_textOf]
    refine pieces_flatMap fun l hl => ?_
    obtain ⟨e, he, rfl⟩ := List.mem_map.1 hl
    exact lineFeed_not_mem_line (h e he)
  rw [ofText, hpieces, readLines_lines h, Std.HashMap.ofList_eq_insertMany_empty]
  rfl

/-- The bytes of a text are read as the text. -/
theorem ofBytes_toUTF8 (text : String) : ofBytes text.toUTF8 = ofText text := by
  have hdecode : String.fromUTF8? text.toUTF8 = some text := dif_pos text.isValidUTF8
  rw [ofBytes, hdecode]

/-- The entries of a table, each once, make up the table in any order. -/
theorem getElem?_ofList_of_perm {entries : Std.HashMap Unitary Word} {es : List (Unitary × Word)}
    (h : es.Perm entries.toList) (m : Unitary) : (Std.HashMap.ofList es)[m]? = entries[m]? := by
  have hdistinct : es.Pairwise fun a b => (a.1 == b.1) = false :=
    (h.pairwise_iff fun hab => by rwa [Bool.beq_comm]).2 Std.HashMap.distinct_keys_toList
  cases hm : entries[m]? with
  | some w =>
    have hmem : (m, w) ∈ es := h.mem_iff.2 (Std.HashMap.mem_toList_iff_getElem?_eq_some.2 hm)
    exact Std.HashMap.getElem?_ofList_of_mem (beq_self_eq_true m) hdistinct hmem
  | none =>
    refine Std.HashMap.getElem?_ofList_of_contains_eq_false ?_
    rw [Bool.eq_false_iff]
    intro hcontains
    obtain ⟨⟨m', w⟩, he, rfl⟩ := List.mem_map.1 (List.contains_iff_mem.1 hcontains)
    rw [Std.HashMap.mem_toList_iff_getElem?_eq_some.1 (h.mem_iff.1 he)] at hm
    cases hm

/-- **A table that is written is read back.** Let the unitaries of a table be in normal form, of any size
with an exponent of 64 bits, and let its words have no comma, no line feed, no `I` and no blank at either end.
In whatever order the entries are written, the bytes are read without a fault, and what is read is the
table. -/
theorem ofBytes_written {table : GateTable} (htable : ∀ m w, table.get? m = some w → Writable m w)
    {es : List (Unitary × Word)} (hes : es.Perm table.toList) :
    ∃ read, ofBytes (textOf es).toUTF8 = .ok read ∧ (∀ m, read.get? m = table.get? m) ∧
      read.entries.Equiv table.entries := by
  have hall : ∀ e ∈ es, Writable e.1 e.2 := fun e he =>
    htable e.1 e.2 (Std.HashMap.mem_toList_iff_getElem?_eq_some.1 (hes.mem_iff.1 he))
  have hget := getElem?_ofList_of_perm hes
  refine ⟨⟨Std.HashMap.ofList es⟩, ?_, hget, .of_forall_getElem?_eq hget⟩
  rw [ofBytes_toUTF8, ofText_textOf hall]

/-- A table with the empty word for the identity, and a word with a blank in it for a unitary with negative
coefficients. -/
theorem ofBytes_written_two_entries :
    ∃ table read : GateTable,
      table = ⟨((∅ : Std.HashMap Unitary Word).insert ⟨1, 0, 0, 0⟩ []).insert
        ⟨⟨-1, 1, 0, 1⟩, ⟨0, 0, 1, 0⟩, 2, 6⟩ ['H', ' ', 'w']⟩ ∧
      (∀ m w, table.get? m = some w → Writable m w) ∧
      ofBytes table.toText.toUTF8 = .ok read ∧ read.get? ⟨1, 0, 0, 0⟩ = some [] ∧
      read.get? ⟨⟨-1, 1, 0, 1⟩, ⟨0, 0, 1, 0⟩, 2, 6⟩ = some ['H', ' ', 'w'] := by
  have htable : ∀ m w, get? ⟨((∅ : Std.HashMap Unitary Word).insert ⟨1, 0, 0, 0⟩ []).insert
      ⟨⟨-1, 1, 0, 1⟩, ⟨0, 0, 1, 0⟩, 2, 6⟩ ['H', ' ', 'w']⟩ m = some w → Writable m w := by
    intro m w h
    rw [get?, Std.HashMap.getElem?_insert, Std.HashMap.getElem?_insert] at h
    split at h
    · rename_i hkey
      cases h
      rw [← eq_of_beq hkey]
      exact ⟨⟨by decide, by decide⟩, by decide, by decide, by decide, by decide, by decide⟩
    · split at h
      · rename_i hkey
        cases h
        rw [← eq_of_beq hkey]
        exact ⟨⟨by decide, by decide⟩, by decide, by decide, by decide, by decide, by decide⟩
      · rw [Std.HashMap.getElem?_empty] at h
        cases h
  obtain ⟨read, hread, hget, -⟩ := ofBytes_written htable (List.Perm.refl _)
  refine ⟨_, read, rfl, htable, hread, ?_, ?_⟩
  · rw [hget, get?, Std.HashMap.getElem?_insert, if_neg (by decide), Std.HashMap.getElem?_insert_self]
  · rw [hget, get?, Std.HashMap.getElem?_insert_self]

end GateTable

end CliffordT
