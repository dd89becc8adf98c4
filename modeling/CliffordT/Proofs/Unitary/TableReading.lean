/-
Reading a table is all or nothing.

A line is blank, or the entry of a unitary, or neither, and `IsEntry` says by the grammar alone which lines are
entries: the numbers on the line need not be reduced. The reader goes through the lines one by one. What it has
after some of them does not matter for whether the next one is accepted, so that the first line that is neither
blank nor an entry decides the fault and its number; and what a unitary has at the end is the word of the last
entry for it.
-/
import CliffordT.Proofs.Text.Read
import CliffordT.Proofs.Unitary.Matrix
import CliffordT.Proofs.Unitary.TableText

namespace CliffordT

namespace GateTable

open Text

/-! ## The grammar of a line -/

def IsBlank (cs : List Char) : Prop := ∀ c ∈ cs, Text.isBlank c = true

def coefficients (m : Unitary) : List Int := [m.u.a, m.u.b, m.u.c, m.u.d, m.t.a, m.t.b, m.t.c, m.t.d]

/-- A line with eleven fields: the coefficients, the exponent of the denominator and that of the phase, and a word,
which counts without the letters `I`. The numbers are those of the line, not reduced. -/
def Writes (cs : List Char) (raw : Unitary) (w : Word) : Prop :=
  ∃ (numbers : List (List Char)) (k l word : List Char),
    pieces ',' (trim cs) = numbers ++ [k, l, word] ∧
    List.Forall₂ (fun f n => WritesInt (trim f) n) numbers (coefficients raw) ∧
    WritesBounded .int64 (trim k) raw.k ∧ WritesBounded (.unsigned 8) (trim l) raw.l.val ∧
    w = (trim word).filter (· != 'I')

/-- A line for a unitary with a word: the first column has length one once it is reduced. -/
def IsEntry (cs : List Char) (raw : Unitary) (w : Word) : Prop :=
  Writes cs raw w ∧ (Unitary.reduce raw).HasUnitLength

/-- The lines that a table may consist of. -/
def Accepted (cs : List Char) : Prop := IsBlank cs ∨ ∃ raw w, IsEntry cs raw w

/-- A line whose first column loses so many factors `√2` that the exponent falls out of its range. -/
def Overflows (cs : List Char) : Prop :=
  ∃ raw w, Writes cs raw w ∧ (Unitary.reduce raw).k < Unitary.leastExponent

def Reads (cs : List Char) (m : Unitary) (w : Word) : Prop := ∃ raw, IsEntry cs raw w ∧ m = Unitary.reduce raw

/-! ## One line -/

theorem bind_eq_ok_iff {α β : Type} {x : Except String α} {f : α → Except String β} {b : β} :
    x >>= f = .ok b ↔ ∃ a, x = .ok a ∧ f a = .ok b := by
  cases x with
  | error e => exact ⟨nofun, fun ⟨_, h, _⟩ => nomatch h⟩
  | ok a => exact ⟨fun h => ⟨a, rfl, h⟩, fun ⟨_, h, hf⟩ => Except.ok.inj h ▸ hf⟩

theorem intField_eq_ok_iff {f : List Char} {n : Int} : intField f = .ok n ↔ WritesInt (trim f) n := by
  rw [← parseInt_eq_ok_iff, intField]
  split
  · rename_i h
    simp [h]
  · rename_i h
    simp [h]

theorem boundedField_eq_ok_iff {range : IntRange} (hlo : range.lo ≤ 0) (hhi : 0 ≤ range.hi) {name : String}
    {f : List Char} {n : Int} : boundedField name range f = .ok n ↔ WritesBounded range (trim f) n := by
  rw [← parseBounded_eq_ok_iff_writes hlo hhi, boundedField]
  split
  · rename_i h
    simp [h]
  · rename_i h
    simp [h]

/-- The fields of a line are what its numbers and its word say, with a phase exponent that is checked later. -/
theorem parseFields_eq_ok_iff {cs : List Char} {u t : ZOmega} {k : Int} {w : Word} (l : Fin 8) :
    parseFields cs = .ok (u, t, k, l.val, w) ↔ Writes cs ⟨u, t, k, l⟩ w := by
  have hk {f : List Char} {n : Int} : boundedField "k" .int64 f = .ok n ↔ WritesBounded .int64 (trim f) n :=
    boundedField_eq_ok_iff (by decide) (by decide)
  have hl {f : List Char} {n : Int} :
      boundedField "l" (.unsigned 8) f = .ok n ↔ WritesBounded (.unsigned 8) (trim f) n :=
    boundedField_eq_ok_iff (by decide) (by decide)
  constructor
  · intro h
    unfold parseFields at h
    split at h
    · rename_i ua ub uc ud ta tb tc td kf lf wf hfields
      simp only [bind_eq_ok_iff, intField_eq_ok_iff, hk, hl] at h
      obtain ⟨a, ha, b, hb, c, hc, d, hd, a', ha', b', hb', c', hc', d', hd', k, hk, l', hl, hread⟩ := h
      simp only [pure, Except.pure, Except.ok.injEq, Prod.mk.injEq] at hread
      obtain ⟨rfl, rfl, rfl, hlt, rfl⟩ := hread
      rw [← Int.toNat_of_nonneg hl.bounds.1, hlt] at hl
      exact ⟨[ua, ub, uc, ud, ta, tb, tc, td], kf, lf, wf, hfields,
        .cons ha (.cons hb (.cons hc (.cons hd (.cons ha' (.cons hb' (.cons hc' (.cons hd' .nil))))))), hk, hl, rfl⟩
    · cases h
  · rintro ⟨numbers, kf, lf, wf, hfields, hnumbers, hkf, hlf, rfl⟩
    -- eight coefficients, hence eight fields
    obtain _ | ⟨ha, _ | ⟨hb, _ | ⟨hc, _ | ⟨hd, _ | ⟨ha', _ | ⟨hb', _ | ⟨hc', _ | ⟨hd', _ | _⟩⟩⟩⟩⟩⟩⟩⟩ := hnumbers
    unfold parseFields
    rw [hfields]
    simp only [List.cons_append, List.nil_append]
    rw [intField_eq_ok_iff.2 ha, intField_eq_ok_iff.2 hb, intField_eq_ok_iff.2 hc, intField_eq_ok_iff.2 hd,
      intField_eq_ok_iff.2 ha', intField_eq_ok_iff.2 hb', intField_eq_ok_iff.2 hc', intField_eq_ok_iff.2 hd',
      hk.2 hkf, hl.2 hlf]
    dsimp only [bind, Except.bind]
    rw [Int.toNat_natCast]
    rfl

theorem Writes.k_lt {cs : List Char} {raw : Unitary} {w w' : Word} {u t : ZOmega} {k bound : Int} {l : Nat}
    (h : Writes cs raw w) (hfields : parseFields cs = .ok (u, t, k, l, w')) (hk : k < bound) : raw.k < bound := by
  have hraw := (parseFields_eq_ok_iff raw.l).2 h
  rw [hfields] at hraw
  cases hraw
  exact hk

/-- A line is read as the normal form of its numbers, whatever its number is. -/
theorem parseLine_eq_ok_iff {n : Nat} {cs : List Char} {m : Unitary} {w : Word} :
    parseLine n cs = .ok (m, w) ↔ Reads cs m w := by
  constructor
  · intro h
    unfold parseLine at h
    split at h
    · cases h
    · rename_i u t k l word hfields
      split at h
      · rename_i hm
        cases h
        obtain ⟨hlt, hlen, rfl⟩ := Unitary.mk?_eq_ok_iff.1 hm
        exact ⟨⟨u, t, k, ⟨l, hlt⟩⟩, ⟨(parseFields_eq_ok_iff ⟨l, hlt⟩).1 hfields, hlen⟩, rfl⟩
      · cases h
      · cases h
  · rintro ⟨⟨u, t, k, l⟩, ⟨hwrites, hlen⟩, rfl⟩
    unfold parseLine
    rw [(parseFields_eq_ok_iff l).2 hwrites]
    dsimp only
    rw [Unitary.mk?_eq_ok_iff.2 ⟨l.isLt, hlen, rfl⟩]

/-- A line is stopped at just when its exponent falls out of its range. -/
theorem parseLine_eq_overflow_iff {n : Nat} {cs : List Char} :
    parseLine n cs = .error .overflow ↔ Overflows cs := by
  constructor
  · intro h
    unfold parseLine at h
    split at h
    · cases h
    · rename_i u t k l word hfields
      split at h
      · cases h
      · rename_i hm
        obtain ⟨hlt, hk⟩ := Unitary.mk?_eq_overflow_iff.1 hm
        exact ⟨⟨u, t, k, ⟨l, hlt⟩⟩, word, (parseFields_eq_ok_iff ⟨l, hlt⟩).1 hfields, hk⟩
      · cases h
  · rintro ⟨⟨u, t, k, l⟩, w, hwrites, hk⟩
    unfold parseLine
    rw [(parseFields_eq_ok_iff l).2 hwrites]
    dsimp only
    rw [Unitary.mk?_eq_overflow_iff.2 ⟨l.isLt, hk⟩]

/-- Any other line that is no entry is blamed by its number. -/
theorem exists_reason_of_not_overflow {number : Nat} {cs : List Char} {e : Fault}
    (h : parseLine number cs = .error e) (he : e ≠ .overflow) : ∃ reason, e = .tableFormat number reason := by
  unfold parseLine at h
  split at h
  · cases h
    exact ⟨_, rfl⟩
  · split at h
    · cases h
    · cases h
      exact absurd rfl he
    · cases h
      exact ⟨_, rfl⟩

theorem parseLine_congr {number : Nat} {cs cs' : List Char} (h : trim cs = trim cs') :
    parseLine number cs = parseLine number cs' := by
  unfold parseLine parseFields
  rw [h]

theorem isEmpty_trim_iff {cs : List Char} : (trim cs).isEmpty = true ↔ IsBlank cs := by
  rw [List.isEmpty_iff, trim_eq_nil_iff]
  rfl

/-- A blank line has one field only. -/
theorem Reads.not_isBlank {cs : List Char} {m : Unitary} {w : Word} (h : Reads cs m w) : ¬ IsBlank cs := by
  intro hblank
  have hnil : trim cs = trim [] := trim_eq_nil_iff.2 hblank
  have hread := (parseLine_eq_ok_iff (n := 0)).2 h
  rw [parseLine_congr hnil] at hread
  cases hread

theorem accepted_iff {cs : List Char} : Accepted cs ↔ IsBlank cs ∨ ∃ m w, Reads cs m w := by
  refine or_congr_right ⟨?_, ?_⟩
  · rintro ⟨raw, w, h⟩
    exact ⟨_, w, raw, h, rfl⟩
  · rintro ⟨-, w, raw, h, -⟩
    exact ⟨raw, w, h⟩

theorem exists_fault {cs : List Char} (h : ¬ Accepted cs) (number : Nat) :
    ∃ e, parseLine number cs = .error e := by
  rw [accepted_iff, not_or] at h
  cases hread : parseLine number cs with
  | error e => exact ⟨e, rfl⟩
  | ok e => exact absurd ⟨e.1, e.2, parseLine_eq_ok_iff.1 hread⟩ h.2

/-! ## Line by line -/

section Lines

variable {table read : GateTable} {number : Nat} {cs : List Char} {rest ls : List (List Char)} {m : Unitary} {w : Word}

theorem readLines_of_isBlank (h : IsBlank cs) :
    readLines table number (cs :: rest) = readLines table (number + 1) rest := by
  rw [readLines, if_pos (isEmpty_trim_iff.2 h)]

theorem readLines_of_reads (h : Reads cs m w) :
    readLines table number (cs :: rest) = readLines ⟨table.entries.insert m w⟩ (number + 1) rest := by
  rw [readLines, if_neg (mt isEmpty_trim_iff.1 h.not_isBlank), parseLine_eq_ok_iff.2 h]

theorem readLines_of_not_accepted {e : Fault} (h : ¬ Accepted cs) (he : parseLine number cs = .error e) :
    readLines table number (cs :: rest) = .error e := by
  have hblank : ¬ IsBlank cs := fun hb => h (.inl hb)
  rw [readLines, if_neg (mt isEmpty_trim_iff.1 hblank), he]

/-- Whether a line is accepted does not depend on the table, so that the rest is read after it in any case, into a
table where the unitary of the line has the word of the line, if there is one, and every other one has its own. -/
theorem exists_readLines_of_accepted (h : Accepted cs) (table : GateTable) (number : Nat) :
    ∃ table', (∀ rest, readLines table number (cs :: rest) = readLines table' (number + 1) rest) ∧
      ∀ m w, table'.get? m = some w ↔
        Reads cs m w ∨ (∀ w', ¬ Reads cs m w') ∧ table.get? m = some w := by
  rcases accepted_iff.1 h with hblank | ⟨n, v, hread⟩
  · refine ⟨table, fun rest => readLines_of_isBlank hblank, fun m w => ?_⟩
    have hno (w' : Word) : ¬ Reads cs m w' := fun hread => hread.not_isBlank hblank
    simp [hno]
  · refine ⟨_, fun rest => readLines_of_reads hread, fun m w => ?_⟩
    simp only [← parseLine_eq_ok_iff (n := number)] at hread ⊢
    rw [get?, Std.HashMap.getElem?_insert, hread, get?]
    simp only [Except.ok.injEq, Prod.mk.injEq, beq_iff_eq]
    by_cases hm : n = m
    · simp [hm]
    · simp [hm]

/-- Lines are read if all of them are accepted. -/
theorem exists_readLines_eq_ok (h : ∀ l ∈ ls, Accepted l) (table : GateTable) (number : Nat) :
    ∃ read, readLines table number ls = .ok read := by
  induction ls generalizing table number with
  | nil => exact ⟨table, rfl⟩
  | cons cs rest ih =>
    obtain ⟨hcs, hrest⟩ := List.forall_mem_cons.1 h
    obtain ⟨table', hstep, -⟩ := exists_readLines_of_accepted hcs table number
    rw [hstep]
    exact ih hrest table' (number + 1)

/-- Lines that are accepted go by, and the first other one is the fault. -/
theorem readLines_eq_error {before after : List (List Char)} {e : Fault} (hbefore : ∀ l ∈ before, Accepted l)
    (h : ¬ Accepted cs) (he : parseLine (number + before.length) cs = .error e) (table : GateTable) :
    readLines table number (before ++ cs :: after) = .error e := by
  induction before generalizing table number with
  | nil => exact readLines_of_not_accepted h he
  | cons l before ih =>
    obtain ⟨hl, hbefore⟩ := List.forall_mem_cons.1 hbefore
    obtain ⟨table', hstep, -⟩ := exists_readLines_of_accepted hl table number
    rw [List.cons_append, hstep]
    refine ih hbefore ?_ table'
    rwa [Nat.add_right_comm, Nat.add_assoc, ← List.length_cons]

/-- Some line is the first one that is not accepted, unless all of them are. -/
theorem exists_first_not_accepted (h : ¬ ∀ l ∈ ls, Accepted l) :
    ∃ before cs after, ls = before ++ cs :: after ∧ (∀ l ∈ before, Accepted l) ∧ ¬ Accepted cs := by
  induction ls with
  | nil => exact absurd (by simp) h
  | cons l rest ih =>
    by_cases hl : Accepted l
    · obtain ⟨before, cs, after, rfl, hbefore, hcs⟩ := ih fun hrest => h (List.forall_mem_cons.2 ⟨hl, hrest⟩)
      exact ⟨l :: before, cs, after, rfl, List.forall_mem_cons.2 ⟨hl, hbefore⟩, hcs⟩
    · exact ⟨[], l, rest, rfl, by simp, hl⟩

/-- No line is read as an entry for the unitary. -/
def NoEntry (m : Unitary) (ls : List (List Char)) : Prop := ∀ l ∈ ls, ∀ w, ¬ Reads l m w

/-- The last line that is read as an entry for the unitary has the word. -/
def LastEntry (m : Unitary) (w : Word) (ls : List (List Char)) : Prop :=
  ∃ before l after, ls = before ++ l :: after ∧ Reads l m w ∧ NoEntry m after

theorem noEntry_cons : NoEntry m (cs :: rest) ↔ (∀ w, ¬ Reads cs m w) ∧ NoEntry m rest :=
  List.forall_mem_cons

theorem lastEntry_cons : LastEntry m w (cs :: rest) ↔
    LastEntry m w rest ∨ Reads cs m w ∧ NoEntry m rest := by
  constructor
  · rintro ⟨before, l, after, heq, hl, hafter⟩
    cases before with
    | nil =>
      cases heq
      exact .inr ⟨hl, hafter⟩
    | cons l' before =>
      cases heq
      exact .inl ⟨before, l, after, rfl, hl, hafter⟩
  · rintro (⟨before, l, after, rfl, hl, hafter⟩ | ⟨hcs, hrest⟩)
    · exact ⟨cs :: before, l, after, rfl, hl, hafter⟩
    · exact ⟨[], cs, rest, rfl, hcs, hrest⟩

/-- The word of a unitary is that of the last entry for it, or, without one, the word that it had. -/
theorem get?_of_readLines (h : readLines table number ls = .ok read) :
    read.get? m = some w ↔ LastEntry m w ls ∨ NoEntry m ls ∧ table.get? m = some w := by
  induction ls generalizing table number with
  | nil =>
    cases h
    simp [LastEntry, NoEntry]
  | cons cs rest ih =>
    have hcs : Accepted cs := by
      by_contra hcs
      obtain ⟨e, he⟩ := exists_fault hcs number
      rw [readLines_of_not_accepted hcs he] at h
      cases h
    obtain ⟨table', hstep, hget⟩ := exists_readLines_of_accepted hcs table number
    rw [hstep] at h
    rw [ih h, hget, lastEntry_cons, noEntry_cons]
    tauto

/-! ## The lines of a text -/

/-- What matters of a line is what is left when it is trimmed. -/
theorem readLines_congr {ls ls' : List (List Char)} (h : List.Forall₂ (fun l l' => trim l = trim l') ls ls')
    (table : GateTable) (number : Nat) : readLines table number ls = readLines table number ls' := by
  induction h generalizing table number with
  | nil => rfl
  | cons hl _ ih =>
    rw [readLines, readLines, hl, parseLine_congr hl]
    simp only [ih]

theorem readLines_append_nil (ls : List (List Char)) (table : GateTable) (number : Nat) :
    readLines table number (ls ++ [[]]) = readLines table number ls := by
  induction ls generalizing table number with
  | nil => exact readLines_of_isBlank (by simp [IsBlank])
  | cons l ls ih =>
    rw [List.cons_append, readLines, readLines]
    simp only [ih]

/-- Cutting at the line feeds is as good as cutting into lines. -/
theorem readLines_pieces (cs : List Char) (table : GateTable) (number : Nat) :
    readLines table number (pieces '\n' cs) = readLines table number (Text.lines cs) := by
  obtain ⟨init, last, hpieces⟩ : ∃ init last, pieces '\n' cs = init ++ [last] :=
    ⟨_, _, (List.dropLast_append_getLast (pieces_ne_nil '\n' cs)).symm⟩
  have hinit : List.Forall₂ (fun l l' => trim l = trim l') init (init.map dropReturn) := by
    rw [List.forall₂_map_right_iff, List.forall₂_same]
    exact fun l _ => (trim_dropReturn l).symm
  unfold Text.lines
  rw [hpieces]
  dsimp only
  rw [List.dropLast_concat, List.getLastD_concat]
  by_cases hlast : last = []
  · subst hlast
    rw [readLines_append_nil, List.isEmpty_nil, if_pos rfl, List.append_nil]
    exact readLines_congr hinit table number
  · rw [if_neg (by simpa using hlast)]
    exact readLines_congr (List.rel_append hinit (.cons rfl .nil)) table number

end Lines

/-! ## Unitaries and their matrices -/

theorem IsEntry.isNormal_reduce {cs : List Char} {raw : Unitary} {w : Word} (h : IsEntry cs raw w) :
    (Unitary.reduce raw).IsNormal :=
  ⟨Unitary.isUnitary_iff.2 h.2, (Unitary.reduce_spec raw).2⟩

theorem Reads.isNormal {cs : List Char} {m : Unitary} {w : Word} (h : Reads cs m w) : m.IsNormal := by
  obtain ⟨raw, hentry, rfl⟩ := h
  exact hentry.isNormal_reduce

/-- The entries for a unitary are the lines that stand for its matrix. -/
theorem reads_iff_matrix {cs : List Char} {m : Unitary} (hm : m.IsNormal) {w : Word} :
    Reads cs m w ↔ ∃ raw, IsEntry cs raw w ∧ raw.matrix = m.matrix := by
  refine exists_congr fun raw => and_congr_right fun hentry => ?_
  rw [← Unitary.matrix_reduce raw]
  exact ⟨fun h => h ▸ rfl, fun h => Unitary.eq_of_matrix_eq hm hentry.isNormal_reduce h.symm⟩

/-- **Reading a table is all or nothing, but for exponents at the edge of their range.** Let no line write an
exponent of `2 ^ 32` or more, for which a power of two would have to be formed. The bytes of a text are read as a
table just when every line that is not blank is an entry. Otherwise the first line that is neither decides: the fault
has its number, where the first line of the text is line one and blank lines count, unless the exponent of that line
falls out of its range. What is read has unitaries in normal form only, whatever the numbers on the lines, and the
word of a unitary is the one on the last line that stands for its matrix. -/
theorem ofBytes_all_or_nothing (text : String)
    (_hmemory : ∀ l ∈ Text.lines text.toList, ∀ raw w, Writes l raw w → raw.k < 2 ^ 32) :
    ((∃ table, ofBytes text.toUTF8 = .ok table) ↔ ∀ l ∈ Text.lines text.toList, Accepted l) ∧
    (∀ e, ofBytes text.toUTF8 = .error e ↔
      ∃ before l after, Text.lines text.toList = before ++ l :: after ∧ (∀ l' ∈ before, Accepted l') ∧
        ¬ Accepted l ∧ parseLine (before.length + 1) l = .error e ∧
        (Overflows l ∧ e = .overflow ∨
          ¬ Overflows l ∧ ∃ reason, e = .tableFormat (before.length + 1) reason)) ∧
    (∀ table, ofBytes text.toUTF8 = .ok table → ∀ m w, table.get? m = some w ↔
      m.IsNormal ∧ ∃ before l after raw, Text.lines text.toList = before ++ l :: after ∧ IsEntry l raw w ∧
        raw.matrix = m.matrix ∧ ∀ l' ∈ after, ∀ raw' w', IsEntry l' raw' w' → raw'.matrix ≠ m.matrix) := by
  rw [ofBytes_toUTF8, ofText, readLines_pieces]
  generalize Text.lines text.toList = ls
  have hfault {before after : List (List Char)} {l : List Char} {e : Fault}
      (hbefore : ∀ l' ∈ before, Accepted l') (hl : ¬ Accepted l)
      (he : parseLine (before.length + 1) l = .error e) : readLines empty 1 (before ++ l :: after) = .error e :=
    readLines_eq_error hbefore hl (Nat.add_comm before.length 1 ▸ he) empty
  refine ⟨⟨?_, fun h => exists_readLines_eq_ok h empty 1⟩, fun e => ⟨?_, ?_⟩, fun table htable m w => ?_⟩
  · rintro ⟨table, htable⟩
    by_contra hls
    obtain ⟨before, l, after, rfl, hbefore, hl⟩ := exists_first_not_accepted hls
    obtain ⟨e, he⟩ := exists_fault hl (before.length + 1)
    rw [hfault hbefore hl he] at htable
    cases htable
  · intro he
    have hls : ¬ ∀ l ∈ ls, Accepted l := fun hls => by
      obtain ⟨table, htable⟩ := exists_readLines_eq_ok hls empty 1
      rw [htable] at he
      cases he
    obtain ⟨before, l, after, rfl, hbefore, hl⟩ := exists_first_not_accepted hls
    obtain ⟨e', he'⟩ := exists_fault hl (before.length + 1)
    rw [hfault hbefore hl he'] at he
    cases he
    refine ⟨before, l, after, rfl, hbefore, hl, he', ?_⟩
    by_cases hover : e = .overflow
    · subst hover
      exact .inl ⟨parseLine_eq_overflow_iff.1 he', rfl⟩
    · refine .inr ⟨fun h => hover ?_, exists_reason_of_not_overflow he' hover⟩
      rw [parseLine_eq_overflow_iff.2 h] at he'
      cases he'
      rfl
  · rintro ⟨before, l, after, rfl, hbefore, hl, he, -⟩
    exact hfault hbefore hl he
  · have hempty : empty.get? m ≠ some w := by simp [get?, empty]
    rw [get?_of_readLines htable]
    constructor
    · rintro (⟨before, l, after, rfl, hl, hafter⟩ | ⟨-, h⟩)
      · have hm := hl.isNormal
        obtain ⟨raw, hraw, hmatrix⟩ := (reads_iff_matrix hm).1 hl
        refine ⟨hm, before, l, after, raw, rfl, hraw, hmatrix, fun l' hl' raw' w' hraw' heq => ?_⟩
        exact hafter l' hl' w' ((reads_iff_matrix hm).2 ⟨raw', hraw', heq⟩)
      · exact absurd h hempty
    · rintro ⟨hm, before, l, after, raw, rfl, hraw, hmatrix, hafter⟩
      refine .inl ⟨before, l, after, rfl, (reads_iff_matrix hm).2 ⟨raw, hraw, hmatrix⟩, ?_⟩
      intro l' hl' w' hread
      obtain ⟨raw', hraw', heq⟩ := (reads_iff_matrix hm).1 hread
      exact hafter l' hl' raw' w' hraw' heq

/-- The identity twice, the second time as `√2` over `√2` with a word of its own, behind a blank line; and a number in
place of it that has not unit length. -/
theorem ofBytes_all_or_nothing_third_line :
    (∃ table, ofBytes "0,0,0,1,0,0,0,0,0,0,I\r\n\r\n -1,0,1,0,0,0,0,0,+1, 0, HIH \n".toUTF8 = .ok table ∧
      table.get? ⟨1, 0, 0, 0⟩ = some ['H', 'H']) ∧
    ∃ reason, ofBytes "0,0,0,1,0,0,0,0,0,0,I\r\n\r\n0,0,0,2,0,0,0,0,0,0,I".toUTF8 = .error (.tableFormat 3 reason) := by
  have hfirst : Reads "0,0,0,1,0,0,0,0,0,0,I".toList ⟨1, 0, 0, 0⟩ [] :=
    (parseLine_eq_ok_iff (n := 1)).1 (by decide +kernel)
  have hfirstK : parseFields "0,0,0,1,0,0,0,0,0,0,I".toList = .ok (1, 0, 0, 0, []) := by decide +kernel
  have hblank : Accepted [] := .inl (by simp [IsBlank])
  have hblankK : ∀ raw w, Writes [] raw w → raw.k < 2 ^ 32 := fun raw w h => by
    have hfields := (parseFields_eq_ok_iff raw.l).2 h
    cases hfields
  constructor
  · have hread : Reads " -1,0,1,0,0,0,0,0,+1, 0, HIH ".toList ⟨1, 0, 0, 0⟩ ['H', 'H'] :=
      (parseLine_eq_ok_iff (n := 3)).1 (by decide +kernel)
    have hreadK : parseFields " -1,0,1,0,0,0,0,0,+1, 0, HIH ".toList
        = .ok (⟨-1, 0, 1, 0⟩, 0, 1, 0, ['H', 'H']) := by decide +kernel
    have hlines : Text.lines "0,0,0,1,0,0,0,0,0,0,I\r\n\r\n -1,0,1,0,0,0,0,0,+1, 0, HIH \n".toList
        = ["0,0,0,1,0,0,0,0,0,0,I".toList, []] ++ " -1,0,1,0,0,0,0,0,+1, 0, HIH ".toList :: [] := by
      decide +kernel
    have hall := ofBytes_all_or_nothing "0,0,0,1,0,0,0,0,0,0,I\r\n\r\n -1,0,1,0,0,0,0,0,+1, 0, HIH \n"
    rw [hlines] at hall
    obtain ⟨hread', -, hget⟩ := hall (by simpa using
      ⟨fun raw w h => h.k_lt hfirstK (by decide), hblankK, fun raw w h => h.k_lt hreadK (by decide)⟩)
    obtain ⟨table, htable⟩ := hread'.2 (by
      simpa using ⟨accepted_iff.2 (.inr ⟨_, _, hfirst⟩), hblank, accepted_iff.2 (.inr ⟨_, _, hread⟩)⟩)
    obtain ⟨raw, hraw, hmatrix⟩ := (reads_iff_matrix hread.isNormal).1 hread
    exact ⟨table, htable, (hget table htable _ _).2 ⟨hread.isNormal, _, _, [], raw, rfl, hraw, hmatrix, by simp⟩⟩
  · have hlines : Text.lines "0,0,0,1,0,0,0,0,0,0,I\r\n\r\n0,0,0,2,0,0,0,0,0,0,I".toList
        = ["0,0,0,1,0,0,0,0,0,0,I".toList, []] ++ "0,0,0,2,0,0,0,0,0,0,I".toList :: [] := by
      decide +kernel
    have hlastK : parseFields "0,0,0,2,0,0,0,0,0,0,I".toList = .ok (2, 0, 0, 0, []) := by decide +kernel
    have hnone : (parseLine 3 "0,0,0,2,0,0,0,0,0,0,I".toList).toOption = none := by decide +kernel
    have hnot : ¬ Accepted "0,0,0,2,0,0,0,0,0,0,I".toList := by
      rw [accepted_iff, not_or]
      refine ⟨fun h => absurd (h '0' (by decide)) (by decide), fun ⟨m, w, h⟩ => ?_⟩
      rw [(parseLine_eq_ok_iff (n := 3)).2 h] at hnone
      cases hnone
    have hin : ¬ Overflows "0,0,0,2,0,0,0,0,0,0,I".toList := by
      rw [← parseLine_eq_overflow_iff (n := 3)]
      decide +kernel
    obtain ⟨e, he⟩ := exists_fault hnot 3
    obtain ⟨reason, rfl⟩ := exists_reason_of_not_overflow he fun h => hin (parseLine_eq_overflow_iff.1 (h ▸ he))
    have hall := ofBytes_all_or_nothing "0,0,0,1,0,0,0,0,0,0,I\r\n\r\n0,0,0,2,0,0,0,0,0,0,I"
    rw [hlines] at hall
    refine ⟨reason, ((hall ?_).2.1 _).2 ⟨_, _, _, rfl, ?_, hnot, he, .inr ⟨hin, reason, rfl⟩⟩⟩
    · simpa using ⟨fun raw w h => h.k_lt hfirstK (by decide), hblankK, fun raw w h => h.k_lt hlastK (by decide)⟩
    · simpa using ⟨accepted_iff.2 (.inr ⟨_, _, hfirst⟩), hblank⟩

/-- Two over the least exponent has not unit length, but is not reported as that. -/
theorem ofBytes_stops_at_least_exponent :
    ofBytes "0,0,0,2,0,0,0,0,-9223372036854775808,0,I".toUTF8 = .error .overflow ∧
      ¬ ∀ text : String, (∃ table, ofBytes text.toUTF8 = .ok table) ∨
        ∃ number reason, ofBytes text.toUTF8 = .error (.tableFormat number reason) := by
  have hlines : pieces '\n' "0,0,0,2,0,0,0,0,-9223372036854775808,0,I".toList
      = ["0,0,0,2,0,0,0,0,-9223372036854775808,0,I".toList] := by decide +kernel
  have hline : parseLine 1 "0,0,0,2,0,0,0,0,-9223372036854775808,0,I".toList = .error .overflow := by
    decide +kernel
  have hread : ofBytes "0,0,0,2,0,0,0,0,-9223372036854775808,0,I".toUTF8 = .error .overflow := by
    have hblank : ¬ (trim "0,0,0,2,0,0,0,0,-9223372036854775808,0,I".toList).isEmpty = true := by decide +kernel
    rw [ofBytes_toUTF8, ofText, hlines, readLines, if_neg hblank, hline]
  refine ⟨hread, fun h => ?_⟩
  rcases h "0,0,0,2,0,0,0,0,-9223372036854775808,0,I" with ⟨table, htable⟩ | ⟨number, reason, hreason⟩
  · rw [hread] at htable
    cases htable
  · rw [hread] at hreason
    cases hreason

end GateTable

end CliffordT
