/-
The generated gate table.

Two things hold of a table that words are entered into: the word of every entry has the unitary that
it is entered for, and a unitary that has a word keeps one. So the generated table has an entry for
the unitary of every word of its list, times any global phase.
-/
import CliffordT.Proofs.Unitary.Words
import CliffordT.Unitary.Table

namespace CliffordT

open CliffordT.Unitary

namespace GateTable

/-! ## Words in the list -/

theorem mem_tPowers {n : Nat} (hn : n < 8) : List.replicate n 'T' ∈ tPowers :=
  List.mem_map_of_mem (List.mem_range.2 hn)

theorem mem_addLayer {ws : List Word} {w : Word} (hw : w ∈ ws) {n : Nat} (hn : n < 8) :
    w ++ 'H' :: List.replicate n 'T' ∈ addLayer ws :=
  List.mem_flatMap.2 ⟨w, hw, List.mem_map_of_mem (mem_tPowers hn)⟩

theorem mem_words {n layers : Nat} {w : Word} (hw : w ∈ layer n) (hn : n ≤ layers) :
    w ∈ words layers :=
  List.mem_flatMap.2 ⟨n, List.mem_range.2 (by omega), hw⟩

/-! ## Entering words -/

/-- Every entry is for the unitary of its word. -/
def Sound (table : GateTable) : Prop :=
  ∀ m w, table.get? m = some w → ofWord w = .ok m

/-- What entering one word for several unitaries does to the entries. -/
theorem foldl_insertIfNew (key : Nat → Unitary) (word : Nat → Word) (ns : List Nat)
    (entries : Std.HashMap Unitary Word) :
    (∀ m w, (ns.foldl (fun es n => es.insertIfNew (key n) (word n)) entries)[m]? = some w →
      entries[m]? = some w ∨ ∃ n ∈ ns, m = key n ∧ w = word n) ∧
    (∀ m, m ∈ entries → m ∈ ns.foldl (fun es n => es.insertIfNew (key n) (word n)) entries) ∧
    ∀ n ∈ ns, key n ∈ ns.foldl (fun es n => es.insertIfNew (key n) (word n)) entries := by
  induction ns generalizing entries with
  | nil => exact ⟨fun m w h => .inl h, fun m h => h, fun n h => by simp at h⟩
  | cons n ns ih =>
    obtain ⟨hget, hkeep, hnew⟩ := ih (entries.insertIfNew (key n) (word n))
    refine ⟨fun m w h => ?_, fun m h => ?_, fun n' h => ?_⟩
    · rcases hget m w h with h' | ⟨n', hn', hm, hw⟩
      · rw [Std.HashMap.getElem?_insertIfNew] at h'
        split at h'
        · rename_i hkey
          cases h'
          exact .inr ⟨n, List.mem_cons_self, (eq_of_beq hkey.1).symm, rfl⟩
        · exact .inl h'
      · exact .inr ⟨n', List.mem_cons_of_mem _ hn', hm, hw⟩
    · exact hkeep m (Std.HashMap.mem_insertIfNew.2 (.inr h))
    · rcases List.mem_cons.1 h with rfl | h
      · exact hkeep _ Std.HashMap.mem_insertIfNew_self
      · exact hnew n' h

/-- The word that is entered for a multiple by a global phase has that multiple as its unitary. -/
theorem ofWord_short {word : Word} {g : NormalUnitary} (hg : Word.value? word = .ok g) (n : Nat) :
    ofWord ((Word.fullSimplify word).dropIdentity ++ List.replicate n 'W')
      = .ok (g.1.mulPhase n) := by
  have hshort : Word.value? (Word.fullSimplify word).dropIdentity = .ok g := by
    rw [Word.value?_dropIdentity, Word.value?_fullSimplify, hg]
  have hphase := Word.value?_replicate (c := 'W') (a := .w) rfl n
  refine Word.ofWord_eq_ok_iff.2 ⟨_, Word.value?_append hshort hphase, ?_⟩
  rw [NormalUnitary.coe_mul_phase, Gate.value, NormalUnitary.phase_pow]

theorem addWord_eq {table : GateTable} {word : Word} {g : NormalUnitary}
    (hg : Word.value? word = .ok g) :
    (addWord table word).entries = (List.range 8).foldl
      (fun entries n => entries.insertIfNew (g.1.mulPhase n)
        ((Word.fullSimplify word).dropIdentity ++ List.replicate n 'W')) table.entries := by
  rw [addWord, Word.ofWord_eq_ok_iff.2 ⟨g, hg, rfl⟩]

theorem addWord_of_error {table : GateTable} {word : Word} {c : Char}
    (hc : Word.value? word = .error c) : addWord table word = table := by
  rw [addWord]
  cases hw : ofWord word with
  | error e => rfl
  | ok m =>
    obtain ⟨g, hg, -⟩ := Word.ofWord_eq_ok_iff.1 hw
    rw [hc] at hg
    cases hg

theorem Sound.addWord {table : GateTable} (h : table.Sound) (word : Word) :
    (addWord table word).Sound := by
  cases hv : Word.value? word with
  | error c => rwa [addWord_of_error hv]
  | ok g =>
    intro m w hget
    rw [get?, addWord_eq hv] at hget
    rcases (foldl_insertIfNew _ _ _ _).1 m w hget with hold | ⟨n, -, rfl, rfl⟩
    · exact h m w hold
    · exact ofWord_short hv n

/-- A unitary with an entry keeps one. -/
theorem mem_addWord_of_mem {table : GateTable} {m : Unitary} (h : m ∈ table.entries)
    (word : Word) : m ∈ (addWord table word).entries := by
  cases hv : Word.value? word with
  | error c => rwa [addWord_of_error hv]
  | ok g =>
    rw [addWord_eq hv]
    exact (foldl_insertIfNew _ _ _ _).2.1 m h

/-- Entering a word gives entries to the multiples of its unitary. -/
theorem mem_addWord {table : GateTable} {word : Word} {g : NormalUnitary}
    (hg : Word.value? word = .ok g) {n : Nat} (hn : n < 8) :
    g.1.mulPhase n ∈ (addWord table word).entries := by
  rw [addWord_eq hg]
  exact (foldl_insertIfNew _ _ _ _).2.2 n (List.mem_range.2 hn)

/-! ## Entering a list of words -/

theorem Sound.foldl {table : GateTable} (h : table.Sound) (ws : List Word) :
    (ws.foldl GateTable.addWord table).Sound := by
  induction ws generalizing table with
  | nil => exact h
  | cons w ws ih => exact ih (h.addWord w)

theorem mem_foldl_of_mem {table : GateTable} {m : Unitary} (h : m ∈ table.entries)
    (ws : List Word) : m ∈ (ws.foldl addWord table).entries := by
  induction ws generalizing table with
  | nil => exact h
  | cons w ws ih => exact ih (mem_addWord_of_mem h w)

theorem mem_foldl (table : GateTable) {ws : List Word} {word : Word} (hw : word ∈ ws)
    {g : NormalUnitary} (hg : Word.value? word = .ok g) {n : Nat} (hn : n < 8) :
    g.1.mulPhase n ∈ (ws.foldl addWord table).entries := by
  induction ws generalizing table with
  | nil => simp at hw
  | cons w ws ih =>
    rcases List.mem_cons.1 hw with rfl | hw
    · exact mem_foldl_of_mem (mem_addWord hg hn) ws
    · exact ih _ hw

theorem sound_empty : empty.Sound := by
  intro m w h
  rw [get?, empty, Std.HashMap.getElem?_empty] at h
  cases h

theorem Sound.insert {table : GateTable} (h : table.Sound) {m : Unitary} {w : Word}
    (hw : ofWord w = .ok m) : Sound ⟨table.entries.insert m w⟩ := by
  intro m' w' hget
  rw [get?, Std.HashMap.getElem?_insert] at hget
  split at hget
  · rename_i hkey
    cases hget
    rw [← eq_of_beq hkey]
    exact hw
  · exact h m' w' hget

/-- The generated table has the right word in every entry. -/
theorem sound_generate : generate.Sound := sound_empty.foldl (words layers)

/-- The generated table has an entry for the unitary of each of its words, times any phase. -/
theorem exists_get?_generate {word : Word} (hw : word ∈ words layers) {g : NormalUnitary}
    (hg : Word.value? word = .ok g) (i : Fin 8) :
    ∃ w, generate.get? (g * NormalUnitary.phase i : NormalUnitary).1 = some w := by
  have hmem := mem_foldl empty hw hg i.isLt
  rw [NormalUnitary.coe_mul_phase] at hmem
  have hi : Fin.ofNat 8 i.val = i := Fin.ext (Nat.mod_eq_of_lt i.isLt)
  rw [hi] at hmem
  exact ⟨_, Std.HashMap.getElem?_eq_some_getElem hmem⟩

/-- The generated table is not empty: it has the empty word. -/
theorem isEmpty_generate : generate.isEmpty = false := by
  have hmem : [] ∈ words layers := by decide +kernel
  obtain ⟨w, hw⟩ := exists_get?_generate hmem (g := 1) rfl 0
  exact Std.HashMap.isEmpty_eq_false_iff_exists_mem.2 ⟨_, Std.HashMap.mem_iff_isSome_getElem?.2 (by
    rw [show generate.entries[_]? = some w from hw]
    rfl)⟩

end GateTable

end CliffordT
