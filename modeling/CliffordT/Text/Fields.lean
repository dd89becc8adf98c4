/-!
Texts cut into pieces at every occurrence of a separator, and into lines.
-/

namespace CliffordT.Text

/-- The pieces between separators; a text without a separator is one piece. -/
def pieces {α : Type} [BEq α] (sep : α) : List α → List (List α)
  | [] => [[]]
  | c :: rest =>
    match pieces sep rest with
    | [] => [[c]]
    | p :: ps => if c == sep then [] :: p :: ps else (c :: p) :: ps

/-- There is always a first piece. -/
theorem pieces_ne_nil {α : Type} [BEq α] (sep : α) (cs : List α) : pieces sep cs ≠ [] := by
  cases cs with
  | nil => simp [pieces]
  | cons c rest =>
    unfold pieces
    split
    · simp
    · split <;> simp

/-- The pieces of a text in front of another with a separator between them. -/
theorem pieces_append_cons {α : Type} [BEq α] [LawfulBEq α] {sep : α} {p : List α}
    (hp : sep ∉ p) (rest : List α) : pieces sep (p ++ sep :: rest) = p :: pieces sep rest := by
  induction p with
  | nil =>
    cases h : pieces sep rest with
    | nil => exact absurd h (pieces_ne_nil sep rest)
    | cons q qs => simp [pieces, h]
  | cons c p ih =>
    have hc : (c == sep) = false := by
      rw [beq_eq_false_iff_ne]
      intro h
      exact hp (by simp [h])
    have hp' : sep ∉ p := fun h => hp (by simp [h])
    show pieces sep (c :: (p ++ sep :: rest)) = _
    rw [pieces, ih hp']
    simp [hc]

def dropReturn (cs : List Char) : List Char :=
  if cs.getLast? = some '\r' then cs.dropLast else cs

/-- The lines of a text. A line ends with a line feed, with or without a carriage return in front of
it; what follows the last line feed is a line unless it is empty. -/
def lines (cs : List Char) : List (List Char) :=
  let ps := pieces '\n' cs
  let last := ps.getLastD []
  ps.dropLast.map dropReturn ++ if last.isEmpty then [] else [last]

end CliffordT.Text
