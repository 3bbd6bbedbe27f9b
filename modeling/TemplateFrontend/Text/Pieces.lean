/-!
# Searching and cutting text

Texts are lists of characters. `splitAt?` finds the first occurrence of a short text, `pieces`
cuts at every occurrence of a character (`intercalate_pieces`: putting the pieces together again
with that character between them gives back the text).
-/

namespace TemplateFrontend.Text

/-- The text before the first occurrence of `mark` and the text from it on. -/
def splitAt? (mark : List Char) : List Char → Option (List Char × List Char)
  | [] => if mark.isEmpty then some ([], []) else none
  | c :: cs =>
    if mark.isPrefixOf (c :: cs) then some ([], c :: cs)
    else (splitAt? mark cs).map fun (before, rest) => (c :: before, rest)

/-- Whether `mark` occurs in `cs`. -/
def contains (mark cs : List Char) : Bool := (splitAt? mark cs).isSome

/-- The parts of a text between the occurrences of `sep`; a text without one is its own only part.
-/
def pieces (sep : Char) : List Char → List (List Char)
  | [] => [[]]
  | c :: cs =>
    if c = sep then [] :: pieces sep cs
    else match pieces sep cs with
      | [] => [[c]]
      | p :: ps => (c :: p) :: ps

theorem pieces_ne_nil (sep : Char) (cs : List Char) : pieces sep cs ≠ [] := by
  cases cs with
  | nil => simp [pieces]
  | cons c cs =>
    by_cases h : c = sep
    · simp [pieces, h]
    · simp only [pieces, h, if_false]
      split <;> simp

theorem intercalate_pieces (sep : Char) (cs : List Char) :
    [sep].intercalate (pieces sep cs) = cs := by
  induction cs with
  | nil => rfl
  | cons c cs ih =>
    cases hp : pieces sep cs with
    | nil => exact absurd hp (pieces_ne_nil sep cs)
    | cons p ps =>
      rw [hp] at ih
      -- a separator starts a piece, any other character makes the first one longer
      by_cases h : c = sep
      · subst h
        rw [pieces, if_pos rfl, hp, List.intercalate_cons_cons, ih]
        rfl
      · rw [pieces, if_neg h, hp]
        cases ps <;> simp_all [List.intercalate_cons_cons]

/-- The last of the parts between the occurrences of `sep`. -/
def lastPiece (sep : Char) (cs : List Char) : List Char := (pieces sep cs).getLastD []

/-- The decimal text of a number. -/
def digits (n : Nat) : List Char := Nat.toDigits 10 n

end TemplateFrontend.Text
