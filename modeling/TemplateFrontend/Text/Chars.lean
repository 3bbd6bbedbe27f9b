/-!
# Characters

Which characters separate words, which ones names are made of, and how many bytes they take up.

* `isBlank` — the characters that separate words, those with the Unicode property `White_Space`;
* `isNameStart`, `isNameChar` — the letters of the names of variables and functions, which are
  written in ASCII, as `lowerCase` and `upperCase` change only its 26 letters;
* `byteLength` — offsets into a text count the bytes of its UTF-8 form, so that an offset plus the
  length of what was read is the next offset (`byteLength_append`);
* `trimStart_eq_nil_iff` — nothing is left exactly when every character is blank.
-/

namespace TemplateFrontend.Text

/-! ### Blank characters and trimming -/

/-- Membership in the property `White_Space`: 25 characters, five of them control characters. -/
def isBlank (c : Char) : Bool :=
  let n := c.toNat
  (0x9 ≤ n && n ≤ 0xD) || n == 0x20 || n == 0x85 || n == 0xA0 || n == 0x1680 ||
    (0x2000 ≤ n && n ≤ 0x200A) || n == 0x2028 || n == 0x2029 || n == 0x202F || n == 0x205F ||
    n == 0x3000

/-- A text without its leading blanks. -/
def trimStart (cs : List Char) : List Char := cs.dropWhile isBlank

/-- A text without its trailing blanks. -/
def trimEnd (cs : List Char) : List Char := (cs.reverse.dropWhile isBlank).reverse

/-- A text without the blanks at either end. -/
def trim (cs : List Char) : List Char := trimEnd (trimStart cs)

/-- The run of characters before the first blank, after leading blanks were skipped. -/
def firstWord (cs : List Char) : List Char := (trimStart cs).takeWhile (! isBlank ·)

/-- Whether a text holds nothing but blanks. -/
def allBlank (cs : List Char) : Bool := cs.all isBlank

@[simp] theorem trimStart_nil : trimStart [] = [] := rfl

theorem trimStart_eq_nil_iff {cs : List Char} : trimStart cs = [] ↔ ∀ c ∈ cs, isBlank c = true := by
  induction cs with
  | nil => simp
  | cons c cs ih =>
    by_cases h : isBlank c
    · rw [trimStart, List.dropWhile_cons_of_pos h, List.forall_mem_cons, and_iff_right h]
      exact ih
    · simp [trimStart, h]

/-! ### Letters of names -/

/-- A letter or the underscore. -/
def isNameStart (c : Char) : Bool := c.isAlpha || c == '_'

/-- A letter, a digit or the underscore. -/
def isNameChar (c : Char) : Bool := c.isAlphanum || c == '_'

theorem isNameChar_of_isNameStart {c : Char} (h : isNameStart c = true) : isNameChar c = true := by
  simp only [isNameStart, isNameChar, Char.isAlphanum, Bool.or_eq_true] at *
  rcases h with h | h <;> simp [h]

/-- A text with the letters `A` to `Z` in lower case. -/
def lowerCase (cs : List Char) : List Char := cs.map Char.toLower

/-- Whether two texts agree up to the case of the letters `A` to `Z`. -/
def equalIgnoringCase (a b : String) : Bool := lowerCase a.toList == lowerCase b.toList

/-! ### Lengths in bytes -/

/-- The number of bytes of a text in UTF-8. -/
def byteLength : List Char → Nat
  | [] => 0
  | c :: cs => c.utf8Size + byteLength cs

@[simp] theorem byteLength_nil : byteLength [] = 0 := rfl

@[simp] theorem byteLength_cons (c : Char) (cs : List Char) :
    byteLength (c :: cs) = c.utf8Size + byteLength cs := rfl

@[simp] theorem byteLength_append (as bs : List Char) :
    byteLength (as ++ bs) = byteLength as + byteLength bs := by
  induction as with
  | nil => simp
  | cons a as ih => simp [ih, Nat.add_assoc]

theorem byteLength_pos {cs : List Char} (h : cs ≠ []) : 0 < byteLength cs := by
  cases cs with
  | nil => exact absurd rfl h
  | cons c cs => simpa using Nat.lt_of_lt_of_le c.utf8Size_pos (Nat.le_add_right _ _)

end TemplateFrontend.Text
