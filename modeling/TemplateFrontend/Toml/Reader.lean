import TemplateFrontend.Toml.Document
import TemplateFrontend.Toml.Quoted
/-!
# Reading TOML

`Toml.parse` reads a TOML text, a line at a time: a key with its value, the header of a table, or
the header of an element of an array of tables. `depthLimit` bounds the brackets that are open at
once, and the parts of a key.
-/

namespace TemplateFrontend.Toml

/-! ### Blanks and comments -/

/-- The text after blanks. -/
def skipBlanks (cs : List Char) : List Char := cs.dropWhile isBlank

/-- The text after a comment of which the mark was read: its line break, if it has one. -/
def afterComment? (cs : List Char) : Option (List Char) :=
  let line := cs.takeWhile (· != '\n')
  let rest := cs.dropWhile (· != '\n')
  -- A carriage return before the line feed belongs to the break.
  let line := if line.getLast? = some '\r' ∧ rest ≠ [] then line.dropLast else line
  if line.any isControl then none else some rest

/-- The text after blanks, line breaks and comments; `fuel` bounds their number. -/
def skipLinesIn : (fuel : Nat) → List Char → Option (List Char)
  | 0, _ => none
  | fuel + 1, cs =>
    match skipBlanks cs with
    | '#' :: rest => (afterComment? rest).bind (skipLinesIn fuel)
    | rest =>
      match afterNewline? rest with
      | some rest => skipLinesIn fuel rest
      | none => some rest

/-- The text after blanks, line breaks and comments. -/
def skipLines (cs : List Char) : Option (List Char) := skipLinesIn (cs.length + 1) cs

/-- The text after the end of a line. -/
def endLine (cs : List Char) : Option (List Char) := do
  let cs ← match skipBlanks cs with
    | '#' :: rest => afterComment? rest
    | rest => some rest
  match cs with
  | [] => some []
  | cs => afterNewline? cs

/-! ### Keys -/

/-- The characters of keys without quotes. -/
def isKeyChar (c : Char) : Bool := c.isAlphanum || c == '_' || c == '-'

/-- One part of a key. -/
def readKeyPart (cs : List Char) : Option (String × List Char) :=
  match cs with
  | '"' :: rest => readLine '"' rest
  | '\'' :: rest => readLine '\'' rest
  | cs =>
    let name := cs.takeWhile isKeyChar
    if name.isEmpty then none else some (String.ofList name, cs.dropWhile isKeyChar)

/-- How many brackets of arrays and tables may be open at once, and how many parts a key may
have. -/
def depthLimit : Nat := 80

/-- A key of at most so many parts: those before the last, and the last. -/
def readKeyIn : (parts : Nat) → List Char → Option ((List String × String) × List Char)
  | 0, _ => none
  | parts + 1, cs => do
    let (part, rest) ← readKeyPart cs
    match skipBlanks rest with
    | '.' :: more =>
      let ((path, key), rest) ← readKeyIn parts (skipBlanks more)
      pure ((part :: path, key), rest)
    | rest => pure (([], part), rest)

/-- A key with the blanks after it. -/
def readKey (cs : List Char) : Option ((List String × String) × List Char) :=
  readKeyIn depthLimit cs

/-! ### Values -/

mutual
/-- The value that starts here, with the text after it. So many brackets may be open in it at once
as `depth` says; `fuel` bounds its length. -/
def readValue : (fuel depth : Nat) → List Char → Option (TomlValue × List Char)
  | 0, _, _ => none
  | fuel + 1, depth, cs =>
    match cs, depth with
    | '"' :: rest, _ => (readQuoted '"' rest).map fun (s, rest) => (.string s, rest)
    | '\'' :: rest, _ => (readQuoted '\'' rest).map fun (s, rest) => (.string s, rest)
    | '[' :: rest, depth + 1 => do
      let (items, rest) ← readItems fuel depth (← skipLines rest)
      pure (.array items, rest)
    | '\x7b' :: rest, depth + 1 => do
      let (entries, rest) ← readEntries fuel depth [] (← skipLines rest)
      pure (.table (TomlItem.finishAll entries), rest)
    -- No bracket starts a scalar, so one that may not be opened ends the reading here.
    | cs, _ => readScalar cs

/-- The items of an array from the next on, up to its end. -/
def readItems : (fuel depth : Nat) → List Char → Option (List TomlValue × List Char)
  | 0, _, _ => none
  | fuel + 1, depth, cs =>
    match cs with
    | ']' :: rest => some ([], rest)
    | cs => do
      let (v, rest) ← readValue fuel depth cs
      match ← skipLines rest with
      | ']' :: rest => pure ([v], rest)
      | ',' :: rest =>
        let (items, rest) ← readItems fuel depth (← skipLines rest)
        pure (v :: items, rest)
      | _ => none

/-- The entries of a table in braces from the next on, up to its end. Lines may break on both sides
of an equals sign, but not within a key. -/
def readEntries : (fuel depth : Nat) → TomlEntries → List Char → Option (TomlEntries × List Char)
  | 0, _, _, _ => none
  | fuel + 1, depth, entries, cs =>
    match cs with
    | '\x7d' :: rest => some (entries, rest)
    | cs => do
      let ((path, key), rest) ← readKey cs
      let rest ← afterMark? '=' (← skipLines rest)
      let (v, rest) ← readValue fuel depth (← skipLines rest)
      let entries ← TomlItem.insertKey path key v entries
      match ← skipLines rest with
      | '\x7d' :: rest => pure (entries, rest)
      | ',' :: rest => readEntries fuel depth entries (← skipLines rest)
      | _ => none
end

/-! ### Lines -/

/-- A text read so far: the entries, and the path of the table that keys go to. -/
structure Progress where
  entries : TomlEntries
  current : List String

/-- The text after the key of a header, and what the header opens. -/
def readHeader (closing : List Char) (cs : List Char) :
    Option ((List String × String) × List Char) := do
  let (key, rest) ← readKey (skipBlanks cs)
  if closing.isPrefixOf rest then pure (key, ← endLine (rest.drop closing.length)) else none

/-- One line read. -/
def readStatement (p : Progress) (cs : List Char) : Option (Progress × List Char) :=
  match cs with
  | '[' :: '[' :: rest => do
    let ((path, key), rest) ← readHeader [']', ']'] rest
    pure (⟨← TomlItem.openElement path key p.entries, path ++ [key]⟩, rest)
  | '[' :: rest => do
    let ((path, key), rest) ← readHeader [']'] rest
    pure (⟨← TomlItem.openTable path key p.entries, path ++ [key]⟩, rest)
  | cs => do
    let ((path, key), rest) ← readKey cs
    let rest ← afterMark? '=' rest
    let (v, rest) ← readValue (cs.length + 1) depthLimit (skipBlanks rest)
    let rest ← endLine rest
    let entries ← TomlItem.changeAt (TomlItem.insertKey path key v) p.current p.entries
    pure (⟨entries, p.current⟩, rest)

/-- All lines read; `fuel` bounds their number. -/
def readStatements : (fuel : Nat) → Progress → List Char → Option TomlEntries
  | 0, _, _ => none
  | fuel + 1, p, cs => do
    match ← skipLines cs with
    | [] => pure p.entries
    | cs =>
      let (p, rest) ← readStatement p cs
      readStatements fuel p rest

/-- The table that a text holds, if it is TOML. A byte order mark at the start is skipped. -/
def parse (text : String) : Option TomlTable :=
  let cs := match text.toList with
    | c :: rest => if c.toNat = 0xFEFF then rest else c :: rest
    | [] => []
  (readStatements (cs.length + 1) ⟨[], []⟩ cs).map TomlItem.finishAll

end TemplateFrontend.Toml
