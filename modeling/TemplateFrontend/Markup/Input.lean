import TemplateFrontend.Markup.SyntaxError
import TemplateFrontend.Text.Chars
/-!
# Text with its place in a file

An `Input` is text still to be read together with the offset at which it starts. `Input.drop`
moves over characters and keeps the two in step. Commands are made of words and of
`name="value"` settings and are written between braces. `Tag.read` takes one off the front of the
input: a brace inside quotes does not end it, an opening brace outside quotes is an error, and a
slash at the end marks the tag as self-closing and is not part of its text.

* `Input.offset_drop_add` — offset and length of what is left always add up to the same end.
-/

namespace TemplateFrontend

open Text

/-- Text with the offset at which it starts in its file. -/
structure Input where
  offset : Nat
  rest : List Char
  deriving Repr, Inhabited

namespace Input

/-- Where the text ends. -/
def stop (i : Input) : Nat := i.offset + byteLength i.rest

/-- The input after `n` characters. -/
def drop (i : Input) (n : Nat) : Input := ⟨i.offset + byteLength (i.rest.take n), i.rest.drop n⟩

theorem offset_drop_add (i : Input) (n : Nat) : (i.drop n).stop = i.stop := by
  simp only [stop, drop, Nat.add_assoc, ← byteLength_append, List.take_append_drop]

/-- The longest run of characters with the property `p`, and the input after it. -/
def takeWhile (i : Input) (p : Char → Bool) : List Char × Input :=
  let cs := i.rest.takeWhile p
  (cs, i.drop cs.length)

/-- The input after leading blanks. -/
def skipBlanks (i : Input) : Input := (i.takeWhile isBlank).2

/-- The input without trailing blanks. -/
def trimEnd (i : Input) : Input := { i with rest := Text.trimEnd i.rest }

/-- The input without blanks at either end. -/
def trim (i : Input) : Input := i.skipBlanks.trimEnd

/-- The input after `mark`, if it starts with it, blanks before it skipped. -/
def mark? (i : Input) (mark : List Char) : Option Input :=
  let i := i.skipBlanks
  if mark.isPrefixOf i.rest then some (i.drop mark.length) else none

/-- Whether only blanks are left. -/
def isBlank (i : Input) : Bool := allBlank i.rest

/-- The range of the first `n` characters. -/
def spanOf (i : Input) (n : Nat) : Span := ⟨i.offset, i.offset + byteLength (i.rest.take n)⟩

/-- The error of finding what comes next, blanks skipped, where `expected` should stand. -/
def unexpected (i : Input) (expected : String) : SyntaxError :=
  let i := i.skipBlanks
  match i.rest with
  | c :: _ => ⟨.unexpected ("'" ++ c.toString ++ "'") expected, i.spanOf 1⟩
  | [] => ⟨.unexpected "end of command" expected, ⟨i.offset, i.offset⟩⟩

/-! ### Words and settings of commands -/

/-- The characters of words in commands. -/
def isWordChar (c : Char) : Bool := isNameChar c || c == '.' || c == '-'

/-- How many characters the word at the front of a text has. It may start with a dollar sign. -/
def wordLength : List Char → Nat
  | '$' :: cs => (cs.takeWhile isWordChar).length + 1
  | cs => (cs.takeWhile isWordChar).length

/-- The next word with its range, blanks before it skipped. -/
def word (i : Input) (expected : String) : Except SyntaxError ((String × Span) × Input) :=
  let j := i.skipBlanks
  match wordLength j.rest with
  | 0 => .error (i.unexpected expected)
  | n => .ok ((String.ofList (j.rest.take n), j.spanOf n), j.drop n)

end Input

/-- A setting `name="value"` of a command. -/
structure Setting where
  name : String
  value : String
  span : Span
  deriving DecidableEq, Repr, Inhabited

namespace Setting

/-- The setting at the front of the input. -/
def read (i : Input) : Except SyntaxError (Setting × Input) := do
  let ((name, s), i) ← i.word "an attribute"
  let some i := i.mark? ['='] | .error (i.unexpected "'=' after the attribute name")
  let some i := i.mark? ['"'] | .error (i.unexpected "a double-quoted attribute value")
  -- A value has no escapes: the next quote ends it.
  let (value, i) := i.takeWhile (· != '"')
  if i.rest.isEmpty then .error ⟨.invalid .unterminatedAttribute, ⟨s.start, i.offset⟩⟩
  else
    let i := i.drop 1
    pure (⟨name, String.ofList value, ⟨s.start, i.offset⟩⟩, i)

/-- The settings up to the end of the input; `fuel` bounds their number. -/
def readAll : (fuel : Nat) → Input → Except SyntaxError (List Setting)
  | 0, _ => .ok []
  | fuel + 1, i =>
    if i.isBlank then .ok []
    else do
      let (s, i) ← read i
      let more ← readAll fuel i
      pure (s :: more)

end Setting

/-- The settings that an input consists of. -/
def Input.settings (i : Input) : Except SyntaxError (List Setting) :=
  Setting.readAll i.rest.length i

/-! ### Command tags -/

/-- A command between braces. -/
structure Tag where
  /-- The first word. -/
  name : String
  /-- What follows the name. -/
  args : Input
  /-- The whole text of the command. -/
  content : Input
  span : Span
  selfClosing : Bool
  deriving Repr, Inhabited

namespace Tag

/-- The text up to the closing brace, if there is one before the next opening brace. Braces between
two quotes of one kind do not count; `quote` is the quote that is open. -/
def body? : (quote : Option Char) → List Char → Option (List Char)
  | _, [] => none
  | some q, c :: cs => (body? (if c = q then none else some q) cs).map (c :: ·)
  | none, c :: cs =>
    if c = '\x7d' then some []
    else if c = '\x7b' then none
    else (body? (if c = '\'' || c = '"' then some c else none) cs).map (c :: ·)

/-- The tag with a text between its braces. -/
def ofBody (body : Input) (span : Span) : Tag :=
  let content := body.trim
  -- A slash alone is the name of the command, not a mark after it.
  let selfClosing := 1 < content.rest.length && content.rest.getLast? == some '/'
  let content := if selfClosing then { content with rest := Text.trimEnd content.rest.dropLast }
    else content
  let (name, args) := content.takeWhile (! Text.isBlank ·)
  ⟨String.ofList name, args.trim, content, span, selfClosing⟩

/-- The tag at the front of an input that starts with a brace. -/
def read (i : Input) : Except SyntaxError (Tag × Input) :=
  match body? none i.rest.tail with
  | none => .error ⟨.unclosed "\x7b", i.spanOf 1⟩
  | some body =>
    -- Two more than the body: the braces around it.
    let rest := i.drop (body.length + 2)
    .ok (ofBody ⟨(i.drop 1).offset, body⟩ ⟨i.offset, rest.offset⟩, rest)

/-- The tag that closes a block opened by this one. -/
def closing (t : Tag) : String := "/" ++ t.name

/-- Whether the tag closes something. -/
def isClosing (t : Tag) : Bool := t.name.toList.head? == some '/'

end Tag

end TemplateFrontend
