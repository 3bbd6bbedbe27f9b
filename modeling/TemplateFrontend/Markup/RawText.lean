import TemplateFrontend.Text.Chars
import TemplateFrontend.Text.Pieces
/-!
# Raw text, comments and tag starts

Text between commands keeps its words and loses its line breaks: `joinLines` trims lines where they
meet and puts one space between them, none next to a tag. `docText` does the same for a
documentation comment, whose lines may start with a star.
-/

namespace TemplateFrontend.Markup

open Text

/-- Whether an HTML tag starts here: `<` or `</` before a letter. -/
def startsTag : List Char → Bool
  | '<' :: '/' :: c :: _ => c.isAlpha
  | '<' :: c :: _ => c.isAlpha
  | _ => false

/-- Whether a comment starts here. -/
def startsComment : List Char → Bool
  | '/' :: '*' :: _ => true
  | _ => false

/-- Whether raw text ends here: at a command, a comment, or, where `html` is read, a tag. -/
def endsText (html : Bool) (cs : List Char) : Bool :=
  cs.head? == some '\x7b' || startsComment cs || (html && startsTag cs)

/-- How many characters of raw text there are at the front. -/
def textLength (html : Bool) : List Char → Nat
  | [] => 0
  | c :: cs => if endsText html (c :: cs) then 0 else textLength html cs + 1

/-- A text with one more line at its end: after a space, unless one of the two is empty or a tag
ends or starts where they meet. -/
def addLine (text line : List Char) : List Char :=
  if line.isEmpty then text
  else if text.isEmpty || text.getLast? == some '>' || line.head? == some '<' then text ++ line
  else text ++ ' ' :: line

/-- The lines of a text without the blanks before and after the breaks between them. -/
def trimmedLines (lines : List (List Char)) : List (List Char) :=
  lines.zipIdx.map fun (line, i) =>
    let line := if i = 0 then line else trimStart line
    if i + 1 = lines.length then line else trimEnd line

/-- Raw text on one line. Text without a line break is kept as it is. Nothing is left of an empty
text, nor of blanks with a line break. -/
def joinLines (text : List Char) : Option (List Char) :=
  let joined :=
    if text.contains '\n' then (trimmedLines (pieces '\n' text)).foldl addLine [] else text
  if joined.isEmpty then none else some joined

/-- A line of documentation without blanks around it and without a leading star. -/
def docLine (line : List Char) : List Char :=
  match trim line with
  | '*' :: rest => trimStart rest
  | line => line

/-- The text of a documentation comment: its lines that are not empty, with spaces between. -/
def docText (comment : List Char) : String :=
  String.ofList <| [' '].intercalate <| (pieces '\n' comment).map docLine |>.filter (! ·.isEmpty)

/-- The length of the comment that starts here, if it ends. The marks that open and close it may
share their star. -/
def commentLength? (cs : List Char) : Option Nat :=
  (splitAt? ['*', '/'] cs).map fun (before, _) => before.length + 2

/-- The text of a comment, if it is documentation: between `/**` and the closing mark. -/
def docOf? (comment : List Char) : Option String := do
  let inner ← ['/', '*', '*'].isPrefixOf? comment
  let inner ← ['*', '/'].isSuffixOf? inner
  pure (docText inner)

end TemplateFrontend.Markup
