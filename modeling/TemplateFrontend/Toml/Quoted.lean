import TemplateFrontend.Toml.Scalar
/-!
# Quoted texts

A text between double quotes may hold escapes, one between single quotes stands as it is. Between
three quotes a text goes over several lines, and the line break after the opening quotes does not
count.
-/

namespace TemplateFrontend.Toml

/-- Whether a character may not stand for itself: the control characters but the tab. -/
def isControl (c : Char) : Bool := (c.toNat < 0x20 && c != '\t') || c.toNat == 0x7F

/-- The character with a number of so many hexadecimal digits, with the text after them. -/
def codePoint? (count : Nat) (cs : List Char) : Option (Char × List Char) :=
  let ds := cs.take count
  let n := natOf 16 ds
  if ds.length = count ∧ ds.all (isDigitOf 16) ∧ n.isValidChar then
    some (Char.ofNat n, cs.drop count)
  else none

/-- The character that an escape denotes, with the text after it. The backslash was read. -/
def escape? : List Char → Option (Char × List Char)
  | 'b' :: cs => some ('\x08', cs)
  | 't' :: cs => some ('\t', cs)
  | 'n' :: cs => some ('\n', cs)
  | 'f' :: cs => some ('\x0c', cs)
  | 'r' :: cs => some ('\r', cs)
  | 'e' :: cs => some ('\x1b', cs)
  | '"' :: cs => some ('"', cs)
  | '\\' :: cs => some ('\\', cs)
  | 'x' :: cs => codePoint? 2 cs
  | 'u' :: cs => codePoint? 4 cs
  | 'U' :: cs => codePoint? 8 cs
  | _ => none

/-- A text with its first character put in front of what was read from the rest. -/
def consTo (c : Char) (r : Option (List Char × List Char)) : Option (List Char × List Char) :=
  r.map fun (text, rest) => (c :: text, rest)

/-- A text on one line, from after its opening quote, with the text after its closing one; `fuel`
bounds its length. -/
def lineBody (quote : Char) : (fuel : Nat) → List Char → Option (List Char × List Char)
  | 0, _ => none
  | _ + 1, [] => none
  | fuel + 1, c :: cs =>
    if c = quote then some ([], cs)
    else if c = '\\' ∧ quote = '"' then
      match escape? cs with
      | some (c, cs) => consTo c (lineBody quote fuel cs)
      | none => none
    else if isControl c then none
    else consTo c (lineBody quote fuel cs)

/-- The text after a line break. -/
def afterNewline? : List Char → Option (List Char)
  | '\n' :: cs => some cs
  | '\r' :: '\n' :: cs => some cs
  | _ => none

/-- Blanks within a line. -/
def isBlank (c : Char) : Bool := c == ' ' || c == '\t'

/-- The text after blanks and line breaks. -/
def afterBlankLines : List Char → List Char
  | [] => []
  | '\r' :: '\n' :: cs => afterBlankLines cs
  | c :: cs => if isBlank c || c == '\n' then afterBlankLines cs else c :: cs

/-- The text after the blanks and line breaks that a backslash at the end of a line takes away, if
it stands there. -/
def afterFold? (cs : List Char) : Option (List Char) :=
  (afterNewline? (cs.dropWhile isBlank)).map afterBlankLines

/-- A text over several lines, from after its opening quotes, with the text after its closing ones;
`fuel` bounds its length. Up to two quotes may stand right before the closing ones. -/
def linesBody (quote : Char) : (fuel : Nat) → List Char → Option (List Char × List Char)
  | 0, _ => none
  | _ + 1, [] => none
  | fuel + 1, c :: cs =>
    if c = quote then
      let run := ((c :: cs).takeWhile (· == quote)).length
      if 3 ≤ run then
        let run := min run 5
        some (List.replicate (run - 3) quote, (c :: cs).drop run)
      else consTo c (linesBody quote fuel cs)
    else if c = '\\' ∧ quote = '"' then
      match afterFold? cs with
      | some rest => linesBody quote fuel rest
      | none =>
        match escape? cs with
        | some (c, cs) => consTo c (linesBody quote fuel cs)
        | none => none
    -- A line break stands for itself, also one of two characters.
    else if isControl c && (afterNewline? (c :: cs)).isNone then none
    else consTo c (linesBody quote fuel cs)

/-- The text in quotes of one kind that starts after the first quote, with the text after it. -/
def readQuoted (quote : Char) (cs : List Char) : Option (String × List Char) :=
  let body := match cs with
    | a :: b :: rest =>
      if a = quote ∧ b = quote then
        linesBody quote (rest.length + 1) ((afterNewline? rest).getD rest)
      else lineBody quote (cs.length + 1) cs
    | cs => lineBody quote (cs.length + 1) cs
  body.map fun (text, rest) => (String.ofList text, rest)

/-- The text in quotes on one line that starts after the quote. -/
def readLine (quote : Char) (cs : List Char) : Option (String × List Char) :=
  (lineBody quote (cs.length + 1) cs).map fun (text, rest) => (String.ofList text, rest)

end TemplateFrontend.Toml
