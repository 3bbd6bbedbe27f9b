import TemplateFrontend.Markup.SyntaxError
import TemplateFrontend.Number.Decimal
import TemplateFrontend.Number.Integer
import TemplateFrontend.Text.Chars
/-!
# Tokens of expressions

`tokens` splits the text of an expression into variables, words, numbers, strings and marks, each
with its range in the file. Blanks separate tokens and are dropped. Every token is read by its first
character and takes a number of the characters after it, so that the rest is shorter.
-/

namespace TemplateFrontend

open Text

/-- The punctuation of expressions. -/
inductive Mark where
  | le
  | ge
  | eq
  | ne
  | openParen
  | closeParen
  | openBracket
  | closeBracket
  | comma
  | dot
  | colon
  | bar
  | star
  | slash
  | percent
  | plus
  | minus
  | lt
  | gt
  | assign
  deriving DecidableEq, Repr, Inhabited

/-- The written form. -/
def Mark.symbol : Mark → String
  | .le => "<="
  | .ge => ">="
  | .eq => "=="
  | .ne => "!="
  | .openParen => "("
  | .closeParen => ")"
  | .openBracket => "["
  | .closeBracket => "]"
  | .comma => ","
  | .dot => "."
  | .colon => ":"
  | .bar => "|"
  | .star => "*"
  | .slash => "/"
  | .percent => "%"
  | .plus => "+"
  | .minus => "-"
  | .lt => "<"
  | .gt => ">"
  | .assign => "="

/-- What a token is. -/
inductive Lexeme where
  /-- A variable, without its dollar sign. -/
  | var (name : String)
  /-- A name, dotted or not. -/
  | word (name : String)
  | int (value : Int64)
  | float (value : Float)
  | string (value : String)
  | mark (mark : Mark)
  deriving DecidableEq, Repr, Inhabited

/-- The token as an error message names it. -/
def Lexeme.describe : Lexeme → String
  | .var name => "'$" ++ name ++ "'"
  | .word name => "'" ++ name ++ "'"
  | .int n => "'" ++ Integer.render n ++ "'"
  | .float x => "'" ++ Decimal.render x ++ "'"
  | .string _ => "a string"
  | .mark m => "'" ++ m.symbol ++ "'"

/-- A token with its range in the file. -/
structure Token where
  lexeme : Lexeme
  span : Span
  deriving DecidableEq, Repr, Inhabited

namespace Token

/-- The mark that starts with `c` and goes on with `rest`, and how many characters it takes after
`c`. Marks of two characters win. -/
def markAt? (c : Char) (rest : List Char) : Option (Mark × Nat) :=
  match c, rest with
  | '<', '=' :: _ => some (.le, 1)
  | '>', '=' :: _ => some (.ge, 1)
  | '=', '=' :: _ => some (.eq, 1)
  | '!', '=' :: _ => some (.ne, 1)
  | '(', _ => some (.openParen, 0)
  | ')', _ => some (.closeParen, 0)
  | '[', _ => some (.openBracket, 0)
  | ']', _ => some (.closeBracket, 0)
  | ',', _ => some (.comma, 0)
  | '.', _ => some (.dot, 0)
  | ':', _ => some (.colon, 0)
  | '|', _ => some (.bar, 0)
  | '*', _ => some (.star, 0)
  | '/', _ => some (.slash, 0)
  | '%', _ => some (.percent, 0)
  | '+', _ => some (.plus, 0)
  | '-', _ => some (.minus, 0)
  | '<', _ => some (.lt, 0)
  | '>', _ => some (.gt, 0)
  | '=', _ => some (.assign, 0)
  | _, _ => none

/-- How many characters a dotted name goes on for. A dot belongs to it only before the start of
another name. -/
def dottedLength : List Char → Nat
  | [] => 0
  | c :: cs =>
    if isNameChar c || (c == '.' && cs.head?.any isNameStart) then dottedLength cs + 1 else 0

/-- The value of a string up to its closing quote, and how many characters that takes. A backslash
marks the next character: `n`, `t` and `r` stand for line ends and tabs, others for themselves. -/
def stringBody? (quote : Char) : List Char → Option (List Char × Nat)
  | [] => none
  | '\\' :: [] => none
  | '\\' :: c :: cs =>
    (stringBody? quote cs).map fun (value, n) =>
      ((match c with
        | 'n' => '\n'
        | 't' => '\t'
        | 'r' => '\r'
        | c => c) :: value, n + 2)
  | c :: cs =>
    if c = quote then some ([], 1)
    else (stringBody? quote cs).map fun (value, n) => (c :: value, n + 1)

/-- The number that starts with the digit `c`, and how many characters it takes after `c`. A point
belongs to it only before another digit. -/
def numberAt (offset : Nat) (c : Char) (rest : List Char) : Except SyntaxError (Lexeme × Nat) :=
  let whole := c :: rest.takeWhile Char.isDigit
  match rest.dropWhile Char.isDigit with
  | '.' :: d :: more =>
    -- Without a digit after it the point starts a field.
    if d.isDigit then
      let fraction := d :: more.takeWhile Char.isDigit
      let value := Decimal.ofScaled (Decimal.natOfDigits (whole ++ fraction)) (-fraction.length)
      .ok (.float value, whole.length + fraction.length)
    else integer whole
  | _ => integer whole
where
  /-- The integer with the given digits. -/
  integer (ds : List Char) : Except SyntaxError (Lexeme × Nat) :=
    match Integer.ofInt? (Decimal.natOfDigits ds) with
    | some n => .ok (.int n, ds.length - 1)
    | none =>
      .error ⟨.invalid (.integerOutOfRange (String.ofList ds)), ⟨offset, offset + ds.length⟩⟩

/-- The token that starts with `c`, and how many of the characters `rest` it takes after `c`. -/
def readLexeme (offset : Nat) (c : Char) (rest : List Char) : Except SyntaxError (Lexeme × Nat) :=
  if c = '$' then
    let name := rest.takeWhile isNameChar
    if name.isEmpty then .error ⟨.invalid .missingVariableName, ⟨offset, offset + 1⟩⟩
    else .ok (.var (String.ofList name), name.length)
  else if isNameStart c then
    let n := dottedLength rest
    .ok (.word (String.ofList (c :: rest.take n)), n)
  else if c.isDigit then numberAt offset c rest
  else if c = '\'' || c = '"' then
    match stringBody? c rest with
    | some (value, n) => .ok (.string (String.ofList value), n)
    | none =>
      .error ⟨.invalid .unterminatedString, ⟨offset, offset + byteLength (c :: rest)⟩⟩
  else match markAt? c rest with
    | some (m, n) => .ok (.mark m, n)
    | none =>
      .error ⟨.unexpected ("'" ++ c.toString ++ "'") "an expression",
        ⟨offset, offset + c.utf8Size⟩⟩

end Token

/-- The tokens of a text that starts at `offset` in its file. -/
def tokens (offset : Nat) : List Char → Except SyntaxError (List Token)
  | [] => .ok []
  | c :: cs =>
    if isBlank c then tokens (offset + c.utf8Size) cs
    else do
      let (lexeme, n) ← Token.readLexeme offset c cs
      let stop := offset + byteLength (c :: cs.take n)
      let more ← tokens stop (cs.drop n)
      pure (⟨lexeme, offset, stop⟩ :: more)
termination_by cs => cs.length
decreasing_by all_goals (simp only [List.length_cons, List.length_drop]; omega)

end TemplateFrontend
