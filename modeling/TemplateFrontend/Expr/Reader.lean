import TemplateFrontend.Expr.Basic
import TemplateFrontend.Expr.Token
import TemplateFrontend.Text.Pieces
/-!
# Reading expressions

Expressions are read from a list of tokens by descent. Operators between operands associate to the
left and bind by `BinaryOp.precedence`; `not` and `-` before an operand bind tighter; fields and
method calls after it bind tightest. A reader takes the tokens and answers what it read with the
tokens that follow.

The readers call each other on fuel: `depth` bounds how deep they go for a number of tokens.
-/

namespace TemplateFrontend

open Text

/-- A print directive `|name:arg,arg`. -/
structure Directive where
  name : String
  args : List Expr
  span : Span
  deriving Repr, Inhabited

namespace Expr.Reader

/-- What reading something from the front of a list of tokens answers: that with the tokens that
follow it, or an error. -/
abbrev Answer := Except SyntaxError

/-- Where the text of the tokens ends. An error at the end points there. -/
abbrev Stop := Nat

/-- The error of finding the first of `ts`, or the end, where `expected` should stand. -/
def unexpected (stop : Stop) (ts : List Token) (expected : String) : SyntaxError :=
  match ts with
  | t :: _ => ⟨.unexpected t.lexeme.describe expected, t.span⟩
  | [] => ⟨.unexpected "end of command" expected, ⟨stop, stop⟩⟩

/-- The tokens after the mark `m`, with the place of the mark. -/
def mark (stop : Stop) (m : Mark) (ts : List Token) : Answer (Span × List Token) :=
  match ts with
  | ⟨.mark m', s⟩ :: rest =>
    if m' = m then .ok (s, rest) else .error (unexpected stop ts ("'" ++ m.symbol ++ "'"))
  | ts => .error (unexpected stop ts ("'" ++ m.symbol ++ "'"))

/-- The tokens after the mark `m`, if they start with it. -/
def mark? (m : Mark) : List Token → Option (Span × List Token)
  | ⟨.mark m', s⟩ :: rest => if m' = m then some (s, rest) else none
  | _ => none

/-- A word, whatever it is. -/
def word (stop : Stop) (expected : String) (ts : List Token) :
    Answer ((String × Span) × List Token) :=
  match ts with
  | ⟨.word w, s⟩ :: rest => .ok ((w, s), rest)
  | ts => .error (unexpected stop ts expected)

/-- A variable. -/
def variableName (stop : Stop) (ts : List Token) : Answer (String × List Token) :=
  match ts with
  | ⟨.var x, _⟩ :: rest => .ok (x, rest)
  | ts => .error (unexpected stop ts "a '$' variable")

/-- The word `w`. -/
def keyword (stop : Stop) (w : String) (ts : List Token) : Answer (Unit × List Token) :=
  match ts with
  | ⟨.word w', _⟩ :: rest =>
    if w' = w then .ok ((), rest) else .error (unexpected stop ts ("'" ++ w ++ "'"))
  | ts => .error (unexpected stop ts ("'" ++ w ++ "'"))

/-- Refuses any token. -/
def finish (stop : Stop) : List Token → Except SyntaxError Unit
  | [] => .ok ()
  | ts => .error (unexpected stop ts "end of command")

/-- The operator that a token is between two operands. -/
def binaryOp? : Lexeme → Option BinaryOp
  | .mark .star => some .mul
  | .mark .slash => some .div
  | .mark .percent => some .mod
  | .mark .plus => some .add
  | .mark .minus => some .sub
  | .mark .lt => some .lt
  | .mark .gt => some .gt
  | .mark .le => some .le
  | .mark .ge => some .ge
  | .mark .eq => some .eq
  | .mark .ne => some .ne
  | .word w => if w = "and" then some .and else if w = "or" then some .or else none
  | _ => none

/-- The operator that a token is before an operand. -/
def unaryOp? : Lexeme → Option UnaryOp
  | .word w => if w = "not" then some .not else none
  | .mark .minus => some .neg
  | _ => none

/-- An expression just read, not typed yet. -/
def place (s : Span) : Note := ⟨s, none⟩

/-- `base` followed by the fields of a dotted name. -/
def fields (s : Span) (base : Expr) (names : List String) : Expr :=
  names.foldl (fun e name => .field (place (e.span.union s)) e name) base

/-- The words `true`, `false` and `null`, which are constants. -/
def constant? (w : String) : Option Literal :=
  if w = "true" then some (.bool true)
  else if w = "false" then some (.bool false)
  else if w = "null" then some .null
  else none

mutual
/-- Operands joined by operators that bind tighter than `floor`. -/
def binary (stop : Stop) : Nat → (floor : Nat) → List Token → Answer (Expr × List Token)
  | 0, _, ts => .error (unexpected stop ts "an expression")
  | n + 1, floor, ts => do
    let (lhs, ts) ← unary stop n ts
    operators stop n floor lhs ts

/-- The operators and operands that go on from `lhs`. -/
def operators (stop : Stop) : Nat → (floor : Nat) → (lhs : Expr) → List Token →
    Answer (Expr × List Token)
  | 0, _, _, ts => .error (unexpected stop ts "an expression")
  | n + 1, floor, lhs, ts =>
    match ts.head?.bind (binaryOp? ·.lexeme) with
    | none => .ok (lhs, ts)
    | some op =>
      -- An operator that binds as the floor does is left to the caller: it associates to the left.
      if op.precedence ≤ floor then .ok (lhs, ts)
      else do
        let (rhs, ts) ← binary stop n op.precedence ts.tail
        operators stop n floor (.binary (place (lhs.span.union rhs.span)) op lhs rhs) ts

/-- An operand with the operators before it. -/
def unary (stop : Stop) : Nat → List Token → Answer (Expr × List Token)
  | 0, ts => .error (unexpected stop ts "an expression")
  | n + 1, ts =>
    match ts with
    | [] => postfixed stop n ts
    | t :: rest =>
      match unaryOp? t.lexeme with
      | none => postfixed stop n ts
      | some op => do
        let (operand, ts) ← unary stop n rest
        pure (.unary (place (t.span.union operand.span)) op operand, ts)

/-- An operand with the fields and method calls after it. -/
def postfixed (stop : Stop) : Nat → List Token → Answer (Expr × List Token)
  | 0, ts => .error (unexpected stop ts "an expression")
  | n + 1, ts => do
    let (base, ts) ← primary stop n ts
    selectors stop n base ts

/-- The fields and method calls that go on from `base`. Only the last name after a dot can be the
name of a method. -/
def selectors (stop : Stop) : Nat → (base : Expr) → List Token → Answer (Expr × List Token)
  | 0, _, ts => .error (unexpected stop ts "an expression")
  | n + 1, base, ts =>
    match mark? .dot ts with
    | none => .ok (base, ts)
    | some (_, ts) => do
      let ((path, s), ts) ← word stop "a field or method name" ts
      -- One word may hold several names, because names with dots are single tokens.
      let names := (pieces '.' path.toList).map String.ofList
      match mark? .openParen ts with
      | none => selectors stop n (fields s base names) ts
      | some (_, ts) =>
        let base := fields s base names.dropLast
        let ((args, close), ts) ← arguments stop n ts
        let note := place ((base.span.union s).union close)
        selectors stop n (.method note base (names.getLastD "") args none) ts

/-- The arguments of a call and its closing parenthesis, after the opening one. -/
def arguments (stop : Stop) : Nat → List Token → Answer ((List Expr × Span) × List Token)
  | 0, ts => .error (unexpected stop ts "an expression")
  | n + 1, ts =>
    match mark? .closeParen ts with
    | some (close, ts) => .ok (([], close), ts)
    | none => do
      let (args, ts) ← items stop n ts
      let (close, ts) ← mark stop .closeParen ts
      pure ((args, close), ts)

/-- One expression or more, with commas between them. -/
def items (stop : Stop) : Nat → List Token → Answer (List Expr × List Token)
  | 0, ts => .error (unexpected stop ts "an expression")
  | n + 1, ts => do
    let (e, ts) ← binary stop n 0 ts
    match mark? .comma ts with
    | none => pure ([e], ts)
    | some (_, ts) =>
      let (es, ts) ← items stop n ts
      pure (e :: es, ts)

/-- The items of a list and its closing bracket, after the opening one. A comma may stand before
the bracket. -/
def listItems (stop : Stop) : Nat → List Token → Answer ((List Expr × Span) × List Token)
  | 0, ts => .error (unexpected stop ts "an expression")
  | n + 1, ts =>
    match mark? .closeBracket ts with
    | some (close, ts) => .ok (([], close), ts)
    | none => do
      let (e, ts) ← binary stop n 0 ts
      match mark? .comma ts with
      | some (_, ts) =>
        let ((es, close), ts) ← listItems stop n ts
        pure ((e :: es, close), ts)
      | none =>
        let (close, ts) ← mark stop .closeBracket ts
        pure (([e], close), ts)

/-- A constant, a variable, a name, a call, a list or an expression in parentheses. -/
def primary (stop : Stop) : Nat → List Token → Answer (Expr × List Token)
  | 0, ts => .error (unexpected stop ts "an expression")
  | n + 1, ts =>
    match ts with
    | ⟨.var x, s⟩ :: rest => .ok (.var (place s) x, rest)
    | ⟨.int k, s⟩ :: rest => .ok (.literal (place s) (.int k), rest)
    | ⟨.float x, s⟩ :: rest => .ok (.literal (place s) (.float x), rest)
    | ⟨.string t, s⟩ :: rest => .ok (.literal (place s) (.string t), rest)
    | ⟨.word w, s⟩ :: rest =>
      match constant? w with
      | some v => .ok (.literal (place s) v, rest)
      | none =>
        match mark? .openParen rest with
        | none => .ok (.global (place s) w, rest)
        | some (_, rest) => do
          let ((args, close), rest) ← arguments stop n rest
          pure (.call (place (s.union close)) w args none, rest)
    -- Parentheses leave no trace: what they enclose keeps its own place.
    | ⟨.mark .openParen, _⟩ :: rest => do
      let (e, rest) ← binary stop n 0 rest
      let (_, rest) ← mark stop .closeParen rest
      pure (e, rest)
    | ⟨.mark .openBracket, s⟩ :: rest => do
      let ((es, close), rest) ← listItems stop n rest
      pure (.list (place (s.union close)) es, rest)
    | ts => .error (unexpected stop ts "an expression")
end

/-- Fuel for a number of tokens: no reader calls more than six others before it takes a token. -/
def depth (ts : List Token) : Nat := 8 * (ts.length + 1)

/-- One expression. -/
def expr (stop : Stop) (ts : List Token) : Answer (Expr × List Token) := binary stop (depth ts) 0 ts

/-- The arguments of a directive: one expression or more, with commas between them. -/
def directiveArgs (stop : Stop) (ts : List Token) : Answer (List Expr × List Token) :=
  items stop (depth ts) ts

/-- Print directives up to the first token that does not start one; `fuel` bounds their number. -/
def directives (stop : Stop) : (fuel : Nat) → List Token → Answer (List Directive × List Token)
  | 0, ts => .ok ([], ts)
  | fuel + 1, ts =>
    match mark? .bar ts with
    | none => .ok ([], ts)
    | some (bar, ts) => do
      let ((name, s), ts) ← word stop "a print directive name" ts
      let s := bar.union s
      match mark? .colon ts with
      | none =>
        let (more, ts) ← directives stop fuel ts
        pure (⟨name, [], s⟩ :: more, ts)
      | some (_, ts) =>
        let (args, ts) ← directiveArgs stop ts
        let (more, ts) ← directives stop fuel ts
        pure (⟨name, args, args.foldl (fun s e => s.union e.span) s⟩ :: more, ts)

end Expr.Reader

open Expr.Reader

/-- The expression that a text starting at `offset` in its file holds, and nothing else. -/
def Expr.parse (offset : Nat) (cs : List Char) : Except SyntaxError Expr := do
  let stop := offset + byteLength cs
  let (e, ts) ← expr stop (← tokens offset cs)
  finish stop ts
  pure e

/-- The expression and the directives of a print command. -/
def Expr.parsePrint (offset : Nat) (cs : List Char) :
    Except SyntaxError (Expr × List Directive) := do
  let stop := offset + byteLength cs
  let (e, ts) ← expr stop (← tokens offset cs)
  let (ds, ts) ← Expr.Reader.directives stop ts.length ts
  finish stop ts
  pure (e, ds)

/-- The variable and the list of a loop `$x in list`. -/
def Expr.parseLoop (offset : Nat) (cs : List Char) : Except SyntaxError (String × Expr) := do
  let stop := offset + byteLength cs
  let (x, ts) ← variableName stop (← tokens offset cs)
  let (_, ts) ← keyword stop "in" ts
  let (e, ts) ← expr stop ts
  finish stop ts
  pure (x, e)

end TemplateFrontend
