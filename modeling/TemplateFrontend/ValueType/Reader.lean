import TemplateFrontend.Text.Chars
import TemplateFrontend.ValueType.Basic
/-!
# Reading type expressions

A type expression is `?`, a name, `list<T>` or `map<K, V>`, with blanks allowed between its parts.
Names are looked up in a `TypeRegistry`, which knows the primitive types and any aliases that were
added. The registry that knows nothing types every expression as unknown, even an ill-formed one.
-/

namespace TemplateFrontend

open Text

/-- What is wrong with the form of a type expression. -/
inductive TypeSyntax where
  | expectedMark (mark : Char)
  | expectedName
  | trailingInput
  deriving DecidableEq, Repr

/-- Why a type expression has no type. -/
inductive TypeError where
  | unknownName (name : String)
  | malformed (expr : String) (reason : TypeSyntax)
  deriving DecidableEq, Repr

namespace TypeSyntax

/-- The reason in words. -/
def message : TypeSyntax → String
  | .expectedMark c => "expected '" ++ c.toString ++ "'"
  | .expectedName => "expected a type name"
  | .trailingInput => "unexpected trailing input"

end TypeSyntax

namespace TypeError

/-- The error in words. -/
def message : TypeError → String
  | .unknownName name => "unknown type '" ++ name ++ "'"
  | .malformed expr reason =>
    "malformed type expression '" ++ expr ++ "': " ++ reason.message

end TypeError

/-- The named types that expressions may use. -/
structure TypeRegistry where
  /-- Names with their types; a name added again has its new type. -/
  named : List (String × ValueType)
  /-- Whether every expression is typed as unknown, unread. -/
  readsNothing : Bool
  deriving Repr

namespace TypeRegistry

/-- The primitive types. `number` is a second name of the floating-point type. -/
def primitives : List (String × ValueType) :=
  [("?", .unknown), ("any", .any), ("null", .null), ("bool", .bool), ("int", .int),
    ("float", .float), ("number", .float), ("string", .string), ("html", .html),
    ("attributes", .attributes), ("uri", .uri), ("css", .css), ("js", .js)]

/-- The registry of the primitive types. -/
def builtin : TypeRegistry := ⟨primitives, false⟩

/-- The registry that types every expression as unknown. -/
def unknown : TypeRegistry := ⟨[], true⟩

/-- The registry with one more name. -/
def addAlias (r : TypeRegistry) (name : String) (type : ValueType) : TypeRegistry :=
  { r with named := (name, type) :: r.named }

/-- The type of a name. -/
def lookup (r : TypeRegistry) (name : String) : Option ValueType := r.named.lookup name

/-- The characters of type names. -/
def isTypeNameChar (c : Char) : Bool := isNameChar c || c == '.'

/-- The text after `mark`, blanks before it skipped. -/
def skipMark (expr : String) (mark : Char) (cs : List Char) : Except TypeError (List Char) :=
  match trimStart cs with
  | c :: rest => if c = mark then .ok rest else .error (.malformed expr (.expectedMark mark))
  | [] => .error (.malformed expr (.expectedMark mark))

/-- Reads one type from the front of `cs`, a part of the expression `expr`, and answers what
follows it. `fuel` bounds the depth; the length of `cs` is enough. -/
def readType (r : TypeRegistry) (expr : String) :
    (fuel : Nat) → (cs : List Char) → Except TypeError (ValueType × List Char)
  | 0, _ => .error (.malformed expr .expectedName)
  | fuel + 1, cs =>
    match trimStart cs with
    | '?' :: rest => .ok (.unknown, rest)
    | cs =>
      let name := cs.takeWhile isTypeNameChar
      let rest := cs.dropWhile isTypeNameChar
      if name.isEmpty then .error (.malformed expr .expectedName)
      else if name = "list".toList then do
        let rest ← skipMark expr '<' rest
        let (element, rest) ← r.readType expr fuel rest
        let rest ← skipMark expr '>' rest
        pure (.list element, rest)
      else if name = "map".toList then do
        let rest ← skipMark expr '<' rest
        let (key, rest) ← r.readType expr fuel rest
        let rest ← skipMark expr ',' rest
        let (value, rest) ← r.readType expr fuel rest
        let rest ← skipMark expr '>' rest
        pure (.map key value, rest)
      else match r.lookup (String.ofList name) with
        | some type => .ok (type, rest)
        | none => .error (.unknownName (String.ofList name))

/-- The type that an expression denotes. -/
def resolve (r : TypeRegistry) (expr : String) : Except TypeError ValueType :=
  if r.readsNothing then .ok .unknown
  else do
    let (type, rest) ← r.readType expr (expr.toList.length + 1) expr.toList
    if allBlank rest then pure type else .error (.malformed expr .trailingInput)

end TypeRegistry

end TemplateFrontend
