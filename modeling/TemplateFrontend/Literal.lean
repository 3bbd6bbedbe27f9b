import TemplateFrontend.Number.Decimal
import TemplateFrontend.Number.Integer
import TemplateFrontend.ValueType.Basic
/-!
# Literals

The constants of expressions, with their type, their truth, the text they print (`output`) and the
form in which an expression writes them (`text`).
-/

namespace TemplateFrontend

/-- A constant of an expression. -/
inductive Literal where
  | null
  | bool (b : Bool)
  | int (n : Int64)
  | float (x : Float)
  | string (s : String)
  deriving DecidableEq, Repr, Inhabited

namespace Literal

/-- The type of the constant. -/
def type : Literal → ValueType
  | .null => .null
  | .bool _ => .bool
  | .int _ => .int
  | .float _ => .float
  | .string _ => .string

/-- What a template prints for the constant: nothing for `null`, a string as it is. -/
def output : Literal → String
  | .null => ""
  | .bool b => if b then "true" else "false"
  | .int n => Integer.render n
  | .float x => Decimal.render x
  | .string s => s

/-- Whether a condition holds: `null`, `false`, zeros and the empty string are false. A value that
is not a number is true. -/
def isTrue : Literal → Bool
  | .null => false
  | .bool b => b
  | .int n => n != 0
  | .float x => !(x == Float.ofScientific 0 false 0)
  | .string s => s != ""

/-- The characters of a string between single quotes, those inside marked by a backslash. -/
def quote (s : String) : String :=
  let escaped := s.toList.flatMap fun c => if c = '\'' then ['\\', '\''] else [c]
  String.ofList ('\'' :: escaped ++ ['\''])

/-- The written form. -/
def text : Literal → String
  | .null => "null"
  | .string s => quote s
  | l => l.output

/-- The number, if the constant is one. -/
def number? : Literal → Option Float
  | .int n => some (Integer.toFloat n)
  | .float x => some x
  | _ => none

/-- Equality of values of one kind. Floating-point numbers are compared as numbers: the zeros are
equal, and what is not a number differs from itself. -/
def equal : Literal → Literal → Bool
  | .null, .null => true
  | .bool a, .bool b => a == b
  | .int a, .int b => a == b
  | .float a, .float b => a == b
  | .string a, .string b => a == b
  | _, _ => false

end Literal

end TemplateFrontend
