import TemplateFrontend.Kinds
/-!
# Types of template values

`ValueType` is the type of a value that a template prints, passes or iterates over. `accepts` says
which values may stand where a type is expected, `join` finds one type for two values, and `text`
is the written form.

* `accepts_self` — every type accepts its own values;
* `join_self` — a type joined with itself is itself.
-/

namespace TemplateFrontend

/-- The type of a template value. -/
inductive ValueType where
  /-- Nothing is known; every check passes. -/
  | unknown
  | any
  | null
  | bool
  | int
  | float
  | string
  | html
  | attributes
  | uri
  | css
  | js
  | list (element : ValueType)
  | map (key value : ValueType)
  deriving DecidableEq, Repr, Inhabited

namespace ValueType

/-- The written form. -/
def text : ValueType → String
  | .unknown => "?"
  | .any => "any"
  | .null => "null"
  | .bool => "bool"
  | .int => "int"
  | .float => "float"
  | .string => "string"
  | .html => "html"
  | .attributes => "attributes"
  | .uri => "uri"
  | .css => "css"
  | .js => "js"
  | .list e => "list<" ++ e.text ++ ">"
  | .map k v => "map<" ++ k.text ++ ", " ++ v.text ++ ">"

/-- The types that go with everything: the unknown one and `any`. -/
def isLoose : ValueType → Bool
  | .unknown | .any => true
  | _ => false

/-- Integers and floating-point numbers. -/
def isNumeric : ValueType → Bool
  | .int | .float => true
  | _ => false

/-- Whether a value of type `given` may stand where `expected` is expected: loose types go with
everything, an integer is a floating-point number, and lists and maps follow their parts. -/
def accepts : (expected given : ValueType) → Bool
  | .unknown, _ | .any, _ => true
  | _, .unknown | _, .any => true
  | .float, .int => true
  | .list a, .list b => a.accepts b
  | .map ak av, .map bk bv => ak.accepts bk && av.accepts bv
  | a, b => a == b

@[simp] theorem accepts_self (t : ValueType) : t.accepts t = true := by
  induction t with
  | list e ih => simpa [accepts] using ih
  | map k v ihk ihv => simp [accepts, ihk, ihv]
  | _ => rfl

theorem accepts_of_isLoose_left {a : ValueType} (h : a.isLoose = true) (b : ValueType) :
    a.accepts b = true := by
  cases a <;> first | rfl | cases h

/-- One type for values of two types: the number type that holds both, else the one that accepts
the other, the first if both do, else `any`. -/
def join (a b : ValueType) : ValueType :=
  if a = b then a
  else if a.isNumeric && b.isNumeric then .float
  else if a.accepts b then a
  else if b.accepts a then b
  else .any

@[simp] theorem join_self (t : ValueType) : t.join t = t := by simp [join]

/-- The type of a block of content. -/
def ofContent : ContentKind → ValueType
  | .html => .html
  | .attributes => .attributes
  | .text => .string
  | .uri => .uri
  | .css => .css
  | .js => .js

end ValueType

end TemplateFrontend
