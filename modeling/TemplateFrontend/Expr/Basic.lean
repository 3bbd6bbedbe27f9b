import TemplateFrontend.Literal
import TemplateFrontend.Source.Position
/-!
# Expressions

An expression is a tree. Every part carries its place in the file and, once types were inferred,
its type. `subexprs` lists the parts with each before its own parts, `mapParts` replaces every
part after its own parts were replaced.
-/

namespace TemplateFrontend

/-- The types that a function takes and gives. -/
structure Signature where
  params : List ValueType
  result : ValueType
  deriving DecidableEq, Repr, Inhabited

/-- What a call is bound to. -/
inductive Callee where
  | plugin (name : String) (signature : Signature)
  /-- A plugin that nobody declared, tolerated. -/
  | unknown
  deriving DecidableEq, Repr, Inhabited

/-- The type of the value that a call yields. -/
def Callee.result : Callee → ValueType
  | .plugin _ s => s.result
  | .unknown => .unknown

/-- Operators before their operand. -/
inductive UnaryOp where
  | not
  | neg
  deriving DecidableEq, Repr, Inhabited

/-- The written form. -/
def UnaryOp.symbol : UnaryOp → String
  | .not => "not"
  | .neg => "-"

/-- Operators between their operands. -/
inductive BinaryOp where
  | mul
  | div
  | mod
  | add
  | sub
  | lt
  | gt
  | le
  | ge
  | eq
  | ne
  | and
  | or
  deriving DecidableEq, Repr, Inhabited

namespace BinaryOp

/-- How tightly the operator binds its operands. -/
def precedence : BinaryOp → Nat
  | .or => 1
  | .and => 2
  | .eq | .ne => 3
  | .lt | .gt | .le | .ge => 4
  | .add | .sub => 5
  | .mul | .div | .mod => 6

/-- The written form. -/
def symbol : BinaryOp → String
  | .mul => "*"
  | .div => "/"
  | .mod => "%"
  | .add => "+"
  | .sub => "-"
  | .lt => "<"
  | .gt => ">"
  | .le => "<="
  | .ge => ">="
  | .eq => "=="
  | .ne => "!="
  | .and => "and"
  | .or => "or"

/-- Whether the operator compares its operands. -/
def isComparison : BinaryOp → Bool
  | .lt | .gt | .le | .ge | .eq | .ne => true
  | _ => false

/-- Whether the operator combines truth values. -/
def isLogical : BinaryOp → Bool
  | .and | .or => true
  | _ => false

end BinaryOp

/-- What is known of one part of an expression: its place and, after inference, its type. -/
structure Expr.Note where
  span : Span
  type : Option ValueType
  deriving DecidableEq, Repr, Inhabited

/-- An expression. -/
inductive Expr where
  | literal (note : Expr.Note) (value : Literal)
  /-- A variable, without its dollar sign. -/
  | var (note : Expr.Note) (name : String)
  /-- A dotted name that is not called. -/
  | global (note : Expr.Note) (name : String)
  | field (note : Expr.Note) (base : Expr) (name : String)
  | call (note : Expr.Note) (name : String) (args : List Expr) (callee : Option Callee)
  | method (note : Expr.Note) (base : Expr) (name : String) (args : List Expr)
    (callee : Option Callee)
  | list (note : Expr.Note) (items : List Expr)
  | unary (note : Expr.Note) (op : UnaryOp) (operand : Expr)
  | binary (note : Expr.Note) (op : BinaryOp) (lhs rhs : Expr)
  deriving Repr, Inhabited

namespace Expr

/-- What is known of the whole expression. -/
def note : Expr → Note
  | .literal n _ | .var n _ | .global n _ | .field n _ _ | .call n _ _ _ | .method n _ _ _ _
  | .list n _ | .unary n _ _ | .binary n _ _ _ => n

/-- The expression with other knowledge of the whole. -/
def withNote (n : Note) : Expr → Expr
  | .literal _ v => .literal n v
  | .var _ x => .var n x
  | .global _ x => .global n x
  | .field _ b x => .field n b x
  | .call _ x as c => .call n x as c
  | .method _ b x as c => .method n b x as c
  | .list _ es => .list n es
  | .unary _ op e => .unary n op e
  | .binary _ op a b => .binary n op a b

@[simp] theorem note_withNote (n : Note) (e : Expr) : (e.withNote n).note = n := by cases e <;> rfl

/-- The place of the expression in its file. -/
def span (e : Expr) : Span := e.note.span

/-- The inferred type, unknown before inference. -/
def type (e : Expr) : ValueType := e.note.type.getD .unknown

/-- The expression with an inferred type. -/
def withType (t : ValueType) (e : Expr) : Expr := e.withNote { e.note with type := some t }

@[simp] theorem type_withType (t : ValueType) (e : Expr) : (e.withType t).type = t := by
  simp [type, withType]

@[simp] theorem span_withType (t : ValueType) (e : Expr) : (e.withType t).span = e.span := by
  simp [span, withType]

/-- The constant, if the expression is one. -/
def literal? : Expr → Option Literal
  | .literal _ v => some v
  | _ => none

/-- The parts directly below the expression, in source order. -/
def children : Expr → List Expr
  | .literal _ _ | .var _ _ | .global _ _ => []
  | .field _ b _ => [b]
  | .call _ _ as _ => as
  | .method _ b _ as _ => b :: as
  | .list _ es => es
  | .unary _ _ e => [e]
  | .binary _ _ a b => [a, b]

mutual
/-- The expression and everything below it, each part before its own parts. -/
def subexprs : Expr → List Expr
  | e@(.literal _ _) => [e]
  | e@(.var _ _) => [e]
  | e@(.global _ _) => [e]
  | e@(.field _ b _) => e :: b.subexprs
  | e@(.call _ _ as _) => e :: subexprsOf as
  | e@(.method _ b _ as _) => e :: (b.subexprs ++ subexprsOf as)
  | e@(.list _ es) => e :: subexprsOf es
  | e@(.unary _ _ a) => e :: a.subexprs
  | e@(.binary _ _ a b) => e :: (a.subexprs ++ b.subexprs)

/-- The parts of several expressions, one expression after the other. -/
def subexprsOf : List Expr → List Expr
  | [] => []
  | e :: es => e.subexprs ++ subexprsOf es
end

mutual
/-- The expression with `f` applied to every part, to the parts below a part first. -/
def mapParts (f : Expr → Expr) : Expr → Expr
  | .literal n v => f (.literal n v)
  | .var n x => f (.var n x)
  | .global n x => f (.global n x)
  | .field n b x => f (.field n (b.mapParts f) x)
  | .call n x as c => f (.call n x (mapPartsOf f as) c)
  | .method n b x as c => f (.method n (b.mapParts f) x (mapPartsOf f as) c)
  | .list n es => f (.list n (mapPartsOf f es))
  | .unary n op a => f (.unary n op (a.mapParts f))
  | .binary n op a b => f (.binary n op (a.mapParts f) (b.mapParts f))

/-- Several expressions with `f` applied to every part of each. -/
def mapPartsOf (f : Expr → Expr) : List Expr → List Expr
  | [] => []
  | e :: es => e.mapParts f :: mapPartsOf f es
end

theorem mapPartsOf_eq_map (f : Expr → Expr) (es : List Expr) :
    mapPartsOf f es = es.map (mapParts f) := by
  induction es with
  | nil => rfl
  | cons e es ih => simp [mapPartsOf, ih]

end Expr

end TemplateFrontend
