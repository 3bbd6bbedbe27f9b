import TemplateFrontend.Expr.Basic
/-!
# Folding of constants

An operator on constants becomes the constant that it yields, unless it yields none: integers that
leave their range, division by zero, and operands that the operator does not take are left alone.
`Expr.fold` folds an expression from its innermost parts outwards.
-/

namespace TemplateFrontend

namespace Literal

/-- The opposite of a number. -/
def negate? : Literal → Option Literal
  | .int n => (Integer.neg? n).map .int
  | .float x => some (.float (-x))
  | _ => none

/-- Whether two constants are equal. Numbers of both kinds are compared as floating-point ones. -/
def equalAsNumbers (a b : Literal) : Bool :=
  match a.number?, b.number? with
  | some x, some y => x == y
  | _, _ => a.equal b

/-- Whether the constant is a string. -/
def isString : Literal → Bool
  | .string _ => true
  | _ => false

/-- An operator on two integers. -/
def foldInts (op : BinaryOp) (a b : Int64) : Option Literal :=
  match op with
  | .add => (Integer.add? a b).map .int
  | .sub => (Integer.sub? a b).map .int
  | .mul => (Integer.mul? a b).map .int
  | .mod => (Integer.rem? a b).map .int
  -- The quotient of integers is not an integer, even where the division is exact.
  | .div => if b = 0 then none else some (.float (Integer.toFloat a / Integer.toFloat b))
  | .lt => some (.bool (a < b))
  | .gt => some (.bool (b < a))
  | .le => some (.bool (a ≤ b))
  | .ge => some (.bool (b ≤ a))
  | _ => none

/-- An operator on two numbers, not both of them integers. -/
def foldFloats (op : BinaryOp) (a b : Float) : Option Literal :=
  match op with
  | .add => some (.float (a + b))
  | .sub => some (.float (a - b))
  | .mul => some (.float (a * b))
  | .div => if b == Float.ofScientific 0 false 0 then none else some (.float (a / b))
  | .lt => some (.bool (a < b))
  | .gt => some (.bool (b < a))
  | .le => some (.bool (a ≤ b))
  | .ge => some (.bool (b ≤ a))
  | _ => none

/-- An operator on two numbers. -/
def foldNumbers (op : BinaryOp) : Literal → Literal → Option Literal
  | .int a, .int b => foldInts op a b
  | a, b =>
    match a.number?, b.number? with
    | some x, some y => foldFloats op x y
    | _, _ => none

/-- The constant that an operator yields for two constants. -/
def applyBinary (op : BinaryOp) (a b : Literal) : Option Literal :=
  match op with
  -- These two take any constants and yield a truth value, never an operand.
  | .and => some (.bool (a.isTrue && b.isTrue))
  | .or => some (.bool (a.isTrue || b.isTrue))
  | .eq => some (.bool (a.equalAsNumbers b))
  | .ne => some (.bool !(a.equalAsNumbers b))
  | .add =>
    if a.isString || b.isString then some (.string (a.output ++ b.output)) else foldNumbers .add a b
  | op => foldNumbers op a b

/-- The constant that an operator yields for a constant. -/
def applyUnary (op : UnaryOp) (a : Literal) : Option Literal :=
  match op with
  | .not => some (.bool !a.isTrue)
  | .neg => a.negate?

end Literal

namespace Expr

/-- The constant that the outermost operator yields, if its operands are constants. -/
def folded? : Expr → Option Literal
  | .unary _ op a => do (← a.literal?) |> Literal.applyUnary op
  | .binary _ op a b => do Literal.applyBinary op (← a.literal?) (← b.literal?)
  | _ => none

/-- The expression with its outermost operator folded. -/
def foldPart (e : Expr) : Expr :=
  match e.folded? with
  | some v => .literal ⟨e.span, some v.type⟩ v
  | none => e

/-- The expression with every operator on constants folded. -/
def fold (e : Expr) : Expr := e.mapParts foldPart

end Expr

end TemplateFrontend
