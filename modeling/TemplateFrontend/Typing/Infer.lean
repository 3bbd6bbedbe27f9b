import TemplateFrontend.Expr.Basic
import TemplateFrontend.Plugin.Resolver
import TemplateFrontend.ValueType.Reader
/-!
# Types of expressions

`Expr.infer` gives every part of an expression its type, binds calls of methods and lists what is
wrong, the problems of a part before those of the whole. A part with a problem has an unknown type,
so that one mistake is reported once.

* `Expr.span_infer` — an expression stays in its place.
-/

namespace TemplateFrontend

/-- What is wrong with the types of a file. -/
inductive TypeProblem where
  | type (e : TypeError)
  | method (e : ResolveError)
  | noField (type : ValueType) (field : String)
  | notANumber (type : ValueType)
  | operands (op : BinaryOp) (left right : ValueType)
  | argument (number : Nat) (callee : String) (expected found : ValueType)
  | notIterable (type : ValueType)
  | stateDefault (name : String) (found expected : ValueType)
  deriving DecidableEq, Repr

/-- The problem in words. -/
def TypeProblem.message : TypeProblem → String
  | .type e => e.message
  | .method e => e.message
  | .noField t field => "type " ++ t.text ++ " has no field '" ++ field ++ "'"
  | .notANumber t => "operator '-' requires a number, found " ++ t.text
  | .operands op l r =>
    "operator '" ++ op.symbol ++ "' cannot be applied to " ++ l.text ++ " and " ++ r.text
  | .argument n callee expected found =>
    "argument " ++ toString n ++ " of '" ++ callee ++ "' must be " ++ expected.text ++ ", found " ++
      found.text
  | .notIterable t => "cannot iterate over " ++ t.text
  | .stateDefault name found expected =>
    "default of state '" ++ name ++ "' has type " ++ found.text ++ ", expected " ++ expected.text

/-- Problems with their places. -/
abbrev TypeProblems := List (Span × TypeProblem)

/-- Variables with their types, the innermost first. -/
abbrev TypeScope := List (String × ValueType)

namespace TypeScope

/-- The type of a variable, unknown if nothing binds it. -/
def typeOf (s : TypeScope) (name : String) : ValueType := (s.lookup name).getD .unknown

end TypeScope

namespace ValueType

/-- The type of a field of a value, or nothing if such values have no fields. -/
def field? : ValueType → Option ValueType
  | .map _ value => some value
  | t => if t.isLoose then some .unknown else none

/-- The type of the items of a value, or nothing if it has none. -/
def item? : ValueType → Option ValueType
  | .list item => some item
  | t => if t.isLoose then some .unknown else none

/-- The type of the opposite of a value. -/
def negated? (t : ValueType) : Option ValueType :=
  if t.isNumeric then some t else if t.isLoose then some .unknown else none

/-- Whether values of the type may be numbers. -/
def maybeNumeric (t : ValueType) : Bool := t.isLoose || t.isNumeric

/-- The type that an operator yields. -/
def binary? (op : BinaryOp) (l r : ValueType) : Option ValueType :=
  if op.isLogical || op.isComparison then some .bool
  else if op = .add ∧ (l = .string ∨ r = .string) then some .string
  else if l.isNumeric && r.isNumeric then
    some (if op = .div ∨ ¬(l = .int ∧ r = .int) then .float else .int)
  else if l.maybeNumeric && r.maybeNumeric then some .unknown
  else none

/-- One type for all items of a list. -/
def joinAll : List ValueType → ValueType
  | [] => .unknown
  | t :: ts => ts.foldl join t

end ValueType

/-- What is wrong with the arguments of a call: those whose type the callee does not take. -/
def argumentProblems (name : String) (callee : Callee) (args : List Expr) : TypeProblems :=
  match callee with
  | .unknown => []
  | .plugin _ s =>
    ((s.params.zip args).zipIdx 1).filterMap fun ((expected, arg), n) =>
      if expected.accepts arg.type then none
      else some (arg.span, .argument n name expected arg.type)

/-- The type, or an unknown one with a problem. -/
def orProblem (place : Span) (problem : TypeProblem) : Option ValueType → ValueType × TypeProblems
  | some t => (t, [])
  | none => (.unknown, [(place, problem)])

namespace Expr

mutual
/-- The expression with the types of all its parts, and what is wrong with them. -/
def infer (r : Resolver) (scope : TypeScope) : Expr → Expr × TypeProblems
  | .literal n v => ((Expr.literal n v).withType v.type, [])
  | .var n x => ((Expr.var n x).withType (scope.typeOf x), [])
  | .global n x => ((Expr.global n x).withType .unknown, [])
  | .field n b x =>
    let (b, ps) := infer r scope b
    let (t, own) := orProblem n.span (.noField b.type x) b.type.field?
    ((Expr.field n b x).withType t, ps ++ own)
  | .call n name args callee =>
    let (args, ps) := inferAll r scope args
    match callee with
    | some c =>
      ((Expr.call n name args callee).withType c.result, ps ++ argumentProblems name c args)
    -- A call without a plugin was reported when plugins were bound.
    | none => ((Expr.call n name args callee).withType .unknown, ps)
  | .method n b name args callee =>
    let (b, ps) := infer r scope b
    let (args, more) := inferAll r scope args
    match r.method name b.type args.length with
    | .ok c =>
      ((Expr.method n b name args (some c)).withType c.result,
        ps ++ more ++ argumentProblems name c args)
    | .error e =>
      ((Expr.method n b name args callee).withType .unknown, ps ++ more ++ [(n.span, .method e)])
  | .list n es =>
    let (es, ps) := inferAll r scope es
    ((Expr.list n es).withType (.list (.joinAll (es.map (·.type)))), ps)
  | .unary n .not a =>
    let (a, ps) := infer r scope a
    ((Expr.unary n .not a).withType .bool, ps)
  | .unary n .neg a =>
    let (a, ps) := infer r scope a
    let (t, own) := orProblem n.span (.notANumber a.type) a.type.negated?
    ((Expr.unary n .neg a).withType t, ps ++ own)
  | .binary n op a b =>
    let (a, ps) := infer r scope a
    let (b, more) := infer r scope b
    let (t, own) :=
      orProblem n.span (.operands op a.type b.type) (ValueType.binary? op a.type b.type)
    ((Expr.binary n op a b).withType t, ps ++ more ++ own)

/-- Several expressions with the types of their parts. -/
def inferAll (r : Resolver) (scope : TypeScope) : List Expr → List Expr × TypeProblems
  | [] => ([], [])
  | e :: es =>
    let (e, ps) := infer r scope e
    let (es, more) := inferAll r scope es
    (e :: es, ps ++ more)
end

theorem span_infer (r : Resolver) (scope : TypeScope) (e : Expr) :
    (e.infer r scope).1.span = e.span := by
  cases e with
  | unary n op a => cases op <;> simp only [infer, span_withType] <;> rfl
  | call n name args callee => cases callee <;> simp only [infer, span_withType] <;> rfl
  | method n b name args callee =>
    unfold infer
    dsimp only
    split <;> simp only [span_withType] <;> rfl
  | _ => simp only [infer, span_withType] <;> rfl

end Expr

end TemplateFrontend
