import TemplateFrontend.Diagnostic
import TemplateFrontend.Pass
import TemplateFrontend.Tree.Scope
/-!
# Variables

A reference to a variable means a name in its scope, else one that the header declares; any other is
an error. A parameter that no reference means is reported too, unless the template passes all of its
data on somewhere.
-/

namespace TemplateFrontend

/-- A reference to a variable. -/
structure VarRef where
  name : String
  span : Span
  deriving DecidableEq, Repr, Inhabited

/-- The reference that an expression itself is. -/
def Expr.varRef? : Expr → Option VarRef
  | .var n x => some ⟨x, n.span⟩
  | _ => none

namespace TemplateFile

/-- The references in expressions. -/
def varRefs (es : List Expr) : List VarRef := (Expr.subexprsOf es).filterMap (·.varRef?)

/-- The references below a list of nodes that mean nothing in their scopes. -/
def openRefs (f : TemplateFile) (ids : List NodeId) : List VarRef :=
  (f.scopedNodes ids).flatMap fun (id, scope) =>
    (varRefs (f.kind id).exprs).filter fun r => !scope.contains r.name

/-- Whether a template passes all of its data on somewhere. -/
def forwardsData (f : TemplateFile) (id : NodeId) : Bool :=
  (f.descendants id).any fun id =>
    match f.kind id with
    | .call c => c.passesAll
    | _ => false

/-- The names that a header declares. -/
def declaredNames (t : Template) : List String := t.params.map (·.name) ++ t.state.map (·.name)

/-- What is wrong with the variables of a template. -/
def templateVariables (f : TemplateFile) (id : NodeId) (t : Template) : Diagnostics :=
  let names := declaredNames t
  let refs := f.openRefs t.body
  let phase := Pass.checkHeaderVars.name
  let undeclared := (refs.filter fun r => !names.contains r.name).map fun r =>
    .errorAt phase ("undeclared variable '$" ++ r.name ++ "'") (f.location r.span)
  let used := (varRefs (t.state.map (·.initial)) ++ refs).map (·.name)
  let unused := if f.forwardsData id then [] else
    (t.params.filter fun p => !used.contains p.name).map fun p =>
      .warningAt phase ("param '" ++ p.name ++ "' is never used") (f.location p.span)
  undeclared ++ unused

/-- What is wrong with the variables of a file. -/
def checkVariables (f : TemplateFile) : Diagnostics :=
  f.declared.flatMap fun (id, t) => f.templateVariables id t

end TemplateFile

end TemplateFrontend
