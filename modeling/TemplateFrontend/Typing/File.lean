import TemplateFrontend.Settings.Basic
import TemplateFrontend.Tree.File
import TemplateFrontend.Tree.Node
import TemplateFrontend.Typing.Infer
/-!
# Types in a file

The header of a template is typed first, then what its body binds and uses. The header declares its
variables in order: a state declaration may use the variables declared before it in its initial
value, whose type it takes if it states none. A loop variable has the type of the items that the loop
runs over, a `{let}` variable that of its value or its content.

* `TemplateFile.resolveTypes` — the file with the type of every declaration and every expression.
-/

namespace TemplateFrontend

/-! ### Types of declarations -/

/-- The type that an expression denotes, unknown with a problem if it denotes none. -/
def resolveType (types : TypeRegistry) (place : Span) (text : String) : ValueType × TypeProblems :=
  match types.resolve text with
  | .ok t => (t, [])
  | .error e => (.unknown, [(place, .type e)])

/-- Parameters with their types, put into scope. -/
def typeParams (types : TypeRegistry) (scope : TypeScope) : List ParamDecl →
    List ParamDecl × TypeScope × TypeProblems
  | [] => ([], scope, [])
  | p :: ps =>
    let (t, own) := resolveType types p.span p.typeExpr
    let (ps, scope, more) := typeParams types ((p.name, t) :: scope) ps
    ({ p with type := some t } :: ps, scope, own ++ more)

/-- The type of a state declaration whose initial value has a type. -/
def typeOfState (types : TypeRegistry) (d : StateDecl) (initial : ValueType) :
    ValueType × TypeProblems :=
  match d.typeExpr with
  | none => (initial, [])
  | some text =>
    match types.resolve text with
    | .ok t =>
      (t, if t.accepts initial then [] else [(d.span, .stateDefault d.name initial t)])
    | .error e => (.unknown, [(d.span, .type e)])

/-- State declarations with their types, put into scope. -/
def typeState (types : TypeRegistry) (r : Resolver) (scope : TypeScope) : List StateDecl →
    List StateDecl × TypeScope × TypeProblems
  | [] => ([], scope, [])
  | d :: ds =>
    let (initial, ps) := d.initial.infer r scope
    let (t, own) := typeOfState types d initial.type
    let (ds, scope, more) := typeState types r ((d.name, t) :: scope) ds
    ({ d with type := some t, initial } :: ds, scope, ps ++ own ++ more)

/-- A template with the types of its declarations, and the scope of its body. -/
def typeHeader (types : TypeRegistry) (r : Resolver) (t : Template) :
    Template × TypeScope × TypeProblems :=
  let (params, scope, ps) := typeParams types [] t.params
  let (state, scope, more) := typeState types r scope t.state
  ({ t with params, state }, scope, ps ++ more)

/-! ### Types of a file -/

namespace TemplateFile

/-- The type of the variable of a loop over an expression. -/
def loopItem (list : Expr) : ValueType × TypeProblems :=
  orProblem list.span (.notIterable list.type) list.type.item?

/-- What is bound, typed. Content is typed by `types`. -/
def typeBound (r : Resolver) (scope : TypeScope)
    (types : TemplateFile → List NodeId → TemplateFile × TypeProblems) (f : TemplateFile) :
    Bound → TemplateFile × Bound × TypeProblems
  | .value e =>
    let (e, ps) := e.infer r scope
    (f, .value e, ps)
  | .content kind body =>
    let (f, ps) := types f body
    (f, .content kind body, ps)

/-- The nodes of a list typed, each with the variables in its scope; `fuel` bounds the number of
nodes. -/
def typeNodes (r : Resolver) : (fuel : Nat) → TypeScope → TemplateFile → List NodeId →
    TemplateFile × TypeProblems
  | 0, _, f, _ => (f, [])
  | _ + 1, _, f, [] => (f, [])
  | fuel + 1, scope, f, id :: ids =>
    let (f, after, ps) := match f.kind id with
      | .loop x list body =>
        let (list, ps) := list.infer r scope
        let (item, own) := loopItem list
        let (f, more) :=
          typeNodes r fuel ((x, item) :: scope) (f.setKind id (.loop x list body)) body
        (f, scope, ps ++ own ++ more)
      | .binding x b =>
        let (f, b, ps) := typeBound r scope (typeNodes r fuel scope) f b
        -- The variable is bound after the command, not in its own content.
        (f.setKind id (.binding x b), (x, b.type) :: scope, ps)
      | .call c =>
        let (f, passed, ps) := c.passed.foldl (fun (f, passed, ps) p =>
          let (f, bound, more) := typeBound r scope (typeNodes r fuel scope) f p.bound
          (f, passed ++ [{ p with bound }], ps ++ more)) (f, [], [])
        (f.setKind id (.call { c with passed }), scope, ps)
      | k =>
        let ps := k.exprs.flatMap fun e => (e.infer r scope).2
        let f := f.setKind id (k.mapExprs fun e => (e.infer r scope).1)
        let (f, ps) := k.bodies.foldl (fun (f, ps) body =>
          let (f, more) := typeNodes r fuel scope f body
          (f, ps ++ more)) (f, ps)
        (f, scope, ps)
    let (f, more) := typeNodes r fuel after f ids
    (f, ps ++ more)

/-- One template typed. -/
def typeTemplate (s : Settings) (f : TemplateFile) (id : NodeId) (t : Template) :
    TemplateFile × TypeProblems :=
  let (t, scope, ps) := typeHeader s.types s.plugins t
  let (f, more) := typeNodes s.plugins f.nodes.size scope (f.setKind id (.template t)) t.body
  (f, ps ++ more)

/-- The file with all its types, and what is wrong with them. -/
def resolveTypes (s : Settings) (f : TemplateFile) : TemplateFile × Diagnostics :=
  let (f, ps) := f.declared.foldl (fun (f, ps) (id, t) =>
    let (f, more) := f.typeTemplate s id t
    (f, ps ++ more)) (f, [])
  (f, ps.map fun (place, p) => .errorAt Pass.resolveTypes.name p.message (f.location place))

end TemplateFile

end TemplateFrontend
