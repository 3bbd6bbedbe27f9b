import TemplateFrontend.Expr.Reader
/-!
# Nodes of template files

A node is one template, text, command or HTML tag. Nodes refer to the nodes inside them by number,
in lists: a template or a block has one such list, a branching command one per branch, a call one
per parameter with content, an open tag one per attribute with a value. `NodeKind.bodies` gives the
lists of a node in source order and `NodeKind.withBodies` replaces them.

* `NodeKind.bodies_withBodies` — lists put into a node are the lists of the node, if their number
  is right.
-/

namespace TemplateFrontend

/-- The number of a node in its file. -/
abbrev NodeId := Nat

/-- A declaration `{@param}`, `{@inject}` or `{@attribute}`. -/
structure ParamDecl where
  name : String
  kind : ParamKind
  /-- The type as written. -/
  typeExpr : String
  /-- The type, once types were resolved. -/
  type : Option ValueType
  required : Bool
  /-- Supplied by the runtime, never by callers. -/
  injected : Bool
  doc : Option String
  span : Span
  deriving Repr, Inhabited

/-- A declaration `{@state}`. -/
structure StateDecl where
  name : String
  /-- The type as written, if one is. -/
  typeExpr : Option String
  /-- The type, once types were resolved. -/
  type : Option ValueType
  initial : Expr
  span : Span
  deriving Repr, Inhabited

/-- A template with its header. -/
structure Template where
  kind : TemplateKind
  /-- The qualified name; of a delegate template, the name of the delegate. -/
  name : String
  /-- The variant of a delegate template, empty if it states none. -/
  variant : Option String
  visibility : Visibility
  contentKind : ContentKind
  strictHtml : Bool
  doc : Option String
  params : List ParamDecl
  state : List StateDecl
  body : List NodeId
  deriving Repr, Inhabited

/-- The key under which a template is registered: its name, and for a delegate template also the
variant and the package of its file. -/
def Template.key (t : Template) (package : Option String) : String :=
  match t.kind with
  | .delegate =>
    let key := t.name ++ "#" ++ t.variant.getD ""
    match package with
    | some p => key ++ "@" ++ p
    | none => key
  | .basic | .element => t.name

/-- Characters that text cannot hold as they are, written as commands. -/
inductive SpecialChar where
  | space
  | nil
  | leftBrace
  | rightBrace
  | newline
  | tab
  | carriageReturn
  deriving DecidableEq, Repr, Inhabited

namespace SpecialChar

/-- The command that writes the character. -/
def command : SpecialChar → String
  | .space => "sp"
  | .nil => "nil"
  | .leftBrace => "lb"
  | .rightBrace => "rb"
  | .newline => "\\n"
  | .tab => "\\t"
  | .carriageReturn => "\\r"

/-- Every special character. -/
def all : List SpecialChar :=
  [.space, .nil, .leftBrace, .rightBrace, .newline, .tab, .carriageReturn]

/-- The character that a command writes. -/
def ofCommand? (c : String) : Option SpecialChar := all.find? (·.command == c)

/-- The text that stands for the character. -/
def text : SpecialChar → String
  | .space => " "
  | .nil => ""
  | .leftBrace => "\x7b"
  | .rightBrace => "\x7d"
  | .newline => "\n"
  | .tab => "\t"
  | .carriageReturn => "\r"

end SpecialChar

/-- What a `{let}` binds or a `{param}` passes. -/
inductive Bound where
  | value (e : Expr)
  | content (kind : ContentKind) (body : List NodeId)
  deriving Repr, Inhabited

namespace Bound

/-- The nodes of bound content. -/
def body? : Bound → Option (List NodeId)
  | .value _ => none
  | .content _ body => some body

/-- The bound expression. -/
def expr? : Bound → Option Expr
  | .value e => some e
  | .content _ _ => none

/-- The same with the expression replaced. -/
def mapExpr (f : Expr → Expr) : Bound → Bound
  | .value e => .value (f e)
  | .content kind body => .content kind body

/-- The type of what is bound. -/
def type : Bound → ValueType
  | .value e => e.type
  | .content kind _ => .ofContent kind

@[simp] theorem body?_value (e : Expr) : (value e).body? = none := rfl

@[simp] theorem body?_content (kind : ContentKind) (body : List NodeId) :
    (content kind body).body? = some body := rfl

end Bound

/-- A condition with what it guards. -/
structure Branch where
  cond : Expr
  body : List NodeId
  deriving Repr, Inhabited

/-- A parameter passed by a call. -/
structure Passed where
  name : String
  bound : Bound
  span : Span
  deriving Repr, Inhabited

/-- A call of a template. -/
structure Call where
  /-- The template as written until imports were resolved, its qualified name after. -/
  callee : String
  /-- Whether the callee names a delegate. -/
  delegate : Bool
  variant : Option String
  /-- Whether all data of the caller are passed on. -/
  passesAll : Bool
  passed : List Passed
  deriving Repr, Inhabited

/-- An attribute of an open tag, without a value if none is written. -/
structure Attribute where
  name : String
  value : Option (List NodeId)
  span : Span
  deriving Repr, Inhabited

/-- What a node is. -/
inductive NodeKind where
  | template (t : Template)
  | text (s : String)
  | special (c : SpecialChar)
  | print (e : Expr) (directives : List Directive)
  | conditional (branches : List Branch) (otherwise : Option (List NodeId))
  | loop (var : String) (list : Expr) (body : List NodeId)
  | binding (var : String) (bound : Bound)
  | call (c : Call)
  | message (desc : String) (meaning : Option String) (body : List NodeId)
  | visualElement (name : String) (body : List NodeId)
  | openTag (name : String) (attributes : List Attribute) (selfClosing : Bool)
  | closeTag (name : String)
  deriving Repr, Inhabited

namespace NodeKind

/-! ### Lists of nodes inside a node -/

/-- The lists of nodes inside a node, in source order. -/
def bodies : NodeKind → List (List NodeId)
  | .template t => [t.body]
  | .conditional branches otherwise => branches.map (·.body) ++ otherwise.toList
  | .loop _ _ body | .message _ _ body | .visualElement _ body => [body]
  | .binding _ bound => bound.body?.toList
  | .call c => c.passed.filterMap (·.bound.body?)
  | .openTag _ attributes _ => attributes.filterMap (·.value)
  | .text _ | .special _ | .print _ _ | .closeTag _ => []

/-- Branches with the first of the lists as their bodies, and the lists that are left. -/
def fillBranches : List Branch → List (List NodeId) → List Branch × List (List NodeId)
  | b :: bs, body :: rest =>
    let (bs, left) := fillBranches bs rest
    ({ b with body } :: bs, left)
  | bs, lists => (bs, lists)

/-- Parameters with the lists as their contents. -/
def fillPassed : List Passed → List (List NodeId) → List Passed
  | p :: ps, lists =>
    match p.bound, lists with
    | .content kind _, body :: rest => { p with bound := .content kind body } :: fillPassed ps rest
    | _, lists => p :: fillPassed ps lists
  | [], _ => []

/-- Attributes with the lists as their values. -/
def fillAttributes : List Attribute → List (List NodeId) → List Attribute
  | a :: as, lists =>
    match a.value, lists with
    | some _, value :: rest => { a with value := some value } :: fillAttributes as rest
    | _, lists => a :: fillAttributes as lists
  | [], _ => []

/-- The node with other lists inside it, given in source order. -/
def withBodies (lists : List (List NodeId)) : NodeKind → NodeKind
  | .template t => .template { t with body := lists.headD t.body }
  | .conditional branches otherwise =>
    let (branches, left) := fillBranches branches lists
    .conditional branches (otherwise.map fun old => left.headD old)
  | .loop x e body => .loop x e (lists.headD body)
  | .message d m body => .message d m (lists.headD body)
  | .visualElement x body => .visualElement x (lists.headD body)
  | .binding x (.content kind body) => .binding x (.content kind (lists.headD body))
  | .call c => .call { c with passed := fillPassed c.passed lists }
  | .openTag x attributes closed => .openTag x (fillAttributes attributes lists) closed
  | k => k

theorem bodies_fillBranches (bs : List Branch) (bodies left : List (List NodeId))
    (h : bodies.length = bs.length) :
    (fillBranches bs (bodies ++ left)).1.map (·.body) = bodies ∧
      (fillBranches bs (bodies ++ left)).2 = left := by
  induction bs generalizing bodies with
  | nil =>
    cases bodies with
    | nil => simp [fillBranches]
    | cons => simp at h
  | cons b bs ih =>
    cases bodies with
    | nil => simp at h
    | cons body bodies =>
      have ⟨h1, h2⟩ := ih bodies (by simpa using h)
      simp [fillBranches, h1, h2]

theorem bodies_fillPassed (ps : List Passed) (lists : List (List NodeId))
    (h : lists.length = (ps.filterMap (·.bound.body?)).length) :
    (fillPassed ps lists).filterMap (·.bound.body?) = lists := by
  induction ps generalizing lists with
  | nil => simpa [fillPassed] using (List.length_eq_zero_iff.1 h).symm
  | cons p ps ih =>
    cases hb : p.bound with
    -- a value takes no list
    | value e =>
      simp only [List.filterMap_cons, hb] at h
      simp [fillPassed, hb, ih lists h]
    | content kind body =>
      simp only [List.filterMap_cons, hb] at h
      cases lists with
      | nil => simp at h
      | cons l lists => simp [fillPassed, hb, ih lists (by simpa using h)]

theorem bodies_fillAttributes (as : List Attribute) (lists : List (List NodeId))
    (h : lists.length = (as.filterMap (·.value)).length) :
    (fillAttributes as lists).filterMap (·.value) = lists := by
  induction as generalizing lists with
  | nil => simpa [fillAttributes] using (List.length_eq_zero_iff.1 h).symm
  | cons a as ih =>
    cases hv : a.value with
    | none =>
      simp only [List.filterMap_cons, hv] at h
      simp [fillAttributes, hv, ih lists h]
    | some body =>
      simp only [List.filterMap_cons, hv, List.length_cons] at h
      cases lists with
      | nil => simp at h
      | cons l lists => simp [fillAttributes, hv, ih lists (by simpa using h)]

theorem bodies_withBodies (k : NodeKind) (lists : List (List NodeId))
    (h : lists.length = k.bodies.length) : (k.withBodies lists).bodies = lists := by
  match k with
  | .template t | .loop _ _ _ | .message _ _ _ | .visualElement _ _ =>
    match lists with
    | [l] => rfl
    | [] | _ :: _ :: _ => simp [bodies] at h
  | .binding x (.content kind body) =>
    match lists with
    | [l] => rfl
    | [] | _ :: _ :: _ => simp [bodies] at h
  | .binding x (.value e) | .text _ | .special _ | .print _ _ | .closeTag _ =>
    exact (List.length_eq_zero_iff.1 h).symm
  | .call c => exact bodies_fillPassed c.passed lists h
  | .openTag x as closed => exact bodies_fillAttributes as lists h
  | .conditional bs none =>
    have h' : lists.length = bs.length := by simpa [bodies] using h
    have ⟨h1, _⟩ := bodies_fillBranches bs lists [] h'
    simpa [withBodies, bodies] using h1
  | .conditional bs (some old) =>
    have h' : lists.length = bs.length + 1 := by simpa [bodies] using h
    have hne : lists ≠ [] := by
      intro hl
      simp [hl] at h'
    have ⟨h1, h2⟩ := bodies_fillBranches bs lists.dropLast [lists.getLast hne]
      (by simp [h'])
    rw [List.dropLast_concat_getLast hne] at h1 h2
    simp [withBodies, bodies, h1, h2, List.dropLast_concat_getLast hne]

/-! ### Expressions of a node -/

/-- The expressions that a node itself holds, in source order. -/
def exprs : NodeKind → List Expr
  | .template t => t.state.map (·.initial)
  | .print e directives => e :: directives.flatMap (·.args)
  | .conditional branches _ => branches.map (·.cond)
  | .loop _ e _ => [e]
  | .binding _ bound => bound.expr?.toList
  | .call c => c.passed.filterMap (·.bound.expr?)
  | _ => []

/-- The node with every expression that it itself holds replaced. -/
def mapExprs (f : Expr → Expr) : NodeKind → NodeKind
  | .template t =>
    .template { t with state := t.state.map fun d => { d with initial := f d.initial } }
  | .print e directives =>
    .print (f e) (directives.map fun d => { d with args := d.args.map f })
  | .conditional branches otherwise =>
    .conditional (branches.map fun b => { b with cond := f b.cond }) otherwise
  | .loop x e body => .loop x (f e) body
  | .binding x b => .binding x (b.mapExpr f)
  | .call c =>
    .call { c with passed := c.passed.map fun p => { p with bound := p.bound.mapExpr f } }
  | k => k

end NodeKind

/-- A node with its place in the file. -/
structure Node where
  kind : NodeKind
  span : Span
  deriving Repr, Inhabited

end TemplateFrontend
