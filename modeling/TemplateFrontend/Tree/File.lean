import TemplateFrontend.Tree.Node
/-!
# Template files

A `TemplateFile` holds the nodes of one source in a table, in which nodes refer to each other by
number, together with what the file declares. A change to a node is seen wherever it is referred
to, and a node that no list refers to any more stays in the table.

* `preorder` — a list of nodes with everything below them, each node before the nodes inside it;
* `reachable` — the templates of the file and everything below them;
* `editBodies` — every list of every reachable node, edited in that order.
-/

namespace TemplateFrontend

/-- The contents of one source file. -/
structure TemplateFile where
  path : String
  namespaceName : Option String
  /-- The package that delegate templates of the file belong to. -/
  delegatePackage : Option String
  /-- Aliases with the namespaces they stand for, in the order of declaration. -/
  aliases : List (String × String)
  /-- The templates, in the order of declaration. -/
  templates : List NodeId
  nodes : Array Node
  lines : LineTable
  deriving Repr, Inhabited

namespace TemplateFile

/-- The file of a source before anything of it was read. -/
def empty (path : String) (content : List Char) : TemplateFile :=
  ⟨path, none, none, [], [], #[], .ofText content⟩

/-! ### Nodes by number -/

/-- What the node with a number is; a number outside the table names an empty text. -/
def kind (f : TemplateFile) (id : NodeId) : NodeKind :=
  match f.nodes[id]? with
  | some n => n.kind
  | none => .text ""

/-- The place of a node. -/
def span (f : TemplateFile) (id : NodeId) : Span :=
  match f.nodes[id]? with
  | some n => n.span
  | none => ⟨0, 0⟩

/-- The file with one more node, and its number. -/
def add (f : TemplateFile) (kind : NodeKind) (span : Span) : TemplateFile × NodeId :=
  ({ f with nodes := f.nodes.push ⟨kind, span⟩ }, f.nodes.size)

/-- The file with a node replaced. -/
def setNode (f : TemplateFile) (id : NodeId) (n : Node) : TemplateFile :=
  { f with nodes := f.nodes.setIfInBounds id n }

/-- The file with another kind for a node, which stays in its place. -/
def setKind (f : TemplateFile) (id : NodeId) (kind : NodeKind) : TemplateFile :=
  f.setNode id ⟨kind, f.span id⟩

theorem kind_add_self (f : TemplateFile) (k : NodeKind) (s : Span) :
    (f.add k s).1.kind (f.add k s).2 = k := by
  simp [add, kind]

theorem kind_add_of_lt (f : TemplateFile) (k : NodeKind) (s : Span) {id : NodeId}
    (h : id < f.nodes.size) : (f.add k s).1.kind id = f.kind id := by
  simp [add, kind, Array.getElem?_push, Nat.ne_of_lt h]

theorem kind_setKind_self (f : TemplateFile) (k : NodeKind) {id : NodeId} (h : id < f.nodes.size) :
    (f.setKind id k).kind id = k := by
  simp [setKind, setNode, kind, h]

theorem kind_setKind_of_ne (f : TemplateFile) (k : NodeKind) {id other : NodeId} (h : id ≠ other) :
    (f.setKind id k).kind other = f.kind other := by
  simp [setKind, setNode, kind, Array.getElem?_setIfInBounds_ne h]

/-- The location of a range in the file. -/
def location (f : TemplateFile) (s : Span) : Location := f.lines.location f.path s

/-- The template that a number names, if it names one. -/
def template? (f : TemplateFile) (id : NodeId) : Option Template :=
  match f.kind id with
  | .template t => some t
  | _ => none

/-- The templates with their numbers, in the order of declaration. -/
def declared (f : TemplateFile) : List (NodeId × Template) :=
  f.templates.filterMap fun id => (f.template? id).map (id, ·)

/-! ### Walking the tree -/

/-- The nodes directly inside a node, over all its lists. -/
def children (f : TemplateFile) (id : NodeId) : List NodeId := (f.kind id).bodies.flatten

/-- The nodes of a list and everything below them, each node before the nodes inside it; `fuel`
bounds their number. -/
def preorder (f : TemplateFile) : (fuel : Nat) → List NodeId → List NodeId
  | 0, _ => []
  | _ + 1, [] => []
  | fuel + 1, id :: rest => id :: f.preorder fuel (f.children id ++ rest)

/-- Everything below a node. No node is inside two others, so there are no more than in the
table. -/
def descendants (f : TemplateFile) (id : NodeId) : List NodeId :=
  f.preorder f.nodes.size (f.children id)

/-- The templates and everything below them. -/
def reachable (f : TemplateFile) : List NodeId :=
  f.templates.flatMap fun id => id :: f.descendants id

/-- The parts of all expressions of reachable nodes, each before its own parts. -/
def reachableExprs (f : TemplateFile) : List Expr :=
  f.reachable.flatMap fun id => Expr.subexprsOf (f.kind id).exprs

/-! ### Editing the tree -/

/-- The file with a step applied to every reachable node in turn. The nodes are those reachable at
the outset, whatever the steps do. -/
def foldReachable (f : TemplateFile) (step : TemplateFile → NodeId → TemplateFile) : TemplateFile :=
  f.reachable.foldl step f

/-- The file with every expression of every reachable node replaced. -/
def mapExprs (f : TemplateFile) (g : Expr → Expr) : TemplateFile :=
  f.foldReachable fun f id => f.setKind id ((f.kind id).mapExprs g)

/-- An edit of lists of nodes, which may also change or add nodes. -/
abbrev BodyEdit := TemplateFile → List NodeId → TemplateFile × List NodeId

/-- The file with one of the lists of a node edited. -/
def editBody (edit : BodyEdit) (id : NodeId) (f : TemplateFile) (slot : Nat) :
    TemplateFile :=
  match (f.kind id).bodies[slot]? with
  | none => f
  | some body =>
    let (f, body) := edit f body
    let kind := f.kind id
    f.setKind id (kind.withBodies (kind.bodies.set slot body))

/-- The file with every list of every reachable node edited, in pre-order. Nodes that the edit adds
are not visited, those that it drops still are. -/
def editBodies (f : TemplateFile) (edit : BodyEdit) : TemplateFile :=
  f.foldReachable fun f id =>
    (List.range (f.kind id).bodies.length).foldl (editBody edit id) f

/-- Adjacent texts joined into the first of them, which then covers the places of all. `last` is
the node before the list, when it is a text. -/
def joinTextsAfter : (f : TemplateFile) → (last : Option NodeId) → List NodeId →
    TemplateFile × List NodeId
  | f, _, [] => (f, [])
  | f, last, id :: ids =>
    match f.kind id, last with
    | .text s, some first =>
      match f.kind first with
      | .text t =>
        -- The first text stays the one that more texts are joined to.
        joinTextsAfter (f.setNode first ⟨.text (t ++ s), (f.span first).union (f.span id)⟩) last ids
      | _ =>
        let (f, ids) := joinTextsAfter f (some id) ids
        (f, id :: ids)
    | .text _, none =>
      let (f, ids) := joinTextsAfter f (some id) ids
      (f, id :: ids)
    | _, _ =>
      let (f, ids) := joinTextsAfter f none ids
      (f, id :: ids)

/-- A list of nodes with adjacent texts joined into the first of them. -/
def joinTexts : BodyEdit := fun f ids => joinTextsAfter f none ids

/-- The file without the documentation of templates and parameters. -/
def stripDocs (f : TemplateFile) : TemplateFile :=
  f.declared.foldl (fun f (id, t) =>
    f.setKind id (.template { t with
      doc := none, params := t.params.map fun p => { p with doc := none } })) f

end TemplateFile

/-- The files that are compiled together. -/
abbrev FileSet := List TemplateFile

namespace FileSet

/-- The file with a path. -/
def file? (fs : FileSet) (path : String) : Option TemplateFile := fs.find? (·.path == path)

/-- The templates of all files, in order. -/
def declared (fs : FileSet) : List (TemplateFile × NodeId × Template) :=
  fs.flatMap fun f => f.declared.map (f, ·)

/-- The first template with a name. -/
def findTemplate? (fs : FileSet) (name : String) : Option (TemplateFile × NodeId × Template) :=
  fs.declared.find? fun (_, _, t) => t.name == name

end FileSet

end TemplateFrontend
