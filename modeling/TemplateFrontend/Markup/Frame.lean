import TemplateFrontend.Markup.Input
import TemplateFrontend.Tree.File
/-!
# Open blocks

Reading a file keeps a stack of `Frame`s, one for each template, block, call, HTML tag and attribute
value that is open, the innermost first. A frame holds what was read of it so far. A node that is
complete goes into the innermost frame that takes nodes (`Reading.place`), and a template into the
file.
-/

namespace TemplateFrontend.Markup

/-- The declarations of the template being read. -/
structure Header where
  params : List ParamDecl
  state : List StateDecl
  /-- Whether the body has started, after which no declaration may follow. -/
  closed : Bool
  /-- What follows the last declaration. -/
  afterLast : Option Input
  deriving Repr, Inhabited

/-- What a block is, without what is inside it. -/
inductive Block where
  /-- A template whose header and body are still empty. -/
  | template (t : Template) (header : Header)
  /-- The body of a condition, after other branches. -/
  | branch (before : List Branch) (cond : Expr)
  | otherwise (branches : List Branch)
  | loop (var : String) (list : Expr)
  | binding (var : String) (kind : ContentKind)
  | message (desc : String) (meaning : Option String)
  | visualElement (name : String)
  /-- Content passed by the call that is the next frame. -/
  | param (name : String) (kind : ContentKind)
  deriving Repr, Inhabited

/-- Something that is open. Nodes and other parts are kept newest first. -/
inductive Frame where
  /-- A block with the nodes in it; `html` says whether HTML tags are read there. -/
  | block (opener : Tag) (html : Bool) (block : Block) (nodes : List NodeId)
  | call (opener : Tag) (call : Call)
  | openTag (start : Nat) (name : String) (attributes : List Attribute)
  /-- The value of an attribute of the open tag that is the next frame. -/
  | attributeValue (name : String) (start : Nat) (quote : Char) (nodes : List NodeId)
  deriving Repr, Inhabited

/-- The state of reading a file. -/
structure Reading where
  input : Input
  file : TemplateFile
  /-- Documentation that waits for what it documents. -/
  doc : Option String
  /-- Whether the template being read is strict about HTML. -/
  strict : Bool
  frames : List Frame
  deriving Repr, Inhabited

namespace Reading

/-- The state before the first character. -/
def start (path : String) (content : List Char) : Reading :=
  ⟨⟨0, content⟩, .empty path content, none, false, []⟩

/-- The state with a complete node put where it belongs. -/
def place (r : Reading) (id : NodeId) : Reading :=
  match r.frames with
  | [] => { r with file := { r.file with templates := r.file.templates ++ [id] } }
  | .block opener html block nodes :: below =>
    { r with frames := .block opener html block (id :: nodes) :: below }
  | .attributeValue name start quote nodes :: below =>
    { r with frames := .attributeValue name start quote (id :: nodes) :: below }
  -- A call takes parameters and an open tag takes attributes, neither takes nodes.
  | .call _ _ :: _ | .openTag _ _ _ :: _ => r

/-- The state with a new node, complete, put where it belongs. -/
def emit (r : Reading) (kind : NodeKind) (span : Span) : Reading :=
  let (file, id) := r.file.add kind span
  { r with file }.place id

/-- The state with a new innermost frame. -/
def push (r : Reading) (frame : Frame) : Reading := { r with frames := frame :: r.frames }

/-- The state without its innermost frame. -/
def pop (r : Reading) : Reading := { r with frames := r.frames.tail }

/-- The state with the innermost frame replaced. -/
def replace (r : Reading) (frame : Frame) : Reading := r.pop.push frame

/-- The state without the documentation that waits. -/
def dropDoc (r : Reading) : Reading := { r with doc := none }

end Reading

namespace Block

/-- The tags that end a block, or a part of it, opened by `opener`. -/
def terminators (opener : Tag) : Block → List String
  | .template _ _ => [opener.closing]
  | .branch _ _ => ["elseif", "else", "/if"]
  | .otherwise _ => ["/if"]
  | .loop _ _ => ["/for"]
  | .binding _ _ => ["/let"]
  | .message _ _ => ["/msg"]
  | .visualElement _ => ["/velog"]
  | .param _ _ => ["/param"]

/-- The block with the body of its template started. -/
def closeHeader : Block → Block
  | .template t header => .template t { header with closed := true }
  | b => b

end Block

end TemplateFrontend.Markup
