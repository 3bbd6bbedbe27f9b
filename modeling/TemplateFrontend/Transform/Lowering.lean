import TemplateFrontend.Tree.File
/-!
# Nodes that are lowered

Special characters, HTML tags and state have no nodes of their own in lowered files. Special
characters become the texts that they stand for, and those that stand for nothing are dropped from
their lists. HTML tags become text, with the values of their attributes between the pieces, and the
state of element templates becomes bindings at the start of their bodies.
-/

namespace TemplateFrontend.TemplateFile

/-! ### Special characters -/

/-- A list of nodes with its special characters written out. -/
def expandSpecials : BodyEdit
  | f, [] => (f, [])
  | f, id :: ids =>
    match f.kind id with
    | .special c =>
      let (f, ids) := expandSpecials (f.setKind id (.text c.text)) ids
      (f, if c.text = "" then ids else id :: ids)
    | _ =>
      let (f, ids) := expandSpecials f ids
      (f, id :: ids)

/-- The file with its special characters written out. -/
def desugarSyntax (f : TemplateFile) : TemplateFile := f.editBodies expandSpecials

/-! ### HTML tags and state -/

/-- The pieces of an open tag with attributes, the text before them given: texts to be added as
nodes, and nodes of attribute values. -/
def tagPieces (text : String) (selfClosing : Bool) : List Attribute → List (String ⊕ List NodeId)
  | [] => [.inl (text ++ if selfClosing then "/>" else ">")]
  | a :: as =>
    let text := text ++ " " ++ a.name
    match a.value with
    | none => tagPieces text selfClosing as
    -- The text before a value ends with its opening quote, the next starts with the closing one.
    | some value => .inl (text ++ "=\"") :: .inr value :: tagPieces "\"" selfClosing as

/-- The file with the texts of a tag added as nodes in its place, and the list of its pieces. -/
def addPieces (f : TemplateFile) (place : Span) : List (String ⊕ List NodeId) →
    TemplateFile × List NodeId
  | [] => (f, [])
  | .inl text :: rest =>
    let (f, id) := f.add (.text text) place
    let (f, ids) := addPieces f place rest
    (f, id :: ids)
  | .inr value :: rest =>
    let (f, ids) := addPieces f place rest
    (f, value ++ ids)

/-- A list of nodes with its tags written out. -/
def lowerTags : BodyEdit
  | f, [] => (f, [])
  | f, id :: ids =>
    let (f, here) := match f.kind id with
      | .openTag name attributes closed =>
        f.addPieces (f.span id) (tagPieces ("<" ++ name) closed attributes)
      | .closeTag name => f.addPieces (f.span id) [.inl ("</" ++ name ++ ">")]
      | _ => (f, [id])
    let (f, ids) := lowerTags f ids
    (f, here ++ ids)

/-- A list of nodes with its tags written out and adjacent texts joined. -/
def lowerBody : BodyEdit := fun f ids =>
  let (f, ids) := f.lowerTags ids
  f.joinTexts ids

/-- The file with bindings for declarations of state added as nodes, and their numbers. -/
def addBindings (f : TemplateFile) : List StateDecl → TemplateFile × List NodeId
  | [] => (f, [])
  | d :: ds =>
    let (f, id) := f.add (.binding d.name (.value d.initial)) d.span
    let (f, ids) := addBindings f ds
    (f, id :: ids)

/-- The file with the state of one template turned into bindings, if it is an element. -/
def lowerState (f : TemplateFile) (id : NodeId) (t : Template) : TemplateFile :=
  if t.kind = .element then
    let (f, bindings) := f.addBindings t.state
    f.setKind id (.template { t with state := [], body := bindings ++ t.body })
  else f

/-- The file with state and HTML tags written out. -/
def desugarHtmlAndState (f : TemplateFile) : TemplateFile :=
  (f.declared.foldl (fun f (id, t) => f.lowerState id t) f).editBodies lowerBody

end TemplateFrontend.TemplateFile
