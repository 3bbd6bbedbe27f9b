import TemplateFrontend.Tree.File
/-!
# Debug attributes

The first HTML element at the top level of a template of strict HTML gets an attribute that names
the template and the line of the element.
-/

namespace TemplateFrontend.TemplateFile

/-- The name of the attribute. -/
def debugAttribute : String := "data-debug"

/-- Whether a node is an open tag. -/
def isOpenTag (f : TemplateFile) (id : NodeId) : Bool :=
  match f.kind id with
  | .openTag _ _ _ => true
  | _ => false

/-- The value of the attribute for an element in a template. -/
def debugText (f : TemplateFile) (t : Template) (place : Span) : String :=
  let l := f.location place
  t.key f.delegatePackage ++ " " ++ l.path ++ ":" ++ toString l.start.line

/-- The file with the first element of one template marked. -/
def addDebugAttribute (f : TemplateFile) (t : Template) : TemplateFile :=
  if !t.strictHtml || t.contentKind != .html then f
  else match t.body.find? f.isOpenTag with
    | none => f
    | some id =>
      match f.kind id with
      | .openTag name attributes closed =>
        let place := f.span id
        -- The value is a new node, like the value of a written attribute.
        let (f, value) := f.add (.text (f.debugText t place)) place
        f.setKind id (.openTag name (attributes ++ [⟨debugAttribute, some [value], place⟩]) closed)
      | _ => f

/-- The file with the first element of each template marked. -/
def addDebugAttributes (f : TemplateFile) : TemplateFile :=
  f.templates.foldl (fun f id =>
    match f.template? id with
    | some t => f.addDebugAttribute t
    | none => f) f

end TemplateFrontend.TemplateFile
