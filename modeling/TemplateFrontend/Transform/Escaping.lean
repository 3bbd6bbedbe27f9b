import TemplateFrontend.Text.Chars
import TemplateFrontend.Tree.File
/-!
# Escaping directives

Every print that does not escape itself gets the directives of the place where its text ends up. The
place is the innermost attribute value or block of content around the print, else the template.
-/

namespace TemplateFrontend

open Text

/-- Where the text of a print ends up. -/
inductive OutputContext where
  | html
  /-- The value of an HTML attribute, which may be an address. -/
  | attribute (address : Bool)
  | uri
  | css
  | js
  | text
  deriving DecidableEq, Repr, Inhabited

namespace OutputContext

/-- The context of content of a kind. -/
def ofContent : ContentKind → OutputContext
  | .html => .html
  | .attributes => .attribute false
  | .text => .text
  | .uri => .uri
  | .css => .css
  | .js => .js

/-- The attributes whose values are addresses. -/
def addressAttributes : List String := ["href", "src", "action", "formaction", "poster", "cite"]

/-- The context of the value of an attribute. -/
def ofAttribute (name : String) : OutputContext :=
  .attribute (addressAttributes.any (equalIgnoringCase name))

/-- The directives that a context asks for, in the order in which they apply. -/
def directives : OutputContext → List String
  | .html => ["escapeHtml"]
  | .attribute false => ["escapeHtmlAttribute"]
  | .attribute true => ["filterNormalizeUri", "escapeHtmlAttribute"]
  | .uri => ["filterNormalizeUri"]
  | .css => ["filterCssValue"]
  | .js => ["escapeJsValue"]
  | .text => []

end OutputContext

/-- The directives that escape a print, or say that it needs no escaping. -/
def escapingDirectives : List String :=
  ["escapeHtml", "escapeHtmlAttribute", "filterNormalizeUri", "filterCssValue", "escapeJsValue",
    "noAutoescape", "text"]

/-- Whether one of the directives is about escaping. -/
def escapesItself (ds : List Directive) : Bool := ds.any (escapingDirectives.contains ·.name)

/-- The directives of a print with those of its context added. -/
def escapedBy (context : OutputContext) (place : Span) (ds : List Directive) : List Directive :=
  if escapesItself ds then ds else ds ++ context.directives.map fun name => ⟨name, [], place⟩

/-- The lists inside a node, each with its context, for a node in the given context. -/
def NodeKind.bodiesWithContext (context : OutputContext) : NodeKind →
    List (List NodeId × OutputContext)
  | .openTag _ attributes _ =>
    attributes.filterMap fun a => a.value.map (·, .ofAttribute a.name)
  | .binding _ (.content kind body) => [(body, .ofContent kind)]
  | .call c =>
    c.passed.filterMap fun p =>
      match p.bound with
      | .content kind body => some (body, .ofContent kind)
      | .value _ => none
  -- Branches, loops and messages put their text where they stand themselves.
  | k => k.bodies.map (·, context)

namespace TemplateFile

/-- The file with the prints of a list, and of the lists inside it, escaped; `fuel` bounds the
number of nodes. -/
def escapeList : (fuel : Nat) → OutputContext → TemplateFile → List NodeId → TemplateFile
  | 0, _, f, _ => f
  | _ + 1, _, f, [] => f
  | fuel + 1, context, f, id :: ids =>
    let f := match f.kind id with
      | .print e ds => f.setKind id (.print e (escapedBy context (f.span id) ds))
      | k => (k.bodiesWithContext context).foldl (fun f (body, c) => escapeList fuel c f body) f
    escapeList fuel context f ids

/-- The file with the prints of all templates escaped. -/
def insertEscapingDirectives (f : TemplateFile) : TemplateFile :=
  f.templates.foldl (fun f id =>
    match f.template? id with
    | some t => f.escapeList f.nodes.size (.ofContent t.contentKind) t.body
    | none => f) f

end TemplateFile

end TemplateFrontend
