import TemplateFrontend.Diagnostic
import TemplateFrontend.Settings.Basic
import TemplateFrontend.Text.Chars
import TemplateFrontend.Text.Pieces
import TemplateFrontend.Tree.File
/-!
# What a project knows and bans

CSS classes and visual elements are those that the project knows, and nothing is used that its rules
ban.

The class in a call `css('name')` is one that the project knows; classes that are computed are not
checked. A block that logs a visual element names one that the project knows, and wraps exactly one
HTML element: besides the tags and what is inside of them it holds blanks only. Of what the rules ban
each use is reported, first of directives, texts and tags, node by node, then of functions.
-/

namespace TemplateFrontend

open Text

/-! ### CSS classes -/

/-- The class that an expression itself names. -/
def Expr.cssClass? : Expr → Option String
  | .call _ "css" (arg :: _) _ =>
    match arg.literal? with
    | some (.string name) => some name
    | _ => none
  | _ => none

/-- The unknown classes of a file. -/
def TemplateFile.checkCss (s : Settings) (f : TemplateFile) : Diagnostics :=
  match s.css with
  | none => []
  | some known =>
    f.reachableExprs.filterMap fun e =>
      match e.cssClass? with
      | none => none
      | some name =>
        if known.contains name then none
        else some (.errorAt Pass.validateCss.name ("unknown css class '" ++ name ++ "'")
          (f.location e.span))

/-! ### Visual elements -/

namespace TemplateFile

/-- The number of HTML elements at the top level of a list, `depth` of its elements being open, or
nothing if something else is there or the tags are not balanced. -/
def rootElements (f : TemplateFile) : (depth : Nat) → List NodeId → Option Nat
  | depth, [] => if depth = 0 then some 0 else none
  | depth, id :: ids =>
    match f.kind id with
    | .openTag _ _ selfClosing =>
      let here := if depth = 0 then 1 else 0
      (f.rootElements (if selfClosing then depth else depth + 1) ids).map (here + ·)
    | .closeTag _ => if depth = 0 then none else f.rootElements (depth - 1) ids
    | .text s => if depth = 0 && !allBlank s.toList then none else f.rootElements depth ids
    | _ => if depth = 0 then none else f.rootElements depth ids

/-- What is wrong with a block that logs a visual element. -/
def visualElementProblems (known : VisualElements) (f : TemplateFile) (id : NodeId) : List String :=
  match f.kind id with
  | .visualElement name body =>
    (if (known.find? name).isSome then [] else ["unknown visual element '" ++ name ++ "'"]) ++
      if f.rootElements 0 body = some 1 then []
      else ["\x7bvelog " ++ name ++ "\x7d must wrap exactly one HTML element"]
  | _ => []

/-- What is wrong with the visual elements of a file. -/
def checkVisualElements (s : Settings) (f : TemplateFile) : Diagnostics :=
  f.reachable.flatMap fun id =>
    (f.visualElementProblems s.visualElements id).map fun message =>
      .errorAt Pass.validateVisualElements.name message (f.location (f.span id))

end TemplateFile

/-! ### Conformance -/

namespace Banned

/-- Whether a node itself is a use. -/
def bansNode : Banned → NodeKind → Bool
  | .directive name, .print _ ds => ds.any (·.name == name)
  | .rawText text, .text s => contains text.toList s.toList
  | .htmlTag tag, .openTag name _ _ => equalIgnoringCase name tag
  | _, _ => false

/-- Whether an expression itself is a use. -/
def bansExpr : Banned → Expr → Bool
  | .function name, .call _ called _ _ => name == called
  | _, _ => false

end Banned

namespace TemplateFile

/-- The uses in a file of what rules ban, with what to say of them. -/
def violations (rules : Conformance) (f : TemplateFile) : List (Span × String) :=
  (f.reachable.flatMap fun id =>
    (rules.filter fun r => r.banned.bansNode (f.kind id)).map fun r => (f.span id, r.message)) ++
  f.reachableExprs.flatMap fun e =>
    (rules.filter fun r => r.banned.bansExpr e).map fun r => (e.span, r.message)

/-- The violations of a file as errors. -/
def checkConformance (s : Settings) (f : TemplateFile) : Diagnostics :=
  (f.violations s.conformance).map fun (place, message) =>
    .errorAt Pass.conformance.name message (f.location place)

end TemplateFile

end TemplateFrontend
