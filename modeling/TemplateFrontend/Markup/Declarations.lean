import TemplateFrontend.Markup.Frame
import TemplateFrontend.Markup.RawText
/-!
# Declarations of files and headers

What stands outside of templates and at their start: namespaces, aliases and packages, the opening
tag of a template, and the declarations of its header.
-/

namespace TemplateFrontend.Markup

open Text

/-! ### Declarations of a file -/

/-- The file with its namespace. -/
def declareNamespace (f : TemplateFile) (tag : Tag) : Except SyntaxError TemplateFile :=
  if f.namespaceName.isSome then .error ⟨.invalid .secondNamespace, tag.span⟩
  else if !f.templates.isEmpty then .error ⟨.misplaced "namespace" "after a template", tag.span⟩
  else do
    let ((name, _), _) ← tag.args.word "a namespace"
    pure { f with namespaceName := some name }

/-- The file with one more alias, by default the last part of the name it stands for. -/
def declareAlias (f : TemplateFile) (tag : Tag) : Except SyntaxError TemplateFile := do
  let ((target, _), i) ← tag.args.word "a namespace to alias"
  let (name, i) ←
    match i.mark? ['a', 's'] with
    | some i => do
      let ((name, _), i) ← i.word "an alias name"
      pure (name, i)
    | none => pure (String.ofList (lastPiece '.' target.toList), i)
  -- What is left over is reported as a whole, before the name is looked at.
  if !i.isBlank then
    let i := i.skipBlanks
    .error ⟨.unexpected (String.ofList i.rest) "end of alias", i.spanOf i.rest.length⟩
  else if (f.aliases.lookup name).isSome then
    .error ⟨.invalid (.duplicateAlias name), tag.span⟩
  else pure { f with aliases := f.aliases ++ [(name, target)] }

/-- The file with its package. -/
def declarePackage (f : TemplateFile) (tag : Tag) : Except SyntaxError TemplateFile := do
  let ((name, _), _) ← tag.args.word "a package name"
  pure { f with delegatePackage := some name }

/-! ### The opening tag of a template -/

/-- A value without the single quotes around it. -/
def unquote (value : String) : String :=
  match (['\''].isPrefixOf? value.toList).bind (['\''].isSuffixOf? ·) with
  | some inner => String.ofList inner
  | none => value

/-- The qualified name of a template. A name that starts with a dot is in the namespace of the
file; the name of a delegate is always qualified. -/
def templateName (f : TemplateFile) (kind : TemplateKind) (written : String) (span : Span) :
    Except SyntaxError String :=
  match written.toList with
  | '.' :: name =>
    if kind = .delegate then .error ⟨.invalid .relativeDelegate, span⟩
    else match f.namespaceName with
      | some ns => .ok (ns ++ "." ++ String.ofList name)
      | none => .error ⟨.invalid .relativeWithoutNamespace, span⟩
  | _ => .ok written

/-- The content kind that a setting names. -/
def contentKind (s : Setting) : Except SyntaxError ContentKind :=
  match ContentKind.ofWord? s.value with
  | some kind => .ok kind
  | none => .error ⟨.invalid (.unknownContentKind s.value), s.span⟩

/-- The template with a setting of its opening tag applied. -/
def templateSetting (t : Template) (s : Setting) : Except SyntaxError Template :=
  match s.name with
  | "visibility" =>
    match Visibility.ofWord? s.value with
    | some visibility => .ok { t with visibility }
    | none => .error ⟨.invalid (.unknownVisibility s.value), s.span⟩
  | "kind" => do pure { t with contentKind := ← contentKind s }
  | "stricthtml" =>
    match s.value with
    | "true" => .ok { t with strictHtml := true }
    | "false" => .ok { t with strictHtml := false }
    | _ => .error ⟨.invalid .strictHtmlValue, s.span⟩
  | name =>
    if name = "variant" && t.kind = .delegate then .ok { t with variant := some (unquote s.value) }
    else .error ⟨.invalid (.unknownAttribute (some t.kind.command) name), s.span⟩

/-- The template that a tag opens, still without header and body. Only templates of HTML are strict
about it. -/
def openTemplate (f : TemplateFile) (kind : TemplateKind) (doc : Option String) (tag : Tag) :
    Except SyntaxError Template := do
  let ((written, span), i) ← tag.args.word "a template name"
  let name ← templateName f kind written span
  let variant := if kind = .delegate then some "" else none
  let t : Template := ⟨kind, name, variant, .everyone, .html, true, doc, [], [], []⟩
  let t ← (← i.settings).foldlM templateSetting t
  pure { t with strictHtml := t.strictHtml && t.contentKind == .html }

/-! ### Header declarations -/

/-- The commands that declare something in the header of a template. -/
def headerCommands : List String :=
  ["@param", "@param?", "@inject", "@attribute", "@attribute?", "@state"]

/-- The header with a state variable. -/
def declareState (h : Header) (name : String) (i : Input) (tag : Tag) :
    Except SyntaxError Header := do
  let (typeExpr, i) :=
    -- The type goes up to the default, whatever it is; without a colon it is found later.
    match i.mark? [':'] with
    | some i =>
      let (type, i) := i.takeWhile (· != '=')
      (some (String.ofList (trim type)), i)
    | none => (none, i)
  let some i := i.mark? ['='] | .error ⟨.invalid (.stateWithoutDefault name), tag.span⟩
  let initial ← Expr.parse i.offset i.rest
  pure { h with state := h.state ++ [⟨name, typeExpr, none, initial, tag.span⟩] }

/-- The header with a parameter. -/
def declareParam (h : Header) (name : String) (i : Input) (doc : Option String) (tag : Tag) :
    Except SyntaxError Header := do
  let some i := i.mark? [':'] | .error ⟨.invalid (.missingType name tag.name), tag.span⟩
  let typeExpr := trim i.rest
  if typeExpr.isEmpty then .error ⟨.invalid (.emptyType name), tag.span⟩
  else if h.params.any (·.name == name) then
    .error ⟨.invalid (.duplicateParameter name), tag.span⟩
  else
    let kind : ParamKind :=
      if tag.name = "@attribute" || tag.name = "@attribute?" then .elementAttribute else .param
    let optional := tag.name = "@param?" || tag.name = "@attribute?"
    let decl : ParamDecl := ⟨name, kind, String.ofList typeExpr, none, !optional,
      tag.name = "@inject", doc, tag.span⟩
    pure { h with params := h.params ++ [decl] }

/-- The header with the declaration of a tag, after which `rest` follows. -/
def declare (h : Header) (doc : Option String) (tag : Tag) (rest : Input) :
    Except SyntaxError Header := do
  let ((name, _), i) ← tag.args.word "a declaration name"
  let h ←
    if tag.name = "@state" then declareState h name i tag else declareParam h name i doc tag
  pure { h with afterLast := some rest }

/-- The header and the documentation that still waits, after a comment in a template. A comment on
the same line as the last declaration, if that is a parameter without documentation, documents it;
`rest` is the input at which the comment starts. -/
def attachDoc (h : Header) (rest : Input) (doc : Option String) : Header × Option String :=
  match h.afterLast, h.params.getLast? with
  | some after, some p =>
    let between := after.rest.take (after.rest.length - rest.rest.length)
    -- After a state variable the last declaration does not end where the last parameter does.
    if between.contains '\n' || p.span.stop != after.offset || p.doc.isSome then (h, doc)
    else ({ h with params := h.params.dropLast ++ [{ p with doc }] }, none)
  | _, _ => (h, doc)

end TemplateFrontend.Markup
