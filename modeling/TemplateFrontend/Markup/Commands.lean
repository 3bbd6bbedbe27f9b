import TemplateFrontend.Markup.Declarations
/-!
# Commands inside templates

`startCommand` reads the arguments of a command and either emits a complete node or opens a frame
for what is inside it; `endBlock` closes a block at the tag that ends it.
-/

namespace TemplateFrontend.Markup

open Text

/-- Whether HTML tags are read in a block of content. -/
def readsHtml (kind : ContentKind) (enclosing strict : Bool) : Bool :=
  kind == .html && strict && enclosing

/-- The commands that stand outside of templates. -/
def fileCommands : List String :=
  ["namespace", "alias", "delpackage", "template", "deltemplate", "element"]

/-- The content kind that the settings of a block state, HTML if they state none. -/
def blockKind (i : Input) : Except SyntaxError ContentKind := do
  (← i.settings).foldlM (fun _ s =>
    if s.name = "kind" then contentKind s
    else .error ⟨.invalid (.unknownAttribute none s.name), s.span⟩) .html

/-! ### Starting a command -/

/-- A print command with the text `i`. -/
def startPrint (r : Reading) (i : Input) (tag : Tag) : Except SyntaxError Reading := do
  let (e, directives) ← Expr.parsePrint i.offset i.rest
  pure (r.emit (.print e directives) tag.span)

/-- A condition. -/
def startIf (r : Reading) (tag : Tag) (html : Bool) : Except SyntaxError Reading := do
  let cond ← Expr.parse tag.args.offset tag.args.rest
  pure (r.push (.block tag html (.branch [] cond) []))

/-- A loop. -/
def startFor (r : Reading) (tag : Tag) (html : Bool) : Except SyntaxError Reading := do
  let (var, list) ← Expr.parseLoop tag.args.offset tag.args.rest
  pure (r.push (.block tag html (.loop var list) []))

/-- A variable with a value or with content. -/
def startLet (r : Reading) (tag : Tag) (html : Bool) : Except SyntaxError Reading := do
  let ((word, span), i) ← tag.args.word "a '$' variable"
  let '$' :: var := word.toList
    | .error ⟨.unexpected ("'" ++ word ++ "'") "a '$' variable", span⟩
  let var := String.ofList var
  match i.mark? [':'] with
  | some i =>
    if tag.selfClosing then
      let e ← Expr.parse i.offset i.rest
      pure (r.emit (.binding var (.value e)) tag.span)
    else .error ⟨.invalid .letWithValueOpen, tag.span⟩
  | none =>
    let kind ← blockKind i
    if tag.selfClosing then .error ⟨.invalid .letWithoutContent, tag.span⟩
    else pure (r.push (.block tag (readsHtml kind html r.strict) (.binding var kind) []))

/-- The call with a setting of its tag applied. -/
def callSetting (tag : Tag) (c : Call) (s : Setting) : Except SyntaxError Call :=
  if s.name = "data" then
    if s.value = "all" then .ok { c with passesAll := true }
    else .error ⟨.invalid .dataNotAll, s.span⟩
  else if s.name = "variant" && c.delegate then .ok { c with variant := some (unquote s.value) }
  else .error ⟨.invalid (.unknownAttribute (some tag.name) s.name), s.span⟩

/-- A call. -/
def startCall (r : Reading) (tag : Tag) : Except SyntaxError Reading := do
  let ((callee, _), i) ← tag.args.word "a template name"
  let c : Call := ⟨callee, tag.name = "delcall", none, false, []⟩
  let c ← (← i.settings).foldlM (callSetting tag) c
  if tag.selfClosing then pure (r.emit (.call c) tag.span) else pure (r.push (.call tag c))

/-- A message with its description and its meaning. -/
def startMessage (r : Reading) (tag : Tag) (html : Bool) : Except SyntaxError Reading := do
  let (desc, meaning) ← (← tag.args.settings).foldlM
    (fun (desc, meaning) s =>
      if s.name = "desc" then .ok (some s.value, meaning)
      else if s.name = "meaning" then .ok (desc, some s.value)
      else .error ⟨.invalid (.unknownAttribute (some "msg") s.name), s.span⟩)
    (none, none)
  let some desc := desc | .error ⟨.invalid .messageWithoutDescription, tag.span⟩
  pure (r.push (.block tag html (.message desc meaning) []))

/-- A visual element. -/
def startVisualElement (r : Reading) (tag : Tag) (html : Bool) : Except SyntaxError Reading := do
  let ((name, _), _) ← tag.args.word "a visual element name"
  pure (r.push (.block tag html (.visualElement name) []))

/-- The command of a tag. What is not the name of a command is the expression of a print. -/
def startCommand (r : Reading) (tag : Tag) (html : Bool) : Except SyntaxError Reading :=
  match SpecialChar.ofCommand? (String.ofList tag.content.rest) with
  | some c => .ok (r.emit (.special c) tag.span)
  | none =>
    match tag.name with
    | "print" => startPrint r tag.args tag
    | "if" => startIf r tag html
    | "for" => startFor r tag html
    | "let" => startLet r tag html
    | "call" | "delcall" => startCall r tag
    | "msg" => startMessage r tag html
    | "velog" => startVisualElement r tag html
    | name =>
      if fileCommands.contains name then .error ⟨.misplaced name "inside a template", tag.span⟩
      else if tag.isClosing then
        .error ⟨.misplaced name "without a matching opening command", tag.span⟩
      else if ["elseif", "else", "param"].contains name then
        .error ⟨.misplaced name "here", tag.span⟩
      else if name.toList.head? == some '@' then .error ⟨.unknownCommand name, tag.span⟩
      -- Here the name is the start of the expression.
      else startPrint r tag.content tag

/-! ### Parameters of calls -/

/-- The state with a parameter passed by the call that is the innermost frame. A name is passed
once. -/
def passParam (r : Reading) (p : Passed) (opener : Span) : Except SyntaxError Reading :=
  match r.frames with
  | .call tag c :: _ =>
    if c.passed.any (·.name == p.name) then .error ⟨.invalid (.duplicateParam p.name), opener⟩
    else .ok (r.replace (.call tag { c with passed := c.passed ++ [p] }))
  | _ => .ok r

/-- A parameter with a value or with content. -/
def startParam (r : Reading) (tag : Tag) : Except SyntaxError Reading := do
  let ((name, _), i) ← tag.args.word "a param name"
  match i.mark? [':'] with
  | some i =>
    if tag.selfClosing then
      let e ← Expr.parse i.offset i.rest
      passParam r ⟨name, .value e, tag.span⟩ tag.span
    else .error ⟨.invalid .paramWithValueOpen, tag.span⟩
  | none =>
    let kind ← blockKind i
    if tag.selfClosing then .error ⟨.invalid .paramWithoutContent, tag.span⟩
    else pure (r.push (.block tag (readsHtml kind true r.strict) (.param name kind) []))

/-! ### Ending a block -/

/-- The state after the tag `last` ended the block, or one part of it, that is the innermost frame.
`body` holds its nodes in source order. -/
def endBlock (r : Reading) (opener : Tag) (html : Bool) (block : Block) (body : List NodeId)
    (last : Tag) : Except SyntaxError Reading :=
  let span := opener.span.union last.span
  let complete (kind : NodeKind) : Except SyntaxError Reading := .ok (r.pop.emit kind span)
  match block with
  | .template t header =>
    complete (.template { t with params := header.params, state := header.state, body })
  | .branch before cond =>
    let branches := before ++ [⟨cond, body⟩]
    if last.name = "elseif" then do
      let cond ← Expr.parse last.args.offset last.args.rest
      pure (r.replace (.block opener html (.branch branches cond) []))
    else if last.name = "else" then .ok (r.replace (.block opener html (.otherwise branches) []))
    else complete (.conditional branches none)
  | .otherwise branches => complete (.conditional branches (some body))
  | .loop var list => complete (.loop var list body)
  | .binding var kind => complete (.binding var (.content kind body))
  | .message desc meaning => complete (.message desc meaning body)
  | .visualElement name => complete (.visualElement name body)
  | .param name kind => passParam r.pop ⟨name, .content kind body, span⟩ opener.span

end TemplateFrontend.Markup
