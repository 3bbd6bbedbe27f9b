import TemplateFrontend.Markup.HtmlTag
import TemplateFrontend.Source.Text
/-!
# Reading template files

`parse` reads a source by steps. What one step reads depends on what is open: declarations at the
top of the file, nodes in a block, parameters in a call, attributes in an HTML tag, text and prints
in an attribute value. Every step but the last takes at least one character off the input, so the
length of the source bounds their number.
-/

namespace TemplateFrontend

open Text Markup

namespace Markup

/-- The state after the comment that starts here. A documentation comment waits for what it
documents. -/
def skipComment (r : Reading) : Except SyntaxError Reading :=
  match commentLength? r.input.rest with
  | none => .error ⟨.unclosed "/*", r.input.spanOf 2⟩
  | some n =>
    let doc := (docOf? (r.input.rest.take n)).or r.doc
    .ok { r with input := r.input.drop n, doc }

/-- The error of a word where `expected` should stand. -/
def unexpectedWord (i : Input) (expected : String) : SyntaxError :=
  let found := firstWord i.rest
  ⟨.unexpected ("'" ++ String.ofList found ++ "'") expected, i.spanOf found.length⟩

/-- The state after a declaration of the file. Documentation before it is dropped. -/
def declared (r : Reading) (file : Except SyntaxError TemplateFile) :
    Except SyntaxError Reading := do
  pure { r with file := ← file, doc := none }

/-- The tag of a declaration, a template or anything else at the top of a file. -/
def startDeclaration (r : Reading) (tag : Tag) : Except SyntaxError Reading :=
  match TemplateKind.ofCommand? tag.name with
  | some kind => do
    let t ← openTemplate r.file kind r.doc tag
    let header : Header := ⟨[], [], false, none⟩
    let r := { r with doc := none, strict := t.strictHtml }
    pure (r.push (.block tag t.strictHtml (.template t header) []))
  | none =>
    match tag.name with
    | "namespace" => declared r (declareNamespace r.file tag)
    | "alias" => declared r (declareAlias r.file tag)
    | "delpackage" => declared r (declarePackage r.file tag)
    | name =>
      if name.toList.head? == some '@' && !headerCommands.contains name then
        .error ⟨.unknownCommand name, tag.span⟩
      else .error ⟨.misplaced name "outside of a template", tag.span⟩

/-- One step at the top of a file, where only blanks are left if the file ends here. -/
def atTop (r : Reading) : Except SyntaxError Reading :=
  let i := r.input.skipBlanks
  let r := { r with input := i }
  match i.rest with
  | [] => .ok r
  | '/' :: '*' :: _ => skipComment r
  | '/' :: '/' :: _ => .ok { r with input := (i.takeWhile (· != '\n')).2 }
  | '\x7b' :: _ => do
    let (tag, rest) ← Tag.read i
    startDeclaration { r with input := rest } tag
  | _ => .error (unexpectedWord i "a template declaration")

/-- The state with the body of the innermost block started. -/
def startBody (r : Reading) : Reading :=
  match r.frames with
  | .block opener html block nodes :: _ =>
    r.replace (.block opener html block.closeHeader nodes)
  | _ => r

/-- A comment inside a block. In a template it may document the declaration before it; in other
blocks documentation is dropped. -/
def commentInBlock (r : Reading) (opener : Tag) (html : Bool) (block : Block)
    (nodes : List NodeId) : Except SyntaxError Reading := do
  let after ← skipComment r
  match block with
  | .template t header =>
    -- The comment starts where the input stood before it was skipped.
    let (header, doc) := attachDoc header r.input after.doc
    pure ({ after with doc }.replace (.block opener html (.template t header) nodes))
  | _ => pure after.dropDoc

/-- A declaration of a header, which may stand only before the body of a template. -/
def declareInBlock (r : Reading) (opener : Tag) (html : Bool) (block : Block)
    (nodes : List NodeId) (tag : Tag) : Except SyntaxError Reading :=
  match block with
  | .template t header =>
    if header.closed then
      .error ⟨.misplaced tag.name "after the template body starts", tag.span⟩
    else do
      let header ← declare header r.doc tag r.input
      pure ({ r with doc := none }.replace (.block opener html (.template t header) nodes))
  | _ => .error ⟨.misplaced tag.name "inside a block", tag.span⟩

/-- A tag inside a block: one that ends the block, a declaration, or a command. -/
def tagInBlock (r : Reading) (opener : Tag) (html : Bool) (block : Block) (nodes : List NodeId)
    (tag : Tag) : Except SyntaxError Reading :=
  if (block.terminators opener).contains tag.name then
    endBlock r opener html block nodes.reverse tag
  else if tag.isClosing then .error ⟨.unclosed opener.name, opener.span⟩
  else if headerCommands.contains tag.name then declareInBlock r opener html block nodes tag
  else startCommand (startBody r) tag html

/-- Text inside a block. Blanks before the body of a template are dropped. -/
def textInBlock (r : Reading) (html : Bool) (block : Block) : Reading :=
  let text := r.input.rest.take (textLength html r.input.rest)
  let rest := r.input.drop text.length
  let r' := { r with input := rest }
  let inHeader := match block with
    | .template _ header => !header.closed
    | _ => false
  -- Blanks between declarations are not the start of a body.
  if inHeader && allBlank text then r'
  else match joinLines text with
    | none => r'
    | some text =>
      (startBody r').emit (.text (String.ofList text)) ⟨r.input.offset, rest.offset⟩

/-- One step inside a block. -/
def inBlock (r : Reading) (opener : Tag) (html : Bool) (block : Block) (nodes : List NodeId) :
    Except SyntaxError Reading :=
  match r.input.rest with
  | [] => .error ⟨.unclosed opener.name, opener.span⟩
  | '/' :: '*' :: _ => commentInBlock r opener html block nodes
  | '\x7b' :: _ => do
    let (tag, rest) ← Tag.read r.input
    tagInBlock { r with input := rest } opener html block nodes tag
  | cs =>
    if html && startsTag cs then startHtmlTag (startBody r) else .ok (textInBlock r html block)

/-- One step inside a call. -/
def inCall (r : Reading) (opener : Tag) (call : Call) : Except SyntaxError Reading :=
  let i := r.input.skipBlanks
  let r := { r with input := i }
  match i.rest with
  | '/' :: '*' :: _ => skipComment r
  | [] => .error ⟨.unclosed opener.name, opener.span⟩
  | '\x7b' :: _ => do
    let (tag, rest) ← Tag.read i
    let r := { r with input := rest }
    if tag.name = opener.closing then
      pure (r.pop.emit (.call call) (opener.span.union tag.span))
    else if tag.name = "param" then startParam r tag
    else .error ⟨.misplaced tag.name "inside a call", tag.span⟩
  | _ => .error (unexpectedWord i "'\x7bparam\x7d'")

/-- One step. -/
def step (r : Reading) : Except SyntaxError Reading :=
  match r.frames with
  | [] => atTop r
  | .block opener html block nodes :: _ => inBlock r opener html block nodes
  | .call opener call :: _ => inCall r opener call
  | .openTag start name attributes :: _ => inOpenTag r start name attributes
  | .attributeValue name start quote nodes :: _ => inAttributeValue r name start quote nodes

/-- Whether everything was read and nothing is open. -/
def Reading.isDone (r : Reading) : Bool := r.input.rest.isEmpty && r.frames.isEmpty

/-- The file after the steps that are left; `fuel` bounds their number. -/
def run : (fuel : Nat) → Reading → Except SyntaxError TemplateFile
  | 0, r => .error ⟨.endOfFile "a template declaration", ⟨r.input.offset, r.input.offset⟩⟩
  | fuel + 1, r => if r.isDone then .ok r.file else do run fuel (← step r)

end Markup

/-- The tree of a source. -/
def parse (source : SourceText) : Except SyntaxError TemplateFile :=
  let content := source.content.toList
  Markup.run (content.length + 1) (.start source.path content)

end TemplateFrontend
