import TemplateFrontend.Markup.Commands
/-!
# HTML tags

The steps of reading while an HTML tag is open: `startHtmlTag` at its first character, `inOpenTag`
between its attributes, `inAttributeValue` inside a quoted value, where only text and prints may
stand.
-/

namespace TemplateFrontend.Markup

open Text

/-- The characters of HTML names. -/
def isTagNameChar (c : Char) : Bool := isNameChar c || c == '-' || c == ':'

/-- The characters that end the name of an attribute. -/
def endsAttributeName (c : Char) : Bool :=
  isBlank c || ['=', '>', '/', '\x7b', '"', '\''].contains c

/-- The error of finding what comes next, or the end of the file, where `expected` should stand. -/
def unexpectedInTag (i : Input) (expected : String) : SyntaxError :=
  match i.rest with
  | c :: _ => ⟨.unexpected ("'" ++ c.toString ++ "'") expected, i.spanOf 1⟩
  | [] => ⟨.endOfFile expected, ⟨i.offset, i.offset⟩⟩

/-- The tag that starts here: a close tag is read to its end, an open tag up to its attributes. -/
def startHtmlTag (r : Reading) : Except SyntaxError Reading :=
  let start := r.input.offset
  let closing := r.input.rest.tail.head? == some '/'
  let (name, i) := (r.input.drop (if closing then 2 else 1)).takeWhile isTagNameChar
  let name := String.ofList name
  if closing then
    let i := i.skipBlanks
    if i.rest.head? == some '>' then
      let i := i.drop 1
      .ok ({ r with input := i }.emit (.closeTag name) ⟨start, i.offset⟩)
    else .error (unexpectedInTag i "'>'")
  else .ok ({ r with input := i }.push (.openTag start name []))

/-- The state after one more attribute of the open tag that is the innermost frame; `i` follows
the attribute, which starts at `start`. -/
def addAttribute (r : Reading) (name : String) (start : Nat) (value : Option (List NodeId))
    (i : Input) : Reading :=
  match r.frames with
  | .openTag tagStart tag attributes :: _ =>
    let new : Attribute := ⟨name, value, ⟨start, i.offset⟩⟩
    { r with input := i }.replace (.openTag tagStart tag (new :: attributes))
  | _ => { r with input := i }

/-- The attribute that starts here, up to its value if that is quoted. -/
def readAttribute (r : Reading) (i : Input) : Except SyntaxError Reading :=
  let start := i.offset
  let (name, j) := i.takeWhile (! endsAttributeName ·)
  if name.isEmpty then .error (unexpectedInTag i "an attribute name")
  else
    let name := String.ofList name
    let j := j.skipBlanks
    if j.rest.head? != some '=' then .ok (addAttribute r name start none j)
    else
      let j := (j.drop 1).skipBlanks
      match j.rest with
      | [] => .error ⟨.endOfFile "an attribute value", ⟨j.offset, j.offset⟩⟩
      | c :: _ =>
        if c = '"' || c = '\'' then
          .ok ({ r with input := j.drop 1 }.push (.attributeValue name start c []))
        else
          -- Without quotes the value goes up to the next blank and holds no commands.
          let (text, after) := j.takeWhile fun c => !(isBlank c || c == '>')
          let (file, id) := r.file.add (.text (String.ofList text)) ⟨j.offset, after.offset⟩
          .ok (addAttribute { r with file } name start (some [id]) after)

/-- One step between the attributes of an open tag. -/
def inOpenTag (r : Reading) (start : Nat) (name : String) (attributes : List Attribute) :
    Except SyntaxError Reading :=
  let i := r.input.skipBlanks
  let finish (selfClosing : Bool) (i : Input) : Except SyntaxError Reading :=
    .ok ({ r with input := i }.pop.emit (.openTag name attributes.reverse selfClosing)
      ⟨start, i.offset⟩)
  match i.rest with
  | '/' :: '>' :: _ => finish true (i.drop 2)
  | '>' :: _ => finish false (i.drop 1)
  | [] => .error ⟨.endOfFile "'>'", ⟨i.offset, i.offset⟩⟩
  | '\x7b' :: _ => .error ⟨.invalid .commandBetweenAttributes, i.spanOf 1⟩
  | _ => readAttribute r i

/-- Whether a tag may stand in an attribute value. Special characters and prints may. A plain word
with something after it is taken for an expression only if it goes on like one, otherwise for a
command. -/
def isPrintTag (tag : Tag) : Bool :=
  let name := tag.name.toList
  let args := tag.args.rest
  (SpecialChar.ofCommand? (String.ofList tag.content.rest)).isSome || tag.name == "print" ||
    !(tag.isClosing || name.head? == some '@' ||
      (name.all Char.isAlpha && !args.isEmpty &&
        !args.head?.any ("|(.+-*/%<>=!".toList.contains ·)))

/-- One step inside a quoted attribute value. -/
def inAttributeValue (r : Reading) (name : String) (start : Nat) (quote : Char)
    (nodes : List NodeId) : Except SyntaxError Reading :=
  match r.input.rest with
  | [] => .error ⟨.endOfFile ("closing " ++ quote.toString), ⟨r.input.offset, r.input.offset⟩⟩
  | c :: _ =>
    if c = quote then .ok (addAttribute r.pop name start (some nodes.reverse) (r.input.drop 1))
    else if c = '\x7b' then do
      let (tag, rest) ← Tag.read r.input
      -- These words are commands even where nothing follows them.
      if !isPrintTag tag || ["if", "for", "call"].contains tag.name then
        .error ⟨.misplaced tag.name "inside an attribute value", tag.span⟩
      else startCommand { r with input := rest } tag false
    else
      let (text, rest) := r.input.takeWhile fun c => !(c == quote || c == '\x7b')
      .ok ({ r with input := rest }.emit (.text (String.ofList text)) ⟨r.input.offset, rest.offset⟩)

end TemplateFrontend.Markup
