import TemplateFrontend.Diagnostic
import TemplateFrontend.Message.Basic
import TemplateFrontend.Tree.File
/-!
# Messages of files

`MessageBundle.ofFiles` collects the messages of template files. A message holds texts, prints,
calls and HTML tags; what is not text becomes a placeholder, named for what it prints or calls. Of
several messages with one number the first is kept.
-/

namespace TemplateFrontend

/-! ### Placeholders -/

/-- A name in capital letters. An underscore goes between a small letter or digit and a capital;
hyphens become underscores. `small` says whether a small letter or digit came before. -/
def upperSnakeAfter (small : Bool) : List Char → List Char
  | [] => []
  | c :: cs =>
    if c = '-' ∨ c = '_' then '_' :: upperSnakeAfter false cs
    else
      let rest := c.toUpper :: upperSnakeAfter (c.isLower || c.isDigit) cs
      if c.isUpper && small then '_' :: rest else rest

/-- A name in capital letters with underscores between its words. -/
def upperSnake (name : String) : String := String.ofList (upperSnakeAfter false name.toList)

/-- The part of a dotted name after its last dot. -/
def lastName (name : String) : String := String.ofList (Text.lastPiece '.' name.toList)

/-- The placeholder of a printed expression. -/
def Expr.placeholder : Expr → String
  | .var _ name => upperSnake name
  | .field _ _ name => upperSnake name
  | .global _ name => upperSnake (lastName name)
  | _ => "XXX"

/-- The part of a message that a node is, if it may stand in one. -/
def NodeKind.messagePart? : NodeKind → Option MessagePart
  | .text s => some (.text s)
  | .special c => some (.text c.text)
  | .print e _ => some (.placeholder e.placeholder)
  | .call c => some (.placeholder (upperSnake (lastName c.callee)))
  | .openTag name _ _ => some (.placeholder ("START_" ++ upperSnake name))
  | .closeTag name => some (.placeholder ("END_" ++ upperSnake name))
  | _ => none

/-- A node that may not stand in a message, in words. -/
def NodeKind.commandName : NodeKind → String
  | .conditional _ _ => "\x7bif\x7d"
  | .loop _ _ _ => "\x7bfor\x7d"
  | .binding _ _ => "\x7blet\x7d"
  | .message _ _ _ => "\x7bmsg\x7d"
  | .visualElement _ _ => "\x7bvelog\x7d"
  | _ => "this command"

/-! ### Messages of a file -/

/-- The phase of problems with messages. -/
def messagePhase : String := "extract-msgs"

namespace TemplateFile

/-- The nodes of a body that may not stand in a message. -/
def messageProblems (f : TemplateFile) (body : List NodeId) : Diagnostics :=
  (body.filter fun id => (f.kind id).messagePart?.isNone).map fun id =>
    .errorAt messagePhase ((f.kind id).commandName ++ " is not allowed inside \x7bmsg\x7d")
      (f.location (f.span id))

/-- The parts of a message with a body. -/
def messageParts (f : TemplateFile) (body : List NodeId) : List MessagePart :=
  (body.filterMap fun id => (f.kind id).messagePart?).foldl MessagePart.append []

/-- The message that a node is, if it is a sound one, and what is wrong with it. -/
def message? (f : TemplateFile) (id : NodeId) : Option Message × Diagnostics :=
  match f.kind id with
  | .message desc meaning body =>
    let problems := f.messageProblems body
    if problems.isEmpty then
      (some ⟨desc, meaning, f.messageParts body, f.location (f.span id)⟩, [])
    else (none, problems)
  | _ => (none, [])

/-- The messages of a file in order, and what is wrong with others. -/
def messages (f : TemplateFile) : List Message × Diagnostics :=
  let all := f.reachable.map f.message?
  (all.filterMap (·.1), all.flatMap (·.2))

end TemplateFile

/-! ### Bundles -/

/-- Messages, each with a number of its own, in the order in which they were met. -/
structure MessageBundle where
  messages : List Message
  deriving Repr, Inhabited

namespace MessageBundle

/-- The bundle without messages. -/
def empty : MessageBundle := ⟨[]⟩

/-- The message with a number. -/
def find? (b : MessageBundle) (id : UInt64) : Option Message := b.messages.find? (·.id == id)

/-- The bundle with one more message, unless its number is taken. -/
def insert (b : MessageBundle) (m : Message) : MessageBundle :=
  if (b.find? m.id).isSome then b else ⟨b.messages ++ [m]⟩

/-- The number of messages. -/
def size (b : MessageBundle) : Nat := b.messages.length

/-- The messages of the files, and what is wrong with others. -/
def ofFiles (fs : FileSet) : MessageBundle × Diagnostics :=
  let all := fs.map (·.messages)
  ((all.flatMap (·.1)).foldl insert empty, all.flatMap (·.2))

/-- The JSON of a bundle. -/
def toJson (b : MessageBundle) : JsonValue := .array (b.messages.map (·.toJson))

end MessageBundle

end TemplateFrontend
