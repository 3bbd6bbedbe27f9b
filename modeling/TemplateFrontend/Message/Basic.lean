import TemplateFrontend.Interface.Unit
import TemplateFrontend.Source.Text
/-!
# Messages

A message is a text with placeholders. Its number is computed from its meaning and its parts, so
that a message keeps its wording in other languages as long as neither changes; the description is
only for the people who find these wordings.
-/

namespace TemplateFrontend

/-- A piece of a message. -/
inductive MessagePart where
  | text (s : String)
  | placeholder (name : String)
  deriving DecidableEq, Repr, Inhabited

namespace MessagePart

/-- The piece in the pattern of its message: a placeholder stands in braces. -/
def pattern : MessagePart → String
  | .text s => s
  | .placeholder name => "\x7b" ++ name ++ "\x7d"

/-- The pieces with one more at the end. A text after a text becomes part of it. -/
def append (parts : List MessagePart) (part : MessagePart) : List MessagePart :=
  match parts.getLast?, part with
  | some (.text s), .text t => parts.dropLast ++ [.text (s ++ t)]
  | _, part => parts ++ [part]

/-- The JSON of a piece. -/
def toJson : MessagePart → JsonValue
  | .text s => .object [("kind", .string "text"), ("value", .string s)]
  | .placeholder name => .object [("kind", .string "placeholder"), ("value", .string name)]

end MessagePart

/-- A message. -/
structure Message where
  desc : String
  meaning : Option String
  parts : List MessagePart
  location : Location
  deriving DecidableEq, Repr, Inhabited

namespace Message

/-- The message as one text. -/
def pattern (m : Message) : String := String.join (m.parts.map (·.pattern))

/-- What the number of a message is computed from. -/
def key (m : Message) : String := m.meaning.getD "" ++ "\x00" ++ m.pattern

/-- The number of the message. -/
def id (m : Message) : UInt64 := (Digest.ofString m.key).leadingWord

/-- The JSON of a message. -/
def toJson (m : Message) : JsonValue :=
  .ofMembers [("id", some (.number m.id.toNat)), ("desc", some (.string m.desc)),
    ("meaning", m.meaning.map .string), ("parts", some (.array (m.parts.map (·.toJson)))),
    ("location", some m.location.toJson)]

end Message

end TemplateFrontend
