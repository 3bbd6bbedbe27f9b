/-!
# JSON values and their text

`JsonValue` is the data that compilation units and message lists are written as. `render` writes it
over lines with two blanks of indentation for each level: a blank after a colon, empty lists and
objects on one line, text as it is but for quotes, backslashes and control characters.
-/

namespace TemplateFrontend

/-- A JSON value whose numbers are integers. Members of objects keep their order. -/
inductive JsonValue where
  | null
  | bool (b : Bool)
  | number (n : Int)
  | string (s : String)
  | array (items : List JsonValue)
  | object (members : List (String × JsonValue))
  deriving Repr, Inhabited

namespace JsonValue

/-- A character inside quotes. -/
def escape (c : Char) : List Char :=
  match c with
  | '"' => ['\\', '"']
  | '\\' => ['\\', '\\']
  | '\n' => ['\\', 'n']
  | '\t' => ['\\', 't']
  | '\r' => ['\\', 'r']
  | '\x08' => ['\\', 'b']
  | '\x0c' => ['\\', 'f']
  | c =>
    if c.toNat < 0x20 then
      ['\\', 'u', '0', '0', Nat.digitChar (c.toNat / 16), Nat.digitChar (c.toNat % 16)]
    else [c]

/-- A text between quotes. -/
def quote (s : String) : List Char := '"' :: s.toList.flatMap escape ++ ['"']

/-- A line break with the indentation of a level. -/
def newline (level : Nat) : List Char := '\n' :: List.replicate (2 * level) ' '

mutual
/-- The text of a value whose first line is already indented for `level`. -/
def renderAt (level : Nat) : JsonValue → List Char
  | .null => "null".toList
  | .bool true => "true".toList
  | .bool false => "false".toList
  | .number n => (toString n).toList
  | .string s => quote s
  | .array [] => ['[', ']']
  | .array (v :: vs) =>
    '[' :: newline (level + 1) ++ v.renderAt (level + 1) ++ renderItems (level + 1) vs ++
      newline level ++ [']']
  | .object [] => ['\x7b', '\x7d']
  | .object ((key, v) :: members) =>
    '\x7b' :: newline (level + 1) ++ quote key ++ [':', ' '] ++ v.renderAt (level + 1) ++
      renderMembers (level + 1) members ++ newline level ++ ['\x7d']

/-- The items of an array after its first. -/
def renderItems (level : Nat) : List JsonValue → List Char
  | [] => []
  | v :: vs => ',' :: newline level ++ v.renderAt level ++ renderItems level vs

/-- The members of an object after its first. -/
def renderMembers (level : Nat) : List (String × JsonValue) → List Char
  | [] => []
  | (key, v) :: members =>
    ',' :: newline level ++ quote key ++ [':', ' '] ++ v.renderAt level ++
      renderMembers level members
end

/-- The text of a value. -/
def render (v : JsonValue) : String := String.ofList (v.renderAt 0)

/-- An object without the members that have no value. -/
def ofMembers (members : List (String × Option JsonValue)) : JsonValue :=
  .object (members.filterMap fun (key, v) => v.map (key, ·))

end JsonValue

end TemplateFrontend
