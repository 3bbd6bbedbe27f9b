import TemplateFrontend.Plugin.Basic
import TemplateFrontend.Settings.Rules
import TemplateFrontend.Toml.Value
import TemplateFrontend.Toml.Reader
import TemplateFrontend.ValueType.Reader
/-!
# Files of settings

Usage rules, visual elements, CSS classes, constants and plugins are written as TOML, each in a file
of its own. What a file holds besides is skipped.
-/

namespace TemplateFrontend

/-- Why a file of settings is not read. -/
inductive SettingsError where
  | conformance
  | visualElements
  | css
  | globals
  | plugins
  /-- A constant of a kind that templates do not have. -/
  | unsupportedGlobal (name kind : String)
  deriving DecidableEq, Repr

/-- The error in words. -/
def SettingsError.message : SettingsError → String
  | .conformance => "invalid conformance config"
  | .visualElements => "invalid logging config"
  | .css => "invalid css registry"
  | .globals => "invalid globals file"
  | .plugins => "invalid plugin file"
  | .unsupportedGlobal name kind => "global '" ++ name ++ "' has unsupported type " ++ kind

open TomlDecoder

/-- The values under the keys of a file. -/
def fieldsInFile (keys : List String) (text : String) : Option (String → Option TomlValue) := do
  fields keys (.table (← Toml.parse text))

/-- A list of values under a key of a file, which may be missing. -/
def listInFile {α : Type} (key : String) (item : TomlDecoder α) (e : SettingsError)
    (text : String) : Except SettingsError (List α) :=
  match fieldsInFile [key] text >>= fun field => listed item (field key) with
  | some values => .ok values
  | none => .error e

/-! ### Usage rules -/

namespace ConformanceRule

/-- The kinds of banned things with the key that names the thing. -/
def kinds : List (String × String × (String → Banned)) :=
  [("banned-function", "name", .function), ("banned-directive", "name", .directive),
    ("banned-raw-text", "text", .rawText), ("banned-html-tag", "tag", .htmlTag)]

/-- A rule: a table with its kind among its keys, or an array that starts with it. The integers of
the table, whatever they are for, have 64 bits. -/
def decode : TomlDecoder ConformanceRule
  | .table entries =>
    if TomlValue.entriesFit (TomlValue.hasBits 64) entries then do
      let (key, banned) ← kinds.lookup (← required string (entries.lookup "kind"))
      pure ⟨banned (← required string (entries.lookup key)),
        ← required string (entries.lookup "message")⟩
    else none
  | .array [kind, thing, message] => do
    let (_, banned) ← kinds.lookup (← string kind)
    pure ⟨banned (← string thing), ← string message⟩
  | _ => none

end ConformanceRule

/-- The usage rules in a file. -/
def Conformance.ofToml (text : String) : Except SettingsError Conformance :=
  listInFile "rules" ConformanceRule.decode .conformance text

/-! ### Visual elements and CSS classes -/

/-- A visual element. -/
def VisualElement.decode : TomlDecoder VisualElement := fun v => do
  let field ← fields ["name", "id"] v
  pure ⟨← required string (field "name"), ← required natural (field "id")⟩

/-- The visual elements in a file. -/
def VisualElements.ofToml (text : String) : Except SettingsError VisualElements :=
  listInFile "elements" VisualElement.decode .visualElements text

/-- The CSS classes in a file. -/
def CssClasses.ofToml (text : String) : Except SettingsError CssClasses :=
  (listInFile "classes" string .css text).map .ofList

/-! ### Constants -/

namespace Globals

/-- The name of a constant in a table, whose own name is empty for the whole file. -/
def nameIn (table key : String) : String := if table = "" then key else table ++ "." ++ key

mutual
/-- The constants with a value under its name, or those of a table in it. -/
def addValue (g : Globals) (name : String) : TomlValue → Except SettingsError Globals
  | .string s => .ok (g.set name (.string s))
  | .integer n =>
    match Integer.ofInt? n with
    | some n => .ok (g.set name (.int n))
    | none => .error .globals
  | .float x => .ok (g.set name (.float x))
  | .tooLarge => .error .globals
  | .boolean b => .ok (g.set name (.bool b))
  | .table entries => addEntries g name entries
  | .array _ => .error (.unsupportedGlobal name "array")
  | .dateTime _ => .error (.unsupportedGlobal name "datetime")

/-- The constants with those of a table, one entry after the other. -/
def addEntries (g : Globals) (table : String) : TomlTable → Except SettingsError Globals
  | [] => .ok g
  | (key, v) :: rest => do addEntries (← addValue g (nameIn table key) v) table rest
end

/-- The key that is reserved for dates. -/
def dateKey : String := "$__toml_private_datetime"

/-- Whether a table is meant as a date: it has the reserved key, and no key is before that one. -/
def isDateTable (entries : TomlTable) : Bool :=
  (entries.lookup dateKey).isSome && entries.all fun (key, _) => !(key < dateKey)

mutual
/-- The value with each table that is meant as a date made one, and whatever else such a table holds
left out. There is none if such a table holds no date, or if a number cannot be held, integers in 64
bits with a sign. -/
def withDates : TomlValue → Option TomlValue
  | .integer n => if (Integer.ofInt? n).isSome then some (.integer n) else none
  | .tooLarge => none
  | .array items => (itemsWithDates items).map .array
  | .table entries =>
    if isDateTable entries then
      match entries.lookup dateKey with
      | some (.string s) => if Toml.isDateTime s.toList then some (.dateTime s) else none
      | _ => none
    else (entriesWithDates entries).map .table
  | v => some v

/-- The items with each table that is meant as a date made one. -/
def itemsWithDates : List TomlValue → Option (List TomlValue)
  | [] => some []
  | v :: vs => do pure ((← withDates v) :: (← itemsWithDates vs))

/-- The entries with each table in them that is meant as a date made one. -/
def entriesWithDates : TomlTable → Option TomlTable
  | [] => some []
  | (key, v) :: rest => do pure ((key, ← withDates v) :: (← entriesWithDates rest))
end

/-- The constants in a file: nested tables give dotted names. -/
def ofToml (text : String) : Except SettingsError Globals :=
  match Toml.parse text >>= entriesWithDates with
  | some file => addEntries .empty "" (TomlValue.sortEntries file)
  | none => .error .globals

end Globals

/-! ### Plugins -/

/-- A type over the primitive types. -/
def decodeType : TomlDecoder ValueType :=
  refined fun text => (TypeRegistry.builtin.resolve text).toOption

/-- A signature. -/
def Signature.decode : TomlDecoder Signature := fun v => do
  let field ← fields ["params", "returns"] v
  pure ⟨← listed decodeType (field "params"), ← required decodeType (field "returns")⟩

/-- A function. -/
def FunctionPlugin.decode : TomlDecoder FunctionPlugin := fun v => do
  let field ← fields ["name", "signatures", "runtime"] v
  pure ⟨← required string (field "name"), ← required (list Signature.decode) (field "signatures"),
    ← optional string (field "runtime")⟩

/-- A method. -/
def MethodPlugin.decode : TomlDecoder MethodPlugin := fun v => do
  let field ← fields ["name", "receiver", "signatures", "runtime"] v
  pure ⟨← required string (field "name"), ← required decodeType (field "receiver"),
    ← required (list Signature.decode) (field "signatures"), ← optional string (field "runtime")⟩

/-- A print directive. -/
def DirectivePlugin.decode : TomlDecoder DirectivePlugin := fun v => do
  let field ← fields ["name", "arities", "runtime"] v
  pure ⟨← required string (field "name"), ← required (list natural) (field "arities"),
    ← optional string (field "runtime")⟩

/-- The plugins in a file. -/
def UserPlugins.ofToml (text : String) : Except SettingsError UserPlugins :=
  let plugins : Option UserPlugins := do
    let field ← fieldsInFile ["functions", "methods", "directives"] text
    pure ⟨Listed.byUser (← listed FunctionPlugin.decode (field "functions")),
      Listed.byUser (← listed MethodPlugin.decode (field "methods")),
      Listed.byUser (← listed DirectivePlugin.decode (field "directives"))⟩
  match plugins with
  | some u => .ok u
  | none => .error .plugins

end TemplateFrontend
