import TemplateFrontend.Expr.Basic
/-!
# Plugins

Functions, methods and print directives that templates may use are plugins. Some are bundled with
the library, and every template may use them; others are declared by its user. A declaration may be
listed more than once and is still one plugin, so every listed plugin says where it was declared.
-/

namespace TemplateFrontend

/-- The number of arguments that a signature takes. -/
def Signature.arity (s : Signature) : Nat := s.params.length

/-- A function, with one signature for each number of arguments. -/
structure FunctionPlugin where
  name : String
  signatures : List Signature
  /-- The file that implements it. -/
  runtime : Option String
  deriving DecidableEq, Repr, Inhabited

/-- A method of the values of one type. -/
structure MethodPlugin where
  name : String
  receiver : ValueType
  signatures : List Signature
  /-- The file that implements it. -/
  runtime : Option String
  deriving DecidableEq, Repr, Inhabited

/-- A print directive, which takes arguments of any types. -/
structure DirectivePlugin where
  name : String
  arities : List Nat
  /-- The file that implements it. -/
  runtime : Option String
  deriving DecidableEq, Repr, Inhabited

/-- Where a plugin was declared. -/
inductive Declared where
  /-- By this library. -/
  | bundled
  /-- By its user, in the declaration with this number. -/
  | byUser (number : Nat)
  deriving DecidableEq, Repr, Inhabited

/-- A plugin with its declaration. -/
structure Listed (α : Type) where
  declared : Declared
  plugin : α
  deriving DecidableEq, Repr, Inhabited

namespace Listed

variable {α : Type}

/-- Whether the user declared the plugin. -/
def isUser (l : Listed α) : Bool := l.declared != .bundled

/-- Plugins of this library. -/
def bundled (plugins : List α) : List (Listed α) := plugins.map fun p => ⟨.bundled, p⟩

/-- Plugins of the user, each in a declaration of its own. -/
def byUser (plugins : List α) : List (Listed α) :=
  plugins.zipIdx.map fun (p, n) => ⟨.byUser n, p⟩

end Listed

/-- The plugins of the user, in the order in which they are listed. -/
structure UserPlugins where
  functions : List (Listed FunctionPlugin)
  methods : List (Listed MethodPlugin)
  directives : List (Listed DirectivePlugin)
  deriving Repr, Inhabited

namespace UserPlugins

/-- No plugins. -/
def empty : UserPlugins := ⟨[], [], []⟩

/-- Whether no plugin is listed. -/
def isEmpty (u : UserPlugins) : Bool :=
  u.functions.isEmpty && u.methods.isEmpty && u.directives.isEmpty

end UserPlugins

/-! ### Names in messages -/

/-- The function in a message. -/
def FunctionPlugin.label (p : FunctionPlugin) : String := "function '" ++ p.name ++ "'"

/-- The method in a message. -/
def MethodPlugin.label (p : MethodPlugin) : String :=
  "method '" ++ p.name ++ "' on " ++ p.receiver.text

/-- The directive in a message. -/
def DirectivePlugin.label (p : DirectivePlugin) : String := "print directive '" ++ p.name ++ "'"

/-! ### Bundled plugins -/

namespace Bundled

/-- Lists of anything. -/
def anyList : ValueType := .list .unknown

/-- Maps from anything to anything. -/
def anyMap : ValueType := .map .unknown .unknown

/-- The bundled functions. -/
def functions : List FunctionPlugin :=
  [⟨"css", [⟨[.string], .string⟩], none⟩,
    ⟨"length", [⟨[anyList], .int⟩], none⟩,
    ⟨"keys", [⟨[anyMap], anyList⟩], none⟩,
    ⟨"max", [⟨[.float, .float], .float⟩], none⟩,
    ⟨"min", [⟨[.float, .float], .float⟩], none⟩,
    ⟨"round", [⟨[.float], .int⟩, ⟨[.float, .int], .float⟩], none⟩,
    ⟨"isNonnull", [⟨[.any], .bool⟩], none⟩,
    ⟨"checkNotNull", [⟨[.any], .unknown⟩], none⟩]

/-- The bundled methods. -/
def methods : List MethodPlugin :=
  [⟨"length", .string, [⟨[], .int⟩], none⟩,
    ⟨"trim", .string, [⟨[], .string⟩], none⟩,
    ⟨"contains", .string, [⟨[.string], .bool⟩], none⟩,
    ⟨"length", anyList, [⟨[], .int⟩], none⟩,
    ⟨"keys", anyMap, [⟨[], anyList⟩], none⟩]

/-- The bundled print directives. -/
def directives : List DirectivePlugin :=
  [⟨"escapeHtml", [0], none⟩, ⟨"escapeHtmlAttribute", [0], none⟩,
    ⟨"filterNormalizeUri", [0], none⟩, ⟨"filterCssValue", [0], none⟩,
    ⟨"escapeJsValue", [0], none⟩, ⟨"noAutoescape", [0], none⟩, ⟨"truncate", [1, 2], none⟩,
    ⟨"changeNewlineToBr", [0], none⟩, ⟨"id", [0], none⟩, ⟨"text", [0], none⟩]

end Bundled

end TemplateFrontend
