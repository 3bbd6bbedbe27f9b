/-!
# Kinds of templates, contents and parameters

The small vocabularies of template declarations, each with the words by which templates, messages
and compilation units spell it.
-/

namespace TemplateFrontend

/-- How a template is selected and whether it keeps state. -/
inductive TemplateKind where
  /-- Called by name. -/
  | basic
  /-- Selected by delegate name and variant. -/
  | delegate
  /-- Called by name, with state of its own. -/
  | element
  deriving DecidableEq, Repr, Inhabited

namespace TemplateKind

/-- The command that opens a template of this kind. -/
def command : TemplateKind → String
  | .basic => "template"
  | .delegate => "deltemplate"
  | .element => "element"

/-- The word for the kind in a compilation unit. -/
def word : TemplateKind → String
  | .basic => "basic"
  | .delegate => "delegate"
  | .element => "element"

/-- Every kind, in the order of declaration. -/
def all : List TemplateKind := [.basic, .delegate, .element]

/-- The kind with the given word. -/
def ofWord? (w : String) : Option TemplateKind := all.find? (·.word == w)

/-- The kind that a command opens. -/
def ofCommand? (c : String) : Option TemplateKind := all.find? (·.command == c)

end TemplateKind

/-- What a template or a block of content produces. -/
inductive ContentKind where
  | html
  | attributes
  | text
  | uri
  | css
  | js
  deriving DecidableEq, Repr, Inhabited

namespace ContentKind

/-- The word for the kind. -/
def word : ContentKind → String
  | .html => "html"
  | .attributes => "attributes"
  | .text => "text"
  | .uri => "uri"
  | .css => "css"
  | .js => "js"

/-- Every kind, in the order of declaration. -/
def all : List ContentKind := [.html, .attributes, .text, .uri, .css, .js]

/-- The kind with the given word. -/
def ofWord? (w : String) : Option ContentKind := all.find? (·.word == w)

theorem ofWord?_word (k : ContentKind) : ofWord? k.word = some k := by cases k <;> rfl

end ContentKind

/-- Who may call a template. -/
inductive Visibility where
  | everyone
  /-- Only templates of the same file. -/
  | sameFile
  deriving DecidableEq, Repr, Inhabited

namespace Visibility

/-- The word for the visibility. -/
def word : Visibility → String
  | .everyone => "public"
  | .sameFile => "private"

/-- The visibility with the given word. -/
def ofWord? (w : String) : Option Visibility := [everyone, sameFile].find? (·.word == w)

theorem ofWord?_word (v : Visibility) : ofWord? v.word = some v := by cases v <;> rfl

end Visibility

/-- Whether a parameter is plain data or an attribute of an element template. -/
inductive ParamKind where
  | param
  | elementAttribute
  deriving DecidableEq, Repr, Inhabited

namespace ParamKind

/-- The word for the kind. -/
def word : ParamKind → String
  | .param => "param"
  | .elementAttribute => "attribute"

/-- The kind with the given word. -/
def ofWord? (w : String) : Option ParamKind := [param, elementAttribute].find? (·.word == w)

theorem ofWord?_word (k : ParamKind) : ofWord? k.word = some k := by cases k <;> rfl

end ParamKind

/-- Where a template comes from, seen from the files that are being compiled. -/
inductive Origin where
  | source
  | dependency
  /-- A dependency of a dependency: its templates may be looked up but not called. -/
  | indirectDependency
  deriving DecidableEq, Repr, Inhabited

namespace Origin

/-- The word for the origin in a compilation unit. -/
def word : Origin → String
  | .source => "source"
  | .dependency => "dependency"
  | .indirectDependency => "indirect-dependency"

/-- The origin in a sentence. -/
def text : Origin → String
  | .source => "source"
  | .dependency => "dependency"
  | .indirectDependency => "indirect dependency"

/-- The origin with the given word. -/
def ofWord? (w : String) : Option Origin :=
  [source, dependency, indirectDependency].find? (·.word == w)

theorem ofWord?_word (o : Origin) : ofWord? o.word = some o := by cases o <;> rfl

/-- Whether the template was compiled before. -/
def isDependency (o : Origin) : Bool := o != .source

end Origin

end TemplateFrontend
