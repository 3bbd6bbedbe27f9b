import TemplateFrontend.Literal
/-!
# Rules of a project

What a project settles for all its templates: usage rules, visual elements, CSS classes and
constants that are known when templates are compiled.
-/

namespace TemplateFrontend

/-- A thing that templates of a project must not use. -/
inductive Banned where
  | function (name : String)
  | directive (name : String)
  | rawText (text : String)
  | htmlTag (tag : String)
  deriving DecidableEq, Repr, Inhabited

/-- A banned thing, with what to say of its use. -/
structure ConformanceRule where
  banned : Banned
  message : String
  deriving DecidableEq, Repr, Inhabited

/-- The usage rules of a project. -/
abbrev Conformance := List ConformanceRule

/-- A visual element that templates may log. -/
structure VisualElement where
  name : String
  id : Nat
  deriving DecidableEq, Repr, Inhabited

/-- The visual elements of a project. -/
abbrev VisualElements := List VisualElement

/-- The first visual element with a name. -/
def VisualElements.find? (es : VisualElements) (name : String) : Option VisualElement :=
  List.find? (·.name == name) es

/-- The CSS classes of a project, each once. -/
structure CssClasses where
  names : List String
  deriving DecidableEq, Repr, Inhabited

namespace CssClasses

/-- The classes of a list, in the order of their first mentions. -/
def ofList (names : List String) : CssClasses := ⟨names.eraseDups⟩

/-- Whether a class is known. -/
def contains (c : CssClasses) (name : String) : Bool := c.names.contains name

end CssClasses

/-- Constants with their dotted names, each once. -/
structure Globals where
  entries : List (String × Literal)
  deriving DecidableEq, Repr, Inhabited

namespace Globals

/-- No constants. -/
def empty : Globals := ⟨[]⟩

/-- The constant with a name. -/
def find? (g : Globals) (name : String) : Option Literal := g.entries.lookup name

/-- Entries with a name set: in its place if it is there, else at the end. -/
def setEntry (name : String) (value : Literal) : List (String × Literal) → List (String × Literal)
  | [] => [(name, value)]
  | (n, old) :: rest =>
    if n = name then (n, value) :: rest else (n, old) :: setEntry name value rest

/-- The constants with one set. -/
def set (g : Globals) (name : String) (value : Literal) : Globals := ⟨setEntry name value g.entries⟩

/-- The constants of a list, the last of each name. -/
def ofList (entries : List (String × Literal)) : Globals :=
  entries.foldl (fun g (name, value) => g.set name value) empty

theorem lookup_setEntry (name other : String) (value : Literal)
    (entries : List (String × Literal)) :
    (setEntry name value entries).lookup other =
      if other = name then some value else entries.lookup other := by
  have unequal {a b : String} (h : ¬a = b) : (a == b) = false := beq_false_of_ne h
  induction entries with
  | nil => by_cases h : other = name <;> simp [setEntry, List.lookup_cons, h, unequal]
  | cons e rest ih =>
    obtain ⟨n, old⟩ := e
    -- the first entry of the name is set anew, or the name is further on
    by_cases hn : n = name
    · subst hn
      by_cases h : other = n <;> simp [setEntry, List.lookup_cons, h, unequal]
    · by_cases h : other = n
      · subst h
        simp [setEntry, hn]
      · simp [setEntry, hn, List.lookup_cons, unequal h, ih]

theorem find?_set (g : Globals) (name other : String) (value : Literal) :
    (g.set name value).find? other = if other = name then some value else g.find? other :=
  lookup_setEntry name other value g.entries

end Globals

end TemplateFrontend
