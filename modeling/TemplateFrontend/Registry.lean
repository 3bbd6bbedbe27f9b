import TemplateFrontend.Diagnostic
import TemplateFrontend.Interface.OfTemplate
/-!
# The registry of templates

A `Registry` holds the interfaces of all templates that a compilation can see, in the order in which
they were registered: first the templates of the files, then those of dependencies. A key has one
interface. The second of two is refused, with an error unless both come from dependencies.
-/

namespace TemplateFrontend

/-- The interfaces of files that were compiled before. -/
structure Dependency where
  /-- Whether templates of the dependency may be called. -/
  direct : Bool
  path : String
  unit : List Interface
  deriving DecidableEq, Repr

namespace Dependency

/-- The error for a unit that cannot be read. -/
def unreadable (path : String) : String := "invalid compilation unit '" ++ path ++ "'"

/-- Where templates of the dependency come from. -/
def origin (d : Dependency) : Origin := if d.direct then .dependency else .indirectDependency

/-- The interfaces as they are registered: with the origin of the dependency, and with its path
where they have none. -/
def interfaces (d : Dependency) : List Interface :=
  d.unit.map fun t =>
    let location := if t.location.path = "" then .ofPath d.path else t.location
    { t with origin := d.origin, location }

end Dependency

/-- The interfaces that a compilation can see, in the order of registration. -/
structure Registry where
  interfaces : List Interface
  deriving DecidableEq, Repr

instance : Inhabited Registry := ⟨⟨[]⟩⟩

namespace Registry

/-- The registry without any template. -/
def empty : Registry := ⟨[]⟩

/-- The interface with a key. -/
def get? (r : Registry) (key : String) : Option Interface := r.interfaces.find? (·.key == key)

/-- The interfaces of templates that implement a delegate. -/
def implementations (r : Registry) (name : String) : List Interface :=
  r.interfaces.filter (·.role.delegateName? == some name)

/-- Whether any template implements a delegate. -/
def hasDelegate (r : Registry) (name : String) : Bool := !(r.implementations name).isEmpty

/-- The names of delegates, in the order of their first implementations. -/
def delegateNames (r : Registry) : List String :=
  (r.interfaces.filterMap (·.role.delegateName?)).eraseDups

/-- The names of delegates with the keys of their implementations. -/
def delegates (r : Registry) : List (String × List String) :=
  r.delegateNames.map fun name => (name, (r.implementations name).map (·.key))

/-- The phase of problems with registration. -/
def phase : String := "registry"

/-- What a message calls a template that is defined twice. -/
def describe (t : Interface) : String :=
  match t.role with
  | .delegate name variant => "delegate '" ++ name ++ "' with variant '" ++ variant ++ "'"
  | _ => "template '" ++ t.key ++ "'"

/-- The registry with one more interface, unless its key has one. -/
def insert (r : Registry) (t : Interface) : Registry × Diagnostics :=
  match r.get? t.key with
  | none => (⟨r.interfaces ++ [t]⟩, [])
  | some kept =>
    -- Two dependencies may hold the same unit.
    if kept.origin.isDependency && t.origin.isDependency then (r, [])
    else
      let message := describe t ++ " is already defined at " ++ kept.location.text
      (r, [.errorAt phase message t.location])

/-- The registry with more interfaces, one after the other. -/
def insertAll (r : Registry) (ts : List Interface) : Registry × Diagnostics :=
  ts.foldl (fun (r, ds) t =>
    let (r, more) := r.insert t
    (r, ds ++ more)) (r, [])

/-- The registry with the templates of the files. -/
def insertFile (r : Registry) (f : TemplateFile) : Registry × Diagnostics :=
  f.declared.foldl (fun (r, ds) (id, t) =>
    match Interface.ofTemplate f id t with
    | .ok t =>
      let (r, more) := r.insert t
      (r, ds ++ more)
    | .error e => (r, ds ++ [.errorAt phase e.message (f.location (f.span id))])) (r, [])

/-- The registry of the templates of the files and then of the dependencies. -/
def build (files : FileSet) (dependencies : List Dependency) : Registry × Diagnostics :=
  let (r, ds) := files.foldl (fun (r, ds) f =>
    let (r, more) := r.insertFile f
    (r, ds ++ more)) (empty, [])
  let (r, more) := r.insertAll (dependencies.flatMap (·.interfaces))
  (r, ds ++ more)

/-- The interfaces of templates that were not compiled before, for compilations that depend on
this one. -/
def unit (r : Registry) : List Interface := r.interfaces.filter (! ·.origin.isDependency)

end Registry

end TemplateFrontend
