import TemplateFrontend.CommandLine.Request
import TemplateFrontend.Files.Tree
import TemplateFrontend.Interface.Unit
import TemplateFrontend.Settings.Files
/-!
# The files of a project

A command names files and directories. A file is taken as it is named; a directory stands for the
template files in it and below it, in the order of their names. `Invocation.project` is the project
that the files make.
-/

namespace TemplateFrontend

namespace FileTree

/-- Whether a name is that of a template file, in which something stands before the extension. -/
def isTemplateName (name : String) : Bool := 3 < name.length && ".st".toList.isSuffixOf name.toList

/-- Whether a place comes no later than another when names are compared one after the other. -/
def noLater (a b : Place) : Bool := !b.lex a fun x y => decide (x < y)

/-- The template files in a directory and below it, as seen from it, in the order of their names. -/
def templatesIn (t : FileTree) (directory : Place) : List Place :=
  let below := (t.files.map (·.1)).filter directory.isPrefixOf |>.map (·.drop directory.length)
  (below.filter fun names => names.getLast?.any isTemplateName).mergeSort noLater

/-- The paths of the template files that a path stands for. -/
def templatePaths (t : FileTree) (path : String) : List String :=
  match t.find? path with
  | some place =>
    if t.isDirectory place then (t.templatesIn place).map (·.foldl joinPath path) else [path]
  | none => [path]

end FileTree

/-- Why the files of a project cannot be used. -/
inductive InputError where
  | missing (path : String)
  | dependency (path : String) (cause : UnitError)
  | settings (cause : SettingsError)
  deriving DecidableEq, Repr

namespace InputError

/-- The error in words. -/
def message : InputError → String
  | .missing path => "failed to read '" ++ path ++ "'"
  | .dependency path _ => Dependency.unreadable path
  | .settings cause => cause.message

end InputError

namespace FileTree

/-- The text of a file. -/
def text (t : FileTree) (path : String) : Except InputError String :=
  match t.readPath? path with
  | some s => .ok s
  | none => .error (.missing path)

/-- A source. -/
def source (t : FileTree) (path : String) : Except InputError SourceText := do
  pure ⟨path, ← t.text path⟩

/-- A dependency. -/
def dependency (t : FileTree) (direct : Bool) (path : String) : Except InputError Dependency := do
  match CompilationUnit.parse (← t.text path) with
  | .ok unit => pure ⟨direct, path, unit⟩
  | .error e => .error (.dependency path e)

/-- What a file of settings says, if there is one. -/
def settings {α : Type} (t : FileTree) (read : String → Except SettingsError α)
    (path : Option String) : Except InputError (Option α) :=
  path.mapM fun path => do (read (← t.text path)).mapError .settings

end FileTree

/-- The project that a command is about. Sources are read first, then dependencies, then settings.
-/
def Invocation.project (i : Invocation) (t : FileTree) : Except InputError Project := do
  let sources ← (i.sources.flatMap t.templatePaths).mapM t.source
  let direct ← (i.values .dependency).mapM (t.dependency true)
  let indirect ← (i.values .indirectDependency).mapM (t.dependency false)
  let plugins ← t.settings UserPlugins.ofToml (i.value? .plugins)
  let conformance ← t.settings Conformance.ofToml (i.value? .conformance)
  let visualElements ← t.settings VisualElements.ofToml (i.value? .logging)
  let css ← t.settings CssClasses.ofToml (i.value? .css)
  let globals ← t.settings Globals.ofToml (i.value? .globals)
  pure { Project.ofSources sources with
    dependencies := direct ++ indirect
    plugins := plugins.getD .empty
    runtimeRoots := (i.values .pluginRoot).map fun path => ⟨t, path⟩
    conformance := conformance.getD []
    visualElements := visualElements.getD []
    css
    globals := globals.getD .empty
    optimize := !i.has .noOptimize
    skipPluginValidation := i.has .skipPluginValidation
    addDebugAttributes := i.has .debugAttributes
    warnings := .writer }

end TemplateFrontend
