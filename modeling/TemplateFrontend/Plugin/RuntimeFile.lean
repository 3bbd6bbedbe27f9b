import TemplateFrontend.Files.Tree
import TemplateFrontend.Plugin.Resolver
/-!
# Files that implement plugins

Every plugin of the user needs a file that implements it, found under one of the given directories.
If no directory is given, the files are not looked for.
-/

namespace TemplateFrontend

/-- A directory in which files that implement plugins are looked for. -/
structure RuntimeRoot where
  files : FileTree
  path : String
  deriving DecidableEq, Repr, Inhabited

namespace RuntimeRoot

/-- Whether the directory holds a file or directory with this path. -/
def holds (r : RuntimeRoot) (path : String) : Bool :=
  -- The slash keeps an empty path at the directory itself.
  r.files.contains (if path = "" then r.path ++ "/" else joinPath r.path path)

end RuntimeRoot

namespace Resolver

/-- The phase of problems with files that implement plugins. -/
def runtimePhase : String := "validate-plugins"

/-- The problem with the file of one plugin. -/
def runtimeProblem? (roots : List RuntimeRoot) (label : String) : Option String → Option String
  | none => some (label ++ " declares no runtime")
  | some path =>
    if roots.isEmpty || roots.any (·.holds path) then none
    else some ("runtime '" ++ path ++ "' of " ++ label ++
      " was not found under any plugin runtime root")

/-- The plugins of the user as messages name them, with their files. -/
def userRuntimes (r : Resolver) : List (String × Option String) :=
  r.userFunctions.map (fun p => (p.label, p.runtime)) ++
    r.userMethods.map (fun p => (p.label, p.runtime)) ++
    r.userDirectives.map (fun p => (p.label, p.runtime))

/-- The problems with the files of the plugins of the user. -/
def checkRuntimes (r : Resolver) (roots : List RuntimeRoot) : Diagnostics :=
  r.userRuntimes.filterMap fun (label, runtime) =>
    (runtimeProblem? roots label runtime).map (.error runtimePhase)

end Resolver

end TemplateFrontend
