import TemplateFrontend.Cache
import TemplateFrontend.Check.Calls
import TemplateFrontend.Check.Conformance
import TemplateFrontend.Check.Variables
import TemplateFrontend.Resolve.Names
import TemplateFrontend.Transform.DebugAttribute
import TemplateFrontend.Transform.Escaping
import TemplateFrontend.Transform.Lowering
import TemplateFrontend.Transform.Simplify
import TemplateFrontend.Typing.File
/-!
# Runs of passes over source files

`assemble` parses the sources, runs the passes on single files, builds the registry and runs the
passes on all files. A source that does not parse is one error; as soon as there is one, no pass
runs and no registry is built.

* `runPasses_append` — running two lists of passes one after the other is running both.
-/

namespace TemplateFrontend

/-! ### Passes on one file -/

namespace TemplateFile

/-- The file after a pass on single files, with what the pass found. -/
def runPass (s : Settings) (p : Pass) (f : TemplateFile) : TemplateFile × Diagnostics :=
  match p with
  | .desugarSyntax => (f.desugarSyntax, [])
  | .resolveImports => f.resolveImports
  | .resolveGlobals => f.resolveGlobals s
  | .resolvePlugins => f.resolvePlugins s
  | .resolveTypes => f.resolveTypes s
  | .validateVisualElements => (f, f.checkVisualElements s)
  | _ => (f, [])

/-- The file after several passes. -/
def runPasses (s : Settings) (ps : List Pass) (f : TemplateFile) : TemplateFile × Diagnostics :=
  ps.foldl (fun (f, ds) p =>
    let (f, more) := f.runPass s p
    (f, ds ++ more)) (f, [])

end TemplateFile

/-! ### Passes on all files -/

namespace FileSet

/-- The files after a pass on all files, with what the pass found. -/
def runPass (s : Settings) (r : Registry) (p : Pass) (fs : FileSet) : FileSet × Diagnostics :=
  match p with
  | .checkCalls => (fs, fs.flatMap (·.checkCalls s r))
  | .conformance => (fs, fs.flatMap (·.checkConformance s))
  | .checkHeaderVars => (fs, fs.flatMap (·.checkVariables))
  | .validateCss => (fs, fs.flatMap (·.checkCss s))
  | .optimize => (fs.map (·.optimize), [])
  | .insertEscapingDirectives => (fs.map (·.insertEscapingDirectives), [])
  | .addDebugAttributes => (fs.map (·.addDebugAttributes), [])
  | .desugarHtmlAndState => (fs.map (·.desugarHtmlAndState), [])
  | _ => (fs, [])

/-- The files after several passes on all files. -/
def runPasses (s : Settings) (r : Registry) (ps : List Pass) (fs : FileSet) :
    FileSet × Diagnostics :=
  ps.foldl (fun (fs, ds) p =>
    let (fs, more) := fs.runPass s r p
    (fs, ds ++ more)) (fs, [])

/-- The files after passes on single files, one file after the other. -/
def runFilePasses (s : Settings) (ps : List Pass) : FileSet → FileSet × Diagnostics
  | [] => ([], [])
  | f :: fs =>
    let (f, ds) := f.runPasses s ps
    let (fs, more) := runFilePasses s ps fs
    (f :: fs, ds ++ more)

theorem runPasses_foldl (s : Settings) (r : Registry) (ps : List Pass) (fs : FileSet)
    (ds : Diagnostics) :
    ps.foldl (fun (x : FileSet × Diagnostics) p =>
        ((FileSet.runPass s r p x.1).1, x.2 ++ (FileSet.runPass s r p x.1).2)) (fs, ds) =
      ((runPasses s r ps fs).1, ds ++ (runPasses s r ps fs).2) := by
  induction ps generalizing fs ds with
  | nil => simp [runPasses]
  | cons p ps ih =>
    simp only [runPasses, List.foldl_cons, List.nil_append] at ih ⊢
    rw [ih, ih _ (FileSet.runPass s r p fs).2]
    simp

/-- What two lists of passes do one after the other. -/
theorem runPasses_append (s : Settings) (r : Registry) (ps qs : List Pass) (fs : FileSet) :
    runPasses s r (ps ++ qs) fs =
      ((runPasses s r qs (runPasses s r ps fs).1).1,
        (runPasses s r ps fs).2 ++ (runPasses s r qs (runPasses s r ps fs).1).2) := by
  rw [← runPasses_foldl]
  simp [runPasses, List.foldl_append]

end FileSet

/-! ### Whole runs -/

/-- The files of a run and, if all sources parsed, their registry. -/
structure Assembly where
  files : FileSet
  registry : Option Registry
  deriving Repr, Inhabited

/-- The phase of sources that do not parse. -/
def parsePhase : String := "parse"

/-- A source that does not parse, as an error. -/
def parseProblem (source : SourceText) (e : SyntaxError) : Diagnostic :=
  .errorAt parsePhase e.message (source.location e.span)

/-- The sources parsed, with the errors of those that do not parse. A cache that is there is read
and filled. -/
def parseAll (cache : Option ParseCache) : List SourceText →
    Option ParseCache × FileSet × Diagnostics
  | [] => (cache, [], [])
  | source :: rest =>
    let (cache, parsed) := match cache with
      | some c =>
        let (c, parsed) := c.parse source
        (some c, parsed)
      | none => (none, parse source)
    let (cache, files, ds) := parseAll cache rest
    match parsed with
    | .ok f => (cache, f :: files, ds)
    | .error e => (cache, files, parseProblem source e :: ds)

/-- What the passes of a run make of parsed files. -/
def assembleFiles (s : Settings) (dependencies : List Dependency) (fs : FileSet) :
    (FileSet × Registry) × Diagnostics :=
  let passes := s.planned
  let (fs, ds) := fs.runFilePasses s (passes.filter (·.scope == .file))
  -- Calls are qualified by now, so the registry knows what they forward to.
  let (registry, more) := Registry.build fs dependencies
  let (fs, rest) := fs.runPasses s registry (passes.filter (·.scope == .fileSet))
  ((fs, registry), ds ++ more ++ rest)

/-- A whole run. If documentation is stripped, the registry still keeps it. -/
def assemble (s : Settings) (dependencies : List Dependency) (stripDocs : Bool)
    (cache : Option ParseCache) (sources : List SourceText) :
    Option ParseCache × Assembly × Diagnostics :=
  let (cache, fs, ds) := parseAll cache sources
  if !ds.isEmpty then (cache, ⟨fs, none⟩, ds)
  else
    let ((fs, registry), ds) := assembleFiles s dependencies fs
    let fs := if stripDocs then fs.map (·.stripDocs) else fs
    (cache, ⟨fs, some registry⟩, ds)

end TemplateFrontend
