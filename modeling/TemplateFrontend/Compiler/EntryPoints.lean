import TemplateFrontend.Compiler.Project
import TemplateFrontend.Message.Bundle
import TemplateFrontend.Pipeline
/-!
# What a compiler can be asked

Each question to a compiler is one run with settings of its own, and nothing of a run is seen by the
next one but the files in the cache. An error among the problems of a run fails it; warnings are
written down, or fail it too if the feature for that is on.

* `compileTemplates`, `compileFor` — all templates, for rendering or for a backend;
* `compileHeaders` — only as far as callers in other compilations need it;
* `analyze` — without the passes that change the tree much;
* `extractMessages`, `checkPlugins`, `checkConformance` — the other questions.
-/

namespace TemplateFrontend

/-- The files of a run with their registry. -/
structure Compiled where
  files : FileSet
  registry : Registry
  deriving Repr, Inhabited

/-- What compilations that depend on this one need. -/
structure Headers where
  files : FileSet
  registry : Registry
  css : Option CssClasses
  deriving Repr, Inhabited

/-- What an analysis of the sources starts from. -/
structure Analysis where
  files : FileSet
  /-- The registry, if all sources parsed. -/
  registry : Option Registry
  warnings : Diagnostics
  deriving Repr, Inhabited

/-- Backends for which templates can be compiled. -/
inductive Target where
  | js
  | incrementalDom
  | py
  | javaInfo
  deriving DecidableEq, Repr, Inhabited

/-- An entry of the log. -/
inductive LogEntry where
  /-- Warnings, with their number. -/
  | warning (count : Nat) (message : String)
  /-- Something that failed, with the reason. -/
  | error (reason message : String)
  deriving DecidableEq, Repr

/-- Gives problems, all of them warnings, to the place for them: what arrives at the writer, and what
the log gets. -/
def WarningSink.deliver (sink : WarningSink) (ds : Diagnostics) : String × List LogEntry :=
  match sink with
  | .log => ("", [.warning ds.warnings.length ("compiled with warnings:\n" ++ ds.render)])
  | .writeTo w =>
    -- A writer that breaks off does not fail the compilation.
    match w.write (ds.render ++ "\n") with
    | (written, none) => (written, [])
    | (written, some reason) => (written, [.error reason "failed to write compiler warnings"])

/-- The answer to a question, with what was written and logged and the cache after it. -/
structure Outcome (α : Type) where
  result : Except CompileFailure α
  /-- What has arrived at the writer for warnings. -/
  written : String
  /-- What the log gets. -/
  logged : List LogEntry
  cache : Option ParseCache

/-- A run before its problems decide about it: the cache, the problems and the result. -/
abbrev Attempt (α : Type) := Option ParseCache × Diagnostics × Except CompileFailure α

namespace Compiler

/-- The feature that turns warnings into failures. -/
def throwOnWarnings : String := "testonly_throw_on_warnings"

/-! ### Runs -/

/-- The outcome of a run. -/
def settle {α : Type} (c : Compiler) (attempt : Attempt α) : Outcome α :=
  let (cache, ds, result) := attempt
  match result with
  | .error e => ⟨.error e, "", [], cache⟩
  | .ok a =>
    -- Warnings are delivered only for a run that succeeds.
    if ds.hasErrors then ⟨.error (.problems ds), "", [], cache⟩
    else if ds.warnings.isEmpty then ⟨.ok a, "", [], cache⟩
    else if c.features.contains throwOnWarnings then ⟨.error (.problems ds), "", [], cache⟩
    else
      let (written, logged) := c.warnings.deliver ds
      ⟨.ok a, written, logged, cache⟩

/-- The outcome of a run with the plugins of the project, which fails if one of them is not declared
well. -/
def withPlugins {α : Type} (c : Compiler) (lenient : Bool) (cache : Option ParseCache)
    (run : Resolver → Attempt α) : Outcome α :=
  let (plugins, problems) := Resolver.ofUser lenient c.plugins
  if problems.isEmpty then c.settle (run plugins)
  else ⟨.error (.problems (problems.map (·.diagnostic))), "", [], cache⟩

/-- The settings of a run that nothing else is said about. -/
def settings (c : Compiler) (plugins : Resolver) : Settings :=
  { Settings.default plugins with
    types := c.types, conformance := c.conformance, visualElements := c.visualElements, css := c.css
    globals := c.globals, allowExternalCalls := c.allowExternalCalls.getD true
    optimize := c.optimize, addDebugAttributes := c.addDebugAttributes }

/-- A run over the sources of the project. -/
def assembled (c : Compiler) (s : Settings) (stripDocs : Bool) (cache : Option ParseCache) :
    Option ParseCache × Assembly × Diagnostics :=
  assemble s c.dependencies stripDocs cache c.sources

/-- The registry of a run without errors. -/
def requireRegistry (a : Assembly) (ds : Diagnostics) : Except CompileFailure Compiled :=
  if ds.hasErrors then .error (.problems ds)
  else match a.registry with
    | some registry => .ok ⟨a.files, registry⟩
    | none => .error (.broken ds)

/-- A run that needs a registry. -/
def compiled (c : Compiler) (s : Settings) (stripDocs : Bool) (cache : Option ParseCache) :
    Attempt Compiled :=
  let (cache, a, ds) := c.assembled s stripDocs cache
  (cache, ds, requireRegistry a ds)

/-- A question that does not allow external calls, which fails if they were asked for. -/
def withoutExternalCalls {α : Type} (c : Compiler) (cache : Option ParseCache)
    (answer : Outcome α) : Outcome α :=
  if c.allowExternalCalls = some true then
    ⟨.error (.configuration
      "external calls cannot be allowed when compiling templates for rendering"), "", [], cache⟩
  else answer

/-! ### Questions -/

/-- All templates, compiled for rendering. -/
def compileTemplates (c : Compiler) (cache : Option ParseCache) : Outcome Compiled :=
  c.withoutExternalCalls cache <| c.withPlugins c.skipPluginValidation cache fun plugins =>
    c.compiled { c.settings plugins with allowExternalCalls := false } cache.isNone cache

/-- The settings for a backend. -/
def settingsFor (target : Target) (s : Settings) : Settings :=
  match target with
  | .js | .incrementalDom => { s with desugarHtmlAndState := false }
  | .javaInfo => { s with optimize := false, desugarHtmlAndState := false }
  | .py => s

/-- All templates, compiled for a backend. -/
def compileFor (c : Compiler) (target : Target) (cache : Option ParseCache) : Outcome Compiled :=
  c.withPlugins c.skipPluginValidation cache fun plugins =>
    c.compiled (settingsFor target (c.settings plugins)) false cache

/-- All templates, compiled as far as other compilations need them. -/
def compileHeaders (c : Compiler) (cache : Option ParseCache) : Outcome Headers :=
  c.withoutExternalCalls cache <| c.withPlugins c.skipPluginValidation cache fun plugins =>
    let s := { c.settings plugins with
      allowExternalCalls := false, cuts := [.before .checkHeaderVars] }
    let (cache, ds, result) := c.compiled s false cache
    (cache, ds, result.map fun r => ⟨r.files, r.registry, c.css⟩)

/-- The templates much as they are written. A tolerant analysis takes errors for warnings. -/
def analyze (c : Compiler) (tolerant desugarSyntax : Bool) (cache : Option ParseCache) :
    Outcome Analysis :=
  c.withoutExternalCalls cache <| c.withPlugins c.skipPluginValidation cache fun plugins =>
    let s := { c.settings plugins with
      allowExternalCalls := false, allowUnknownGlobals := true, optimize := false
      insertEscapingDirectives := false, addDebugAttributes := false
      desugarHtmlAndState := false, desugarSyntax }
    let (cache, a, ds) := c.assembled s false cache
    let ds := if tolerant then ds.downgraded else ds
    (cache, ds, .ok ⟨a.files, a.registry, ds.warnings⟩)

/-- The messages in the templates. -/
def extractMessages (c : Compiler) (cache : Option ParseCache) : Outcome MessageBundle :=
  c.withPlugins true cache fun plugins =>
    let s := { c.settings plugins with
      types := .unknown, checkTypes := false, allowUnknownGlobals := true, optimize := false
      desugarHtmlAndState := false }
    let (cache, a, ds) := c.assembled s false cache
    let (messages, more) := MessageBundle.ofFiles a.files
    (cache, ds ++ more, .ok messages)

/-- Whether every plugin of the user is implemented. -/
def checkPlugins (c : Compiler) (cache : Option ParseCache) : Outcome Unit :=
  c.withPlugins false cache fun plugins =>
    (cache, plugins.checkRuntimes c.runtimeRoots, .ok ())

/-- Whether the sources keep the usage rules. -/
def checkConformance (c : Compiler) (cache : Option ParseCache) : Outcome Assembly :=
  c.withPlugins c.skipPluginValidation cache fun plugins =>
    let s := { c.settings plugins with
      optimize := false, desugarHtmlAndState := false, addDebugAttributes := false
      cuts := [.after .conformance] }
    let (cache, a, ds) := c.assembled s false cache
    (cache, ds, .ok a)

end Compiler

end TemplateFrontend
