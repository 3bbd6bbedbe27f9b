import TemplateFrontend.Compiler.EntryPoints
import TemplateFrontend.Proofs.Compiler.Parsed
import TemplateFrontend.Proofs.Compiler.Phases
/-!
# Questions to a compiler

All questions are answered in one way. The settings of the project are checked first, then its plugins;
the sources are assembled with settings that depend on the question, and from the assembly and its
problems comes the answer, which the problems may still turn into a failure. What holds of every
question is proved of this one way.

* `Question`, `Compiler.ask` — the questions that a compiler can be asked;
* `Compiler.ask_eq` — the way in which each of them is answered;
* `Compiler.assembled_snd` — the assembly of sources, each of which is parsed alone;
* `Compiler.result_ask_eq_ok_iff` — what an answer comes from.
-/

namespace TemplateFrontend

/-! ### Questions -/

/-- What sources are compiled for. -/
inductive Goal where
  | rendering
  | backend (t : Target)
  | headers
  deriving DecidableEq, Repr

namespace Goal

/-- The settings of the run. -/
def settings : Goal → Settings → Settings
  | .rendering, s => { s with allowExternalCalls := false }
  | .backend t, s => Compiler.settingsFor t s
  | .headers, s => { s with allowExternalCalls := false, cuts := [.before .checkHeaderVars] }

end Goal

/-- What a compiler can be asked. -/
inductive Question where
  | compile (goal : Goal)
  | analyze (tolerant desugarSyntax : Bool)
  | messages
  | plugins
  | conformance
  deriving DecidableEq, Repr

namespace Question

/-- What the answer to the question is. -/
abbrev Answer : Question → Type
  | .compile .headers => Headers
  | .compile .rendering | .compile (.backend _) => Compiled
  | .analyze _ _ => Analysis
  | .messages => MessageBundle
  | .plugins => Unit
  | .conformance => Assembly

/-- Whether the question cannot be asked if external calls are allowed. -/
def forbidsExternalCalls : Question → Bool
  | .compile .rendering | .compile .headers | .analyze _ _ => true
  | .compile (.backend _) | .messages | .plugins | .conformance => false

/-- Whether plugins may be used that nobody declares. -/
def isLenient (c : Compiler) : Question → Bool
  | .messages => true
  | .plugins => false
  | .compile _ | .analyze _ _ | .conformance => c.skipPluginValidation

/-- The settings with which the sources are assembled. -/
def settings : Question → Settings → Settings
  | .compile goal, s => goal.settings s
  | .analyze _ desugarSyntax, s => { s with
      allowExternalCalls := false, allowUnknownGlobals := true, optimize := false
      insertEscapingDirectives := false, addDebugAttributes := false
      desugarHtmlAndState := false, desugarSyntax }
  | .messages, s => { s with
      types := .unknown, checkTypes := false, allowUnknownGlobals := true, optimize := false
      desugarHtmlAndState := false }
  | .plugins, s => s
  | .conformance, s => { s with
      optimize := false, desugarHtmlAndState := false, addDebugAttributes := false
      cuts := [.after .conformance] }

/-- Whether documentation is stripped: only for rendering, and only from files that no cache keeps. -/
def stripsDocs (cache : Option ParseCache) : Question → Bool
  | .compile .rendering => cache.isNone
  | _ => false

/-- What is reported for an assembly in which problems were found. -/
def reports : Question → Assembly → Diagnostics → Diagnostics
  | .analyze tolerant _, _, ds => if tolerant then ds.downgraded else ds
  | .messages, a, ds => ds ++ (MessageBundle.ofFiles a.files).2
  | .compile _, _, ds | .plugins, _, ds | .conformance, _, ds => ds

/-- The answer that an assembly with problems gives, if it can give one. -/
def answer (c : Compiler) (a : Assembly) (ds : Diagnostics) :
    (q : Question) → Except CompileFailure q.Answer
  | .compile .headers =>
    (Compiler.requireRegistry a ds).map fun r => ⟨r.files, r.registry, c.css⟩
  | .compile .rendering | .compile (.backend _) => Compiler.requireRegistry a ds
  | .analyze tolerant _ =>
    .ok ⟨a.files, a.registry, (if tolerant then ds.downgraded else ds).warnings⟩
  | .messages => .ok (MessageBundle.ofFiles a.files).1
  | .plugins => .ok ()
  | .conformance => .ok a

/-- The registry in an answer, if there is one. -/
def registry? : (q : Question) → q.Answer → Option Registry
  | .compile .headers, h => some h.registry
  | .compile .rendering, r | .compile (.backend _), r => some r.registry
  | .analyze _ _, a => a.registry
  | .conformance, a => a.registry
  | .messages, _ | .plugins, _ => none

/-- The files in an answer. -/
def files : (q : Question) → q.Answer → FileSet
  | .compile .headers, h => h.files
  | .compile .rendering, r | .compile (.backend _), r => r.files
  | .analyze _ _, a => a.files
  | .conformance, a => a.files
  | .messages, _ | .plugins, _ => []

end Question

namespace Compiler

/-- The outcome of a question. -/
def ask (c : Compiler) (cache : Option ParseCache) : (q : Question) → Outcome q.Answer
  | .compile .rendering => c.compileTemplates cache
  | .compile (.backend t) => c.compileFor t cache
  | .compile .headers => c.compileHeaders cache
  | .analyze tolerant desugarSyntax => c.analyze tolerant desugarSyntax cache
  | .messages => c.extractMessages cache
  | .plugins => c.checkPlugins cache
  | .conformance => c.checkConformance cache

/-! ### The way to an answer -/

/-- The run for a question, once the plugins of the project are known. -/
def attempt (c : Compiler) (cache : Option ParseCache) (plugins : Resolver) :
    (q : Question) → Attempt q.Answer
  | .plugins => (cache, plugins.checkRuntimes c.runtimeRoots, .ok ())
  | q =>
    let (cache', a, ds) := c.assembled (q.settings (c.settings plugins)) (q.stripsDocs cache) cache
    (cache', q.reports a ds, q.answer c a ds)

/-- An answer, unless external calls are allowed and must not be. -/
def guarded {α : Type} (c : Compiler) (cache : Option ParseCache) (answer : Outcome α) :
    (forbids : Bool) → Outcome α
  | true => c.withoutExternalCalls cache answer
  | false => answer

theorem guarded_false {α : Type} (c : Compiler) (cache : Option ParseCache) (answer : Outcome α) :
    c.guarded cache answer false = answer := rfl

/-- What is asked is guarded against external calls, and needs the plugins. -/
theorem ask_eq_guarded (c : Compiler) (cache : Option ParseCache) (q : Question) :
    c.ask cache q = c.guarded cache
      (c.withPlugins (q.isLenient c) cache fun plugins => c.attempt cache plugins q)
      q.forbidsExternalCalls := by
  match q with
  | .compile .rendering | .compile .headers | .analyze _ _ => rfl
  | .compile (.backend _) | .messages | .plugins | .conformance =>
    exact (guarded_false c cache _).symm

/-- The plugins for a question, unless the settings of the project do not go with it. Neither the
sources nor a cache are looked at. -/
def prepare (c : Compiler) (q : Question) : Except CompileFailure Resolver :=
  if q.forbidsExternalCalls = true ∧ c.allowExternalCalls = some true then
    .error (.configuration
      "external calls cannot be allowed when compiling templates for rendering")
  else
    let (plugins, problems) := Resolver.ofUser (q.isLenient c) c.plugins
    if problems.isEmpty then .ok plugins
    else .error (.problems (problems.map (·.diagnostic)))

/-- **The way to an answer** is the same for all questions. -/
theorem ask_eq (c : Compiler) (cache : Option ParseCache) (q : Question) :
    c.ask cache q =
      match c.prepare q with
      | .error e => ⟨.error e, "", [], cache⟩
      | .ok plugins => c.settle (c.attempt cache plugins q) := by
  rw [ask_eq_guarded, prepare]
  unfold withPlugins
  generalize Resolver.ofUser (q.isLenient c) c.plugins = x
  obtain ⟨plugins, problems⟩ := x
  cases q.forbidsExternalCalls with
  | true =>
    rw [guarded, withoutExternalCalls]
    by_cases hallow : c.allowExternalCalls = some true
    -- external calls are allowed, and nothing is run
    · rw [if_pos hallow, if_pos ⟨rfl, hallow⟩]
    · rw [if_neg hallow, if_neg fun h => hallow h.2]
      cases problems <;> rfl
  | false =>
    rw [guarded, if_neg (fun h => Bool.false_ne_true h.1)]
    cases problems <;> rfl

/-- The problems that are found for a question, whether they are reported or not. -/
def found (c : Compiler) (cache : Option ParseCache) (q : Question) : Diagnostics :=
  match c.prepare q with
  | .error e => e.diagnostics
  | .ok plugins => (c.attempt cache plugins q).2.1

/-! ### Settling -/

section Settle

variable {α : Type} {c : Compiler} {ds : Diagnostics} {result : Except CompileFailure α}

/-- A run has an answer if it came to one, no problem is an error, and no warning counts as one. -/
theorem settle_eq_ok_iff {cache : Option ParseCache} {a : α} :
    (c.settle (cache, ds, result)).result = .ok a ↔ result = .ok a ∧ ds.hasErrors = false ∧
      (ds.warnings = [] ∨ c.features.contains throwOnWarnings = false) := by
  unfold settle
  cases result with
  | error e => simp
  | ok b =>
    dsimp only
    cases ds.hasErrors with
    | true => simp
    | false =>
      -- without errors it depends on the warnings, if they are asked to count
      cases hwarnings : ds.warnings with
      | nil => simp
      | cons d more => cases c.features.contains throwOnWarnings <;> simp

/-- What is written down for the problems of a run with an answer. -/
def writes (c : Compiler) (ds : Diagnostics) : String :=
  if ds.warnings.isEmpty then "" else (c.warnings.deliver ds).1

/-- With an answer, the problems are written down. -/
theorem written_of_settle {cache : Option ParseCache} {a : α}
    (h : (c.settle (cache, ds, result)).result = .ok a) :
    (c.settle (cache, ds, result)).written = c.writes ds := by
  obtain ⟨rfl, herrors, hwarnings⟩ := settle_eq_ok_iff.mp h
  unfold settle writes
  dsimp only
  rw [herrors]
  obtain hwarnings | hfeature := hwarnings
  · rw [hwarnings]
    rfl
  · rw [hfeature]
    cases ds.warnings <;> rfl

/-- The end of a run leaves its cache alone. -/
@[simp] theorem cache_settle (c : Compiler) (x : Attempt α) : (c.settle x).cache = x.1 := by
  obtain ⟨cache, ds, result⟩ := x
  unfold settle
  -- settling reads the cache in no branch
  cases result with
  | error e => rfl
  | ok a =>
    dsimp only
    split
    · rfl
    · split
      · rfl
      · split <;> rfl

end Settle

/-! ### Assemblies -/

/-- A run over the sources of a compiler, each of which is parsed alone. -/
theorem assembled_snd (c : Compiler) (s : Settings) (stripDocs : Bool) (cache : Option ParseCache) :
    (c.assembled s stripDocs cache).2 =
      if parseProblems cache c.sources = [] then
        let run := assembleFiles s c.dependencies (parsedFiles cache c.sources)
        (⟨if stripDocs then run.1.1.map (·.stripDocs) else run.1.1, some run.1.2⟩, run.2)
      else (⟨parsedFiles cache c.sources, none⟩, parseProblems cache c.sources) := by
  have hparsed : (parseAll cache c.sources).2 = _ := parseAll_eq c.nodup_paths
  unfold assembled assemble
  generalize parseAll cache c.sources = x at hparsed
  obtain ⟨cache', files, ds⟩ := x
  obtain ⟨rfl, rfl⟩ := Prod.mk.inj hparsed
  dsimp only
  split
  -- a source does not parse, and no pass runs
  · next hsome =>
    have hne : parseProblems cache c.sources ≠ [] := by simpa using hsome
    rw [if_neg hne]
  · next hnone =>
    have hnil : parseProblems cache c.sources = [] := by simpa using hnone
    rw [if_pos hnil]

/-- The registry of an answer is that of the assembly. -/
theorem registry_of_requireRegistry_ok {a : Assembly} {ds : Diagnostics} {r : Compiled}
    (h : requireRegistry a ds = .ok r) : a.registry = some r.registry := by
  unfold requireRegistry at h
  split at h
  · cases h
  · split at h
    · next hregistry =>
      obtain rfl := Except.ok.inj h
      exact hregistry
    · cases h

/-- So are its files. -/
theorem files_of_requireRegistry_ok {a : Assembly} {ds : Diagnostics} {r : Compiled}
    (h : requireRegistry a ds = .ok r) : r.files = a.files := by
  unfold requireRegistry at h
  split at h
  · cases h
  · split at h
    · obtain rfl := Except.ok.inj h
      rfl
    · cases h

/-- A run has a registry if all sources parse: the one of the prepared files. -/
theorem assembled_of_requireRegistry_ok {c : Compiler} {s : Settings} {stripDocs : Bool}
    {cache : Option ParseCache} {r : Compiled}
    (h : requireRegistry (c.assembled s stripDocs cache).2.1 (c.assembled s stripDocs cache).2.2 =
      .ok r) :
    parseProblems cache c.sources = [] ∧
      r.registry = (Registry.build ((parsedFiles cache c.sources).map s.prepared) c.dependencies).1 ∧
      ∀ d ∈ (Registry.build ((parsedFiles cache c.sources).map s.prepared) c.dependencies).2,
        d ∈ (c.assembled s stripDocs cache).2.2 := by
  have hsome := registry_of_requireRegistry_ok h
  rw [assembled_snd] at hsome ⊢
  by_cases hparsed : parseProblems cache c.sources = []
  · rw [if_pos hparsed, assembleFiles_eq] at hsome ⊢
    exact ⟨hparsed, (Option.some.inj hsome).symm,
      fun d hd => List.mem_append_left _ (List.mem_append_right _ hd)⟩
  · rw [if_neg hparsed] at hsome
    cases hsome

/-- The cache that a run leaves comes from parsing alone. -/
theorem assemble_fst (s : Settings) (dependencies : List Dependency) (stripDocs : Bool)
    (cache : Option ParseCache) (sources : List SourceText) :
    (assemble s dependencies stripDocs cache sources).1 = (parseAll cache sources).1 := by
  unfold assemble
  generalize parseAll cache sources = x
  obtain ⟨cache', files, ds⟩ := x
  dsimp only
  split <;> rfl

/-- The cache comes from parsing alone. -/
theorem assembled_fst (c : Compiler) (s : Settings) (stripDocs : Bool) (cache : Option ParseCache) :
    (c.assembled s stripDocs cache).1 = (parseAll cache c.sources).1 :=
  assemble_fst ..

/-! ### Answers -/

section Answers

variable {c : Compiler} {cache : Option ParseCache} {plugins : Resolver} {q : Question}

/-- Every question but the one for plugins assembles the sources. -/
theorem attempt_eq (hq : q ≠ .plugins) : c.attempt cache plugins q =
    ((parseAll cache c.sources).1,
      q.reports (c.assembled (q.settings (c.settings plugins)) (q.stripsDocs cache) cache).2.1
        (c.assembled (q.settings (c.settings plugins)) (q.stripsDocs cache) cache).2.2,
      q.answer c (c.assembled (q.settings (c.settings plugins)) (q.stripsDocs cache) cache).2.1
        (c.assembled (q.settings (c.settings plugins)) (q.stripsDocs cache) cache).2.2) := by
  rw [← assembled_fst c (q.settings (c.settings plugins)) (q.stripsDocs cache)]
  cases q with
  | plugins => exact absurd rfl hq
  | _ => rfl

/-- With the plugins known, a question is a run that is settled. -/
theorem ask_eq_settle (hprepare : c.prepare q = .ok plugins) :
    c.ask cache q = c.settle (c.attempt cache plugins q) := by
  rw [ask_eq, hprepare]

/-- **What an answer comes from**: the plugins are sound, the run came to the answer, no problem that it
found is an error, and no warning counts as one. -/
theorem result_ask_eq_ok_iff {a : q.Answer} :
    (c.ask cache q).result = .ok a ↔ ∃ plugins, c.prepare q = .ok plugins ∧
      (c.attempt cache plugins q).2.2 = .ok a ∧ (c.attempt cache plugins q).2.1.hasErrors = false ∧
      ((c.attempt cache plugins q).2.1.warnings = [] ∨ c.features.contains throwOnWarnings = false) := by
  cases hprepare : c.prepare q with
  -- refused, so there is no answer
  | error e =>
    rw [ask_eq, hprepare]
    exact ⟨nofun, nofun⟩
  | ok plugins =>
    rw [ask_eq_settle hprepare]
    -- the attempt stands for all that was found, whatever it is
    generalize hattempt : c.attempt cache plugins q = x
    obtain ⟨cache', ds, result⟩ := x
    rw [settle_eq_ok_iff]
    constructor
    · intro h
      refine ⟨plugins, rfl, ?_⟩
      rw [hattempt]
      exact h
    · rintro ⟨plugins', hplugins, h⟩
      obtain rfl := Except.ok.inj hplugins
      rw [hattempt] at h
      exact h

/-- The registry in an answer is that of the assembly. -/
theorem registry_of_answer {a : Assembly} {ds : Diagnostics} {x : q.Answer} {r : Registry}
    (h : q.answer c a ds = .ok x) (hr : q.registry? x = some r) : a.registry = some r := by
  -- compiling asks for the registry; analysis passes on what there is; the rest answers without one
  match q with
  | .compile .rendering | .compile (.backend _) =>
    obtain rfl := Option.some.inj hr
    exact registry_of_requireRegistry_ok h
  | .compile .headers =>
    obtain ⟨y, hy, rfl⟩ := exists_of_map_ok h
    obtain rfl := Option.some.inj hr
    exact registry_of_requireRegistry_ok hy
  | .analyze _ _ | .conformance =>
    obtain rfl := Except.ok.inj h
    exact hr
  | .messages | .plugins => cases hr

/-- **The registry of an answer** is that of the files of the sources, prepared for the question. -/
theorem registry_of_ask {x : q.Answer} {r : Registry} (h : (c.ask cache q).result = .ok x)
    (hr : q.registry? x = some r) :
    ∃ plugins, parseProblems cache c.sources = [] ∧
      (c.ask cache q).cache = (parseAll cache c.sources).1 ∧
      r = (Registry.build ((parsedFiles cache c.sources).map
        (q.settings (c.settings plugins)).prepared) c.dependencies).1 := by
  obtain ⟨plugins, hprepare, hresult, -⟩ := result_ask_eq_ok_iff.mp h
  have hask : c.ask cache q = c.settle (c.attempt cache plugins q) := ask_eq_settle hprepare
  have hq : q ≠ .plugins := by
    rintro rfl
    cases hr
  rw [attempt_eq hq] at hask hresult
  have hregistry := registry_of_answer hresult hr
  rw [assembled_snd] at hregistry
  by_cases hparsed : parseProblems cache c.sources = []
  · rw [if_pos hparsed] at hregistry
    refine ⟨plugins, hparsed, by rw [hask, cache_settle], ?_⟩
    rw [assembleFiles_eq] at hregistry
    exact (Option.some.inj hregistry).symm
  -- without a parse there is no registry to answer with
  · rw [if_neg hparsed] at hregistry
    cases hregistry

end Answers

end Compiler

end TemplateFrontend
