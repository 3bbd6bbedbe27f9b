import TemplateFrontend.Proofs.Compiler.Questions
import TemplateFrontend.Proofs.Interface.UnitText
import TemplateFrontend.Proofs.Registry.Agreement
/-!
# Separate compilation

Some of the sources of a project can be compiled for headers first. The others can then be compiled
with their compilation unit, which was written to a file and read back, in place of those sources, and
their calls are checked as if all sources were compiled together.

* `Compiler.problems` — what is reported when sources are compiled;
* `Compiler.only`, `Compiler.withDependency` — a part of the sources, and one more dependency;
* `checkCalls_parts` — files that are checked with all others, or with the interfaces of those;
* `Compiler.callProblems_only` — the messages that are reported for calls.
-/

namespace TemplateFrontend

open Diagnostics

/-! ### Files in two parts -/

section Parts

variable {s : Settings} {dependencies : List Dependency} {files : FileSet} {first : String → Bool}

/-- Whether a diagnostic is located in one of the files that are not first. -/
def Diagnostic.isOutside (first : String → Bool) (d : Diagnostic) : Bool :=
  d.location.any (! first ·.path)

/-- The problems with calls in some of the files. -/
theorem filter_isOutside_checkCalls (s : Settings) (r : Registry) (fs : FileSet) :
    (fs.flatMap (·.checkCalls s r)).filter (·.isOutside first) =
      (fs.filter (! first ·.path)).flatMap (·.checkCalls s r) := by
  induction fs with
  | nil => rfl
  | cons f fs ih =>
    -- what is found in the calls of a file is located in that file
    have hlocated : ∀ d ∈ f.checkCalls s r, d.isOutside first = ! first f.path := by
      intro d hd
      obtain ⟨-, -, l, hl, hpath⟩ := TemplateFile.of_mem_checkCalls hd
      rw [Diagnostic.isOutside, hl, ← hpath]
      rfl
    rw [List.flatMap_cons, List.filter_append, ih, List.filter_cons]
    cases hfirst : first f.path with
    | true =>
      rw [List.filter_eq_nil_iff.mpr fun d hd => by rw [hlocated d hd, hfirst]; exact Bool.false_ne_true]
      rfl
    | false =>
      rw [List.filter_eq_self.mpr fun d hd => by rw [hlocated d hd, hfirst]; rfl]
      rfl

/-- Preparing files leaves them where they are. -/
theorem filter_map_prepared (s : Settings) (keep : String → Bool) (fs : FileSet) :
    (fs.map s.prepared).filter (keep ·.path) = (fs.filter (keep ·.path)).map s.prepared := by
  rw [List.filter_map]
  congr 1
  refine List.filter_congr fun f _ => ?_
  change keep (s.prepared f).path = keep f.path
  rw [(s.prepared_sameKeys f).path_eq]

/-- Templates of files whose keys are disjoint have different keys after preparation too. -/
theorem disjoint_interfaces (hkeys : ∀ f ∈ files, ∀ g ∈ files, first f.path = true →
      first g.path = false → f.keys.Disjoint g.keys) :
    ∀ t ∈ ((files.map s.prepared).filter (first ·.path)).flatMap (·.interfaces),
      ∀ u ∈ ((files.map s.prepared).filter (! first ·.path)).flatMap (·.interfaces),
        t.key ≠ u.key := by
  -- the key of an interface is that of a template in some file, before preparation too
  have hmem : ∀ (keep : String → Bool) {t : Interface},
      t ∈ ((files.map s.prepared).filter (keep ·.path)).flatMap (·.interfaces) →
        ∃ f ∈ files, keep f.path = true ∧ t.key ∈ f.keys := by
    intro keep t ht
    obtain ⟨f', hf', ht⟩ := List.mem_flatMap.mp ht
    obtain ⟨hf', hkeep⟩ := List.mem_filter.mp hf'
    obtain ⟨f, hf, rfl⟩ := List.mem_map.mp hf'
    have hsame := s.prepared_sameKeys f
    obtain ⟨-, -, p, hp, hkey⟩ := TemplateFile.exists_of_mem_interfaces ht
    refine ⟨f, hf, hsame.path_eq ▸ hkeep, ?_⟩
    rw [← hsame.keys_eq, hkey]
    exact TemplateFile.key_mem_keys hp
  intro t ht u hu heq
  obtain ⟨f, hf, hfirst, htkey⟩ := hmem first ht
  obtain ⟨g, hg, hsecond, hukey⟩ := hmem (! first ·) hu
  exact hkeys f hf g hg hfirst (by simpa using hsecond) htkey (heq ▸ hukey)

/-- Registries that say the same about callees report the same problems in calls. -/
theorem flatMap_checkCalls_congr {r r' : Registry} (h : r.CalledAlike r') (hr : r.Distinct)
    (hr' : r'.Distinct) (s : Settings) (fs : FileSet) :
    fs.flatMap (·.checkCalls s r) = fs.flatMap (·.checkCalls s r') := by
  congr 1
  funext f
  exact f.checkCalls_congr h hr hr' s

/-- **Two parts of the files.** The calls in the files of the second part are checked with all files as
with the interfaces of those of the first part, as a direct dependency. -/
theorem checkCalls_parts (path : String) (hpaths : ∀ f ∈ files, f.path ≠ "")
    (hfirst : (Registry.build ((files.filter (first ·.path)).map s.prepared) dependencies).2 = [])
    (hkeys : ∀ f ∈ files, ∀ g ∈ files, first f.path = true → first g.path = false →
      f.keys.Disjoint g.keys) :
    (ofPass .checkCalls (assembleFiles s dependencies files).2).filter (·.isOutside first) =
      ofPass .checkCalls (assembleFiles s (dependencies ++
        [⟨true, path, (Registry.build ((files.filter (first ·.path)).map s.prepared)
          dependencies).1.unit⟩]) (files.filter (! first ·.path))).2 := by
  rw [ofPass_assembleFiles, ofPass_assembleFiles]
  by_cases hplanned : Pass.checkCalls ∈ s.planned
  · rw [if_pos hplanned, if_pos hplanned, filter_isOutside_checkCalls,
      filter_map_prepared s (! first ·)]
    have hfirst' : (Registry.build ((files.map s.prepared).filter (first ·.path)) dependencies).2 = [] := by
      rwa [filter_map_prepared]
    -- with the unit of the first part, the registry of the second part says the same about callees
    have halike : (Registry.build (files.map s.prepared) dependencies).1.CalledAlike
        (Registry.build ((files.map s.prepared).filter (! first ·.path)) (dependencies ++
          [⟨true, path, (Registry.build ((files.map s.prepared).filter (first ·.path))
            dependencies).1.unit⟩])).1 :=
      Registry.calledAlike_build
        (List.forall_mem_map.mpr fun f hf => (s.prepared_sameKeys f).path_eq ▸ hpaths f hf) hfirst'
        (disjoint_interfaces hkeys)
    rw [filter_map_prepared s first, filter_map_prepared s (! first ·)] at halike
    exact flatMap_checkCalls_congr halike (Registry.distinct_build _ _) (Registry.distinct_build _ _) s _
  -- no check, no problem of it
  · rw [if_neg hplanned, if_neg hplanned]
    rfl

end Parts

/-! ### Settings that prepare files alike -/

/-- The settings of one run and of another with which the passes on single files do the same. -/
structure Settings.PreparesAs (s s' : Settings) : Prop where
  types_eq : s.types = s'.types
  plugins_eq : s.plugins = s'.plugins
  globals_eq : s.globals = s'.globals
  desugarSyntax_eq : s.desugarSyntax = s'.desugarSyntax
  passes_eq : s.planned.filter (·.scope == .file) = s'.planned.filter (·.scope == .file)

/-- Each pass on single files does the same with both settings. -/
theorem Settings.PreparesAs.runPass_eq {s s' : Settings} (h : s.PreparesAs s') (p : Pass)
    (f : TemplateFile) : (f.runPass s p).1 = (f.runPass s' p).1 := by
  -- only these three passes read settings at all
  cases p with
  | resolveGlobals =>
    change (if s.desugarSyntax then _ else f) = if s'.desugarSyntax then _ else f
    rw [h.desugarSyntax_eq, h.globals_eq]
  | resolvePlugins =>
    change f.mapExprs (·.mapParts (.bindFunction s.plugins)) = _
    rw [h.plugins_eq]
    rfl
  | resolveTypes =>
    have htyped : TemplateFile.typeTemplate s = TemplateFile.typeTemplate s' := by
      funext f id t
      unfold TemplateFile.typeTemplate
      rw [h.types_eq, h.plugins_eq]
    change (f.resolveTypes s).1 = (f.resolveTypes s').1
    unfold TemplateFile.resolveTypes
    rw [htyped]
  | _ => rfl

/-- Files come out of their passes the same with both settings. -/
theorem Settings.PreparesAs.prepared_eq {s s' : Settings} (h : s.PreparesAs s') (f : TemplateFile) :
    s.prepared f = s'.prepared f := by
  unfold Settings.prepared
  rw [h.passes_eq]
  generalize s'.planned.filter (·.scope == .file) = ps
  induction ps generalizing f with
  | nil => rw [TemplateFile.runPasses_nil, TemplateFile.runPasses_nil]
  | cons p ps ih =>
    rw [TemplateFile.runPasses_cons, TemplateFile.runPasses_cons, h.runPass_eq]
    exact ih _

/-! ### Compilers -/

/-- The problems that are reported with the answer to a question, none if it could be answered. -/
def Outcome.problems {α : Type} (o : Outcome α) : Diagnostics :=
  match o.result with
  | .ok _ => []
  | .error e => e.diagnostics

namespace Compiler

/-- The problems that are reported when the sources are compiled. -/
def problems (c : Compiler) (cache : Option ParseCache) : Goal → Diagnostics
  | .rendering => (c.compileTemplates cache).problems
  | .backend t => (c.compileFor t cache).problems
  | .headers => (c.compileHeaders cache).problems

/-- The compiler for the sources with some paths. -/
def only (c : Compiler) (keep : String → Bool) : Compiler where
  toProject := { c.toProject with sources := c.sources.filter (keep ·.path) }
  nodup_paths := c.nodup_paths.sublist (List.filter_sublist.map _)

/-- The compiler with one more dependency. -/
def withDependency (c : Compiler) (d : Dependency) : Compiler where
  toProject := { c.toProject with dependencies := c.dependencies ++ [d] }
  nodup_paths := c.nodup_paths

@[simp] theorem sources_only (c : Compiler) (keep : String → Bool) :
    (c.only keep).sources = c.sources.filter (keep ·.path) := rfl

@[simp] theorem dependencies_only (c : Compiler) (keep : String → Bool) :
    (c.only keep).dependencies = c.dependencies := rfl

@[simp] theorem settings_only (c : Compiler) (keep : String → Bool) :
    (c.only keep).settings = c.settings := rfl

@[simp] theorem sources_withDependency (c : Compiler) (d : Dependency) :
    (c.withDependency d).sources = c.sources := rfl

@[simp] theorem dependencies_withDependency (c : Compiler) (d : Dependency) :
    (c.withDependency d).dependencies = c.dependencies ++ [d] := rfl

@[simp] theorem settings_withDependency (c : Compiler) (d : Dependency) :
    (c.withDependency d).settings = c.settings := rfl

/-- The passes on single files do the same whatever the sources are compiled for. -/
theorem settings_preparesAs (c : Compiler) (plugins : Resolver) (g : Goal) :
    (g.settings (c.settings plugins)).PreparesAs (Goal.headers.settings (c.settings plugins)) := by
  -- all passes on single files are enabled, and none is cut off
  have hpasses : ∀ g : Goal, (g.settings (c.settings plugins)).planned.filter (·.scope == .file) =
      [.desugarSyntax, .resolveImports, .resolveGlobals, .resolvePlugins, .resolveTypes,
        .validateVisualElements] := by
    intro g
    -- the cut is behind them whatever the goal is
    have hlimit : Pass.limit (g.settings (c.settings plugins)).cuts = 14 ∨
        Pass.limit (g.settings (c.settings plugins)).cuts = 8 := by
      match g with
      | .rendering | .backend .js | .backend .incrementalDom | .backend .py | .backend .javaInfo =>
        exact .inl rfl
      | .headers => exact .inr rfl
    have henabled : ∀ p : Pass, p.scope = .file →
        (g.settings (c.settings plugins)).enables p = true := by
      intro p hp
      match g, p, hp with
      | .rendering, p, hp | .headers, p, hp | .backend .js, p, hp | .backend .incrementalDom, p, hp
      | .backend .py, p, hp | .backend .javaInfo, p, hp => cases p <;> first | rfl | cases hp
    have hfile : ((Pass.all.take (Pass.limit (g.settings (c.settings plugins)).cuts)).filter
        (·.scope == .file)) = [.desugarSyntax, .resolveImports, .resolveGlobals, .resolvePlugins,
          .resolveTypes, .validateVisualElements] := by
      rcases hlimit with h | h <;> rw [h] <;> decide
    rw [Settings.planned, Pass.planned, List.filter_comm, hfile]
    exact List.filter_eq_self.mpr fun p hp => henabled p (by revert p; decide)
  refine ⟨?_, ?_, ?_, ?_, (hpasses g).trans (hpasses .headers).symm⟩ <;>
    rcases g with _ | (_ | _ | _ | _) | _ <;> rfl

/-- Problems with calls are errors, so they are reported whenever they are found. -/
theorem ofPass_settle {α : Type} {c : Compiler} {cache : Option ParseCache} {ds : Diagnostics}
    {result : Except CompileFailure α} (hresult : ∀ e, result = .error e → e.diagnostics = ds)
    (hcalls : ∀ d ∈ ofPass .checkCalls ds, d.isError = true) :
    ofPass .checkCalls (c.settle (cache, ds, result)).problems = ofPass .checkCalls ds := by
  unfold settle
  cases result with
  | error e => exact congrArg (ofPass .checkCalls) (hresult e rfl)
  | ok a =>
    dsimp only
    split
    · rfl
    -- without an error there was no problem in a call either
    · next hnone =>
      have hnil : ofPass .checkCalls ds = [] := by
        refine List.eq_nil_iff_forall_not_mem.mpr fun d hd => hnone ?_
        exact List.any_eq_true.mpr ⟨d, (mem_ofPass.mp hd).1, hcalls d hd⟩
      split
      · exact hnil.symm
      · split
        · rfl
        · exact hnil.symm

/-- Where there is no registry, everything that was found is reported. -/
theorem diagnostics_requireRegistry {a : Assembly} {ds : Diagnostics} {e : CompileFailure}
    (h : requireRegistry a ds = .error e) : e.diagnostics = ds := by
  unfold requireRegistry at h
  split at h
  · obtain rfl := Except.error.inj h
    rfl
  · split at h
    · cases h
    · obtain rfl := Except.error.inj h
      rfl

/-- The problems with calls in a run are those of the files, if all sources parse. -/
theorem ofPass_assembled (c : Compiler) (s : Settings) (stripDocs : Bool)
    (cache : Option ParseCache) : ofPass .checkCalls (c.assembled s stripDocs cache).2.2 =
      if parseProblems cache c.sources = [] then
        ofPass .checkCalls (assembleFiles s c.dependencies (parsedFiles cache c.sources)).2
      else [] := by
  rw [assembled_snd]
  split
  · rfl
  · refine ofPass_eq_nil fun d hd => ?_
    obtain ⟨source, -, e, -, rfl⟩ := mem_parseProblems.mp hd
    exact (by decide : parsePhase ≠ Pass.checkCalls.name)

/-- Problems with calls are errors. -/
theorem isError_of_mem_ofPass {c : Compiler} {s : Settings} {stripDocs : Bool}
    {cache : Option ParseCache} {d : Diagnostic}
    (h : d ∈ ofPass .checkCalls (c.assembled s stripDocs cache).2.2) : d.isError = true := by
  rw [ofPass_assembled, ofPass_assembleFiles] at h
  split at h
  · split at h
    · obtain ⟨f, -, hf⟩ := List.mem_flatMap.mp h
      exact (TemplateFile.of_mem_checkCalls hf).2.1
    · cases h
  · cases h

/-- What a run reports for calls, if the plugins of the project are declared well. -/
theorem ofPass_withPlugins {α : Type} {c : Compiler} {lenient stripDocs : Bool}
    {cache : Option ParseCache} {run : Resolver → Attempt α} {s : Resolver → Settings}
    (hrun : ∀ plugins, (run plugins).2.1 = (c.assembled (s plugins) stripDocs cache).2.2)
    (hresult : ∀ plugins e, (run plugins).2.2 = .error e → e.diagnostics = (run plugins).2.1) :
    ofPass .checkCalls (c.withPlugins lenient cache run).problems =
      if (Resolver.ofUser lenient c.plugins).2.isEmpty = true then
        ofPass .checkCalls
          (c.assembled (s (Resolver.ofUser lenient c.plugins).1) stripDocs cache).2.2
      else [] := by
  unfold withPlugins
  generalize Resolver.ofUser lenient c.plugins = x
  obtain ⟨plugins, problems⟩ := x
  dsimp only
  split
  · rw [← hrun]
    refine ofPass_settle (hresult plugins) fun d hd => ?_
    rw [hrun] at hd
    exact isError_of_mem_ofPass hd
  -- only problems with plugins are reported, and they belong to no pass
  · refine ofPass_eq_nil fun d hd => ?_
    obtain ⟨p, -, rfl⟩ := List.mem_map.mp hd
    exact (by decide : DeclarationProblem.phase ≠ Pass.checkCalls.name)

/-- With external calls allowed no such problem is reported, and otherwise the answer's are. -/
theorem ofPass_withoutExternalCalls {α : Type} (c : Compiler) (cache : Option ParseCache)
    (answer : Outcome α) : ofPass .checkCalls (c.withoutExternalCalls cache answer).problems =
      if c.allowExternalCalls = some true then [] else ofPass .checkCalls answer.problems := by
  unfold withoutExternalCalls
  split <;> rfl

/-- **What is reported for calls** when sources are compiled, whatever for. -/
theorem ofPass_problems {c : Compiler} {plugins : Resolver}
    (hallow : c.allowExternalCalls ≠ some true)
    (hplugins : Resolver.ofUser c.skipPluginValidation c.plugins = (plugins, []))
    (cache : Option ParseCache) (g : Goal) :
    ofPass .checkCalls (c.problems cache g) =
      if parseProblems cache c.sources = [] then
        ofPass .checkCalls (assembleFiles (g.settings (c.settings plugins)) c.dependencies
          (parsedFiles cache c.sources)).2
      else [] := by
  rw [← ofPass_assembled c _ false]
  -- each kind of question is answered from one run, whose problems are known
  cases g with
  | rendering =>
    change ofPass .checkCalls (c.compileTemplates cache).problems = _
    rw [compileTemplates, ofPass_withoutExternalCalls, if_neg hallow,
      ofPass_withPlugins (s := fun plugins => Goal.rendering.settings (c.settings plugins))
        (fun _ => rfl) fun _ _ => diagnostics_requireRegistry,
      hplugins, ofPass_assembled, ofPass_assembled]
    rfl
  -- only this one does not ask whether external calls are allowed
  | backend t =>
    change ofPass .checkCalls (c.compileFor t cache).problems = _
    rw [compileFor, ofPass_withPlugins (s := fun plugins => (Goal.backend t).settings (c.settings plugins))
        (fun _ => rfl) fun _ _ => diagnostics_requireRegistry, hplugins]
    rfl
  | headers =>
    change ofPass .checkCalls (c.compileHeaders cache).problems = _
    rw [compileHeaders, ofPass_withoutExternalCalls, if_neg hallow,
      ofPass_withPlugins (s := fun plugins => Goal.headers.settings (c.settings plugins))
        (fun _ => rfl) fun plugins e he => diagnostics_requireRegistry (eq_error_of_map he), hplugins]
    rfl

/-- The registry of headers that are compiled without an error. -/
theorem registry_of_compileHeaders_ok {c : Compiler} {cache : Option ParseCache} {h : Headers}
    (hok : (c.compileHeaders cache).result = .ok h) :
    ∃ plugins, c.allowExternalCalls ≠ some true ∧
      Resolver.ofUser c.skipPluginValidation c.plugins = (plugins, []) ∧
      parseProblems cache c.sources = [] ∧
      Registry.build ((parsedFiles cache c.sources).map
        (Goal.headers.settings (c.settings plugins)).prepared) c.dependencies =
          (h.registry, []) := by
  unfold compileHeaders withoutExternalCalls at hok
  split at hok
  · cases hok
  · next hallow =>
    unfold withPlugins at hok
    generalize Resolver.ofUser c.skipPluginValidation c.plugins = x at hok ⊢
    obtain ⟨plugins, problems⟩ := x
    dsimp only at hok ⊢
    split at hok
    · next hproblems =>
      -- the question was answered, so the run had no error
      obtain ⟨hresult, herrors, -⟩ := settle_eq_ok_iff.mp hok
      obtain ⟨r, hr, rfl⟩ := exists_of_map_ok hresult
      obtain ⟨hparsed, hregistry, hfound⟩ := assembled_of_requireRegistry_ok hr
      refine ⟨plugins, hallow, Prod.ext rfl (List.isEmpty_iff.mp hproblems), hparsed,
        Prod.ext hregistry.symm ?_⟩
      -- what registration reports are errors, and there is none
      refine List.eq_nil_iff_forall_not_mem.mpr fun d hd => ?_
      have herror : d.isError = true := ((Registry.build_registers _ _).errors d hd).2
      have hsome : (c.assembled _ false cache).2.2.hasErrors = true :=
        List.any_eq_true.mpr ⟨d, hfound d hd, herror⟩
      exact absurd (herrors.symm.trans hsome) (by decide)
    · cases hok

/-- **Separate compilation.** Some of the sources are compiled for headers without an error. Then the
compilation unit of them, written and read back, can take their place: whatever the others are compiled
for, the problems with calls that are reported in them are the same with all sources and with the unit
as a direct dependency. -/
theorem callProblems_only (c : Compiler) (cache : Option ParseCache) (first : String → Bool)
    (path : String) {h : Headers} (hpaths : ∀ source ∈ c.sources, source.path ≠ "")
    (hheaders : ((c.only first).compileHeaders cache).result = .ok h)
    (hkeys : ∀ source ∈ c.sources, ∀ other ∈ c.sources, first source.path = true →
      first other.path = false → ∀ f g, readSource cache source = .ok f →
        readSource cache other = .ok g → f.keys.Disjoint g.keys)
    (hrange : CompilationUnit.InRange h.registry.unit) :
    ∃ unit, CompilationUnit.parse (CompilationUnit.render h.registry.unit) = .ok unit ∧
      ∀ g : Goal, (ofPass .checkCalls (c.problems cache g)).filter (·.isOutside first) =
        ofPass .checkCalls (((c.only (! first ·)).withDependency ⟨true, path, unit⟩).problems
          cache g) := by
  refine ⟨h.registry.unit, CompilationUnit.parse_render hrange, fun g => ?_⟩
  obtain ⟨plugins, hallow, hplugins, hparsed, hbuild⟩ := registry_of_compileHeaders_ok hheaders
  simp only [sources_only, dependencies_only, settings_only] at hparsed hbuild
  -- the first part parses, so all sources parse if the second part does
  have hparts : parseProblems cache c.sources = [] ↔
      parseProblems cache (c.sources.filter (! first ·.path)) = [] :=
    (parseProblems_eq_nil_iff (first ·.path)).trans (and_iff_right hparsed)
  have hjoint := ofPass_problems (c := c) hallow hplugins cache g
  have hseparate := ofPass_problems hallow hplugins cache g
    (c := (c.only (! first ·)).withDependency ⟨true, path, h.registry.unit⟩)
  by_cases hall : parseProblems cache c.sources = []
  -- the headers of the first part are those that a run for `g` would build
  · have hregistry : Registry.build (((parsedFiles cache c.sources).filter (first ·.path)).map
        (g.settings (c.settings plugins)).prepared) c.dependencies = (h.registry, []) := by
      rw [← parsedFiles_filter, funext (c.settings_preparesAs plugins g).prepared_eq]
      exact hbuild
    have hplaced : ∀ f ∈ parsedFiles cache c.sources, f.path ≠ "" := by
      intro f hf
      obtain ⟨source, hsource, hread⟩ := mem_parsedFiles.mp hf
      exact path_of_readSource hread ▸ hpaths source hsource
    -- no template of the first part is declared once more in the second
    have hdisjoint : ∀ f ∈ parsedFiles cache c.sources, ∀ f' ∈ parsedFiles cache c.sources,
        first f.path = true → first f'.path = false → f.keys.Disjoint f'.keys := by
      intro f hf f' hf' hfirst hsecond
      obtain ⟨source, hsource, hread⟩ := mem_parsedFiles.mp hf
      obtain ⟨other, hother, hread'⟩ := mem_parsedFiles.mp hf'
      rw [path_of_readSource hread] at hfirst
      rw [path_of_readSource hread'] at hsecond
      exact hkeys source hsource other hother hfirst hsecond f f' hread hread'
    have hchecked := checkCalls_parts path hplaced (congrArg Prod.snd hregistry) hdisjoint
    rw [hregistry] at hchecked
    rw [hjoint, if_pos hall, hchecked]
    refine Eq.trans ?_ (hseparate.trans (if_pos (hparts.mp hall))).symm
    rw [sources_withDependency, dependencies_withDependency, settings_withDependency, sources_only,
      dependencies_only, settings_only, parsedFiles_filter cache c.sources (! first ·)]
  · -- a source of the second part does not parse, so no call is checked in either run
    rw [hjoint, if_neg hall]
    exact (hseparate.trans (if_neg fun hsome => hall (hparts.mpr hsome))).symm

/-- A template, and a call in another file that passes a parameter which it does not have. -/
def sample : Compiler where
  toProject := Project.ofSources
    [⟨"a.st", "\x7bnamespace a\x7d\x7btemplate .t\x7d\x7b/template\x7d"⟩,
      ⟨"b.st", "\x7bnamespace b\x7d\x7btemplate .u\x7d\x7bcall a.t\x7d\x7bparam x: 1 /\x7d\x7b/call\x7d\x7b/template\x7d"⟩]
  nodup_paths := by decide

/-- The headers of the sample have one template, at its place in the first file. -/
theorem locations_headers_sample :
    ((sample.only (· == "a.st")).compileHeaders none).result.toOption.map
      (fun h => h.registry.unit.map (·.location)) =
        some [⟨"a.st", ⟨1, 14⟩, ⟨1, 38⟩, some ⟨13, 37⟩⟩] := by decide +kernel

/-- The keys of the two files of the sample. -/
theorem keys_sample {source : SourceText} (hsource : source ∈ sample.sources) {f : TemplateFile}
    (hread : readSource none source = .ok f) :
    f.keys = if source.path == "a.st" then ["a.t"] else ["b.u"] := by
  have hkeys : sample.sources.map (fun source => (readSource none source).toOption.map (·.keys)) =
      sample.sources.map fun source => some (if source.path == "a.st" then ["a.t"] else ["b.u"]) := by
    decide +kernel
  have hsome := List.map_inj_left.mp hkeys source hsource
  rw [hread] at hsome
  exact Option.some.inj hsome

theorem callProblems_only_sample :
    ∃ h, ((sample.only (· == "a.st")).compileHeaders none).result = .ok h ∧
      ∃ unit, CompilationUnit.parse (CompilationUnit.render h.registry.unit) = .ok unit ∧
        ∀ g : Goal, (ofPass .checkCalls (sample.problems none g)).filter (·.isOutside (· == "a.st")) =
          ofPass .checkCalls (((sample.only (! · == "a.st")).withDependency
            ⟨true, "a.json", unit⟩).problems none g) := by
  obtain ⟨h, hok, hlocations⟩ :
      ∃ h, ((sample.only (· == "a.st")).compileHeaders none).result = .ok h ∧
        h.registry.unit.map (·.location) = [⟨"a.st", ⟨1, 14⟩, ⟨1, 38⟩, some ⟨13, 37⟩⟩] :=
    exists_of_toOption_map locations_headers_sample
  refine ⟨h, hok, callProblems_only sample none (· == "a.st") "a.json" (by decide) hok ?_ ?_⟩
  -- the two files declare templates of their own
  · intro source hsource other hother hfirst hsecond f g hf hg
    rw [keys_sample hsource hf, keys_sample hother hg, hfirst, hsecond]
    exact List.disjoint_singleton.mpr (by decide)
  -- the one interface of the unit has a place that survives the text
  · intro t ht
    have hlocation : t.location ∈ h.registry.unit.map (·.location) := List.mem_map_of_mem ht
    rw [hlocations, List.mem_singleton] at hlocation
    rw [hlocation]
    refine ⟨⟨by decide, by decide⟩, ⟨by decide, by decide⟩, fun s hs => ?_⟩
    obtain rfl := Option.some.inj hs
    exact ⟨by decide, by decide⟩

end Compiler

end TemplateFrontend
