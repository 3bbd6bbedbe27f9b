import TemplateFrontend.Proofs.Compiler.Questions
import TemplateFrontend.Proofs.Registry.Agreement
/-!
# The order of the sources

What a compiler makes of its sources does not depend on their order, and what it finds is found in the
order of the sources. Single files are looked at alone. The registry is the only thing that is built
from all of them, and where it would depend on the order there is an error.

* `Assembly.Reordered`, `Question.Reordered` — assemblies and answers that are equal but for the order;
* `FileSet.runPasses_perm` — passes on all files in another order;
* `Compiler.assembled_perm` — a run over sources in another order fails too, or is equal but for it;
* `Compiler.ask_reordered` — answers to questions.
-/

namespace TemplateFrontend

/-! ### Passes on all files -/

namespace FileSet

variable {s : Settings} {r r' : Registry} {fs fs' : FileSet}

/-- A pass on files in another order. Only the check of calls looks at the registry. -/
theorem runPass_perm (hcalls : ∀ f : TemplateFile, f.checkCalls s r = f.checkCalls s r')
    (h : fs.Perm fs') (p : Pass) :
    (FileSet.runPass s r p fs).1.Perm (FileSet.runPass s r' p fs').1 ∧
      (FileSet.runPass s r p fs).2.Perm (FileSet.runPass s r' p fs').2 := by
  cases p with
  | checkCalls => exact ⟨h, h.flatMap fun f _ => .of_eq (hcalls f)⟩
  | conformance | checkHeaderVars | validateCss => exact ⟨h, h.flatMap_right _⟩
  | optimize | insertEscapingDirectives | addDebugAttributes | desugarHtmlAndState =>
    exact ⟨h.map _, .refl _⟩
  | _ => exact ⟨h, .refl _⟩

/-- Several passes on files in another order. -/
theorem runPasses_perm (hcalls : ∀ f : TemplateFile, f.checkCalls s r = f.checkCalls s r')
    (h : fs.Perm fs') (ps : List Pass) :
    (runPasses s r ps fs).1.Perm (runPasses s r' ps fs').1 ∧
      (runPasses s r ps fs).2.Perm (runPasses s r' ps fs').2 := by
  induction ps generalizing fs fs' with
  | nil => exact ⟨h, .refl _⟩
  | cons p ps ih =>
    obtain ⟨hfiles, hfound⟩ := runPass_perm hcalls h p
    obtain ⟨hfiles', hrest⟩ := ih hfiles
    rw [runPasses_cons, runPasses_cons]
    exact ⟨hfiles', hfound.append hrest⟩

end FileSet

/-! ### Assemblies -/

namespace Diagnostics

variable {ds ds' : Diagnostics}

theorem hasErrors_eq_of_perm (h : ds.Perm ds') : hasErrors ds = hasErrors ds' :=
  h.any_eq

theorem hasErrors_of_mem {d : Diagnostic} (hd : d ∈ ds) (h : d.isError = true) : hasErrors ds = true :=
  List.any_eq_true.mpr ⟨d, hd, h⟩

/-- Problems that are all errors, and of which there are some. -/
theorem hasErrors_of_ne_nil (h : ∀ d ∈ ds, d.isError = true) (hne : ds ≠ []) : hasErrors ds = true := by
  obtain ⟨d, hd⟩ := List.exists_mem_of_ne_nil ds hne
  exact hasErrors_of_mem hd (h d hd)

theorem hasErrors_append (ds ds' : Diagnostics) : hasErrors (ds ++ ds') = (hasErrors ds || hasErrors ds') :=
  List.any_append

end Diagnostics

/-- Both assemblies have the same files and the same registry, whatever the order. -/
structure Assembly.Reordered (a a' : Assembly) : Prop where
  files_perm : a.files.Perm a'.files
  registry_rel : Option.Rel Registry.Reordered a.registry a'.registry

/-- Files that are assembled in another order. Either there is an error in both orders, or what comes
of them is the same but for the order. -/
theorem assembleFiles_perm (s : Settings) (dependencies : List Dependency) {fs fs' : FileSet}
    (h : fs.Perm fs') :
    Diagnostics.hasErrors (assembleFiles s dependencies fs).2 = true ∧
        Diagnostics.hasErrors (assembleFiles s dependencies fs').2 = true ∨
      (assembleFiles s dependencies fs).1.1.Perm (assembleFiles s dependencies fs').1.1 ∧
        (assembleFiles s dependencies fs).1.2.Reordered (assembleFiles s dependencies fs').1.2 ∧
        (assembleFiles s dependencies fs).2.Perm (assembleFiles s dependencies fs').2 := by
  have hfiles : (fs.map s.prepared).Perm (fs'.map s.prepared) := h.map s.prepared
  -- a registry that reports anything fails the run
  have herrors : ∀ gs : FileSet, (Registry.build (gs.map s.prepared) dependencies).2 ≠ [] →
      Diagnostics.hasErrors (assembleFiles s dependencies gs).2 = true := by
    intro gs hne
    rw [assembleFiles_eq]
    dsimp only
    rw [Diagnostics.hasErrors_append, Diagnostics.hasErrors_append,
      Diagnostics.hasErrors_of_ne_nil (fun d hd => ((Registry.build_registers _ _).errors d hd).2) hne,
      Bool.or_true, Bool.true_or]
  by_cases hnil : (Registry.build (fs.map s.prepared) dependencies).2 = []
  · have hnil' := Registry.build_snd_eq_nil_of_perm hfiles hnil
    have hregistry := Registry.reordered_build hfiles hnil
    -- calls are checked against registries that answer alike
    have hcalls : ∀ f : TemplateFile,
        f.checkCalls s (Registry.build (fs.map s.prepared) dependencies).1 =
          f.checkCalls s (Registry.build (fs'.map s.prepared) dependencies).1 :=
      TemplateFile.checkCalls_congr hregistry.calledAlike (Registry.distinct_build _ _)
        (Registry.distinct_build _ _) s
    obtain ⟨hrun, hfound⟩ := FileSet.runPasses_perm hcalls hfiles (s.planned.filter (·.scope == .fileSet))
    rw [assembleFiles_eq, assembleFiles_eq]
    dsimp only
    rw [hnil, hnil']
    exact .inr ⟨hrun, hregistry, ((h.flatMap_right _).append_right []).append hfound⟩
  · exact .inl ⟨herrors fs hnil, herrors fs' fun hnil' =>
      hnil (Registry.build_snd_eq_nil_of_perm hfiles.symm hnil')⟩

namespace Compiler

/-- The compiler with its sources in another order. -/
def reordered (c : Compiler) {sources : List SourceText} (h : c.sources.Perm sources) : Compiler where
  toProject := { c.toProject with sources }
  nodup_paths := (h.map SourceText.path).nodup_iff.mp c.nodup_paths

variable {c : Compiler} {sources : List SourceText}

/-- A run over the sources in another order. -/
theorem assembled_perm (h : c.sources.Perm sources) (s : Settings) (stripDocs : Bool)
    (cache : Option ParseCache) :
    let x := (c.assembled s stripDocs cache).2
    let x' := ((c.reordered h).assembled s stripDocs cache).2
    x.2.hasErrors = true ∧ x'.2.hasErrors = true ∨ x.1.Reordered x'.1 ∧ x.2.Perm x'.2 := by
  have hproblems : (parseProblems cache c.sources).Perm (parseProblems cache sources) := h.filterMap _
  have hfiles : (parsedFiles cache c.sources).Perm (parsedFiles cache sources) := h.filterMap _
  intro x x'
  have hx : x = _ := assembled_snd c s stripDocs cache
  have hx' : x' = _ := assembled_snd (c.reordered h) s stripDocs cache
  change x' = if parseProblems cache sources = [] then _ else _ at hx'
  -- sources that fail to parse fail in every order
  by_cases hparsed : parseProblems cache c.sources = []
  · have hparsed' : parseProblems cache sources = [] := List.nil_perm.mp (hparsed ▸ hproblems)
    rw [if_pos hparsed] at hx
    rw [if_pos hparsed'] at hx'
    rw [hx, hx']
    obtain hfailed | ⟨hrun, hregistry, hfound⟩ := assembleFiles_perm s c.dependencies hfiles
    · exact .inl hfailed
    · refine .inr ⟨⟨?_, .some hregistry⟩, hfound⟩
      -- without its documentation a file is still the same file of the other run
      cases stripDocs with
      | false => exact hrun
      | true => exact hrun.map _
  · have hparsed' : parseProblems cache sources ≠ [] := fun hnil =>
      hparsed (List.perm_nil.mp (hnil ▸ hproblems))
    rw [if_neg hparsed] at hx
    rw [if_neg hparsed'] at hx'
    rw [hx, hx']
    exact .inr ⟨⟨hfiles, .none⟩, hproblems⟩

/-- The registry that is required of an assembly in another order. -/
theorem requireRegistry_perm {a a' : Assembly} {ds ds' : Diagnostics} (ha : a.Reordered a')
    (hds : ds.Perm ds') {r : Compiled} (h : requireRegistry a ds = .ok r) :
    ∃ r', requireRegistry a' ds' = .ok r' ∧ r.files.Perm r'.files ∧ r.registry.Reordered r'.registry := by
  have hregistry := registry_of_requireRegistry_ok h
  have hfiles := files_of_requireRegistry_ok h
  unfold requireRegistry at h ⊢
  rw [Diagnostics.hasErrors_eq_of_perm hds] at h
  split at h
  · cases h
  · next herrors =>
    -- the other run has a registry too, and it is the one related to this
    have hrel := ha.registry_rel
    rw [hregistry] at hrel
    rw [if_neg herrors]
    generalize a'.registry = registry at hrel
    cases hrel with
    | some hrel => exact ⟨_, rfl, hfiles ▸ ha.files_perm, hrel⟩

end Compiler

/-! ### Answers -/

namespace Question

/-- The warnings in an answer. -/
def warnings : (q : Question) → q.Answer → Diagnostics
  | .analyze _ _, a => a.warnings
  | .compile .headers, _ | .compile .rendering, _ | .compile (.backend _), _ | .messages, _
  | .plugins, _ | .conformance, _ => []

/-- Both answers have the same registry, the same files and the same warnings, whatever the order. -/
structure Reordered (q : Question) (x x' : q.Answer) : Prop where
  registry_rel : Option.Rel Registry.Reordered (q.registry? x) (q.registry? x')
  files_perm : (q.files x).Perm (q.files x')
  warnings_perm : (q.warnings x).Perm (q.warnings x')

variable {a a' : Assembly} {ds ds' : Diagnostics}

/-- The answer that an assembly in another order gives. -/
theorem answer_perm (c : Compiler) {q : Question} (ha : a.Reordered a') (hds : ds.Perm ds')
    {x : q.Answer} (hx : q.answer c a ds = .ok x) :
    ∃ x', q.answer c a' ds' = .ok x' ∧ q.Reordered x x' := by
  -- what each question takes from the run: registry and files, one of them, or neither
  match q with
  | .compile .rendering | .compile (.backend _) =>
    obtain ⟨r', hr', hfiles, hregistry⟩ := Compiler.requireRegistry_perm ha hds hx
    exact ⟨r', hr', .some hregistry, hfiles, .refl _⟩
  | .compile .headers =>
    obtain ⟨r, hr, rfl⟩ := exists_of_map_ok hx
    obtain ⟨r', hr', hfiles, hregistry⟩ := Compiler.requireRegistry_perm ha hds hr
    exact ⟨_, congrArg (Except.map _) hr', .some hregistry, hfiles, .refl _⟩
  | .analyze tolerant _ =>
    obtain rfl := Except.ok.inj hx
    refine ⟨_, rfl, ha.registry_rel, ha.files_perm, ?_⟩
    -- either way single problems are kept or dropped, whatever their order
    cases tolerant with
    | true => exact (hds.map _).filter _
    | false => exact hds.filter _
  | .conformance =>
    obtain rfl := Except.ok.inj hx
    exact ⟨a', rfl, ha.registry_rel, ha.files_perm, .refl _⟩
  | .messages => exact ⟨_, rfl, .none, .refl _, .refl _⟩
  | .plugins => exact ⟨_, rfl, .none, .refl _, .refl _⟩

/-- What is reported for an assembly in another order. -/
theorem reports_perm (q : Question) (ha : a.Reordered a') (hds : ds.Perm ds') :
    (q.reports a ds).Perm (q.reports a' ds') := by
  match q with
  | .compile _ | .plugins | .conformance => exact hds
  | .messages => exact hds.append ((ha.files_perm.map _).flatMap_right _)
  | .analyze true _ => exact hds.map _
  | .analyze false _ => exact hds

/-- Errors are reported as errors unless the analysis is tolerant. -/
theorem hasErrors_reports {q : Question} (hq : ∀ desugarSyntax, q ≠ .analyze true desugarSyntax)
    (a : Assembly) (h : ds.hasErrors = true) : (q.reports a ds).hasErrors = true := by
  match q with
  | .compile _ | .plugins | .conformance | .analyze false _ => exact h
  | .messages => exact (Diagnostics.hasErrors_append ..).trans (by rw [h, Bool.true_or])
  | .analyze true desugarSyntax => exact absurd rfl (hq desugarSyntax)

end Question

namespace Compiler

variable {c : Compiler} {sources : List SourceText} {cache : Option ParseCache} {q : Question}

/-- What is written down for an answer is the text of the problems that were found. -/
theorem written_of_ask {x : q.Answer} (h : (c.ask cache q).result = .ok x) :
    (c.ask cache q).written = c.writes (c.found cache q) := by
  obtain ⟨plugins, hprepare, -⟩ := result_ask_eq_ok_iff.mp h
  rw [ask_eq_settle hprepare] at h ⊢
  rw [found, hprepare]
  exact written_of_settle h

theorem prepare_reordered (h : c.sources.Perm sources) (q : Question) :
    (c.reordered h).prepare q = c.prepare q := by
  have hlenient : q.isLenient (c.reordered h) = q.isLenient c := by cases q <;> rfl
  have hallow : (c.reordered h).allowExternalCalls = c.allowExternalCalls := rfl
  have hplugins : (c.reordered h).plugins = c.plugins := rfl
  rw [prepare, hlenient, hallow, hplugins, prepare]

/-- An attempt to answer a question from the sources in another order. Both report an error, or they
come to the same and report the same but for the order. -/
theorem attempt_perm (h : c.sources.Perm sources) (cache : Option ParseCache) (plugins : Resolver)
    (hq : ∀ desugarSyntax, q ≠ .analyze true desugarSyntax) :
    let x := (c.attempt cache plugins q).2
    let x' := ((c.reordered h).attempt cache plugins q).2
    x.1.hasErrors = true ∧ x'.1.hasErrors = true ∨
      x.1.Perm x'.1 ∧ ∀ a, x.2 = .ok a → ∃ a', x'.2 = .ok a' ∧ q.Reordered a a' := by
  intro x x'
  -- the question for the plugins reads no source, so both runs are one
  by_cases hplugins : q = .plugins
  · subst hplugins
    exact .inr ⟨.refl _, fun a ha => ⟨a, ha, .none, .refl _, .refl _⟩⟩
  have hx : x = _ := congrArg Prod.snd (attempt_eq hplugins)
  have hx' : x' = _ := congrArg Prod.snd (attempt_eq hplugins)
  rw [hx, hx']
  obtain ⟨herrors, herrors'⟩ | ⟨ha, hds⟩ :=
    assembled_perm h (q.settings (c.settings plugins)) (q.stripsDocs cache) cache
  · exact .inl ⟨Question.hasErrors_reports hq _ herrors, Question.hasErrors_reports hq _ herrors'⟩
  · exact .inr ⟨Question.reports_perm q ha hds, fun a hok => Question.answer_perm c ha hds hok⟩

/-- An answer is given from the sources in another order too, and is the same but for the order. -/
theorem exists_ask_reordered (h : c.sources.Perm sources)
    (hq : ∀ desugarSyntax, q ≠ .analyze true desugarSyntax) {a : q.Answer}
    (hask : (c.ask cache q).result = .ok a) :
    ∃ a', ((c.reordered h).ask cache q).result = .ok a' ∧ q.Reordered a a' ∧
      (c.found cache q).Perm ((c.reordered h).found cache q) := by
  obtain ⟨plugins, hprepare, hresult, herrors, hwarnings⟩ := result_ask_eq_ok_iff.mp hask
  have hprepare' := (prepare_reordered h q).trans hprepare
  -- this run had no errors, so the other one has none either
  obtain ⟨hsome, -⟩ | ⟨hreports, hanswer⟩ := attempt_perm h cache plugins hq
  · rw [herrors] at hsome
    cases hsome
  · obtain ⟨a', hresult', hsame⟩ := hanswer a hresult
    have herrors' := (Diagnostics.hasErrors_eq_of_perm hreports).symm.trans herrors
    refine ⟨a', result_ask_eq_ok_iff.mpr ⟨plugins, hprepare', hresult', herrors', ?_⟩, hsame, ?_⟩
    -- the warnings of the other run are these in another order
    · refine hwarnings.imp_left fun hnone => ?_
      exact List.nil_perm.mp (hnone ▸ hreports.filter _)
    · rw [found, found, hprepare, hprepare']
      exact hreports

/-- **The order of the sources does not matter.** A question, unless it is a tolerant analysis, is
answered from the sources in one order if it is answered from them in another. Then the registries in
the answers hold the same, the files are the same, and the same problems were found and are written
down, all of it in the order of the sources. -/
theorem ask_reordered (c : Compiler) (h : c.sources.Perm sources) (cache : Option ParseCache)
    (hq : ∀ desugarSyntax, q ≠ .analyze true desugarSyntax) :
    ((∃ a, (c.ask cache q).result = .ok a) ↔ ∃ a', ((c.reordered h).ask cache q).result = .ok a') ∧
      ∀ a a', (c.ask cache q).result = .ok a → ((c.reordered h).ask cache q).result = .ok a' →
        q.Reordered a a' ∧ (c.found cache q).Perm ((c.reordered h).found cache q) ∧
          (c.ask cache q).written = c.writes (c.found cache q) ∧
          ((c.reordered h).ask cache q).written = c.writes ((c.reordered h).found cache q) := by
  refine ⟨⟨fun ⟨a, ha⟩ => ?_, fun ⟨a', ha'⟩ => ?_⟩, fun a a' ha ha' => ?_⟩
  · obtain ⟨a', ha', -⟩ := exists_ask_reordered h hq ha
    exact ⟨a', ha'⟩
  · -- the sources of the other compiler, put back into their order
    obtain ⟨a, ha, -⟩ := exists_ask_reordered (c := c.reordered h) h.symm hq ha'
    exact ⟨a, ha⟩
  · obtain ⟨x, hx, hsame, hfound⟩ := exists_ask_reordered h hq ha
    obtain rfl := Except.ok.inj (hx.symm.trans ha')
    exact ⟨hsame, hfound, written_of_ask ha, written_of_ask ha'⟩

/-- Two sources with templates that call each other. Both declare a parameter that nobody uses. -/
def intertwined : Compiler where
  toProject := Project.ofSources
    [⟨"a.st", "\x7bnamespace a\x7d\x7btemplate .t\x7d\x7b@param? x: ?\x7d\x7bcall b.u /\x7d\x7b/template\x7d"⟩,
      ⟨"b.st", "\x7bnamespace b\x7d\x7btemplate .u\x7d\x7b@param? y: ?\x7d\x7bcall a.t /\x7d\x7b/template\x7d"⟩]
  nodup_paths := by decide

/-- The sources in the other order. -/
def intertwinedReversed : Compiler := intertwined.reordered (List.reverse_perm intertwined.sources).symm

theorem rendering_intertwined :
    (intertwined.ask none (.compile .rendering)).result.toOption.map
        (fun a => a.registry.interfaces.map (·.key)) = some ["a.t", "b.u"] ∧
      (intertwinedReversed.ask none (.compile .rendering)).result.toOption.map
        (fun a => a.registry.interfaces.map (·.key)) = some ["b.u", "a.t"] := by
  decide +kernel

theorem ask_reordered_intertwined :
    ∃ a a' : Compiled, (intertwined.ask none (.compile .rendering)).result = .ok a ∧
      (intertwinedReversed.ask none (.compile .rendering)).result = .ok a' ∧
      a.registry.interfaces.map (·.key) = ["a.t", "b.u"] ∧
      a'.registry.interfaces.map (·.key) = ["b.u", "a.t"] ∧
      Question.Reordered (.compile .rendering) a a' ∧
      (intertwined.found none (.compile .rendering)).Perm (intertwinedReversed.found none (.compile .rendering)) := by
  obtain ⟨a, ha, hkeys⟩ := exists_of_toOption_map rendering_intertwined.1
  obtain ⟨a', ha', hkeys'⟩ := exists_of_toOption_map rendering_intertwined.2
  obtain ⟨hsame, hfound, -⟩ := (ask_reordered intertwined (List.reverse_perm intertwined.sources).symm none
    (q := .compile .rendering) nofun).2 a a' ha ha'
  exact ⟨a, a', ha, ha', hkeys, hkeys', hsame, hfound⟩

end Compiler

end TemplateFrontend
