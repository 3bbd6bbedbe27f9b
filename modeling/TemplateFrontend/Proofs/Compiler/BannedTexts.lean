import TemplateFrontend.Proofs.Compiler.Separate
import TemplateFrontend.Proofs.Compiler.Forests
import TemplateFrontend.Proofs.Transform.FileTexts
/-!
# Texts that are banned

The rules of a project ban texts node by node, before nodes are joined. When templates are compiled for
JavaScript without an error, no node of the checked files holds a text that is banned; where it turns up
afterwards, it was made up of texts that simplification joined, or it is in a debug attribute.

* `Compiler.checkedFiles`, `Compiler.emittedFile` — the files that are checked, and what becomes of them;
* `Compiler.files_of_compileFor_js` — the files of a compilation, of which none breaks a rule;
* `Compiler.BannedText`, `Compiler.bannedText_of_compileFor_js` — where a banned text turns up.
-/

namespace TemplateFrontend

/-- A text is found if and only if it is somewhere in the other. -/
theorem Text.contains_iff {mark cs : List Char} : Text.contains mark cs = true ↔ mark <:+: cs := by
  unfold contains
  induction cs with
  | nil => cases mark <;> simp [splitAt?]
  | cons c cs ih =>
    rw [splitAt?, List.infix_cons_iff]
    by_cases hstart : mark.isPrefixOf (c :: cs) = true
    · simp [hstart, List.isPrefixOf_iff_prefix.mp hstart]
    · rw [if_neg hstart, Option.isSome_map, ih]
      rw [List.isPrefixOf_iff_prefix] at hstart
      exact (or_iff_right hstart).symm

namespace Compiler

open Forest TemplateFile Diagnostics

/-- The settings for JavaScript, with the plugins of the project. -/
def jsSettings (c : Compiler) : Settings :=
  settingsFor .js (c.settings (Resolver.ofUser c.skipPluginValidation c.plugins).1)

/-- The files that are checked when the sources are compiled for JavaScript. -/
def checkedFiles (c : Compiler) (cache : Option ParseCache) : FileSet :=
  (parsedFiles cache c.sources).map c.jsSettings.prepared

/-- A file simplified, if that is wanted, and escaped. -/
def escapedFile (c : Compiler) (f : TemplateFile) : TemplateFile :=
  (if c.optimize then f.optimize else f).insertEscapingDirectives

/-- What the passes after the checks make of a file. -/
def emittedFile (c : Compiler) (f : TemplateFile) : TemplateFile :=
  if c.addDebugAttributes then (c.escapedFile f).addDebugAttributes else c.escapedFile f

section Files

variable {c : Compiler} {cache : Option ParseCache} {r : Compiled}

/-- The passes on all files for JavaScript. -/
theorem planned_jsSettings (c : Compiler) : ∃ later, c.jsSettings.planned.filter (·.scope == .fileSet) =
    [.checkCalls, .conformance] ++ later ∧ ∀ (registry : Registry) (fs : FileSet),
      (FileSet.runPasses c.jsSettings registry later fs).1 = fs.map c.emittedFile := by
  have hplanned : c.jsSettings.planned = Pass.all.filter c.jsSettings.enables := rfl
  refine ⟨[.checkHeaderVars, .validateCss] ++ ((if c.optimize then [.optimize] else []) ++
    (.insertEscapingDirectives :: if c.addDebugAttributes then [.addDebugAttributes] else [])), ?_, ?_⟩
  · rw [hplanned]
    cases ho : c.optimize <;> cases hd : c.addDebugAttributes <;>
      simp [Pass.all, Settings.enables, jsSettings, settingsFor, settings, ho, hd, Settings.default, Pass.scope]
  · intro registry fs
    unfold emittedFile escapedFile
    cases c.optimize <;> cases c.addDebugAttributes <;>
      simp [FileSet.runPasses, FileSet.runPass, Function.comp_def]

/-- **The files of a compilation** for JavaScript that succeeds. None of the files that are checked breaks a
rule. -/
theorem files_of_compileFor_js (h : (c.compileFor .js cache).result = .ok r) :
    r.files = (c.checkedFiles cache).map c.emittedFile ∧
      ∀ f ∈ c.checkedFiles cache, f.violations c.conformance = [] := by
  have hcompiled : c.compiled c.jsSettings false cache =
      ((c.assembled c.jsSettings false cache).1, (c.assembled c.jsSettings false cache).2.2,
        requireRegistry (c.assembled c.jsSettings false cache).2.1
          (c.assembled c.jsSettings false cache).2.2) := rfl
  -- the plugins are in order, since the question was answered
  have hrun : (c.settle (c.compiled c.jsSettings false cache)).result = .ok r := by
    unfold compileFor withPlugins at h
    unfold jsSettings
    generalize Resolver.ofUser c.skipPluginValidation c.plugins = x at h ⊢
    obtain ⟨plugins, problems⟩ := x
    dsimp only at h
    split at h
    · exact h
    · cases h
  rw [hcompiled] at hrun
  obtain ⟨hresult, herrors, -⟩ := settle_eq_ok_iff.mp hrun
  obtain ⟨hparsed, -, -⟩ := assembled_of_requireRegistry_ok hresult
  have hfiles := files_of_requireRegistry_ok hresult
  rw [assembled_snd, if_pos hparsed] at hfiles herrors
  -- the passes up to the check, and those behind it
  obtain ⟨later, hplanned, hlater⟩ := c.planned_jsSettings
  rw [assembleFiles_eq] at hfiles herrors
  dsimp only at hfiles herrors
  rw [hplanned, FileSet.runPasses_append] at hfiles herrors
  refine ⟨hfiles.trans (hlater _ _), fun f hf => ?_⟩
  -- what breaks a rule is an error, and there is none
  refine List.eq_nil_iff_forall_not_mem.mpr fun v hv => ?_
  refine absurd herrors (Bool.not_eq_false _ ▸ List.any_eq_true.mpr ⟨.errorAt Pass.conformance.name v.2
    (f.location v.1), ?_, rfl⟩)
  refine List.mem_append_right _ (List.mem_append_left _ (List.mem_append_right _ ?_))
  exact List.mem_flatMap.mpr ⟨f, hf, List.mem_map.mpr ⟨v, hv, rfl⟩⟩

theorem rooted_checkedFiles {f : TemplateFile} (hf : f ∈ c.checkedFiles cache) : f.Rooted := by
  obtain ⟨g, hg, rfl⟩ := List.mem_map.mp hf
  obtain ⟨source, -, hread⟩ := mem_parsedFiles.mp hg
  exact (rooted_of_readSource hread).runPasses c.jsSettings _

end Files

/-! ### Texts -/

section Texts

variable {c : Compiler} {f : TemplateFile} {ts : Forest} {s : String}

/-- A file without violations has no text that a rule bans. -/
theorem not_infix_of_violations {rules : Conformance} (h : f.violations rules = [])
    {rule : ConformanceRule} (hrule : rule ∈ rules) {t : String} (ht : rule.banned = .rawText t)
    (hs : s ∈ f.texts) : ¬ t.toList <:+: s.toList := by
  intro hin
  obtain ⟨id, hid, hk⟩ := List.mem_filterMap.mp hs
  have hbans : rule.banned.bansNode (f.kind id) = true := by
    rw [ht, NodeKind.eq_text_of_text? hk]
    exact Text.contains_iff.mpr hin
  refine List.not_mem_nil (h ▸ List.mem_append_left _ (List.mem_flatMap.mpr ⟨id, hid, ?_⟩) :
    (f.span id, rule.message) ∈ [])
  exact List.mem_map.mpr ⟨rule, List.mem_filter.mpr ⟨hrule, hbans⟩, rfl⟩

/-- What becomes of a file up to its debug attributes. -/
theorem planted_escapedFile (h : f.Planted ts) (c : Compiler) :
    (∃ us, (c.escapedFile f).Planted us) ∧ (c.escapedFile f).templates = f.templates ∧
      (c.escapedFile f).texts = if c.optimize then f.optimize.texts else f.texts := by
  unfold escapedFile
  by_cases ho : c.optimize = true
  · rw [if_pos ho, if_pos ho]
    have hopt := h.optimize
    have hr := insertEscapingDirectives_retouched f.optimize
    exact ⟨⟨_, hr.planted hopt⟩, hr.templates_eq.trans h.templates_optimize,
      hopt.texts_insertEscapingDirectives⟩
  · rw [if_neg ho, if_neg ho]
    have hr := insertEscapingDirectives_retouched f
    exact ⟨⟨_, hr.planted h⟩, hr.templates_eq, h.texts_insertEscapingDirectives⟩

/-- The texts of a file after the last passes. -/
theorem mem_texts_emittedFile (h : f.Planted ts) (c : Compiler) : s ∈ (c.emittedFile f).texts ↔
    (s ∈ if c.optimize then f.optimize.texts else f.texts) ∨
      (c.addDebugAttributes = true ∧ ∃ id ∈ f.templates, (c.escapedFile f).debugText? id = some s) := by
  obtain ⟨⟨us, hus⟩, htemplates, htexts⟩ := planted_escapedFile h c
  unfold emittedFile
  by_cases hd : c.addDebugAttributes = true
  · rw [if_pos hd, hus.mem_texts_addDebugAttributes, htexts, htemplates, and_iff_right hd]
  · rw [if_neg hd, htexts, or_iff_left fun hdebug => hd hdebug.1]

/-- **A text that is banned**, in a file before and after the last passes. -/
structure BannedText (c : Compiler) (t : String) (f : TemplateFile) : Prop where
  /-- No text of the file that is checked has it. -/
  not_infix : ∀ s ∈ f.texts, ¬ t.toList <:+: s.toList
  /-- A run that has it becomes a text that has it, if the file is simplified. -/
  exists_of_run : c.optimize = true → ∀ id ∈ f.templates, ∀ run ∈ f.textRuns id,
    t.toList <:+: run.toList → ∃ s ∈ (c.emittedFile f).texts, t.toList <:+: s.toList
  /-- A debug attribute is a text like any other. -/
  mem_of_debug : c.addDebugAttributes = true → ∀ id ∈ f.templates, ∀ s,
    (c.escapedFile f).debugText? id = some s → s ∈ (c.emittedFile f).texts
  /-- No other text has it: the text is a run that has it, or one with repeated text behind it, or a debug
  attribute. -/
  only : ∀ s ∈ (c.emittedFile f).texts, t.toList <:+: s.toList →
    (c.optimize = true ∧ ∃ id ∈ f.templates, ∃ run ∈ f.textRuns id, run.toList <+: s.toList ∧
      (t.toList <:+: run.toList ∨ f.repeatsText id = true)) ∨
    (c.addDebugAttributes = true ∧ ∃ id ∈ f.templates, (c.escapedFile f).debugText? id = some s)

theorem bannedText_of_planted (h : f.Planted ts) {t : String}
    (hnone : ∀ s ∈ f.texts, ¬ t.toList <:+: s.toList) : c.BannedText t f where
  not_infix := hnone
  exists_of_run := by
    intro ho id hid run hrun hin
    -- every run becomes the front of one text of the output
    obtain ⟨text, htext, again, rfl, -⟩ := exists_mem_of_forall₂ (h.runs_become_texts hid) run hrun
    refine ⟨run ++ again, (mem_texts_emittedFile h c).mpr (.inl ?_), ?_⟩
    · rw [if_pos ho]
      exact h.mem_texts_optimize.mpr ⟨id, hid, htext⟩
    · rw [String.toList_append]
      exact hin.trans (List.infix_append' [] _ _)
  mem_of_debug hd id hid s hs := (mem_texts_emittedFile h c).mpr (.inr ⟨hd, id, hid, hs⟩)
  only := by
    intro s hs hin
    obtain hs | hs := (mem_texts_emittedFile h c).mp hs
    · refine .inl ?_
      by_cases ho : c.optimize = true
      · rw [if_pos ho] at hs
        obtain ⟨id, hid, hs⟩ := h.mem_texts_optimize.mp hs
        -- and every text of the output is a run, with its end repeated in some places
        obtain ⟨run, hrun, again, rfl, hagain⟩ := exists_mem_of_forall₂ (h.runs_become_texts hid).flip s hs
        refine ⟨ho, id, hid, run, hrun, ?_, ?_⟩
        · rw [String.toList_append]
          exact List.prefix_append _ _
        -- only a list that repeats text says more than its run
        · cases hrep : f.repeatsText id with
          | true => exact .inr rfl
          | false =>
            rw [hagain hrep, String.append_empty] at hin
            exact .inl hin
      · rw [if_neg ho] at hs
        exact absurd hin (hnone s hs)
    · exact .inr hs

end Texts

/-- **Banned texts in what is compiled for JavaScript.** If the sources are compiled without an error, no
text that a rule bans is in a file as it was checked. In a compiled file it is where simplification joined
texts to a run that has it, where text was repeated, and in debug attributes, and nowhere else. -/
theorem bannedText_of_compileFor_js {c : Compiler} {cache : Option ParseCache} {r : Compiled}
    (h : (c.compileFor .js cache).result = .ok r) {rule : ConformanceRule} (hrule : rule ∈ c.conformance)
    {t : String} (ht : rule.banned = .rawText t) :
    r.files = (c.checkedFiles cache).map c.emittedFile ∧
      ∀ f ∈ c.checkedFiles cache, c.BannedText t f := by
  obtain ⟨hfiles, hviolations⟩ := files_of_compileFor_js h
  refine ⟨hfiles, fun f hf => ?_⟩
  obtain ⟨ts, hts, -⟩ := rooted_checkedFiles hf
  exact bannedText_of_planted hts fun s hs => not_infix_of_violations (hviolations f hf) hrule ht hs

/-- A template with a text that is banned, in two pieces. -/
def splitScheme : Compiler where
  toProject := { Project.ofSources [⟨"a.st", "\x7bnamespace a\x7d\x7btemplate .t kind=\"text\"\x7d" ++
      "java\x7bnil\x7dscript:\x7b/template\x7d"⟩] with
    conformance := [⟨.rawText "javascript:", "javascript: URLs are banned"⟩] }
  nodup_paths := by decide

theorem compileFor_js_splitScheme : ∃ r, (splitScheme.compileFor .js none).result = .ok r ∧
    (splitScheme.checkedFiles none).map (·.texts) = [["java", "script:"]] ∧
    r.files.map (·.texts) = [["javascript:"]] := by
  have hchecked : (splitScheme.checkedFiles none).map (·.texts) = [["java", "script:"]] := by
    decide +kernel
  have htexts : (splitScheme.compileFor .js none).result.toOption.map (·.files.map (·.texts)) =
      some [["javascript:"]] := by decide +kernel
  obtain ⟨r, hresult, hr⟩ := exists_of_toOption_map htexts
  exact ⟨r, hresult, hchecked, hr⟩

theorem bannedText_of_compileFor_js_splitScheme : ∃ r,
    (splitScheme.compileFor .js none).result = .ok r ∧
      r.files = (splitScheme.checkedFiles none).map splitScheme.emittedFile ∧
      (splitScheme.checkedFiles none).map (·.texts) = [["java", "script:"]] ∧
      ∀ f ∈ splitScheme.checkedFiles none, splitScheme.BannedText "javascript:" f := by
  obtain ⟨r, hresult, hchecked, -⟩ := compileFor_js_splitScheme
  obtain ⟨hfiles, hbanned⟩ :=
    bannedText_of_compileFor_js hresult (List.mem_singleton_self _) (t := "javascript:") rfl
  exact ⟨r, hresult, hfiles, hchecked, hbanned⟩

/-- The text that is banned is compiled, and nothing is reported. -/
theorem compileFor_js_joins_splitScheme : ∃ r rule t,
    (splitScheme.compileFor .js none).result = .ok r ∧ rule ∈ splitScheme.conformance ∧
      rule.banned = .rawText t ∧ t ≠ "" ∧
      ∃ f ∈ r.files, ∃ s ∈ f.texts, t.toList <:+: s.toList := by
  obtain ⟨r, hresult, -, htexts⟩ := compileFor_js_splitScheme
  obtain ⟨f, fs, hfiles, hf, -⟩ := List.map_eq_cons_iff.mp htexts
  refine ⟨r, _, "javascript:", hresult, List.mem_singleton_self _, rfl, by decide, f, ?_, "javascript:",
    ?_, List.infix_refl _⟩
  · rw [hfiles]
    exact List.mem_cons_self
  · rw [hf]
    exact List.mem_singleton_self _

end Compiler

end TemplateFrontend
