import TemplateFrontend.Pipeline
import TemplateFrontend.Proofs.Registry.Keys
import TemplateFrontend.Proofs.Registry.Lookup
/-!
# Phases of diagnostics

Each diagnostic of a run names the stage that found it: parsing, a pass, or the registry. So the
diagnostics of one pass can be told from the others by their phase, and are those that the pass found
when its turn came.

* `Diagnostics.ofPass` — the diagnostics of a pass;
* `TemplateFile.phase_of_mem_runPass`, `FileSet.phase_of_mem_runPass` — what one pass reports;
* `FileSet.runFilePasses_eq` — passes on single files, file by file;
* `ofPass_assembleFiles` — the calls are checked in the files as the passes on single files left them.
-/

namespace TemplateFrontend

/-! ### Diagnostics by phase -/

namespace Diagnostics

/-- The diagnostics of a pass. -/
def ofPass (p : Pass) (ds : Diagnostics) : Diagnostics := ds.filter (·.phase == p.name)

variable {p : Pass} {ds es : Diagnostics}

theorem ofPass_append (p : Pass) (ds es : Diagnostics) :
    ofPass p (ds ++ es) = ofPass p ds ++ ofPass p es :=
  List.filter_append ..

theorem ofPass_eq_self (h : ∀ d ∈ ds, d.phase = p.name) : ofPass p ds = ds :=
  List.filter_eq_self.mpr fun d hd => beq_iff_eq.mpr (h d hd)

theorem ofPass_eq_nil (h : ∀ d ∈ ds, d.phase ≠ p.name) : ofPass p ds = [] :=
  List.filter_eq_nil_iff.mpr fun d hd heq => h d hd (beq_iff_eq.mp heq)

theorem mem_ofPass {d : Diagnostic} : d ∈ ofPass p ds ↔ d ∈ ds ∧ d.phase = p.name := by
  rw [ofPass, List.mem_filter, beq_iff_eq]

end Diagnostics

theorem Pass.name_injective {p q : Pass} (h : p.name = q.name) : p = q := by
  have hp := ofName?_name p
  rw [h, ofName?_name q] at hp
  exact (Option.some.inj hp).symm

/-! ### Passes on single files -/

namespace TemplateFile

/-- What a pass on single files reports has its name as phase. -/
theorem phase_of_mem_runPass {s : Settings} {p : Pass} {f : TemplateFile} {d : Diagnostic}
    (h : d ∈ (f.runPass s p).2) : d.phase = p.name := by
  cases p with
  -- the passes that report build each problem with their own name; all others report nothing
  | resolveImports =>
    obtain ⟨id, -, hid⟩ := List.mem_filterMap.mp h
    split at hid
    · cases hid
    · split at hid
      · cases hid
      · obtain rfl := Option.some.inj hid
        rfl
  | resolveGlobals =>
    change d ∈ (if s.allowUnknownGlobals then ([] : Diagnostics) else _) at h
    split at h
    · cases h
    · obtain ⟨e, -, he⟩ := List.mem_filterMap.mp h
      obtain ⟨name, -, rfl⟩ := Option.map_eq_some_iff.mp he
      rfl
  | resolvePlugins | resolveTypes =>
    obtain ⟨x, -, rfl⟩ := List.mem_map.mp h
    rfl
  | validateVisualElements =>
    obtain ⟨id, -, hid⟩ := List.mem_flatMap.mp h
    obtain ⟨message, -, rfl⟩ := List.mem_map.mp hid
    rfl
  | _ => cases h

theorem phase_of_mem_runPasses {s : Settings} {ps : List Pass} {f : TemplateFile} {d : Diagnostic}
    (h : d ∈ (f.runPasses s ps).2) : ∃ p ∈ ps, d.phase = p.name := by
  induction ps generalizing f with
  | nil => cases h
  | cons p ps ih =>
    rw [runPasses_cons] at h
    obtain h | h := List.mem_append.mp h
    · exact ⟨p, List.mem_cons_self, phase_of_mem_runPass h⟩
    · obtain ⟨q, hq, hphase⟩ := ih h
      exact ⟨q, List.mem_cons_of_mem p hq, hphase⟩

/-- Problems with calls are errors of the file. -/
theorem of_mem_checkCalls {s : Settings} {r : Registry} {f : TemplateFile} {d : Diagnostic}
    (h : d ∈ f.checkCalls s r) : d.phase = Pass.checkCalls.name ∧ d.isError = true ∧
      ∃ l, d.location = some l ∧ l.path = f.path := by
  obtain ⟨id, -, hid⟩ := List.mem_flatMap.mp h
  split at hid
  · obtain ⟨p, -, rfl⟩ := List.mem_map.mp hid
    exact ⟨rfl, rfl, _, rfl, rfl⟩
  · cases hid

end TemplateFile

/-! ### Passes on all files -/

namespace FileSet

/-- What a pass on all files reports has its name as phase. -/
theorem phase_of_mem_runPass {s : Settings} {r : Registry} {p : Pass} {fs : FileSet} {d : Diagnostic}
    (h : d ∈ (FileSet.runPass s r p fs).2) : d.phase = p.name := by
  cases p with
  -- the same over file sets: four passes report, each with its own name
  | checkCalls =>
    obtain ⟨f, -, hf⟩ := List.mem_flatMap.mp h
    exact (TemplateFile.of_mem_checkCalls hf).1
  | conformance =>
    obtain ⟨f, -, hf⟩ := List.mem_flatMap.mp h
    obtain ⟨x, -, rfl⟩ := List.mem_map.mp hf
    rfl
  | checkHeaderVars =>
    obtain ⟨f, -, hf⟩ := List.mem_flatMap.mp h
    obtain ⟨x, -, hx⟩ := List.mem_flatMap.mp hf
    -- variables used without a declaration, then declarations without a use
    obtain hx | hx := List.mem_append.mp hx
    · obtain ⟨v, -, rfl⟩ := List.mem_map.mp hx
      rfl
    · split at hx
      · cases hx
      · obtain ⟨v, -, rfl⟩ := List.mem_map.mp hx
        rfl
  | validateCss =>
    obtain ⟨f, -, hf⟩ := List.mem_flatMap.mp h
    unfold TemplateFile.checkCss at hf
    split at hf
    · cases hf
    · obtain ⟨e, -, he⟩ := List.mem_filterMap.mp hf
      split at he
      · cases he
      · split at he
        · cases he
        · obtain rfl := Option.some.inj he
          rfl
  | _ => cases h

theorem runPasses_cons (s : Settings) (r : Registry) (p : Pass) (ps : List Pass) (fs : FileSet) :
    runPasses s r (p :: ps) fs = ((runPasses s r ps (FileSet.runPass s r p fs).1).1,
      (FileSet.runPass s r p fs).2 ++ (runPasses s r ps (FileSet.runPass s r p fs).1).2) :=
  runPasses_append s r [p] ps fs

theorem phase_of_mem_runPasses {s : Settings} {r : Registry} {ps : List Pass} {fs : FileSet}
    {d : Diagnostic} (h : d ∈ (runPasses s r ps fs).2) : ∃ p ∈ ps, d.phase = p.name := by
  induction ps generalizing fs with
  | nil => cases h
  | cons p ps ih =>
    rw [runPasses_cons] at h
    obtain h | h := List.mem_append.mp h
    · exact ⟨p, List.mem_cons_self, phase_of_mem_runPass h⟩
    · obtain ⟨q, hq, hphase⟩ := ih h
      exact ⟨q, List.mem_cons_of_mem p hq, hphase⟩

/-- Passes on single files look at each file alone. -/
theorem runFilePasses_eq (s : Settings) (ps : List Pass) (fs : FileSet) :
    runFilePasses s ps fs =
      (fs.map fun f => (f.runPasses s ps).1, fs.flatMap fun f => (f.runPasses s ps).2) := by
  induction fs with
  | nil => rfl
  | cons f fs ih =>
    rw [runFilePasses, ih]
    rfl

end FileSet

/-! ### Whole runs -/

namespace Settings

/-- The file as the passes on single files leave it. -/
def prepared (s : Settings) (f : TemplateFile) : TemplateFile :=
  (f.runPasses s (s.planned.filter (·.scope == .file))).1

theorem prepared_sameKeys (s : Settings) (f : TemplateFile) :
    TemplateFile.SameKeys f (s.prepared f) :=
  TemplateFile.runPasses_sameKeys s _ f

/-- If calls are checked, that is the first pass on all files. -/
theorem planned_fileSet (s : Settings) :
    (.checkCalls ∉ s.planned ∧ .checkCalls ∉ s.planned.filter (·.scope == .fileSet)) ∨
      .checkCalls ∈ s.planned ∧ ∃ rest, s.planned.filter (·.scope == .fileSet) = .checkCalls :: rest ∧
        .checkCalls ∉ rest := by
  -- what is planned is a part of the passes over the file set in their one order, with the check of calls
  -- first
  have hsublist := (Pass.planned_sublist s.enables s.cuts).filter (·.scope == .fileSet)
  have hall : Pass.all.filter (·.scope == .fileSet) = .checkCalls :: [.conformance, .checkHeaderVars,
      .validateCss, .optimize, .insertEscapingDirectives, .addDebugAttributes,
      .desugarHtmlAndState] := by decide
  change (s.planned.filter _).Sublist _ at hsublist
  by_cases hmem : .checkCalls ∈ s.planned
  · refine .inr ⟨hmem, ?_⟩
    have hfilter : .checkCalls ∈ s.planned.filter (·.scope == .fileSet) :=
      List.mem_filter.mpr ⟨hmem, rfl⟩
    rw [hall] at hsublist
    generalize s.planned.filter (·.scope == .fileSet) = ps at hsublist hfilter ⊢
    cases hsublist with
    | cons _ h => exact absurd (h.subset hfilter) (by decide)
    | cons_cons _ h => exact ⟨_, rfl, fun hrest => absurd (h.subset hrest) (by decide)⟩
  · exact .inl ⟨hmem, fun h => hmem (List.mem_filter.mp h).1⟩

end Settings

/-- **What a run does** with files that parsed: each is prepared alone, the registry is built from the
prepared files, and they go through the passes on all files together. -/
theorem assembleFiles_eq (s : Settings) (dependencies : List Dependency) (fs : FileSet) :
    assembleFiles s dependencies fs =
      let build := Registry.build (fs.map s.prepared) dependencies
      let run := FileSet.runPasses s build.1 (s.planned.filter (·.scope == .fileSet))
        (fs.map s.prepared)
      ((run.1, build.1), fs.flatMap (fun f => (f.runPasses s (s.planned.filter (·.scope == .file))).2) ++
        build.2 ++ run.2) := by
  unfold assembleFiles
  dsimp only
  rw [FileSet.runFilePasses_eq]
  rfl

/-- **The check of calls** in a run sees the files as the passes on single files left them. -/
theorem ofPass_assembleFiles (s : Settings) (dependencies : List Dependency) (fs : FileSet) :
    Diagnostics.ofPass .checkCalls (assembleFiles s dependencies fs).2 =
      if .checkCalls ∈ s.planned then
        (fs.map s.prepared).flatMap
          (·.checkCalls s (Registry.build (fs.map s.prepared) dependencies).1)
      else [] := by
  -- neither the passes over single files nor the registry report under the name of the check
  have hfile : ∀ d ∈ fs.flatMap fun f => (f.runPasses s (s.planned.filter (·.scope == .file))).2,
      d.phase ≠ Pass.checkCalls.name := by
    intro d hd heq
    obtain ⟨f, -, hd⟩ := List.mem_flatMap.mp hd
    obtain ⟨p, hp, hphase⟩ := TemplateFile.phase_of_mem_runPasses hd
    obtain rfl := Pass.name_injective (hphase.symm.trans heq)
    exact absurd (List.mem_filter.mp hp).2 (by decide)
  have hregistry : ∀ d ∈ (Registry.build (fs.map s.prepared) dependencies).2,
      d.phase ≠ Pass.checkCalls.name := by
    intro d hd
    rw [((Registry.build_registers _ _).errors d hd).1]
    decide
  rw [assembleFiles_eq]
  dsimp only
  rw [Diagnostics.ofPass_append, Diagnostics.ofPass_append, Diagnostics.ofPass_eq_nil hfile,
    Diagnostics.ofPass_eq_nil hregistry, List.nil_append, List.nil_append]
  generalize (Registry.build (fs.map s.prepared) dependencies).1 = r
  -- nor does any pass but the check itself
  have hlater : ∀ {ps : List Pass} {gs : FileSet}, .checkCalls ∉ ps →
      Diagnostics.ofPass .checkCalls (FileSet.runPasses s r ps gs).2 = [] := by
    intro ps gs hps
    refine Diagnostics.ofPass_eq_nil fun d hd heq => ?_
    obtain ⟨p, hp, hphase⟩ := FileSet.phase_of_mem_runPasses hd
    exact hps (Pass.name_injective (hphase.symm.trans heq) ▸ hp)
  -- the check is not planned, or it is the first pass over the file set
  obtain ⟨hmem, hnone⟩ | ⟨hmem, rest, hfirst, hrest⟩ := s.planned_fileSet
  · rw [if_neg hmem, hlater hnone]
  · rw [if_pos hmem, hfirst, FileSet.runPasses_cons, Diagnostics.ofPass_append, hlater hrest,
      List.append_nil]
    exact Diagnostics.ofPass_eq_self fun d hd => FileSet.phase_of_mem_runPass hd

end TemplateFrontend
