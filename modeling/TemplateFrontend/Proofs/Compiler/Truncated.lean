import TemplateFrontend.Proofs.Compiler.Questions
/-!
# Runs that are cut

Cuts end the list of passes early and are not seen by the passes themselves. So a run with cuts does
what the same run does without them until that comes to the first pass cut off. If this is a pass on
all files, or none, the registry is the same; what was reported by then stays as it is, since later
passes only add to it.

* `Settings.uncut` — the settings without their cuts;
* `FileSet.treesAt`, `Settings.treesAt` — the trees of a run when it comes to a cut;
* `Settings.planned_eq_filter` — the passes that cuts leave;
* `assemble_uncut` — the two runs, from the same point on;
* `assemble_truncates` — runs with cuts, and the headers that are compiled with one.
-/

namespace TemplateFrontend

/-! ### The passes that are left -/

namespace Pass

/-- No limit is behind the last pass. -/
theorem limit_le (cuts : List Cut) : limit cuts ≤ all.length := by
  have hfold : ∀ (cuts : List Cut) (n : Nat), cuts.foldl (fun n c => min n c.limit) n ≤ n := by
    intro cuts
    induction cuts with
    | nil => exact Nat.le_refl
    | cons c cuts ih => exact fun n => Nat.le_trans (ih _) (Nat.min_le_left _ _)
  exact hfold cuts _

/-- The first passes are those with the first positions. -/
theorem take_all {n : Nat} (h : n ≤ all.length) : all.take n = all.filter (·.position < n) := by
  have hall : ∀ n < 15, all.take n = all.filter (·.position < n) := by decide
  exact hall n (Nat.lt_succ_of_le h)

/-- Passes in the order in which they run. -/
def Ordered (ps : List Pass) : Prop := ps.Pairwise fun p q => p.position < q.position

/-- All passes stand in the order of their positions. -/
theorem ordered_all : Ordered all := by
  unfold Ordered
  decide

/-- A pass that is cut off takes all later ones with it. -/
theorem Ordered.filter_cons {limit : Nat} {p : Pass} {ps : List Pass} (h : Ordered (p :: ps)) :
    (p :: ps).filter (·.position < limit) =
      if p.position < limit then p :: ps.filter (·.position < limit) else [] := by
  split
  · next hbefore => exact List.filter_cons_of_pos (by simpa using hbefore)
  · -- the passes after it have higher positions, so none of them is left either
    next hbefore =>
    refine List.filter_eq_nil_iff.mpr fun q hq hlt => ?_
    rw [decide_eq_true_eq] at hlt
    obtain rfl | hq := List.mem_cons.mp hq
    · exact hbefore hlt
    · exact hbefore (Nat.lt_trans (List.rel_of_pairwise_cons h hq) hlt)

/-- What a cut leaves comes first. -/
theorem Ordered.filter_prefix {limit : Nat} {ps : List Pass} (h : Ordered ps) :
    ps.filter (·.position < limit) <+: ps := by
  induction ps with
  | nil => exact List.prefix_refl _
  | cons p ps ih =>
    rw [h.filter_cons]
    split
    · exact (List.prefix_cons_inj p).mpr (ih h.of_cons)
    · exact List.nil_prefix

end Pass

namespace Settings

/-- The settings without their cuts. -/
def uncut (s : Settings) : Settings := { s with cuts := [] }

/-- **The passes that cuts leave** are those before the first pass cut off. -/
theorem planned_eq_filter (s : Settings) :
    s.planned = s.uncut.planned.filter (·.position < Pass.limit s.cuts) := by
  have henables : s.uncut.enables = s.enables := by
    funext p
    cases p <;> rfl
  rw [planned, planned, henables, Pass.planned, Pass.planned, Pass.take_all (Pass.limit_le _),
    List.filter_comm]
  rfl

/-- So do those that are planned. -/
theorem ordered_planned (s : Settings) : Pass.Ordered s.planned :=
  Pass.ordered_all.sublist (Pass.planned_sublist s.enables s.cuts)

end Settings

/-! ### Passes do not see cuts -/

/-- A pass on one file does not look at cuts. -/
theorem TemplateFile.runPass_uncut (s : Settings) (p : Pass) (f : TemplateFile) :
    f.runPass s.uncut p = f.runPass s p := by
  cases p <;> rfl

/-- No run of passes on one file looks at cuts. -/
theorem TemplateFile.runPasses_uncut (s : Settings) (ps : List Pass) (f : TemplateFile) :
    f.runPasses s.uncut ps = f.runPasses s ps := by
  unfold runPasses
  simp only [runPass_uncut]

namespace FileSet

/-- A pass on all files does not look at cuts either. -/
theorem runPass_uncut (s : Settings) (r : Registry) (p : Pass) (fs : FileSet) :
    FileSet.runPass s.uncut r p fs = FileSet.runPass s r p fs := by
  cases p <;> rfl

/-- No run of passes on all files does. -/
theorem runPasses_uncut (s : Settings) (r : Registry) (ps : List Pass) (fs : FileSet) :
    runPasses s.uncut r ps fs = runPasses s r ps fs := by
  unfold runPasses
  simp only [runPass_uncut]

/-! ### The trees of a run at a cut -/

/-- The trees that a run of passes has when it comes to the first pass that is not among the first
`limit` of all passes, or when it ends. -/
def treesAt (s : Settings) (r : Registry) (limit : Nat) : List Pass → FileSet → FileSet
  | [], fs => fs
  | p :: ps, fs =>
    if p.position < limit then treesAt s r limit ps (FileSet.runPass s r p fs).1 else fs

/-- A run that takes the passes up to a limit ends with the trees that a longer run has there. -/
theorem runPasses_filter (s : Settings) (r : Registry) {limit : Nat} {ps : List Pass}
    (hps : Pass.Ordered ps) (fs : FileSet) :
    (runPasses s r (ps.filter (·.position < limit)) fs).1 = treesAt s r limit ps fs := by
  induction ps generalizing fs with
  | nil => rfl
  | cons p ps ih =>
    rw [hps.filter_cons, treesAt]
    split
    · rw [runPasses_cons]
      exact ih hps.of_cons _
    · rfl

/-- A longer run reports the same and then more. -/
theorem reports_prefix (s : Settings) (r : Registry) {ps qs : List Pass} (h : ps <+: qs)
    (fs : FileSet) : (runPasses s r ps fs).2 <+: (runPasses s r qs fs).2 := by
  obtain ⟨rest, rfl⟩ := h
  rw [runPasses_append]
  exact List.prefix_append _ _

end FileSet

/-- The trees of a run over parsed files when it comes to a cut. -/
def Settings.treesAt (s : Settings) (dependencies : List Dependency) (limit : Nat) (fs : FileSet) :
    FileSet :=
  FileSet.treesAt s (Registry.build (fs.map s.prepared) dependencies).1 limit
    (s.planned.filter (·.scope == .fileSet)) (fs.map s.prepared)

/-! ### The two runs -/

namespace Settings

/-- No pass on single files is cut off. -/
def CutsLate (s : Settings) : Prop := ∀ p : Pass, p.scope = .file → p.position < Pass.limit s.cuts

instance (s : Settings) : Decidable s.CutsLate :=
  decidable_of_iff (∀ p ∈ Pass.all, p.scope = .file → p.position < Pass.limit s.cuts)
    ⟨fun h p => h p (Pass.mem_all p), fun h p _ => h p⟩

variable {s : Settings}

/-- Without cuts, none comes too early. -/
theorem cutsLate_uncut (s : Settings) : s.uncut.CutsLate := fun p _ =>
  List.idxOf_lt_length_of_mem (Pass.mem_all p)

/-- The passes on single files are the same with late cuts and without any. -/
theorem filePasses_uncut (h : s.CutsLate) :
    s.planned.filter (·.scope == .file) = s.uncut.planned.filter (·.scope == .file) := by
  rw [planned_eq_filter, List.filter_filter]
  refine List.filter_congr fun p _ => ?_
  cases hscope : p.scope with
  | file => simp [h p hscope]
  | fileSet => rfl

/-- Of the passes on all files those up to the limit are left. -/
theorem fileSetPasses_uncut (s : Settings) :
    s.planned.filter (·.scope == .fileSet) =
      (s.uncut.planned.filter (·.scope == .fileSet)).filter (·.position < Pass.limit s.cuts) := by
  rw [planned_eq_filter, List.filter_comm]

/-- Files are prepared the same with late cuts and without any. -/
theorem prepared_uncut (h : s.CutsLate) : s.uncut.prepared = s.prepared := by
  funext f
  rw [prepared, prepared, TemplateFile.runPasses_uncut, filePasses_uncut h]

end Settings

/-- **A run with cuts** over parsed files has the registry of the run without them, the trees that this
has at the cut, and the first of its reports. -/
theorem assembleFiles_uncut {s : Settings} (h : s.CutsLate) (dependencies : List Dependency)
    (fs : FileSet) :
    (assembleFiles s dependencies fs).1 =
        (s.uncut.treesAt dependencies (Pass.limit s.cuts) fs,
          (assembleFiles s.uncut dependencies fs).1.2) ∧
      (assembleFiles s dependencies fs).2 <+: (assembleFiles s.uncut dependencies fs).2 := by
  have hordered : Pass.Ordered (s.uncut.planned.filter (·.scope == .fileSet)) :=
    s.uncut.ordered_planned.sublist List.filter_sublist
  rw [assembleFiles_eq, assembleFiles_eq, Settings.treesAt, Settings.prepared_uncut h,
    ← Settings.filePasses_uncut h, Settings.fileSetPasses_uncut s]
  -- both runs prepare the files alike, so from here on they share the registry and its reports
  generalize Registry.build (fs.map s.prepared) dependencies = build
  generalize s.uncut.planned.filter (·.scope == .fileSet) = ps at hordered ⊢
  dsimp only
  simp only [TemplateFile.runPasses_uncut, ← FileSet.runPasses_uncut s]
  refine ⟨Prod.ext (FileSet.runPasses_filter s.uncut build.1 hordered _) rfl, ?_⟩
  -- what is reported before the passes on all files is the same
  rw [List.append_assoc, List.append_assoc]
  refine (List.prefix_append_right_inj _).mpr ((List.prefix_append_right_inj _).mpr ?_)
  exact FileSet.reports_prefix s.uncut build.1 hordered.filter_prefix _

/-- The trees of a run over sources when it comes to a cut, as they are handed out. If a source does not
parse, no pass runs. -/
def assembledAt (s : Settings) (dependencies : List Dependency) (stripDocs : Bool)
    (cache : Option ParseCache) (sources : List SourceText) (limit : Nat) : FileSet :=
  let parsed := (parseAll cache sources).2
  if parsed.2.isEmpty then
    let fs := s.treesAt dependencies limit parsed.1
    if stripDocs then fs.map (·.stripDocs) else fs
  else parsed.1

/-- A run over sources, without the cache that it leaves. -/
theorem assemble_snd (s : Settings) (dependencies : List Dependency) (stripDocs : Bool)
    (cache : Option ParseCache) (sources : List SourceText) :
    (assemble s dependencies stripDocs cache sources).2 =
      if (parseAll cache sources).2.2.isEmpty then
        let run := assembleFiles s dependencies (parseAll cache sources).2.1
        (⟨if stripDocs then run.1.1.map (·.stripDocs) else run.1.1, some run.1.2⟩, run.2)
      else (⟨(parseAll cache sources).2.1, none⟩, (parseAll cache sources).2.2) := by
  unfold assemble
  generalize parseAll cache sources = x
  obtain ⟨cache', fs, ds⟩ := x
  cases ds <;> rfl

/-- Documentation that is stripped shows in the files only. -/
theorem assemble_stripDocs (s : Settings) (dependencies : List Dependency) (stripDocs : Bool)
    (cache : Option ParseCache) (sources : List SourceText) :
    (assemble s dependencies stripDocs cache sources).2.1.registry =
        (assemble s dependencies false cache sources).2.1.registry ∧
      (assemble s dependencies stripDocs cache sources).2.2 =
        (assemble s dependencies false cache sources).2.2 := by
  rw [assemble_snd, assemble_snd]
  split <;> exact ⟨rfl, rfl⟩

/-- **A run over sources with cuts** and the one without them. -/
theorem assemble_uncut {s : Settings} (h : s.CutsLate) (dependencies : List Dependency)
    (stripDocs : Bool) (cache : Option ParseCache) (sources : List SourceText) :
    let cut := assemble s dependencies stripDocs cache sources
    let whole := assemble s.uncut dependencies stripDocs cache sources
    cut.2.1.registry = whole.2.1.registry ∧ cut.2.2 <+: whole.2.2 ∧
      cut.2.1.files =
        assembledAt s.uncut dependencies stripDocs cache sources (Pass.limit s.cuts) := by
  dsimp only [assembledAt]
  rw [assemble_snd, assemble_snd]
  split
  -- all sources parse, and passes run in both
  · obtain ⟨hrun, hreports⟩ := assembleFiles_uncut h dependencies (parseAll cache sources).2.1
    dsimp only
    rw [hrun]
    exact ⟨rfl, hreports, rfl⟩
  · exact ⟨rfl, List.prefix_refl _, rfl⟩

namespace Compiler

/-- A run without errors has its registry. -/
theorem requireRegistry_eq_ok {a : Assembly} {ds : Diagnostics} {r : Registry}
    (herrors : ds.hasErrors = false) (hregistry : a.registry = some r) :
    requireRegistry a ds = .ok ⟨a.files, r⟩ := by
  rw [requireRegistry, herrors, hregistry]
  rfl

/-- A front of problems without errors has none. -/
theorem hasErrors_of_prefix {ds es : Diagnostics} (h : ds <+: es) (hes : es.hasErrors = false) :
    ds.hasErrors = false :=
  List.any_eq_false.mpr fun d hd => List.any_eq_false.mp hes d (h.subset hd)

/-- Headers and rendering ask the same of the settings and of the plugins. -/
theorem prepare_headers (c : Compiler) :
    c.prepare (.compile .headers) = c.prepare (.compile .rendering) := by
  have hlenient : Question.isLenient c (.compile .headers) =
      Question.isLenient c (.compile .rendering) := rfl
  rw [prepare, prepare, hlenient]
  rfl

/-- The headers of a compiler are the rendering of its templates, cut before the check of variables. -/
theorem headers_cutsLate (c : Compiler) (plugins : Resolver) :
    ((Question.compile .headers).settings (c.settings plugins)).CutsLate := by
  have hcuts : ((Question.compile .headers).settings (c.settings plugins)).cuts =
      [.before .checkHeaderVars] := rfl
  unfold Settings.CutsLate
  rw [hcuts]
  intro p
  cases p <;> decide

/-- An answer that is compiled for rendering is the assembly of a run without errors. -/
theorem rendering_eq_ok_iff {c : Compiler} {cache : Option ParseCache} {a : Compiled} :
    (c.ask cache (.compile .rendering)).result = .ok a ↔ ∃ plugins,
      c.prepare (.compile .rendering) = .ok plugins ∧
      let run := c.assembled (Goal.rendering.settings (c.settings plugins)) cache.isNone cache
      requireRegistry run.2.1 run.2.2 = .ok a ∧ run.2.2.hasErrors = false ∧
        (run.2.2.warnings = [] ∨ c.features.contains throwOnWarnings = false) := by
  have hask := @result_ask_eq_ok_iff c cache (.compile .rendering) a
  refine hask.trans (exists_congr fun plugins => and_congr_right fun _ => ?_)
  rw [attempt_eq (nofun : Question.compile .rendering ≠ .plugins)]
  exact Iff.rfl

/-- Headers are what such a run has with a cut. -/
theorem headers_eq_ok_iff {c : Compiler} {cache : Option ParseCache} {a : Headers} :
    (c.ask cache (.compile .headers)).result = .ok a ↔ ∃ plugins,
      c.prepare (.compile .headers) = .ok plugins ∧
      let run := c.assembled (Goal.headers.settings (c.settings plugins)) false cache
      ((requireRegistry run.2.1 run.2.2).map fun r => ⟨r.files, r.registry, c.css⟩) = .ok a ∧
        run.2.2.hasErrors = false ∧
        (run.2.2.warnings = [] ∨ c.features.contains throwOnWarnings = false) := by
  have hask := @result_ask_eq_ok_iff c cache (.compile .headers) a
  refine hask.trans (exists_congr fun plugins => and_congr_right fun _ => ?_)
  rw [attempt_eq (nofun : Question.compile .headers ≠ .plugins)]
  exact Iff.rfl

/-- A run with cuts has a registry if the run without them has one, and warns of no more. -/
theorem exists_requireRegistry_of_uncut {s : Settings} (hs : s.CutsLate) {c : Compiler}
    {stripDocs : Bool} {cache : Option ParseCache} {a : Compiled}
    (h : requireRegistry (c.assembled s.uncut stripDocs cache).2.1
      (c.assembled s.uncut stripDocs cache).2.2 = .ok a)
    (herrors : (c.assembled s.uncut stripDocs cache).2.2.hasErrors = false) :
    ∃ files, requireRegistry (c.assembled s false cache).2.1 (c.assembled s false cache).2.2 =
        .ok ⟨files, a.registry⟩ ∧ (c.assembled s false cache).2.2.hasErrors = false ∧
      ((c.assembled s.uncut stripDocs cache).2.2.warnings = [] →
        (c.assembled s false cache).2.2.warnings = []) := by
  unfold assembled at *
  obtain ⟨hregistry, hreports, -⟩ := assemble_uncut hs c.dependencies false cache c.sources
  -- stripping changes only the files of the whole run, which are not needed here
  obtain ⟨hstripped, hreported⟩ :=
    assemble_stripDocs s.uncut c.dependencies stripDocs cache c.sources
  rw [← hreported] at hreports
  have hsome := registry_of_requireRegistry_ok h
  have hnone := hasErrors_of_prefix hreports herrors
  refine ⟨_, requireRegistry_eq_ok hnone (hregistry.trans (hstripped.symm.trans hsome)), hnone, ?_⟩
  exact fun hnil => List.prefix_nil.mp (hnil ▸ hreports.filter _)

/-- **Headers** are compiled wherever templates are compiled for rendering. -/
theorem exists_headers_of_rendering {c : Compiler} {cache : Option ParseCache} {a : Compiled}
    (h : (c.ask cache (.compile .rendering)).result = .ok a) :
    ∃ a' : Headers, (c.ask cache (.compile .headers)).result = .ok a' ∧
      a'.registry = a.registry := by
  obtain ⟨plugins, hprepare, hresult, herrors, hwarnings⟩ := rendering_eq_ok_iff.mp h
  -- the runs differ in the cut, and in whether documentation is stripped from the files
  have hsettings : Goal.rendering.settings (c.settings plugins) =
      (Goal.headers.settings (c.settings plugins)).uncut := rfl
  rw [hsettings] at hresult herrors hwarnings
  obtain ⟨files, hheaders, hnone, hfewer⟩ :=
    exists_requireRegistry_of_uncut (c.headers_cutsLate plugins) hresult herrors
  refine ⟨⟨files, a.registry, c.css⟩, headers_eq_ok_iff.mpr ⟨plugins, ?_, ?_, hnone, ?_⟩, rfl⟩
  · rw [c.prepare_headers, hprepare]
  · exact congrArg (Except.map _) hheaders
  · exact hwarnings.imp_left hfewer

end Compiler

/-- **Cuts only truncate.** If no pass on single files is cut off, a run with cuts builds the registry
of the run without them, its reports are the first ones of that run, and its trees are those that this
run has at the cut. So headers, which are compiled with such a cut, are compiled wherever the same
sources are compiled for rendering, and with the same registry. -/
theorem assemble_truncates :
    (∀ s : Settings, s.CutsLate → ∀ (dependencies : List Dependency) (stripDocs : Bool)
        (cache : Option ParseCache) (sources : List SourceText),
      let cut := assemble s dependencies stripDocs cache sources
      let whole := assemble s.uncut dependencies stripDocs cache sources
      let treesAt := assembledAt s.uncut dependencies stripDocs cache sources
      cut.1 = whole.1 ∧ cut.2.1.registry = whole.2.1.registry ∧ cut.2.2 <+: whole.2.2 ∧
        cut.2.1.files = treesAt (Pass.limit s.cuts) ∧ whole.2.1.files = treesAt Pass.all.length) ∧
    ∀ (c : Compiler) (cache : Option ParseCache) (a : Compiled),
      (c.ask cache (.compile .rendering)).result = .ok a →
        ∃ a' : Headers, (c.ask cache (.compile .headers)).result = .ok a' ∧
          a'.registry = a.registry := by
  refine ⟨fun s hs dependencies stripDocs cache sources => ?_, fun c cache a =>
    Compiler.exists_headers_of_rendering⟩
  obtain ⟨hregistry, hreports, htrees⟩ := assemble_uncut hs dependencies stripDocs cache sources
  -- the whole run is the one whose cut comes after all passes
  obtain ⟨-, -, hwhole⟩ :=
    assemble_uncut s.cutsLate_uncut dependencies stripDocs cache sources
  have hcache := (Compiler.assemble_fst s dependencies stripDocs cache sources).trans
    (Compiler.assemble_fst s.uncut dependencies stripDocs cache sources).symm
  exact ⟨hcache, hregistry, hreports, htrees, hwhole⟩

/-- A template that calls one that nobody declares, and does not use its parameter. -/
def careless : SourceText :=
  ⟨"a.st", "\x7bnamespace a\x7d\x7btemplate .t\x7d\x7b@param x: string\x7d\x7bcall .u /\x7d\x7b/template\x7d"⟩

/-- The settings of a run that ends behind the check of calls. -/
def callsOnly : Settings :=
  { Settings.default default with
    allowExternalCalls := false, cuts := [.before .optimize, .after .checkCalls] }

/-- A template that does not use its parameter, which is only a warning. -/
def idle : Compiler where
  toProject := Project.ofSources
    [⟨"a.st", "\x7bnamespace a\x7d\x7btemplate .t\x7d\x7b@param x: string\x7d\x7b/template\x7d"⟩]
  nodup_paths := by decide

/-- Compiled for rendering, there is one template. -/
theorem keys_rendering_idle :
    (idle.ask none (.compile .rendering)).result.toOption.map
      (fun a => a.registry.interfaces.map (·.key)) = some ["a.t"] := by
  decide +kernel

/-- The cut leaves the first of two problems. -/
theorem assemble_truncates_careless :
    ((assemble callsOnly.uncut [] false none [careless]).2.2.map (·.message) =
        ["call to undefined template 'a.u'", "param 'x' is never used"] ∧
      (assemble callsOnly [] false none [careless]).2.2.map (·.message) =
        ["call to undefined template 'a.u'"] ∧
      (assemble callsOnly [] false none [careless]).2.2 <+:
        (assemble callsOnly.uncut [] false none [careless]).2.2) ∧
    ∃ (a : Compiled) (a' : Headers), a.registry.interfaces.map (·.key) = ["a.t"] ∧
      (idle.ask none (.compile .rendering)).result = .ok a ∧
      (idle.ask none (.compile .headers)).result = .ok a' ∧ a'.registry = a.registry := by
  have hlate : callsOnly.CutsLate := by decide
  obtain ⟨a, hrendering, hkeys⟩ := exists_of_toOption_map keys_rendering_idle
  obtain ⟨a', hheaders, hsame⟩ := assemble_truncates.2 idle none a hrendering
  refine ⟨⟨by decide +kernel, by decide +kernel, ?_⟩, a, a', hkeys, hrendering, hheaders, hsame⟩
  exact (assemble_truncates.1 callsOnly hlate [] false none [careless]).2.2.1

end TemplateFrontend
