import TemplateFrontend.Proofs.Compiler.Histories
import TemplateFrontend.Proofs.Compiler.Truncated
import TemplateFrontend.Proofs.Markup.FileLayout
import TemplateFrontend.Proofs.Tree.AsWritten
/-!
# Sources that do not parse

A run reads its sources one after the other, and a cache is filled on the way. As soon as one of them
does not parse, the run is over when all have been read: what it has is the trees of the others as they
were parsed, without a registry, and one error for each source that does not parse.

What a cache hands out was parsed from a source of the same path and digest. That it was parsed from the
same source is then up to the digests, so it is said apart (`ToldApart`); without a cache there is nothing
to say.

An analysis that is not to write anything in another way has the trees of its sources as written, too: it
plans none of the passes that would change them, and the passes that it does plan write down only what they
find out.

* `readings` — what each source is read as;
* `readings_eq` — that is what it parses to if digests tell sources apart;
* `parse_error_located` — where the error of a source is;
* `assemble_of_error` — what a run with errors has;
* `Pass.isRewrite` — the passes that write the tree in another way;
* `Settings.asWritten_prepared` — what passes on single files leave if none of them is planned;
* `FileSet.runPasses_eq_self` — what passes on all files leave then;
* `Compiler.analyze_asWritten` — the trees of an analysis.
-/

namespace TemplateFrontend

open Text

/-! ### What is read -/

/-- A source with what it is read as. -/
abbrev SourceReading := SourceText × Except SyntaxError TemplateFile

/-- The error of a source that does not parse, at the place of its syntax error. -/
def SourceReading.problem? : SourceReading → Option Diagnostic
  | (_, .ok _) => none
  | (source, .error e) => some ⟨.error, "parse", e.message, some (source.location e.span)⟩

/-- What sources are read as, one after the other. -/
def readings (cache : Option ParseCache) : List SourceText → List SourceReading
  | [] => []
  | source :: rest => (source, readSource cache source) :: readings (cacheAfter cache source) rest

/-- No source has the path and the digest of another one, or of another one that is in the cache. Without a
cache it does not matter. -/
def ToldApart (cache : Option ParseCache) (sources : List SourceText) : Prop :=
  ∀ c, cache = some c → ∀ source ∈ sources, ∀ other,
    other ∈ sources ∨ other ∈ c.entries.map (·.source) →
      other.path = source.path → other.digest = source.digest → other = source

/-- Reading one source leaves the others told apart. -/
theorem ToldApart.tail {cache : Option ParseCache} {source : SourceText} {rest : List SourceText}
    (h : ToldApart cache (source :: rest)) : ToldApart (cacheAfter cache source) rest := by
  intro c' hc' t ht other hother hpath hdigest
  obtain ⟨c, rfl, rfl⟩ := Option.map_eq_some_iff.mp hc'
  refine h c rfl t (List.mem_cons_of_mem _ ht) other ?_ hpath hdigest
  obtain hother | hother := hother
  · exact .inl (List.mem_cons_of_mem _ hother)
  · -- the cache holds what it held, and besides at most the source that was just read
    obtain ⟨e, he, rfl⟩ := List.mem_map.mp hother
    obtain he | rfl := ParseCache.mem_parse he
    · exact .inr (List.mem_map_of_mem he)
    · exact .inl List.mem_cons_self

/-- A source that is told apart is read as it is parsed. -/
theorem ToldApart.readSource_eq {cache : Option ParseCache} {sources : List SourceText}
    (h : ToldApart cache sources) {source : SourceText} (hsource : source ∈ sources) :
    readSource cache source = parse source := by
  cases cache with
  | none => rfl
  | some c =>
    refine readSource_some_eq fun e he hpath hdigest => ?_
    exact h c rfl source hsource _ (.inr (List.mem_map_of_mem he)) hpath hdigest

/-- **Sources that are told apart** are read as they are parsed. -/
theorem readings_eq {cache : Option ParseCache} {sources : List SourceText}
    (h : ToldApart cache sources) :
    readings cache sources = sources.map fun source => (source, parse source) := by
  induction sources generalizing cache with
  | nil => rfl
  | cons source rest ih =>
    rw [readings, List.map_cons, h.readSource_eq List.mem_cons_self, ih h.tail]

/-- Only a source that does not parse is read as an error. -/
theorem parse_of_readSource_error {cache : Option ParseCache} {source : SourceText} {e : SyntaxError}
    (h : readSource cache source = .error e) : parse source = .error e := by
  cases cache with
  | none => exact h
  | some c =>
    change (c.parse source).2 = .error e at h
    rw [ParseCache.parse_snd_eq] at h
    split at h
    · cases h
    · exact h

/-- A source is read as one of its path and digest parses. -/
theorem exists_parse_of_readSource {cache : Option ParseCache} {source : SourceText}
    {f : TemplateFile} (h : readSource cache source = .ok f) :
    ∃ t : SourceText, t.path = source.path ∧ t.digest = source.digest ∧ parse t = .ok f := by
  cases cache with
  | none => exact ⟨source, rfl, rfl, h⟩
  | some c =>
    change (c.parse source).2 = .ok f at h
    rw [ParseCache.parse_snd_eq] at h
    split at h
    · next g hfind =>
      obtain rfl := Except.ok.inj h
      exact ParseCache.parse_of_find? hfind
    · exact ⟨source, rfl, rfl, h⟩

/-- Each reading is that of its source, from the cache as it is then. -/
theorem exists_readSource {cache : Option ParseCache} {sources : List SourceText} {r : SourceReading}
    (h : r ∈ readings cache sources) : ∃ cache', readSource cache' r.1 = r.2 := by
  induction sources generalizing cache with
  | nil => cases h
  | cons source rest ih =>
    obtain rfl | h := List.mem_cons.mp h
    · exact ⟨cache, rfl⟩
    · exact ih h

/-- **What parsing all sources gives**: the files and the problems of their readings, in order. -/
theorem parseAll_eq_readings (cache : Option ParseCache) (sources : List SourceText) :
    (parseAll cache sources).2 = ((readings cache sources).filterMap (·.2.toOption),
      (readings cache sources).filterMap (·.problem?)) := by
  induction sources generalizing cache with
  | nil => rfl
  | cons source rest ih =>
    rw [parseAll_cons, ih, readings, List.filterMap_cons, List.filterMap_cons, parseProblem?]
    cases readSource cache source <;> rfl

/-- There is a problem for each source that is read as an error. -/
theorem mem_problems_iff {rs : List SourceReading} {d : Diagnostic} :
    d ∈ rs.filterMap (·.problem?) ↔ ∃ source e, (source, .error e) ∈ rs ∧
      d = ⟨.error, "parse", e.message, some (source.location e.span)⟩ := by
  rw [List.mem_filterMap]
  constructor
  · rintro ⟨⟨source, f | e⟩, hr, hd⟩
    · exact ⟨source, _, hr, (Option.some.inj hd).symm⟩
    · cases hd
  · rintro ⟨source, e, hr, rfl⟩
    exact ⟨_, hr, rfl⟩

/-! ### Where an error is -/

/-- The error of a source that does not parse points at a range of its text, and its location goes from
the line and column where that range starts to those where it stops. -/
theorem parse_error_located {source : SourceText} {e : SyntaxError} (h : parse source = .error e) :
    ∃ before range after, source.content.toList = before ++ range ++ after ∧
      e.span = ⟨byteLength before, byteLength (before ++ range)⟩ ∧
      source.location e.span = ⟨source.path, .after before, .after (before ++ range), some e.span⟩ := by
  have hrun := parse_yields source
  rw [h] at hrun
  exact Span.Fits.exists_location hrun

/-! ### Runs with errors -/

/-- **A source that does not parse stops the run.** Whatever the passes and the dependencies are, a run
over sources of which one is read as an error has no registry, and of the others the trees that they were
read as, in order. It reports one error for each source that is read as an error, in order, and nothing
else. The error is the one that parsing this source gives, and it is located in the source. A tree is what
a source of this path and digest parses to, and that source is no other one if the sources are told apart,
as they always are without a cache. -/
theorem assemble_of_error (cache : Option ParseCache) (sources : List SourceText) :
    let read := readings cache sources
    ((∃ source e, (source, .error e) ∈ read) → ∀ s dependencies stripDocs,
      (assemble s dependencies stripDocs cache sources).2 =
        (⟨read.filterMap (·.2.toOption), none⟩, read.filterMap (·.problem?))) ∧
    (∀ source e, (source, .error e) ∈ read → parse source = .error e ∧
      ∃ before range after, source.content.toList = before ++ range ++ after ∧
        e.span = ⟨byteLength before, byteLength (before ++ range)⟩ ∧
        source.location e.span =
          ⟨source.path, .after before, .after (before ++ range), some e.span⟩) ∧
    (∀ source f, (source, .ok f) ∈ read →
      ∃ t : SourceText, t.path = source.path ∧ t.digest = source.digest ∧ parse t = .ok f) ∧
    (ToldApart cache sources → read = sources.map fun source => (source, parse source)) := by
  intro read
  refine ⟨?_, ?_, ?_, readings_eq⟩
  · rintro ⟨source, e, hread⟩ s dependencies stripDocs
    -- with a problem, only the branch is left in which nothing runs
    have hsome : (parseAll cache sources).2.2.isEmpty = false := by
      rw [parseAll_eq_readings]
      exact List.isEmpty_eq_false_iff.mpr
        (List.ne_nil_of_mem (mem_problems_iff.mpr ⟨source, e, hread, rfl⟩))
    rw [assemble_snd, hsome, if_neg Bool.false_ne_true, parseAll_eq_readings]
  · intro source e hread
    obtain ⟨cache', hsource⟩ := exists_readSource hread
    have hparse := parse_of_readSource_error hsource
    exact ⟨hparse, parse_error_located hparse⟩
  -- a file that is read is that of a source with the same path and digest
  · intro source f hread
    obtain ⟨cache', hsource⟩ := exists_readSource hread
    exact exists_parse_of_readSource hsource

/-- A condition that is not closed, a source that parses, and an expression that breaks off. -/
def broken : List SourceText :=
  [⟨"a.st", "\x7bnamespace a\x7d\x7btemplate .t\x7d\x7bif true\x7dx\x7b/template\x7d"⟩,
    ⟨"b.st", "\x7bnamespace b\x7d\x7btemplate .ok\x7dfine\x7b/template\x7d"⟩,
    ⟨"c.st", "\x7bnamespace c\x7d\x7btemplate .u\x7d\x7b$x +\x7d\x7b/template\x7d"⟩]

/-- Two of the sources are errors, each at its place. -/
theorem readings_broken :
    ((readings (some .empty) broken).filterMap (·.problem?)).map (·.text) =
        ["error: 'if' is never closed (at a.st:1:27)",
          "error: expected an expression, found end of command (at c.st:1:32)"] ∧
      ((readings (some .empty) broken).filterMap (·.2.toOption)).map (·.path) = ["b.st"] := by
  decide +kernel

/-- Two of three sources do not parse, and the file of the other one is left. -/
theorem assemble_of_error_broken :
    let run := assemble (Settings.default default) [] false (some .empty) broken
    run.2.2.map (·.text) = ["error: 'if' is never closed (at a.st:1:27)",
        "error: expected an expression, found end of command (at c.st:1:32)"] ∧
      run.2.1.files.map (·.path) = ["b.st"] ∧ run.2.1.registry.isNone = true := by
  obtain ⟨hproblems, hfiles⟩ := readings_broken
  -- there are problems, so some source gave one
  have herror : ∃ source e, (source, .error e) ∈ readings (some .empty) broken := by
    obtain ⟨d, hd⟩ := List.exists_mem_of_ne_nil
      ((readings (some .empty) broken).filterMap (·.problem?)) fun hnil => by
        rw [hnil] at hproblems
        cases hproblems
    obtain ⟨source, e, hread, -⟩ := mem_problems_iff.mp hd
    exact ⟨source, e, hread⟩
  intro run
  have hrun : run.2 = _ := (assemble_of_error (some .empty) broken).1 herror _ [] false
  rw [hrun]
  exact ⟨hproblems, hfiles, rfl⟩

/-! ### Trees as written -/

/-- Whether the pass writes the tree in another way. -/
def Pass.isRewrite : Pass → Bool
  | .desugarSyntax | .optimize | .insertEscapingDirectives | .addDebugAttributes
  | .desugarHtmlAndState => true
  | _ => false

/-- An analysis without rewrites plans none of these passes. -/
theorem Question.isRewrite_of_mem_planned {s : Settings} {tolerant : Bool} {p : Pass}
    (hp : p ∈ ((Question.analyze tolerant false).settings s).planned) : p.isRewrite = false := by
  have henabled := (List.mem_filter.mp hp).2
  cases p with
  | desugarSyntax | optimize | insertEscapingDirectives | addDebugAttributes | desugarHtmlAndState =>
    cases henabled
  | _ => rfl

variable {s : Settings}

namespace TemplateFile

/-- **One pass on a file.** Constants keep their names if syntax is not to be desugared. -/
theorem asWritten_runPass (hs : s.desugarSyntax = false) {p : Pass} (hp : p.isRewrite = false)
    (f : TemplateFile) : (f.runPass s p).1.asWritten = f.asWritten := by
  cases p with
  | desugarSyntax => cases hp
  | resolveImports => exact f.asWritten_resolveImports
  | resolveGlobals =>
    rw [runPass, resolveGlobals, hs]
    rfl
  | resolvePlugins => exact f.asWritten_resolvePlugins s
  | resolveTypes => exact f.asWritten_resolveTypes s
  | _ => rfl

/-- Several passes on a file. -/
theorem asWritten_runPasses (hs : s.desugarSyntax = false) {ps : List Pass}
    (hps : ∀ p ∈ ps, p.isRewrite = false) (f : TemplateFile) :
    (f.runPasses s ps).1.asWritten = f.asWritten := by
  induction ps generalizing f with
  | nil => rfl
  | cons p ps ih =>
    obtain ⟨hp, hrest⟩ := List.forall_mem_cons.mp hps
    rw [runPasses_cons]
    exact (ih hrest _).trans (asWritten_runPass hs hp f)

end TemplateFile

/-- So a file is as written once it is prepared. -/
theorem Settings.asWritten_prepared (hs : s.desugarSyntax = false)
    (hplanned : ∀ p ∈ s.planned, p.isRewrite = false) (f : TemplateFile) :
    (s.prepared f).asWritten = f.asWritten :=
  f.asWritten_runPasses hs fun p hp => hplanned p (List.mem_filter.mp hp).1

/-- Passes on all files leave them alone if they only check. -/
theorem FileSet.runPasses_eq_self (r : Registry) {ps : List Pass}
    (hps : ∀ p ∈ ps, p.isRewrite = false) (fs : FileSet) : (FileSet.runPasses s r ps fs).1 = fs := by
  induction ps with
  | nil => rfl
  | cons p ps ih =>
    obtain ⟨hp, hrest⟩ := List.forall_mem_cons.mp hps
    have hfirst : (FileSet.runPass s r p fs).1 = fs := by
      cases p with
      | optimize | insertEscapingDirectives | addDebugAttributes | desugarHtmlAndState => cases hp
      | _ => rfl
    rw [runPasses_cons, hfirst]
    exact ih hrest

/-- Each source that parses has its file. -/
theorem forall₂_parsedFiles {cache : Option ParseCache} {sources : List SourceText}
    (h : ∀ source ∈ sources, ∃ f, readSource cache source = .ok f) :
    List.Forall₂ (fun source f => readSource cache source = .ok f) sources
      (parsedFiles cache sources) := by
  induction sources with
  | nil => exact .nil
  | cons source rest ih =>
    obtain ⟨⟨f, hf⟩, hrest⟩ := List.forall_mem_cons.mp h
    rw [parsedFiles, List.filterMap_cons, hf]
    exact .cons hf (ih hrest)

/-- Nothing is a problem if every source parses. -/
theorem parseProblems_eq_nil {cache : Option ParseCache} {sources : List SourceText}
    (h : ∀ source ∈ sources, ∃ f, readSource cache source = .ok f) :
    parseProblems cache sources = [] := by
  rw [parseProblems, List.filterMap_eq_nil_iff]
  intro source hsource
  obtain ⟨f, hf⟩ := h source hsource
  rw [parseProblem?, hf]

/-- **An analysis keeps trees as written.** If the analysis without rewrites has a result and all sources
parse, then it has one file for each source, in order, and that file is the one that the source was read
as, except for the names of templates that calls name directly, for what calls of functions and methods
are bound to, and for the types of parameters, of states and of expressions. What a source is read as is
what it parses to, unless the cache has the file of another source with its path and digest. -/
theorem Compiler.analyze_asWritten {c : Compiler} {cache : Option ParseCache} {tolerant : Bool}
    {a : Analysis} (h : (c.analyze tolerant false cache).result = .ok a)
    (hparsed : ∀ source ∈ c.sources, ∃ f, readSource cache source = .ok f) :
    List.Forall₂ (fun source g => ∃ f, readSource cache source = .ok f ∧ g.asWritten = f.asWritten)
        c.sources a.files ∧
      (ToldApart cache c.sources → ∀ source ∈ c.sources, readSource cache source = parse source) := by
  refine ⟨?_, fun hapart source hsource => hapart.readSource_eq hsource⟩
  obtain ⟨plugins, -, hresult, -⟩ :=
    (@result_ask_eq_ok_iff c cache (.analyze tolerant false) a).mp h
  rw [attempt_eq (nofun : Question.analyze tolerant false ≠ .plugins), assembled_snd,
    if_pos (parseProblems_eq_nil hparsed), assembleFiles_eq] at hresult
  obtain rfl := Except.ok.inj hresult
  -- none of the planned passes is a rewrite
  have hplanned : ∀ p ∈ ((Question.analyze tolerant false).settings (c.settings plugins)).planned,
      p.isRewrite = false := fun p => Question.isRewrite_of_mem_planned
  -- the passes on all files only check
  have hsets : ∀ r fs, (FileSet.runPasses
      ((Question.analyze tolerant false).settings (c.settings plugins)) r
      (((Question.analyze tolerant false).settings (c.settings plugins)).planned.filter
        (·.scope == .fileSet)) fs).1 = fs := fun r fs =>
    FileSet.runPasses_eq_self r (fun p hp => hplanned p (List.mem_filter.mp hp).1) fs
  change List.Forall₂ _ _ (FileSet.runPasses _ _ _ _).1
  rw [hsets, List.forall₂_map_right_iff]
  refine (forall₂_parsedFiles hparsed).imp fun source f hf => ⟨f, hf, ?_⟩
  exact Settings.asWritten_prepared rfl hplanned f

/-- A template that calls another one by a name relative to the namespace. -/
def relative : Compiler where
  toProject := Project.ofSources [⟨"a.st",
    "\x7bnamespace a\x7d\x7btemplate .t\x7d\x7b@param x: string\x7d\x7bcall .u\x7d\x7bparam y: $x /\x7d\x7b/call\x7d" ++
      "\x7b/template\x7d\x7btemplate .u\x7d\x7b@param y: string\x7d\x7b$y\x7d\x7b/template\x7d"⟩]
  nodup_paths := by decide

/-- The templates that the calls of a file name. -/
def TemplateFile.callees (f : TemplateFile) : List String :=
  f.reachable.filterMap fun id => (f.directCall? id).map (·.callee)

/-- Before the analysis the callee is relative, and afterwards it is not. -/
theorem callees_relative :
    (∀ source ∈ relative.sources, (parse source).toOption.map (·.callees) = some [".u"]) ∧
      (relative.analyze false false none).result.toOption.map
        (fun a => a.files.map (·.callees)) = some [["a.u"]] := by
  decide +kernel

/-- The name of the callee is qualified, and the rest of the file is as written. -/
theorem Compiler.analyze_asWritten_relative :
    ∃ (a : Analysis), (relative.analyze false false none).result = .ok a ∧
      a.files.map (·.callees) = [["a.u"]] ∧
      List.Forall₂ (fun source g => ∃ f, readSource none source = .ok f ∧ g.asWritten = f.asWritten)
        relative.sources a.files := by
  obtain ⟨hwritten, hanalyzed⟩ := callees_relative
  obtain ⟨a, ha, hcallees⟩ := exists_of_toOption_map hanalyzed
  refine ⟨a, ha, hcallees, (Compiler.analyze_asWritten ha ?_).1⟩
  intro source hsource
  obtain ⟨f, hf, -⟩ := exists_of_toOption_map (hwritten source hsource)
  exact ⟨f, hf⟩

end TemplateFrontend
