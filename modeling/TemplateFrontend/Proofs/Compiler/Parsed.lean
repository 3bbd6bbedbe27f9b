import TemplateFrontend.Pipeline
import TemplateFrontend.Proofs.Markup.Progress
/-!
# Parsed sources

Sources of different paths are parsed independently of each other, with a cache or without one: the
cache keeps files under their paths, and what it is filled with for one source is not looked at for
another.

* `parsedFiles`, `parseProblems` — what becomes of each source;
* `parseAll_eq` — that is what parsing all of them gives;
* `parsedFiles_filter` — the files of some of the sources.
-/

namespace TemplateFrontend

/-- The file of one source, from the cache or parsed. -/
def readSource (cache : Option ParseCache) (source : SourceText) : Except SyntaxError TemplateFile :=
  match cache with
  | some c => (c.parse source).2
  | none => parse source

/-- The files of the sources that parse. -/
def parsedFiles (cache : Option ParseCache) (sources : List SourceText) : FileSet :=
  sources.filterMap fun source => (readSource cache source).toOption

/-- The problem of a source that does not parse. -/
def parseProblem? (cache : Option ParseCache) (source : SourceText) : Option Diagnostic :=
  match readSource cache source with
  | .ok _ => none
  | .error e => some (parseProblem source e)

/-- The problems of the sources that do not parse. -/
def parseProblems (cache : Option ParseCache) (sources : List SourceText) : Diagnostics :=
  sources.filterMap (parseProblem? cache)

namespace ParseCache

theorem parse_snd_eq (c : ParseCache) (source : SourceText) :
    (c.parse source).2 = match c.find? source with
      | some f => .ok f
      | none => TemplateFrontend.parse source := by
  unfold parse
  cases c.find? source with
  | some f => rfl
  | none =>
    dsimp only
    split <;> next h => exact h.symm

/-- What is found for a source does not depend on sources of other paths. -/
theorem find?_parse_of_ne (c : ParseCache) {source other : SourceText}
    (h : source.path ≠ other.path) : (c.parse source).1.find? other = c.find? other := by
  unfold parse
  split
  · rfl
  · split
    -- the entry that is added is for another path
    · have hnew : ∀ e : CachedFile, e.source = source → e.isFor other.path other.digest = false := by
        rintro e rfl
        rw [CachedFile.isFor, beq_eq_false_iff_ne.mpr h, Bool.false_and]
      unfold find?
      dsimp only
      rw [List.find?_append, List.find?_singleton, hnew _ rfl, if_neg Bool.false_ne_true,
        Option.or_none]
    · rfl

end ParseCache

theorem path_of_readSource {cache : Option ParseCache} {source : SourceText} {f : TemplateFile}
    (h : readSource cache source = .ok f) : f.path = source.path := by
  cases cache with
  | none => exact path_of_parse h
  | some c =>
    change (c.parse source).2 = .ok f at h
    rw [ParseCache.parse_snd_eq] at h
    split at h
    · next g hfind =>
      obtain rfl := Except.ok.inj h
      -- the text in the cache may be another one, its path is the same
      obtain ⟨t, hpath, -, hparse⟩ := ParseCache.parse_of_find? hfind
      exact (path_of_parse hparse).trans hpath
    · exact path_of_parse h

/-- The cache after one source. -/
def cacheAfter (cache : Option ParseCache) (source : SourceText) : Option ParseCache :=
  cache.map fun c => (c.parse source).1

theorem readSource_cacheAfter {cache : Option ParseCache} {source other : SourceText}
    (h : source.path ≠ other.path) :
    readSource (cacheAfter cache source) other = readSource cache other := by
  cases cache with
  | none => rfl
  | some c =>
    change ((c.parse source).1.parse other).2 = (c.parse other).2
    rw [ParseCache.parse_snd_eq, ParseCache.parse_snd_eq, c.find?_parse_of_ne h]

theorem parseAll_cons (cache : Option ParseCache) (source : SourceText) (rest : List SourceText) :
    (parseAll cache (source :: rest)).2 =
      ((readSource cache source).toOption.toList ++ (parseAll (cacheAfter cache source) rest).2.1,
        (parseProblem? cache source).toList ++ (parseAll (cacheAfter cache source) rest).2.2) := by
  unfold parseProblem?
  cases cache with
  | none =>
    rw [parseAll]
    change _ = ((parse source).toOption.toList ++ (parseAll none rest).2.1, _)
    dsimp only [readSource]
    cases parse source <;> rfl
  | some c =>
    rw [parseAll]
    change _ = ((c.parse source).2.toOption.toList ++ (parseAll (some (c.parse source).1) rest).2.1, _)
    dsimp only [readSource]
    cases (c.parse source).2 <;> rfl

/-- **Each source alone.** Sources of different paths are parsed independently. -/
theorem parseAll_eq {cache : Option ParseCache} {sources : List SourceText}
    (h : (sources.map (·.path)).Nodup) :
    (parseAll cache sources).2 = (parsedFiles cache sources, parseProblems cache sources) := by
  induction sources generalizing cache with
  | nil => rfl
  | cons source rest ih =>
    rw [List.map_cons, List.nodup_cons] at h
    -- the paths differ, so reading the first source changes nothing for the others
    have hsame : ∀ other ∈ rest,
        readSource (cacheAfter cache source) other = readSource cache other := fun other hother =>
      readSource_cacheAfter fun heq => h.1 (heq ▸ List.mem_map_of_mem hother)
    have hfiles : parsedFiles (cacheAfter cache source) rest = parsedFiles cache rest :=
      List.filterMap_congr fun other hother => by rw [hsame other hother]
    have hproblems : parseProblems (cacheAfter cache source) rest = parseProblems cache rest :=
      List.filterMap_congr fun other hother => by rw [parseProblem?, parseProblem?, hsame other hother]
    -- each source gives its file or its problem, at the front of one of the lists
    rw [parseAll_cons, ih h.2, hfiles, hproblems, parsedFiles, parsedFiles, parseProblems,
      parseProblems, List.filterMap_cons, List.filterMap_cons]
    cases (readSource cache source).toOption <;> cases parseProblem? cache source <;> rfl

/-- Some of the sources give their own files. -/
theorem parsedFiles_filter (cache : Option ParseCache) (sources : List SourceText)
    (keep : String → Bool) :
    parsedFiles cache (sources.filter (keep ·.path)) =
      (parsedFiles cache sources).filter (keep ·.path) := by
  unfold parsedFiles
  rw [List.filterMap_filter, List.filter_filterMap]
  refine List.filterMap_congr fun source _ => ?_
  cases hread : readSource cache source with
  | error e => cases keep source.path <;> rfl
  | ok f =>
    change (if keep source.path = true then some f else none) = if keep f.path = true then some f else none
    rw [path_of_readSource hread]

/-- A file that is parsed is that of a source. -/
theorem mem_parsedFiles {cache : Option ParseCache} {sources : List SourceText} {f : TemplateFile} :
    f ∈ parsedFiles cache sources ↔ ∃ source ∈ sources, readSource cache source = .ok f := by
  unfold parsedFiles
  rw [List.mem_filterMap]
  refine exists_congr fun source => and_congr_right fun _ => ?_
  cases readSource cache source <;> simp [Except.toOption]

theorem mem_parseProblems {cache : Option ParseCache} {sources : List SourceText} {d : Diagnostic} :
    d ∈ parseProblems cache sources ↔
      ∃ source ∈ sources, ∃ e, readSource cache source = .error e ∧ d = parseProblem source e := by
  unfold parseProblems parseProblem?
  rw [List.mem_filterMap]
  refine exists_congr fun source => and_congr_right fun _ => ?_
  cases readSource cache source <;> simp [eq_comm]

/-- All sources parse if some of them and the others do. -/
theorem parseProblems_eq_nil_iff {cache : Option ParseCache} {sources : List SourceText}
    (keep : SourceText → Bool) : parseProblems cache sources = [] ↔
      parseProblems cache (sources.filter keep) = [] ∧
        parseProblems cache (sources.filter (! keep ·)) = [] := by
  unfold parseProblems
  simp only [List.filterMap_eq_nil_iff, List.mem_filter, Bool.not_eq_true']
  constructor
  · intro h
    exact ⟨fun source hsource => h source hsource.1, fun source hsource => h source hsource.1⟩
  · rintro ⟨hkept, hleft⟩ source hsource
    cases hkeep : keep source with
    | true => exact hkept source ⟨hsource, hkeep⟩
    | false => exact hleft source ⟨hsource, hkeep⟩

end TemplateFrontend
