import TemplateFrontend.Proofs.Compiler.Questions
/-!
# Histories of a cache

Compilers that share a cache are asked one question after the other. What the cache holds is only ever
added to: a file that was parsed stays as it was parsed, whatever becomes of it in the runs that it is
handed out to. So a question finds of a source what parsing it would give, unless the cache holds
another source with this path and digest.

* `cacheAfter` of one source, `ParseCache.filled` of several, `cacheAfterAll` of questions — how the cache
  changes;
* `exists_cacheAfterAll` — what is in the cache after questions;
* `readSource_cacheAfterAll` — what a source was read as, it is read as later;
* `ask_transparent` — the cache does not show in any outcome.
-/

namespace TemplateFrontend

/-! ### Sources one after the other -/

namespace ParseCache

variable {c c' : ParseCache} {source : SourceText} {sources : List SourceText} {f : TemplateFile}

/-- An entry stays where it is. -/
theorem prefix_parse (c : ParseCache) (source : SourceText) :
    c.entries <+: (c.parse source).1.entries := by
  unfold parse
  split
  · exact List.prefix_refl _
  · split
    · exact List.prefix_append ..
    · exact List.prefix_refl _

/-- A new entry is stored for the source. -/
theorem mem_parse {e : CachedFile} (he : e ∈ (c.parse source).1.entries) :
    e ∈ c.entries ∨ e.source = source := by
  unfold parse at he
  split at he
  · exact .inl he
  · split at he
    · obtain he | he := List.mem_append.mp he
      · exact .inl he
      · obtain rfl := List.mem_singleton.mp he
        exact .inr rfl
    · exact .inl he

/-- What is found stays found. -/
theorem find?_mono (h : c.entries <+: c'.entries) (hf : c.find? source = some f) :
    c'.find? source = some f := by
  obtain ⟨more, hmore⟩ := h
  obtain ⟨e, he, rfl⟩ := Option.map_eq_some_iff.mp hf
  unfold find?
  dsimp only
  rw [← hmore, List.find?_append, he]
  rfl

/-- The cache after several sources. -/
def filled (c : ParseCache) (sources : List SourceText) : ParseCache :=
  sources.foldl (fun c source => (c.parse source).1) c

theorem filled_cons (c : ParseCache) (source : SourceText) (sources : List SourceText) :
    c.filled (source :: sources) = (c.parse source).1.filled sources := rfl

/-- So do all entries when several sources are read. -/
theorem prefix_filled (c : ParseCache) (sources : List SourceText) :
    c.entries <+: (c.filled sources).entries := by
  induction sources generalizing c with
  | nil => exact List.prefix_refl _
  | cons source sources ih => exact (c.prefix_parse source).trans (ih _)

/-- A new entry is one for a source that was read. -/
theorem mem_filled {e : CachedFile} (he : e ∈ (c.filled sources).entries) :
    e ∈ c.entries ∨ e.source ∈ sources := by
  induction sources generalizing c with
  | nil => exact .inl he
  | cons source sources ih =>
    obtain he | he := ih he
    · exact (mem_parse he).imp_right fun h => List.mem_cons.mpr (.inl h)
    · exact .inr (List.mem_cons_of_mem _ he)

/-- Each source that parses is found afterwards. -/
theorem find?_filled (hpaths : (sources.map (·.path)).Nodup) (hsource : source ∈ sources)
    (hread : readSource (some c) source = .ok f) : (c.filled sources).find? source = some f := by
  induction sources generalizing c with
  | nil => cases hsource
  | cons first sources ih =>
    rw [List.map_cons, List.nodup_cons] at hpaths
    rw [filled_cons]
    -- the first source is found from now on; for a later one the first leaves the answer as it was
    obtain rfl | hsource := List.mem_cons.mp hsource
    · exact find?_mono (prefix_filled _ sources) (find?_parse (Prod.ext rfl hread))
    · have hne : first.path ≠ source.path := fun heq =>
        hpaths.1 (heq ▸ List.mem_map_of_mem hsource)
      refine ih hpaths.2 hsource ?_
      rw [← hread]
      exact @readSource_cacheAfter (some c) first source hne

end ParseCache

/-- The cache that parsing leaves is the one filled with the sources. -/
theorem parseAll_fst (cache : Option ParseCache) (sources : List SourceText) :
    (parseAll cache sources).1 = cache.map (·.filled sources) := by
  induction sources generalizing cache with
  | nil => cases cache <;> rfl
  | cons source sources ih =>
    -- whether the first source parses or not, its cache goes to the others
    have hrest : (parseAll cache (source :: sources)).1 =
        (parseAll (cacheAfter cache source) sources).1 := by
      cases cache with
      | none =>
        rw [parseAll]
        dsimp only
        cases parse source <;> rfl
      | some c =>
        rw [parseAll]
        dsimp only
        cases (c.parse source).2 <;> rfl
    rw [hrest, ih]
    cases cache <;> rfl

/-! ### Questions one after the other -/

/-- The cache after questions to compilers that share it. -/
def cacheAfterAll (cache : Option ParseCache) (calls : List (Compiler × Question)) :
    Option ParseCache :=
  calls.foldl (fun cache call => (call.1.ask cache call.2).cache) cache

/-- A question leaves the cache as it was, or fills it with the files of the sources. -/
theorem Compiler.cache_ask (c : Compiler) (cache : Option ParseCache) (q : Question) :
    (c.ask cache q).cache = cache ∨ (c.ask cache q).cache = cache.map (·.filled c.sources) := by
  rw [ask_eq]
  cases c.prepare q with
  | error e => exact .inl rfl
  | ok plugins =>
    dsimp only
    rw [cache_settle]
    -- only the question for the plugins reads no source
    by_cases hq : q = .plugins
    · subst hq
      exact .inl rfl
    · rw [attempt_eq hq]
      exact .inr (parseAll_fst ..)

/-- Without a cache there is none afterwards. -/
theorem cacheAfterAll_none (calls : List (Compiler × Question)) : cacheAfterAll none calls = none := by
  induction calls with
  | nil => rfl
  | cons call calls ih =>
    have hcache : (call.1.ask none call.2).cache = none := by
      obtain h | h := call.1.cache_ask none call.2 <;> exact h
    unfold cacheAfterAll
    rw [List.foldl_cons, hcache]
    exact ih

/-- **The cache after questions** holds what it held, and besides only files of sources of the compilers
that were asked. -/
theorem exists_cacheAfterAll (c : ParseCache) (calls : List (Compiler × Question)) :
    ∃ c', cacheAfterAll (some c) calls = some c' ∧ c.entries <+: c'.entries ∧
      ∀ e ∈ c'.entries, e ∈ c.entries ∨ ∃ call ∈ calls, e.source ∈ call.1.sources := by
  induction calls generalizing c with
  | nil => exact ⟨c, rfl, List.prefix_refl _, fun _ he => .inl he⟩
  | cons call calls ih =>
    -- the first question leaves a cache with more entries
    obtain ⟨c₁, hask, hprefix, hmem⟩ : ∃ c₁, (call.1.ask (some c) call.2).cache = some c₁ ∧
        c.entries <+: c₁.entries ∧ ∀ e ∈ c₁.entries, e ∈ c.entries ∨ e.source ∈ call.1.sources := by
      obtain h | h := call.1.cache_ask (some c) call.2
      · exact ⟨c, h, List.prefix_refl _, fun _ he => .inl he⟩
      · exact ⟨_, h, c.prefix_filled _, fun _ he => ParseCache.mem_filled he⟩
    obtain ⟨c', hcache, hprefix', hmem'⟩ := ih c₁
    refine ⟨c', ?_, hprefix.trans hprefix', fun e he => ?_⟩
    · rw [← hcache, ← hask]
      rfl
    · obtain he | ⟨other, hother, hsource⟩ := hmem' e he
      · exact (hmem e he).imp_right fun h => ⟨call, List.mem_cons_self, h⟩
      · exact .inr ⟨other, List.mem_cons_of_mem _ hother, hsource⟩

/-- **What a source was read as**, it is read as after any further questions to compilers that share the
cache. -/
theorem readSource_cacheAfterAll {cache : Option ParseCache} {c : Compiler}
    (hparsed : parseProblems cache c.sources = []) (calls : List (Compiler × Question))
    {source : SourceText} (hsource : source ∈ c.sources) :
    readSource (cacheAfterAll (parseAll cache c.sources).1 calls) source = readSource cache source := by
  cases cache with
  | none =>
    rw [parseAll_fst, Option.map_none, cacheAfterAll_none]
  | some k =>
    cases hread : readSource (some k) source with
    | error e =>
      -- a source that does not parse would be a problem
      have hproblem : parseProblem source e ∈ parseProblems (some k) c.sources :=
        mem_parseProblems.mpr ⟨source, hsource, e, hread, rfl⟩
      rw [hparsed] at hproblem
      cases hproblem
    | ok f =>
      rw [parseAll_fst, Option.map_some]
      -- later calls add entries and never drop one
      obtain ⟨k', hcache, hprefix, -⟩ := exists_cacheAfterAll (k.filled c.sources) calls
      have hfind := ParseCache.find?_mono hprefix
        (ParseCache.find?_filled c.nodup_paths hsource hread)
      rw [hcache]
      change (k'.parse source).2 = .ok f
      rw [ParseCache.parse_snd_eq, hfind]

/-! ### A cache that does not show -/

/-- A source is read as it is parsed if no entry is one for another source of its path and digest. -/
theorem readSource_some_eq {c : ParseCache} {source : SourceText}
    (h : ∀ e ∈ c.entries, e.source.path = source.path → e.source.digest = source.digest →
      e.source = source) : readSource (some c) source = readSource none source := by
  change (c.parse source).2 = parse source
  rw [ParseCache.parse_snd_eq]
  cases hfind : c.find? source with
  | none => rfl
  | some f =>
    obtain ⟨e, he, rfl⟩ := Option.map_eq_some_iff.mp hfind
    have hfor := List.find?_some he
    rw [CachedFile.isFor, Bool.and_eq_true, beq_iff_eq, beq_iff_eq, e.digest_eq] at hfor
    -- an entry that is found has the path and the digest, so by assumption it has this text
    have hsource := h e (List.mem_of_find?_eq_some he) hfor.1 hfor.2
    dsimp only
    rw [← hsource, e.parse_source]

/-- A source is its path and its content. -/
theorem SourceText.ext {source source' : SourceText} (hpath : source.path = source'.path)
    (hcontent : source.content = source'.content) : source = source' := by
  cases source
  cases source'
  exact congrArg₂ SourceText.mk hpath hcontent

namespace Question

/-- The answer without the documentation in its files, if the question is one for which that is
stripped without a cache. -/
def withoutDocs : (q : Question) → q.Answer → q.Answer
  | .compile .rendering, r => { r with files := r.files.map (·.stripDocs) }
  | .compile .headers, h => h
  | .compile (.backend _), r => r
  | .analyze _ _, a => a
  | .messages, b => b
  | .plugins, u => u
  | .conformance, a => a

end Question

namespace Compiler

variable {c : Compiler} {q : Question}

/-- The registry that is required of an assembly does not depend on its files. -/
theorem requireRegistry_map (change : FileSet → FileSet) (a : Assembly) (ds : Diagnostics) :
    requireRegistry { a with files := change a.files } ds =
      (requireRegistry a ds).map fun r => { r with files := change r.files } := by
  unfold requireRegistry
  split
  · rfl
  · dsimp only
    cases a.registry <;> rfl

/-- Stripping documentation changes the files that a registry is required of, and nothing else. -/
theorem requireRegistry_stripped (c : Compiler) (cache : Option ParseCache) (s : Settings) :
    (c.assembled s true cache).2.2 = (c.assembled s false cache).2.2 ∧
      requireRegistry (c.assembled s true cache).2.1 (c.assembled s true cache).2.2 =
        (requireRegistry (c.assembled s false cache).2.1 (c.assembled s false cache).2.2).map
          fun r => { r with files := r.files.map (·.stripDocs) } := by
  rw [assembled_snd c s true, assembled_snd c s false]
  split
  · refine ⟨rfl, ?_⟩
    dsimp only
    rw [if_pos rfl, if_neg Bool.false_ne_true]
    exact requireRegistry_map (List.map (·.stripDocs)) ⟨_, _⟩ _
  · refine ⟨rfl, ?_⟩
    unfold requireRegistry
    split <;> rfl

/-- A run with an answer that is changed afterwards. -/
theorem settle_map {α : Type} (c : Compiler) (cache cache' : Option ParseCache) (ds : Diagnostics)
    (result : Except CompileFailure α) (change : α → α) :
    (c.settle (cache, ds, result.map change)).result =
        (c.settle (cache', ds, result)).result.map change ∧
      (c.settle (cache, ds, result.map change)).written =
        (c.settle (cache', ds, result)).written := by
  unfold settle
  -- what is written depends on the problems found and on whether there is a result, not on the result
  cases result with
  | error e => exact ⟨rfl, rfl⟩
  | ok a =>
    dsimp only [Except.map]
    cases ds.hasErrors with
    | true => exact ⟨rfl, rfl⟩
    | false =>
      cases ds.warnings.isEmpty with
      | true => exact ⟨rfl, rfl⟩
      | false => cases c.features.contains throwOnWarnings <;> exact ⟨rfl, rfl⟩

/-- A run with a cache from which each source is read as it is parsed. -/
theorem attempt_none (k : ParseCache) (plugins : Resolver)
    (hread : ∀ source ∈ c.sources, readSource (some k) source = readSource none source) :
    (c.attempt none plugins q).2 = ((c.attempt (some k) plugins q).2.1,
      (c.attempt (some k) plugins q).2.2.map q.withoutDocs) := by
  by_cases hq : q = .plugins
  · subst hq
    rfl
  -- so the files are the same,
  have hfiles : parsedFiles (some k) c.sources = parsedFiles none c.sources :=
    List.filterMap_congr fun source hsource => by rw [hread source hsource]
  -- and so are the problems of parsing
  have hproblems : parseProblems (some k) c.sources = parseProblems none c.sources :=
    List.filterMap_congr fun source hsource => by rw [parseProblem?, parseProblem?, hread source hsource]
  -- which is all that an assembly gets from the cache
  have hassembled : ∀ (s : Settings) (strips : Bool),
      (c.assembled s strips none).2 = (c.assembled s strips (some k)).2 := by
    intro s strips
    rw [assembled_snd, assembled_snd, hfiles, hproblems]
  have hsame : ∀ x : Except CompileFailure q.Answer, (∀ a, q.withoutDocs a = a) →
      x = x.map q.withoutDocs := by
    rintro (e | a) h
    · rfl
    · exact congrArg Except.ok (h a).symm
  rw [attempt_eq hq, attempt_eq hq]
  cases q with
  | plugins => exact absurd rfl hq
  | compile target =>
    cases target with
    | rendering =>
      obtain ⟨hds, hregistry⟩ := c.requireRegistry_stripped (some k)
        (Question.settings (.compile .rendering) (c.settings plugins))
      dsimp only [Question.stripsDocs, Option.isNone]
      rw [hassembled]
      exact Prod.ext hds hregistry
    | headers | backend =>
      dsimp only [Question.stripsDocs]
      rw [hassembled]
      exact Prod.ext rfl (hsame _ fun _ => rfl)
  | analyze | messages | conformance =>
    dsimp only [Question.stripsDocs]
    rw [hassembled]
    exact Prod.ext rfl (hsame _ fun _ => rfl)

end Compiler

/-- No two different contents of the sources of the compilers have the same digest. -/
def CollisionFree (calls : List (Compiler × Question)) : Prop :=
  ∀ call ∈ calls, ∀ other ∈ calls, ∀ source ∈ call.1.sources, ∀ source' ∈ other.1.sources,
    source.digest = source'.digest → source.content = source'.content

/-- **The cache does not show.** Compilers that share a cache, empty at first, are asked one question
after the other, and no two of the contents involved have the same digest. Then each outcome is the one
that there is without a cache, which strips the documentation from files for rendering, and whatever is
in the cache is what its source parses to. -/
theorem ask_transparent {calls : List (Compiler × Question)} (hdigests : CollisionFree calls) :
    (∀ before c q after, calls = before ++ (c, q) :: after →
      (c.ask none q).result =
          (c.ask (cacheAfterAll (some .empty) before) q).result.map q.withoutDocs ∧
        (c.ask none q).written = (c.ask (cacheAfterAll (some .empty) before) q).written ∧
        c.found none q = c.found (cacheAfterAll (some .empty) before) q) ∧
    ∃ cache, cacheAfterAll (some .empty) calls = some cache ∧
      ∀ e ∈ cache.entries, parse e.source = .ok e.file ∧ e.digest = e.source.digest ∧
        ∃ call ∈ calls, e.source ∈ call.1.sources := by
  constructor
  · rintro before c q after rfl
    obtain ⟨k, hcache, -, hmem⟩ := exists_cacheAfterAll .empty before
    -- so every source is read as without a cache,
    have hread : ∀ source ∈ c.sources, readSource (some k) source = readSource none source := by
      refine fun source hsource => readSource_some_eq fun e he hpath hdigest => ?_
      -- the entry was stored for a source of an earlier call, and digests tell contents apart
      obtain he | ⟨call, hcall, he⟩ := hmem e he
      · cases he
      · have hcontent := hdigests call (List.mem_append_left _ hcall) (c, q)
          (List.mem_append_right _ List.mem_cons_self) e.source he source hsource hdigest
        exact SourceText.ext hpath hcontent
    rw [hcache, Compiler.ask_eq, Compiler.ask_eq, Compiler.found, Compiler.found]
    cases hprepare : c.prepare q with
    | error e => exact ⟨rfl, rfl, rfl⟩
    | ok plugins =>
      -- and the attempt differs in documentation only
      have hattempt : c.attempt none plugins q =
          ((c.attempt none plugins q).1, (c.attempt (some k) plugins q).2.1,
            (c.attempt (some k) plugins q).2.2.map q.withoutDocs) :=
        Prod.ext rfl (Compiler.attempt_none k plugins hread)
      dsimp only
      rw [hattempt]
      obtain ⟨hresult, hwritten⟩ := c.settle_map (c.attempt none plugins q).1
        (c.attempt (some k) plugins q).1 (c.attempt (some k) plugins q).2.1
        (c.attempt (some k) plugins q).2.2 q.withoutDocs
      exact ⟨hresult, hwritten, rfl⟩
  · obtain ⟨k, hcache, -, hmem⟩ := exists_cacheAfterAll .empty calls
    refine ⟨k, hcache, fun e he => ⟨e.parse_source, e.digest_eq, ?_⟩⟩
    obtain he | hcall := hmem e he
    · cases he
    · exact hcall

/-- A source, and what it was changed to. -/
def edited : Compiler × Compiler :=
  ({ toProject := Project.ofSources
      [⟨"a.st", "\x7bnamespace a\x7d/** Doc. */\x7btemplate .t\x7d\x7b/template\x7d"⟩]
     nodup_paths := by decide },
    { toProject := Project.ofSources
        [⟨"a.st", "\x7bnamespace a\x7d/** Doc. */\x7btemplate .u\x7d\x7b/template\x7d"⟩]
      nodup_paths := by decide })

/-- The two contents have different digests. -/
theorem collisionFree_edited : CollisionFree
    [(edited.1, .analyze false false), (edited.2, .compile .rendering), (edited.1, .messages)] := by
  unfold CollisionFree
  decide +kernel

/-- What the source was before does not show in what is rendered of it. -/
theorem ask_transparent_edited :
    (edited.2.ask none (.compile .rendering)).result =
      (edited.2.ask (cacheAfterAll (some .empty) [(edited.1, .analyze false false)])
        (.compile .rendering)).result.map (Question.withoutDocs (.compile .rendering)) :=
  ((ask_transparent collisionFree_edited).1 [(edited.1, .analyze false false)] edited.2
    (.compile .rendering) [(edited.1, .messages)] rfl).1

end TemplateFrontend
