import TemplateFrontend.Markup.Reader
/-!
# A cache of parsed files

A `ParseCache` keeps the files that were parsed, each under the path of its source and the digest of
its content. Sources that do not parse are not kept, and what is kept is never replaced.

* `ParseCache.find?_parse` — a file that was just parsed is found again;
* `ParseCache.parse_of_find?` — what is found was parsed from a source with this path and digest.
-/

namespace TemplateFrontend

/-- A file with the source that it was parsed from. -/
structure CachedFile where
  source : SourceText
  digest : Digest
  file : TemplateFile
  digest_eq : digest = source.digest
  parse_source : parse source = .ok file

namespace CachedFile

/-- Whether the entry is the one for a path and a digest. -/
def isFor (e : CachedFile) (path : String) (digest : Digest) : Bool :=
  e.source.path == path && e.digest == digest

end CachedFile

/-- The files that were parsed so far, the oldest first. -/
structure ParseCache where
  entries : List CachedFile

namespace ParseCache

/-- The cache that holds nothing. -/
def empty : ParseCache := ⟨[]⟩

instance : Inhabited ParseCache := ⟨empty⟩

/-- The number of files. -/
def size (c : ParseCache) : Nat := c.entries.length

/-- The file for a source, if it is kept. -/
def find? (c : ParseCache) (s : SourceText) : Option TemplateFile :=
  let digest := s.digest
  (c.entries.find? (·.isFor s.path digest)).map (·.file)

/-- The file for a source, from the cache or parsed and then kept. -/
def parse (c : ParseCache) (s : SourceText) : ParseCache × Except SyntaxError TemplateFile :=
  match c.find? s with
  | some file => (c, .ok file)
  | none =>
    match h : TemplateFrontend.parse s with
    | .ok file => (⟨c.entries ++ [⟨s, s.digest, file, rfl, h⟩]⟩, .ok file)
    | .error e => (c, .error e)

theorem find?_parse {c c' : ParseCache} {s : SourceText} {f : TemplateFile}
    (h : c.parse s = (c', .ok f)) : c'.find? s = some f := by
  unfold parse at h
  -- either the file was in the cache, or it is parsed and put behind the entries there
  split at h
  · next file hf =>
    cases h
    exact hf
  · next hnone =>
    split at h
    · next file hp =>
      cases h
      -- no entry before the new one is for this source
      have : c.entries.find? (·.isFor s.path s.digest) = none := by
        simpa [find?] using hnone
      have hnew : CachedFile.isFor ⟨s, s.digest, f, rfl, hp⟩ s.path s.digest = true := by
        simp [CachedFile.isFor]
      simp [find?, List.find?_append, this, hnew]
    · cases h

theorem parse_of_find? {c : ParseCache} {s : SourceText} {f : TemplateFile}
    (h : c.find? s = some f) :
    ∃ t : SourceText, t.path = s.path ∧ t.digest = s.digest ∧ TemplateFrontend.parse t = .ok f := by
  obtain ⟨e, he, rfl⟩ := Option.map_eq_some_iff.1 h
  have hfor := List.find?_some he
  simp only [CachedFile.isFor, Bool.and_eq_true, beq_iff_eq] at hfor
  exact ⟨e.source, hfor.1, by rw [← e.digest_eq, hfor.2], e.parse_source⟩

end ParseCache

end TemplateFrontend
