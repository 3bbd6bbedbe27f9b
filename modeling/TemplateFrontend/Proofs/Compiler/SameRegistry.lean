import TemplateFrontend.Proofs.Compiler.Histories
import TemplateFrontend.Proofs.Registry.Outlines
/-!
# One registry for all questions

A compiler answers several questions with a registry, and takes a run of its own for each. The runs
differ in the passes that they take, in whether constants are written in place of their names and
special characters in place of commands, and in where they stop. None of this changes what the registry
is told: in every run the same two passes have changed it when the registry is built.

* `Settings.planned_changesOutlines` — those two passes run for every question with a registry;
* `Compiler.settings_registersAs` — files are registered alike for all those questions;
* `Compiler.registry_eq_of_ask` — the registries in the answers.
-/

namespace TemplateFrontend

/-- If types are checked, and nothing before the passes on all files is cut off, the two passes that
change what the registry is told are taken. -/
theorem Settings.planned_changesOutlines {s : Settings} (htypes : s.checkTypes = true)
    (hlimit : Pass.limit s.cuts = 14 ∨ Pass.limit s.cuts = 8) :
    (s.planned.filter (·.scope == .file)).filter Pass.changesOutlines =
      [.resolveImports, .resolveTypes] := by
  -- of the passes that run at all, only these two touch what a registry reads
  have hpasses : ((Pass.all.take (Pass.limit s.cuts)).filter (·.scope == .file)).filter
      Pass.changesOutlines = [.resolveImports, .resolveTypes] := by
    rcases hlimit with h | h <;> rw [h] <;> decide
  rw [planned, Pass.planned, List.filter_comm (fun p : Pass => p.scope == .file) s.enables,
    List.filter_comm Pass.changesOutlines s.enables, hpasses]
  have henabled : ∀ p ∈ [Pass.resolveImports, Pass.resolveTypes], s.enables p = true := by
    intro p hp
    obtain rfl | hp := List.mem_cons.mp hp
    · rfl
    · obtain rfl := List.mem_singleton.mp hp
      exact htypes
  exact List.filter_eq_self.mpr henabled

namespace Compiler

/-- **Files are registered alike** for all questions but the one for messages, which does without
types. -/
theorem settings_registersAs (c : Compiler) (plugins plugins' : Resolver) {q q' : Question}
    (hq : q ≠ .messages) (hq' : q' ≠ .messages) :
    (q.settings (c.settings plugins)).RegistersAs (q'.settings (c.settings plugins')) := by
  -- the types a project declares do not depend on the question
  have htypes : ∀ {q : Question} (plugins : Resolver), q ≠ .messages →
      (q.settings (c.settings plugins)).types = c.types := by
    intro q plugins hq
    match q with
    | .compile .rendering | .compile .headers | .compile (.backend .js)
    | .compile (.backend .incrementalDom) | .compile (.backend .py) | .compile (.backend .javaInfo)
    | .analyze _ _ | .plugins | .conformance => rfl
    | .messages => exact absurd rfl hq
  -- every question but the one for messages checks types and runs at least the passes up to the registry
  have hpasses : ∀ {q : Question} (plugins : Resolver), q ≠ .messages →
      ((q.settings (c.settings plugins)).planned.filter (·.scope == .file)).filter
        Pass.changesOutlines = [.resolveImports, .resolveTypes] := by
    intro q plugins hq
    refine Settings.planned_changesOutlines ?_ ?_
    · match q with
      | .compile .rendering | .compile .headers | .compile (.backend .js)
      | .compile (.backend .incrementalDom) | .compile (.backend .py) | .compile (.backend .javaInfo)
      | .analyze _ _ | .plugins | .conformance => rfl
      | .messages => exact absurd rfl hq
    · match q with
      | .compile .rendering | .compile (.backend .js) | .compile (.backend .incrementalDom)
      | .compile (.backend .py) | .compile (.backend .javaInfo) | .analyze _ _ | .messages
      | .plugins => exact .inl rfl
      | .compile .headers | .conformance => exact .inr rfl
  exact ⟨(htypes plugins hq).trans (htypes plugins' hq').symm,
    (hpasses plugins hq).trans (hpasses plugins' hq').symm⟩

/-- **One registry.** A compiler is asked a question that it answers with a registry. Whatever else is
asked then of compilers that share the cache, if there is one, every later question that is answered
with a registry is answered with the same one: the same interfaces in the same order, and with them the
same implementations of delegates. So is every question that is asked with another cache or with none,
from which the sources are read as they were. -/
theorem registry_eq_of_ask {c : Compiler} {cache cache' : Option ParseCache} {q q' : Question}
    {a : q.Answer} {a' : q'.Answer} {r r' : Registry}
    (hask : (c.ask cache q).result = .ok a) (hregistry : q.registry? a = some r)
    (hcache : (∃ calls, cache' = cacheAfterAll (c.ask cache q).cache calls) ∨
      ∀ source ∈ c.sources, readSource cache' source = readSource cache source)
    (hask' : (c.ask cache' q').result = .ok a') (hregistry' : q'.registry? a' = some r') :
    r' = r := by
  obtain ⟨plugins, hparsed, hafter, rfl⟩ := registry_of_ask hask hregistry
  obtain ⟨plugins', -, -, rfl⟩ := registry_of_ask hask' hregistry'
  -- whatever was asked between, each source is read as before
  have hread : ∀ source ∈ c.sources, readSource cache' source = readSource cache source := by
    obtain ⟨calls, rfl⟩ | hread := hcache
    · rw [hafter]
      exact fun source hsource => readSource_cacheAfterAll hparsed calls hsource
    · exact hread
  have hfiles : parsedFiles cache' c.sources = parsedFiles cache c.sources :=
    List.filterMap_congr fun source hsource => by rw [hread source hsource]
  -- messages are answered without a registry
  have hq : q ≠ .messages := by
    rintro rfl
    cases hregistry
  have hq' : q' ≠ .messages := by
    rintro rfl
    cases hregistry'
  -- the prepared files need not be the same, only their interfaces
  have halike := c.settings_registersAs plugins' plugins hq' hq
  have hinterfaces : ((parsedFiles cache c.sources).map
        (q'.settings (c.settings plugins')).prepared).flatMap (·.interfaces) =
      ((parsedFiles cache c.sources).map
        (q.settings (c.settings plugins)).prepared).flatMap (·.interfaces) := by
    rw [List.flatMap_map, List.flatMap_map]
    refine List.flatMap_congr fun f hf => ?_
    obtain ⟨source, -, hread⟩ := mem_parsedFiles.mp hf
    exact halike.interfaces_prepared (rooted_of_readSource hread)
  rw [hfiles, (Registry.build_registers _ _).registry_eq, (Registry.build_registers _ _).registry_eq,
    hinterfaces]

/-- A template that passes all data on, the documentation of a parameter, and a delegate of a package. -/
def forwarding : Compiler where
  toProject := Project.ofSources
    [⟨"a.st", "\x7bnamespace a\x7d\x7btemplate .t\x7d\x7b@param? x: ?\x7d /** Doc. */\x7bcall .u data=\"all\" /\x7d\x7b/template\x7d\x7btemplate .u\x7d\x7b/template\x7d"⟩,
      ⟨"b.st", "\x7bdelpackage p\x7d\x7bdeltemplate d\x7d\x7b/deltemplate\x7d"⟩]
  nodup_paths := by decide

theorem interfaces_rendering_forwarding :
    (forwarding.ask none (.compile .rendering)).result.toOption.map
      (fun a => a.registry.interfaces.map fun t =>
        (t.key, t.parameters.filterMap (·.description), t.forwardings.map (·.callee))) =
          some [("a.t", ["Doc."], ["a.u"]), ("a.u", [], []), ("d#@p", [], [])] := by
  decide +kernel

theorem isSome_analysis_forwarding :
    (forwarding.ask (some .empty) (.analyze true false)).result.toOption.map
      (fun a => a.registry.isSome) = some true := by
  decide +kernel

/-- Rendering without a cache strips the documentation that an analysis with a cache leaves in the
files; both know it from the registry. -/
theorem registry_eq_of_ask_forwarding :
    ∃ (a : Compiled) (a' : Analysis),
      (forwarding.ask none (.compile .rendering)).result = .ok a ∧
      (a.registry.interfaces.map fun t =>
        (t.key, t.parameters.filterMap (·.description), t.forwardings.map (·.callee))) =
          [("a.t", ["Doc."], ["a.u"]), ("a.u", [], []), ("d#@p", [], [])] ∧
      (forwarding.ask (some .empty) (.analyze true false)).result = .ok a' ∧
      a'.registry = some a.registry := by
  obtain ⟨a, hrendering, hinterfaces⟩ := exists_of_toOption_map interfaces_rendering_forwarding
  obtain ⟨a', hanalysis, hsome⟩ := exists_of_toOption_map isSome_analysis_forwarding
  obtain ⟨r, hr⟩ := Option.isSome_iff_exists.mp hsome
  have hsame : r = a.registry := by
    refine registry_eq_of_ask hrendering rfl (.inr fun source _ => ?_) hanalysis hr
    exact readSource_some_eq nofun
  exact ⟨a, a', hrendering, hinterfaces, hanalysis, hsame ▸ hr⟩

end Compiler

end TemplateFrontend
