import Mathlib.Data.List.Sigma
import TemplateFrontend.Proofs.Registry.Agreement
import TemplateFrontend.Proofs.Registry.Outlines
import TemplateFrontend.Proofs.Registry.Lookup
/-!
# Keys of delegate templates

A delegate template is registered under its name, its variant and the package of its file, written one
after the other with `#` and `@` between them. Names and packages are words and have neither of these
characters. A variant may have both, and so the key of a template without a package can be that of
another one with a package: its variant then ends in `@` and that package.

* `DelegateTriple.key_eq_iff` — which triples of names, variants and packages have one key;
* `TemplateFile.FromSource` — the files in which the templates of sources are registered;
* `Registry.repetitions_build` — what the errors of registration tell of delegate templates.
-/

namespace TemplateFrontend

/-! ### Triples -/

/-- What tells delegate templates apart: their names, their variants and the packages of their files. -/
structure DelegateTriple where
  name : String
  variant : String
  package : Option String
  deriving DecidableEq, Repr

namespace DelegateTriple

/-- The key under which a delegate template is registered. -/
def key (x : DelegateTriple) : String :=
  let key := x.name ++ "#" ++ x.variant
  match x.package with
  | some p => key ++ "@" ++ p
  | none => key

/-- The name and the package are words. -/
structure IsWritten (x : DelegateTriple) : Prop where
  name : Input.IsWord x.name
  package : ∀ p, x.package = some p → Input.IsWord p

/-- The first triple is without a package, and its variant is the variant and the package of the second
one. -/
def Spells (x y : DelegateTriple) : Prop :=
  x.name = y.name ∧ x.package = none ∧ ∃ p, y.package = some p ∧ x.variant = y.variant ++ "@" ++ p

/-- What the key has behind the name. -/
def suffix (x : DelegateTriple) : List Char :=
  x.variant.toList ++ x.package.elim [] fun p => '@' :: p.toList

theorem toList_key (x : DelegateTriple) : x.key.toList = x.name.toList ++ '#' :: x.suffix := by
  unfold key suffix
  cases x.package <;> simp

/-- Texts around their first separator are equal if their parts are. -/
theorem append_first_inj {a : Char} {as bs cs ds : List Char} (has : a ∉ as) (hcs : a ∉ cs)
    (h : as ++ a :: bs = cs ++ a :: ds) : as = cs ∧ bs = ds := by
  induction as generalizing cs with
  | nil =>
    cases cs with
    | nil => exact ⟨rfl, (List.cons.inj h).2⟩
    -- the mark stands first on one side only, but the other front does not hold it
    | cons c cs => exact absurd (List.mem_cons.mpr (.inl (List.cons.inj h).1)) hcs
  | cons b as ih =>
    cases cs with
    | nil => exact absurd (List.mem_cons.mpr (.inl (List.cons.inj h).1.symm)) has
    | cons c cs =>
      obtain ⟨rfl, htail⟩ := List.cons.inj h
      obtain ⟨rfl, rfl⟩ := ih (fun hmem => has (List.mem_cons_of_mem b hmem))
        (fun hmem => hcs (List.mem_cons_of_mem b hmem)) htail
      exact ⟨rfl, rfl⟩

/-- Texts around their last separator are equal if their parts are. -/
theorem append_last_inj {a : Char} {as bs cs ds : List Char} (hbs : a ∉ bs) (hds : a ∉ ds)
    (h : as ++ a :: bs = cs ++ a :: ds) : as = cs ∧ bs = ds := by
  have hreverse : bs.reverse ++ a :: as.reverse = ds.reverse ++ a :: cs.reverse := by
    simpa using congrArg List.reverse h
  obtain ⟨hlast, hfirst⟩ := append_first_inj (by rwa [List.mem_reverse]) (by rwa [List.mem_reverse]) hreverse
  exact ⟨List.reverse_inj.mp hfirst, List.reverse_inj.mp hlast⟩

variable {x y : DelegateTriple}

/-- Names have no separator, so triples with one key have one name. -/
theorem key_eq_iff_suffix_eq (hx : x.IsWritten) (hy : y.IsWritten) :
    x.key = y.key ↔ x.name = y.name ∧ x.suffix = y.suffix := by
  rw [← String.toList_inj, toList_key, toList_key]
  constructor
  · intro h
    have hname := append_first_inj (hx.name.notMem rfl (by decide)) (hy.name.notMem rfl (by decide)) h
    exact ⟨String.toList_inj.mp hname.1, hname.2⟩
  · rintro ⟨hname, hsuffix⟩
    rw [hname, hsuffix]

/-- Packages have no separator, so the last one stands before the package if there is one. -/
theorem suffix_eq_iff (hx : x.IsWritten) (hy : y.IsWritten) :
    x.suffix = y.suffix ↔ x.variant = y.variant ∧ x.package = y.package ∨
      (x.package = none ∧ ∃ p, y.package = some p ∧ x.variant = y.variant ++ "@" ++ p) ∨
      (y.package = none ∧ ∃ p, x.package = some p ∧ y.variant = x.variant ++ "@" ++ p) := by
  -- a variant may itself be written as a variant with a package behind it
  have hspelled : ∀ {v w p : String}, v.toList = w.toList ++ '@' :: p.toList ↔ v = w ++ "@" ++ p := by
    intro v w p
    rw [← String.toList_inj]
    simp
  unfold suffix
  cases hpx : x.package with
  | none =>
    cases hpy : y.package with
    | none => simp [String.toList_inj]
    | some p => simp [hspelled]
  | some p =>
    cases hpy : y.package with
    | none => simp [← hspelled, eq_comm]
    | some p' =>
      -- no package holds an `@`, so the last one parts the suffix
      have hinj := @append_last_inj '@' x.variant.toList p.toList y.variant.toList p'.toList
        ((hx.package p hpx).notMem rfl (by decide)) ((hy.package p' hpy).notMem rfl (by decide))
      simp only [Option.elim_some, reduceCtorEq, false_and, or_false, Option.some.injEq]
      constructor
      · intro h
        exact ⟨String.toList_inj.mp (hinj h).1, String.toList_inj.mp (hinj h).2⟩
      · rintro ⟨hvariant, rfl⟩
        rw [hvariant]

/-- **Triples with one key** are equal, or one of them spells the other one. -/
theorem key_eq_iff (hx : x.IsWritten) (hy : y.IsWritten) :
    x.key = y.key ↔ x = y ∨ x.Spells y ∨ y.Spells x := by
  have heq : x = y ↔ x.name = y.name ∧ x.variant = y.variant ∧ x.package = y.package := by
    cases x
    cases y
    rw [mk.injEq]
  rw [key_eq_iff_suffix_eq hx hy, suffix_eq_iff hx hy, heq, Spells, Spells, eq_comm (a := y.name),
    and_or_left, and_or_left]

end DelegateTriple

/-- What tells the template apart, if it is a delegate template. -/
def Interface.triple? (t : Interface) : Option DelegateTriple :=
  match t.role with
  | .delegate name variant => some ⟨name, variant, t.package⟩
  | .basic | .element => none

/-! ### Files of sources -/

/-- The key of a template with a name. -/
theorem Template.key_ne_empty {t : Template} (hname : t.name ≠ "") (package : Option String) :
    t.key package ≠ "" := by
  unfold key
  cases t.kind with
  | basic | element => exact hname
  | delegate => cases package <;> simp [hname]

/-- The interfaces of a file are those of its templates, if all have one. -/
theorem TemplateFile.Registrable.map_ofTemplate {f : TemplateFile} (h : f.Registrable) :
    f.declared.map (fun p => Interface.ofTemplate f p.1 p.2) = f.interfaces.map .ok := by
  rw [interfaces, List.map_flatMap, List.map_eq_flatMap]
  refine List.flatMap_congr fun p hp => ?_
  obtain ⟨t, ht⟩ := h p hp
  rw [ht]
  rfl

namespace Outline

variable {f : TemplateFile} {x : Outline}

/-- Passes leave the name of a template alone. -/
theorem name_afterAll (s : Settings) (f : TemplateFile) (ps : List Pass) (x : Outline) :
    (x.afterAll s f ps).header.name = x.header.name := by
  induction ps generalizing x with
  | nil => rfl
  | cons p ps ih =>
    have hafter : (x.after s f p).header.name = x.header.name := by cases p <;> rfl
    exact (ih (x.after s f p)).trans hafter

/-- A template with a name has an interface. -/
theorem exists_build (hname : x.header.name ≠ "") : ∃ t, (x.draft f).build = .ok t := by
  have hkey : (x.draft f).key ≠ "" := Template.key_ne_empty hname f.delegatePackage
  obtain ⟨role, hrole⟩ : ∃ role, (x.draft f).role = .ok role := by
    unfold draft InterfaceDraft.role
    cases x.header.kind with
    | basic => exact ⟨.basic, rfl⟩
    | element => exact ⟨.element, rfl⟩
    | delegate => exact ⟨.delegate _ _, rfl⟩
  unfold InterfaceDraft.build
  rw [dif_neg hkey, hrole]
  exact ⟨_, rfl⟩

/-- The interface of a delegate template is registered under the key of its triple. -/
theorem key_of_build {t : Interface} {triple : DelegateTriple} (h : (x.draft f).build = .ok t)
    (htriple : t.triple? = some triple) : t.key = triple.key ∧ triple.name = x.header.name ∧
      triple.package = f.delegatePackage := by
  obtain ⟨-, hdraft⟩ := InterfaceDraft.build_eq_ok_iff.mp h
  -- a unit is built from its draft field by field
  have hkey : t.key = x.header.key f.delegatePackage := congrArg InterfaceDraft.key hdraft
  have hkind : t.role.kind = x.header.kind := congrArg InterfaceDraft.kind hdraft
  have hpackage : t.package = f.delegatePackage := congrArg InterfaceDraft.package hdraft
  have hname : t.role.delegateName? = if x.header.kind = .delegate then some x.header.name else none :=
    congrArg InterfaceDraft.delegateName hdraft
  have hvariant : t.role.variant? =
      if x.header.kind = .delegate then some (x.header.variant.getD "") else none :=
    congrArg InterfaceDraft.delegateVariant hdraft
  unfold Interface.triple? at htriple
  split at htriple
  · next name variant hrole =>
    obtain rfl := Option.some.inj htriple
    rw [hrole] at hkind hname hvariant
    -- only a delegate has a triple, and its name and variant are those of the header
    have hdelegate : x.header.kind = .delegate := hkind.symm
    rw [if_pos hdelegate] at hname hvariant
    obtain rfl := Option.some.inj hname
    obtain rfl := Option.some.inj hvariant
    refine ⟨?_, rfl, hpackage⟩
    rw [hkey, Template.key, hdelegate, ← hpackage]
    rfl
  · cases htriple
  · cases htriple

end Outline

namespace TemplateFile

variable {f : TemplateFile}

/-- The file is what passes on single files made of the file of a source. -/
def FromSource (f : TemplateFile) : Prop :=
  ∃ source g s ps, parse source = .ok g ∧ f = (g.runPasses s ps).1

theorem FromSource.of_parse {source : SourceText} (h : parse source = .ok f) : f.FromSource :=
  ⟨source, f, .default (Resolver.ofUser true .empty).1, [], h, rfl⟩

theorem FromSource.isWord_name (h : f.FromSource) {x : Outline} (hx : x ∈ f.outlines) :
    Input.IsWord x.header.name := by
  obtain ⟨source, g, s, ps, hg, rfl⟩ := h
  rw [(rooted_of_parse hg).outlines_runPasses] at hx
  obtain ⟨y, hy, rfl⟩ := List.mem_map.mp hx
  obtain ⟨id, -, hid⟩ := List.mem_filterMap.mp hy
  obtain ⟨header, hheader, rfl⟩ := Option.map_eq_some_iff.mp hid
  obtain ⟨t, ht, rfl⟩ := NodeKind.exists_of_header? hheader
  rw [Outline.name_afterAll]
  refine (named_of_parse hg).2 id _ ?_
  rw [ht]
  exact List.mem_singleton_self t.name

theorem FromSource.isWord_package (h : f.FromSource) {p : String} (hp : f.delegatePackage = some p) :
    Input.IsWord p := by
  obtain ⟨source, g, s, ps, hg, rfl⟩ := h
  have hpackage := congrArg TemplateFile.delegatePackage (runPasses_sameKeys s ps g).rest_eq
  exact (named_of_parse hg).1 p (mem_ownNames.mpr (.inr (hpackage.symm.trans hp)))

/-- Every template of a source has an interface. -/
theorem FromSource.registrable (h : f.FromSource) : f.Registrable := by
  intro p hp
  obtain ⟨hid, hkind⟩ := kind_of_mem_declared hp
  rw [Interface.ofTemplate, draftOf_eq]
  have hmem : (⟨f.span p.1, p.2.header, f.forwardings p.1⟩ : Outline) ∈ f.outlines := by
    refine List.mem_filterMap.mpr ⟨p.1, hid, ?_⟩
    rw [outline?, hkind]
    rfl
  exact Outline.exists_build (h.isWord_name hmem).1

/-- A delegate template of a source is registered under the key of its triple, which is of words. -/
theorem FromSource.key_eq (h : f.FromSource) {t : Interface} (ht : t ∈ f.interfaces)
    {x : DelegateTriple} (hx : t.triple? = some x) : t.key = x.key ∧ x.IsWritten := by
  rw [interfaces_eq] at ht
  obtain ⟨outline, houtline, hbuild⟩ := List.mem_filterMap.mp ht
  obtain ⟨hkey, hname, hpackage⟩ := Outline.key_of_build (eq_ok_of_toOption hbuild) hx
  exact ⟨hkey, hname ▸ h.isWord_name houtline, fun p hp => h.isWord_package (hpackage ▸ hp)⟩

end TemplateFile

namespace Registry

/-- **Delegate templates that are defined twice.** All templates of files of sources are registered. There
is an error for each one whose key is taken, and these are all errors but those for dependencies. From
the errors two delegate templates are known to have one key exactly if their names, variants and
packages are the same, or if one of them has no package and its variant spells the variant of the other
one with the package of that. -/
theorem repetitions_build {files : FileSet} (hfiles : ∀ f ∈ files, f.FromSource)
    (dependencies : List Dependency) :
    ∃ ts : List Interface,
      files.declared.map (fun p => Interface.ofTemplate p.1 p.2.1 p.2.2) = ts.map .ok ∧
      (build files dependencies).2 =
        (repetitions ts.zipIdx).map (fun p => duplicate p.1.1 p.2.1) ++
          ((build files []).1.insertAll (dependencies.flatMap (·.interfaces))).2 ∧
      ∀ t ∈ ts.zipIdx, ∀ u ∈ ts.zipIdx, t ≠ u → ∀ x y, t.1.triple? = some x → u.1.triple? = some y →
        (RepeatTogether ts.zipIdx t u ↔ x = y ∨ x.Spells y ∨ y.Spells x) := by
  have hcomplete : ∀ f ∈ files, f.Registrable := fun f hf => (hfiles f hf).registrable
  refine ⟨files.flatMap (·.interfaces), ?_, ?_, fun t ht u hu hne x y hx hy => ?_⟩
  · rw [FileSet.declared, List.map_flatMap, List.map_flatMap]
    refine List.flatMap_congr fun f hf => ?_
    rw [List.map_map]
    exact (hcomplete f hf).map_ofTemplate
  · -- the errors for the files come first, and those do not depend on the dependencies
    have hsource : ∀ t ∈ (files.flatMap (·.interfaces)).zipIdx, t.1.origin.isDependency = false := by
      intro t ht
      obtain ⟨f, -, htf⟩ := List.mem_flatMap.mp (List.fst_mem_of_mem_zipIdx ht)
      rw [(TemplateFile.exists_of_mem_interfaces htf).1]
      rfl
    have hreports := insertAll_reports (List.nodup_zipIdx_map_snd _).of_map hsource
    have hregistry := (build_registers files []).registry_eq
    rw [List.flatMap_nil, List.append_nil] at hregistry
    rw [List.zipIdx_map_fst] at hreports
    rw [(build_registers files dependencies).reports_eq hcomplete, insertAll_append, hreports, hregistry]
  · obtain ⟨f, hf, htf⟩ := List.mem_flatMap.mp (List.fst_mem_of_mem_zipIdx ht)
    obtain ⟨g, hg, hug⟩ := List.mem_flatMap.mp (List.fst_mem_of_mem_zipIdx hu)
    -- both keys are made from their triples
    obtain ⟨hkey, hwritten⟩ := (hfiles f hf).key_eq htf hx
    obtain ⟨hkey', hwritten'⟩ := (hfiles g hg).key_eq hug hy
    rw [repeatTogether_iff ht hu hne, hkey, hkey', DelegateTriple.key_eq_iff hwritten hwritten']

/-- The triples of the delegate templates of some files, in the order of registration. -/
def triples (files : FileSet) : List (Option DelegateTriple) :=
  files.declared.map fun p => (Interface.ofTemplate p.1 p.2.1 p.2.2).toOption.bind (·.triple?)

/-- A source with a delegate template in no package, and one with another delegate template, which is in
a package. -/
def spelledSources : SourceText × SourceText :=
  (⟨"a.st", "\x7bdeltemplate my.widget variant=\"'compact@beta'\"\x7da\x7b/deltemplate\x7d"⟩,
    ⟨"b.st", "\x7bdelpackage beta\x7d\x7bdeltemplate my.widget variant=\"'compact'\"\x7db\x7b/deltemplate\x7d"⟩)

/-- The first triple spells the second one. -/
def spelledTriples : DelegateTriple × DelegateTriple :=
  (⟨"my.widget", "compact@beta", none⟩, ⟨"my.widget", "compact", some "beta"⟩)

/-- What two sources that parse show of their files. -/
theorem exists_of_parse_both {α : Type} {source source' : SourceText} {view : FileSet → α} {a : α}
    (h : ((parse source).toOption.bind fun f =>
      (parse source').toOption.map fun g => view [f, g]) = some a) :
    ∃ f g, parse source = .ok f ∧ parse source' = .ok g ∧ view [f, g] = a := by
  obtain ⟨f, hf, hrest⟩ := Option.bind_eq_some_iff.mp h
  obtain ⟨g, hg, hshown⟩ := exists_of_toOption_map hrest
  exact ⟨f, g, eq_ok_of_toOption hf, hg, hshown⟩

/-- The errors tell of both templates that they have one key. -/
theorem repetitions_build_spelledSources :
    ∃ f g, parse spelledSources.1 = .ok f ∧ parse spelledSources.2 = .ok g ∧
      ∃ t u : Interface,
        (FileSet.declared [f, g]).map (fun p => Interface.ofTemplate p.1 p.2.1 p.2.2) = [.ok t, .ok u] ∧
        t.triple? = some spelledTriples.1 ∧ u.triple? = some spelledTriples.2 ∧
        RepeatTogether [(t, 0), (u, 1)] (t, 0) (u, 1) := by
  obtain ⟨f, g, hf, hg, htriples⟩ := @exists_of_parse_both _ spelledSources.1 spelledSources.2 triples
    [some spelledTriples.1, some spelledTriples.2] (by decide +kernel)
  have hfiles : ∀ x ∈ [f, g], x.FromSource :=
    List.forall_mem_cons.mpr ⟨.of_parse hf, List.forall_mem_singleton.mpr (.of_parse hg)⟩
  obtain ⟨ts, hts, -, htogether⟩ := repetitions_build hfiles []
  -- the two interfaces are read off the triples of the two files
  have hmap : ts.map (·.triple?) = triples [f, g] := by
    have hoptions := congrArg (List.map fun r => r.toOption.bind Interface.triple?) hts
    rw [List.map_map, List.map_map] at hoptions
    exact hoptions.symm
  rw [htriples] at hmap
  obtain ⟨t, us, rfl, ht, hus⟩ := List.map_eq_cons_iff.mp hmap
  obtain ⟨u, us, rfl, hu, hus⟩ := List.map_eq_cons_iff.mp hus
  obtain rfl := List.map_eq_nil_iff.mp hus
  refine ⟨f, g, hf, hg, t, u, hts, ht, hu, ?_⟩
  exact (htogether (t, 0) (by simp) (u, 1) (by simp) (by simp) _ _ ht hu).mpr
    (.inr (.inl ⟨rfl, rfl, "beta", rfl, rfl⟩))

/-- Delegate templates with different triples are reported to be one that is defined twice. -/
theorem build_confuses_spelledSources :
    ∃ f g, parse spelledSources.1 = .ok f ∧ parse spelledSources.2 = .ok g ∧
      triples [f, g] = [some spelledTriples.1, some spelledTriples.2] ∧
      spelledTriples.1 ≠ spelledTriples.2 ∧
      (build [f, g] []).2.map (·.text) = ["error: delegate 'my.widget' with variant 'compact' is already defined at a.st:1:1 (at b.st:1:18)"] := by
  obtain ⟨f, g, hf, hg, hseen⟩ := @exists_of_parse_both _ spelledSources.1 spelledSources.2
    (fun files => (triples files, (build files []).2.map (·.text)))
    ([some spelledTriples.1, some spelledTriples.2],
      ["error: delegate 'my.widget' with variant 'compact' is already defined at a.st:1:1 (at b.st:1:18)"])
    (by decide +kernel)
  obtain ⟨htriples, htexts⟩ := Prod.mk.inj hseen
  exact ⟨f, g, hf, hg, htriples, by decide, htexts⟩

end Registry

end TemplateFrontend
