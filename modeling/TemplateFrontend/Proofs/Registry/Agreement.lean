import TemplateFrontend.Check.Calls
import TemplateFrontend.Proofs.Registry.Lookup
/-!
# Registries for which calls are alike

A call is checked against what the registry answers to its callee, and of an interface only some parts
matter. Two registries that agree on those parts find the same problems.

Of two interfaces with one key the first is kept, so what a registry holds depends on the order of its
files. But then there is an error, unless both come from dependencies, whose order is not changed. A
registry that is built without an error holds the same whatever the order of the files.

* `Interface.CalledAlike`, `Registry.CalledAlike` — agreement on what calls look at;
* `TemplateFile.checkCalls_congr` — calls are checked alike;
* `Registry.unit_build` — the unit of a registry that was built without an error;
* `Registry.calledAlike_build` — files compiled together, and some of them compiled against the unit
  of the others;
* `Registry.Reordered` — the same interfaces under the same keys, and the same delegates;
* `Registry.build_snd_eq_nil_of_perm` — whether there is an error does not depend on the order;
* `Registry.reordered_build` — nor does, without one, what is registered.
-/

namespace TemplateFrontend

/-! ### What calls look at -/

/-- Calls of one of the templates are checked as calls of the other. -/
structure Interface.CalledAlike (t u : Interface) : Prop where
  role_eq : t.role = u.role
  parameters_eq : t.parameters = u.parameters
  visibility_eq : t.visibility = u.visibility
  path_eq : t.location.path = u.location.path
  indirect_iff : t.origin = .indirectDependency ↔ u.origin = .indirectDependency

/-- A template is called as itself. -/
theorem Interface.CalledAlike.refl (t : Interface) : t.CalledAlike t :=
  ⟨rfl, rfl, rfl, rfl, Iff.rfl⟩

/-- Both registries answer to every key with interfaces for which calls are alike, or not at all. -/
def Registry.CalledAlike (r r' : Registry) : Prop :=
  ∀ key, Option.Rel Interface.CalledAlike (r.get? key) (r'.get? key)

namespace Registry.CalledAlike

variable {r r' : Registry}

/-- To one key both answer, or neither does. -/
theorem answers (h : r.CalledAlike r') (key : String) :
    (r.get? key = none ∧ r'.get? key = none) ∨
      ∃ t u, r.get? key = some t ∧ r'.get? key = some u ∧ t.CalledAlike u := by
  have hkey := h key
  generalize r.get? key = o at hkey ⊢
  generalize r'.get? key = o' at hkey ⊢
  cases hkey with
  | none => exact .inl ⟨rfl, rfl⟩
  | some hrel => exact .inr ⟨_, _, rfl, rfl, hrel⟩

/-- A delegate that one of the registries knows is known to the other. -/
theorem hasDelegate_eq (h : r.CalledAlike r') (hr : r.Distinct) (hr' : r'.Distinct)
    (name : String) : r.hasDelegate name = r'.hasDelegate name := by
  rw [Bool.eq_iff_iff, hr.hasDelegate_iff, hr'.hasDelegate_iff]
  constructor
  · rintro ⟨key, t, hget, hname⟩
    -- under each key both have nothing, or interfaces of one role
    obtain ⟨hnone, -⟩ | ⟨t', u, ht, hu, hrel⟩ := h.answers key
    · rw [hget] at hnone
      cases hnone
    · obtain rfl := Option.some.inj (ht.symm.trans hget)
      exact ⟨key, u, hu, hrel.role_eq ▸ hname⟩
  · rintro ⟨key, u, hget, hname⟩
    obtain ⟨-, hnone⟩ | ⟨t, u', ht, hu, hrel⟩ := h.answers key
    · rw [hget] at hnone
      cases hnone
    · obtain rfl := Option.some.inj (hu.symm.trans hget)
      exact ⟨key, t, ht, hrel.role_eq.symm ▸ hname⟩

end Registry.CalledAlike

namespace Call

variable {t u : Interface}

/-- A parameter that is passed to one is checked as if it were passed to the other. -/
theorem passedProblem?_congr (h : t.CalledAlike u) (c : Call) (p : Passed) :
    c.passedProblem? t p = c.passedProblem? u p := by
  unfold passedProblem? Interface.parameter?
  rw [h.parameters_eq]

/-- The same parameters are missing. -/
theorem missing_congr (h : t.CalledAlike u) (c : Call) : c.missing t = c.missing u := by
  unfold missing Interface.requiredParameters
  rw [h.parameters_eq]

/-- The call has the same problems with both. -/
theorem problemsWith_congr (h : t.CalledAlike u) (c : Call) (path : String) :
    c.problemsWith path t = c.problemsWith path u := by
  have hpassed : c.passedProblem? t = c.passedProblem? u := funext (passedProblem?_congr h c)
  unfold problemsWith
  rw [missing_congr h, hpassed, h.visibility_eq, h.path_eq]
  simp only [h.indirect_iff]

/-- A call has the same problems in both registries. -/
theorem problems_congr {r r' : Registry} (h : r.CalledAlike r') (hr : r.Distinct)
    (hr' : r'.Distinct) (c : Call) (allowExternal : Bool) (path : String) :
    c.problems r allowExternal path = c.problems r' allowExternal path := by
  unfold problems
  rw [h.hasDelegate_eq hr hr']
  obtain ⟨hget, hget'⟩ | ⟨t, u, hget, hget', hrel⟩ := h.answers c.callee
  · rw [hget, hget']
  · rw [hget, hget']
    dsimp only
    rw [problemsWith_congr hrel]

end Call

/-- The calls of a file are checked alike against registries for which calls are alike. -/
theorem TemplateFile.checkCalls_congr {r r' : Registry} (h : r.CalledAlike r') (hr : r.Distinct)
    (hr' : r'.Distinct) (s : Settings) (f : TemplateFile) :
    f.checkCalls s r = f.checkCalls s r' := by
  unfold checkCalls
  congr 1
  funext id
  split
  · rw [Call.problems_congr h hr hr']
  · rfl

/-! ### Interfaces of files and of dependencies -/

/-- What the registry needs to know of the interfaces of a file. -/
theorem TemplateFile.exists_of_mem_interfaces {f : TemplateFile} {t : Interface}
    (h : t ∈ f.interfaces) : t.origin = .source ∧ t.location.path = f.path ∧
      ∃ p ∈ f.declared, t.key = p.2.key f.delegatePackage := by
  obtain ⟨p, hp, ht⟩ := List.mem_flatMap.mp h
  -- a template whose draft is refused adds no interface
  cases hbuild : Interface.ofTemplate f p.1 p.2 with
  | error e =>
    rw [hbuild] at ht
    cases ht
  | ok t' =>
    rw [hbuild] at ht
    obtain rfl := List.mem_singleton.mp ht
    obtain ⟨-, hdraft⟩ := InterfaceDraft.build_eq_ok_iff.mp hbuild
    have hlocation : t.location = f.location (f.span p.1) :=
      Option.some.inj (congrArg InterfaceDraft.location hdraft)
    refine ⟨congrArg InterfaceDraft.origin hdraft, ?_, p, hp, congrArg InterfaceDraft.key hdraft⟩
    rw [hlocation]
    rfl

/-- An interface of a dependency as it is registered. -/
def Dependency.registered (d : Dependency) (t : Interface) : Interface :=
  { t with origin := d.origin, location := if t.location.path = "" then .ofPath d.path else t.location }

/-- A key leads to the interface of the unit, registered. -/
theorem Dependency.find?_interfaces (d : Dependency) (key : String) :
    d.interfaces.find? (·.key == key) = (d.unit.find? (·.key == key)).map d.registered := by
  rw [interfaces, List.find?_map]
  rfl

/-- A template that is a direct dependency is called as it is where it stands. -/
theorem Interface.calledAlike_registered {t : Interface} (ht : t.location.path ≠ "") {path : String}
    {unit : List Interface} (hsource : t.origin = .source) :
    t.CalledAlike (Dependency.registered ⟨true, path, unit⟩ t) := by
  refine ⟨rfl, rfl, rfl, ?_, ?_⟩
  · rw [Dependency.registered, if_neg ht]
  · rw [hsource]
    exact ⟨nofun, nofun⟩

/-- Interfaces of a dependency have the origin of one. -/
theorem Dependency.isDependency_of_mem_interfaces {d : Dependency} {t : Interface}
    (h : t ∈ d.interfaces) : t.origin.isDependency = true := by
  obtain ⟨u, -, rfl⟩ := List.mem_map.mp h
  change d.origin.isDependency = true
  unfold Dependency.origin
  cases d.direct <;> rfl

namespace Registry

/-! ### Units -/

/-- Interfaces of free keys are all put in, behind those that were there. -/
theorem insertAll_fresh {r : Registry} {ts : List Interface}
    (hfree : ∀ t ∈ ts, r.get? t.key = none) (hkeys : (ts.map (·.key)).Nodup) :
    (r.insertAll ts).1.interfaces = r.interfaces ++ ts := by
  induction ts generalizing r with
  | nil => rw [insertAll_nil, List.append_nil]
  | cons t ts ih =>
    obtain ⟨ht, hts⟩ := List.forall_mem_cons.mp hfree
    rw [List.map_cons, List.nodup_cons] at hkeys
    -- the keys behind the first one are still free
    have hrest : ∀ u ∈ ts, (r.insert t).1.get? u.key = none := by
      intro u hu
      have hne : ¬ (t.key == u.key) = true := by
        rw [beq_iff_eq]
        intro heq
        exact hkeys.1 (heq ▸ List.mem_map_of_mem hu)
      rw [get?_insert, hts u hu, if_neg hne]
      rfl
    rw [insertAll_cons, ih hrest hkeys.2, insert_of_none ht, List.append_assoc]
    rfl

/-- Interfaces of dependencies are not part of the unit. -/
theorem unit_insertAll {r : Registry} {ts : List Interface}
    (h : ∀ t ∈ ts, t.origin.isDependency = true) : (r.insertAll ts).1.unit = r.unit := by
  induction ts generalizing r with
  | nil => rfl
  | cons t ts ih =>
    obtain ⟨ht, hts⟩ := List.forall_mem_cons.mp h
    rw [insertAll_cons, ih hts]
    cases hget : r.get? t.key with
    | none =>
      rw [insert_of_none hget, unit, unit, List.filter_append]
      simp [ht]
    | some kept => rw [insert_of_some hget]

section Build

variable {files : FileSet} {dependencies : List Dependency}

/-- The interfaces of files that are built without an error have different keys, which no dependency
has. -/
theorem keys_of_build (h : (build files dependencies).2 = []) :
    ((files.flatMap (·.interfaces)).map (·.key)).Nodup ∧
      ∀ t ∈ files.flatMap (·.interfaces), ∀ u ∈ dependencies.flatMap (·.interfaces),
        t.key ≠ u.key := by
  obtain ⟨-, hpairwise⟩ :=
    insertAll_snd_eq_nil_iff.mp ((build_registers files dependencies).snd_eq_nil_iff.mp h).2
  obtain ⟨hfiles, -, hacross⟩ := List.pairwise_append.mp hpairwise
  -- no template of a file comes from a dependency
  have hsource : ∀ t ∈ files.flatMap (·.interfaces), t.origin.isDependency = false := by
    intro t ht
    obtain ⟨f, -, ht⟩ := List.mem_flatMap.mp ht
    rw [(TemplateFile.exists_of_mem_interfaces ht).1]
    rfl
  constructor
  · rw [List.Nodup, List.pairwise_map]
    -- two with one key would both have to come from dependencies
    refine hfiles.imp_of_mem fun {t u} ht _ hdependency heq => ?_
    rw [hsource t ht] at hdependency
    exact absurd (hdependency heq).1 (by simp)
  · intro t ht u hu heq
    have hdependency := (hacross t ht u hu heq).1
    rw [hsource t ht] at hdependency
    cases hdependency

/-- The unit of files that are built without an error holds the interfaces of all their templates. -/
theorem unit_build (h : (build files dependencies).2 = []) :
    (build files dependencies).1.unit = files.flatMap (·.interfaces) := by
  -- the unit keeps what comes from the files and drops the dependencies
  have hsource : ∀ t ∈ files.flatMap (·.interfaces), (!t.origin.isDependency) = true := by
    intro t ht
    obtain ⟨f, -, ht⟩ := List.mem_flatMap.mp ht
    rw [(TemplateFile.exists_of_mem_interfaces ht).1]
    rfl
  have hdependency : ∀ t ∈ dependencies.flatMap (·.interfaces), t.origin.isDependency = true := by
    intro t ht
    obtain ⟨d, -, ht⟩ := List.mem_flatMap.mp ht
    exact Dependency.isDependency_of_mem_interfaces ht
  rw [(build_registers files dependencies).registry_eq, insertAll_append,
    unit_insertAll hdependency, unit, insertAll_fresh (fun _ _ => rfl) (keys_of_build h).1]
  exact List.filter_eq_self.mpr hsource

/-- The templates of a list of files, of which those of some files do not have the key. -/
theorem find?_interfaces_filter {inFirst : TemplateFile → Bool} {key : String}
    (h : ∀ f ∈ files, inFirst f = true → ∀ t ∈ f.interfaces, (t.key == key) = false) :
    (files.flatMap (·.interfaces)).find? (·.key == key) =
      ((files.filter (! inFirst ·)).flatMap (·.interfaces)).find? (·.key == key) := by
  induction files with
  | nil => rfl
  | cons f fs ih =>
    obtain ⟨hf, hfs⟩ := List.forall_mem_cons.mp h
    rw [List.flatMap_cons, List.find?_append, ih hfs, List.filter_cons]
    -- a file of the first part has no interface under the key
    cases hfirst : inFirst f with
    | true =>
      have hnone : f.interfaces.find? (·.key == key) = none :=
        List.find?_eq_none.mpr fun t ht => by rw [hf hfirst t ht]; exact Bool.false_ne_true
      rw [hnone]
      rfl
    | false =>
      rw [Bool.not_false, if_pos rfl, List.flatMap_cons, List.find?_append]

/-- **Separate compilation, seen by calls.** Some of the files are compiled without an error. Calls
are then alike for all files together, and for the other files with the unit of the first ones as one
more dependency. -/
theorem calledAlike_build {inFirst : TemplateFile → Bool} {path : String}
    (hpaths : ∀ f ∈ files, f.path ≠ "")
    (hfirst : (build (files.filter inFirst) dependencies).2 = [])
    (hkeys : ∀ t ∈ (files.filter inFirst).flatMap (·.interfaces),
      ∀ u ∈ (files.filter (! inFirst ·)).flatMap (·.interfaces), t.key ≠ u.key) :
    (build files dependencies).1.CalledAlike
      (build (files.filter (! inFirst ·)) (dependencies ++
        [⟨true, path, (build (files.filter inFirst) dependencies).1.unit⟩])).1 := by
  obtain ⟨hnodup, hdisjoint⟩ := keys_of_build hfirst
  -- the templates of the first files have a place in a file
  have hplace : ∀ t ∈ (files.filter inFirst).flatMap (·.interfaces),
      t.location.path ≠ "" ∧ t.origin = .source := by
    intro t ht
    obtain ⟨f, hf, ht⟩ := List.mem_flatMap.mp ht
    obtain ⟨hsource, hpath, -⟩ := TemplateFile.exists_of_mem_interfaces ht
    exact ⟨hpath ▸ hpaths f (List.mem_filter.mp hf).1, hsource⟩
  have hmem : ∀ f ∈ files, inFirst f = true → ∀ t ∈ f.interfaces,
      t ∈ (files.filter inFirst).flatMap (·.interfaces) := fun f hf hin t ht =>
    List.mem_flatMap.mpr ⟨f, List.mem_filter.mpr ⟨hf, hin⟩, ht⟩
  have hmem' : ∀ t ∈ files.flatMap (·.interfaces),
      t ∈ (files.filter inFirst).flatMap (·.interfaces) ∨
        t ∈ (files.filter (! inFirst ·)).flatMap (·.interfaces) := by
    intro t ht
    obtain ⟨f, hf, ht⟩ := List.mem_flatMap.mp ht
    cases hin : inFirst f with
    | true => exact .inl (hmem f hf hin t ht)
    | false => exact .inr (List.mem_flatMap.mpr ⟨f, List.mem_filter.mpr ⟨hf, by simp [hin]⟩, ht⟩)
  intro key
  rw [get?_build, get?_build, unit_build hfirst, List.flatMap_append, List.flatMap_singleton,
    List.find?_append, List.find?_append, List.find?_append, Dependency.find?_interfaces]
  by_cases hkey : ∃ t ∈ (files.filter inFirst).flatMap (·.interfaces), t.key = key
  · -- a template of the first files, found as it is or as one of a dependency
    obtain ⟨t, ht, rfl⟩ := hkey
    -- in one run it is the only one with its key
    have hjoint : (files.flatMap (·.interfaces)).find? (·.key == t.key) = some t := by
      obtain ⟨f, hf, htf⟩ := List.mem_flatMap.mp ht
      refine find?_eq_some_of_unique (List.mem_flatMap.mpr ⟨f, (List.mem_filter.mp hf).1, htf⟩)
        (beq_self_eq_true t.key) fun u hu heq => ?_
      obtain hu | hu := hmem' u hu
      · exact List.inj_on_of_nodup_map hnodup hu ht (eq_of_beq heq)
      · exact absurd (eq_of_beq heq).symm (hkeys t ht u hu)
    -- in the other run neither the other files have the key
    have hothers : ((files.filter (! inFirst ·)).flatMap (·.interfaces)).find? (·.key == t.key) =
        none :=
      List.find?_eq_none.mpr fun u hu heq => hkeys t ht u hu (eq_of_beq heq).symm
    -- nor do the dependencies besides the unit
    have hdependencies : (dependencies.flatMap (·.interfaces)).find? (·.key == t.key) = none :=
      List.find?_eq_none.mpr fun u hu heq => hdisjoint t ht u hu (eq_of_beq heq).symm
    rw [hjoint, hothers, hdependencies, find?_eq_some_of_nodup hnodup ht]
    exact .some (Interface.calledAlike_registered (hplace t ht).1 (hplace t ht).2)
  · -- a key that no template of the first files has
    have hfree : ∀ f ∈ files, inFirst f = true → ∀ t ∈ f.interfaces, (t.key == key) = false :=
      fun f hf hin t ht => beq_eq_false_iff_ne.mpr fun heq => hkey ⟨t, hmem f hf hin t ht, heq⟩
    have hnone : ((files.filter inFirst).flatMap (·.interfaces)).find? (·.key == key) = none :=
      List.find?_eq_none.mpr fun t ht heq => hkey ⟨t, ht, eq_of_beq heq⟩
    rw [find?_interfaces_filter hfree, hnone, Option.map_none, Option.or_none]
    generalize (_ : Option Interface).or _ = o
    cases o with
    | none => exact .none
    | some t => exact .some (.refl t)

end Build

/-! ### Files in another order -/

variable {r r' : Registry}

/-- Both registries answer every key with the same interface, and know the same delegates with the same
implementations. -/
structure Reordered (r r' : Registry) : Prop where
  get?_eq : ∀ key, r.get? key = r'.get? key
  interfaces_perm : r.interfaces.Perm r'.interfaces
  mem_delegateNames : ∀ name, name ∈ r.delegateNames ↔ name ∈ r'.delegateNames
  implementations_perm : ∀ name, (r.implementations name).Perm (r'.implementations name)

/-- The interfaces of a registry in another order are found under the same keys. -/
theorem Distinct.get?_eq_of_perm (hr : r.Distinct) (h : r.interfaces.Perm r'.interfaces) (key : String) :
    r.get? key = r'.get? key := by
  have hr' : r'.Distinct := (h.map Interface.key).nodup_iff.mp hr
  refine Option.ext fun t => ?_
  rw [hr.get?_eq_some_iff, hr'.get?_eq_some_iff, h.mem_iff]

/-- What a registry answers decides about all that it holds but the order. -/
theorem Distinct.reordered (hr : r.Distinct) (hr' : r'.Distinct)
    (h : ∀ key, r.get? key = r'.get? key) : r.Reordered r' := by
  have hmem : ∀ t, t ∈ r.interfaces ↔ t ∈ r'.interfaces := fun t =>
    calc t ∈ r.interfaces
      _ ↔ r.get? t.key = some t := by rw [hr.get?_eq_some_iff, and_iff_left rfl]
      _ ↔ r'.get? t.key = some t := by rw [h]
      _ ↔ t ∈ r'.interfaces := by rw [hr'.get?_eq_some_iff, and_iff_left rfl]
  have hperm : r.interfaces.Perm r'.interfaces :=
    (List.perm_ext_iff_of_nodup hr.of_map hr'.of_map).mpr hmem
  refine ⟨h, hperm, fun name => ?_, fun name => hperm.filter _⟩
  rw [delegateNames, delegateNames, List.mem_eraseDups, List.mem_eraseDups,
    (hperm.filterMap _).mem_iff]

/-- Files in another order make no difference to calls. -/
theorem Reordered.calledAlike (h : r.Reordered r') : r.CalledAlike r' := by
  intro key
  rw [h.get?_eq]
  cases r'.get? key with
  | none => exact .none
  | some t => exact .some (.refl t)

section Build

variable {files files' : FileSet} {dependencies : List Dependency}

/-- Whether a registry is built without an error does not depend on the order of the files. -/
theorem build_snd_eq_nil_of_perm (h : files.Perm files') (hnil : (build files dependencies).2 = []) :
    (build files' dependencies).2 = [] := by
  obtain ⟨hcomplete, hsound⟩ := (build_registers files dependencies).snd_eq_nil_iff.mp hnil
  refine (build_registers files' dependencies).snd_eq_nil_iff.mpr
    ⟨fun f hf => hcomplete f (h.mem_iff.mpr hf), ?_⟩
  have hinterfaces := (h.flatMap_right (·.interfaces)).append_right
    (dependencies.flatMap (·.interfaces))
  refine insertAll_snd_eq_nil_iff.mpr ⟨fun t _ kept hkept => ?_, ?_⟩
  · cases hkept
  · exact (hinterfaces.pairwise_iff fun hboth heq => (hboth heq.symm).symm).mp
      (insertAll_snd_eq_nil_iff.mp hsound).2

/-- **Files in another order.** A registry that is built without an error is, but for its order, the one
that is built from the files in another order. -/
theorem reordered_build (h : files.Perm files') (hnil : (build files dependencies).2 = []) :
    (build files dependencies).1.Reordered (build files' dependencies).1 := by
  refine (distinct_build files dependencies).reordered (distinct_build files' dependencies) fun key => ?_
  have hkeys : (⟨files.flatMap (·.interfaces)⟩ : Registry).Distinct := (keys_of_build hnil).1
  have hfiles : Registry.get? ⟨files.flatMap (·.interfaces)⟩ key =
      Registry.get? ⟨files'.flatMap (·.interfaces)⟩ key :=
    hkeys.get?_eq_of_perm (h.flatMap_right (·.interfaces)) key
  -- the dependencies come last in both orders, and stand as they stood
  rw [get?_build, get?_build, List.find?_append, List.find?_append]
  exact congrArg (Option.or · _) hfiles

end Build

end Registry

end TemplateFrontend
