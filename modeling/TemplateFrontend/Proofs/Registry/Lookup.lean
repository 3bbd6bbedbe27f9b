import TemplateFrontend.Proofs.Readers
import TemplateFrontend.Registry
import Mathlib.Data.List.Induction
/-!
# What a registry answers

A registry is filled one interface after the other, and the first interface of a key stays. What it
answers is therefore read off the list of the interfaces in the order in which they were put in. For
each template of a file whose key is taken there is one error, which names the template that was
registered first under the key. So templates with one key are known from the errors: one of them is
named in the error for the other, or one and the same template is named in the errors for both.

* `Registry.get?_insertAll` — a key has the interface it had, else the first new one;
* `Registry.Distinct` — no two registered interfaces have one key, which every registry keeps;
* `Registry.insertAll_snd_eq_nil_iff` — which interfaces can be put in without an error;
* `Registry.build_registers`, `Registry.get?_build` — the interfaces that a registry is built from;
* `Registry.repetitions` — the templates for which there is an error, with the one that it names;
* `Registry.insertAll_conflicts` — those are the errors, in this order, but for two of dependencies;
* `Registry.repeatTogether_iff` — the templates that are known to have one key.
-/

namespace TemplateFrontend

namespace Registry

/-! ### One interface -/

/-- An interface whose key is free is put behind the others. -/
theorem insert_of_none {r : Registry} {t : Interface} (h : r.get? t.key = none) :
    r.insert t = (⟨r.interfaces ++ [t]⟩, []) := by
  rw [insert, h]

/-- An interface whose key is taken leaves the registry as it is. -/
theorem insert_of_some {r : Registry} {t kept : Interface} (h : r.get? t.key = some kept) :
    (r.insert t).1 = r := by
  rw [insert, h]
  dsimp only
  split <;> rfl

/-- A key has the first interface that has it. -/
theorem get?_append (r : Registry) (t : Interface) (key : String) :
    (⟨r.interfaces ++ [t]⟩ : Registry).get? key =
      (r.get? key).or (if t.key == key then some t else none) := by
  rw [get?, List.find?_append, get?, List.find?_singleton]

/-- After an interface was put in, its key has the interface it had, else that one. -/
theorem get?_insert (r : Registry) (t : Interface) (key : String) :
    (r.insert t).1.get? key = (r.get? key).or (if t.key == key then some t else none) := by
  cases hget : r.get? t.key with
  | none =>
    rw [insert_of_none hget, get?_append]
  | some kept =>
    rw [insert_of_some hget]
    by_cases hkey : t.key == key
    · obtain rfl := eq_of_beq hkey
      rw [hget]
      rfl
    · rw [if_neg hkey, Option.or_none]

/-- Putting in an interface is an error unless its key is free, or both come from dependencies. -/
theorem insert_snd_eq_nil_iff {r : Registry} {t : Interface} :
    (r.insert t).2 = [] ↔ ∀ kept, r.get? t.key = some kept →
      kept.origin.isDependency = true ∧ t.origin.isDependency = true := by
  cases hget : r.get? t.key with
  | none => simp [insert_of_none hget]
  | some kept =>
    rw [insert, hget]
    dsimp only
    split
    · next h => simpa using h
    · next h => simpa using h

/-- All that putting in an interface reports are errors of registration. -/
theorem mem_insert_snd {r : Registry} {t : Interface} {d : Diagnostic} (h : d ∈ (r.insert t).2) :
    d.phase = phase ∧ d.isError = true := by
  unfold insert at h
  split at h
  · cases h
  · split at h
    · cases h
    · obtain rfl := List.mem_singleton.mp h
      exact ⟨rfl, rfl⟩

/-! ### Several interfaces -/

/-- What was reported before stays in front. -/
theorem insertAll_foldl (r : Registry) (ts : List Interface) (ds : Diagnostics) :
    ts.foldl (fun (x : Registry × Diagnostics) t => ((x.1.insert t).1, x.2 ++ (x.1.insert t).2))
        (r, ds) = ((r.insertAll ts).1, ds ++ (r.insertAll ts).2) := by
  induction ts generalizing r ds with
  | nil => simp [insertAll]
  | cons t ts ih =>
    simp only [insertAll, List.foldl_cons, List.nil_append] at ih ⊢
    rw [ih, ih _ (r.insert t).2, List.append_assoc]

theorem insertAll_nil (r : Registry) : r.insertAll [] = (r, []) := rfl

/-- The first interface is put in before the others. -/
theorem insertAll_cons (r : Registry) (t : Interface) (ts : List Interface) :
    r.insertAll (t :: ts) = (((r.insert t).1.insertAll ts).1,
      (r.insert t).2 ++ ((r.insert t).1.insertAll ts).2) :=
  insertAll_foldl (r.insert t).1 ts (r.insert t).2

/-- Some interfaces are put in, and then others. -/
theorem insertAll_append (r : Registry) (ts us : List Interface) :
    r.insertAll (ts ++ us) = (((r.insertAll ts).1.insertAll us).1,
      (r.insertAll ts).2 ++ ((r.insertAll ts).1.insertAll us).2) := by
  induction ts generalizing r with
  | nil => rfl
  | cons t ts ih => simp only [List.cons_append, insertAll_cons, ih, List.append_assoc]

/-- A key has the interface it had, else the first of the new ones. -/
theorem get?_insertAll (r : Registry) (ts : List Interface) (key : String) :
    (r.insertAll ts).1.get? key = (r.get? key).or (ts.find? (·.key == key)) := by
  induction ts generalizing r with
  | nil => rw [insertAll_nil, List.find?_nil, Option.or_none]
  | cons t ts ih =>
    rw [insertAll_cons, ih, get?_insert, Option.or_assoc, List.find?_cons]
    cases t.key == key <;> rfl

/-- All that is reported are errors of registration. -/
theorem mem_insertAll_snd {r : Registry} {ts : List Interface} {d : Diagnostic}
    (h : d ∈ (r.insertAll ts).2) : d.phase = phase ∧ d.isError = true := by
  induction ts generalizing r with
  | nil => cases h
  | cons t ts ih =>
    rw [insertAll_cons] at h
    obtain h | h := List.mem_append.mp h
    · exact mem_insert_snd h
    · exact ih h

/-- Interfaces are put in without an error if two of one key both come from dependencies, and so do
those whose key was not free. -/
theorem insertAll_snd_eq_nil_iff {r : Registry} {ts : List Interface} :
    (r.insertAll ts).2 = [] ↔
      (∀ t ∈ ts, ∀ kept, r.get? t.key = some kept →
        kept.origin.isDependency = true ∧ t.origin.isDependency = true) ∧
      ts.Pairwise fun t u => t.key = u.key →
        t.origin.isDependency = true ∧ u.origin.isDependency = true := by
  induction ts generalizing r with
  | nil => exact ⟨fun _ => ⟨fun _ ht => (nomatch ht), .nil⟩, fun _ => rfl⟩
  | cons t ts ih =>
    rw [insertAll_cons, List.append_eq_nil_iff, ih, insert_snd_eq_nil_iff, List.forall_mem_cons,
      List.pairwise_cons]
    constructor
    · rintro ⟨hfirst, hrest, hpairwise⟩
      refine ⟨⟨hfirst, fun u hu kept hkept => hrest u hu kept ?_⟩, fun u hu heq => ?_, hpairwise⟩
      · rw [get?_insert, hkept]
        rfl
      · -- the key of both has the interface that was there first
        cases hget : r.get? t.key with
        | none =>
          refine hrest u hu t ?_
          rw [get?_insert, ← heq, hget, beq_self_eq_true, if_pos rfl]
          rfl
        | some kept =>
          refine ⟨(hfirst kept hget).2, (hrest u hu kept ?_).2⟩
          rw [get?_insert, ← heq, hget]
          rfl
    -- back: what the key has after the first insertion is one of two interfaces
    · rintro ⟨⟨hfirst, hrest⟩, hsame, hpairwise⟩
      refine ⟨hfirst, fun u hu kept hkept => ?_, hpairwise⟩
      rw [get?_insert, Option.or_eq_some_iff] at hkept
      obtain hkept | ⟨-, hkept⟩ := hkept
      · exact hrest u hu kept hkept
      -- the interface that has the key was put in just now, or was there before
      · by_cases hkey : t.key == u.key
        · rw [if_pos hkey] at hkept
          obtain rfl := Option.some.inj hkept
          exact hsame u hu (eq_of_beq hkey)
        · rw [if_neg hkey] at hkept
          cases hkept

/-! ### Keys -/

/-- No two registered interfaces have one key. -/
def Distinct (r : Registry) : Prop := (r.interfaces.map (·.key)).Nodup

/-- Putting in an interface keeps the keys apart. -/
theorem Distinct.insert {r : Registry} (h : r.Distinct) (t : Interface) :
    (r.insert t).1.Distinct := by
  cases hget : r.get? t.key with
  | none =>
    rw [insert_of_none hget]
    -- nothing stands under the key yet
    have hfree : ∀ u ∈ r.interfaces, ¬ (u.key == t.key) = true := List.find?_eq_none.mp hget
    unfold Distinct at h ⊢
    rw [List.map_append, List.nodup_append]
    refine ⟨h, by simp, fun key hkey key' hkey' heq => ?_⟩
    obtain ⟨u, hu, rfl⟩ := List.mem_map.mp hkey
    obtain rfl := List.mem_singleton.mp hkey'
    exact hfree u hu (by simpa using heq)
  | some kept => rwa [insert_of_some hget]

/-- So does putting in several. -/
theorem Distinct.insertAll {r : Registry} (h : r.Distinct) (ts : List Interface) :
    (r.insertAll ts).1.Distinct := by
  induction ts generalizing r with
  | nil => exact h
  | cons t ts ih =>
    rw [insertAll_cons]
    exact ih (h.insert t)

/-- In an empty registry no key is taken twice. -/
theorem distinct_empty : empty.Distinct := .nil

/-- What is registered is what its key answers. -/
theorem Distinct.get?_eq_some_iff {r : Registry} (h : r.Distinct) {key : String} {t : Interface} :
    r.get? key = some t ↔ t ∈ r.interfaces ∧ t.key = key := by
  constructor
  · intro hget
    exact ⟨List.mem_of_find?_eq_some hget, by simpa using List.find?_some hget⟩
  · rintro ⟨ht, rfl⟩
    exact find?_eq_some_of_nodup h ht

/-- A delegate is known if the interface of some key implements it. -/
theorem Distinct.hasDelegate_iff {r : Registry} (h : r.Distinct) {name : String} :
    r.hasDelegate name = true ↔
      ∃ key t, r.get? key = some t ∧ t.role.delegateName? = some name := by
  rw [hasDelegate, Bool.not_eq_true', List.isEmpty_eq_false_iff_exists_mem]
  constructor
  · rintro ⟨t, ht⟩
    obtain ⟨ht, hname⟩ := List.mem_filter.mp ht
    exact ⟨t.key, t, h.get?_eq_some_iff.mpr ⟨ht, rfl⟩, by simpa using hname⟩
  · rintro ⟨key, t, hget, hname⟩
    exact ⟨t, List.mem_filter.mpr ⟨(h.get?_eq_some_iff.mp hget).1, by simpa using hname⟩⟩

end Registry

/-! ### Building -/

/-- The interfaces of the templates of a file, of those that have one. -/
def TemplateFile.interfaces (f : TemplateFile) : List Interface :=
  f.declared.flatMap fun p => (Interface.ofTemplate f p.1 p.2).toOption.toList

/-- Every template of the file has an interface. -/
def TemplateFile.Registrable (f : TemplateFile) : Prop :=
  ∀ p ∈ f.declared, ∃ t, Interface.ofTemplate f p.1 p.2 = .ok t

namespace Registry

/-- A registry with what was reported when interfaces were put into another one. If all that was to be
put in has an interface, nothing else is reported than for those interfaces, and else something is. -/
structure Registers (r : Registry) (ts : List Interface) (complete : Prop)
    (x : Registry × Diagnostics) : Prop where
  registry_eq : x.1 = (r.insertAll ts).1
  errors : ∀ d ∈ x.2, d.phase = phase ∧ d.isError = true
  reports_eq : complete → x.2 = (r.insertAll ts).2
  complete_of_nil : x.2 = [] → complete

namespace Registers

variable {r : Registry} {ts us : List Interface} {complete complete' : Prop}
  {x y : Registry × Diagnostics}

/-- Nothing is put in. -/
theorem nil (r : Registry) : Registers r [] True (r, []) :=
  ⟨rfl, (fun _ hd => nomatch hd), fun _ => rfl, fun _ => trivial⟩

/-- Interfaces that there are, one after the other. -/
theorem insertAll (r : Registry) (ts : List Interface) : Registers r ts True (r.insertAll ts) :=
  ⟨rfl, fun _ hd => mem_insertAll_snd hd, fun _ => rfl, fun _ => trivial⟩

/-- One interface that there is. -/
theorem insert (r : Registry) (t : Interface) : Registers r [t] True (r.insert t) := by
  have h := insertAll r [t]
  rwa [insertAll_cons, insertAll_nil, List.append_nil] at h

/-- Something that cannot be put in is an error. -/
theorem error {d : Diagnostic} (hd : d.phase = phase ∧ d.isError = true) :
    Registers r [] False (r, [d]) :=
  ⟨rfl, fun _ hd' => List.mem_singleton.mp hd' ▸ hd, nofun, nofun⟩

/-- That all interfaces are there may be said in another way. -/
theorem congr (h : Registers r ts complete x) (hiff : complete ↔ complete') :
    Registers r ts complete' x :=
  ⟨h.registry_eq, h.errors, fun hc => h.reports_eq (hiff.mpr hc), fun hn => hiff.mp (h.complete_of_nil hn)⟩

/-- Nothing is reported if everything has an interface that can be put in without an error. -/
theorem snd_eq_nil_iff (h : Registers r ts complete x) :
    x.2 = [] ↔ complete ∧ (r.insertAll ts).2 = [] := by
  constructor
  · intro hnil
    have hcomplete := h.complete_of_nil hnil
    exact ⟨hcomplete, h.reports_eq hcomplete ▸ hnil⟩
  · rintro ⟨hcomplete, hnil⟩
    rw [h.reports_eq hcomplete, hnil]

/-- Some things are put in, and then others. -/
theorem append (hx : Registers r ts complete x) (hy : Registers x.1 us complete' y) :
    Registers r (ts ++ us) (complete ∧ complete') (y.1, x.2 ++ y.2) := by
  have hregistry := hy.registry_eq
  have hreports := hy.reports_eq
  rw [hx.registry_eq] at hregistry hreports
  -- the second part starts from the registry that the first one has left
  refine ⟨?_, fun d hd => ?_, fun h => ?_, fun h => ?_⟩
  · rw [insertAll_append]
    exact hregistry
  · obtain hd | hd := List.mem_append.mp hd
    · exact hx.errors d hd
    · exact hy.errors d hd
  · rw [insertAll_append, hx.reports_eq h.1, hreports h.2]
  · obtain ⟨hnil, hnil'⟩ := List.append_eq_nil_iff.mp h
    exact ⟨hx.complete_of_nil hnil, hy.complete_of_nil hnil'⟩

/-- One thing after the other is put in. -/
theorem foldl {α : Type} {step : Registry → α → Registry × Diagnostics}
    {interfaces : α → List Interface} {each : α → Prop}
    (hstep : ∀ r a, Registers r (interfaces a) (each a) (step r a))
    (hx : Registers r ts complete x) (as : List α) :
    Registers r (ts ++ as.flatMap interfaces) (complete ∧ ∀ a ∈ as, each a)
      (as.foldl (fun x a => ((step x.1 a).1, x.2 ++ (step x.1 a).2)) x) := by
  induction as generalizing ts complete x with
  | nil =>
    rw [List.flatMap_nil, List.append_nil]
    exact hx.congr (by simp)
  | cons a as ih =>
    rw [List.flatMap_cons, ← List.append_assoc]
    exact (ih (hx.append (hstep x.1 a))).congr (by rw [List.forall_mem_cons, and_assoc])

end Registers

/-- One template of a file put in. -/
def insertTemplate (f : TemplateFile) (r : Registry) (p : NodeId × Template) :
    Registry × Diagnostics :=
  match Interface.ofTemplate f p.1 p.2 with
  | .ok t => r.insert t
  | .error e => (r, [.errorAt phase e.message (f.location (f.span p.1))])

/-- A template is put in if it has an interface. -/
theorem insertTemplate_registers (f : TemplateFile) (r : Registry) (p : NodeId × Template) :
    Registers r (Interface.ofTemplate f p.1 p.2).toOption.toList
      (∃ t, Interface.ofTemplate f p.1 p.2 = .ok t) (r.insertTemplate f p) := by
  unfold insertTemplate
  cases Interface.ofTemplate f p.1 p.2 with
  | ok t => exact (Registers.insert r t).congr (by simp)
  | error e => exact (Registers.error ⟨rfl, rfl⟩).congr (by simp)

/-- A file is put in template by template. -/
theorem insertFile_registers (f : TemplateFile) (r : Registry) :
    Registers r f.interfaces f.Registrable (r.insertFile f) := by
  -- templates that build no interface leave the registry alone, so this is a fold over all of them
  have hstep : r.insertFile f = f.declared.foldl (fun x p =>
      ((x.1.insertTemplate f p).1, x.2 ++ (x.1.insertTemplate f p).2)) (r, []) := by
    unfold insertFile
    congr 1
    funext x p
    unfold insertTemplate
    dsimp only
    cases Interface.ofTemplate f p.1 p.2 <;> rfl
  rw [hstep]
  exact (Registers.foldl (fun r p => insertTemplate_registers f r p) (.nil r) f.declared).congr
    (by rw [TemplateFile.Registrable, true_and])

/-- **Building a registry.** The interfaces of the files are put in, one after the other, and then
those of the dependencies. -/
theorem build_registers (files : FileSet) (dependencies : List Dependency) :
    Registers empty (files.flatMap (·.interfaces) ++ dependencies.flatMap (·.interfaces))
      (∀ f ∈ files, f.Registrable) (build files dependencies) := by
  have hfiles := Registers.foldl (fun r f => insertFile_registers f r) (.nil empty) files
  exact (hfiles.append (.insertAll _ _)).congr (by rw [true_and, and_true])

/-- No registry that is built has a key twice. -/
theorem distinct_build (files : FileSet) (dependencies : List Dependency) :
    (build files dependencies).1.Distinct := by
  rw [(build_registers files dependencies).registry_eq]
  exact distinct_empty.insertAll _

/-- What a key answers: the first interface with the key, those of the files before those of the
dependencies. -/
theorem get?_build (files : FileSet) (dependencies : List Dependency) (key : String) :
    (build files dependencies).1.get? key =
      (files.flatMap (·.interfaces) ++ dependencies.flatMap (·.interfaces)).find?
        (·.key == key) := by
  rw [(build_registers files dependencies).registry_eq, get?_insertAll]
  rfl

/-! ### Templates that are defined twice -/

/-- The error for an interface whose key another one has. -/
def duplicate (kept t : Interface) : Diagnostic :=
  .errorAt phase (describe t ++ " is already defined at " ++ kept.location.text) t.location

/-- There is an error for an interface whose key is taken, unless both come from dependencies. -/
theorem insert_snd_of_some {r : Registry} {t kept : Interface} (h : r.get? t.key = some kept) :
    (r.insert t).2 =
      if kept.origin.isDependency && t.origin.isDependency then [] else [duplicate kept t] := by
  rw [insert, h]
  dsimp only
  split <;> rfl

/-- In a list of numbered interfaces, those whose key another one before them has, each with the first
one that has the key. -/
def repetitions (ts : List (Interface × Nat)) : List ((Interface × Nat) × (Interface × Nat)) :=
  ts.filterMap fun x =>
    (ts.find? (·.1.key == x.1.key)).bind fun kept => if kept = x then none else some (kept, x)

/-- The repetitions for which there is an error: those in which not both come from dependencies. -/
def conflicts (ts : List (Interface × Nat)) : List ((Interface × Nat) × (Interface × Nat)) :=
  (repetitions ts).filter fun p => !(p.1.1.origin.isDependency && p.2.1.origin.isDependency)

section Repetitions

variable {ts : List (Interface × Nat)} {x y kept : Interface × Nat}

/-- A repetition is an interface that is not the first one with its key. -/
theorem mem_repetitions : (kept, x) ∈ repetitions ts ↔
    x ∈ ts ∧ ts.find? (·.1.key == x.1.key) = some kept ∧ kept ≠ x := by
  unfold repetitions
  rw [List.mem_filterMap]
  constructor
  · rintro ⟨y, hy, hkept⟩
    obtain ⟨first, hfirst, hkept⟩ := Option.bind_eq_some_iff.mp hkept
    split at hkept
    · cases hkept
    -- what is found first under the key is another interface
    · next hne =>
      obtain ⟨rfl, rfl⟩ := Prod.mk.inj (Option.some.inj hkept)
      exact ⟨hy, hfirst, hne⟩
  · rintro ⟨hx, hkept, hne⟩
    exact ⟨x, hx, Option.bind_eq_some_iff.mpr ⟨kept, hkept, if_neg hne⟩⟩

/-- Both interfaces of a repetition have one key. -/
theorem key_eq_of_mem_repetitions (h : (kept, x) ∈ repetitions ts) : kept.1.key = x.1.key := by
  simpa using List.find?_some (mem_repetitions.mp h).2.1

/-- Some interface has the key of one in the list. -/
theorem exists_find? (hx : x ∈ ts) : ∃ kept, ts.find? (·.1.key == x.1.key) = some kept :=
  Option.isSome_iff_exists.mp (List.find?_isSome.mpr ⟨x, hx, beq_self_eq_true _⟩)

/-- An interface behind others repeats the first of them that has its key. -/
theorem repetitions_append_singleton (hy : y ∉ ts) : repetitions (ts ++ [y]) =
    repetitions ts ++ ((ts.find? (·.1.key == y.1.key)).map fun kept => (kept, y)).toList := by
  unfold repetitions
  rw [List.filterMap_append]
  congr 1
  · refine List.filterMap_congr fun x hx => ?_
    -- earlier interfaces find the same first one, which comes before the new end
    obtain ⟨kept, hkept⟩ := exists_find? hx
    rw [List.find?_append, hkept]
    rfl
  · rw [List.filterMap_cons, List.filterMap_nil, List.find?_append]
    cases hfind : ts.find? (·.1.key == y.1.key) with
    | none =>
      rw [Option.none_or, List.find?_singleton, if_pos (beq_self_eq_true _)]
      simp
    | some kept =>
      -- the new interface repeats a key exactly if one before has it
      have hne : kept ≠ y := fun heq => hy (heq ▸ List.mem_of_find?_eq_some hfind)
      simp [hne]

/-- What the key of an interface behind others answers when those were put in. -/
theorem get?_insertAll_map (ts : List (Interface × Nat)) (key : String) :
    (empty.insertAll (ts.map (·.1))).1.get? key = (ts.find? (·.1.key == key)).map (·.1) := by
  rw [get?_insertAll, List.find?_map]
  rfl

/-- **The errors of registration.** There is one for each interface whose key is taken, unless both
interfaces come from dependencies. -/
theorem insertAll_conflicts (hts : ts.Nodup) :
    (empty.insertAll (ts.map (·.1))).2 = (conflicts ts).map fun p => duplicate p.1.1 p.2.1 := by
  -- from the back: whether the last interface is an error depends on those before it
  induction ts using List.reverseRecOn with
  | nil => rfl
  | append_singleton ts y ih =>
    obtain ⟨hts, -, hdisjoint⟩ := List.nodup_append.mp hts
    have hy : y ∉ ts := fun hy => hdisjoint y hy y (List.mem_singleton_self y) rfl
    have hget := get?_insertAll_map ts y.1.key
    rw [List.map_append, List.map_singleton, insertAll_append, insertAll_cons, insertAll_nil,
      List.append_nil, conflicts, repetitions_append_singleton hy, List.filter_append, List.map_append, ih hts]
    cases hfind : ts.find? (·.1.key == y.1.key) with
    | none =>
      rw [hfind] at hget
      rw [insert_of_none hget]
      rfl
    | some kept =>
      rw [hfind] at hget
      -- the key is taken: an error, unless both come from dependencies
      rw [insert_snd_of_some hget, Option.map_some, Option.toList_some, List.filter_singleton, conflicts]
      dsimp only
      cases kept.1.origin.isDependency && y.1.origin.isDependency <;> rfl

/-- If nothing comes from a dependency, there is an error for each interface whose key is taken. -/
theorem insertAll_reports (hts : ts.Nodup) (hsource : ∀ x ∈ ts, x.1.origin.isDependency = false) :
    (empty.insertAll (ts.map (·.1))).2 = (repetitions ts).map fun p => duplicate p.1.1 p.2.1 := by
  have hall : conflicts ts = repetitions ts := by
    refine List.filter_eq_self.mpr fun p hp => ?_
    rw [hsource p.2 (mem_repetitions.mp hp).1, Bool.and_false, Bool.not_false]
  rw [insertAll_conflicts hts, hall]

/-- The errors tell of two interfaces that they have one key: one of them is named in the error for the
other, or one interface is named in the errors for both. -/
def RepeatTogether (ts : List (Interface × Nat)) (x y : Interface × Nat) : Prop :=
  (x, y) ∈ repetitions ts ∨ (y, x) ∈ repetitions ts ∨
    ∃ kept, (kept, x) ∈ repetitions ts ∧ (kept, y) ∈ repetitions ts

/-- **Two interfaces with one key**, and no others, are told to have one. -/
theorem repeatTogether_iff (hx : x ∈ ts) (hy : y ∈ ts) (hne : x ≠ y) :
    RepeatTogether ts x y ↔ x.1.key = y.1.key := by
  constructor
  · rintro (h | h | ⟨kept, h, h'⟩)
    · exact key_eq_of_mem_repetitions h
    · exact (key_eq_of_mem_repetitions h).symm
    · exact (key_eq_of_mem_repetitions h).symm.trans (key_eq_of_mem_repetitions h')
  · intro heq
    obtain ⟨kept, hkept⟩ := exists_find? hx
    -- both keys have the same first interface, which may be one of the two
    have hkept' : ts.find? (·.1.key == y.1.key) = some kept := heq ▸ hkept
    by_cases hkx : kept = x
    · exact .inl (mem_repetitions.mpr ⟨hy, hkx ▸ hkept', hne⟩)
    · by_cases hky : kept = y
      · exact .inr (.inl (mem_repetitions.mpr ⟨hx, hky ▸ hkept, hne.symm⟩))
      · exact .inr (.inr ⟨kept, mem_repetitions.mpr ⟨hx, hkept, hkx⟩,
          mem_repetitions.mpr ⟨hy, hkept', hky⟩⟩)

end Repetitions

end Registry

end TemplateFrontend
