import TemplateFrontend.Proofs.Registry.DelegateKeys
/-!
# The tables of a registry

Registration fills two tables, one of interfaces by key and one of keys by delegate. An interface whose key is
free goes into the first one, and if it implements a delegate, its key comes behind those that the delegate
has in the second one. An interface whose key is taken goes into neither of them, whether this is an error,
as with templates of the files, or not, as with two templates of dependencies.

* `Registry.firsts` — of numbered interfaces, those whose key none before them has;
* `Registry.interfaces_insertAll` — those are the interfaces that are registered;
* `Registry.addImplementation` — what registering an interface does to the table of delegates;
* `Registry.Tables` — two tables, and what one registration does to both;
* `Registry.tables_insert` — a registry goes through one step as its two tables do, and
  `Registry.tables_insertAll` through a run of steps;
* `Registry.Tabulates` — what both tables and the errors have to do with what was registered;
* `Registry.build_tabulates` — that it is so for the templates of sources and of dependencies.
-/

namespace TemplateFrontend

namespace Registry

/-! ### Interfaces by key -/

/-- In a list of numbered interfaces, those whose key none before them has. -/
def firsts (ts : List (Interface × Nat)) : List (Interface × Nat) :=
  ts.filter fun x => ts.find? (·.1.key == x.1.key) == some x

section Firsts

variable {ts : List (Interface × Nat)} {x y : Interface × Nat}

/-- An interface behind others is a first one if none of them has its key. -/
theorem firsts_append_singleton (hy : y ∉ ts) : firsts (ts ++ [y]) =
    firsts ts ++ if (ts.find? (·.1.key == y.1.key)).isSome then [] else [y] := by
  unfold firsts
  rw [List.filter_append]
  congr 1
  -- for those before it nothing has changed: each has a first one of its key already
  · refine List.filter_congr fun x hx => ?_
    obtain ⟨kept, hkept⟩ := exists_find? hx
    rw [List.find?_append, hkept]
    rfl
  · rw [List.filter_singleton, List.find?_append]
    cases hfind : ts.find? (·.1.key == y.1.key) with
    | none =>
      rw [Option.none_or, List.find?_singleton, if_pos (beq_self_eq_true _)]
      simp
    | some kept =>
      have hne : kept ≠ y := fun heq => hy (heq ▸ List.mem_of_find?_eq_some hfind)
      simp [beq_eq_false_iff_ne.mpr hne]

/-- **What is registered** are the first interfaces of their keys. -/
theorem interfaces_insertAll (hts : ts.Nodup) :
    (empty.insertAll (ts.map (·.1))).1.interfaces = (firsts ts).map (·.1) := by
  -- from the back, as the last interface is registered into what those before it have left
  induction ts using List.reverseRecOn with
  | nil => rfl
  | append_singleton ts y ih =>
    obtain ⟨hts, -, hdisjoint⟩ := List.nodup_append.mp hts
    have hy : y ∉ ts := fun hy => hdisjoint y hy y (List.mem_singleton_self y) rfl
    have hget := get?_insertAll_map ts y.1.key
    rw [List.map_append, List.map_singleton, insertAll_append, insertAll_cons, insertAll_nil,
      firsts_append_singleton hy, List.map_append]
    cases hfind : ts.find? (·.1.key == y.1.key) with
    -- the key is new, and the interface goes behind the others
    | none =>
      rw [hfind] at hget
      rw [insert_of_none hget, ih hts]
      rfl
    -- the key is taken, and nothing is registered
    | some kept =>
      rw [hfind] at hget
      rw [insert_of_some hget, ih hts]
      exact (List.append_nil _).symm

end Firsts

/-! ### Keys by delegate -/

/-- The table with one more key behind those of a name. -/
def pushKey (name key : String) : List (String × List String) → List (String × List String)
  | [] => [(name, [key])]
  | (n, keys) :: table => if n = name then (n, keys ++ [key]) :: table else (n, keys) :: pushKey name key table

/-- The table with the key of an interface, if that implements a delegate. -/
def addImplementation (table : List (String × List String)) (t : Interface) : List (String × List String) :=
  match t.role.delegateName? with
  | some name => pushKey name t.key table
  | none => table

/-- A name behind others is kept if it is none of them. -/
theorem eraseDups_append_singleton (names : List String) (name : String) : (names ++ [name]).eraseDups =
    if name ∈ names then names.eraseDups else names.eraseDups ++ [name] := by
  rw [List.eraseDups_append, List.removeAll]
  split
  · next h => simp [h]
  · next h => simp [h, List.eraseDups_cons]

/-- No name is left twice. -/
theorem nodup_eraseDups (names : List String) : names.eraseDups.Nodup := by
  induction names using List.reverseRecOn with
  | nil => exact .nil
  | append_singleton names name ih =>
    rw [eraseDups_append_singleton]
    split
    · exact ih
    · next h =>
      refine List.nodup_append.mpr ⟨ih, List.nodup_singleton name, fun n hn n' hn' heq => h ?_⟩
      rw [← List.mem_singleton.mp hn', ← heq]
      exact List.mem_eraseDups.mp hn

/-- A key that is pushed into a table that has an entry for each of some names. -/
theorem pushKey_map {names : List String} (h : names.Nodup) (name key : String) (keys : String → List String) :
    pushKey name key (names.map fun n => (n, keys n)) =
      if name ∈ names then names.map fun n => (n, if n = name then keys n ++ [key] else keys n)
      else (names.map fun n => (n, keys n)) ++ [(name, [key])] := by
  induction names with
  | nil => rfl
  | cons n names ih =>
    obtain ⟨hn, hnames⟩ := List.nodup_cons.mp h
    rw [List.map_cons, pushKey]
    by_cases heq : n = name
    · -- the names are different, so the other entries are not changed
      subst heq
      have hrest : ∀ m ∈ names, (m, keys m) = (m, if m = n then keys m ++ [key] else keys m) := by
        intro m hm
        rw [if_neg]
        rintro rfl
        exact hn hm
      rw [if_pos rfl, if_pos List.mem_cons_self, List.map_cons, if_pos rfl, List.map_congr_left hrest]
    -- the entry is further on, or missing
    · rw [if_neg heq, ih hnames]
      by_cases hmem : name ∈ names
      · simp [hmem, heq]
      · simp [hmem, Ne.symm heq]

/-- One more interface is an implementation of its own delegate only. -/
theorem implementations_append (ts : List Interface) (t : Interface) (name : String) :
    (⟨ts ++ [t]⟩ : Registry).implementations name =
      (⟨ts⟩ : Registry).implementations name ++ if t.role.delegateName? = some name then [t] else [] := by
  rw [implementations, List.filter_append, List.filter_singleton]
  cases h : t.role.delegateName? == some name with
  | true => rw [if_pos (eq_of_beq h)]; rfl
  | false => rw [if_neg (ne_of_beq_false h)]; rfl

/-- A delegate has a name in the table if it has implementations. -/
theorem mem_delegateNames_iff {r : Registry} {name : String} :
    name ∈ r.delegateNames ↔ r.implementations name ≠ [] := by
  rw [delegateNames, List.mem_eraseDups, List.mem_filterMap, implementations, ne_eq, List.filter_eq_nil_iff]
  simp

/-- The name of a delegate stands behind those of others, unless it is one of them. -/
theorem delegateNames_append (ts : List Interface) (t : Interface) :
    (⟨ts ++ [t]⟩ : Registry).delegateNames =
      match t.role.delegateName? with
      | some name =>
        if name ∈ (⟨ts⟩ : Registry).delegateNames then (⟨ts⟩ : Registry).delegateNames
        else (⟨ts⟩ : Registry).delegateNames ++ [name]
      | none => (⟨ts⟩ : Registry).delegateNames := by
  unfold delegateNames
  dsimp only
  rw [List.filterMap_append]
  cases hname : t.role.delegateName? with
  | none =>
    have hnone : [t].filterMap (·.role.delegateName?) = [] := by simp [hname]
    rw [hnone, List.append_nil]
  | some name =>
    -- the name is listed where it comes first
    have hone : [t].filterMap (·.role.delegateName?) = [name] := by simp [hname]
    rw [hone, eraseDups_append_singleton]
    simp only [List.mem_eraseDups]

/-- **One more interface** in the table of interfaces is one more key in the table of delegates, if it
implements one. -/
theorem delegates_append (ts : List Interface) (t : Interface) :
    (⟨ts ++ [t]⟩ : Registry).delegates = addImplementation (⟨ts⟩ : Registry).delegates t := by
  have hnodup : (⟨ts⟩ : Registry).delegateNames.Nodup := nodup_eraseDups _
  rw [delegates, delegates, delegateNames_append, addImplementation]
  cases hname : t.role.delegateName? with
  -- a basic template or an element implements no delegate
  | none =>
    refine List.map_congr_left fun n _ => ?_
    rw [implementations_append, hname, if_neg (Option.some_ne_none n).symm, List.append_nil]
  | some name =>
    dsimp only
    rw [pushKey_map hnodup]
    split
    · -- the delegate has an entry, which gets the key
      refine List.map_congr_left fun n _ => ?_
      rw [implementations_append, hname]
      by_cases heq : n = name
      · subst heq
        rw [if_pos rfl, if_pos rfl, List.map_append, List.map_singleton]
      · have hne : ¬ some name = some n := fun h => heq (Option.some.inj h).symm
        rw [if_neg hne, if_neg heq, List.append_nil]
    · next hnew =>
      -- it gets an entry, and the others have no new implementation
      rw [List.map_append, List.map_singleton]
      congr 1
      · refine List.map_congr_left fun n hn => ?_
        have hne : ¬ some name = some n := fun heq => hnew (Option.some.inj heq ▸ hn)
        rw [implementations_append, hname, if_neg hne, List.append_nil]
      · have hnone : (⟨ts⟩ : Registry).implementations name = [] :=
          not_not.mp fun h => hnew (mem_delegateNames_iff.mpr h)
        rw [implementations_append, hnone, hname, if_pos rfl]
        rfl

/-- An interface whose key is taken leaves the table of delegates alone. -/
theorem delegates_insert (r : Registry) (t : Interface) : (r.insert t).1.delegates =
    if (r.get? t.key).isSome then r.delegates else addImplementation r.delegates t := by
  cases hget : r.get? t.key with
  | none =>
    rw [insert_of_none hget]
    exact delegates_append r.interfaces t
  | some kept =>
    rw [insert_of_some hget]
    rfl

/-- The table of delegates is that of its interfaces, put in one after the other. -/
theorem delegates_eq_foldl (ts : List Interface) :
    (⟨ts⟩ : Registry).delegates = ts.foldl addImplementation [] := by
  induction ts using List.reverseRecOn with
  | nil => rfl
  | append_singleton ts t ih => rw [delegates_append, ih, List.foldl_append, List.foldl_cons, List.foldl_nil]

/-! ### Both tables -/

/-- Two tables: the interfaces in the order in which they came in, and the keys of each delegate. -/
structure Tables where
  interfaces : List Interface
  delegates : List (String × List String)

/-- One registration. An interface whose key is taken leaves both tables as they are. -/
def Tables.insert (x : Tables) (t : Interface) : Tables :=
  if x.interfaces.any (·.key == t.key) then x
  else ⟨x.interfaces ++ [t], addImplementation x.delegates t⟩

/-- The tables of a registry. -/
def tables (r : Registry) : Tables := ⟨r.interfaces, r.delegates⟩

/-- **One step** of a registry is one step of its two tables. -/
theorem tables_insert (r : Registry) (t : Interface) : (r.insert t).1.tables = r.tables.insert t := by
  -- the key is taken exactly if a lookup finds something
  have htaken : r.interfaces.any (·.key == t.key) = (r.get? t.key).isSome :=
    List.isSome_find?.symm
  have hdelegates := delegates_insert r t
  rw [tables, hdelegates, Tables.insert, tables, htaken]
  cases hget : r.get? t.key with
  | none =>
    rw [insert_of_none hget]
    rfl
  | some kept =>
    rw [insert_of_some hget]
    rfl

/-- **A run** of registrations fills the two tables step by step. -/
theorem tables_insertAll (r : Registry) (ts : List Interface) :
    (r.insertAll ts).1.tables = ts.foldl Tables.insert r.tables := by
  induction ts generalizing r with
  | nil => rfl
  | cons t ts ih => rw [insertAll_cons, ih, tables_insert, List.foldl_cons]

/-- What the tables of a registry and the errors have to do with the interfaces that were registered, which
are numbered in the order of registration. -/
structure Tabulates (ts : List (Interface × Nat)) (x : Registry × Diagnostics) : Prop where
  /-- A key has the first interface with that key. -/
  get?_eq : ∀ key, x.1.get? key = (ts.find? (·.1.key == key)).map (·.1)
  /-- The first interfaces are all that is registered. -/
  interfaces_eq : x.1.interfaces = (firsts ts).map (·.1)
  /-- There is an error for each later interface of a key whose first one is no dependency's. -/
  reports_eq : x.2 = ((repetitions ts).filter (! ·.1.1.origin.isDependency)).map fun p =>
    duplicate p.1.1 p.2.1
  /-- Both tables are filled from empty ones, one registration after the other. -/
  tables_eq : x.1.tables = (ts.map (·.1)).foldl Tables.insert ⟨[], []⟩
  /-- The table of delegates is filled as interfaces are registered. -/
  delegates_eq : x.1.delegates = ((firsts ts).map (·.1)).foldl addImplementation []
  /-- A delegate has one entry, with the keys of its registered templates. -/
  mem_delegates_iff : ∀ name keys, (name, keys) ∈ x.1.delegates ↔ keys ≠ [] ∧
    keys = (((firsts ts).map (·.1)).filter (·.role.delegateName? == some name)).map (·.key)
  names_nodup : (x.1.delegates.map (·.1)).Nodup
  /-- Each key stands once in its entry, and has a template in the table of interfaces. -/
  keys_nodup : ∀ name keys, (name, keys) ∈ x.1.delegates → keys.Nodup
  linked : ∀ name keys, (name, keys) ∈ x.1.delegates → keys.map x.1.get? = (x.1.implementations name).map some

/-- The entry of a delegate has the keys of its implementations, and it has one key at least. -/
theorem mem_delegates_iff {r : Registry} {name : String} {keys : List String} :
    (name, keys) ∈ r.delegates ↔ keys ≠ [] ∧ keys = (r.implementations name).map (·.key) := by
  rw [delegates, List.mem_map]
  constructor
  · rintro ⟨n, hn, heq⟩
    obtain ⟨rfl, rfl⟩ := Prod.mk.inj heq
    exact ⟨fun hnil => mem_delegateNames_iff.mp hn (List.map_eq_nil_iff.mp hnil), rfl⟩
  · rintro ⟨hne, rfl⟩
    exact ⟨name, mem_delegateNames_iff.mpr fun hnil => hne (by rw [hnil, List.map_nil]), rfl⟩

/-- The keys of the implementations of a delegate lead back to them. -/
theorem Distinct.map_get? {r : Registry} (h : r.Distinct) (name : String) :
    ((r.implementations name).map (·.key)).map r.get? = (r.implementations name).map some := by
  rw [List.map_map]
  refine List.map_congr_left fun t ht => ?_
  exact h.get?_eq_some_iff.mpr ⟨(List.mem_filter.mp ht).1, rfl⟩

/-- **The tables** of a registry that was filled from nothing. -/
theorem tabulates_of_insertAll {ts : List (Interface × Nat)} (hts : ts.Nodup) {x : Registry × Diagnostics}
    (hx : x = empty.insertAll (ts.map (·.1)))
    (hsorted : ∀ p ∈ repetitions ts, p.1.1.origin.isDependency = true → p.2.1.origin.isDependency = true) :
    Tabulates ts x := by
  -- of the interfaces with one key the first is kept
  have hinterfaces : x.1.interfaces = (firsts ts).map (·.1) := by rw [hx, interfaces_insertAll hts]
  have hdistinct : x.1.Distinct := by
    rw [hx]
    exact distinct_empty.insertAll _
  -- dependencies come last, so the second interface is a dependency's if the first one is
  have hconflicts : conflicts ts = (repetitions ts).filter (! ·.1.1.origin.isDependency) := by
    refine List.filter_congr fun p hp => ?_
    cases hkept : p.1.1.origin.isDependency with
    | false => rfl
    | true => rw [hsorted p hp hkept]; rfl
  refine ⟨fun key => ?_, hinterfaces, ?_, ?_, ?_, fun name keys => ?_, ?_, fun name keys h => ?_,
    fun name keys h => ?_⟩
  · rw [hx]
    exact get?_insertAll_map ts key
  · rw [hx, insertAll_conflicts hts, hconflicts]
  · rw [hx]
    exact tables_insertAll empty (ts.map (·.1))
  · rw [← hinterfaces]
    exact delegates_eq_foldl x.1.interfaces
  · rw [mem_delegates_iff, implementations, hinterfaces]
  · have hnames : x.1.delegates.map (·.1) = x.1.delegateNames := by
      rw [delegates, List.map_map]
      exact List.map_id _
    rw [hnames]
    exact nodup_eraseDups _
  · rw [(mem_delegates_iff.mp h).2]
    exact (List.filter_sublist.map _).nodup hdistinct
  · rw [(mem_delegates_iff.mp h).2]
    exact hdistinct.map_get? name

end Registry

/-! ### Files and dependencies -/

/-- The second interface is the first one as it is registered for a dependency: with the origin of the
dependency, and with its path if there is none. -/
structure Dependency.Lends (d : Dependency) (t u : Interface) : Prop where
  origin_eq : u.origin = if d.direct then .dependency else .indirectDependency
  location_eq : t.location.path ≠ "" → u.location = t.location
  location_eq_ofPath : t.location.path = "" → u.location = .ofPath d.path
  rest_eq : { u with origin := t.origin, location := t.location } = t

/-- Each interface of the unit is lent as one of the dependency. -/
theorem Dependency.forall₂_lends (d : Dependency) : List.Forall₂ d.Lends d.unit d.interfaces := by
  refine List.forall₂_map_right_iff.mpr (List.forall₂_same.mpr fun t _ => ⟨rfl, ?_, ?_, rfl⟩)
  · exact fun h => if_neg h
  · exact fun h => if_pos h

/-- What a dependency lends has the origin of a dependency. -/
theorem Dependency.isDependency_of_mem {d : Dependency} {t : Interface} (h : t ∈ d.interfaces) :
    t.origin.isDependency = true := by
  obtain ⟨u, -, rfl⟩ := List.mem_map.mp h
  change d.origin.isDependency = true
  unfold Dependency.origin
  split <;> rfl

namespace Registry

/-- A template of a dependency does not stand before one of the files. -/
theorem isDependency_of_mem_repetitions {ts us : List Interface}
    (hts : ∀ t ∈ ts, t.origin.isDependency = false) (hus : ∀ t ∈ us, t.origin.isDependency = true)
    {p : (Interface × Nat) × (Interface × Nat)} (hp : p ∈ repetitions (ts ++ us).zipIdx)
    (hkept : p.1.1.origin.isDependency = true) : p.2.1.origin.isDependency = true := by
  obtain ⟨kept, x⟩ := p
  obtain ⟨hx, hfind, -⟩ := mem_repetitions.mp hp
  rw [List.zipIdx_append] at hx hfind
  obtain hx | hx := List.mem_append.mp hx
  · -- the first interface of its key is one of the files as well
    obtain ⟨first, hfirst⟩ := exists_find? hx
    rw [List.find?_append, hfirst, Option.some_or] at hfind
    obtain rfl := Option.some.inj hfind
    have hmem := List.mem_of_find?_eq_some hfirst
    rw [hts _ (List.fst_mem_of_mem_zipIdx hmem)] at hkept
    cases hkept
  · exact hus _ (List.fst_mem_of_mem_zipIdx hx)

/-- **The tables of a registry.** All templates of files of sources are registered, in the order of their
files, and behind them those of the dependencies, as those lend them. Each key has the first interface that
was registered under it; there is an error for each later one if the first one is a template of the files,
and for nothing else; and the table of delegates has, for each delegate, the keys of those of its templates
that were not refused, once and in the order of registration. -/
theorem build_tabulates {files : FileSet} (hfiles : ∀ f ∈ files, f.FromSource)
    (dependencies : List Dependency) :
    ∃ ts : List Interface,
      files.declared.map (fun p => Interface.ofTemplate p.1 p.2.1 p.2.2) = ts.map .ok ∧
      (∀ t ∈ ts, t.origin = .source) ∧
      (∀ d ∈ dependencies, List.Forall₂ d.Lends d.unit d.interfaces) ∧
      Tabulates (ts ++ dependencies.flatMap (·.interfaces)).zipIdx (build files dependencies) := by
  -- in a file of a source every template has an interface
  have hcomplete : ∀ f ∈ files, f.Registrable := fun f hf => (hfiles f hf).registrable
  have horigin : ∀ t ∈ files.flatMap (·.interfaces), t.origin = .source := by
    intro t ht
    obtain ⟨f, -, htf⟩ := List.mem_flatMap.mp ht
    exact (TemplateFile.exists_of_mem_interfaces htf).1
  have hbuild := build_registers files dependencies
  refine ⟨files.flatMap (·.interfaces), ?_, horigin, fun d _ => d.forall₂_lends, ?_⟩
  · rw [FileSet.declared, List.map_flatMap, List.map_flatMap]
    refine List.flatMap_congr fun f hf => ?_
    rw [List.map_map]
    exact (hcomplete f hf).map_ofTemplate
  · refine tabulates_of_insertAll (List.nodup_zipIdx_map_snd _).of_map ?_ fun p hp => ?_
    · rw [List.zipIdx_map_fst]
      exact Prod.ext hbuild.registry_eq (hbuild.reports_eq hcomplete)
    -- files come first, so that a dependency's is not followed by one of theirs
    · refine isDependency_of_mem_repetitions (fun t ht => ?_) (fun t ht => ?_) hp
      · rw [horigin t ht]
        rfl
      · obtain ⟨d, -, htd⟩ := List.mem_flatMap.mp ht
        exact Dependency.isDependency_of_mem htd

/-- A source with a template and an implementation of a delegate. -/
def menuSource : SourceText :=
  ⟨"a.st", "\x7bnamespace app\x7d\x7btemplate .page\x7dx\x7b/template\x7d\x7bdeltemplate app.menu\x7dy\x7b/deltemplate\x7d"⟩

/-- The interface of a template without parameters that says nothing of its place. -/
def bareInterface (key : String) (role : Role) (h : key ≠ "") : Interface :=
  ⟨key, .ofPath "", .source, role, .html, true, .everyone, none, [], [], h⟩

/-- A dependency with a template of the source, and one that has a template of the first one and another
implementation of the delegate. -/
def menuDependencies : List Dependency :=
  [⟨true, "lib.json", [bareInterface "lib.button" .basic (by decide), bareInterface "app.page" .basic (by decide)]⟩,
    ⟨false, "base.json", [bareInterface "lib.button" .basic (by decide),
      bareInterface "app.menu#wide" (.delegate "app.menu" "wide") (by decide)]⟩]

/-- The template of the source that comes again is an error, and that of two dependencies is none. -/
theorem build_tabulates_menu :
    ∃ f, parse menuSource = .ok f ∧ (∀ g ∈ [f], g.FromSource) ∧
      (∃ ts : List Interface, (∀ t ∈ ts, t.origin = .source) ∧
        Tabulates (ts ++ menuDependencies.flatMap (·.interfaces)).zipIdx (build [f] menuDependencies)) ∧
      (build [f] menuDependencies).2.map (·.text) =
        ["error: template 'app.page' is already defined at a.st:1:16 (at lib.json)"] ∧
      ((build [f] menuDependencies).1.get? "lib.button").map (fun t => (t.origin, t.location.text)) =
        some (.dependency, "lib.json") ∧
      (build [f] menuDependencies).1.delegates = [("app.menu", ["app.menu#", "app.menu#wide"])] := by
  -- all that is said about this build by one evaluation
  obtain ⟨f, hf, hseen⟩ := @exists_of_toOption_map _ _ _ (parse menuSource)
    (fun f => ((build [f] menuDependencies).2.map (·.text),
      ((build [f] menuDependencies).1.get? "lib.button").map (fun t => (t.origin, t.location.text)),
      (build [f] menuDependencies).1.delegates))
    (["error: template 'app.page' is already defined at a.st:1:16 (at lib.json)"],
      some (.dependency, "lib.json"), [("app.menu", ["app.menu#", "app.menu#wide"])]) (by decide +kernel)
  have hfiles : ∀ g ∈ [f], g.FromSource := List.forall_mem_singleton.mpr (.of_parse hf)
  obtain ⟨ts, -, hsource, -, htables⟩ := build_tabulates hfiles menuDependencies
  obtain ⟨htexts, hrest⟩ := Prod.mk.inj hseen
  obtain ⟨hbutton, hdelegates⟩ := Prod.mk.inj hrest
  exact ⟨f, hf, hfiles, ⟨ts, hsource, htables⟩, htexts, hbutton, hdelegates⟩

end Registry

end TemplateFrontend
