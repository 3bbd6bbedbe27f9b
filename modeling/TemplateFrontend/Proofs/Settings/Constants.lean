import TemplateFrontend.Settings.Files
import TemplateFrontend.Proofs.Readers
import Mathlib.Data.List.Nodup
import Mathlib.Algebra.Order.BigOperators.Group.List
import Mathlib.Algebra.Order.Group.Nat
/-!
# Constants in nested tables

Constants are read from tables in tables, and each is known by a name made of the keys that lead to it. All tables
write to one list of constants, so a constant is lost if another one comes later under the same name. What becomes of
a table is said here by its leaves, which are its scalars with the keys on the way to them:

* `Globals.leavesIn` — the leaves of a table, in the order in which they are read;
* `Globals.nameAlong`, `Globals.dotted` — the name that a leaf is given, and its keys joined with dots;
* `Globals.addEntries_eq` — reading a table sets one leaf after the other;
* `Globals.nameAlong_eq_dotted_iff` — the two names are the same unless the first of several keys is empty;
* `Globals.addEntries_keepsLeaves_iff` — when nothing is lost.
-/

namespace TemplateFrontend.Globals

/-! ### Leaves -/

/-- The constant that a scalar is, an integer if it has at most 64 bits. -/
def scalar? : TomlValue → Option Literal
  | .string s => some (.string s)
  | .integer n => (Integer.ofInt? n).map .int
  | .float x => some (.float x)
  | .boolean b => some (.bool b)
  | _ => none

mutual
/-- Whether a value is a scalar or a table of such values. -/
def isPlain : TomlValue → Bool
  | .table entries => arePlain entries
  | v => (scalar? v).isSome

/-- Whether the values of a table are scalars or tables of such values. -/
def arePlain : TomlTable → Bool
  | [] => true
  | (_, v) :: rest => isPlain v && arePlain rest
end

/-- The keys on the way to a scalar, with the constant that it is. -/
abbrev Leaf := List String × Literal

mutual
/-- The leaves of a value to which the keys of `path` lead. -/
def leavesAt (path : List String) : TomlValue → List Leaf
  | .table entries => leavesIn path entries
  | v => (scalar? v).toList.map (path, ·)

/-- The leaves of a table to which the keys of `path` lead. -/
def leavesIn (path : List String) : TomlTable → List Leaf
  | [] => []
  | (key, v) :: rest => leavesAt (path ++ [key]) v ++ leavesIn path rest
end

mutual
/-- No table in a value has a key twice. -/
def KeysApart : TomlValue → Prop
  | .table entries => KeysApartIn entries
  | _ => True

/-- Neither a table nor one in it has a key twice. -/
def KeysApartIn : TomlTable → Prop
  | [] => True
  | (key, v) :: rest => key ∉ rest.map Prod.fst ∧ KeysApart v ∧ KeysApartIn rest
end

/-! ### Names -/

/-- The name of a constant to which keys lead, each key put behind the name of its table. -/
def nameAlong (path : List String) : String := path.foldl nameIn ""

/-- Keys joined with dots. -/
def dotted (path : List String) : String := ".".intercalate path

/-- One more key goes behind the name of the table. -/
theorem nameAlong_append (path : List String) (key : String) :
    nameAlong (path ++ [key]) = nameIn (nameAlong path) key := by
  rw [nameAlong, List.foldl_append]
  rfl

/-- Behind a name that is not empty keys are put with a dot. -/
theorem foldl_nameIn {table : String} (h : table ≠ "") (path : List String) :
    path.foldl nameIn table = dotted (table :: path) := by
  induction path generalizing table with
  | nil => rfl
  | cons key path ih =>
    have hname : nameIn table key = table ++ "." ++ key := if_neg h
    have hne : table ++ "." ++ key ≠ "" := by simp [h]
    show path.foldl nameIn (nameIn table key) = _
    rw [hname, ih hne]
    rfl

/-- With a first key that is not empty, the name is all keys joined with dots. -/
theorem nameAlong_cons_of_ne {key : String} (h : key ≠ "") (path : List String) :
    nameAlong (key :: path) = dotted (key :: path) := by
  show path.foldl nameIn (nameIn "" key) = _
  rw [nameIn, if_pos rfl]
  exact foldl_nameIn h path

/-- An empty key at the front gives no part of the name. -/
theorem nameAlong_cons_empty (path : List String) : nameAlong ("" :: path) = nameAlong path := rfl

/-- The first of several keys has a dot behind it. -/
theorem dotted_cons_cons (a b : String) (path : List String) :
    dotted (a :: b :: path) = a ++ "." ++ dotted (b :: path) := String.intercalate_cons_cons

/-- The name is no longer than the joined keys. -/
theorem length_nameAlong_le (path : List String) : (nameAlong path).length ≤ (dotted path).length := by
  induction path with
  | nil => exact Nat.le_refl _
  | cons key path ih =>
    by_cases hkey : key = ""
    · subst hkey
      rw [nameAlong_cons_empty]
      -- an empty key adds nothing to the name, but its dot to the dotted one
      cases path with
      | nil => exact Nat.le_refl _
      | cons next path =>
        rw [dotted_cons_cons, String.length_append]
        exact Nat.le_add_left_of_le ih
    · rw [nameAlong_cons_of_ne hkey]

/-- Where an empty key is the first of several, the dot behind it is missing in the name. -/
theorem length_nameAlong_lt {path : List String} (h : path.head? = some "") (hne : path ≠ [""]) :
    (nameAlong path).length < (dotted path).length := by
  match path with
  | [] => cases h
  | [key] => exact absurd (congrArg ([·]) (Option.some.inj h)) hne
  | key :: next :: path =>
    obtain rfl : key = "" := Option.some.inj h
    have hle := length_nameAlong_le (next :: path)
    have hdot : ("" ++ ".").length = 1 := rfl
    rw [nameAlong_cons_empty, dotted_cons_cons, String.length_append]
    omega

/-- **The two names.** A constant has its keys joined with dots for a name unless there are several and the first is
empty. -/
theorem nameAlong_eq_dotted_iff {path : List String} :
    nameAlong path = dotted path ↔ (path.head? = some "" → path = [""]) := by
  constructor
  · intro h hempty
    by_contra hne
    -- a name that has lost its first key is shorter
    have hlt := length_nameAlong_lt hempty hne
    rw [h] at hlt
    exact Nat.lt_irrefl _ hlt
  · intro h
    match path with
    | [] => rfl
    | key :: path =>
      by_cases hkey : key = ""
      · rw [h (congrArg some hkey)]
        rfl
      · exact nameAlong_cons_of_ne hkey path

/-- Keys without dots can be read off their joined name. -/
theorem dotted_inj {path path' : List String} (hne : path ≠ []) (hne' : path' ≠ [])
    (hdots : ∀ key ∈ path, '.' ∉ key.toList) (hdots' : ∀ key ∈ path', '.' ∉ key.toList)
    (h : dotted path = dotted path') : path = path' := by
  -- no key holds a dot, so the keys can be read off between the dots
  have hread : ∀ {p : List String}, p ≠ [] → (∀ key ∈ p, '.' ∉ key.toList) →
      (dotted p).toList.splitOn '.' = p.map String.toList := by
    intro p hp hdots
    rw [dotted, String.toList_intercalate]
    refine List.splitOn_intercalate '.' ?_ (by simpa using hp)
    intro cs hcs
    obtain ⟨key, hkey, rfl⟩ := List.mem_map.mp hcs
    exact hdots key hkey
  have hmap : path.map String.toList = path'.map String.toList := by
    rw [← hread hne hdots, ← hread hne' hdots', h]
  exact List.map_injective_iff.mpr (fun _ _ h => String.toList_inj.mp h) hmap

/-! ### Reading a table -/

/-- Constants with more of them set, one after the other. -/
def setAll (g : Globals) (named : List (String × Literal)) : Globals :=
  named.foldl (fun g (name, value) => g.set name value) g

/-- Leaves with the names that they are given. -/
def named (leaves : List Leaf) : List (String × Literal) := leaves.map fun l => (nameAlong l.1, l.2)

/-- Leaves are named one by one. -/
theorem named_append (as bs : List Leaf) : named (as ++ bs) = named as ++ named bs := List.map_append

/-- Constants are set in turn. -/
theorem setAll_append (g : Globals) (as bs : List (String × Literal)) :
    g.setAll (as ++ bs) = (g.setAll as).setAll bs := List.foldl_append

mutual
/-- Of any value the leaves are set in turn. -/
theorem addValue_eq {v : TomlValue} (h : isPlain v = true) (g : Globals) (path : List String) :
    addValue g (nameAlong path) v = .ok (g.setAll (named (leavesAt path v))) := by
  match v, h with
  | .table entries, h =>
    rw [addValue, leavesAt]
    exact addEntries_eq h g path
  | .integer n, h =>
    obtain ⟨m, hm⟩ := Option.isSome_iff_exists.mp h
    obtain ⟨w, hw, rfl⟩ := Option.map_eq_some_iff.mp hm
    -- an integer of at most 64 bits is a leaf of its own
    have hleaves : leavesAt path (.integer n) = [(path, .int w)] := by
      show ((Integer.ofInt? n).map Literal.int).toList.map _ = _
      rw [hw]
      rfl
    rw [addValue, hw, hleaves]
    rfl
  | .string s, _ => rfl
  | .float x, _ => rfl
  | .boolean b, _ => rfl

/-- **Reading a table.** Its leaves are set in turn, each under the name that its keys give. -/
theorem addEntries_eq {entries : TomlTable} (h : arePlain entries = true) (g : Globals) (path : List String) :
    addEntries g (nameAlong path) entries = .ok (g.setAll (named (leavesIn path entries))) := by
  match entries, h with
  | [], _ => rfl
  | (key, v) :: rest, h =>
    -- the first entry, then the others
    obtain ⟨hv, hrest⟩ := Bool.and_eq_true_iff.mp h
    rw [addEntries, ← nameAlong_append, addValue_eq hv, ok_bind, addEntries_eq hrest, leavesIn, named_append,
      setAll_append]
end

/-- A constant has the value that was set last. -/
theorem find?_setAll (g : Globals) (set : List (String × Literal)) (name : String) :
    (g.setAll set).find? name = (set.reverse.lookup name).or (g.find? name) := by
  induction set generalizing g with
  | nil => rfl
  | cons entry set ih =>
    obtain ⟨other, value⟩ := entry
    show ((g.set other value).setAll set).find? name = _
    rw [ih, find?_set, List.reverse_cons, List.lookup_append]
    -- the last value that is set for a name is the one that is found
    by_cases hname : name = other
    · subst hname
      cases set.reverse.lookup name <;> simp
    · have hother : (name == other) = false := beq_false_of_ne hname
      cases set.reverse.lookup name <;> simp [hname, List.lookup_cons, hother]

/-- What was set last under a name is one of the entries. -/
theorem mem_of_lookup_reverse {set : List (String × Literal)} {name : String} {value : Literal}
    (h : set.reverse.lookup name = some value) : (name, value) ∈ set := by
  obtain ⟨front, rest, hsplit, -⟩ := List.lookup_eq_some_iff.mp h
  exact List.mem_reverse.mp (hsplit ▸ List.mem_append_right front List.mem_cons_self)

/-- Where no name is set twice, what was set is found. -/
theorem lookup_reverse_of_mem {set : List (String × Literal)} (hnodup : (set.map Prod.fst).Nodup) {name : String}
    {value : Literal} (h : (name, value) ∈ set) : set.reverse.lookup name = some value := by
  obtain ⟨front, rest, rfl⟩ := List.append_of_mem h
  refine List.lookup_eq_some_iff.mpr ⟨rest.reverse, front.reverse, by simp, ?_⟩
  rintro ⟨other, old⟩ hother
  rw [List.map_append, List.map_cons, List.nodup_append', List.nodup_cons] at hnodup
  have hnot := hnodup.2.1.1
  rw [bne_iff_ne]
  rintro rfl
  exact hnot (List.mem_map.mpr ⟨_, List.mem_reverse.mp hother, rfl⟩)

/-! ### What is kept -/

/-- Every leaf of the table is found under its keys joined with dots, with its own value, and no two have the same
name. -/
structure KeepsLeaves (g : Globals) (entries : TomlTable) : Prop where
  found : ∀ l ∈ leavesIn [] entries, g.find? (dotted l.1) = some l.2
  names_nodup : ((leavesIn [] entries).map fun l => dotted l.1).Nodup

section Kept

variable {g : Globals} {entries : TomlTable}

/-- If names are no shorter than the joined keys, nothing is lost where the joined keys differ. -/
theorem keepsLeaves_of_dotted (hfind : ∀ name, g.find? name = (named (leavesIn [] entries)).reverse.lookup name)
    (hnodup : ((leavesIn [] entries).map fun l => dotted l.1).Nodup)
    (hdotted : ∀ l ∈ leavesIn [] entries, nameAlong l.1 = dotted l.1) : g.KeepsLeaves entries := by
  refine ⟨?_, hnodup⟩
  intro l hl
  rw [hfind]
  have hnames : (named (leavesIn [] entries)).map Prod.fst = (leavesIn [] entries).map fun l => dotted l.1 := by
    rw [named, List.map_map]
    exact List.map_congr_left hdotted
  refine lookup_reverse_of_mem (hnames ▸ hnodup) ?_
  rw [← hdotted l hl]
  exact List.mem_map_of_mem hl

/-- **Names that are too short.** If every leaf is found under its joined keys, each has them for a name: what stands
under the joined keys of a leaf with a shorter name comes from another leaf, whose own joined keys are longer still. -/
theorem KeepsLeaves.nameAlong_eq (hfind : ∀ name, g.find? name = (named (leavesIn [] entries)).reverse.lookup name)
    (h : g.KeepsLeaves entries) {l : Leaf} (hl : l ∈ leavesIn [] entries) : nameAlong l.1 = dotted l.1 := by
  by_contra hne
  -- a leaf with too short a name has another one with longer keys behind it
  have hlonger : ∀ l ∈ leavesIn [] entries, nameAlong l.1 ≠ dotted l.1 →
      ∃ m ∈ leavesIn [] entries, nameAlong m.1 ≠ dotted m.1 ∧ (dotted l.1).length < (dotted m.1).length := by
    intro l hl hne
    have hfound := h.found l hl
    rw [hfind] at hfound
    obtain ⟨m, hm, hname⟩ := List.mem_map.mp (mem_of_lookup_reverse hfound)
    have hname : nameAlong m.1 = dotted l.1 := congrArg Prod.fst hname
    have hmne : nameAlong m.1 ≠ dotted m.1 := by
      intro heq
      -- then the leaf would be found under its own name
      have hsame : l = m := List.inj_on_of_nodup_map h.names_nodup hl hm (hname.symm.trans heq)
      exact hne (hsame ▸ heq)
    refine ⟨m, hm, hmne, ?_⟩
    obtain ⟨hempty, hmore⟩ := Classical.not_imp.mp (mt nameAlong_eq_dotted_iff.mpr hmne)
    rw [← hname]
    exact length_nameAlong_lt hempty hmore
  -- so there are leaves with joined keys of any length
  have hany : ∀ n, ∃ m ∈ leavesIn [] entries, nameAlong m.1 ≠ dotted m.1 ∧ n ≤ (dotted m.1).length := by
    intro n
    induction n with
    | zero => exact ⟨l, hl, hne, Nat.zero_le _⟩
    | succ n ih =>
      obtain ⟨m, hm, hmne, hlen⟩ := ih
      obtain ⟨m', hm', hmne', hlt⟩ := hlonger m hm hmne
      exact ⟨m', hm', hmne', by omega⟩
  obtain ⟨m, hm, -, hlen⟩ := hany (((leavesIn [] entries).map fun l => (dotted l.1).length).sum + 1)
  -- but there are only so many leaves
  have hle := List.le_sum_of_mem (List.mem_map_of_mem (f := fun l : Leaf => (dotted l.1).length) hm)
  omega

end Kept

/-! ### Keys that are apart -/

mutual
/-- The keys that lead to the leaves of a value go on from those that lead to the value. -/
theorem exists_of_mem_leavesAt {v : TomlValue} {path : List String} {l : Leaf} (h : l ∈ leavesAt path v) :
    ∃ more, l.1 = path ++ more := by
  match v, h with
  | .table entries, h =>
    obtain ⟨key, more, -, hl⟩ := exists_of_mem_leavesIn h
    exact ⟨key :: more, hl⟩
  | .string s, h | .float x, h | .boolean b, h | .integer n, h =>
    obtain ⟨c, -, rfl⟩ := List.mem_map.mp h
    exact ⟨[], (List.append_nil path).symm⟩

/-- The keys that lead to the leaves of a table go on with one of its own. -/
theorem exists_of_mem_leavesIn {entries : TomlTable} {path : List String} {l : Leaf}
    (h : l ∈ leavesIn path entries) :
    ∃ key more, key ∈ entries.map Prod.fst ∧ l.1 = path ++ key :: more := by
  match entries, h with
  | (key, v) :: rest, h =>
    obtain h | h := List.mem_append.mp h
    · obtain ⟨more, hl⟩ := exists_of_mem_leavesAt h
      exact ⟨key, more, List.mem_cons_self, by simpa using hl⟩
    · obtain ⟨key', more, hkey, hl⟩ := exists_of_mem_leavesIn h
      exact ⟨key', more, List.mem_cons_of_mem _ hkey, hl⟩
end

mutual
/-- So it is in a value. -/
theorem nodup_leavesAt {v : TomlValue} (h : KeysApart v) (path : List String) :
    ((leavesAt path v).map Prod.fst).Nodup := by
  match v, h with
  | .table entries, h => exact nodup_leavesIn h path
  | .string s, _ | .float x, _ | .boolean b, _ => exact List.nodup_singleton path
  | .array items, _ | .dateTime s, _ | .tooLarge, _ => exact List.nodup_nil
  | .integer n, _ =>
    show (((scalar? (.integer n)).toList.map fun c => (path, c)).map Prod.fst).Nodup
    cases scalar? (.integer n) <;> simp

/-- The keys that lead to a leaf lead to no other one. -/
theorem nodup_leavesIn {entries : TomlTable} (h : KeysApartIn entries) (path : List String) :
    ((leavesIn path entries).map Prod.fst).Nodup := by
  match entries, h with
  | [], _ => exact List.nodup_nil
  | (key, v) :: rest, ⟨hkey, hv, hrest⟩ =>
    rw [leavesIn, List.map_append, List.nodup_append']
    refine ⟨nodup_leavesAt hv _, nodup_leavesIn hrest path, ?_⟩
    intro keys hin hout
    obtain ⟨l, hl, rfl⟩ := List.mem_map.mp hin
    obtain ⟨m, hm, hsame⟩ := List.mem_map.mp hout
    -- the two part ways at the first key behind the path
    obtain ⟨more, hlpath⟩ := exists_of_mem_leavesAt hl
    obtain ⟨other, more', hother, hmpath⟩ := exists_of_mem_leavesIn hm
    rw [hsame, hlpath, List.append_assoc] at hmpath
    obtain ⟨rfl, -⟩ := List.cons.inj (List.append_cancel_left hmpath)
    exact hkey hother
end

/-- **When nothing is lost.** A table of scalars and tables is always read. A name then has the value of the last leaf
that is given the name. Every leaf is found under its keys joined with dots, with its own value and nothing else under
that name, exactly if the joined keys of the leaves differ and no table at the top has an empty key; so it is for
tables whose keys are apart, not empty and free of dots. -/
theorem addEntries_keepsLeaves_iff {entries : TomlTable} (h : arePlain entries = true) :
    ∃ g, addEntries .empty "" entries = .ok g ∧
      (∀ name, g.find? name = (named (leavesIn [] entries)).reverse.lookup name) ∧
      (g.KeepsLeaves entries ↔ ((leavesIn [] entries).map fun l => dotted l.1).Nodup ∧
        ∀ l ∈ leavesIn [] entries, l.1.head? = some "" → l.1 = [""]) ∧
      (KeysApartIn entries → (∀ l ∈ leavesIn [] entries, ∀ key ∈ l.1, key ≠ "" ∧ '.' ∉ key.toList) →
        g.KeepsLeaves entries) := by
  have hread := addEntries_eq h .empty []
  -- of the leaves with one name the last is found
  have hfind : ∀ name, (Globals.empty.setAll (named (leavesIn [] entries))).find? name =
      (named (leavesIn [] entries)).reverse.lookup name := by
    intro name
    rw [find?_setAll]
    exact Option.or_none
  refine ⟨_, hread, hfind, ?_, ?_⟩
  · constructor
    -- what is kept has its joined keys for a name, so these differ
    · intro hkeeps
      exact ⟨hkeeps.names_nodup, fun l hl => nameAlong_eq_dotted_iff.mp (hkeeps.nameAlong_eq hfind hl)⟩
    · rintro ⟨hnodup, hempty⟩
      exact keepsLeaves_of_dotted hfind hnodup fun l hl => nameAlong_eq_dotted_iff.mpr (hempty l hl)
  · intro hapart hkeys
    -- every leaf stands under at least one key
    have hpath : ∀ l ∈ leavesIn [] entries, l.1 ≠ [] := by
      intro l hl
      obtain ⟨key, more, -, hl⟩ := exists_of_mem_leavesIn hl
      simp [hl]
    refine keepsLeaves_of_dotted hfind ?_ ?_
    · -- the joined keys differ because the keys do
      have hpaths := nodup_leavesIn hapart []
      have hmap : (leavesIn [] entries).map (fun l => dotted l.1) =
          ((leavesIn [] entries).map Prod.fst).map dotted := by
        rw [List.map_map]
        rfl
      rw [hmap]
      refine List.Nodup.map_on ?_ hpaths
      intro p hp q hq hpq
      obtain ⟨l, hl, rfl⟩ := List.mem_map.mp hp
      obtain ⟨m, hm, rfl⟩ := List.mem_map.mp hq
      exact dotted_inj (hpath l hl) (hpath m hm) (fun key hkey => (hkeys l hl key hkey).2)
        (fun key hkey => (hkeys m hm key hkey).2) hpq
    · intro l hl
      rw [nameAlong_eq_dotted_iff]
      intro hempty
      exact absurd rfl (hkeys l hl "" (List.mem_of_head? hempty)).1

/-- A table with a switch and, in a table of its own, a number and a text. -/
def shopTable : TomlTable :=
  [("DEBUG", .boolean false), ("app", .table [("MAX_ITEMS", .integer 10), ("TITLE", .string "Shop")])]

/-- Nothing of it is lost. -/
theorem addEntries_keepsLeaves_iff_shopTable : arePlain shopTable = true ∧
    ∃ g, addEntries .empty "" shopTable = .ok g ∧ g.KeepsLeaves shopTable ∧
      g.find? "app.MAX_ITEMS" = some (.int 10) := by
  have hplain : arePlain shopTable = true := by decide
  obtain ⟨g, hread, hfind, -, hkeeps⟩ := addEntries_keepsLeaves_iff hplain
  refine ⟨hplain, g, hread, hkeeps ?_ (by decide), ?_⟩
  · simp [shopTable, KeysApartIn, KeysApart]
  · rw [hfind]
    decide

/-- A file with a constant, and with another one in a table under the empty key. -/
def emptyKey : String := "x = 1\n[\"\"]\nx = 2\n"

/-- What the file is read to: two leaves, and one constant. -/
theorem decoded_emptyKey : ∃ file, Toml.parse emptyKey >>= entriesWithDates = some file ∧
    arePlain (TomlValue.sortEntries file) = true ∧
    leavesIn [] (TomlValue.sortEntries file) = [(["", "x"], .int 2), (["x"], .int 1)] ∧
    ofToml emptyKey = .ok ⟨[("x", .int 1)]⟩ := by
  have hrun : (Toml.parse emptyKey >>= entriesWithDates).map (fun file => decide (
      arePlain (TomlValue.sortEntries file) = true ∧
      leavesIn [] (TomlValue.sortEntries file) = [(["", "x"], .int 2), (["x"], .int 1)] ∧
      (ofToml emptyKey).toOption = some ⟨[("x", .int 1)]⟩)) = some true := by
    decide +kernel
  obtain ⟨file, hfile, hfacts⟩ := Option.map_eq_some_iff.mp hrun
  obtain ⟨hplain, hleaves, hread⟩ := of_decide_eq_true hfacts
  exact ⟨file, hfile, hplain, hleaves, eq_ok_of_toOption hread⟩

/-- A constant is lost without an error: the table with the empty key writes to the name of the one before it, which
is set last. -/
theorem ofToml_loses_emptyKey : ∃ file g, Toml.parse emptyKey >>= entriesWithDates = some file ∧
    arePlain (TomlValue.sortEntries file) = true ∧ ofToml emptyKey = .ok g ∧
    (["", "x"], .int 2) ∈ leavesIn [] (TomlValue.sortEntries file) ∧ g.find? ".x" = none ∧
    g.find? "x" = some (.int 1) ∧ ¬ g.KeepsLeaves (TomlValue.sortEntries file) := by
  obtain ⟨file, hfile, hplain, hleaves, hread⟩ := decoded_emptyKey
  have hlost : (["", "x"], .int 2) ∈ leavesIn [] (TomlValue.sortEntries file) := by
    rw [hleaves]
    exact List.mem_cons_self
  refine ⟨file, _, hfile, hplain, hread, hlost, by decide, by decide, ?_⟩
  intro hkeeps
  have hfound := hkeeps.found _ hlost
  exact absurd hfound (by decide)

end TemplateFrontend.Globals
