import TemplateFrontend.Toml.Value
/-!
# Building TOML tables

The lines of a TOML text add to tables that earlier lines began. Which additions are allowed depends
on how a table came about: a table is opened by one header only, a table that dotted keys began is
extended by dotted keys only, and what was written as a value is never extended.

* `TomlItem.insertKey`, `TomlItem.openTable`, `TomlItem.openElement` — the three kinds of lines;
* `TomlItem.finishAll` — the tables when all lines were read.
-/

namespace TemplateFrontend

/-- How a table came about. -/
inductive TableOrigin where
  /-- It stands above another one in a header. -/
  | implied
  /-- It has a header of its own. -/
  | header
  /-- Dotted keys began it. -/
  | dotted
  deriving DecidableEq, Repr, Inhabited

/-- An entry of a table that may still grow. -/
inductive TomlItem where
  | value (v : TomlValue)
  | table (origin : TableOrigin) (entries : List (String × TomlItem))
  /-- The elements of an array of tables; the last one may still grow. -/
  | tables (elements : List (List (String × TomlItem)))
  deriving Repr, Inhabited

/-- The entries of a table that may still grow. -/
abbrev TomlEntries := List (String × TomlItem)

namespace TomlItem

/-- The entries with the item of a key replaced, or added at the end. -/
def set (key : String) (item : TomlItem) : TomlEntries → TomlEntries
  | [] => [(key, item)]
  | (k, old) :: rest => if k = key then (k, item) :: rest else (k, old) :: set key item rest

/-- The elements of an array with the last one changed. -/
def changeLast (change : TomlEntries → Option TomlEntries) :
    List TomlEntries → Option (List TomlEntries)
  | [] => none
  | [last] => (change last).map ([·])
  | e :: es => (changeLast change es).map (e :: ·)

/-- The entries with a value under a dotted key, if it may stand there. -/
def insertKey (path : List String) (key : String) (v : TomlValue) (entries : TomlEntries) :
    Option TomlEntries :=
  match path with
  | [] => if (entries.lookup key).isSome then none else some (entries ++ [(key, .value v)])
  | p :: ps =>
    match entries.lookup p with
    | none => (insertKey ps key v []).map fun inner => entries ++ [(p, .table .dotted inner)]
    | some (.table origin inner) =>
      -- The table that the key itself goes into must have been begun by dotted keys.
      if origin = .header ∨ (ps = [] ∧ origin ≠ .dotted) then none
      else (insertKey ps key v inner).map fun inner => set p (.table origin inner) entries
    | some (.tables elements) =>
      if ps = [] then none
      else (changeLast (insertKey ps key v) elements).map fun es => set p (.tables es) entries
    | some (.value _) => none

/-- The entries with a change to the table at a path, which is there or implied by the path. -/
def changeAt (change : TomlEntries → Option TomlEntries) (path : List String)
    (entries : TomlEntries) : Option TomlEntries :=
  match path with
  | [] => change entries
  | p :: ps =>
    match entries.lookup p with
    | none => (changeAt change ps []).map fun inner => entries ++ [(p, .table .implied inner)]
    | some (.table origin inner) =>
      (changeAt change ps inner).map fun inner => set p (.table origin inner) entries
    | some (.tables elements) =>
      (changeLast (changeAt change ps) elements).map fun es => set p (.tables es) entries
    | some (.value _) => none

/-- The entries with a table opened by its header. -/
def openTable (path : List String) (key : String) : TomlEntries → Option TomlEntries :=
  changeAt (fun entries =>
    match entries.lookup key with
    | none => some (entries ++ [(key, .table .header [])])
    -- A table that was only implied so far may still get its header.
    | some (.table .implied inner) => some (set key (.table .header inner) entries)
    | _ => none) path

/-- The entries with one more element of an array of tables, opened by its header. -/
def openElement (path : List String) (key : String) : TomlEntries → Option TomlEntries :=
  changeAt (fun entries =>
    match entries.lookup key with
    | none => some (entries ++ [(key, .tables [[]])])
    | some (.tables elements) => some (set key (.tables (elements ++ [[]])) entries)
    | _ => none) path

mutual
/-- The value of an item that grows no more. -/
def finish : TomlItem → TomlValue
  | .value v => v
  | .table _ entries => .table (finishAll entries)
  | .tables elements => .array (finishEach elements)

/-- The entries of a table that grows no more. -/
def finishAll : TomlEntries → TomlTable
  | [] => []
  | (k, item) :: rest => (k, item.finish) :: finishAll rest

/-- The elements of an array of tables that grows no more. -/
def finishEach : List TomlEntries → List TomlValue
  | [] => []
  | e :: es => .table (finishAll e) :: finishEach es
end

end TomlItem

end TemplateFrontend
