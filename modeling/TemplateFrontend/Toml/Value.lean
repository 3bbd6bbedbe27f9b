import TemplateFrontend.Number.Decimal
/-!
# TOML values

The data that a TOML text holds. Keys of a table are distinct; their order has no meaning, so tables
are gone through in ascending order of their keys (`TomlValue.sortKeys`). Integers are as large as
they are written; which of them a reader can hold, `TomlValue.fits` tells.

A `TomlDecoder` takes a TOML value to a value of the domain, if it has the right shape. Records are
tables, in which unknown keys are skipped, or arrays with the values of their fields in order, of
which what follows the last field is not looked at.
-/

namespace TemplateFrontend

/-- A TOML value. -/
inductive TomlValue where
  | string (s : String)
  | integer (n : Int)
  | float (x : Float)
  /-- A finite number that is too large for a floating-point one. -/
  | tooLarge
  | boolean (b : Bool)
  /-- A date, a time or both, as written. -/
  | dateTime (text : String)
  | array (items : List TomlValue)
  | table (entries : List (String × TomlValue))
  deriving Repr, Inhabited

/-- The entries of a TOML table. -/
abbrev TomlTable := List (String × TomlValue)

namespace TomlValue

/-! ### Order of keys -/

/-- Entries with one more, put before the first that has a greater key. -/
def insertEntry (key : String) (v : TomlValue) : TomlTable → TomlTable
  | [] => [(key, v)]
  | (k, w) :: rest =>
    if key < k then (key, v) :: (k, w) :: rest else (k, w) :: insertEntry key v rest

mutual
/-- The value with the keys of its tables in ascending order, at any depth of tables. -/
def sortKeys : TomlValue → TomlValue
  | .table entries => .table (sortEntries entries)
  | v => v

/-- Entries in ascending order of their keys, and so the tables in them. -/
def sortEntries : TomlTable → TomlTable
  | [] => []
  | (key, v) :: rest => insertEntry key v.sortKeys (sortEntries rest)
end

/-! ### Numbers -/

mutual
/-- Whether every number in a value can be held, the integers because they are in a range. -/
def fits (inRange : Int → Bool) : TomlValue → Bool
  | .integer n => inRange n
  | .tooLarge => false
  | .array items => itemsFit inRange items
  | .table entries => entriesFit inRange entries
  | _ => true

/-- Whether every number in the items can be held. -/
def itemsFit (inRange : Int → Bool) : List TomlValue → Bool
  | [] => true
  | v :: vs => v.fits inRange && itemsFit inRange vs

/-- Whether every number in the entries can be held. -/
def entriesFit (inRange : Int → Bool) : TomlTable → Bool
  | [] => true
  | (_, v) :: rest => v.fits inRange && entriesFit inRange rest
end

/-- Whether an integer has at most so many bits, be it with a sign or without. -/
def hasBits (bits : Nat) (n : Int) : Bool :=
  -(Nat.pow 2 (bits - 1) : Int) ≤ n && n < Nat.pow 2 bits

end TomlValue

/-! ### Values of the domain -/

/-- A reader of TOML values. -/
abbrev TomlDecoder (α : Type) := TomlValue → Option α

namespace TomlDecoder

/-- A string. -/
def string : TomlDecoder String
  | .string s => some s
  | _ => none

/-- A natural number of 64 bits. -/
def natural : TomlDecoder Nat
  | .integer (.ofNat n) => if n < UInt64.size then some n else none
  | _ => none

/-- A string with a meaning. -/
def refined {α : Type} (meaning : String → Option α) : TomlDecoder α :=
  fun v => string v >>= meaning

/-- An array of values. -/
def list {α : Type} (item : TomlDecoder α) : TomlDecoder (List α)
  | .array items => items.mapM item
  | _ => none

/-- Whether a value may stand under an unknown key. Of such a value nothing is asked but numbers
that can be held, integers in 128 bits. -/
def isSkippable (v : TomlValue) : Bool := v.fits (TomlValue.hasBits 128)

/-- The fields of a record by their keys, whichever way the record is written: the value of a field,
if it is there. -/
def fields (keys : List String) : TomlDecoder (String → Option TomlValue)
  | .table entries =>
    if entries.all fun (key, v) => keys.contains key || isSkippable v then
      some fun key => entries.lookup key
    else none
  | .array items => some fun key => (keys.zip items).lookup key
  | _ => none

/-- A field that a record must have. -/
def required {α : Type} (value : TomlDecoder α) (field : Option TomlValue) : Option α :=
  field.bind value

/-- A field that a record may have. -/
def optional {α : Type} (value : TomlDecoder α) (field : Option TomlValue) : Option (Option α) :=
  match field with
  | none => some none
  | some v => (value v).map some

/-- A field with a list, empty if the record does not have it. -/
def listed {α : Type} (item : TomlDecoder α) (field : Option TomlValue) : Option (List α) :=
  match field with
  | none => some []
  | some v => list item v

end TomlDecoder

end TemplateFrontend
