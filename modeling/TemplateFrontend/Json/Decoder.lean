import TemplateFrontend.Json.Scan
/-!
# Decoding JSON in document order

A `Decoder` takes a scanned JSON text to a value of the domain, or to the first fault of the text.
Because a scan ends where the text is broken, a fault of content before the break wins over the
break, and the break over everything after it.

* `Decoder.string`, `Decoder.bool`, `Decoder.natural`, `Decoder.word` — values without parts;
* `Decoder.list`, `Decoder.optional` — values of one decoder;
* `Decoder.record` — objects with known keys, which may also be written as arrays of their values.
-/

namespace TemplateFrontend

/-- Why a JSON text has no value in the domain. -/
inductive DecodeError (ε : Type) where
  /-- The text is no JSON. -/
  | form (fault : JsonFault)
  /-- The JSON has another shape than the domain asks for. -/
  | shape
  /-- The domain refuses a value of the right shape. -/
  | refused (reason : ε)
  deriving DecidableEq, Repr

/-- A reader of scanned values. -/
abbrev Decoder (ε α : Type) := JsonScan → Except (DecodeError ε) α

namespace Decoder

variable {ε α σ : Type}

/-- The error of a value of another shape, which may have a fault of its own. -/
def shapeError : Option JsonFault → DecodeError ε
  | some fault => .form fault
  | none => .shape

/-- The error for a value of another shape: if its own text is broken, that is the error. -/
def mismatch (v : JsonScan) : DecodeError ε := shapeError v.ownFault?

/-- A string. -/
def string : Decoder ε String
  | .string (.ok s) => .ok s
  | v => .error (mismatch v)

/-- A truth value. -/
def bool : Decoder ε Bool
  | .bool b => .ok b
  | v => .error (mismatch v)

/-- A natural number below a bound. -/
def natural (bound : Nat) : Decoder ε Nat
  | .integer (.ofNat n) => if n < bound then .ok n else .error .shape
  | v => .error (mismatch v)

/-- A string with a meaning that may be refused. -/
def refined (meaning : String → Except ε α) : Decoder ε α := fun v => do
  match meaning (← string v) with
  | .ok a => pure a
  | .error e => .error (.refused e)

/-- Nothing for `null`, else a value. -/
def optional (value : Decoder ε α) : Decoder ε (Option α)
  | .null => .ok none
  | v => (value v).map some

/-- The error of a fault that may be there. -/
def unbroken : Option JsonFault → Except (DecodeError ε) Unit
  | some fault => .error (.form fault)
  | none => .ok ()

/-- A list of values. -/
def list (value : Decoder ε α) : Decoder ε (List α)
  | .array items fault => do
    let values ← items.mapM value
    unbroken fault
    pure values
  | v => .error (mismatch v)

/-- The fault of a list that should have ended: more items are malformed. -/
def endOfItems (items : List JsonScan) (fault : Option JsonFault) : Except (DecodeError ε) Unit :=
  if items.isEmpty then unbroken fault else .error (.form .malformed)

/-- Two values in a list. -/
def pair (value : Decoder ε α) : Decoder ε (α × α)
  | .array items fault =>
    match items with
    | a :: b :: rest => do
      let a ← value a
      let b ← value b
      endOfItems rest fault
      pure (a, b)
    | _ => do
      let _ ← items.mapM value
      unbroken fault
      .error .shape
  | v => .error (mismatch v)

/-- One of several words, alone or as the only key of an object with the value `null`. Nothing else
is looked at for its shape. -/
def word (meaning : String → Option α) : Decoder ε α
  | .string (.ok s) =>
    match meaning s with
    | some a => .ok a
    | none => .error .shape
  | .string (.error fault) => .error (.form fault)
  | .object ((key, v) :: rest) fault => do
    match key with
    | .error fault => .error (shapeError fault.asValue)
    | .ok key =>
      match meaning key with
      | none => .error .shape
      | some a =>
        match v with
        | .null => pure ()
        | v => .error (mismatch v)
        if rest.isEmpty then unbroken fault else .error (.form .malformed)
        pure a
  | .object [] (some fault) => .error (.form fault)
  | .broken _ word _ => .error (.form word)
  | _ => .error (.form .malformed)

/-- A part of a record that is read into a value of type `σ`. -/
structure Field (ε σ : Type) where
  key : String
  /-- Whether the record is incomplete without it. -/
  required : Bool
  read : σ → Decoder ε σ

namespace Field

/-- A field with a value of its own decoder. -/
def of (key : String) (required : Bool) (value : Decoder ε α) (set : σ → α → σ) : Field ε σ :=
  ⟨key, required, fun s v => (value v).map (set s)⟩

end Field

/-- The members of an object put into a record. `seen` are the keys of fields that were read;
the value of a key that is no field is skipped. -/
def members (fields : List (Field ε σ)) (seen : List String) (s : σ) :
    List (Except KeyFault String × JsonScan) → Except (DecodeError ε) (List String × σ)
  | [] => .ok (seen, s)
  | (.error fault, _) :: _ => .error (.form fault.asKey)
  | (.ok key, v) :: rest =>
    match fields.find? (·.key == key) with
    | none => do
      unbroken v.skipFault?
      members fields seen s rest
    | some field =>
      -- A repeated key is refused before its value is looked at.
      if key ∈ seen then .error .shape
      else do
        let s ← field.read s v
        members fields (key :: seen) s rest

/-- The items of an array put into a record, field by field. -/
def items (fault : Option JsonFault) :
    List (Field ε σ) → σ → List JsonScan → Except (DecodeError ε) σ
  | [], s, rest => do
    endOfItems rest fault
    pure s
  | field :: fields, s, v :: rest => do
    let s ← field.read s v
    items fault fields s rest
  | fields, s, [] => do
    unbroken fault
    if fields.any (·.required) then .error .shape else pure s

/-- A record that starts out as `initial`: an object with the keys of the fields, in any order and
among others, or an array of their values in order. -/
def record (fields : List (Field ε σ)) (initial : σ) : Decoder ε σ
  | .object ms fault => do
    let (seen, s) ← members fields [] initial ms
    unbroken fault
    if fields.all fun f => !f.required || f.key ∈ seen then pure s else .error .shape
  | .array vs fault => items fault fields initial vs
  | v => .error (mismatch v)

/-- The value of a whole text, after which only blanks may follow. -/
def run (value : Decoder ε α) (text : String) : Except (DecodeError ε) α := do
  let (v, more) := JsonScan.ofText text
  let a ← value v
  if more then .error (.form .malformed) else pure a

end Decoder

end TemplateFrontend
