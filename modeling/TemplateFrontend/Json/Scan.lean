import TemplateFrontend.Json.Value
import TemplateFrontend.Number.Decimal
import TemplateFrontend.Text.Chars
/-!
# JSON text as far as it can be read

`JsonScan.ofText` reads a JSON text into a tree that ends where the text is broken. Whoever decodes
the tree in document order meets a break only if nothing before it was wrong, and so reports the
first fault of the text, whether of form or of content.

A text can be broken for one who reads it and sound for one who skips it: numbers too large and
escapes of half a character are faults only where their value is wanted. Where a word is wanted, a
number is refused at its first character. Each break therefore says what it is to whom.
-/

namespace TemplateFrontend

/-- Why a JSON text cannot be read on: it is malformed, or it ends early. -/
inductive JsonFault where
  | malformed
  | ended
  deriving DecidableEq, Repr, Inhabited

/-- Why a member of an object has no key. -/
structure KeyFault where
  /-- The fault of what stands there as a key. -/
  asKey : JsonFault
  /-- The fault of it as a value, if it has one: a key may be wanted where any value could stand. -/
  asValue : Option JsonFault
  deriving DecidableEq, Repr, Inhabited

/-- A JSON text as far as it can be read. -/
inductive JsonScan where
  | null
  | bool (b : Bool)
  /-- A number that is written as an integer and fits 64 bits. -/
  | integer (n : Int)
  /-- Any other number, or a fault if it is too large for one. -/
  | real (fault : Option JsonFault)
  | string (s : Except JsonFault String)
  /-- Items, and the fault in place of the next comma or the closing bracket. -/
  | array (items : List JsonScan) (fault : Option JsonFault)
  /-- Members, and the fault in place of the next comma or the closing brace. -/
  | object (members : List (Except KeyFault String × JsonScan)) (fault : Option JsonFault)
  /-- A value that is broken: what it is for one who reads it whatever it is, for one who wants a
  word there, and for one who skips it. -/
  | broken (read word skipped : JsonFault)
  deriving Inhabited

namespace JsonScan

/-- A value that is broken in the same way for all. -/
def brokenFor (fault : JsonFault) : JsonScan := .broken fault fault fault

/-- The fault that one who wants a value of another kind meets first, if he does. He reads words,
numbers and strings, but of lists and objects no more than the bracket. -/
def ownFault? : JsonScan → Option JsonFault
  | .broken read _ _ => some read
  | .real fault => fault
  | .string (.error fault) => some fault
  | _ => none

/-! ### Pieces of text -/

/-- The blanks of JSON. -/
def isSpace (c : Char) : Bool := c == ' ' || c == '\n' || c == '\t' || c == '\r'

/-- The text after blanks. -/
def skipSpace (cs : List Char) : List Char := cs.dropWhile isSpace

/-- The fault of finding a text, or its end, where something else should be. -/
def faultAt (cs : List Char) : JsonFault := if cs.isEmpty then .ended else .malformed

/-- The text after the rest of a word such as `null`, or the fault. -/
def afterWord : List Char → List Char → Except JsonFault (List Char)
  | [], cs => .ok cs
  | _ :: _, [] => .error .ended
  | w :: ws, c :: cs => if w = c then afterWord ws cs else .error .malformed

/-- The value of a hexadecimal digit. -/
def hexDigit? (c : Char) : Option Nat :=
  if c.isDigit then some (c.toNat - 48)
  else if 'a' ≤ c && c ≤ 'f' then some (c.toNat - 87)
  else if 'A' ≤ c && c ≤ 'F' then some (c.toNat - 55)
  else none

/-- The number of four hexadecimal digits, with the text after them. A text of less than four bytes
has ended, whatever is in it. -/
def hexFour (cs : List Char) : Except JsonFault (Nat × List Char) :=
  match cs with
  | a :: b :: c :: d :: rest =>
    match hexDigit? a, hexDigit? b, hexDigit? c, hexDigit? d with
    | some a, some b, some c, some d => .ok (((a * 16 + b) * 16 + c) * 16 + d, rest)
    | _, _, _, _ => .error .malformed
  | cs => .error (if Text.byteLength cs < 4 then .ended else .malformed)

/-- What follows the backslash of an escape: a character, a half of one, or a fault. -/
inductive Escape where
  | char (c : Char) (rest : List Char)
  /-- A unit that is only half a character. -/
  | half (unit : Nat) (rest : List Char)
  | fault (f : JsonFault)

/-- Reads what follows the backslash of an escape. -/
def escape : List Char → Escape
  | [] => .fault .ended
  | '"' :: rest => .char '"' rest
  | '\\' :: rest => .char '\\' rest
  | '/' :: rest => .char '/' rest
  | 'b' :: rest => .char '\x08' rest
  | 'f' :: rest => .char '\x0c' rest
  | 'n' :: rest => .char '\n' rest
  | 'r' :: rest => .char '\r' rest
  | 't' :: rest => .char '\t' rest
  | 'u' :: rest =>
    match hexFour rest with
    | .ok (n, rest) =>
      if 0xD800 ≤ n && n ≤ 0xDFFF then .half n rest else .char (Char.ofNat n) rest
    | .error f => .fault f
  | _ => .fault .malformed

/-- The character of which `high` is the first half, if its second half follows. -/
def joinHalves (high : Nat) (cs : List Char) : Except JsonFault (Char × List Char) :=
  if 0xDC00 ≤ high then .error .malformed
  else match cs with
    | [] => .error .ended
    | '\\' :: rest =>
      match rest with
      | [] => .error .ended
      | 'u' :: rest =>
        match hexFour rest with
        | .ok (low, rest) =>
          if 0xDC00 ≤ low && low ≤ 0xDFFF then
            .ok (Char.ofNat (0x10000 + (high - 0xD800) * 0x400 + (low - 0xDC00)), rest)
          else .error .malformed
        | .error f => .error f
      | _ => .error .malformed
    | _ => .error .malformed

/-- The characters of a string after its opening quote: what they are to a reader, and the text
after the closing quote to one who skips. `fuel` bounds the number of characters. -/
def stringBody : (fuel : Nat) → List Char →
    Except JsonFault (List Char) × Except JsonFault (List Char)
  | 0, _ => (.error .ended, .error .ended)
  | fuel + 1, cs =>
    let cons (c : Char) (rest : List Char) :=
      let (value, after) := stringBody fuel rest
      (value.map (c :: ·), after)
    match cs with
    | [] => (.error .ended, .error .ended)
    | '"' :: rest => (.ok [], .ok rest)
    | '\\' :: rest =>
      match escape rest with
      | .char c rest => cons c rest
      | .fault f => (.error f, .error f)
      | .half n rest =>
        match joinHalves n rest with
        | .ok (c, rest) => cons c rest
        | .error f => (.error f, (stringBody fuel rest).2)
    | c :: rest => if c.toNat < 0x20 then (.error .malformed, .error .malformed) else cons c rest

/-- A string after its opening quote: its value or its fault to a reader, with the text after it,
or the break. -/
def stringAt (cs : List Char) : (Except JsonFault String × List Char) ⊕ JsonScan :=
  match stringBody (cs.length + 1) cs with
  | (value, .ok rest) => .inl (value.map String.ofList, rest)
  | (.error read, .error skipped) => .inr (.broken read read skipped)
  | (.ok _, .error skipped) => .inr (brokenFor skipped)

/-! ### Numbers -/

/-- Digits put behind a number as long as it fits 64 bits, with the digits that were left. -/
def appendDigits (n : Nat) : List Char → Nat × List Char
  | [] => (n, [])
  | c :: cs =>
    let next := 10 * n + (c.toNat - 48)
    if next < UInt64.size then appendDigits next cs else (n, c :: cs)

/-- Whether `n * 10 ^ exponent` has no place among the floating-point numbers. The power is rounded
before the product is. -/
def isTooLarge (n : Nat) (exponent : Int) : Bool :=
  n != 0 && 0 ≤ exponent &&
    (308 < exponent || (n.toUInt64.toFloat * Decimal.ofScaled 1 exponent).isInf)

/-- A number with the digits of its whole part, those of its fraction, and an exponent. Of the
digits only as many count as fit 64 bits, first those of the whole part, then the others. -/
def realOf (whole fraction : List Char) (exponent : Int) : JsonScan :=
  let (n, wholeLeft) := appendDigits 0 whole
  let (n, fractionLeft) := appendDigits n fraction
  let places : Int := fraction.length - fractionLeft.length
  .real (if isTooLarge n (exponent + wholeLeft.length - places) then some .malformed else none)

/-- The number with a sign and the digits of its whole part, when neither a point nor an exponent
follows. Minus zero and what does not fit 64 bits are not integers. -/
def integerOrReal (negative : Bool) (whole : List Char) : JsonScan :=
  let n := Decimal.natOfDigits whole
  if negative then
    if 0 < n && 2 * n ≤ UInt64.size then .integer (-(n : Int)) else realOf whole [] 0
  else if n < UInt64.size then .integer n else realOf whole [] 0

/-- The number whose first digit or sign stands here, with the text after it. Who skips a number
takes every break in it for a malformed one. -/
def numberAt (cs : List Char) : JsonScan × List Char :=
  let (negative, cs) := match cs with
    | '-' :: cs => (true, cs)
    | cs => (false, cs)
  let whole := cs.takeWhile Char.isDigit
  let rest := cs.dropWhile Char.isDigit
  match whole with
  | [] => (.broken (faultAt rest) .malformed .malformed, rest)
  | '0' :: _ :: _ => (brokenFor .malformed, rest)
  | _ =>
    let (fraction, rest) := match rest with
      | '.' :: more => (some (more.takeWhile Char.isDigit), more.dropWhile Char.isDigit)
      | rest => (none, rest)
    if fraction == some [] then (.broken (faultAt rest) .malformed .malformed, rest)
    else
      let fraction' := fraction.getD []
      let exponentMark := match rest with
        | 'e' :: more | 'E' :: more => some more
        | _ => none
      match exponentMark with
      | none =>
        if fraction.isNone then (integerOrReal negative whole, rest)
        else (realOf whole fraction' 0, rest)
      | some more =>
        let (minus, more) := match more with
          | '-' :: more => (true, more)
          | '+' :: more => (false, more)
          | more => (false, more)
        let ds := more.takeWhile Char.isDigit
        let rest := more.dropWhile Char.isDigit
        if ds.isEmpty then (.broken (faultAt rest) .malformed .malformed, rest)
        else
          let e : Int := Decimal.natOfDigits ds
          let e := if minus then -e else e
          (realOf whole fraction' e, rest)

/-! ### Values -/

/-- The fault of a key that is a string, broken as it is. -/
def stringFault (fault : JsonFault) : KeyFault := ⟨fault, some fault⟩

/-- A value with the text after it, or a break. -/
abbrev Answer := JsonScan × Option (List Char)

/-- A word of which the first letter was read. -/
def wordAt (v : JsonScan) (letters : String) (cs : List Char) : Answer :=
  match afterWord letters.toList cs with
  | .ok rest => (v, some rest)
  | .error f => (.broken f .malformed f, none)

mutual
/-- The value that starts here, blanks before it skipped. `fuel` bounds the number of readers that
are at work. -/
def valueAt : (fuel : Nat) → List Char → Answer
  | 0, _ => (brokenFor .ended, none)
  | fuel + 1, cs =>
    match skipSpace cs with
    | [] => (brokenFor .ended, none)
    | '"' :: cs =>
      match stringAt cs with
      | .inl (value, rest) => (.string value, some rest)
      | .inr v => (v, none)
    | '[' :: cs =>
      match skipSpace cs with
      | ']' :: rest => (.array [] none, some rest)
      | [] => (.array [] (some .ended), none)
      | _ =>
        let (items, fault, rest) := itemsAt fuel cs
        (.array items fault, rest)
    | '\x7b' :: cs =>
      match skipSpace cs with
      | '\x7d' :: rest => (.object [] none, some rest)
      | [] => (.object [] (some .ended), none)
      | _ =>
        let (members, fault, rest) := membersAt fuel cs
        (.object members fault, rest)
    | 'n' :: cs => wordAt .null "ull" cs
    | 't' :: cs => wordAt (.bool true) "rue" cs
    | 'f' :: cs => wordAt (.bool false) "alse" cs
    | c :: cs =>
      if c.isDigit || c == '-' then
        match numberAt (c :: cs) with
        | (.broken read word skipped, _) => (.broken read word skipped, none)
        | (v, rest) => (v, some rest)
      else (brokenFor .malformed, none)

/-- The items from the next on, up to the closing bracket or a break. -/
def itemsAt : (fuel : Nat) → List Char → List JsonScan × Option JsonFault × Option (List Char)
  | 0, _ => ([], some .ended, none)
  | fuel + 1, cs =>
    match valueAt fuel cs with
    | (v, none) => ([v], none, none)
    | (v, some rest) =>
      match skipSpace rest with
      | ']' :: rest => ([v], none, some rest)
      | ',' :: rest =>
        match skipSpace rest with
        | ']' :: _ => ([v, brokenFor .malformed], none, none)
        | _ =>
          let (items, fault, rest) := itemsAt fuel rest
          (v :: items, fault, rest)
      | rest => ([v], some (faultAt rest), none)

/-- The members from the next on, up to the closing brace or a break. -/
def membersAt : (fuel : Nat) → List Char →
    List (Except KeyFault String × JsonScan) × Option JsonFault × Option (List Char)
  | 0, _ => ([], some .ended, none)
  | fuel + 1, cs =>
    match skipSpace cs with
    | '"' :: cs =>
      match stringAt cs with
      | .inr v => ([(.error (stringFault (v.ownFault?.getD .malformed)), v)], none, none)
      | .inl (key, rest) =>
        let key := key.mapError stringFault
        match skipSpace rest with
        | ':' :: rest =>
          match valueAt fuel rest with
          | (v, none) => ([(key, v)], none, none)
          | (v, some rest) =>
            match skipSpace rest with
            | '\x7d' :: rest => ([(key, v)], none, some rest)
            | ',' :: rest =>
              let (members, fault, rest) := membersAt fuel rest
              ((key, v) :: members, fault, rest)
            | rest => ([(key, v)], some (faultAt rest), none)
        | rest => ([(key, brokenFor (faultAt rest))], none, none)
    | cs =>
      let fault := faultAt cs
      ([(.error ⟨fault, (valueAt fuel cs).1.ownFault?⟩, brokenFor fault)], none, none)
end

/-- The value that a text holds, and whether something other than blanks follows it. -/
def ofText (s : String) : JsonScan × Bool :=
  let cs := s.toList
  match valueAt (2 * cs.length + 2) cs with
  | (v, some rest) => (v, !(skipSpace rest).isEmpty)
  | (v, none) => (v, false)

/-! ### Skipping -/

mutual
/-- The fault that one who skips the value meets. -/
def skipFault? : JsonScan → Option JsonFault
  | .null | .bool _ | .integer _ | .real _ | .string _ => none
  | .array items fault => (itemsFault? items).or fault
  | .object members fault => (membersFault? members).or fault
  | .broken _ _ skipped => some skipped

/-- The fault that one who skips the items meets. -/
def itemsFault? : List JsonScan → Option JsonFault
  | [] => none
  | v :: vs => v.skipFault?.or (itemsFault? vs)

/-- The fault that one who skips the members meets. -/
def membersFault? : List (Except KeyFault String × JsonScan) → Option JsonFault
  | [] => none
  | (_, v) :: members => v.skipFault?.or (membersFault? members)
end

end JsonScan

end TemplateFrontend
