import TemplateFrontend.Text.Pieces
import TemplateFrontend.Toml.Value
/-!
# Numbers, truth values and dates

What a TOML text writes without quotes. Underscores may stand between digits, and a decimal number
has no leading zeros. Dates exist in the calendar.
-/

namespace TemplateFrontend.Toml

open Text

/-! ### Numbers -/

/-- Digits without the underscores between them. -/
def digits? (isDigit : Char → Bool) (cs : List Char) : Option (List Char) :=
  let runs := pieces '_' cs
  if runs.all fun run => !run.isEmpty && run.all isDigit then some runs.flatten else none

/-- The value of a digit in any base up to sixteen. -/
def digitValue (c : Char) : Nat :=
  if c.isDigit then c.toNat - 48 else if c.isLower then c.toNat - 87 else c.toNat - 55

/-- Whether the character is a digit of a base. -/
def isDigitOf (base : Nat) (c : Char) : Bool :=
  (c.isDigit || ('a' ≤ c && c ≤ 'f') || ('A' ≤ c && c ≤ 'F')) && digitValue c < base

/-- The number that digits denote. -/
def natOf (base : Nat) (ds : List Char) : Nat := ds.foldl (fun n c => base * n + digitValue c) 0

/-- A text without its sign, and whether that is a minus. -/
def unsigned : List Char → Bool × List Char
  | '-' :: cs => (true, cs)
  | '+' :: cs => (false, cs)
  | cs => (false, cs)

/-- Decimal digits without leading zeros. -/
def decimal? (cs : List Char) : Option (List Char) :=
  match digits? Char.isDigit cs with
  | some ('0' :: _ :: _) => none
  | ds => ds

/-- An integer. -/
def integer? (cs : List Char) : Option Int :=
  match cs with
  | '0' :: 'x' :: ds => (digits? (isDigitOf 16) ds).map fun ds => natOf 16 ds
  | '0' :: 'o' :: ds => (digits? (isDigitOf 8) ds).map fun ds => natOf 8 ds
  | '0' :: 'b' :: ds => (digits? (isDigitOf 2) ds).map fun ds => natOf 2 ds
  | cs =>
    let (negative, cs) := unsigned cs
    (decimal? cs).map fun ds => if negative then -(natOf 10 ds : Int) else natOf 10 ds

/-- The exponent after a mantissa, with its mark, or nothing at all. -/
def exponent? : List Char → Option (List Char)
  | [] => some []
  | c :: cs =>
    if c = 'e' ∨ c = 'E' then
      let (negative, ds) := unsigned cs
      (digits? Char.isDigit ds).map fun ds => 'e' :: (if negative then '-' :: ds else ds)
    else none

/-- The digits, point and exponent of a floating-point number, without underscores. -/
def mantissa? (cs : List Char) : Option (List Char) := do
  let inWhole (c : Char) : Bool := c.isDigit || c == '_'
  let whole ← decimal? (cs.takeWhile inWhole)
  match cs.dropWhile inWhole with
  | [] => none
  | '.' :: rest =>
    let fraction ← digits? Char.isDigit (rest.takeWhile inWhole)
    let exponent ← exponent? (rest.dropWhile inWhole)
    pure (whole ++ '.' :: fraction ++ exponent)
  | rest =>
    let exponent ← exponent? rest
    pure (whole ++ exponent)

/-- A floating-point number. -/
def float? (cs : List Char) : Option TomlValue :=
  let (negative, cs) := unsigned cs
  let signed (x : Float) : TomlValue := .float (if negative then -x else x)
  if cs = "inf".toList || cs = "nan".toList then (Decimal.parse? (String.ofList cs)).map signed
  else do
    let x ← Decimal.parse? (String.ofList (← mantissa? cs))
    pure (if x.isInf then .tooLarge else signed x)

/-! ### Dates and times -/

/-- A number of exactly so many digits, with the text after it. -/
def fixedDigits? (count : Nat) (cs : List Char) : Option (Nat × List Char) :=
  let ds := cs.take count
  if ds.length = count ∧ ds.all Char.isDigit then some (natOf 10 ds, cs.drop count) else none

/-- The text after a mark. -/
def afterMark? (mark : Char) : List Char → Option (List Char)
  | c :: cs => if c = mark then some cs else none
  | [] => none

/-- The number of days of a month. -/
def daysIn (year month : Nat) : Nat :=
  if month = 2 then
    if year % 4 = 0 ∧ (year % 100 ≠ 0 ∨ year % 400 = 0) then 29 else 28
  else if month = 4 ∨ month = 6 ∨ month = 9 ∨ month = 11 then 30
  else 31

/-- The text after a date. -/
def afterDate? (cs : List Char) : Option (List Char) := do
  let (year, cs) ← fixedDigits? 4 cs
  let (month, cs) ← fixedDigits? 2 (← afterMark? '-' cs)
  let (day, cs) ← fixedDigits? 2 (← afterMark? '-' cs)
  if 1 ≤ month ∧ month ≤ 12 ∧ 1 ≤ day ∧ day ≤ daysIn year month then pure cs else none

/-- The text after an hour and a minute. -/
def afterMinute? (cs : List Char) : Option (List Char) := do
  let (hour, cs) ← fixedDigits? 2 cs
  let (minute, cs) ← fixedDigits? 2 (← afterMark? ':' cs)
  if hour ≤ 23 ∧ minute ≤ 59 then pure cs else none

/-- The text after a time, whose seconds may be left out. -/
def afterTime? (cs : List Char) : Option (List Char) := do
  let cs ← afterMinute? cs
  match cs with
  | ':' :: cs =>
    let (second, cs) ← fixedDigits? 2 cs
    if 60 < second then none
    else match cs with
      | '.' :: cs =>
        if (cs.takeWhile Char.isDigit).isEmpty then none else pure (cs.dropWhile Char.isDigit)
      | cs => pure cs
  | cs => pure cs

/-- The text after the distance from universal time, which may be left out. -/
def afterOffset? (cs : List Char) : Option (List Char) :=
  match cs with
  | 'Z' :: cs | 'z' :: cs => some cs
  | '+' :: cs | '-' :: cs => afterMinute? cs
  | cs => some cs

/-- Whether a text is a date, a time or both. -/
def isDateTime (cs : List Char) : Bool :=
  match afterDate? cs with
  | some [] => true
  | some (c :: rest) =>
    (c == 'T' || c == 't' || c == ' ') && (afterTime? rest >>= afterOffset?) == some []
  | none => afterTime? cs == some []

/-! ### Scalars -/

/-- The characters of values without quotes. -/
def isScalarChar (c : Char) : Bool :=
  c.isAlphanum || c == '+' || c == '-' || c == '_' || c == '.' || c == ':'

/-- The value that a text without quotes denotes. -/
def scalar? (cs : List Char) : Option TomlValue :=
  if cs = "true".toList then some (.boolean true)
  else if cs = "false".toList then some (.boolean false)
  else match integer? cs with
    | some n => some (.integer n)
    | none =>
      match float? cs with
      | some v => some v
      | none => if isDateTime cs then some (.dateTime (String.ofList cs)) else none

/-- The value without quotes that starts here, with the text after it. A blank may stand between a
date and a time. -/
def readScalar (cs : List Char) : Option (TomlValue × List Char) :=
  let token := cs.takeWhile isScalarChar
  let rest := cs.dropWhile isScalarChar
  let (token, rest) := match afterDate? token, rest with
    | some [], ' ' :: more =>
      if (more.head?.map Char.isDigit).getD false then
        (token ++ ' ' :: more.takeWhile isScalarChar, more.dropWhile isScalarChar)
      else (token, rest)
    | _, _ => (token, rest)
  (scalar? token).map (·, rest)

end TemplateFrontend.Toml
