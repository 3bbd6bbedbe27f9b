/-!
# Integers of 64 bits

Arithmetic on literals is exact or it has no result: every operation computes on the integers that
the words stand for and answers `none` where the result leaves the range.

* `toInt_of_ofInt?_eq_some` — a result stands for the integer that was computed.
-/

namespace TemplateFrontend.Integer

/-- The word that stands for `n`, if `n` is in range. -/
def ofInt? (n : Int) : Option Int64 :=
  if Int64.minValue.toInt ≤ n ∧ n ≤ Int64.maxValue.toInt then some (Int64.ofInt n) else none

theorem toInt_of_ofInt?_eq_some {n : Int} {w : Int64} (h : ofInt? n = some w) : w.toInt = n := by
  unfold ofInt? at h
  split at h
  · next hn =>
    cases h
    exact Int64.toInt_ofInt_of_le hn.1 (Int.lt_add_one_of_le hn.2)
  · cases h

/-- The sum, if it is in range. -/
def add? (a b : Int64) : Option Int64 := ofInt? (a.toInt + b.toInt)

/-- The difference, if it is in range. -/
def sub? (a b : Int64) : Option Int64 := ofInt? (a.toInt - b.toInt)

/-- The product, if it is in range. -/
def mul? (a b : Int64) : Option Int64 := ofInt? (a.toInt * b.toInt)

/-- The opposite, if it is in range. -/
def neg? (a : Int64) : Option Int64 := ofInt? (-a.toInt)

/-- The remainder of the division that rounds toward zero. Like the quotient it has no value for
the divisor zero, nor for the least integer divided by minus one. -/
def rem? (a b : Int64) : Option Int64 :=
  if b.toInt = 0 then none
  else (ofInt? (a.toInt.tdiv b.toInt)).map fun _ => Int64.ofInt (a.toInt.tmod b.toInt)

/-- The nearest floating-point number. -/
def toFloat (a : Int64) : Float := Float.ofInt a.toInt

/-- The decimal text. -/
def render (a : Int64) : String := toString a.toInt

/-- The word that decimal digits, after an optional sign, stand for. -/
def parse? (s : String) : Option Int64 :=
  let (negative, ds) := match s.toList with
    | '-' :: ds => (true, ds)
    | '+' :: ds => (false, ds)
    | ds => (false, ds)
  if ds.isEmpty || !ds.all Char.isDigit then none
  else
    let n : Nat := ds.foldl (fun n c => 10 * n + (c.toNat - 48)) 0
    ofInt? (if negative then -(n : Int) else n)

end TemplateFrontend.Integer
