import Mathlib
import TemplateFrontend.Json.Scan
import TemplateFrontend.Proofs.Text.Runs
/-!
# JSON text is read back

What `JsonValue.render` writes, `JsonScan.ofText` reads as the same value, unbroken and with nothing
after it, as long as the numbers in it fit 64 bits.

* `JsonValue.scan` — a value as it is read;
* `JsonScan.stringAt_quote`, `JsonScan.numberAt_digits` — strings and numbers are read back;
* `JsonScan.ReadsBack` — values, items and members are read back, by induction on fuel;
* `JsonScan.ofText_render` — a value is read back from its text.
-/

namespace TemplateFrontend

namespace JsonValue

/-- Whether a number fits 64 bits, with a sign or without. -/
def FitsWord (n : Int) : Prop := -(2 ^ 63) ≤ n ∧ n < 2 ^ 64

mutual
/-- All numbers of the value fit 64 bits. -/
def Fits : JsonValue → Prop
  | .null | .bool _ | .string _ => True
  | .number n => FitsWord n
  | .array items => FitAll items
  | .object members => FitAllMembers members

/-- All numbers of the items fit. -/
def FitAll : List JsonValue → Prop
  | [] => True
  | v :: vs => v.Fits ∧ FitAll vs

/-- All numbers of the members fit. -/
def FitAllMembers : List (String × JsonValue) → Prop
  | [] => True
  | (_, v) :: members => v.Fits ∧ FitAllMembers members
end

mutual
/-- The value as it is read from its text. -/
def scan : JsonValue → JsonScan
  | .null => .null
  | .bool b => .bool b
  | .number n => .integer n
  | .string s => .string (.ok s)
  | .array items => .array (scanItems items) none
  | .object members => .object (scanMembers members) none

/-- The items as they are read. -/
def scanItems : List JsonValue → List JsonScan
  | [] => []
  | v :: vs => v.scan :: scanItems vs

/-- The members as they are read. -/
def scanMembers : List (String × JsonValue) → List (Except KeyFault String × JsonScan)
  | [] => []
  | (key, v) :: members => (.ok key, v.scan) :: scanMembers members
end

end JsonValue

namespace JsonScan

open JsonValue (newline quote)

/-! ### Blanks -/

/-- Where no blank stands nothing is skipped. -/
theorem skipSpace_cons_of_ne {c : Char} (hc : isSpace c = false) (cs : List Char) :
    skipSpace (c :: cs) = c :: cs := by
  simp [skipSpace, hc]

/-- A line break and the indentation behind it are blanks. -/
theorem skipSpace_newline (level : Nat) (cs : List Char) :
    skipSpace (newline level ++ cs) = skipSpace cs := by
  have hblank : ∀ c ∈ newline level, isSpace c = true := by
    intro c hc
    rw [newline, List.mem_cons, List.mem_replicate] at hc
    obtain rfl | ⟨-, rfl⟩ := hc <;> decide
  exact List.dropWhile_append_of_pos hblank

/-- Blanks in front of a value do not matter. -/
theorem valueAt_newline (n level : Nat) (cs : List Char) :
    valueAt n (newline level ++ cs) = valueAt n cs := by
  cases n with
  | zero => rfl
  | succ n => rw [valueAt, valueAt, skipSpace_newline]

/-! ### Strings -/

/-- A hexadecimal digit is read back. -/
theorem hexDigit?_digitChar {d : Nat} (hd : d < 16) : hexDigit? (Nat.digitChar d) = some d := by
  have hall : ∀ d < 16, hexDigit? (Nat.digitChar d) = some d := by decide
  exact hall d hd

/-- The escape of a control character by its number is read back. -/
theorem escape_control {c : Char} (hc : c.toNat < 0x20) (cs : List Char) :
    escape ('u' :: '0' :: '0' :: Nat.digitChar (c.toNat / 16) :: Nat.digitChar (c.toNat % 16) :: cs) =
      .char c cs := by
  have hfour : hexFour ('0' :: '0' :: Nat.digitChar (c.toNat / 16) ::
      Nat.digitChar (c.toNat % 16) :: cs) = .ok (c.toNat, cs) := by
    have hzero : hexDigit? '0' = some 0 := by decide
    -- the two digits that follow `00` are the character's own
    have hsum : ((0 * 16 + 0) * 16 + c.toNat / 16) * 16 + c.toNat % 16 = c.toNat := by omega
    unfold hexFour
    simp only [hzero, hexDigit?_digitChar (show c.toNat / 16 < 16 by omega),
      hexDigit?_digitChar (show c.toNat % 16 < 16 by omega), hsum]
  -- and it is no half of a pair
  have hwhole : (decide (0xD800 ≤ c.toNat) && decide (c.toNat ≤ 0xDFFF)) = false := by
    simp only [Bool.and_eq_false_iff, decide_eq_false_iff_not]
    omega
  unfold escape
  simp only [hfour, hwhole, Bool.false_eq_true, if_false, Char.ofNat_toNat]

/-- One character inside quotes is read back. -/
theorem stringBody_escape (n : Nat) (c : Char) (cs : List Char) :
    stringBody (n + 1) (JsonValue.escape c ++ cs) =
      ((stringBody n cs).1.map (c :: ·), (stringBody n cs).2) := by
  unfold JsonValue.escape
  split
  case h_8 hquote hbackslash _ _ _ _ _ =>
    -- of the other characters only those below the blank are escaped by their number
    split
    · next hlt =>
      simp only [List.cons_append, List.nil_append]
      rw [stringBody]
      simp only [escape_control hlt]
    · next hge =>
      rw [List.cons_append, List.nil_append, stringBody]
      · rw [if_neg hge]
      · exact hquote
      · exact hbackslash
  all_goals rfl

/-- Characters inside quotes are read back, up to the closing one. -/
theorem stringBody_flatMap_escape (cs rest : List Char) {n : Nat} (hn : cs.length < n) :
    stringBody n (cs.flatMap JsonValue.escape ++ '"' :: rest) = (.ok cs, .ok rest) := by
  induction cs generalizing n with
  | nil =>
    obtain ⟨n, rfl⟩ : ∃ k, n = k + 1 := ⟨n - 1, by omega⟩
    rfl
  | cons c cs ih =>
    obtain ⟨n, rfl⟩ : ∃ k, n = k + 1 := ⟨n - 1, by omega⟩
    rw [List.length_cons] at hn
    rw [List.flatMap_cons, List.append_assoc, stringBody_escape, ih (by omega)]
    rfl

/-- Escaping makes no text shorter. -/
theorem length_le_length_flatMap_escape (cs : List Char) :
    cs.length ≤ (cs.flatMap JsonValue.escape).length := by
  induction cs with
  | nil => exact Nat.le_refl 0
  | cons c cs ih =>
    have hc : 1 ≤ (JsonValue.escape c).length := by
      unfold JsonValue.escape
      split <;> (try split) <;> simp
    rw [List.flatMap_cons, List.length_append, List.length_cons]
    omega

/-- A text between quotes is read back. -/
theorem stringAt_quote (s : String) (rest : List Char) :
    stringAt (s.toList.flatMap JsonValue.escape ++ '"' :: rest) = .inl (.ok s, rest) := by
  have hfuel : s.toList.length <
      (s.toList.flatMap JsonValue.escape ++ '"' :: rest).length + 1 := by
    have := length_le_length_flatMap_escape s.toList
    rw [List.length_append]
    omega
  rw [stringAt, stringBody_flatMap_escape s.toList rest hfuel]
  simp only [Except.map, String.ofList_toList]

/-! ### Numbers -/

/-- What follows a number in a text: neither a digit nor what could go on with it. -/
def EndsNumber (rest : List Char) : Prop :=
  ∀ c ∈ rest.head?, c.isDigit = false ∧ c ≠ '.' ∧ c ≠ 'e' ∧ c ≠ 'E'

/-- The digits of a number make up the number. -/
theorem natOfDigits_toDigits (n : Nat) : Decimal.natOfDigits (Nat.toDigits 10 n) = n :=
  Nat.ofDigitChars_toDigits (by decide) (by decide)

/-- The digits of a number do not start with a zero that is not needed. -/
theorem toDigits_ne_zero_cons (n : Nat) (c : Char) (cs : List Char) :
    Nat.toDigits 10 n ≠ '0' :: c :: cs := by
  induction n using Nat.strongRecOn generalizing c cs with
  | ind n ih =>
    -- the digits of a larger number are those of its tenth part and one more
    by_cases hn : n < 10
    · rw [Nat.toDigits_of_lt_base hn]
      simp
    · rw [Nat.toDigits_of_base_le (by decide) (by omega)]
      intro h
      cases hq : Nat.toDigits 10 (n / 10) with
      | nil => exact Nat.toDigits_ne_nil hq
      | cons d ds =>
        rw [hq, List.cons_append] at h
        obtain ⟨rfl, hds⟩ := List.cons.inj h
        -- a first digit of zero would be all of the leading part, which is at least one
        cases ds with
        | nil =>
          have hzero := natOfDigits_toDigits (n / 10)
          rw [hq] at hzero
          have hten : 0 = n / 10 := hzero
          omega
        | cons d' ds => exact ih (n / 10) (by omega) d' ds hq

/-- Digits without a point or an exponent after them are an integer, if it fits. -/
theorem numberAt_digits {rest : List Char} (hrest : EndsNumber rest) (n : Nat) :
    numberAt (Nat.toDigits 10 n ++ rest) = (integerOrReal false (Nat.toDigits 10 n), rest) ∧
      numberAt ('-' :: (Nat.toDigits 10 n ++ rest)) =
        (integerOrReal true (Nat.toDigits 10 n), rest) := by
  have hds : ∀ d ∈ Nat.toDigits 10 n, d.isDigit = true :=
    fun d hd => Nat.isDigit_of_mem_toDigits (by decide) (by decide) hd
  obtain ⟨htake, hdrop⟩ := Text.takeWhile_run hds fun c hc => (hrest c hc).1
  have hne := @Nat.toDigits_ne_nil n 10
  have hzero := toDigits_ne_zero_cons n
  -- nothing behind the digits makes a fraction or an exponent of them
  have hpoint : ∀ more, rest ≠ '.' :: more := fun more h => (hrest '.' (by rw [h]; rfl)).2.1 rfl
  have hlower : ∀ more, rest ≠ 'e' :: more :=
    fun more h => (hrest 'e' (by rw [h]; rfl)).2.2.1 rfl
  have hupper : ∀ more, rest ≠ 'E' :: more :=
    fun more h => (hrest 'E' (by rw [h]; rfl)).2.2.2 rfl
  -- the first character is a digit, so no sign is taken from the digits
  have hsign : ∀ cs, Nat.toDigits 10 n ++ rest ≠ '-' :: cs := by
    intro cs h
    cases hn : Nat.toDigits 10 n with
    | nil => exact hne hn
    | cons d ds =>
      rw [hn] at h
      have hd := hds d (by rw [hn]; exact List.mem_cons_self)
      rw [(List.cons.inj h).1] at hd
      revert hd
      decide
  constructor
  · unfold numberAt
    simp only [htake, hdrop]
    rfl
  · unfold numberAt
    simp only [htake, hdrop]
    rfl

/-- Digits of a number that fits 64 bits are that integer. -/
theorem integerOrReal_toDigits {n : Nat} (hn : n < 2 ^ 64) :
    integerOrReal false (Nat.toDigits 10 n) = .integer n := by
  unfold integerOrReal
  simp only [natOfDigits_toDigits, Bool.false_eq_true, if_false]
  exact if_pos hn

/-- With a sign before them digits are the negative integer, if it fits. -/
theorem integerOrReal_neg_toDigits {n : Nat} (hpos : 0 < n) (hn : n ≤ 2 ^ 63) :
    integerOrReal true (Nat.toDigits 10 n) = .integer (-(n : Int)) := by
  have hfits : (decide (0 < n) && decide (2 * n ≤ UInt64.size)) = true := by
    simp only [Bool.and_eq_true, decide_eq_true_eq, UInt64.size]
    omega
  unfold integerOrReal
  simp only [natOfDigits_toDigits, if_true, hfits]

/-- A text that starts with a digit or a sign is read as a number. -/
theorem valueAt_of_numberAt {c : Char} {cs rest : List Char} {n : Int}
    (hc : c.isDigit = true ∨ c = '-') (h : numberAt (c :: cs) = (.integer n, rest)) (fuel : Nat) :
    valueAt (fuel + 1) (c :: cs) = (.integer n, some rest) := by
  have hne {d : Char} (hd : d.isDigit = false ∧ d ≠ '-') : c ≠ d := by
    rintro rfl
    rw [hd.1] at hc
    exact hc.elim nofun hd.2
  have hspace : isSpace c = false := by
    simp only [isSpace, Bool.or_eq_false_iff, beq_eq_false_iff_ne]
    exact ⟨⟨⟨hne (by decide), hne (by decide)⟩, hne (by decide)⟩, hne (by decide)⟩
  have hnumber : (c.isDigit || c == '-') = true := by simpa using hc
  rw [valueAt, skipSpace_cons_of_ne hspace]
  -- no other value starts with a digit or a sign
  have hquote : c ≠ '"' := hne (by decide)
  have hbracket : c ≠ '[' := hne (by decide)
  have hbrace : c ≠ '\x7b' := hne (by decide)
  have hnull : c ≠ 'n' := hne (by decide)
  have htrue : c ≠ 't' := hne (by decide)
  have hfalse : c ≠ 'f' := hne (by decide)
  simp only [hnumber, if_true, h]

/-- A number without a sign is written in its digits. -/
theorem toList_toString_ofNat (m : Nat) : (toString (Int.ofNat m)).toList = Nat.toDigits 10 m :=
  Nat.toList_repr

/-- A negative number is written in the digits of its absolute value, with a sign before them. -/
theorem toList_toString_negSucc (m : Nat) :
    (toString (Int.negSucc m)).toList = '-' :: Nat.toDigits 10 (m + 1) := by
  change ("-" ++ (m + 1).repr).toList = _
  rw [String.toList_append, Nat.toList_repr]
  rfl

/-- A number is read back. -/
theorem valueAt_toString {n : Int} (hn : JsonValue.FitsWord n) {rest : List Char}
    (hrest : EndsNumber rest) (fuel : Nat) :
    valueAt (fuel + 1) ((toString n).toList ++ rest) = (.integer n, some rest) := by
  cases n with
  -- digits alone, or digits behind a minus
  | ofNat m =>
    -- in range of a word, so it is read as an integer and not as a real
    have hm : m < 2 ^ 64 := by
      have := hn.2
      change (m : Int) < 2 ^ 64 at this
      omega
    rw [toList_toString_ofNat]
    cases hds : Nat.toDigits 10 m with
    | nil => exact absurd hds Nat.toDigits_ne_nil
    | cons d ds =>
      have hread := (numberAt_digits hrest m).1
      rw [integerOrReal_toDigits hm, hds] at hread
      have hd : d.isDigit = true :=
        Nat.isDigit_of_mem_toDigits (by decide) (by decide) (hds ▸ List.mem_cons_self)
      exact valueAt_of_numberAt (.inl hd) hread fuel
  | negSucc m =>
    have hm : m + 1 ≤ 2 ^ 63 := by
      have := hn.1
      rw [Int.negSucc_eq] at this
      omega
    have hread := (numberAt_digits hrest (m + 1)).2
    rw [integerOrReal_neg_toDigits (Nat.succ_pos m) hm] at hread
    rw [toList_toString_negSucc]
    exact valueAt_of_numberAt (.inr rfl) hread fuel

/-! ### Values -/

/-- A mark behind a number ends it. -/
theorem endsNumber_cons {c : Char} (hc : c.isDigit = false ∧ c ≠ '.' ∧ c ≠ 'e' ∧ c ≠ 'E')
    (rest : List Char) : EndsNumber (c :: rest) := by
  intro d hd
  cases hd
  exact hc

/-- The text of items, the first without a comma before it. -/
def itemsText (level : Nat) : List JsonValue → List Char
  | [] => []
  | v :: vs => v.renderAt level ++ JsonValue.renderItems level vs

/-- The text of members, the first without a comma before it. -/
def membersText (level : Nat) : List (String × JsonValue) → List Char
  | [] => []
  | (key, v) :: members =>
    quote key ++ [':', ' '] ++ v.renderAt level ++ JsonValue.renderMembers level members

/-- Further items stand behind commas, each on its line. -/
theorem renderItems_cons (level : Nat) (v : JsonValue) (vs : List JsonValue) :
    JsonValue.renderItems level (v :: vs) = ',' :: (newline level ++ itemsText level (v :: vs)) := by
  simp [JsonValue.renderItems, itemsText]

/-- Further members do so, too. -/
theorem renderMembers_cons (level : Nat) (m : String × JsonValue)
    (members : List (String × JsonValue)) :
    JsonValue.renderMembers level (m :: members) =
      ',' :: (newline level ++ membersText level (m :: members)) := by
  simp [JsonValue.renderMembers, membersText]

/-- An array with items. -/
theorem renderAt_array (level : Nat) (v : JsonValue) (vs : List JsonValue) :
    (JsonValue.array (v :: vs)).renderAt level =
      '[' :: (newline (level + 1) ++ (itemsText (level + 1) (v :: vs) ++
        (newline level ++ [']']))) := by
  simp [JsonValue.renderAt, itemsText]

/-- An object with members. -/
theorem renderAt_object (level : Nat) (m : String × JsonValue)
    (members : List (String × JsonValue)) :
    (JsonValue.object (m :: members)).renderAt level =
      '\x7b' :: (newline (level + 1) ++ (membersText (level + 1) (m :: members) ++
        (newline level ++ ['\x7d']))) := by
  simp [JsonValue.renderAt, membersText]

/-- The text of a value starts neither with a blank nor with a closing mark. -/
theorem exists_renderAt_cons (v : JsonValue) (level : Nat) :
    ∃ c cs, v.renderAt level = c :: cs ∧ isSpace c = false ∧ c ≠ ']' := by
  cases v with
  | null => exact ⟨_, _, rfl, by decide, by decide⟩
  | bool b => cases b <;> exact ⟨_, _, rfl, by decide, by decide⟩
  | number n =>
    -- a number starts with a digit, or with the sign before it
    have hds (m : Nat) : ∃ c cs, Nat.toDigits 10 m = c :: cs ∧ isSpace c = false ∧ c ≠ ']' := by
      cases hm : Nat.toDigits 10 m with
      | nil => exact absurd hm Nat.toDigits_ne_nil
      | cons d ds =>
        have hd : d.isDigit = true :=
          Nat.isDigit_of_mem_toDigits (by decide) (by decide) (hm ▸ List.mem_cons_self)
        have hne {c : Char} (hc : c.isDigit = false) : d ≠ c := by
          rintro rfl
          rw [hc] at hd
          cases hd
        refine ⟨d, ds, rfl, ?_, hne (by decide)⟩
        simp only [isSpace, Bool.or_eq_false_iff, beq_eq_false_iff_ne]
        exact ⟨⟨⟨hne (by decide), hne (by decide)⟩, hne (by decide)⟩, hne (by decide)⟩
    rw [JsonValue.renderAt]
    cases n with
    | ofNat m =>
      rw [toList_toString_ofNat]
      exact hds m
    | negSucc m => exact ⟨_, _, toList_toString_negSucc m, by decide, by decide⟩
  | string s => exact ⟨_, _, rfl, by decide, by decide⟩
  -- brackets open what they hold
  | array items =>
    cases items with
    | nil => exact ⟨_, _, rfl, by decide, by decide⟩
    | cons v vs => exact ⟨_, _, renderAt_array level v vs, by decide, by decide⟩
  | object members =>
    cases members with
    | nil => exact ⟨_, _, rfl, by decide, by decide⟩
    | cons m members => exact ⟨_, _, renderAt_object level m members, by decide, by decide⟩

/-- A word is taken letter by letter. -/
theorem afterWord_append (letters rest : List Char) : afterWord letters (letters ++ rest) = .ok rest := by
  induction letters with
  | nil => rfl
  | cons w ws ih => rw [List.cons_append, afterWord, if_pos rfl, ih]

/-- So a word is read back. -/
theorem wordAt_append (v : JsonScan) (letters : String) (rest : List Char) :
    wordAt v letters (letters.toList ++ rest) = (v, some rest) := by
  rw [wordAt, afterWord_append]

/-! One step of each reader. -/

section Steps

variable {n : Nat} {cs rest : List Char} {v : JsonScan} {items : List JsonScan}
  {members : List (Except KeyFault String × JsonScan)}

/-- A string is read back as a value. -/
theorem valueAt_quote (s : String) :
    valueAt (n + 1) (quote s ++ rest) = (.string (.ok s), some rest) := by
  have htext : quote s ++ rest = '"' :: (s.toList.flatMap JsonValue.escape ++ '"' :: rest) := by
    simp [quote]
  rw [htext, valueAt, skipSpace_cons_of_ne (by decide)]
  simp only [stringAt_quote]

/-- A text with a first character is not empty. -/
theorem exists_cons_of_head? {c : Char} (h : cs.head? = some c) : ∃ cs', cs = c :: cs' := by
  cases cs with
  | nil => cases h
  | cons d ds =>
    obtain rfl := Option.some.inj h
    exact ⟨ds, rfl⟩

/-- An opening bracket that closes later starts the items of an array. -/
theorem valueAt_bracket {c : Char} (hcs : (skipSpace cs).head? = some c) (hc : c ≠ ']')
    (h : itemsAt n cs = (items, none, some rest)) :
    valueAt (n + 1) ('[' :: cs) = (.array items none, some rest) := by
  obtain ⟨cs', hcs'⟩ := exists_cons_of_head? hcs
  rw [valueAt, skipSpace_cons_of_ne (by decide)]
  simp only [hcs', h]
  split
  · next heq => exact absurd (List.cons.inj heq).1 hc
  · next heq => cases heq
  · rfl

/-- An opening brace that closes later starts the members of an object. -/
theorem valueAt_brace {c : Char} (hcs : (skipSpace cs).head? = some c) (hc : c ≠ '\x7d')
    (h : membersAt n cs = (members, none, some rest)) :
    valueAt (n + 1) ('\x7b' :: cs) = (.object members none, some rest) := by
  obtain ⟨cs', hcs'⟩ := exists_cons_of_head? hcs
  rw [valueAt, skipSpace_cons_of_ne (by decide)]
  simp only [hcs', h]
  split
  · next heq => exact absurd (List.cons.inj heq).1 hc
  · next heq => cases heq
  · rfl

/-- The last item has the closing bracket behind it. -/
theorem itemsAt_last (hv : valueAt n cs = (v, some rest)) {after : List Char}
    (hrest : skipSpace rest = ']' :: after) : itemsAt (n + 1) cs = ([v], none, some after) := by
  rw [itemsAt]
  simp only [hv, hrest]

/-- An item before the last one has a comma behind it. -/
theorem itemsAt_more (hv : valueAt n cs = (v, some (',' :: rest))) {c : Char} {after : List Char}
    (hcs : (skipSpace rest).head? = some c) (hc : c ≠ ']')
    (h : itemsAt n rest = (items, none, some after)) :
    itemsAt (n + 1) cs = (v :: items, none, some after) := by
  obtain ⟨cs', hcs'⟩ := exists_cons_of_head? hcs
  have hcomma : skipSpace (',' :: rest) = ',' :: rest := skipSpace_cons_of_ne (by decide) rest
  rw [itemsAt]
  simp only [hv, hcomma, hcs', h]
  split
  · next heq => exact absurd (List.cons.inj heq).1 hc
  · rfl

/-- A text between quotes, and what follows it. -/
theorem quote_append (key : String) (rest : List Char) :
    quote key ++ rest = '"' :: (key.toList.flatMap JsonValue.escape ++ '"' :: rest) := by
  simp [quote]

/-- The last member has the closing brace behind it. -/
theorem membersAt_last (key : String) (hv : valueAt n cs = (v, some rest)) {after : List Char}
    (hrest : skipSpace rest = '\x7d' :: after) :
    membersAt (n + 1) (quote key ++ ':' :: cs) = ([(.ok key, v)], none, some after) := by
  have hcolon : skipSpace (':' :: cs) = ':' :: cs := skipSpace_cons_of_ne (by decide) cs
  rw [membersAt, quote_append, skipSpace_cons_of_ne (by decide)]
  simp only [stringAt_quote, hcolon, hv, hrest]
  rfl

/-- A member before the last one has a comma behind it. -/
theorem membersAt_more (key : String) (hv : valueAt n cs = (v, some (',' :: rest)))
    {after : List Char} (h : membersAt n rest = (members, none, some after)) :
    membersAt (n + 1) (quote key ++ ':' :: cs) = ((.ok key, v) :: members, none, some after) := by
  have hcolon : skipSpace (':' :: cs) = ':' :: cs := skipSpace_cons_of_ne (by decide) cs
  have hcomma : skipSpace (',' :: rest) = ',' :: rest := skipSpace_cons_of_ne (by decide) rest
  rw [membersAt, quote_append, skipSpace_cons_of_ne (by decide)]
  simp only [stringAt_quote, hcolon, hv, hcomma, h]
  rfl

/-- Blanks before a member do not matter. -/
theorem membersAt_newline (level : Nat) : membersAt n (newline level ++ cs) = membersAt n cs := by
  cases n with
  | zero => rfl
  | succ n => rw [membersAt, membersAt, skipSpace_newline]

/-- Blanks before an item do not matter. -/
theorem itemsAt_newline (level : Nat) : itemsAt n (newline level ++ cs) = itemsAt n cs := by
  cases n with
  | zero => rfl
  | succ n => rw [itemsAt, itemsAt, valueAt_newline]

/-- The blank after a colon does not matter. -/
theorem valueAt_blank : valueAt n (' ' :: cs) = valueAt n cs := by
  cases n with
  | zero => rfl
  | succ n => rfl

end Steps

/-! Values, items and members. -/

/-- A line break ends a number. -/
theorem endsNumber_newline (level : Nat) (rest : List Char) : EndsNumber (newline level ++ rest) :=
  endsNumber_cons (by decide) _

/-- Behind blanks the text of a value starts with no closing bracket. -/
theorem head?_skipSpace_renderAt (v : JsonValue) (level : Nat) (rest : List Char) :
    ∃ c, (skipSpace (v.renderAt level ++ rest)).head? = some c ∧ c ≠ ']' := by
  obtain ⟨c, cs, hv, hc, hne⟩ := exists_renderAt_cons v level
  rw [hv, List.cons_append, skipSpace_cons_of_ne hc]
  exact ⟨c, rfl, hne⟩

/-- No value is written in no characters. -/
theorem length_renderAt_pos (v : JsonValue) (level : Nat) : 0 < (v.renderAt level).length := by
  obtain ⟨c, cs, hv, -⟩ := exists_renderAt_cons v level
  rw [hv]
  exact Nat.succ_pos _

/-- With fuel `n` everything is read back whose text has at most half as many characters: each reader
that is at work has at least half a character to itself. -/
structure ReadsBack (n : Nat) : Prop where
  value : ∀ {v : JsonValue} {level : Nat} {rest : List Char}, v.Fits → EndsNumber rest →
    2 * (v.renderAt level).length ≤ n → valueAt n (v.renderAt level ++ rest) = (v.scan, some rest)
  /-- Items, up to the closing bracket on a line of its own. -/
  items : ∀ {v : JsonValue} {vs : List JsonValue} {level outer : Nat} {rest : List Char},
    JsonValue.FitAll (v :: vs) → 2 * (itemsText level (v :: vs)).length + 1 ≤ n →
    itemsAt n (itemsText level (v :: vs) ++ (newline outer ++ ']' :: rest)) =
      (JsonValue.scanItems (v :: vs), none, some rest)
  /-- Members, up to the closing brace on a line of its own. -/
  members : ∀ {m : String × JsonValue} {ms : List (String × JsonValue)} {level outer : Nat}
    {rest : List Char}, JsonValue.FitAllMembers (m :: ms) →
    2 * (membersText level (m :: ms)).length + 1 ≤ n →
    membersAt n (membersText level (m :: ms) ++ (newline outer ++ '\x7d' :: rest)) =
      (JsonValue.scanMembers (m :: ms), none, some rest)

/-- Without fuel there is nothing to read. -/
theorem readsBack_zero : ReadsBack 0 where
  value {v level _} _ _ hn := by
    have := length_renderAt_pos v level
    omega
  items _ hn := by omega
  members _ hn := by omega

section Step

variable {n : Nat} {rest : List Char}

/-- A value is read back if its items or members are, with the fuel that is left. -/
theorem ReadsBack.value_succ (ih : ReadsBack n) {v : JsonValue} {level : Nat} (hv : v.Fits)
    (hrest : EndsNumber rest) (hn : 2 * (v.renderAt level).length ≤ n + 1) :
    valueAt (n + 1) (v.renderAt level ++ rest) = (v.scan, some rest) := by
  match v, hv with
  -- words, numbers and strings are read without going down
  | .null, _ => exact wordAt_append .null "ull" rest
  | .bool true, _ => exact wordAt_append (.bool true) "rue" rest
  | .bool false, _ => exact wordAt_append (.bool false) "alse" rest
  | .number k, hv => exact valueAt_toString hv hrest n
  | .string s, _ => exact valueAt_quote s
  | .array [], _ => rfl
  | .object [], _ => rfl
  -- the brackets take two characters, which pays for the reader of the items
  | .array (v :: vs), hv =>
    rw [renderAt_array] at hn ⊢
    simp only [List.length_cons, List.length_append] at hn
    simp only [List.cons_append, List.append_assoc, List.nil_append]
    obtain ⟨c, hc, hne⟩ := head?_skipSpace_renderAt v (level + 1)
      (JsonValue.renderItems (level + 1) vs ++ (newline level ++ ']' :: rest))
    refine valueAt_bracket (c := c) ?_ hne ?_
    · rw [skipSpace_newline, itemsText, List.append_assoc]
      exact hc
    · rw [itemsAt_newline]
      exact ih.items hv (by omega)
  | .object (m :: members), hv =>
    rw [renderAt_object] at hn ⊢
    simp only [List.length_cons, List.length_append] at hn
    simp only [List.cons_append, List.append_assoc, List.nil_append]
    refine valueAt_brace (c := '"') ?_ (by decide) ?_
    · rw [skipSpace_newline]
      rfl
    · rw [membersAt_newline]
      exact ih.members hv (by omega)

/-- Items are read back one after the other. -/
theorem ReadsBack.items_succ (ih : ReadsBack n) {v : JsonValue} {vs : List JsonValue}
    {level outer : Nat} (hvs : JsonValue.FitAll (v :: vs))
    (hn : 2 * (itemsText level (v :: vs)).length + 1 ≤ n + 1) :
    itemsAt (n + 1) (itemsText level (v :: vs) ++ (newline outer ++ ']' :: rest)) =
      (JsonValue.scanItems (v :: vs), none, some rest) := by
  obtain ⟨hv, hvs⟩ := hvs
  rw [itemsText, List.length_append] at hn
  rw [itemsText, List.append_assoc]
  -- the item is the last one, or a comma and the next item follow
  cases vs with
  | nil =>
    refine itemsAt_last (ih.value hv (endsNumber_newline outer _) (by omega)) ?_
    rw [skipSpace_newline]
    exact skipSpace_cons_of_ne (by decide) rest
  | cons w ws =>
    -- the comma and the line end pay for the next reader
    rw [renderItems_cons, List.length_cons, List.length_append] at hn
    rw [renderItems_cons, List.cons_append, List.append_assoc]
    obtain ⟨c, hc, hne⟩ := head?_skipSpace_renderAt w level
      (JsonValue.renderItems level ws ++ (newline outer ++ ']' :: rest))
    refine itemsAt_more (ih.value hv (endsNumber_cons (by decide) _) (by omega)) (c := c) ?_ hne ?_
    · rw [skipSpace_newline, itemsText, List.append_assoc]
      exact hc
    · rw [itemsAt_newline]
      exact ih.items hvs (by omega)

/-- Members are read back one after the other. -/
theorem ReadsBack.members_succ (ih : ReadsBack n) {m : String × JsonValue}
    {ms : List (String × JsonValue)} {level outer : Nat} (hms : JsonValue.FitAllMembers (m :: ms))
    (hn : 2 * (membersText level (m :: ms)).length + 1 ≤ n + 1) :
    membersAt (n + 1) (membersText level (m :: ms) ++ (newline outer ++ '\x7d' :: rest)) =
      (JsonValue.scanMembers (m :: ms), none, some rest) := by
  obtain ⟨key, v⟩ := m
  obtain ⟨hv, hms⟩ := hms
  simp only [membersText, List.length_append, List.length_cons] at hn
  -- a key, a colon, a blank and the value
  have htext (us : List Char) : membersText level ((key, v) :: ms) ++ us =
      quote key ++ ':' :: (' ' :: (v.renderAt level ++
        (JsonValue.renderMembers level ms ++ us))) := by
    simp [membersText]
  rw [htext]
  -- the member is the last one, or a comma and the next member follow
  cases ms with
  | nil =>
    have hclose : skipSpace (newline outer ++ '\x7d' :: rest) = '\x7d' :: rest := by
      rw [skipSpace_newline]
      exact skipSpace_cons_of_ne (by decide) rest
    refine membersAt_last key ?_ hclose
    rw [valueAt_blank]
    exact ih.value hv (endsNumber_newline outer _) (by omega)
  | cons m ms =>
    rw [renderMembers_cons, List.length_cons, List.length_append] at hn
    rw [renderMembers_cons, List.cons_append, List.append_assoc]
    have hmore := @ih.members m ms level outer rest hms (by omega)
    refine membersAt_more key ?_ ((membersAt_newline level).trans hmore)
    rw [valueAt_blank]
    exact ih.value hv (endsNumber_cons (by decide) _) (by omega)

end Step

/-- So with any fuel. -/
theorem readsBack (n : Nat) : ReadsBack n := by
  induction n with
  | zero => exact readsBack_zero
  | succ n ih => exact { value := ih.value_succ, items := ih.items_succ, members := ih.members_succ }

/-- **JSON is read back.** The text of a value holds the value and nothing after it. -/
theorem ofText_render {v : JsonValue} (hv : v.Fits) : ofText v.render = (v.scan, false) := by
  have hends : EndsNumber [] := fun _ h => nomatch h
  have hread := (readsBack (2 * (v.renderAt 0).length + 2)).value hv hends (Nat.le_add_right _ 2)
  rw [List.append_nil] at hread
  rw [ofText, JsonValue.render, String.toList_ofList, hread]
  rfl

end JsonScan

end TemplateFrontend
