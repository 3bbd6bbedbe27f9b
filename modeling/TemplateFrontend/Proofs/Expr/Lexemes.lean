import TemplateFrontend.Expr.Token
import TemplateFrontend.Proofs.Readers
import TemplateFrontend.Proofs.Text.Runs
/-!
# What tokens are written as

A token is read by its first character. Here it is said which texts the tokens are read from, and
that reading one depends neither on where the text stands nor on blanks after it.

* `Token.Written` — what a token is written as, by its kind;
* `Token.written_of_readLexeme` — what is read as a token is written so;
* `Token.readLexeme_of_append_blanks` — where a token stands and blanks after it do not matter;
* `SplitsInto`, `tokens_eq_ok_iff` — the tokens of a text, one after the other;
* `SplitsInto.shift` — a text keeps its tokens wherever it stands.
-/

namespace TemplateFrontend

open Text

/-! ### Classes of characters -/

namespace Token

/-- The characters of variables, names and numbers. -/
def isPlain (c : Char) : Bool := isNameChar c || c == '.' || c == '$'

/-- The quotes of strings. -/
def isQuote (c : Char) : Bool := c == '\'' || c == '"'

/-- The braces of commands. -/
def isBrace (c : Char) : Bool := c == '\x7b' || c == '\x7d'

/-- The characters that the scanner of tags looks for. -/
def isDelimiter (c : Char) : Bool := isQuote c || isBrace c

/-- These are the two quotes and the two braces. -/
theorem isDelimiter_iff {c : Char} :
    isDelimiter c = true ↔ c = '\'' ∨ c = '"' ∨ c = '\x7b' ∨ c = '\x7d' := by
  simp [isDelimiter, isQuote, isBrace, or_assoc]

/-- No blank is one. -/
theorem isDelimiter_of_isBlank {c : Char} (h : isBlank c = true) : isDelimiter c = false := by
  cases hc : isDelimiter c with
  | false => rfl
  | true =>
    obtain rfl | rfl | rfl | rfl := isDelimiter_iff.mp hc <;> exact absurd h (by decide)

/-- A character that is neither a blank nor a delimiter. -/
def isBare (c : Char) : Bool := !isBlank c && !isDelimiter c

/-- The characters of words are bare. -/
theorem isBare_of_isPlain {c : Char} (h : isPlain c = true) : isBare c = true := by
  simp only [isPlain, Bool.or_eq_true, beq_iff_eq] at h
  obtain (h | rfl) | rfl := h
  · have hc := toNat_of_isNameChar h
    have hne {d : Char} (hd : ¬ ((48 ≤ d.toNat ∧ d.toNat ≤ 57) ∨ (65 ≤ d.toNat ∧ d.toNat ≤ 90) ∨
        d.toNat = 95 ∨ (97 ≤ d.toNat ∧ d.toNat ≤ 122))) : c ≠ d := fun he => hd (he ▸ hc)
    simp only [isBare, isDelimiter, isQuote, isBrace, isBlank_of_isNameChar h, Bool.not_false,
      Bool.true_and, Bool.not_eq_true', Bool.or_eq_false_iff, beq_eq_false_iff_ne]
    exact ⟨⟨hne (by decide), hne (by decide)⟩, hne (by decide), hne (by decide)⟩
  · decide
  · decide

/-- No class of plain characters holds a blank. -/
theorem eq_false_of_isBlank {p : Char → Bool} {c : Char} (hp : p c = true → isPlain c = true)
    (h : isBlank c = true) : p c = false := by
  cases hc : p c with
  | false => rfl
  | true =>
    have hbare := isBare_of_isPlain (hp hc)
    simp [isBare, h] at hbare

/-- What may stand in a name is plain. -/
theorem isPlain_of_isNameChar {c : Char} (h : isNameChar c = true) : isPlain c = true := by
  simp [isPlain, h]

/-- A digit is plain. -/
theorem isPlain_of_isDigit {c : Char} (h : c.isDigit = true) : isPlain c = true :=
  isPlain_of_isNameChar (isNameChar_of_isDigit h)

/-- No delimiter is plain. -/
theorem isDelimiter_of_isPlain {c : Char} (h : isPlain c = true) : isDelimiter c = false := by
  have hbare := isBare_of_isPlain h
  simp only [isBare, Bool.and_eq_true, Bool.not_eq_true'] at hbare
  exact hbare.2

/-- The slash, which may end a tag, is not plain. -/
theorem isPlain_slash : isPlain '/' = false := by decide

/-- What a name starts with is plain. -/
theorem isPlain_of_isNameStart {c : Char} (h : isNameStart c = true) : isPlain c = true :=
  isPlain_of_isNameChar (isNameChar_of_isNameStart h)

/-! ### Lengths -/

/-- A name is no longer than the text. -/
theorem dottedLength_le (cs : List Char) : dottedLength cs ≤ cs.length := by
  induction cs with
  | nil => exact Nat.le_refl 0
  | cons c cs ih =>
    unfold dottedLength
    split
    · exact Nat.succ_le_succ ih
    · exact Nat.zero_le _

/-- The characters of a name with dots in it are plain. -/
theorem isPlain_of_mem_take_dottedLength {c : Char} {cs : List Char}
    (h : c ∈ cs.take (dottedLength cs)) : isPlain c = true := by
  induction cs with
  | nil => cases h
  | cons d cs ih =>
    unfold dottedLength at h
    split at h
    · next hd =>
      rw [List.take_succ_cons] at h
      cases h with
      | head =>
        -- a character of the word, or a dot with a name behind it
        simp only [Bool.or_eq_true, Bool.and_eq_true] at hd
        simp only [isPlain, Bool.or_eq_true]
        exact .inl (hd.imp_right And.left)
      | tail _ h => exact ih h
    · cases h

/-! ### Strings -/

/-- The character that a backslash before `c` stands for. -/
def unescape : Char → Char
  | 'n' => '\n'
  | 't' => '\t'
  | 'r' => '\r'
  | c => c

/-- What a value is written as between its quotes, the closing quote included. -/
inductive StringBody (quote : Char) : List Char → List Char → Prop
  | close : StringBody quote [quote] []
  | escape {cs value : List Char} (c : Char) (h : StringBody quote cs value) :
      StringBody quote ('\\' :: c :: cs) (unescape c :: value)
  | char {c : Char} {cs value : List Char} (hc : c ≠ '\\') (hquote : c ≠ quote)
      (h : StringBody quote cs value) : StringBody quote (c :: cs) (c :: value)

/-- What the induction principle of strings says of a character that is not a backslash. -/
theorem ne_backslash {c : Char} {cs : List Char} (hnil : c = '\\' → cs = [] → False)
    (hcons : ∀ d ds, c = '\\' → cs = d :: ds → False) : c ≠ '\\' := by
  intro hc
  cases cs with
  | nil => exact hnil hc rfl
  | cons d ds => exact hcons d ds hc rfl

/-- What is read between quotes is written as the value says, and ends with the quote. -/
theorem stringBody_of_eq_some {quote : Char} {cs value : List Char} {n : Nat}
    (h : stringBody? quote cs = some (value, n)) :
    n ≤ cs.length ∧ StringBody quote (cs.take n) value := by
  -- by the scanner's own cases: the text ends, an escape, the closing quote, or a character
  fun_induction stringBody? quote cs generalizing value n with
  | case1 | case2 => cases h
  | case3 c cs ih =>
    obtain ⟨⟨v, m⟩, hm, he⟩ := Option.map_eq_some_iff.mp h
    obtain ⟨rfl, rfl⟩ := Prod.mk.inj he
    obtain ⟨hle, hbody⟩ := ih hm
    exact ⟨Nat.add_le_add_right hle 2, .escape c hbody⟩
  | case4 cs =>
    obtain ⟨rfl, rfl⟩ := Prod.mk.inj (Option.some.inj h)
    exact ⟨Nat.le_add_left 1 _, .close⟩
  | case5 c cs hnil hcons hne ih =>
    obtain ⟨⟨v, m⟩, hm, he⟩ := Option.map_eq_some_iff.mp h
    obtain ⟨rfl, rfl⟩ := Prod.mk.inj he
    obtain ⟨hle, hbody⟩ := ih hm
    exact ⟨Nat.succ_le_succ hle, .char (ne_backslash hnil hcons) hne hbody⟩

/-- A character that is no backslash closes the string or is part of it. -/
theorem stringBody?_cons {quote c : Char} (hc : c ≠ '\\') (cs : List Char) :
    stringBody? quote (c :: cs) =
      if c = quote then some ([], 1)
      else (stringBody? quote cs).map fun (value, n) => (c :: value, n + 1) := by
  rw [stringBody?]
  · exact fun h _ => hc h
  · exact fun _ _ h _ => hc h

/-- Only the characters up to the closing quote matter. -/
theorem StringBody.stringBody?_append {quote : Char} {cs value : List Char} (hq : quote ≠ '\\')
    (h : StringBody quote cs value) (us : List Char) :
    stringBody? quote (cs ++ us) = some (value, cs.length) := by
  induction h with
  | close => rw [List.cons_append, stringBody?_cons hq, if_pos rfl]; rfl
  | escape c _ ih =>
    rw [List.cons_append, List.cons_append]
    change (stringBody? quote _).map _ = _
    rw [ih]
    rfl
  | char hc hquote _ ih =>
    rw [List.cons_append, stringBody?_cons hc, if_neg hquote, ih]
    rfl

/-- The text between quotes ends with the closing one. -/
theorem StringBody.getLast? {quote : Char} {cs value : List Char} (h : StringBody quote cs value) :
    cs.getLast? = some quote := by
  induction h with
  | close => rfl
  | escape c _ ih => rw [List.getLast?_cons, List.getLast?_cons, ih]; rfl
  | char _ _ _ ih => rw [List.getLast?_cons, ih]; rfl

/-! ### The texts of tokens -/

/-- What a token is written as, given by its first character and the others. -/
inductive Written : Lexeme → Char → List Char → Prop
  /-- Variables, words and numbers. -/
  | plain {l : Lexeme} {c : Char} {cs : List Char} (hl : l ≠ .mark .slash)
      (hcs : ∀ x ∈ c :: cs, isPlain x = true) : Written l c cs
  | string {quote : Char} {cs value : List Char} (hquote : isQuote quote = true)
      (hbody : StringBody quote cs value) : Written (.string (String.ofList value)) quote cs
  | mark {m : Mark} {c : Char} {cs : List Char} (h : m.symbol.toList = c :: cs) :
      Written (.mark m) c cs

/-- A mark is written as its symbol. -/
theorem markAt?_symbol {c : Char} {rest : List Char} {m : Mark} {n : Nat}
    (h : markAt? c rest = some (m, n)) :
    n ≤ rest.length ∧ m.symbol.toList = c :: rest.take n := by
  unfold markAt? at h
  split at h
  case h_21 => cases h
  all_goals
    obtain ⟨rfl, rfl⟩ := Prod.mk.inj (Option.some.inj h)
    constructor
    · simp
    · rfl

/-- What is written at the front of a text is what is taken of it. -/
theorem Written.of_prefix {l : Lexeme} {c : Char} {w rest : List Char} (h : Written l c w)
    (hw : w <+: rest) : w.length ≤ rest.length ∧ Written l c (rest.take w.length) :=
  ⟨hw.length_le, (List.prefix_iff_eq_take.mp hw) ▸ h⟩

/-- A number is written in digits, or in digits with a point between them. -/
theorem numberAt_written {offset : Nat} {c : Char} {rest : List Char} {l : Lexeme} {n : Nat}
    (hc : c.isDigit = true) (h : numberAt offset c rest = .ok (l, n)) :
    n ≤ rest.length ∧ Written l c (rest.take n) := by
  have hdigits {cs : List Char} : ∀ x ∈ cs.takeWhile Char.isDigit, isPlain x = true :=
    fun x hx => isPlain_of_isDigit (mem_takeWhile_imp hx)
  -- an integer takes the digits and nothing else
  have hinteger (h : numberAt.integer offset (c :: rest.takeWhile Char.isDigit) = .ok (l, n)) :
      n ≤ rest.length ∧ Written l c (rest.take n) := by
    unfold numberAt.integer at h
    split at h
    · obtain ⟨rfl, rfl⟩ := Prod.mk.inj (Except.ok.inj h)
      refine Written.of_prefix (.plain nofun ?_) (List.takeWhile_prefix Char.isDigit)
      exact List.forall_mem_cons.mpr ⟨isPlain_of_isDigit hc, hdigits⟩
    · cases h
  unfold numberAt at h
  -- a dot behind the digits belongs to the number only if a digit follows it
  split at h
  · next d more hrest =>
    split at h
    · next hd =>
      obtain ⟨rfl, rfl⟩ := Prod.mk.inj (Except.ok.inj h)
      -- the point and the digits after it
      have hprefix : rest.takeWhile Char.isDigit ++ '.' :: d :: more.takeWhile Char.isDigit <+: rest := by
        conv => rhs; rw [← List.takeWhile_append_dropWhile (p := Char.isDigit) (l := rest), hrest]
        simpa using List.takeWhile_prefix Char.isDigit
      have hlength : (c :: rest.takeWhile Char.isDigit).length +
          (d :: more.takeWhile Char.isDigit).length =
          (rest.takeWhile Char.isDigit ++ '.' :: d :: more.takeWhile Char.isDigit).length := by
        simp only [List.length_append, List.length_cons]
        omega
      rw [hlength]
      refine Written.of_prefix (.plain nofun ?_) hprefix
      simp only [List.mem_cons, List.mem_append]
      rintro x (rfl | hx | rfl | rfl | hx)
      · exact isPlain_of_isDigit hc
      · exact hdigits x hx
      · decide
      · exact isPlain_of_isDigit hd
      · exact hdigits x hx
    · exact hinteger h
  · exact hinteger h

/-- What is read after a dollar sign. -/
theorem readLexeme_dollar {offset : Nat} {rest : List Char} {l : Lexeme} {n : Nat} :
    readLexeme offset '$' rest = .ok (l, n) ↔ rest.takeWhile isNameChar ≠ [] ∧
      .var (String.ofList (rest.takeWhile isNameChar)) = l ∧
      (rest.takeWhile isNameChar).length = n := by
  rw [readLexeme, if_pos rfl]
  dsimp only
  cases rest.takeWhile isNameChar with
  | nil => exact ⟨nofun, fun h => absurd rfl h.1⟩
  | cons c cs =>
    rw [if_neg (by simp), Except.ok.injEq, Prod.mk.injEq]
    exact ⟨fun h => ⟨List.cons_ne_nil c cs, h⟩, And.right⟩

/-- What is read as a token is written so. -/
theorem written_of_readLexeme {offset : Nat} {c : Char} {rest : List Char} {l : Lexeme} {n : Nat}
    (h : readLexeme offset c rest = .ok (l, n)) :
    n ≤ rest.length ∧ Written l c (rest.take n) := by
  -- the first character tells what is read: a variable, a name, a number, a string or a mark
  unfold readLexeme at h
  split at h
  · next hc =>
    subst hc
    dsimp only at h
    split at h
    · cases h
    · obtain ⟨rfl, rfl⟩ := Prod.mk.inj (Except.ok.inj h)
      refine Written.of_prefix (.plain nofun ?_) (List.takeWhile_prefix isNameChar)
      exact List.forall_mem_cons.mpr
        ⟨by decide, fun x hx => isPlain_of_isNameChar (mem_takeWhile_imp hx)⟩
  split at h
  · next hc =>
    obtain ⟨rfl, rfl⟩ := Prod.mk.inj (Except.ok.inj h)
    refine ⟨dottedLength_le rest, .plain nofun ?_⟩
    exact List.forall_mem_cons.mpr
      ⟨isPlain_of_isNameChar (isNameChar_of_isNameStart hc), fun x => isPlain_of_mem_take_dottedLength⟩
  split at h
  · next hc => exact numberAt_written hc h
  split at h
  · next hc =>
    split at h
    · next value n' hbody =>
      obtain ⟨rfl, rfl⟩ := Prod.mk.inj (Except.ok.inj h)
      -- a string may hold any character, so its body is kept as it is written
      obtain ⟨hle, hbody⟩ := stringBody_of_eq_some hbody
      exact ⟨hle, .string (by simpa [isQuote] using hc) hbody⟩
    · cases h
  · split at h
    · next m n' hm =>
      obtain ⟨rfl, rfl⟩ := Prod.mk.inj (Except.ok.inj h)
      obtain ⟨hle, hsymbol⟩ := markAt?_symbol hm
      exact ⟨hle, .mark hsymbol⟩
    · cases h

/-- A token ends in a character that is not a blank; only the slash ends in a slash. -/
theorem Written.last {l : Lexeme} {c : Char} {cs : List Char} (h : Written l c cs) :
    ∃ x, (c :: cs).getLast? = some x ∧ isBlank x = false ∧ (x = '/' → l = .mark .slash) := by
  -- plain characters end in one of theirs, a string in its quote, a mark in its symbol
  cases h with
  | plain hl hcs =>
    refine ⟨_, List.getLast?_eq_some_getLast (List.cons_ne_nil c cs), ?_⟩
    -- a plain character is no blank, and the slash is no plain one
    have hplain := hcs _ (List.getLast_mem (List.cons_ne_nil c cs))
    have hbare := isBare_of_isPlain hplain
    simp only [isBare, Bool.and_eq_true, Bool.not_eq_true'] at hbare
    refine ⟨hbare.1, fun hslash => ?_⟩
    rw [hslash, isPlain_slash] at hplain
    cases hplain
  | string hquote hbody =>
    refine ⟨c, ?_, ?_⟩
    · rw [List.getLast?_cons, hbody.getLast?]
      rfl
    · simp only [isQuote, Bool.or_eq_true, beq_iff_eq] at hquote
      obtain rfl | rfl := hquote <;> exact ⟨by decide, fun h => absurd h (by decide)⟩
  | @mark m _ _ h =>
    rw [← h]
    cases m <;> exact ⟨_, rfl, by decide, by decide⟩

/-! ### Blanks after a token -/

section Blanks

variable {bs : List Char} (hbs : ∀ b ∈ bs, isBlank b = true)

include hbs

/-- A run of plain characters ends at the blanks. -/
theorem takeWhile_append_blanks {p : Char → Bool} (hp : ∀ {c}, p c = true → isPlain c = true)
    (cs : List Char) :
    (cs ++ bs).takeWhile p = cs.takeWhile p ∧ (cs ++ bs).dropWhile p = cs.dropWhile p ++ bs := by
  induction cs with
  | nil =>
    cases bs with
    | nil => exact ⟨rfl, rfl⟩
    | cons b bs =>
      have hb := eq_false_of_isBlank hp (hbs b List.mem_cons_self)
      simp [hb]
  | cons c cs ih =>
    by_cases hc : p c <;> simp [hc, ih.1, ih.2]

/-- So does a name with dots in it. -/
theorem dottedLength_append_blanks (cs : List Char) : dottedLength (cs ++ bs) = dottedLength cs := by
  -- a dot at the end stays outside: no blank starts a name
  have hhead : bs.head?.any isNameStart = false := by
    cases bs with
    | nil => rfl
    | cons b bs => exact eq_false_of_isBlank isPlain_of_isNameStart (hbs b List.mem_cons_self)
  induction cs with
  | nil =>
    cases bs with
    | nil => rfl
    | cons b bs =>
      have hb := eq_false_of_isBlank id (hbs b List.mem_cons_self)
      simp only [isPlain, Bool.or_eq_false_iff] at hb
      simp [dottedLength, hb.1.1, hb.1.2]
  | cons c cs ih =>
    -- what a dot looks at is the same with and without the blanks
    have hnext : (cs ++ bs).head?.any isNameStart = cs.head?.any isNameStart := by
      cases cs with
      | nil => exact hhead
      | cons d cs => rfl
    rw [List.cons_append, dottedLength, dottedLength, hnext, ih]

/-- And a number, which does not depend on where it stands either. -/
theorem numberAt_of_append_blanks {offset : Nat} {c : Char} {rest : List Char} {l : Lexeme}
    {n : Nat} (h : numberAt offset c (rest ++ bs) = .ok (l, n)) (offset' : Nat) :
    numberAt offset' c rest = .ok (l, n) := by
  -- an integer is made from its digits alone
  have hinteger {ds : List Char} (h : numberAt.integer offset ds = .ok (l, n)) :
      numberAt.integer offset' ds = .ok (l, n) := by
    unfold numberAt.integer at h ⊢
    split at h
    · exact h
    · cases h
  obtain ⟨htake, hdrop⟩ := takeWhile_append_blanks hbs isPlain_of_isDigit rest
  unfold numberAt at h ⊢
  simp only [htake, hdrop] at h
  -- the digit after a point, if there is one, is not among the blanks
  have hsame {d : Char} {more : List Char} (hd : d.isDigit = true) :
      rest.dropWhile Char.isDigit ++ bs = '.' :: d :: more →
        ∃ more', rest.dropWhile Char.isDigit = '.' :: d :: more' ∧ more = more' ++ bs := by
    intro he
    cases hrest : rest.dropWhile Char.isDigit with
    | nil =>
      rw [hrest, List.nil_append] at he
      exact absurd (hbs '.' (he ▸ List.mem_cons_self)) (by decide)
    | cons x xs =>
      rw [hrest] at he
      obtain ⟨rfl, hxs⟩ := List.cons.inj he
      cases xs with
      | nil =>
        have hblank := hbs d (by rw [show bs = d :: more from hxs]; exact List.mem_cons_self)
        rw [eq_false_of_isBlank isPlain_of_isDigit hblank] at hd
        cases hd
      | cons y ys =>
        obtain ⟨rfl, rfl⟩ := List.cons.inj hxs
        exact ⟨ys, rfl, rfl⟩
  split at h
  · next d more he =>
    split at h
    · next hd =>
      obtain ⟨more', hrest, rfl⟩ := hsame hd he
      rw [hrest]
      rw [(takeWhile_append_blanks hbs isPlain_of_isDigit more').1] at h
      simp only [hd, if_true]
      exact h
    · next hd =>
      split
      · next d' more' he' =>
        rw [he'] at he
        cases he
        rw [if_neg hd]
        exact hinteger h
      · exact hinteger h
  -- without blanks there is no point either
  · next hne =>
    split
    · next d more he =>
      exact absurd (by rw [he]; rfl) (hne d (more ++ bs))
    · exact hinteger h

/-- And a mark. -/
theorem markAt?_append_blanks (c : Char) (rest : List Char) :
    markAt? c (rest ++ bs) = markAt? c rest := by
  cases rest with
  | nil =>
    cases bs with
    | nil => rfl
    | cons b bs =>
      have hb : b ≠ '=' := fun he => absurd (hbs b List.mem_cons_self) (he ▸ by decide)
      unfold markAt?
      split <;> simp_all
  | cons x xs =>
    -- only the next character matters
    unfold markAt?
    split <;> simp_all

/-- A token does not depend on where its text stands or on blanks after it. -/
theorem readLexeme_of_append_blanks {offset : Nat} {c : Char} {rest : List Char} {l : Lexeme}
    {n : Nat} (h : readLexeme offset c (rest ++ bs) = .ok (l, n)) (offset' : Nat) :
    n ≤ rest.length ∧ readLexeme offset' c rest = .ok (l, n) := by
  obtain ⟨hle, hwritten⟩ := written_of_readLexeme h
  have hn : n ≤ rest.length := by
    -- else the token ends in a blank
    obtain ⟨x, hlast, hx, -⟩ := hwritten.last
    refine Nat.le_of_not_lt fun hlt => ?_
    have hne : bs.take (n - rest.length) ≠ [] := by
      rw [List.length_append] at hle
      simp only [ne_eq, List.take_eq_nil_iff, not_or]
      exact ⟨by omega, fun hnil => by rw [hnil, List.length_nil] at hle; omega⟩
    rw [List.take_append, ← List.cons_append, List.getLast?_append,
      List.getLast?_eq_some_getLast hne] at hlast
    cases hlast
    rw [hbs _ (List.mem_of_mem_take (List.getLast_mem hne))] at hx
    cases hx
  refine ⟨hn, ?_⟩
  obtain ⟨htake, -⟩ := takeWhile_append_blanks hbs isPlain_of_isNameChar rest
  -- the first character says what is read, and each of these ends before the blanks
  unfold readLexeme at h ⊢
  by_cases hvar : c = '$'
  · rw [if_pos hvar] at h ⊢
    simp only [htake] at h ⊢
    split at h
    · cases h
    · next hempty => rw [if_neg hempty]; exact h
  rw [if_neg hvar] at h ⊢
  by_cases hword : isNameStart c = true
  · rw [if_pos hword] at h ⊢
    simp only [dottedLength_append_blanks hbs,
      List.take_append_of_le_length (dottedLength_le rest)] at h ⊢
    exact h
  rw [if_neg hword] at h ⊢
  by_cases hdigit : c.isDigit = true
  · rw [if_pos hdigit] at h ⊢
    exact numberAt_of_append_blanks hbs h offset'
  rw [if_neg hdigit] at h ⊢
  by_cases hquote : c = '\'' || c = '"'
  · rw [if_pos hquote] at h ⊢
    split at h
    · next value m hbody =>
      obtain ⟨rfl, rfl⟩ := Prod.mk.inj (Except.ok.inj h)
      obtain ⟨-, hbody⟩ := stringBody_of_eq_some hbody
      rw [List.take_append_of_le_length hn] at hbody
      have hne : c ≠ '\\' := by
        rintro rfl
        exact absurd hquote (by decide)
      -- the body is read again with what stood behind it, but for the blanks
      have hbody := hbody.stringBody?_append hne (rest.drop m)
      rw [List.take_append_drop, List.length_take_of_le hn] at hbody
      rw [hbody]
    · cases h
  rw [if_neg hquote] at h ⊢
  rw [markAt?_append_blanks hbs] at h
  split at h
  · exact h
  · cases h

end Blanks

end Token

/-! ### Texts -/

open Token

/-- The text at an offset splits into the tokens: blanks hold none, and a token ends where the next
blank or token starts. -/
inductive SplitsInto : Nat → List Char → List Token → Prop
  | nil (offset : Nat) : SplitsInto offset [] []
  | blank {offset : Nat} {c : Char} {cs : List Char} {ts : List Token} (hc : isBlank c = true)
      (h : SplitsInto (offset + c.utf8Size) cs ts) : SplitsInto offset (c :: cs) ts
  | token {offset : Nat} {c : Char} {w rest : List Char} {l : Lexeme} {ts : List Token}
      (hc : isBlank c = false) (hread : readLexeme offset c (w ++ rest) = .ok (l, w.length))
      (h : SplitsInto (offset + byteLength (c :: w)) rest ts) :
      SplitsInto offset (c :: (w ++ rest)) (⟨l, offset, offset + byteLength (c :: w)⟩ :: ts)

/-- The tokens of a text are those that it splits into. -/
theorem tokens_eq_ok_iff {offset : Nat} {cs : List Char} {ts : List Token} :
    tokens offset cs = .ok ts ↔ SplitsInto offset cs ts := by
  constructor
  · intro h
    fun_induction tokens offset cs generalizing ts with
    | case1 offset =>
      obtain rfl := Except.ok.inj h
      exact .nil offset
    | case2 offset c cs hc ih => exact .blank hc (ih h)
    | case3 offset c cs hc ih =>
      obtain ⟨⟨l, n⟩, hread, hgoes⟩ := exists_of_bind_ok h
      obtain ⟨more, hmore, hend⟩ := exists_of_bind_ok hgoes
      obtain rfl := Except.ok.inj hend
      -- the text splits into what the token takes and what follows
      obtain ⟨hle, -⟩ := written_of_readLexeme hread
      have hread' : readLexeme offset c (cs.take n ++ cs.drop n) = .ok (l, (cs.take n).length) := by
        rw [List.take_append_drop, List.length_take_of_le hle]
        exact hread
      have hsplits := SplitsInto.token (by simpa using hc) hread' (ih n hmore)
      rw [List.take_append_drop] at hsplits
      exact hsplits
  · intro h
    -- back: each rule of the splitting is one step of the reader
    induction h with
    | nil => rw [tokens]
    | blank hc _ ih => rw [tokens, if_pos hc, ih]
    | token hc hread _ ih =>
      rw [tokens, if_neg (by simp [hc]), hread, ok_bind]
      simp only [List.take_left, List.drop_left, ih, ok_bind]
      rfl

/-- A range further on in a file. -/
def Span.shift (d : Nat) (s : Span) : Span := ⟨s.start + d, s.stop + d⟩

/-- A token further on in a file. -/
def Token.shift (d : Nat) (t : Token) : Token := ⟨t.lexeme, t.span.shift d⟩

/-- Behind a blank the text splits into the same tokens. -/
theorem SplitsInto.of_blank {offset : Nat} {b : Char} {cs : List Char} {ts : List Token}
    (h : SplitsInto offset (b :: cs) ts) (hb : isBlank b = true) :
    SplitsInto (offset + b.utf8Size) cs ts := by
  cases h with
  | blank _ h => exact h
  | token hc =>
    rw [hb] at hc
    cases hc

/-- Blanks alone hold no token. -/
theorem SplitsInto.eq_nil {offset : Nat} {bs : List Char} {ts : List Token}
    (h : SplitsInto offset bs ts) (hbs : ∀ b ∈ bs, isBlank b = true) : ts = [] := by
  induction h with
  | nil => rfl
  | blank _ _ ih => exact ih fun b hb => hbs b (List.mem_cons_of_mem _ hb)
  | token hc _ _ _ =>
    rw [hbs _ List.mem_cons_self] at hc
    cases hc

/-- A text keeps its tokens wherever it stands, and blanks after it hold none. -/
theorem SplitsInto.shift {offset : Nat} {cs bs : List Char} {ts : List Token}
    (hbs : ∀ b ∈ bs, isBlank b = true) (h : SplitsInto offset (cs ++ bs) ts) (d : Nat) :
    SplitsInto (offset + d) cs (ts.map (Token.shift d)) := by
  generalize hall : cs ++ bs = all at h
  induction h generalizing cs with
  | nil =>
    obtain ⟨rfl, -⟩ := List.append_eq_nil_iff.mp hall
    exact .nil _
  -- the blank may be one of the last ones already
  | @blank offset c rest ts hc hrest ih =>
    cases cs with
    | nil =>
      obtain rfl : bs = c :: rest := hall
      obtain rfl := hrest.eq_nil fun b hb => hbs b (List.mem_cons_of_mem _ hb)
      exact .nil _
    | cons c' cs =>
      obtain ⟨rfl, rfl⟩ := List.cons.inj hall
      refine .blank hc ?_
      rw [Nat.add_right_comm]
      exact ih rfl
  | @token offset c w rest l ts hc hread hrest ih =>
    cases cs with
    | nil =>
      obtain rfl : bs = c :: (w ++ rest) := hall
      rw [hbs c List.mem_cons_self] at hc
      cases hc
    | cons c' cs =>
      obtain ⟨rfl, hcs⟩ := List.cons.inj hall
      change cs ++ bs = w ++ rest at hcs
      rw [← hcs] at hread
      obtain ⟨hle, hread'⟩ := readLexeme_of_append_blanks hbs hread (offset + d)
      -- the token ends before the blanks
      obtain ⟨us, rfl⟩ : w <+: cs := List.prefix_of_prefix_length_le ⟨rest, rfl⟩ ⟨bs, hcs⟩ hle
      rw [List.append_assoc, List.append_cancel_left_eq] at hcs
      have htail := ih hcs
      rw [Nat.add_right_comm] at htail
      have htoken := SplitsInto.token hc hread' htail
      rw [Nat.add_right_comm] at htoken
      exact htoken

/-- A text that ends in a slash ends in the token of the slash. -/
theorem SplitsInto.exists_slash {offset : Nat} {cs : List Char} {ts : List Token}
    (h : SplitsInto offset cs ts) (hcs : cs.getLast? = some '/') :
    ∃ s, ts.getLast? = some ⟨.mark .slash, s⟩ := by
  induction h with
  | nil => cases hcs
  | @blank offset c rest ts hc hrest ih =>
    cases rest with
    | nil =>
      cases hcs
      -- a slash is no blank
      exact absurd hc (by decide)
    | cons d rest => exact ih (by rwa [List.getLast?_cons_cons] at hcs)
  | @token offset c w rest l ts hc hread hrest ih =>
    -- the last token has the slash in it, so it is a mark
    cases rest with
    | nil =>
      obtain rfl := hrest.eq_nil (by simp)
      obtain ⟨x, hlast, -, hslash⟩ := (written_of_readLexeme hread).2.last
      rw [List.append_nil, List.take_length] at hlast
      rw [List.append_nil, hlast] at hcs
      obtain rfl := hslash (Option.some.inj hcs)
      exact ⟨_, rfl⟩
    | cons d rest =>
      rw [← List.cons_append, List.getLast?_append, List.getLast?_cons, Option.some_or,
        ← List.getLast?_cons] at hcs
      obtain ⟨s, hs⟩ := ih hcs
      exact ⟨s, by rw [List.getLast?_cons, hs]; rfl⟩

end TemplateFrontend
