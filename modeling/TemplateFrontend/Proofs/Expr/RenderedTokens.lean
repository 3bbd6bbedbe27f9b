import TemplateFrontend.Proofs.Expr.Sources
/-!
# Tokens of texts that are put together

A text is put together of pieces that each have known tokens. The token at the end of a piece could go on in what
comes after it, so the tokens of a piece are those that it has before a certain text.

* `HasTokens` — the tokens that a text has before another one, and `HasTokens.append`;
* `Ends`, `Parts` — texts before which a name ends, and before which a variable or a number does;
* `HasTokens.var`, `HasTokens.word`, `HasTokens.mark`, `HasTokens.literal` — the texts of single tokens.
-/

namespace TemplateFrontend

open Text Token
open TemplateFrontend.Expr (IsIdentifier IsDotted selectors dotted text_int unaryText)

/-- Wherever the text stands, its tokens have the property if `rest` comes after it. -/
def HasTokens (P : List Token → Prop) (cs rest : List Char) : Prop :=
  ∀ offset us, SplitsInto (offset + byteLength cs) rest us →
    ∃ ts, P ts ∧ SplitsInto offset (cs ++ rest) (ts ++ us)

/-- One token, wherever it stands. -/
def Single (l : Lexeme) (ts : List Token) : Prop := ∃ s, ts = [⟨l, s⟩]

/-- What comes after a name does not go on with it. -/
def Ends (rest : List Char) : Prop := ∀ c ∈ rest.head?, isNameChar c = false ∧ c ≠ '.'

/-- What comes after a variable or a number does not go on with it. A point may come after it, but before a name. -/
def Parts (rest : List Char) : Prop :=
  (∀ c ∈ rest.head?, isNameChar c = false) ∧ ∀ d more, rest = '.' :: d :: more → isNameStart d = true

theorem ends_nil : Ends [] := nofun

theorem ends_cons {c : Char} {rest : List Char} (hc : isNameChar c = false) (hdot : c ≠ '.') : Ends (c :: rest) := by
  rintro d ⟨⟩
  exact ⟨hc, hdot⟩

theorem Ends.dottedLength_eq {rest : List Char} (h : Ends rest) : dottedLength rest = 0 := by
  cases rest with
  | nil => rfl
  | cons c rest =>
    obtain ⟨hc, hdot⟩ := h c rfl
    rw [dottedLength, if_neg (by simp [hc, hdot])]

/-- Names of fields come between. -/
theorem Ends.parts {rest : List Char} (h : Ends rest) (names : List String) (hnames : ∀ y ∈ names, IsIdentifier y) :
    Parts (selectors names ++ rest) := by
  -- without names the rest ends the word; with one, a dot and a name start stand there
  cases names with
  | nil =>
    refine ⟨fun c hc => (h c hc).1, ?_⟩
    rintro d more rfl
    exact absurd rfl (h '.' rfl).2
  | cons y names =>
    obtain ⟨⟨c, cs, hy, hc, -⟩, -⟩ := List.forall_mem_cons.mp hnames
    have htext : selectors (y :: names) ++ rest = '.' :: c :: (cs ++ selectors names ++ rest) := by
      rw [selectors, List.flatMap_cons, hy]
      rfl
    rw [htext]
    constructor
    · rintro c ⟨⟩
      decide
    · rintro d more ⟨⟩
      exact hc

theorem Parts.takeWhile_digits {rest ds : List Char} (h : Parts rest) (hds : ∀ d ∈ ds, d.isDigit = true) :
    (ds ++ rest).takeWhile Char.isDigit = ds ∧ (ds ++ rest).dropWhile Char.isDigit = rest := by
  refine takeWhile_run hds fun c hc => Bool.eq_false_iff.mpr fun hdigit => ?_
  have hname := h.1 c hc
  rw [isNameChar_of_isDigit hdigit] at hname
  cases hname

namespace HasTokens

variable {P Q : List Token → Prop} {cs ds rest : List Char}

theorem imp (h : HasTokens P cs rest) (hPQ : ∀ ts, P ts → Q ts) : HasTokens Q cs rest := by
  intro offset us hus
  obtain ⟨ts, hts, hsplits⟩ := h offset us hus
  exact ⟨ts, hPQ ts hts, hsplits⟩

theorem nil (rest : List Char) : HasTokens (· = []) [] rest := fun _ _ h => ⟨[], rfl, h⟩

/-- **The tokens of one text and another** are those of the one before the other, and those of the other. -/
theorem append (h : HasTokens P cs (ds ++ rest)) (h' : HasTokens Q ds rest) :
    HasTokens (fun ts => ∃ us vs, P us ∧ Q vs ∧ ts = us ++ vs) (cs ++ ds) rest := by
  intro offset ws hws
  rw [byteLength_append, ← Nat.add_assoc] at hws
  obtain ⟨vs, hvs, hds⟩ := h' _ _ hws
  obtain ⟨us, hus, hcs⟩ := h _ _ hds
  exact ⟨us ++ vs, ⟨us, vs, hus, hvs, rfl⟩, by rwa [List.append_assoc, List.append_assoc]⟩

/-- A blank holds no token. -/
theorem blank (h : HasTokens P cs rest) : HasTokens P (' ' :: cs) rest := by
  intro offset us hus
  rw [byteLength_cons, ← Nat.add_assoc] at hus
  obtain ⟨ts, hts, hsplits⟩ := h _ us hus
  exact ⟨ts, hts, .blank (by decide) hsplits⟩

theorem single {c : Char} {w : List Char} {l : Lexeme} (hc : isBlank c = false)
    (hread : ∀ offset, readLexeme offset c (w ++ rest) = .ok (l, w.length)) : HasTokens (Single l) (c :: w) rest :=
  fun offset _ h => ⟨[⟨l, offset, offset + byteLength (c :: w)⟩], ⟨_, rfl⟩, .token hc (hread offset) h⟩

/-! ### Names -/

theorem var {x : String} (hne : x ≠ "") (hx : ∀ c ∈ x.toList, isNameChar c = true) (hrest : Parts rest) :
    HasTokens (Single (.var x)) ('$' :: x.toList) rest := by
  refine single (by decide) fun offset => ?_
  rw [readLexeme_dollar, (takeWhile_run hx hrest.1).1]
  exact ⟨fun hnil => hne (String.toList_inj.mp hnil), by rw [String.ofList_toList], rfl⟩

theorem dottedLength_append (hcs : ∀ c ∈ cs, isNameChar c = true) :
    dottedLength (cs ++ rest) = cs.length + dottedLength rest := by
  induction cs with
  | nil => exact (Nat.zero_add _).symm
  | cons c cs ih =>
    obtain ⟨hc, hcs⟩ := List.forall_mem_cons.mp hcs
    rw [List.cons_append, dottedLength, if_pos (by simp [hc]), ih hcs, List.length_cons]
    omega

theorem dottedLength_selectors {names : List String} (hnames : ∀ y ∈ names, IsIdentifier y) :
    dottedLength (selectors names ++ rest) = (selectors names).length + dottedLength rest := by
  induction names with
  | nil => exact (Nat.zero_add _).symm
  | cons y names ih =>
    obtain ⟨hy, hnames⟩ := List.forall_mem_cons.mp hnames
    obtain ⟨c, cs, hcs, hc, -⟩ := id hy
    have htext : selectors (y :: names) = '.' :: (y.toList ++ selectors names) := rfl
    -- behind the dot a name starts, so the word goes on
    have hnext : (y.toList ++ (selectors names ++ rest)).head?.any isNameStart = true := by
      rw [hcs]
      exact hc
    rw [htext, List.cons_append, List.append_assoc, dottedLength, hnext, if_pos (by simp),
      dottedLength_append hy.isNameChar, ih hnames, List.length_cons, List.length_append]
    omega

theorem word {w : String} (hw : IsDotted w) (hrest : Ends rest) : HasTokens (Single (.word w)) w.toList rest := by
  obtain ⟨x, names, rfl, ⟨c, cs, hx, hc, hcs⟩, hnames⟩ := hw
  have htext : (dotted x names).toList = c :: (cs ++ selectors names) := by
    rw [dotted, String.toList_ofList, hx, List.cons_append]
  -- the word ends exactly where its text ends
  have hlength : dottedLength (cs ++ selectors names ++ rest) = (cs ++ selectors names).length := by
    rw [List.append_assoc, dottedLength_append hcs, dottedLength_selectors hnames, hrest.dottedLength_eq,
      List.length_append, Nat.add_zero]
  rw [htext]
  refine single (isBlank_of_isNameChar (isNameChar_of_isNameStart hc)) fun offset => ?_
  -- a name does not start with `$`, so this is no variable
  have hdollar : c ≠ '$' := by
    rintro rfl
    exact absurd hc (by decide)
  rw [readLexeme, if_neg hdollar, if_pos hc]
  dsimp only
  rw [hlength, List.take_left, ← htext, String.ofList_toList]

/-! ### Literals -/

theorem isNameStart_of_isDigit {c : Char} (h : c.isDigit = true) : isNameStart c = false := by
  have hdigit : c.isDigit = (decide (48 ≤ c.toNat) && decide (c.toNat ≤ 57)) := rfl
  have hstart : isNameStart c = ((decide (65 ≤ c.toNat ∧ c.toNat ≤ 90) ||
    (decide (97 ≤ c.toNat) && decide (c.toNat ≤ 122))) || c == '_') := rfl
  rw [hdigit, Bool.and_eq_true, decide_eq_true_eq, decide_eq_true_eq] at h
  rw [Bool.eq_false_iff, Ne, hstart]
  simp only [Bool.or_eq_true, Bool.and_eq_true, decide_eq_true_eq, beq_iff_eq]
  rintro ((hupper | hlower) | rfl)
  · omega
  · omega
  · exact absurd h (by decide)

/-- A digit is read as the start of a number. -/
theorem readLexeme_digit {c : Char} (hc : c.isDigit = true) (offset : Nat) (cs : List Char) :
    readLexeme offset c cs = numberAt offset c cs := by
  have hdollar : c ≠ '$' := by
    rintro rfl
    exact absurd hc (by decide)
  rw [readLexeme, if_neg hdollar, isNameStart_of_isDigit hc, if_neg (by simp), if_pos hc]

theorem int {n : Int64} (hn : 0 ≤ n.toInt) (hrest : Parts rest) :
    HasTokens (Single (.int n)) (Literal.int n).text.toList rest := by
  have hdigits : ∀ d ∈ digits n.toInt.toNat, d.isDigit = true := fun d => Decimal.isDigit_of_mem_digits
  have hvalue := Decimal.natOfDigits_digits n.toInt.toNat
  have hne : digits n.toInt.toNat ≠ [] := Nat.toDigits_ne_nil
  rw [text_int hn]
  generalize digits n.toInt.toNat = ds at hdigits hvalue hne
  obtain ⟨c, ds, rfl⟩ := List.exists_cons_of_ne_nil hne
  obtain ⟨hc, hds⟩ := List.forall_mem_cons.mp hdigits
  refine single (isBlank_of_isNameChar (isNameChar_of_isDigit hc)) fun offset => ?_
  obtain ⟨htake, hdrop⟩ := hrest.takeWhile_digits hds
  -- the digits give the number back, which is in range as it came from one
  have hinteger : numberAt.integer offset (c :: ds) = .ok (.int n, ds.length) := by
    have hrange : Integer.ofInt? (n.toInt.toNat : Int) = some n := by
      rw [Int.toNat_of_nonneg hn, Integer.ofInt?, if_pos ⟨n.minValue_le_toInt, n.toInt_le⟩]
      exact congrArg some n.ofInt_toInt
    rw [numberAt.integer, hvalue, hrange]
    rfl
  rw [readLexeme_digit hc, numberAt, htake, hdrop]
  dsimp only
  split
  · next d more =>
    -- a point comes before a name only
    have hd : ¬ d.isDigit = true := fun hdigit => by
      have hstart := hrest.2 d more rfl
      rw [isNameStart_of_isDigit hdigit] at hstart
      cases hstart
    rw [if_neg hd, hinteger]
  · exact hinteger

theorem float {x : Float} (hx : Decimal.Fractional x) (hrest : Parts rest) :
    HasTokens (Single (.float x)) (Literal.float x).text.toList rest := by
  -- the text has digits on both sides of its point
  obtain ⟨whole, fraction, hne, hne', hdigits, htext, hvalue⟩ := Decimal.exists_point_of_fractional hx
  obtain ⟨c, ds, rfl⟩ := List.exists_cons_of_ne_nil hne
  obtain ⟨d, es, rfl⟩ := List.exists_cons_of_ne_nil hne'
  obtain ⟨hwhole, hfraction⟩ := List.forall_mem_append.mp hdigits
  obtain ⟨hc, hds⟩ := List.forall_mem_cons.mp hwhole
  obtain ⟨hd, hes⟩ := List.forall_mem_cons.mp hfraction
  have hpoint : ∀ c ∈ ('.' :: d :: (es ++ rest)).head?, c.isDigit = false := by
    rintro c ⟨⟩
    decide
  change HasTokens _ (Decimal.render x).toList rest
  rw [htext, List.cons_append]
  refine single (isBlank_of_isNameChar (isNameChar_of_isDigit hc)) fun offset => ?_
  obtain ⟨htake, hdrop⟩ := takeWhile_run hds hpoint
  -- the digits, the point and the digits behind it, as the scanner meets them
  have happend : ds ++ '.' :: d :: es ++ rest = ds ++ '.' :: d :: (es ++ rest) := by simp
  rw [happend, readLexeme_digit hc, numberAt, htake, hdrop]
  simp only [hd, if_true, (hrest.takeWhile_digits hes).1, hvalue, List.length_append]
  rw [List.length_cons, List.length_cons, List.length_cons, List.length_cons, Nat.add_right_comm, Nat.add_assoc]

theorem string {s : String} (hs : '\\' ∉ s.toList) :
    HasTokens (Single (.string s)) (Literal.string s).text.toList rest := by
  -- a quote is written with a backslash, every other character as it is
  have hbody (value : List Char) (hvalue : '\\' ∉ value) : StringBody '\''
      ((value.flatMap fun c => if c = '\'' then ['\\', '\''] else [c]) ++ ['\'']) value := by
    induction value with
    | nil => exact .close
    | cons c value ih =>
      obtain ⟨hc, hrest⟩ := not_or.mp (mt List.mem_cons.mpr hvalue)
      rw [List.flatMap_cons]
      by_cases hquote : c = '\''
      · subst hquote
        exact .escape '\'' (ih hrest)
      · rw [if_neg hquote]
        exact .char (Ne.symm hc) hquote (ih hrest)
  rw [Literal.text, Literal.quote, String.toList_ofList, List.cons_append]
  refine single (by decide) fun offset => ?_
  -- the scanner stops at the closing quote and gives the value back
  have hread := (hbody s.toList hs).stringBody?_append (by decide) rest
  rw [readLexeme, if_neg (by decide), if_neg (by decide), if_neg (by decide), if_pos (by decide), hread]
  dsimp only
  rw [String.ofList_toList]

/-! ### Marks -/

/-- Only an equals sign would go on with a mark. -/
theorem markAt?_of_head (hrest : rest.head? ≠ some '=') (c : Char) : markAt? c rest = markAt? c [] := by
  unfold markAt?
  split <;> simp_all

theorem mark (m : Mark) (hrest : m ≠ .lt ∧ m ≠ .gt ∧ m ≠ .assign ∨ rest.head? ≠ some '=') :
    HasTokens (Single (.mark m)) m.symbol.toList rest := by
  -- three marks are the front of longer ones, so the next character decides
  have hsingle {c : Char} (hmark : markAt? c [] = some (m, 0)) (hblank : isBlank c = false)
      (hc : c ≠ '$' ∧ ¬ isNameStart c = true ∧ ¬ c.isDigit = true ∧ ¬ (c = '\'' || c = '"') = true)
      (hne : ¬ (m ≠ .lt ∧ m ≠ .gt ∧ m ≠ .assign)) : HasTokens (Single (.mark m)) [c] rest := by
    obtain ⟨hdollar, hstart, hdigit, hquote⟩ := hc
    refine single hblank fun offset => ?_
    rw [readLexeme, if_neg hdollar, if_neg hstart, if_neg hdigit, if_neg hquote, List.nil_append,
      markAt?_of_head (hrest.resolve_left hne), hmark]
    rfl
  cases m
  case lt | gt | assign => exact hsingle rfl (by decide) (by decide) (by decide)
  all_goals exact single (by decide) fun offset => rfl

/-- A text between two marks, of which the first does not go on. -/
theorem enclosed {m m' : Mark} (hm : m ≠ .lt ∧ m ≠ .gt ∧ m ≠ .assign) (hm' : m' ≠ .lt ∧ m' ≠ .gt ∧ m' ≠ .assign)
    (h : HasTokens P cs (m'.symbol.toList ++ rest)) :
    HasTokens (fun ts => ∃ inner o c, P inner ∧ ts = ⟨.mark m, o⟩ :: (inner ++ [⟨.mark m', c⟩]))
      (m.symbol.toList ++ (cs ++ m'.symbol.toList)) rest := by
  refine ((mark m (.inl hm)).append (h.append (mark m' (.inl hm')))).imp ?_
  rintro _ ⟨_, _, ⟨o, rfl⟩, ⟨inner, _, hinner, ⟨c, rfl⟩, rfl⟩, rfl⟩
  exact ⟨inner, o, c, hinner, rfl⟩

/-! ### Operators -/

/-- An operator between two operands has a blank after it. -/
theorem binaryOp (op : BinaryOp) : HasTokens (Single op.lexeme) op.symbol.toList (' ' :: rest) := by
  have hends : Ends (' ' :: rest) := ends_cons (by decide) (by decide)
  cases op
  case and => exact word (.of_identifier ⟨'a', ['n', 'd'], rfl, by decide, by simp [isNameChar]⟩) hends
  case or => exact word (.of_identifier ⟨'o', ['r'], rfl, by decide, by simp [isNameChar]⟩) hends
  all_goals exact mark _ (.inr (by simp))

/-- Of the operators before an operand one has a blank after it, and the other goes on with nothing. -/
theorem unaryOp (op : UnaryOp) (h : HasTokens P cs rest) :
    HasTokens (fun ts => ∃ t us, t.lexeme = op.lexeme ∧ P us ∧ ts = t :: us)
      (unaryText op ++ cs) rest := by
  cases op with
  | not =>
    -- the blank behind `not` ends the word
    have hends : Ends (' ' :: (cs ++ rest)) := ends_cons (by decide) (by decide)
    have hnot := word (w := "not")
      (.of_identifier ⟨'n', ['o', 't'], rfl, by decide, by simp [isNameChar]⟩) hends
    refine (hnot.append h.blank).imp ?_
    rintro _ ⟨_, us, ⟨s, rfl⟩, hus, rfl⟩
    exact ⟨_, us, rfl, hus, rfl⟩
  | neg =>
    refine ((mark .minus (.inl (by decide))).append h).imp ?_
    rintro _ ⟨_, us, ⟨s, rfl⟩, hus, rfl⟩
    exact ⟨_, us, rfl, hus, rfl⟩

end HasTokens

end TemplateFrontend
