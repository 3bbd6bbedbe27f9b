import TemplateFrontend.Proofs.Expr.Sources
/-!
# Literals in texts that are read back

When the text of an expression is read as that expression, its characters are counted twice: as those of the sources
of the tokens, and as those of the tokens' own texts. Quotes show that all strings were read between single quotes,
then backslashes that no string has one, and points and signs that every floating-point number has a point and no
sign.

* `Lexeme.print` — the text of a token;
* `Expr.Derives.count_render` — the text of an expression has the characters of its tokens;
* `Token.Source.count_quote`, `Token.Source.count_backslash`, `Token.Source.count_point`, `Token.Source.count_minus` —
  the characters of a source and of the token's text;
* `Expr.printable_literals` — the literals of an expression that is read back.
-/

namespace TemplateFrontend

open Text
open TemplateFrontend.Expr (selectors dottedNames)

/-- The text of a token, as expressions are written. -/
def Lexeme.print : Lexeme → List Char
  | .var x => '$' :: x.toList
  | .word w => w.toList
  | .int n => (Literal.int n).text.toList
  | .float x => (Literal.float x).text.toList
  | .string s => (Literal.string s).text.toList
  | .mark m => m.symbol.toList

/-! ### Characters of strings -/

namespace Token

/-- None of these characters is what another one stands for behind a backslash. -/
theorem unescape_eq_iff {k : Char} (hk : k = '\'' ∨ k = '\\' ∨ k = '.' ∨ k = '-') (c : Char) :
    unescape c = k ↔ c = k := by
  unfold unescape
  obtain rfl | rfl | rfl | rfl := hk <;> split <;> simp

/-- A string has as many of such a character as its source, apart from the quote that ends it. -/
theorem StringBody.count_eq {quote k : Char} {body value : List Char} (h : StringBody quote body value)
    (hk : k = '\'' ∨ k = '.' ∨ k = '-') : body.count k = value.count k + if quote = k then 1 else 0 := by
  have hne : '\\' ≠ k := by obtain rfl | rfl | rfl := hk <;> decide
  -- no escape makes or loses the character that is counted
  have hunescape := unescape_eq_iff (k := k) (by tauto)
  induction h with
  | close => simp [List.count_cons]
  | escape c _ ih =>
    rw [List.count_cons_of_ne hne, List.count_cons, List.count_cons, ih]
    simp only [beq_iff_eq, hunescape]
    omega
  | char _ _ _ ih =>
    rw [List.count_cons, List.count_cons, ih]
    omega

/-- Between single quotes a quote costs one backslash and a backslash another one. -/
theorem StringBody.count_backslash {body value : List Char} (h : StringBody '\'' body value) :
    2 * value.count '\\' + value.count '\'' ≤ body.count '\\' := by
  generalize hquote : '\'' = quote at h
  induction h with
  | close => simp
  | escape c _ ih =>
    subst hquote
    -- what is behind the backslash is a backslash or a quote, but not both
    have hne : ¬ (c = '\\' ∧ c = '\'') := by
      rintro ⟨rfl, h⟩
      cases h
    rw [List.count_cons_self, List.count_cons, List.count_cons, List.count_cons]
    simp only [beq_iff_eq, unescape_eq_iff (k := '\\') (by tauto), unescape_eq_iff (k := '\'') (by tauto)]
    split <;> split <;> first | omega | exact absurd ⟨‹_›, ‹_›⟩ hne
  | char hc hq _ ih =>
    subst hquote
    rw [List.count_cons_of_ne hc, List.count_cons_of_ne hc, List.count_cons_of_ne hq]
    exact ih

/-- The characters of a string between quotes: a backslash is put before each quote. -/
theorem count_quote (s : String) (k : Char) : (Literal.quote s).toList.count k =
    s.toList.count k + (if k = '\\' then s.toList.count '\'' else 0) + if k = '\'' then 2 else 0 := by
  -- first without the quotes around it
  have hbody (cs : List Char) : (cs.flatMap fun c => if c = '\'' then ['\\', '\''] else [c]).count k =
      cs.count k + if k = '\\' then cs.count '\'' else 0 := by
    induction cs with
    | nil => simp
    | cons c cs ih =>
      rw [List.flatMap_cons, List.count_append, ih]
      -- a quote is written as two characters, all others as themselves
      by_cases hc : c = '\''
      · subst hc
        by_cases hk : k = '\\'
        · subst hk
          simp
          omega
        · simp [hk, List.count_cons, Ne.symm hk]
          omega
      · simp [hc, List.count_cons]
        omega
  rw [Literal.quote, String.toList_ofList, List.cons_append, List.count_cons, List.count_append, hbody]
  simp only [List.count_cons, List.count_nil, beq_iff_eq, eq_comm (a := '\'')]
  by_cases hk : k = '\'' <;> simp only [hk, if_true, if_false]

/-! ### Characters of sources -/

section Source

variable {l : Lexeme} {w : List Char}

/-- What is no digit is not among digits. -/
theorem count_digits {ds : List Char} (hds : ∀ d ∈ ds, d.isDigit = true) {k : Char} (hk : k.isDigit = false) :
    ds.count k = 0 :=
  List.count_eq_zero.mpr fun h => by
    rw [hds k h] at hk
    cases hk

/-- The texts of integers hold digits only. -/
theorem count_int {n : Int64} (hn : 0 ≤ n.toInt) {k : Char} (hk : k.isDigit = false) :
    (Lexeme.int n).print.count k = 0 := by
  rw [Lexeme.print, Expr.text_int hn]
  exact count_digits (fun d hd => Decimal.isDigit_of_mem_digits hd) hk

/-- The source of a floating-point number has one point and no other character but digits. -/
theorem count_float {whole fraction : List Char} (hds : ∀ d ∈ whole ++ fraction, d.isDigit = true) {k : Char}
    (hk : k.isDigit = false) : (whole ++ '.' :: fraction).count k = if k = '.' then 1 else 0 := by
  obtain ⟨hwhole, hfraction⟩ := List.forall_mem_append.mp hds
  rw [List.count_append, List.count_cons, count_digits hwhole hk, count_digits hfraction hk]
  simp only [beq_iff_eq, eq_comm (a := '.')]
  omega

/-- The source of a string and its text, in characters that are not escaped. -/
theorem count_string {quote k : Char} {body value : List Char} (h : StringBody quote body value)
    (hk : k = '.' ∨ k = '-') (hquote : isQuote quote = true) :
    (quote :: body).count k = (Lexeme.string (String.ofList value)).print.count k := by
  have hne : quote ≠ k := by
    rintro rfl
    obtain rfl | rfl := hk <;> exact absurd hquote (by decide)
  have hbackslash : k ≠ '\\' := by obtain rfl | rfl := hk <;> decide
  have hsingle : k ≠ '\'' := by obtain rfl | rfl := hk <;> decide
  rw [List.count_cons_of_ne hne, h.count_eq (.inr hk), if_neg hne, Lexeme.print, Literal.text,
    Token.count_quote, String.toList_ofList, if_neg hbackslash, if_neg hsingle]

/-- **Quotes**: the source of a token has no more of them than its text, and as many only if a string stands between
single quotes. -/
theorem Source.count_quote (h : Source l w) : w.count '\'' ≤ l.print.count '\'' ∧
    (w.count '\'' = l.print.count '\'' → ∀ s, l = .string s →
      ∃ body value, w = '\'' :: body ∧ StringBody '\'' body value ∧ s = String.ofList value) := by
  cases h with
  | var | word | mark => exact ⟨by simp [Lexeme.print], nofun⟩
  | int _ hds =>
    rw [count_digits hds (by decide)]
    exact ⟨Nat.zero_le _, nofun⟩
  | float _ hds =>
    rw [count_float hds (by decide)]
    exact ⟨Nat.zero_le _, nofun⟩
  | @string quote body value hquote hbody =>
    have hcount := hbody.count_eq (k := '\'') (.inl rfl)
    rw [Lexeme.print, Literal.text, Token.count_quote, String.toList_ofList, List.count_cons, hcount]
    simp only [isQuote, Bool.or_eq_true, beq_iff_eq] at hquote
    -- between single quotes, and between double quotes, where the text has two quotes more
    obtain rfl | rfl := hquote
    · refine ⟨by simp, fun _ s hs => ⟨body, value, rfl, hbody, (Lexeme.string.inj hs).symm⟩⟩
    · exact ⟨by simp, fun h => by simp at h⟩

/-- **Backslashes**: between single quotes the source has no fewer of them than the text, and as many only if the
string has none. -/
theorem Source.count_backslash (h : Source l w) (hquote : w.count '\'' = l.print.count '\'') :
    l.print.count '\\' ≤ w.count '\\' ∧
      (l.print.count '\\' = w.count '\\' → ∀ s, l = .string s → '\\' ∉ s.toList) := by
  have hstring := h.count_quote.2 hquote
  cases h with
  | var | word | mark => exact ⟨by simp [Lexeme.print], nofun⟩
  | int hn hds =>
    rw [count_int hn (by decide)]
    exact ⟨Nat.zero_le _, nofun⟩
  -- numbers are written without backslashes
  | float x hds =>
    have hprint : (Lexeme.float x).print.count '\\' = 0 :=
      List.count_eq_zero.mpr (Decimal.backslash_notMem_render x)
    rw [hprint]
    exact ⟨Nat.zero_le _, nofun⟩
  | @string quote body value _ _ =>
    -- a string as wide as its text stands between single quotes
    obtain ⟨body, value', hw, hbody, hvalue⟩ := hstring _ rfl
    have hcount := hbody.count_backslash
    rw [Lexeme.print, Literal.text, Token.count_quote, hvalue, String.toList_ofList, hw,
      List.count_cons_of_ne (by decide)]
    simp only [if_true, Char.reduceEq, if_false]
    refine ⟨by omega, fun h s hs => ?_⟩
    rw [← Lexeme.string.inj hs, String.toList_ofList, ← List.count_eq_zero]
    omega

/-- **Points**: the source has no fewer of them than the text, and as many only if the text of a floating-point number
has one. -/
theorem Source.count_point (h : Source l w) : l.print.count '.' ≤ w.count '.' ∧
    (l.print.count '.' = w.count '.' → ∀ x, l = .float x → (Decimal.render x).toList.count '.' = 1) := by
  cases h with
  | var | word | mark => exact ⟨by simp [Lexeme.print], nofun⟩
  | int hn hds =>
    rw [count_int hn (by decide)]
    exact ⟨Nat.zero_le _, nofun⟩
  -- a literal in a source has one point, its text one at most
  | float x hds =>
    rw [count_float hds (by decide), if_pos rfl]
    exact ⟨Decimal.count_point_le_one x, fun h y hy => Lexeme.float.inj hy ▸ h⟩
  | string hquote hbody =>
    rw [count_string hbody (.inl rfl) hquote]
    exact ⟨Nat.le_refl _, nofun⟩

/-- **Signs**: the source has no more of them than the text, and as many only if a floating-point number has none. -/
theorem Source.count_minus (h : Source l w) : w.count '-' ≤ l.print.count '-' ∧
    (w.count '-' = l.print.count '-' → ∀ x, l = .float x → (Decimal.render x).toList.count '-' = 0) := by
  cases h with
  | var | word | mark => exact ⟨by simp [Lexeme.print], nofun⟩
  | int _ hds =>
    rw [count_digits hds (by decide)]
    exact ⟨Nat.zero_le _, nofun⟩
  -- no literal in a source has a sign of its own
  | float x hds =>
    rw [count_float hds (by decide), if_neg (by decide)]
    exact ⟨Nat.zero_le _, fun h y hy => Lexeme.float.inj hy ▸ h.symm⟩
  | string hquote hbody =>
    rw [count_string hbody (.inr rfl) hquote]
    exact ⟨Nat.le_refl _, nofun⟩

end Source

end Token

/-! ### Characters of derivations -/

namespace Expr

open Expr.Reader (place fields)

/-- A character that neither encloses nor separates expressions. -/
def IsInner (k : Char) : Prop := k ≠ '(' ∧ k ≠ ')' ∧ k ≠ '[' ∧ k ≠ ']' ∧ k ≠ ',' ∧ k ≠ ' '

/-- How often a character stands in the texts of the tokens. -/
def printCount (k : Char) (ts : List Token) : Nat := (ts.map fun t => t.lexeme.print.count k).sum

section Count

variable {k : Char} {ts us inner : List Token} {args : List (List Token × Expr)}

@[simp] theorem printCount_nil (k : Char) : printCount k [] = 0 := rfl

/-- The text of the first token, and then the others. -/
@[simp] theorem printCount_cons (k : Char) (t : Token) (ts : List Token) :
    printCount k (t :: ts) = t.lexeme.print.count k + printCount k ts := by
  rw [printCount, List.map_cons, List.sum_cons]
  rfl

/-- Tokens in two parts are counted part by part. -/
@[simp] theorem printCount_append (k : Char) (ts us : List Token) :
    printCount k (ts ++ us) = printCount k ts + printCount k us := by
  rw [printCount, List.map_append, List.sum_append]
  rfl

/-- Fields are written behind what they are fields of, each with a dot. -/
theorem render_fields (s : Span) (names : List String) (b : Expr) :
    (fields s b names).render = b.render ++ selectors names := by
  induction names generalizing b with
  | nil => exact (List.append_nil _).symm
  | cons x names ih =>
    change (fields s (.field _ b x) names).render = _
    rw [ih, render, selectors, selectors, List.flatMap_cons, List.append_assoc]

/-- The names of a dotted word after dots are a dot and the word. -/
theorem selectors_dottedNames (w : String) : selectors (dottedNames w) = '.' :: w.toList := by
  -- each piece with a dot before it is the pieces joined with a dot in front
  have hpieces (ps : List (List Char)) (hne : ps ≠ []) :
      selectors (ps.map String.ofList) = '.' :: ['.'].intercalate ps := by
    induction ps with
    | nil => exact absurd rfl hne
    | cons p ps ih =>
      cases ps with
      | nil => simp [selectors]
      | cons q ps =>
        rw [List.map_cons, selectors, List.flatMap_cons, String.toList_ofList,
          List.intercalate_cons_cons]
        have hrest := ih (List.cons_ne_nil q ps)
        rw [selectors] at hrest
        rw [hrest]
        simp
  rw [dottedNames, hpieces _ (pieces_ne_nil _ _), intercalate_pieces]

/-- The last name apart from the others. -/
theorem selectors_append_getLastD {names : List String} (hne : names ≠ []) :
    selectors names = selectors names.dropLast ++ '.' :: (names.getLastD "").toList := by
  have hlast : names.getLastD "" = names.getLast hne := by
    rw [List.getLastD_eq_getLast?, List.getLast?_eq_some_getLast hne]
    rfl
  conv => lhs; rw [← List.dropLast_append_getLast hne]
  rw [hlast, selectors, selectors, List.flatMap_append]
  simp

/-- Commas and blanks between expressions do not count. -/
theorem count_renderAll (hk : IsInner k) (hargs : ∀ x ∈ args, x.2.render.count k = printCount k x.1)
    (hinner : CommaSeparated (args.map (·.1)) inner) :
    (renderAll (args.map (·.2))).count k = printCount k inner := by
  obtain ⟨-, -, -, -, hcomma, hblank⟩ := hk
  induction args generalizing inner with
  | nil =>
    cases hinner
    rfl
  | cons x args ih =>
    obtain ⟨hx, hargs⟩ := List.forall_mem_cons.mp hargs
    rw [List.map_cons, renderAll_cons, List.count_append, hx]
    cases args with
    | nil =>
      cases hinner
      simp
    | cons y args =>
      -- commas and blanks between the arguments count nothing
      cases hinner with
      | cons hall =>
        rw [if_neg (by simp), List.count_cons_of_ne (Ne.symm hcomma), List.count_cons_of_ne (Ne.symm hblank),
          ih hargs hall, printCount_append, printCount_cons]
        -- nor does the comma among the tokens
        have hmark : (Lexeme.mark .comma).print.count k = 0 := by simp [Lexeme.print, Mark.symbol, Ne.symm hcomma]
        rw [hmark, Nat.zero_add]

theorem print_lexeme_binary (op : BinaryOp) : op.lexeme.print = op.symbol.toList := by
  cases op <;> rfl

/-- A constant is printed as its text. -/
theorem IsConstant.print_eq {l : Lexeme} {v : Literal} (h : IsConstant l v) : l.print = v.text.toList := by
  cases h with
  | int | float | string => rfl
  | word hw =>
    simp only [constantWords, List.mem_cons, Prod.mk.injEq, List.not_mem_nil, or_false] at hw
    obtain ⟨rfl, rfl⟩ | ⟨rfl, rfl⟩ | ⟨rfl, rfl⟩ := hw <;> rfl

/-- Parentheses and brackets do not count. -/
theorem IsInner.print_mark (hk : IsInner k) {m : Mark}
    (hm : m = .openParen ∨ m = .closeParen ∨ m = .openBracket ∨ m = .closeBracket ∨ m = .comma) :
    (Lexeme.mark m).print.count k = 0 := by
  obtain ⟨h₁, h₂, h₃, h₄, h₅, -⟩ := hk
  obtain rfl | rfl | rfl | rfl | rfl := hm <;>
    exact List.count_eq_zero.mpr (by simpa [Lexeme.print, Mark.symbol])

/-- **The text of an expression** has the characters of its tokens, apart from those that enclose and separate. -/
theorem Derives.count_render {sym : Symbol} {e : Expr} (h : Derives sym ts e) (hk : IsInner k) :
    e.render.count k = printCount k ts := by
  obtain ⟨hopen, hclose, hbracket, hbracket', hcomma, hblank⟩ := id hk
  -- a character that encloses does not count in front,
  have hcons {c : Char} (hc : k ≠ c) (cs : List Char) : (c :: cs).count k = cs.count k :=
    List.count_cons_of_ne (Ne.symm hc)
  -- nor at the end
  have hlast {c : Char} (hc : k ≠ c) (cs : List Char) : (cs ++ [c]).count k = cs.count k := by
    rw [List.count_append, hcons hc, List.count_nil, Nat.add_zero]
  have hdot : (Lexeme.mark .dot).print = ['.'] := rfl
  have hword (w : String) : (Lexeme.word w).print = w.toList := rfl
  induction h with
  | operand _ ih | unprefixed _ ih | unselected _ ih => exact ih
  | @binary r op t ts us a b _ ht _ _ iha ihb =>
    rw [render, hcons hopen, List.count_append, hcons hblank, List.count_append, hcons hblank, hlast hclose, iha, ihb,
      printCount_append, printCount_cons, ht, print_lexeme_binary]
  | @unary op t ts e ht _ ih =>
    have hop : (unaryText op).count k = op.lexeme.print.count k := by
      cases op with
      | not => exact hlast hblank ['n', 'o', 't']
      | neg => rfl
    rw [render, hcons hopen, List.count_append, hlast hclose, hop, printCount_cons, ht, ih]
  | fields _ ih =>
    rw [← Reader.fields_eq_foldl, render_fields, selectors_dottedNames, List.count_append, ih, printCount_append,
      printCount_cons, printCount_cons, printCount_nil, hdot, Lexeme.print, ← List.singleton_append,
      List.count_append]
    rfl
  | @method ts inner b base d s o c w args _ _ hinner hbase ih ihargs =>
    -- the name of a method stands behind the dot as the last field would
    have htext : base.render ++ '.' :: ((dottedNames w).getLastD "").toList = b.render ++ '.' :: w.toList := by
      rw [hbase, ← Reader.fields_eq_foldl, render_fields, List.append_assoc,
        ← selectors_append_getLastD (dottedNames_ne_nil w), selectors_dottedNames]
    rw [render, ← List.cons_append, ← List.append_assoc, htext, List.count_append, hcons hopen, hlast hclose,
      count_renderAll hk ihargs hinner, List.count_append, ih, ← List.singleton_append, List.count_append]
    simp only [printCount_cons, printCount_append, printCount_nil, hk.print_mark (m := .openParen) (by simp),
      hk.print_mark (m := .closeParen) (by simp), hdot, hword]
    omega
  -- these are one token, printed as it is
  | constant h => rw [render, printCount_cons, h.print_eq, printCount_nil, Nat.add_zero]
  | var => rw [render, printCount_cons, printCount_nil, Nat.add_zero, Lexeme.print]
  | global => rw [render, printCount_cons, printCount_nil, Nat.add_zero, Lexeme.print]
  -- the parentheses of a call do not count, so what is left is the name and the arguments
  | call _ _ hinner ihargs =>
    rw [render, List.count_append, hcons hopen, hlast hclose, count_renderAll hk ihargs hinner]
    simp only [printCount_cons, printCount_append, printCount_nil, hk.print_mark (m := .openParen) (by simp),
      hk.print_mark (m := .closeParen) (by simp), hword]
    omega
  | parens _ ih =>
    simp only [printCount_cons, printCount_append, printCount_nil, hk.print_mark (m := .openParen) (by simp),
      hk.print_mark (m := .closeParen) (by simp), ih]
    omega
  | list _ hinner ihitems =>
    rw [render, hcons hbracket, hlast hbracket', count_renderAll hk ihitems hinner]
    simp only [printCount_cons, printCount_append, printCount_nil, hk.print_mark (m := .openBracket) (by simp),
      hk.print_mark (m := .closeBracket) (by simp)]
    omega
  | listComma _ _ hinner ihitems =>
    rw [render, hcons hbracket, hlast hbracket', count_renderAll hk ihitems hinner]
    simp only [printCount_cons, printCount_append, printCount_nil, hk.print_mark (m := .openBracket) (by simp),
      hk.print_mark (m := .closeBracket) (by simp), hk.print_mark (m := .comma) (by simp)]
    omega

end Count

/-! ### Literals -/

/-- Numbers with one sum, of which none is larger than its counterpart, are the same numbers. -/
theorem eq_of_sum_eq {α : Type} {l : List α} {f g : α → Nat} (hle : ∀ x ∈ l, f x ≤ g x)
    (hsum : (l.map f).sum = (l.map g).sum) : ∀ x ∈ l, f x = g x := by
  intro x hx
  by_contra hne
  exact absurd hsum (Nat.ne_of_lt (List.sum_lt_sum f g hle ⟨x, hx, Nat.lt_of_le_of_ne (hle x hx) hne⟩))

/-- **The literals of an expression** are printable if its text is read back. -/
theorem printable_literals {offset : Nat} {ts : List Token} {e e' : Expr} (hts : SplitsInto offset e.render ts)
    (he' : IsExpression ts e') (heq : e'.unplaced = e.unplaced) {n : Note} {v : Literal}
    (hv : .literal n v ∈ e.subexprs) : LiteralPrintable v := by
  obtain ⟨sources, rfl, hsources, hcount⟩ := hts.exists_sources
  -- the text that is read back is the same text, so the sums agree
  have hsum {k : Char} (hk : IsInner k) (hblank : isBlank k = false) :
      (sources.map fun p => p.2.count k).sum = (sources.map fun p => p.1.lexeme.print.count k).sum :=
    calc (sources.map fun p => p.2.count k).sum
        = e.render.count k := (hcount k hblank).symm
      _ = e'.render.count k := by rw [render_eq_of_unplaced_eq heq]
      _ = printCount k (sources.map Prod.fst) := he'.count_render hk
      _ = _ := by rw [printCount, List.map_map]; rfl
  -- from one character to the next: each of them says more of the sources
  have hquote := eq_of_sum_eq (fun p hp => (hsources p hp).count_quote.1)
    (hsum (k := '\'') (by simp [IsInner]) (by decide))
  have hbackslash := eq_of_sum_eq (fun p hp => ((hsources p hp).count_backslash (hquote p hp)).1)
    (hsum (k := '\\') (by simp [IsInner]) (by decide)).symm
  have hpoint := eq_of_sum_eq (fun p hp => (hsources p hp).count_point.1)
    (hsum (k := '.') (by simp [IsInner]) (by decide)).symm
  have hminus := eq_of_sum_eq (fun p hp => (hsources p hp).count_minus.1)
    (hsum (k := '-') (by simp [IsInner]) (by decide))
  -- the literal is one of the expression that is read back, and so comes from a source
  obtain ⟨n', hv'⟩ := exists_literal_of_unplaced_eq heq.symm hv
  cases he'.fromTokens _ hv' with
  | @literal t _ _ ht hconstant =>
    obtain ⟨p, hp, rfl⟩ := List.mem_map.mp ht
    have hp' := hsources p hp
    generalize hl : p.1.lexeme = l at hconstant
    cases hconstant with
    | int => trivial
    | float x =>
      exact Decimal.fractional_of_count (hp'.count_point.2 (hpoint p hp) x hl) (hp'.count_minus.2 (hminus p hp) x hl)
    | string s => exact (hp'.count_backslash (hquote p hp)).2 (hbackslash p hp) s hl
    | word hw =>
      simp only [constantWords, List.mem_cons, Prod.mk.injEq, List.not_mem_nil, or_false] at hw
      obtain ⟨-, rfl⟩ | ⟨-, rfl⟩ | ⟨-, rfl⟩ := hw <;> trivial

end Expr

end TemplateFrontend
