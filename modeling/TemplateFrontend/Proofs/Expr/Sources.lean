import TemplateFrontend.Proofs.Expr.Lexemes
import TemplateFrontend.Proofs.Expr.Rendering
/-!
# The sources of tokens

Every token says to the character what it was read from, up to the form of a number and the escapes of a string. So
the characters of a text other than blanks are those of the sources of its tokens.

* `Token.Source` — what a token is read from;
* `Token.source_of_readLexeme` — every token is read from such a source;
* `SplitsInto.exists_sources` — the sources of the tokens of a text hold all its characters;
* `Expr.Derives.fromTokens` — each part of an expression is read from a token;
* `Expr.Derives.legible` — what is read from a text is legible.
-/

namespace TemplateFrontend

open Text
open TemplateFrontend.Expr (IsIdentifier IsDotted selectors dotted)

namespace Token

/-- What a token is read from. -/
inductive Source : Lexeme → List Char → Prop
  | var {x : List Char} (hne : x ≠ []) (hx : ∀ c ∈ x, isNameChar c = true) :
      Source (.var (String.ofList x)) ('$' :: x)
  | word {w : String} (hw : IsDotted w) : Source (.word w) w.toList
  | int {n : Int64} {ds : List Char} (hn : 0 ≤ n.toInt) (hds : ∀ d ∈ ds, d.isDigit = true) :
      Source (.int n) ds
  | float (x : Float) {whole fraction : List Char} (hds : ∀ d ∈ whole ++ fraction, d.isDigit = true) :
      Source (.float x) (whole ++ '.' :: fraction)
  | string {quote : Char} {body value : List Char} (hquote : isQuote quote = true)
      (hbody : StringBody quote body value) : Source (.string (String.ofList value)) (quote :: body)
  | mark (m : Mark) : Source (.mark m) m.symbol.toList

/-! ### Words -/

/-- No name starts with a dot. -/
theorem not_isNameStart_dot : isNameStart '.' = false := by decide

/-- What a dotted name takes is the end of a name, and further names after dots. -/
theorem exists_selectors (cs : List Char) : ∃ run names, cs.take (dottedLength cs) = run ++ selectors names ∧
    (∀ c ∈ run, isNameChar c = true) ∧ ∀ y ∈ names, IsIdentifier y := by
  induction cs with
  | nil => exact ⟨[], [], rfl, by simp, by simp⟩
  | cons c cs ih =>
    obtain ⟨run, names, htake, hrun, hnames⟩ := ih
    unfold dottedLength
    split
    · next hc =>
      rw [List.take_succ_cons, htake]
      -- a character of the first name goes on with its run
      by_cases hchar : isNameChar c = true
      · exact ⟨c :: run, names, rfl, List.forall_mem_cons.mpr ⟨hchar, hrun⟩, hnames⟩
      · -- a dot, with another name after it
        rw [Bool.not_eq_true] at hchar
        rw [hchar, Bool.false_or, Bool.and_eq_true, beq_iff_eq] at hc
        obtain ⟨rfl, hnext⟩ := hc
        cases cs with
        | nil => cases hnext
        | cons d ds =>
          have hd : isNameStart d = true := hnext
          rw [dottedLength, if_pos (by simp [isNameChar_of_isNameStart hd]), List.take_succ_cons] at htake
          cases run with
          | nil =>
            -- the other name does not start with a dot
            cases names with
            | nil => cases htake
            | cons y names =>
              obtain rfl : d = '.' := (List.cons.inj htake).1
              rw [not_isNameStart_dot] at hd
              cases hd
          | cons d' run =>
            obtain ⟨rfl, htake⟩ := List.cons.inj htake
            refine ⟨[], String.ofList (d :: run) :: names, ?_, by simp, List.forall_mem_cons.mpr ⟨?_, hnames⟩⟩
            · simp [selectors]
            · exact ⟨d, run, String.toList_ofList, hd, (List.forall_mem_cons.mp hrun).2⟩
    · exact ⟨[], [], rfl, by simp, by simp⟩

/-- A word is made of names with dots between them. -/
theorem isDotted_ofList {c : Char} (hc : isNameStart c = true) (rest : List Char) :
    IsDotted (String.ofList (c :: rest.take (dottedLength rest))) := by
  obtain ⟨run, names, htake, hrun, hnames⟩ := exists_selectors rest
  refine ⟨String.ofList (c :: run), names, ?_, ⟨c, run, String.toList_ofList, hc, hrun⟩, hnames⟩
  rw [htake, dotted, String.toList_ofList, List.cons_append]

/-! ### Tokens -/

section Read

variable {offset n : Nat} {c : Char} {rest : List Char} {l : Lexeme}

/-- A token whose source stands first in the text takes that much of it. -/
theorem Source.of_prefix {w : List Char} (h : Source l (c :: w)) (hw : w <+: rest) :
    w.length ≤ rest.length ∧ Source l (c :: rest.take w.length) :=
  ⟨hw.length_le, (List.prefix_iff_eq_take.mp hw) ▸ h⟩

/-- A number is read from its digits, with a point between them or without one. -/
theorem source_of_numberAt (hc : c.isDigit = true) (h : numberAt offset c rest = .ok (l, n)) :
    n ≤ rest.length ∧ Source l (c :: rest.take n) := by
  have hdigits {cs : List Char} : ∀ x ∈ cs.takeWhile Char.isDigit, x.isDigit = true :=
    fun x hx => mem_takeWhile_imp hx
  -- without a point it is an integer that has to fit
  have hinteger (h : numberAt.integer offset (c :: rest.takeWhile Char.isDigit) = .ok (l, n)) :
      n ≤ rest.length ∧ Source l (c :: rest.take n) := by
    unfold numberAt.integer at h
    split at h
    · next k hk =>
      obtain ⟨rfl, rfl⟩ := Prod.mk.inj (Except.ok.inj h)
      refine Source.of_prefix (.int ?_ (List.forall_mem_cons.mpr ⟨hc, hdigits⟩))
        (List.takeWhile_prefix Char.isDigit)
      rw [Integer.toInt_of_ofInt?_eq_some hk]
      exact Int.natCast_nonneg _
    · cases h
  unfold numberAt at h
  split at h
  · next d more hrest =>
    split at h
    · next hd =>
      obtain ⟨rfl, rfl⟩ := Prod.mk.inj (Except.ok.inj h)
      -- the point and the digits after it
      have hprefix : rest.takeWhile Char.isDigit ++ '.' :: d :: more.takeWhile Char.isDigit <+: rest := by
        conv => rhs; rw [← List.takeWhile_append_dropWhile (p := Char.isDigit) (l := rest), hrest]
        simpa using List.takeWhile_prefix Char.isDigit
      have hlength : (c :: rest.takeWhile Char.isDigit).length +
          (d :: more.takeWhile Char.isDigit).length =
          (rest.takeWhile Char.isDigit ++ '.' :: d :: more.takeWhile Char.isDigit).length := by
        simp only [List.length_append, List.length_cons]
        omega
      rw [hlength]
      -- both runs are digits
      have hall : ∀ x ∈ (c :: rest.takeWhile Char.isDigit) ++ d :: more.takeWhile Char.isDigit,
          x.isDigit = true :=
        List.forall_mem_append.mpr ⟨List.forall_mem_cons.mpr ⟨hc, hdigits⟩, List.forall_mem_cons.mpr ⟨hd, hdigits⟩⟩
      exact Source.of_prefix (.float _ hall) hprefix
    · exact hinteger h
  · exact hinteger h

/-- **Every token** is read from such a source. -/
theorem source_of_readLexeme (h : readLexeme offset c rest = .ok (l, n)) :
    n ≤ rest.length ∧ Source l (c :: rest.take n) := by
  unfold readLexeme at h
  split at h
  · next hc =>
    subst hc
    dsimp only at h
    split at h
    · cases h
    -- a dollar sign and at least one character of a name
    · next hne =>
      obtain ⟨rfl, rfl⟩ := Prod.mk.inj (Except.ok.inj h)
      exact Source.of_prefix (.var (fun hnil => hne (by rw [hnil]; rfl)) fun x => mem_takeWhile_imp)
        (List.takeWhile_prefix isNameChar)
  split at h
  · next hc =>
    obtain ⟨rfl, rfl⟩ := Prod.mk.inj (Except.ok.inj h)
    -- a word is a name and the names after its dots
    have hword := Source.word (isDotted_ofList hc rest)
    rw [String.toList_ofList] at hword
    exact ⟨dottedLength_le rest, hword⟩
  split at h
  · next hc => exact source_of_numberAt hc h
  split at h
  · next hc =>
    split at h
    · next value n' hbody =>
      obtain ⟨rfl, rfl⟩ := Prod.mk.inj (Except.ok.inj h)
      obtain ⟨hle, hbody⟩ := stringBody_of_eq_some hbody
      exact ⟨hle, .string (by simpa [isQuote] using hc) hbody⟩
    · cases h
  · split at h
    · next m n' hm =>
      obtain ⟨rfl, rfl⟩ := Prod.mk.inj (Except.ok.inj h)
      obtain ⟨hle, hsymbol⟩ := markAt?_symbol hm
      exact ⟨hle, hsymbol ▸ .mark m⟩
    · cases h

end Read

end Token

open Token

/-- **The sources of the tokens** of a text hold all its characters but blanks. -/
theorem SplitsInto.exists_sources {offset : Nat} {cs : List Char} {ts : List Token}
    (h : SplitsInto offset cs ts) : ∃ sources : List (Token × List Char), sources.map Prod.fst = ts ∧
      (∀ p ∈ sources, Source p.1.lexeme p.2) ∧
      ∀ k, isBlank k = false → cs.count k = (sources.map fun p => p.2.count k).sum := by
  induction h with
  | nil => exact ⟨[], rfl, by simp, by simp⟩
  | @blank offset c cs ts hc _ ih =>
    obtain ⟨sources, hmap, hsources, hcount⟩ := ih
    refine ⟨sources, hmap, hsources, fun k hk => ?_⟩
    -- a blank is not counted
    have hne : c ≠ k := by
      rintro rfl
      rw [hc] at hk
      cases hk
    rw [List.count_cons_of_ne hne, hcount k hk]
  | @token offset c w rest l ts hc hread _ ih =>
    obtain ⟨sources, hmap, hsources, hcount⟩ := ih
    -- a token counts with the text that it was read from
    obtain ⟨-, hsource⟩ := source_of_readLexeme hread
    rw [List.take_left] at hsource
    refine ⟨(⟨l, offset, offset + byteLength (c :: w)⟩, c :: w) :: sources, by rw [List.map_cons, hmap],
      List.forall_mem_cons.mpr ⟨hsource, hsources⟩, fun k hk => ?_⟩
    rw [← List.cons_append, List.count_append, hcount k hk, List.map_cons, List.sum_cons]

/-! ### Parts of expressions -/

namespace Expr

open Expr.Reader (fields)

/-- What a part of an expression is read from: one of the tokens. -/
inductive FromTokens (ts : List Token) : Expr → Prop
  | literal {t : Token} {n : Note} {v : Literal} (ht : t ∈ ts) (hv : IsConstant t.lexeme v) :
      FromTokens ts (.literal n v)
  | var {x : String} {s : Span} {n : Note} (ht : ⟨.var x, s⟩ ∈ ts) : FromTokens ts (.var n x)
  | global {w : String} {s : Span} {n : Note} (ht : ⟨.word w, s⟩ ∈ ts) (hw : IsName w) :
      FromTokens ts (.global n w)
  | field {w x : String} {s : Span} {n : Note} {b : Expr} (ht : ⟨.word w, s⟩ ∈ ts) (hx : x ∈ dottedNames w) :
      FromTokens ts (.field n b x)
  | call {w : String} {s : Span} {n : Note} {as : List Expr} (ht : ⟨.word w, s⟩ ∈ ts) (hw : IsName w) :
      FromTokens ts (.call n w as none)
  | method {w x : String} {s : Span} {n : Note} {b : Expr} {as : List Expr} (ht : ⟨.word w, s⟩ ∈ ts)
      (hx : x ∈ dottedNames w) : FromTokens ts (.method n b x as none)
  | list {n : Note} {es : List Expr} : FromTokens ts (.list n es)
  | unary {n : Note} {op : UnaryOp} {a : Expr} : FromTokens ts (.unary n op a)
  | binary {n : Note} {op : BinaryOp} {a b : Expr} : FromTokens ts (.binary n op a b)

section FromTokens

variable {ts us inner : List Token} {e p : Expr} {args : List (List Token × Expr)}

/-- More tokens may be there. -/
theorem FromTokens.mono (h : FromTokens ts p) (hts : ts ⊆ us) : FromTokens us p := by
  cases h with
  | literal ht hv => exact .literal (hts ht) hv
  | var ht => exact .var (hts ht)
  | global ht hw => exact .global (hts ht) hw
  | field ht hx => exact .field (hts ht) hx
  | call ht hw => exact .call (hts ht) hw
  | method ht hx => exact .method (hts ht) hx
  | list => exact .list
  | unary => exact .unary
  | binary => exact .binary

/-- What is put behind an expression are fields. -/
theorem mem_subexprs_fields {s : Span} {names : List String} {b : Expr} (h : p ∈ (fields s b names).subexprs) :
    p ∈ b.subexprs ∨ ∃ n b', ∃ x ∈ names, p = .field n b' x := by
  induction names generalizing b with
  | nil => exact .inl h
  | cons x names ih =>
    obtain h | ⟨n, b', y, hy, rfl⟩ := ih h
    · rw [subexprs, List.mem_cons] at h
      obtain rfl | h := h
      · exact .inr ⟨_, _, x, List.mem_cons_self, rfl⟩
      · exact .inl h
    · exact .inr ⟨n, b', y, List.mem_cons_of_mem _ hy, rfl⟩

/-- The tokens of each part are among all tokens. -/
theorem CommaSeparated.subset (h : CommaSeparated (args.map (·.1)) inner) {x : List Token × Expr} (hx : x ∈ args) :
    x.1 ⊆ inner := by
  induction args generalizing inner with
  | nil => cases hx
  | cons y args ih =>
    cases args with
    | nil =>
      cases h
      rw [List.mem_singleton.mp hx]
      exact List.Subset.refl _
    | cons z args =>
      cases h with
      | cons hall =>
        -- the first argument, or one behind its comma
        obtain rfl | hx := List.mem_cons.mp hx
        · exact List.subset_append_left _ _
        · exact fun t ht => List.mem_append_right _ (List.mem_cons_of_mem _ (ih hall hx ht))

/-- The parts of items are read from the tokens of the items. -/
theorem fromTokens_of_items (hargs : ∀ x ∈ args, ∀ p ∈ x.2.subexprs, FromTokens x.1 p)
    (hinner : CommaSeparated (args.map (·.1)) inner) (hp : p ∈ subexprsOf (args.map (·.2))) : FromTokens inner p := by
  obtain ⟨e, he, hp⟩ := mem_subexprsOf.mp hp
  obtain ⟨x, hx, rfl⟩ := List.mem_map.mp he
  exact (hargs x hx p hp).mono (hinner.subset hx)

/-- **The parts of an expression** are read from its tokens. -/
theorem Derives.fromTokens {sym : Symbol} (h : Derives sym ts e) : ∀ p ∈ e.subexprs, FromTokens ts p := by
  induction h with
  | operand _ ih | unprefixed _ ih | unselected _ ih => exact ih
  -- a part is the expression itself or stands in an operand, which has its tokens among these
  | binary _ _ _ _ iha ihb =>
    intro p hp
    rw [subexprs, List.mem_cons, List.mem_append] at hp
    obtain rfl | hp | hp := hp
    · exact .binary
    · exact (iha p hp).mono (List.subset_append_left _ _)
    · exact (ihb p hp).mono fun t ht => List.mem_append_right _ (List.mem_cons_of_mem _ ht)
  -- an operator in front takes a token that no part is made of
  | unary _ _ ih =>
    intro p hp
    rw [subexprs, List.mem_cons] at hp
    obtain rfl | hp := hp
    · exact .unary
    · exact (ih p hp).mono (List.subset_cons_self _ _)
  -- a field is named by its word
  | fields _ ih =>
    intro p hp
    obtain hp | ⟨n, b', x, hx, rfl⟩ := mem_subexprs_fields hp
    · exact (ih p hp).mono (List.subset_append_left _ _)
    · exact .field (List.mem_append_right _ (List.mem_cons_of_mem _ List.mem_cons_self)) hx
  | @method ts inner b base d s o c w args _ _ hinner hbase ih ihargs =>
    intro p hp
    have hword : (⟨.word w, s⟩ : Token) ∈ ts ++ ⟨.mark .dot, d⟩ :: ⟨.word w, s⟩ :: ⟨.mark .openParen, o⟩ ::
        (inner ++ [⟨.mark .closeParen, c⟩]) := by simp
    rw [subexprs, List.mem_cons, List.mem_append] at hp
    obtain rfl | hp | hp := hp
    · refine .method hword ?_
      rw [List.getLastD_eq_getLast?, List.getLast?_eq_some_getLast (dottedNames_ne_nil w)]
      exact List.getLast_mem (dottedNames_ne_nil w)
    -- a receiver: what it was before, or a field by one of the names in the word
    · rw [hbase] at hp
      obtain hp | ⟨n, b', x, hx, rfl⟩ := mem_subexprs_fields hp
      · exact (ih p hp).mono (List.subset_append_left _ _)
      · exact .field hword (List.dropLast_subset _ hx)
    · refine (fromTokens_of_items ihargs hinner hp).mono fun t ht => ?_
      simp [ht]
  | constant h =>
    intro p hp
    obtain rfl := List.mem_singleton.mp hp
    exact .literal List.mem_cons_self h
  | var =>
    intro p hp
    obtain rfl := List.mem_singleton.mp hp
    exact .var List.mem_cons_self
  | global hw =>
    intro p hp
    obtain rfl := List.mem_singleton.mp hp
    exact .global List.mem_cons_self hw
  | call hw _ hinner ihargs =>
    intro p hp
    rw [subexprs, List.mem_cons] at hp
    obtain rfl | hp := hp
    · exact .call List.mem_cons_self hw
    · refine (fromTokens_of_items ihargs hinner hp).mono fun t ht => ?_
      simp [ht]
  | parens _ ih =>
    intro p hp
    refine (ih p hp).mono fun t ht => ?_
    simp [ht]
  | list _ hinner ihitems | listComma _ _ hinner ihitems =>
    intro p hp
    rw [subexprs, List.mem_cons] at hp
    obtain rfl | hp := hp
    · exact .list
    · refine (fromTokens_of_items ihitems hinner hp).mono fun t ht => ?_
      simp [ht]

/-- **The parts of an expression** are as they are read from a text, if its tokens stand in one. -/
theorem Derives.legible {sym : Symbol} (h : Derives sym ts e) (hts : ∀ t ∈ ts, ∃ w, Source t.lexeme w) : e.Legible := by
  -- a word in the tokens was a dotted word of the source
  have hword {w : String} {s : Span} (ht : ⟨.word w, s⟩ ∈ ts) : IsDotted w := by
    obtain ⟨_, hsource⟩ := hts _ ht
    cases hsource with
    | word hw => exact hw
  -- each name of a dotted word is a name
  have hname {w x : String} {s : Span} (ht : ⟨.word w, s⟩ ∈ ts) (hx : x ∈ dottedNames w) : IsIdentifier x := by
    obtain ⟨y, names, rfl, hy, hnames⟩ := hword ht
    rw [dottedNames_dotted hy hnames] at hx
    exact List.forall_mem_cons.mpr ⟨hy, hnames⟩ x hx
  intro p hp
  cases h.fromTokens p hp with
  | @literal t _ _ ht hv =>
    obtain ⟨_, hsource⟩ := hts _ ht
    generalize t.lexeme = l at hv hsource
    cases hv with
    | int =>
      cases hsource with
      | int hn => exact hn
    | float | string => trivial
    -- the three words for constants
    | word hw =>
      simp only [constantWords, List.mem_cons, Prod.mk.injEq, List.not_mem_nil, or_false] at hw
      obtain ⟨-, rfl⟩ | ⟨-, rfl⟩ | ⟨-, rfl⟩ := hw <;> trivial
  | var ht =>
    obtain ⟨_, hsource⟩ := hts _ ht
    cases hsource with
    | var hne hx =>
      refine ⟨fun h => hne (String.ofList_eq_empty_iff.mp h), ?_⟩
      rw [String.toList_ofList]
      exact hx
  | global ht hw => exact ⟨hword ht, hw⟩
  | field ht hx => exact hname ht hx
  | call ht hw => exact ⟨hword ht, hw, rfl⟩
  | method ht hx => exact ⟨hname ht hx, rfl⟩
  | list | unary | binary => trivial

end FromTokens

end Expr

end TemplateFrontend
