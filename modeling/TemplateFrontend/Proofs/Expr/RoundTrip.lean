import TemplateFrontend.Proofs.Expr.Parsing
import TemplateFrontend.Proofs.Expr.PrintedLiterals
import TemplateFrontend.Proofs.Expr.RenderedTokens
/-!
# Texts of expressions that are read back

An expression that was read is written with all parentheses, and the text is read again. Operators, lists, variables,
integers and calls always come back. What does not come back are strings with a backslash, floating-point numbers whose
text is not a positive number with a point, and names after a word that stood in parentheses. Such a name is read as one
word with the word before it; apart from that the text of an expression is read as the expression, if its literals can
be printed.

* `Expr.joined` — an expression with names after words joined to them;
* `Expr.joined_eq_unplaced_iff` — when no name stands after a word;
* `Expr.hasTokens_render` — the tokens of the text of an expression, by induction on its parts;
* `Expr.parse_render` — the text of an expression is read as the joined one;
* `Expr.Produced` — the expressions that are read from texts;
* `Expr.Produced.legible` — what is read has legible names;
* `Expr.parse_render_iff_printable` — which of them are read back from their texts.
-/

namespace TemplateFrontend.Expr

open Text
open Expr.Reader (place fields Itemized)

/-! ### Names joined to words -/

/-- A name after a word becomes one word with it. Places are left out. -/
def joinPart : Expr → Expr
  | .field _ b x =>
    match b.word? with
    | some w => .global default (dotted w [x])
    | none => .field default b x
  | .method _ b x as c =>
    match b.word? with
    | some w => .call default (dotted w [x]) as c
    | none => .method default b x as c
  | e => e.withNote default

/-- The expression with all names after words joined to them, without places. -/
def joined (e : Expr) : Expr := e.mapParts joinPart

/-- What names of fields after a joined expression make of it. -/
def joinFields (j : Expr) (names : List String) : Expr :=
  names.foldl (fun j x => joinPart (.field default j x)) j

section Joined

variable {b j : Expr} {n : Note} {x w : String}

/-- Names are joined from below. -/
theorem joined_eq (e : Expr) : e.joined = joinPart (e.mapChildren joined) := mapParts_eq joinPart e

@[simp] theorem joined_literal (v : Literal) : joined (.literal n v) = .literal default v := rfl

@[simp] theorem joined_var : joined (.var n x) = .var default x := rfl

@[simp] theorem joined_global : joined (.global n w) = .global default w := rfl

/-- A name joins what stands before it. -/
@[simp] theorem joined_field : joined (.field n b x) = joinPart (.field default b.joined x) := joined_eq _

/-- In a call the arguments are joined. -/
@[simp] theorem joined_call (as : List Expr) (c : Option Callee) :
    joined (.call n w as c) = .call default w (as.map joined) c := joined_eq _

/-- In a list the items are joined. -/
@[simp] theorem joined_list (es : List Expr) : joined (.list n es) = .list default (es.map joined) := joined_eq _

/-- In an operation the operand is joined. -/
@[simp] theorem joined_unary (op : UnaryOp) (a : Expr) : joined (.unary n op a) = .unary default op a.joined :=
  joined_eq _

/-- In an operation with two operands both are joined. -/
@[simp] theorem joined_binary (op : BinaryOp) (a b : Expr) :
    joined (.binary n op a b) = .binary default op a.joined b.joined := joined_eq _

/-- Behind a word a name becomes part of the word. -/
theorem joinPart_field_of_word (h : j.word? = some w) : joinPart (.field n j x) = .global default (dotted w [x]) := by
  rw [joinPart, h]

/-- Behind anything else it stays a field. -/
theorem joinPart_field_of_none (h : j.word? = none) : joinPart (.field n j x) = .field default j x := by
  rw [joinPart, h]

/-- A method behind a word becomes a call. -/
theorem joined_method_of_word {as : List Expr} {c : Option Callee} (h : b.joined.word? = some w) :
    joined (.method n b x as c) = .call default (dotted w [x]) (as.map joined) c := by
  rw [joined_eq, mapChildren, joinPart, h]

/-- Behind anything else it stays a method. -/
theorem joined_method_of_none {as : List Expr} {c : Option Callee} (h : b.joined.word? = none) :
    joined (.method n b x as c) = .method default b.joined x (as.map joined) c := by
  rw [joined_eq, mapChildren, joinPart, h]

/-- Names after names. -/
theorem dotted_dotted (w : String) (names names' : List String) :
    dotted (dotted w names) names' = dotted w (names ++ names') := by
  simp [dotted, selectors]

/-- Names after a word are joined to it. -/
theorem word?_joinFields (h : j.word? = some w) (names : List String) :
    (joinFields j names).word? = some (dotted w names) := by
  induction names generalizing j w with
  | nil => simp [joinFields, h, dotted, selectors]
  | cons y names ih =>
    rw [joinFields, List.foldl_cons, joinPart_field_of_word h, ← joinFields, ih (w := dotted w [y]) rfl, dotted_dotted]
    rfl

/-- Names after anything else are fields. -/
theorem unplaced_fields (hj : b.unplaced = j) (hnone : j.word? = none) (s : Span) (names : List String) :
    (fields s b names).unplaced = joinFields j names ∧ (joinFields j names).word? = none := by
  induction names generalizing b j with
  | nil => exact ⟨hj, hnone⟩
  | cons y names ih =>
    rw [joinFields, List.foldl_cons, joinPart_field_of_none hnone, ← joinFields]
    exact ih (b := .field (place (b.span.union s)) b y) (by rw [unplaced_field, hj]) rfl

/-- Whether an expression is a word does not depend on places. -/
theorem word?_unplaced (e : Expr) : e.unplaced.word? = e.word? := by
  cases e with
  | literal n v => cases v <;> rfl
  | _ => simp [word?]

/-- Names are apart from words if what is below is read as it is, and no name stands after a word. -/
theorem joined_eq_unplaced_step (e : Expr) :
    e.joined = e.unplaced ↔ e.NamesApart ∧ ∀ c ∈ e.children, c.joined = c.unplaced := by
  -- what is read as a word does not depend on places
  have hword {b : Expr} (h : b.joined = b.unplaced) : b.joined.word? = b.word? := by rw [h, word?_unplaced]
  cases e with
  | literal | var | global => simp [NamesApart, children]
  | field n b x =>
    rw [joined_field, unplaced_field]
    simp only [NamesApart, children, List.forall_mem_singleton]
    -- a field stays one if nothing before it is read as a word
    cases hb : b.joined.word? with
    | none =>
      rw [joinPart_field_of_none hb, field.injEq]
      exact ⟨fun h => ⟨(hword h.2.1).symm.trans hb, h.2.1⟩, fun h => ⟨rfl, h.2, rfl⟩⟩
    | some w =>
      rw [joinPart_field_of_word hb]
      refine ⟨fun h => absurd h (by simp), fun h => ?_⟩
      rw [hword h.2, h.1] at hb
      cases hb
  | method n b x as c =>
    rw [unplaced_method]
    simp only [NamesApart, children, List.forall_mem_cons]
    cases hb : b.joined.word? with
    | none =>
      rw [joined_method_of_none hb, method.injEq, List.map_inj_left]
      exact ⟨fun h => ⟨(hword h.2.1).symm.trans hb, h.2.1, h.2.2.2.1⟩, fun h => ⟨rfl, h.2.1, rfl, h.2.2, rfl⟩⟩
    | some w =>
      rw [joined_method_of_word hb]
      refine ⟨fun h => absurd h (by simp), fun h => ?_⟩
      rw [hword h.2.1, h.1] at hb
      cases hb
  -- these are never joined to a name
  | call | list | unary | binary => simp [NamesApart, children]

/-- **The joined expression** is the expression if no name stands after a word. -/
theorem joined_eq_unplaced_iff (e : Expr) : e.joined = e.unplaced ↔ ∀ p ∈ e.subexprs, p.NamesApart := by
  induction e using children_induct with
  | h e ih =>
    rw [joined_eq_unplaced_step, subexprs_eq, List.forall_mem_cons]
    refine and_congr_right fun _ => ⟨fun h p hp => ?_, fun h c hc => (ih c hc).mpr fun p hp => ?_⟩
    · obtain ⟨c, hc, hp⟩ := mem_subexprsOf.mp hp
      exact (ih c hc).mp (h c hc) p hp
    · exact h p (mem_subexprsOf.mpr ⟨c, hc, hp⟩)

end Joined

/-! ### What tokens derive -/

/-- The tokens derive what the expression is read as. -/
def Rereads (e : Expr) (ts : List Token) : Prop := ∃ e', Derives .postfixed ts e' ∧ e'.unplaced = e.joined

/-- The tokens are those of a joined expression with a name after it. -/
inductive Selected (j : Expr) (x : String) : List Token → Prop
  | word {w : String} {s : Span} (hj : j.word? = some w) (hw : IsName (dotted w [x])) :
      Selected j x [⟨.word (dotted w [x]), s⟩]
  | names {ts : List Token} {b : Expr} {d s : Span} {w : String} (hj : j.word? = none) (h : Derives .postfixed ts b)
      (hw : (fields s b (dottedNames w)).unplaced = .field default j x) :
      Selected j x (ts ++ [⟨.mark .dot, d⟩, ⟨.word w, s⟩])

/-- The tokens are those of arguments or items that are read back. -/
def RereadsAll (es : List Expr) (inner : List Token) : Prop :=
  ∃ args, Itemized args inner ∧ (args.map (·.2)).map unplaced = es.map joined

section Derivations

variable {sym : Symbol} {ts inner : List Token} {e b : Expr} {n : Note} {x w : String}

/-- What is read after operators may stand between all of them. -/
theorem Derives.above (h : Derives .postfixed ts e) {p : Nat} (hp : p ≤ 6) : Derives (.above p) ts e :=
  Derives.of_le (q := 6) (.unprefixed h) hp

/-- What needs no operators around it is a whole expression. -/
theorem Derives.whole (h : Derives .postfixed ts e) : Derives (.joined .disjunction) ts e := h.above (Nat.zero_le 6)

/-- A field is read back. -/
theorem Selected.field (h : Selected b.joined x ts) : Rereads (.field n b x) ts := by
  cases h with
  | word hj hw => exact ⟨_, .unselected (.global hw), by rw [joined_field, joinPart_field_of_word hj, unplaced_global]⟩
  | names hj h hw =>
    refine ⟨_, .fields h, ?_⟩
    rw [joined_field, joinPart_field_of_none hj, ← Reader.fields_eq_foldl, hw]

/-- A method is read back, as a call if names join. -/
theorem Selected.method {as : List Expr} {o c : Span} (h : Selected b.joined x ts) (has : RereadsAll as inner) :
    Rereads (.method n b x as none) (ts ++ ⟨.mark .openParen, o⟩ :: (inner ++ [⟨.mark .closeParen, c⟩])) := by
  obtain ⟨args, hargs, heq⟩ := has
  cases h with
  | word hj hw =>
    refine ⟨_, .unselected (.call hw hargs.derives hargs.separated), ?_⟩
    rw [joined_method_of_word hj, unplaced_call, heq]
  | @names ts b' d s w hj h hw =>
    rw [List.append_assoc]
    refine ⟨_, .method h hargs.derives hargs.separated rfl, ?_⟩
    -- the last name is that of the method
    have hlast : dottedNames w = (dottedNames w).dropLast ++ [(dottedNames w).getLastD ""] := by
      rw [List.getLastD_eq_getLast?, List.getLast?_eq_some_getLast (dottedNames_ne_nil w)]
      exact (List.dropLast_append_getLast _).symm
    rw [hlast, Reader.fields_eq_foldl, List.foldl_append, List.foldl_cons, List.foldl_nil, unplaced_field,
      field.injEq] at hw
    rw [joined_method_of_none hj, unplaced_method, heq, hw.2.2, hw.2.1]

/-- An operation on one operand is read back, in its parentheses. -/
theorem Rereads.unary {op : UnaryOp} {t : Token} {o c : Span} (ht : t.lexeme = op.lexeme) (h : Rereads e ts) :
    Rereads (.unary n op e) (⟨.mark .openParen, o⟩ :: (t :: ts ++ [⟨.mark .closeParen, c⟩])) := by
  obtain ⟨e', he', heq⟩ := h
  have hunary : Derives (.above 6) (t :: ts) _ := .unary ht (.unprefixed he')
  exact ⟨_, .unselected (.parens (hunary.of_le (Nat.zero_le 6))), by rw [unplaced_unary, heq, joined_unary]⟩

/-- One on two operands, too. -/
theorem Rereads.binary {op : BinaryOp} {t : Token} {us : List Token} {o c : Span} {a : Expr}
    (ht : t.lexeme = op.lexeme) (ha : Rereads a ts) (hb : Rereads b us) :
    Rereads (.binary n op a b) (⟨.mark .openParen, o⟩ :: (ts ++ t :: us ++ [⟨.mark .closeParen, c⟩])) := by
  obtain ⟨a', ha', heqa⟩ := ha
  obtain ⟨b', hb', heqb⟩ := hb
  obtain ⟨r, hr⟩ := Rank.exists_of_op op
  have hrank : r.precedence ≤ 6 := by cases r <;> decide
  -- operands are read as tightly as need be, since they are in parentheses of their own or need none
  have hleft : Derives (.joined r) ts a' := by
    rw [← Symbol.above_precedence_sub]
    exact ha'.above (Nat.le_trans (Nat.sub_le _ _) hrank)
  have hright : Derives r.operand us b' := by
    rw [← Symbol.above_precedence]
    exact hb'.above hrank
  have hbinary := Derives.binary hr ht hleft hright
  rw [← Symbol.above_precedence_sub] at hbinary
  refine ⟨_, .unselected (.parens (hbinary.of_le (Nat.zero_le _))), ?_⟩
  rw [unplaced_binary, heqa, heqb, joined_binary]

/-- A call is read back with its arguments. -/
theorem Rereads.call {as : List Expr} {s o c : Span} (hw : IsName w) (has : RereadsAll as inner) :
    Rereads (.call n w as none) (⟨.word w, s⟩ :: ⟨.mark .openParen, o⟩ :: (inner ++ [⟨.mark .closeParen, c⟩])) := by
  obtain ⟨args, hargs, heq⟩ := has
  exact ⟨_, .unselected (.call hw hargs.derives hargs.separated), by rw [unplaced_call, heq, joined_call]⟩

/-- A list is read back with its items. -/
theorem Rereads.list {es : List Expr} {o c : Span} (hes : RereadsAll es inner) :
    Rereads (.list n es) (⟨.mark .openBracket, o⟩ :: (inner ++ [⟨.mark .closeBracket, c⟩])) := by
  obtain ⟨items, hitems, heq⟩ := hes
  exact ⟨_, .unselected (.list hitems.derives hitems.separated), by rw [unplaced_list, heq, joined_list]⟩

end Derivations

/-! ### Texts -/

/-- The text of an expression is read as the joined one, alone and with names after it. -/
structure TextRereads (e : Expr) : Prop where
  alone : ∀ {rest}, Ends rest → HasTokens (Rereads e) e.render rest
  named : ∀ {rest} (names : List String) (x : String), Ends rest → (∀ y ∈ names ++ [x], IsIdentifier y) →
    HasTokens (Selected (joinFields e.joined names) x) (e.render ++ selectors (names ++ [x])) rest

section Texts

variable {e b : Expr} {es : List Expr} {n : Note} {x w : String} {rest : List Char}

/-- Names with dots between them, after names with dots between them. -/
theorem IsDotted.dotted {names : List String} (hw : IsDotted w) (hnames : ∀ y ∈ names, IsIdentifier y) :
    IsDotted (dotted w names) := by
  obtain ⟨y, ys, rfl, hy, hys⟩ := hw
  exact ⟨y, ys ++ names, dotted_dotted y ys names, hy, List.forall_mem_append.mpr ⟨hys, hnames⟩⟩

/-- No constant and no operator is written with dots. -/
theorem isName_dotted (w x : String) : IsName (dotted w [x]) := by
  have hdot : '.' ∈ (dotted w [x]).toList := by simp [dotted, selectors]
  constructor
  · intro v hv
    simp only [constantWords, List.mem_cons, Prod.mk.injEq, List.not_mem_nil, or_false] at hv
    obtain ⟨h, -⟩ | ⟨h, -⟩ | ⟨h, -⟩ := hv <;>
    · rw [h] at hdot
      exact absurd hdot (by decide)
  · intro h
    rw [h] at hdot
    exact absurd hdot (by decide)

/-- Words are read together with the names after them. -/
theorem TextRereads.of_word (hword : e.joined.word? = some w) (hrender : e.render = w.toList) (hw : IsDotted w)
    (hderives : ∀ s, Rereads e [⟨.word w, s⟩]) : TextRereads e where
  alone hrest := by
    rw [hrender]
    refine (HasTokens.word hw hrest).imp ?_
    rintro ts ⟨s, rfl⟩
    exact hderives s
  named names x hrest hnames := by
    -- the names are part of the same token
    have htext : e.render ++ selectors (names ++ [x]) = (dotted (dotted w names) [x]).toList := by
      rw [dotted_dotted, dotted, String.toList_ofList, hrender]
    have hdotted := hw.dotted hnames
    rw [← dotted_dotted] at hdotted
    rw [htext]
    refine (HasTokens.word hdotted hrest).imp ?_
    rintro ts ⟨s, rfl⟩
    exact .word (word?_joinFields hword names) (isName_dotted _ x)

/-- Names after anything else are read by themselves. -/
theorem TextRereads.of_none (hnone : e.joined.word? = none)
    (h : ∀ {rest}, Parts rest → HasTokens (Rereads e) e.render rest) : TextRereads e where
  alone hrest := h (hrest.parts [] (by simp))
  named names x hrest hnames := by
    obtain ⟨y, ys, hys⟩ := List.exists_cons_of_ne_nil (List.append_ne_nil_of_right_ne_nil names (List.cons_ne_nil x []))
    have hparts := hrest.parts _ hnames
    rw [hys] at hnames hparts ⊢
    obtain ⟨hy, hys'⟩ := List.forall_mem_cons.mp hnames
    -- after the first dot the names are one token, and the reader takes them apart
    have htext : selectors (y :: ys) = ['.'] ++ (dotted y ys).toList := by
      rw [dotted, String.toList_ofList]
      rfl
    rw [htext] at hparts ⊢
    have hword := HasTokens.word ⟨y, ys, rfl, hy, hys'⟩ hrest
    refine ((h hparts).append ((HasTokens.mark .dot (.inl (by decide))).append hword)).imp ?_
    rintro _ ⟨ts, _, ⟨e', he', heq⟩, ⟨_, _, ⟨d, rfl⟩, ⟨s, rfl⟩, rfl⟩, rfl⟩
    obtain ⟨-, hnone'⟩ := unplaced_fields heq hnone s names
    refine .names hnone' he' ?_
    rw [dottedNames_dotted hy hys', ← hys, (unplaced_fields heq hnone s _).1, joinFields, List.foldl_append]
    exact joinPart_field_of_none (n := default) hnone'

/-- The text of a field is the text before it and a name. -/
theorem TextRereads.field (h : TextRereads b) (hx : IsIdentifier x) : TextRereads (.field n b x) where
  alone hrest := by
    have hnamed := h.named [] x hrest (by simpa using hx)
    rw [List.nil_append, selectors, List.flatMap_singleton] at hnamed
    exact hnamed.imp fun ts hts => Selected.field hts
  named names y hrest hnames := by
    have hnamed := h.named (x :: names) y hrest (List.forall_mem_cons.mpr ⟨hx, hnames⟩)
    rw [render, List.append_assoc]
    rw [joined_field]
    exact hnamed

/-- A parenthesis ends what stands before it. -/
theorem ends_closeParen (rest : List Char) : Ends (Mark.closeParen.symbol.toList ++ rest) :=
  ends_cons (by decide) (by decide)

/-- Arguments and items are read one by one. -/
theorem hasTokens_renderAll (hes : ∀ e ∈ es, TextRereads e) (hrest : Ends rest) :
    HasTokens (RereadsAll es) (renderAll es) rest := by
  induction es with
  | nil =>
    refine (HasTokens.nil rest).imp ?_
    rintro ts rfl
    exact ⟨[], .nil, rfl⟩
  | cons e es ih =>
    obtain ⟨he, hes⟩ := List.forall_mem_cons.mp hes
    rw [renderAll_cons]
    -- behind the last one stands no comma
    by_cases hnil : es = []
    · subst hnil
      rw [if_pos rfl, List.append_nil]
      refine (he.alone hrest).imp ?_
      rintro ts ⟨e', he', heq⟩
      exact ⟨[(ts, e')], .one he'.whole, by simp [heq]⟩
    · rw [if_neg hnil]
      have hcomma := @HasTokens.mark (' ' :: renderAll es ++ rest) .comma (.inl (by decide))
      have hends : Ends (',' :: ' ' :: renderAll es ++ rest) := ends_cons (by decide) (by decide)
      refine ((he.alone hends).append (hcomma.append (ih hes).blank)).imp ?_
      rintro _ ⟨ts, _, ⟨e', he', heq⟩, ⟨_, inner, ⟨s, rfl⟩, ⟨args, hargs, heqs⟩, rfl⟩, rfl⟩
      -- something stands behind the comma
      have hne : args ≠ [] := by
        rintro rfl
        exact hnil (List.map_eq_nil_iff.mp heqs.symm)
      exact ⟨(ts, e') :: args, .cons s he'.whole hne hargs, by simp [heq, heqs]⟩

/-- The words that are constants are the texts of the constants. -/
theorem word?_of_constant {v : Literal} (h : (w, v) ∈ constantWords) :
    word? (.literal n v) = some w ∧ v.text = w ∧ IsDotted w := by
  simp only [constantWords, List.mem_cons, Prod.mk.injEq, List.not_mem_nil, or_false] at h
  obtain ⟨rfl, rfl⟩ | ⟨rfl, rfl⟩ | ⟨rfl, rfl⟩ := h
  · exact ⟨rfl, rfl, .of_identifier ⟨'t', ['r', 'u', 'e'], rfl, by decide, by simp [isNameChar]⟩⟩
  · exact ⟨rfl, rfl, .of_identifier ⟨'f', ['a', 'l', 's', 'e'], rfl, by decide, by simp [isNameChar]⟩⟩
  · exact ⟨rfl, rfl, .of_identifier ⟨'n', ['u', 'l', 'l'], rfl, by decide, by simp [isNameChar]⟩⟩

/-- A literal is a word, or one token of its own. -/
theorem textRereads_literal {v : Literal} (hlegible : LegiblePart (.literal n v)) (hv : LiteralPrintable v) :
    TextRereads (.literal n v) := by
  have hconstant {l : Lexeme} (h : IsConstant l v) (s : Span) : Rereads (.literal n v) [⟨l, s⟩] :=
    ⟨_, .unselected (.constant h), rfl⟩
  -- a number or a string is one token of its own
  have htoken {l : Lexeme} (h : IsConstant l v) (hnone : word? (.literal default v) = none)
      (htext : ∀ {rest}, Parts rest → HasTokens (Single l) v.text.toList rest) : TextRereads (.literal n v) := by
    refine .of_none hnone fun hrest => (htext hrest).imp ?_
    rintro _ ⟨s, rfl⟩
    exact hconstant h s
  -- the other constants are words and may be joined to what follows
  have hword {w : String} (h : (w, v) ∈ constantWords) : TextRereads (.literal n v) := by
    obtain ⟨hw, htext, hdotted⟩ := word?_of_constant (n := default) h
    exact .of_word hw (congrArg String.toList htext) hdotted (hconstant (.word h))
  cases v with
  | null => exact hword (w := "null") (by simp [constantWords])
  | bool b =>
    cases b with
    | false => exact hword (w := "false") (by simp [constantWords])
    | true => exact hword (w := "true") (by simp [constantWords])
  | int k => exact htoken (.int k) rfl (HasTokens.int hlegible)
  | float x => exact htoken (.float x) rfl (HasTokens.float hv)
  | string s => exact htoken (.string s) rfl fun _ => HasTokens.string hv

/-- Calls are read back. -/
theorem TextRereads.call {as : List Expr} (hw : IsDotted w) (hname : IsName w)
    (has : ∀ a ∈ as, TextRereads a) : TextRereads (.call n w as none) := by
  refine .of_none (by rw [joined_call]; rfl) fun {rest} _ => ?_
  have hargs := HasTokens.enclosed (m := .openParen) (by decide) (by decide)
    (hasTokens_renderAll has (ends_closeParen rest))
  have hopen : Ends ('(' :: (renderAll as ++ [')'] ++ rest)) := ends_cons (by decide) (by decide)
  refine ((HasTokens.word hw hopen).append hargs).imp ?_
  rintro _ ⟨_, _, ⟨s, rfl⟩, ⟨inner, o, c, hinner, rfl⟩, rfl⟩
  exact .call hname hinner

/-- The name of a method is read with the names before it. -/
theorem TextRereads.method {as : List Expr} (hx : IsIdentifier x) (hb : TextRereads b)
    (has : ∀ a ∈ as, TextRereads a) : TextRereads (.method n b x as none) := by
  -- behind a method call nothing is joined, since its text ends in a parenthesis
  have hnone : (joined (.method n b x as none)).word? = none := by
    cases hword : b.joined.word? with
    | none => rw [joined_method_of_none hword]; rfl
    | some w => rw [joined_method_of_word hword]; rfl
  refine .of_none hnone fun {rest} _ => ?_
  have hargs := HasTokens.enclosed (m := .openParen) (by decide) (by decide)
    (hasTokens_renderAll has (ends_closeParen rest))
  have hopen : Ends ('(' :: (renderAll as ++ [')'] ++ rest)) := ends_cons (by decide) (by decide)
  -- the receiver with the name of the method as one more field
  have hnamed := hb.named [] x hopen (by simpa using hx)
  have htext : render (.method n b x as none) =
      (b.render ++ selectors ([] ++ [x])) ++ '(' :: (renderAll as ++ [')']) := by
    simp [render, selectors]
  rw [htext]
  refine (hnamed.append hargs).imp ?_
  rintro _ ⟨ts, _, hts, ⟨inner, o, c, hinner, rfl⟩, rfl⟩
  exact Selected.method hts hinner

/-- Lists are read back. -/
theorem TextRereads.list (hes : ∀ e ∈ es, TextRereads e) : TextRereads (.list n es) := by
  refine .of_none (by rw [joined_list]; rfl) fun {rest} _ => ?_
  have hclose : Ends (Mark.closeBracket.symbol.toList ++ rest) := ends_cons (by decide) (by decide)
  refine (HasTokens.enclosed (m := .openBracket) (by decide) (by decide)
    (hasTokens_renderAll hes hclose)).imp ?_
  rintro _ ⟨inner, o, c, hinner, rfl⟩
  exact .list hinner

/-- Operations are written in parentheses of their own. -/
theorem TextRereads.unary {op : UnaryOp} (he : TextRereads e) : TextRereads (.unary n op e) := by
  refine .of_none (by rw [joined_unary]; rfl) fun {rest} _ => ?_
  have hop := HasTokens.enclosed (m := .openParen) (by decide) (by decide)
    (HasTokens.unaryOp op (he.alone (ends_closeParen rest)))
  have htext : (Expr.unary n op e).render = Mark.openParen.symbol.toList ++
      ((unaryText op ++ e.render) ++ Mark.closeParen.symbol.toList) := by
    simp [render, Mark.symbol]
  rw [htext]
  refine hop.imp ?_
  rintro _ ⟨_, o, c, ⟨t, ts, ht, hts, rfl⟩, rfl⟩
  exact .unary ht hts

/-- The same with two operands, and blanks around the operator. -/
theorem TextRereads.binary {op : BinaryOp} (he : TextRereads e) (hb : TextRereads b) :
    TextRereads (.binary n op e b) := by
  refine .of_none (by rw [joined_binary]; rfl) fun {rest} _ => ?_
  have hright := (HasTokens.binaryOp op).append (hb.alone (ends_closeParen rest)).blank
  -- blanks keep the operands and the operator apart, parentheses the whole
  have hblank (rest : List Char) : Ends (' ' :: rest) := ends_cons (by decide) (by decide)
  have hall := HasTokens.enclosed (m := .openParen) (by decide) (by decide)
    ((he.alone (hblank _)).append hright.blank)
  have htext : (Expr.binary n op e b).render = Mark.openParen.symbol.toList ++
      (e.render ++ ' ' :: (op.symbol.toList ++ ' ' :: b.render) ++ Mark.closeParen.symbol.toList) := by
    simp [render, Mark.symbol]
  rw [htext]
  refine hall.imp ?_
  rintro _ ⟨_, o, c, ⟨ts, _, hts, ⟨_, us, ⟨s, rfl⟩, hus, rfl⟩, rfl⟩, rfl⟩
  exact Rereads.binary (t := ⟨op.lexeme, s⟩) rfl hts hus

/-- **Texts of expressions** are read as the joined expressions. -/
theorem textRereads (hlegible : e.Legible) (hliterals : ∀ n v, .literal n v ∈ e.subexprs → LiteralPrintable v) :
    TextRereads e := by
  induction e using children_induct with
  | h e ih =>
    have hpart : e.LegiblePart := hlegible e (subexprs_eq e ▸ List.mem_cons_self)
    -- what is legible and printable is so in all its parts
    have hbelow : ∀ c ∈ e.children, TextRereads c := fun c hc => by
      have hsub : ∀ p ∈ c.subexprs, p ∈ e.subexprs := fun p hp => by
        rw [subexprs_eq e]
        exact List.mem_cons_of_mem _ (mem_subexprsOf.mpr ⟨c, hc, hp⟩)
      exact ih c hc (fun p hp => hlegible p (hsub p hp)) fun n v hv => hliterals n v (hsub _ hv)
    clear ih
    cases e with
    -- one lemma above for each kind of expression
    | literal n v => exact textRereads_literal hpart (hliterals n v (subexprs_eq _ ▸ List.mem_cons_self))
    | var n x =>
      refine .of_none rfl fun hrest => (HasTokens.var hpart.1 hpart.2 hrest).imp ?_
      rintro _ ⟨s, rfl⟩
      exact ⟨_, .unselected .var, rfl⟩
    | global n w => exact .of_word rfl rfl hpart.1 fun s => ⟨_, .unselected (.global hpart.2), rfl⟩
    | field n b x => exact (hbelow b List.mem_cons_self).field hpart
    | call n w as c =>
      obtain ⟨hw, hname, rfl⟩ := hpart
      exact .call hw hname hbelow
    | method n b x as c =>
      obtain ⟨hx, rfl⟩ := hpart
      obtain ⟨hb, has⟩ := List.forall_mem_cons.mp hbelow
      exact .method hx hb has
    | list n es => exact .list hbelow
    | unary n op a => exact .unary (hbelow a List.mem_cons_self)
    | binary n op a b =>
      obtain ⟨ha, hb⟩ := List.forall_mem_cons.mp hbelow
      exact .binary ha (hb b List.mem_cons_self)

/-- **The text of an expression** is an expression again, the joined one. -/
theorem parse_render (hlegible : e.Legible) (hliterals : ∀ n v, .literal n v ∈ e.subexprs → LiteralPrintable v)
    (offset : Nat) : ∃ e', parse offset e.render = .ok e' ∧ e'.unplaced = e.joined := by
  obtain ⟨ts, ⟨e', he', heq⟩, hts⟩ := (textRereads hlegible hliterals).alone ends_nil offset [] (.nil _)
  rw [List.append_nil, List.append_nil] at hts
  exact ⟨e', parse_eq_ok_iff.mpr ⟨ts, tokens_eq_ok_iff.mpr hts, he'.whole⟩, heq⟩

end Texts

/-! ### Expressions that were read -/

/-- The expression was read: by itself, in a print command with its directives, or as the list of a loop. -/
inductive Produced : Expr → Prop
  | parse {offset : Nat} {cs : List Char} {e : Expr} (h : Expr.parse offset cs = .ok e) : Produced e
  | print {offset : Nat} {cs : List Char} {e : Expr} {ds : List Directive} (h : parsePrint offset cs = .ok (e, ds)) :
      Produced e
  | directive {offset : Nat} {cs : List Char} {e a : Expr} {ds : List Directive} {d : Directive}
      (h : parsePrint offset cs = .ok (e, ds)) (hd : d ∈ ds) (ha : a ∈ d.args) : Produced a
  | loop {offset : Nat} {cs : List Char} {x : String} {e : Expr} (h : parseLoop offset cs = .ok (x, e)) : Produced e

/-- The arguments of directives are read from tokens of the directives. -/
theorem AreDirectives.exists_tokens {ts : List Token} {ds : List Directive} (h : AreDirectives ts ds) {d : Directive}
    (hd : d ∈ ds) {a : Expr} (ha : a ∈ d.args) : ∃ us ⊆ ts, IsExpression us a := by
  induction h with
  | nil => cases hd
  | plain _ ih =>
    obtain rfl | hd := List.mem_cons.mp hd
    · cases ha
    · obtain ⟨us, hus, he⟩ := ih hd
      exact ⟨us, fun t ht => by simp [hus ht], he⟩
  | args hargs _ ih =>
    obtain rfl | hd := List.mem_cons.mp hd
    · obtain ⟨x, hx, rfl⟩ := List.mem_map.mp ha
      -- the tokens of one argument are among those between the parentheses
      have hinner := hargs.separated.subset hx
      exact ⟨x.1, fun t ht => by simp [hinner ht], hargs.derives x hx⟩
    · obtain ⟨us, hus, he⟩ := ih hd
      exact ⟨us, fun t ht => by simp [hus ht], he⟩

section Produced

variable {e : Expr}

/-- What was read was read from tokens of some text. -/
theorem Produced.exists_tokens (h : e.Produced) :
    ∃ offset cs ts, tokens offset cs = .ok ts ∧ ∃ us ⊆ ts, IsExpression us e := by
  cases h with
  | @parse offset cs _ h =>
    obtain ⟨ts, hts, he⟩ := parse_eq_ok_iff.mp h
    exact ⟨offset, cs, ts, hts, ts, List.Subset.refl ts, he⟩
  | @print offset cs _ ds h =>
    obtain ⟨ts, us, hall, he, -⟩ := exists_of_parsePrint_ok h
    exact ⟨offset, cs, _, hall, ts, List.subset_append_left ts us, he⟩
  -- the expression of the print comes first, the directives stand behind it
  | @directive offset cs _ _ ds d h hd ha =>
    obtain ⟨ts, us, hall, -, hds⟩ := exists_of_parsePrint_ok h
    obtain ⟨vs, hvs, he⟩ := hds.exists_tokens hd ha
    exact ⟨offset, cs, _, hall, vs, fun t ht => List.mem_append_right ts (hvs ht), he⟩
  | @loop offset cs x _ h =>
    obtain ⟨s, t, ts, hall, he⟩ := exists_of_parseLoop_ok h
    exact ⟨offset, cs, _, hall, ts, fun t ht => by simp [ht], he⟩

/-- **What was read** has legible names and no number with a sign. -/
theorem Produced.legible (h : e.Produced) : e.Legible := by
  obtain ⟨offset, cs, ts, hts, us, hus, he⟩ := h.exists_tokens
  obtain ⟨sources, rfl, hsources, -⟩ := (tokens_eq_ok_iff.mp hts).exists_sources
  refine he.legible fun t ht => ?_
  obtain ⟨p, hp, rfl⟩ := List.mem_map.mp (hus ht)
  exact ⟨p.2, hsources p hp⟩

/-- **Which expressions are read back.** An expression that was read is read again from its text, up to places, if and
only if no string in it has a backslash, every floating-point number in it is positive and not whole, and no name stands
after a word. -/
theorem parse_render_iff_printable (h : e.Produced) (offset : Nat) :
    (∃ e', parse offset e.render = .ok e' ∧ e'.unplaced = e.unplaced) ↔ e.Printable := by
  constructor
  · rintro ⟨e', he', heq⟩
    obtain ⟨ts, hts, hexpr⟩ := parse_eq_ok_iff.mp he'
    have hliterals (n : Note) (v : Literal) (hv : .literal n v ∈ e.subexprs) : LiteralPrintable v :=
      printable_literals (tokens_eq_ok_iff.mp hts) hexpr heq hv
    refine ⟨hliterals, (joined_eq_unplaced_iff e).mp ?_⟩
    -- with such literals the text is read as the joined expression, and as no other
    obtain ⟨e'', he'', hjoined⟩ := parse_render h.legible hliterals offset
    rw [he'] at he''
    rw [← hjoined, ← Except.ok.inj he'', heq]
  · intro hprintable
    obtain ⟨e', he', hjoined⟩ := parse_render h.legible hprintable.literals offset
    exact ⟨e', he', hjoined.trans ((joined_eq_unplaced_iff e).mpr hprintable.names)⟩

/-- A list of literals whose text is the list as it was written. -/
theorem parse_render_iff_printable_literals : ∃ e, parse 0 "[1, 2.5, 'it\\'s', true, null]".toList = .ok e ∧
    ((∃ e', parse 0 e.render = .ok e' ∧ e'.unplaced = e.unplaced) ↔ e.Printable) ∧ e.Printable := by
  have hrun : (parse 0 "[1, 2.5, 'it\\'s', true, null]".toList).toOption.map render =
      some "[1, 2.5, 'it\\'s', true, null]".toList := by decide +kernel
  obtain ⟨e, he, htext⟩ := exists_of_toOption_map hrun
  have hiff := parse_render_iff_printable (.parse he) 0
  exact ⟨e, he, hiff, hiff.mp ⟨e, by rw [htext, he], rfl⟩⟩

end Produced

/-! ### Texts that are read as something else -/

/-- Places do not matter for whether an expression is a constant. -/
theorem literal?_unplaced (e : Expr) : e.unplaced.literal? = e.literal? := by
  cases e <;> simp [literal?]

/-- What is seen of an expression and of what its text is read as. -/
theorem exists_reread {α : Type} (cs : List Char) (f : Expr → α) {a b : α}
    (h : (parse 0 cs).toOption.map (fun e => (f e, (parse 0 e.render).toOption.map f)) = some (a, some b)) :
    ∃ e e', parse 0 cs = .ok e ∧ parse 0 e.render = .ok e' ∧ f e = a ∧ f e' = b := by
  obtain ⟨e, he, hseen⟩ := exists_of_toOption_map h
  obtain ⟨ha, hb⟩ := Prod.mk.inj hseen
  obtain ⟨e', he', hb⟩ := exists_of_toOption_map hb
  exact ⟨e, e', he, he', ha, hb⟩

/-- A backslash is lost, a whole number becomes an integer, and a name in parentheses joins the one after it. -/
theorem parse_render_changes :
    (∃ e e', parse 0 "'a\\\\b'".toList = .ok e ∧ parse 0 e.render = .ok e' ∧ e'.unplaced ≠ e.unplaced ∧
      e.literal? = some (.string "a\\b") ∧ e'.literal? = some (.string "ab")) ∧
    (∃ e e', parse 0 "2.0".toList = .ok e ∧ parse 0 e.render = .ok e' ∧ e'.unplaced ≠ e.unplaced ∧
      e.literal? = some (.float 2.0) ∧ e'.literal? = some (.int 2)) ∧
    ∃ e e', parse 0 "(a).b".toList = .ok e ∧ parse 0 e.render = .ok e' ∧ e'.unplaced ≠ e.unplaced ∧
      e.word? = none ∧ e'.word? = some "a.b" := by
  -- another constant is another expression
  have hliteral {e e' : Expr} {v v' : Literal} (hv : e.literal? = some v) (hv' : e'.literal? = some v') (hne : v' ≠ v) :
      e'.unplaced ≠ e.unplaced := fun h => by
    rw [← literal?_unplaced, ← h, literal?_unplaced, hv'] at hv
    exact hne (Option.some.inj hv)
  refine ⟨?_, ?_, ?_⟩
  · obtain ⟨e, e', he, he', hv, hv'⟩ := exists_reread "'a\\\\b'".toList literal?
      (a := some (.string "a\\b")) (b := some (.string "ab")) (by decide +kernel)
    exact ⟨e, e', he, he', hliteral hv hv' (by decide), hv, hv'⟩
  · obtain ⟨e, e', he, he', hv, hv'⟩ := exists_reread "2.0".toList literal?
      (a := some (.float 2.0)) (b := some (.int 2)) (by decide +kernel)
    exact ⟨e, e', he, he', hliteral hv hv' nofun, hv, hv'⟩
  · obtain ⟨e, e', he, he', hw, hw'⟩ := exists_reread "(a).b".toList word? (a := none)
      (b := some "a.b") (by decide +kernel)
    refine ⟨e, e', he, he', fun h => ?_, hw, hw'⟩
    rw [← word?_unplaced, ← h, word?_unplaced, hw'] at hw
    cases hw

end TemplateFrontend.Expr
