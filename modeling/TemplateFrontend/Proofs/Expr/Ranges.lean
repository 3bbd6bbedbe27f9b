import TemplateFrontend.Proofs.Expr.Extents
import TemplateFrontend.Proofs.Text.Boundaries
/-!
# The ranges that expressions and their errors point at

Whatever is read from a list of tokens, each range in it is joined from ranges of the tokens. An error
points at a token or at the end. So a property of ranges that joining keeps passes from the tokens of a
text to all that is read from them.

* `ReadsIn` — readers whose errors point at ranges of the text;
* `Expr.SpansIn` — a property of the range of every part;
* `Span.Joins` — a property that joining keeps;
* `Expr.Reader.ReadsWithin`, `Expr.Reader.readsWithin` — what the readers answer and where they fail, by
  induction on fuel;
* `tokens_yields` — tokens, and errors on the way to them, fit the text;
* `Expr.parse_yields`, `Expr.parsePrint_yields`, `Expr.parseLoop_yields` — the same for expressions.
-/

namespace TemplateFrontend

open Text

/-- The answer has the property `P`, or the error points at a range that fits the text. -/
abbrev ReadsIn {α : Type} (content : List Char) (P : α → Prop) (x : Except SyntaxError α) : Prop :=
  Yields (fun e => e.span.Fits content) P x

/-- Joining ranges keeps the property, and the place `stop` has it. -/
structure Span.Joins (F : Span → Prop) (stop : Nat) : Prop where
  union : ∀ {s t}, F s → F t → F (s.union t)
  atStop : F ⟨stop, stop⟩

/-- Every token has a range with the property. -/
abbrev Token.SpansIn (F : Span → Prop) (ts : List Token) : Prop := ∀ t ∈ ts, F t.span

/-- Every part of the expression has a range with the property. -/
def Expr.SpansIn (F : Span → Prop) (e : Expr) : Prop := ∀ p ∈ e.subexprs, F p.span

/-- The directive and every part of its arguments have ranges with the property. -/
def Directive.SpansIn (F : Span → Prop) (d : Directive) : Prop :=
  F d.span ∧ ∀ e ∈ d.args, e.SpansIn F

namespace Expr

variable {F : Span → Prop}

/-- The ranges of an expression are its own and those of its parts. -/
theorem spansIn_iff {e : Expr} : e.SpansIn F ↔ F e.span ∧ ∀ c ∈ e.children, c.SpansIn F := by
  unfold SpansIn
  rw [subexprs_eq, List.forall_mem_cons]
  refine and_congr_right fun _ => ⟨fun h c hc p hp => ?_, fun h p hp => ?_⟩
  · exact h p (mem_subexprsOf.mpr ⟨c, hc, hp⟩)
  · obtain ⟨c, hc, hp⟩ := mem_subexprsOf.mp hp
    exact h c hc p hp

/-- The range of the expression itself. -/
theorem SpansIn.span {e : Expr} (h : e.SpansIn F) : F e.span := (spansIn_iff.mp h).1

namespace Reader

/-- The answer has the property `P` and is followed by tokens in `F`, or the error points into `F`. -/
abbrev YieldsIn {α : Type} (F : Span → Prop) (P : α → Prop) (x : Answer (α × List Token)) : Prop :=
  Yields (fun e => F e.span) (fun a => P a.1 ∧ Token.SpansIn F a.2) x

/-! ### Single tokens -/

section Tokens

variable {stop : Stop} {ts : List Token}

/-- An unexpected token is pointed at, or the end where there is none. -/
theorem unexpected_spansIn (hF : Span.Joins F stop) (hts : Token.SpansIn F ts) (expected : String) :
    F (unexpected stop ts expected).span := by
  cases ts with
  | nil => exact hF.atStop
  | cons t ts => exact hts t List.mem_cons_self

/-- A mark that is found has its own range. -/
theorem mark?_spansIn {m : Mark} {s : Span} {rest : List Token} (h : mark? m ts = some (s, rest))
    (hts : Token.SpansIn F ts) : F s ∧ Token.SpansIn F rest := by
  obtain rfl := mark?_eq_some h
  exact List.forall_mem_cons.mp hts

/-- A mark that has to come has its own range, or the error points at what comes instead. -/
theorem mark_yields (hF : Span.Joins F stop) (hts : Token.SpansIn F ts) (m : Mark) :
    YieldsIn F F (mark stop m ts) := by
  cases h : mark stop m ts with
  | ok a =>
    obtain rfl := mark_eq_ok h
    exact List.forall_mem_cons.mp hts
  | error e =>
    -- another token, or none
    unfold mark at h
    split at h
    · split at h
      · cases h
      · obtain rfl := Except.error.inj h
        exact unexpected_spansIn hF hts _
    · obtain rfl := Except.error.inj h
      exact unexpected_spansIn hF hts _

/-- A word has its own range. -/
theorem word_yields (hF : Span.Joins F stop) (hts : Token.SpansIn F ts) (expected : String) :
    YieldsIn F (fun w => F w.2) (word stop expected ts) := by
  unfold word
  split
  · exact List.forall_mem_cons.mp hts
  · exact unexpected_spansIn hF hts _

/-- The name of a variable. -/
theorem variableName_yields (hF : Span.Joins F stop) (hts : Token.SpansIn F ts) :
    YieldsIn F (fun _ => True) (variableName stop ts) := by
  unfold variableName
  split
  · exact ⟨trivial, (List.forall_mem_cons.mp hts).2⟩
  · exact unexpected_spansIn hF hts _

/-- A word that has to come. -/
theorem keyword_yields (hF : Span.Joins F stop) (hts : Token.SpansIn F ts) (w : String) :
    YieldsIn F (fun _ => True) (keyword stop w ts) := by
  unfold keyword
  split
  · split
    · exact ⟨trivial, (List.forall_mem_cons.mp hts).2⟩
    · exact unexpected_spansIn hF hts _
  · exact unexpected_spansIn hF hts _

/-- The end, or else an error at the token that is left. -/
theorem finish_yields (hF : Span.Joins F stop) (hts : Token.SpansIn F ts) :
    Yields (fun e => F e.span) (fun _ => True) (finish stop ts) := by
  unfold finish
  split
  · trivial
  · exact unexpected_spansIn hF hts _

/-- The fields of a dotted name are joined from what they belong to and the name. -/
theorem fields_spansIn {s : Span} {b : Expr} (hF : Span.Joins F stop) (hb : b.SpansIn F) (hs : F s)
    (names : List String) : (fields s b names).SpansIn F := by
  induction names generalizing b with
  | nil => exact hb
  | cons name names ih =>
    refine ih (spansIn_iff.mpr ⟨hF.union hb.span hs, ?_⟩)
    exact List.forall_mem_singleton.mpr hb

end Tokens

/-! ### Readers -/

/-- What the readers answer with fuel `n`, and where they fail. -/
structure ReadsWithin (F : Span → Prop) (stop : Stop) (n : Nat) : Prop where
  binary : ∀ {floor ts}, Token.SpansIn F ts → YieldsIn F (SpansIn F) (binary stop n floor ts)
  operators : ∀ {floor lhs ts}, lhs.SpansIn F → Token.SpansIn F ts →
    YieldsIn F (SpansIn F) (operators stop n floor lhs ts)
  unary : ∀ {ts}, Token.SpansIn F ts → YieldsIn F (SpansIn F) (unary stop n ts)
  postfixed : ∀ {ts}, Token.SpansIn F ts → YieldsIn F (SpansIn F) (postfixed stop n ts)
  selectors : ∀ {base ts}, base.SpansIn F → Token.SpansIn F ts →
    YieldsIn F (SpansIn F) (selectors stop n base ts)
  arguments : ∀ {ts}, Token.SpansIn F ts →
    YieldsIn F (fun a => (∀ e ∈ a.1, e.SpansIn F) ∧ F a.2) (arguments stop n ts)
  items : ∀ {ts}, Token.SpansIn F ts → YieldsIn F (fun es => ∀ e ∈ es, e.SpansIn F) (items stop n ts)
  listItems : ∀ {ts}, Token.SpansIn F ts →
    YieldsIn F (fun a => (∀ e ∈ a.1, e.SpansIn F) ∧ F a.2) (listItems stop n ts)
  primary : ∀ {ts}, Token.SpansIn F ts → YieldsIn F (SpansIn F) (primary stop n ts)

section Readers

variable {stop : Stop} {n : Nat} {ts : List Token}

/-- Without fuel every reader fails at the next token. -/
theorem readsWithin_zero (hF : Span.Joins F stop) : ReadsWithin F stop 0 where
  binary hts := by unfold Reader.binary; exact unexpected_spansIn hF hts _
  operators _ hts := by unfold Reader.operators; exact unexpected_spansIn hF hts _
  unary hts := by unfold Reader.unary; exact unexpected_spansIn hF hts _
  postfixed hts := by unfold Reader.postfixed; exact unexpected_spansIn hF hts _
  selectors _ hts := by unfold Reader.selectors; exact unexpected_spansIn hF hts _
  arguments hts := by unfold Reader.arguments; exact unexpected_spansIn hF hts _
  items hts := by unfold Reader.items; exact unexpected_spansIn hF hts _
  listItems hts := by unfold Reader.listItems; exact unexpected_spansIn hF hts _
  primary hts := by unfold Reader.primary; exact unexpected_spansIn hF hts _

/-- An operand, and the operators behind it. -/
theorem ReadsWithin.binary_succ (ih : ReadsWithin F stop n) {floor : Nat} (hts : Token.SpansIn F ts) :
    YieldsIn F (SpansIn F) (Reader.binary stop (n + 1) floor ts) := by
  unfold Reader.binary
  refine (ih.unary hts).bind ?_
  rintro ⟨lhs, ts'⟩ - ⟨hlhs, hts'⟩
  exact ih.operators hlhs hts'

/-- An operator with its right operand, and the operators behind it. -/
theorem ReadsWithin.operators_succ (hF : Span.Joins F stop) (ih : ReadsWithin F stop n) {floor : Nat}
    {lhs : Expr} (hlhs : lhs.SpansIn F) (hts : Token.SpansIn F ts) :
    YieldsIn F (SpansIn F) (Reader.operators stop (n + 1) floor lhs ts) := by
  unfold Reader.operators
  split
  · exact ⟨hlhs, hts⟩
  · split
    · exact ⟨hlhs, hts⟩
    · -- the range is joined from those of the operands, between which the operator stands
      have htail : Token.SpansIn F ts.tail := fun t ht => hts t (List.mem_of_mem_tail ht)
      refine (ih.binary htail).bind ?_
      rintro ⟨rhs, ts'⟩ - ⟨hrhs, hts'⟩
      refine ih.operators (spansIn_iff.mpr ⟨hF.union hlhs.span hrhs.span, ?_⟩) hts'
      exact List.forall_mem_cons.mpr ⟨hlhs, List.forall_mem_singleton.mpr hrhs⟩

/-- An operator before its operand. -/
theorem ReadsWithin.unary_succ (hF : Span.Joins F stop) (ih : ReadsWithin F stop n)
    (hts : Token.SpansIn F ts) :
    YieldsIn F (SpansIn F) (Reader.unary stop (n + 1) ts) := by
  unfold Reader.unary
  split
  · exact ih.postfixed hts
  · split
    · exact ih.postfixed hts
    · obtain ⟨ht, hrest⟩ := List.forall_mem_cons.mp hts
      refine (ih.unary hrest).bind ?_
      rintro ⟨e, ts'⟩ - ⟨he, hts'⟩
      -- here the token of the operator is where the range starts
      refine ⟨spansIn_iff.mpr ⟨?_, ?_⟩, hts'⟩
      · exact hF.union ht he.span
      · exact List.forall_mem_singleton.mpr he

/-- What stands alone, and the names behind it. -/
theorem ReadsWithin.postfixed_succ (ih : ReadsWithin F stop n) (hts : Token.SpansIn F ts) :
    YieldsIn F (SpansIn F) (Reader.postfixed stop (n + 1) ts) := by
  unfold Reader.postfixed
  refine (ih.primary hts).bind ?_
  rintro ⟨base, ts'⟩ - ⟨hbase, hts'⟩
  exact ih.selectors hbase hts'

/-- A field or a method, and the names behind it. -/
theorem ReadsWithin.selectors_succ (hF : Span.Joins F stop) (ih : ReadsWithin F stop n) {base : Expr}
    (hbase : base.SpansIn F) (hts : Token.SpansIn F ts) :
    YieldsIn F (SpansIn F) (Reader.selectors stop (n + 1) base ts) := by
  unfold Reader.selectors
  split
  · exact ⟨hbase, hts⟩
  · next hdot =>
    -- a name behind the dot, and what it selects keeps its range
    have hrest := (mark?_spansIn hdot hts).2
    refine (word_yields hF hrest _).bind ?_
    rintro ⟨⟨path, s⟩, ts'⟩ - ⟨hs, hts'⟩
    dsimp only
    split
    · exact ih.selectors (fields_spansIn hF hbase hs _) hts'
    · next hopen =>
      -- the last name is a method: those before it are fields of what it is called on
      have hfields := fields_spansIn hF hbase hs
        ((pieces '.' path.toList).map String.ofList).dropLast
      refine (ih.arguments (mark?_spansIn hopen hts').2).bind ?_
      rintro ⟨⟨args, close⟩, ts''⟩ - ⟨⟨hargs, hclose⟩, hts''⟩
      refine ih.selectors (spansIn_iff.mpr ⟨hF.union (hF.union hfields.span hs) hclose, ?_⟩) hts''
      exact List.forall_mem_cons.mpr ⟨hfields, hargs⟩

/-- Arguments up to their parenthesis. -/
theorem ReadsWithin.arguments_succ (hF : Span.Joins F stop) (ih : ReadsWithin F stop n)
    (hts : Token.SpansIn F ts) :
    YieldsIn F (fun a => (∀ e ∈ a.1, e.SpansIn F) ∧ F a.2) (Reader.arguments stop (n + 1) ts) := by
  unfold Reader.arguments
  split
  · next hclose =>
    obtain ⟨hclose, hrest⟩ := mark?_spansIn hclose hts
    exact ⟨⟨List.forall_mem_nil _, hclose⟩, hrest⟩
  · refine (ih.items hts).bind ?_
    rintro ⟨args, ts'⟩ - ⟨hargs, hts'⟩
    refine (mark_yields hF hts' _).bind ?_
    rintro ⟨close, ts''⟩ - ⟨hclose, hts''⟩
    exact ⟨⟨hargs, hclose⟩, hts''⟩

/-- Items with commas between them. -/
theorem ReadsWithin.items_succ (ih : ReadsWithin F stop n) (hts : Token.SpansIn F ts) :
    YieldsIn F (fun es => ∀ e ∈ es, e.SpansIn F) (Reader.items stop (n + 1) ts) := by
  unfold Reader.items
  refine (ih.binary hts).bind ?_
  rintro ⟨e, ts'⟩ - ⟨he, hts'⟩
  dsimp only
  split
  · exact ⟨List.forall_mem_singleton.mpr he, hts'⟩
  · next hcomma =>
    refine (ih.items (mark?_spansIn hcomma hts').2).bind ?_
    rintro ⟨es, ts''⟩ - ⟨hes, hts''⟩
    exact ⟨List.forall_mem_cons.mpr ⟨he, hes⟩, hts''⟩

/-- The items of a list up to its bracket. -/
theorem ReadsWithin.listItems_succ (hF : Span.Joins F stop) (ih : ReadsWithin F stop n)
    (hts : Token.SpansIn F ts) :
    YieldsIn F (fun a => (∀ e ∈ a.1, e.SpansIn F) ∧ F a.2) (Reader.listItems stop (n + 1) ts) := by
  unfold Reader.listItems
  split
  · next hclose =>
    obtain ⟨hclose, hrest⟩ := mark?_spansIn hclose hts
    exact ⟨⟨List.forall_mem_nil _, hclose⟩, hrest⟩
  · refine (ih.binary hts).bind ?_
    rintro ⟨e, ts'⟩ - ⟨he, hts'⟩
    dsimp only
    split
    -- the bracket at the end is found by the reader of the rest or here
    · next hcomma =>
      refine (ih.listItems (mark?_spansIn hcomma hts').2).bind ?_
      rintro ⟨⟨es, close⟩, ts''⟩ - ⟨⟨hes, hclose⟩, hts''⟩
      exact ⟨⟨List.forall_mem_cons.mpr ⟨he, hes⟩, hclose⟩, hts''⟩
    · refine (mark_yields hF hts' _).bind ?_
      rintro ⟨close, ts''⟩ - ⟨hclose, hts''⟩
      exact ⟨⟨List.forall_mem_singleton.mpr he, hclose⟩, hts''⟩

/-- What stands alone. -/
theorem ReadsWithin.primary_succ (hF : Span.Joins F stop) (ih : ReadsWithin F stop n)
    (hts : Token.SpansIn F ts) :
    YieldsIn F (SpansIn F) (Reader.primary stop (n + 1) ts) := by
  -- a constant, a variable and a name have no parts
  have hleaf : ∀ {e : Expr}, e.children = [] → F e.span → e.SpansIn F := by
    intro e hchildren he
    rw [spansIn_iff, hchildren]
    exact ⟨he, List.forall_mem_nil _⟩
  unfold Reader.primary
  split
  · exact (List.forall_mem_cons.mp hts).imp_left (hleaf rfl)
  · exact (List.forall_mem_cons.mp hts).imp_left (hleaf rfl)
  · exact (List.forall_mem_cons.mp hts).imp_left (hleaf rfl)
  · exact (List.forall_mem_cons.mp hts).imp_left (hleaf rfl)
  · -- a word is a constant, a name or, before a bracket, a function
    obtain ⟨hs, hrest⟩ := List.forall_mem_cons.mp hts
    split
    · exact ⟨hleaf rfl hs, hrest⟩
    · split
      · exact ⟨hleaf rfl hs, hrest⟩
      · next hopen =>
        refine (ih.arguments (mark?_spansIn hopen hrest).2).bind ?_
        rintro ⟨⟨args, close⟩, ts'⟩ - ⟨⟨hargs, hclose⟩, hts'⟩
        exact ⟨spansIn_iff.mpr ⟨hF.union hs hclose, hargs⟩, hts'⟩
  · -- what stands in brackets keeps its own range
    obtain ⟨-, hrest⟩ := List.forall_mem_cons.mp hts
    refine (ih.binary hrest).bind ?_
    rintro ⟨e, ts'⟩ - ⟨he, hts'⟩
    refine (mark_yields hF hts' _).bind ?_
    rintro ⟨close, ts''⟩ - ⟨-, hts''⟩
    exact ⟨he, hts''⟩
  · obtain ⟨hs, hrest⟩ := List.forall_mem_cons.mp hts
    refine (ih.listItems hrest).bind ?_
    rintro ⟨⟨es, close⟩, ts'⟩ - ⟨⟨hes, hclose⟩, hts'⟩
    exact ⟨spansIn_iff.mpr ⟨hF.union hs hclose, hes⟩, hts'⟩
  · exact unexpected_spansIn hF hts _

/-- **The readers** answer expressions whose ranges are joined from those of tokens, and fail at
tokens. -/
theorem readsWithin (hF : Span.Joins F stop) (n : Nat) : ReadsWithin F stop n := by
  induction n with
  | zero => exact readsWithin_zero hF
  | succ n ih =>
    exact ⟨ih.binary_succ, ih.operators_succ hF, ih.unary_succ hF, ih.postfixed_succ,
      ih.selectors_succ hF, ih.arguments_succ hF, ih.items_succ, ih.listItems_succ hF,
      ih.primary_succ hF⟩

/-- The range of a directive is joined from its mark, its name and its arguments. -/
theorem directives_yields (hF : Span.Joins F stop) (fuel : Nat) (hts : Token.SpansIn F ts) :
    YieldsIn F (fun ds => ∀ d ∈ ds, d.SpansIn F) (directives stop fuel ts) := by
  induction fuel generalizing ts with
  | zero => exact ⟨List.forall_mem_nil _, hts⟩
  | succ fuel ih =>
    unfold directives
    split
    · exact ⟨List.forall_mem_nil _, hts⟩
    · next hbar =>
      obtain ⟨hbar, hrest⟩ := mark?_spansIn hbar hts
      refine (word_yields hF hrest _).bind ?_
      rintro ⟨⟨name, s⟩, ts'⟩ - ⟨hs, hts'⟩
      have hname := hF.union hbar hs
      dsimp only
      split
      · refine (ih hts').bind ?_
        rintro ⟨more, ts''⟩ - ⟨hmore, hts''⟩
        refine ⟨?_, hts''⟩
        exact List.forall_mem_cons.mpr ⟨⟨hname, List.forall_mem_nil _⟩, hmore⟩
      -- arguments are read on fuel of their own, as much as their tokens need
      · next hcolon =>
        have hrest := (mark?_spansIn hcolon hts').2
        refine ((readsWithin hF (depth _)).items hrest).bind ?_
        rintro ⟨args, ts₁⟩ - ⟨hargs, hts₁⟩
        refine (ih hts₁).bind ?_
        rintro ⟨more, ts''⟩ - ⟨hmore, hts''⟩
        refine ⟨?_, hts''⟩
        refine List.forall_mem_cons.mpr ⟨⟨?_, hargs⟩, hmore⟩
        -- the range grows with each argument
        exact List.foldlRecOn args _ hname fun t ht e he => hF.union ht (hargs e he).span

end Readers

end Reader

end Expr

/-! ### Tokens of a text -/

section Texts

variable {content : List Char} {offset : Nat} {c : Char} {cs rest : List Char}

/-- Digits are one byte each. -/
theorem Text.byteLength_of_isDigit {ds : List Char} (h : ∀ d ∈ ds, d.isDigit = true) :
    byteLength ds = ds.length := by
  induction ds with
  | nil => rfl
  | cons d ds ih =>
    obtain ⟨hd, hds⟩ := List.forall_mem_cons.mp h
    have hsize : d.utf8Size = 1 := by
      rw [Char.utf8Size_eq_one_iff]
      simp only [Char.isDigit, Bool.and_eq_true, decide_eq_true_eq] at hd
      exact UInt32.le_trans hd.2 (by decide)
    rw [byteLength_cons, ih hds, hsize, List.length_cons, Nat.add_comm]

/-- A number that is too large is pointed at with all its digits. -/
theorem Token.numberAt_yields (h : StandsAt content offset (c :: rest)) (hc : c.isDigit = true) :
    ReadsIn content (fun _ => True) (numberAt offset c rest) := by
  have hinteger : ReadsIn content (fun _ => True)
      (numberAt.integer offset (c :: rest.takeWhile Char.isDigit)) := by
    have hfront : (c :: rest.takeWhile Char.isDigit) <+: c :: rest :=
      List.cons_prefix_cons.mpr ⟨rfl, List.takeWhile_prefix _⟩
    have hdigits : ∀ d ∈ c :: rest.takeWhile Char.isDigit, d.isDigit = true :=
      List.forall_mem_cons.mpr ⟨hc, fun d hd => mem_takeWhile_imp hd⟩
    -- the range counts digits, of which each is one byte
    have hfits := (h.shorten hfront).fits
    rw [byteLength_of_isDigit hdigits] at hfits
    unfold numberAt.integer
    split
    · trivial
    · exact hfits
  unfold numberAt
  dsimp only
  -- only an integer can be too large; a fraction is always a number
  split
  · split
    · trivial
    · exact hinteger
  · exact hinteger

/-- An error in a token points at the token, as far as it goes. -/
theorem Token.readLexeme_yields (h : StandsAt content offset (c :: rest)) :
    ReadsIn content (fun _ => True) (readLexeme offset c rest) := by
  have hfirst : Span.Fits content ⟨offset, offset + c.utf8Size⟩ := (h.take 1).fits
  unfold readLexeme
  split
  · -- a dollar sign without a name
    next hc =>
    subst hc
    dsimp only
    split
    · exact hfirst
    · trivial
  · split
    · trivial
    · split
      · next hdigit => exact numberAt_yields h hdigit
      · split
        -- a string without its end goes on to the end of the text
        · split
          · trivial
          · exact h.fits
        -- a character that starts no token
        · split
          · trivial
          · exact hfirst

/-- **Tokens** fit the text that they are read from, and so do the errors on the way to them. -/
theorem tokens_yields (h : StandsAt content offset cs) :
    ReadsIn content (Token.SpansIn (Span.Fits content)) (tokens offset cs) := by
  fun_induction tokens offset cs with
  | case1 => exact List.forall_mem_nil _
  | case2 offset c cs hc ih => exact ih (h.drop 1)
  | case3 offset c cs hc ih =>
    refine (Token.readLexeme_yields h).bind ?_
    rintro ⟨l, n⟩ - -
    have htoken := (h.take (n + 1)).fits
    refine (ih n (h.drop (n + 1))).bind fun more _ hmore => ?_
    exact List.forall_mem_cons.mpr ⟨htoken, hmore⟩

/-! ### Expressions of a text -/

namespace Expr

open Reader

/-- Ranges that fit the text of an expression are joined to ranges that do. -/
theorem joins_fits (h : StandsAt content offset cs) :
    Span.Joins (Span.Fits content) (offset + byteLength cs) :=
  ⟨Span.Fits.union, h.fits.after⟩

/-- Every part of an expression fits the text, and so does the error if there is none. -/
theorem parse_yields (h : StandsAt content offset cs) :
    ReadsIn content (SpansIn (Span.Fits content)) (parse offset cs) := by
  have hF := joins_fits h
  unfold parse
  dsimp only
  refine (tokens_yields h).bind fun ts _ hts => ?_
  refine ((readsWithin hF (depth ts)).binary hts).bind ?_
  rintro ⟨e, ts'⟩ - ⟨he, hts'⟩
  exact (finish_yields hF hts').bind fun _ _ _ => he

/-- The expression of a print and its directives fit the text. -/
theorem parsePrint_yields (h : StandsAt content offset cs) :
    ReadsIn content
      (fun a => a.1.SpansIn (Span.Fits content) ∧ ∀ d ∈ a.2, d.SpansIn (Span.Fits content))
      (parsePrint offset cs) := by
  have hF := joins_fits h
  unfold parsePrint
  dsimp only
  refine (tokens_yields h).bind fun ts _ hts => ?_
  refine ((readsWithin hF (depth ts)).binary hts).bind ?_
  rintro ⟨e, ts'⟩ - ⟨he, hts'⟩
  refine (directives_yields hF ts'.length hts').bind ?_
  rintro ⟨ds, ts''⟩ - ⟨hds, hts''⟩
  exact (finish_yields hF hts'').bind fun _ _ _ => ⟨he, hds⟩

/-- The list of a loop fits the text. -/
theorem parseLoop_yields (h : StandsAt content offset cs) :
    ReadsIn content (fun a => a.2.SpansIn (Span.Fits content)) (parseLoop offset cs) := by
  have hF := joins_fits h
  unfold parseLoop
  dsimp only
  refine (tokens_yields h).bind fun ts _ hts => ?_
  -- each reader hands on tokens whose spans still fit
  refine (variableName_yields hF hts).bind ?_
  rintro ⟨x, ts₁⟩ - ⟨-, hts₁⟩
  refine (keyword_yields hF hts₁ "in").bind ?_
  rintro ⟨_, ts₂⟩ - ⟨-, hts₂⟩
  refine ((readsWithin hF (depth ts₂)).binary hts₂).bind ?_
  rintro ⟨e, ts₃⟩ - ⟨he, hts₃⟩
  exact (finish_yields hF hts₃).bind fun _ _ _ => he

end Expr

end Texts

end TemplateFrontend
