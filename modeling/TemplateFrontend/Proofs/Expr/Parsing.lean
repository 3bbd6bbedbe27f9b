import TemplateFrontend.Proofs.Expr.Grammar
import TemplateFrontend.Proofs.Readers
/-!
# Reading expressions follows the grammar

The readers of expressions call each other on fuel and climb by precedence. Here they are compared
with the grammar, in which operators are stratified. What is read for a print command or a loop is put
together of tokens in the same way; directives have arguments that the grammar of expressions derives.

* `Expr.Reader.ReadsSoundly`, `Expr.Reader.readsSoundly` — whatever the readers read, the grammar
  derives, by induction on fuel;
* `Expr.Reader.Reads`, `Expr.Reader.reads_of_derives` — whatever the grammar derives, the readers
  read, by induction on derivations;
* `Expr.Reader.whole_eq_ok_iff` — a list of tokens is read in full if and only if it is an
  expression;
* `Expr.parse_eq_ok_iff` — the same for texts;
* `Expr.AreDirectives` — the tokens of directives;
* `Expr.exists_of_directives_ok` — what is read as directives has such tokens;
* `Expr.exists_of_parsePrint_ok`, `Expr.exists_of_parseLoop_ok` — the tokens of a print command and of
  a loop.
-/

namespace TemplateFrontend.Expr

namespace Reader

/-! ### Single tokens -/

section Tokens

variable {m : Mark} {s : Span} {stop : Stop} {ts rest : List Token}

/-- A mark that is read stood at the front. -/
theorem mark?_eq_some : mark? m ts = some (s, rest) → ts = ⟨.mark m, s⟩ :: rest := by
  unfold mark?
  split
  · split
    · next h =>
      intro he
      obtain ⟨rfl, rfl⟩ := Prod.mk.inj (Option.some.inj he)
      rw [h]
    · intro he
      cases he
  · intro he
    cases he

@[simp] theorem mark?_cons_self (m : Mark) (s : Span) (ts : List Token) :
    mark? m (⟨.mark m, s⟩ :: ts) = some (s, ts) := by
  simp [mark?]

/-- No mark is read where another token stands. -/
theorem mark?_of_ne (h : ∀ t ∈ ts.head?, t.lexeme ≠ .mark m) : mark? m ts = none := by
  unfold mark?
  split
  · next m' s' rest' =>
    have hne : m' ≠ m := fun he => h _ rfl (by rw [he])
    rw [if_neg hne]
  · rfl

/-- A mark that is asked for and read stood at the front. -/
theorem mark_eq_ok {a : Span × List Token} (h : mark stop m ts = .ok a) :
    ts = ⟨.mark m, a.1⟩ :: a.2 := by
  unfold mark at h
  split at h
  · split at h
    · next hm =>
      obtain rfl := Except.ok.inj h
      rw [hm]
    · cases h
  · cases h

@[simp] theorem mark_cons_self (stop : Stop) (m : Mark) (s : Span) (ts : List Token) :
    mark stop m (⟨.mark m, s⟩ :: ts) = .ok (s, ts) := by
  simp [mark]

/-- So did a word that is asked for and read. -/
theorem word_eq_ok {expected : String} {a : (String × Span) × List Token}
    (h : word stop expected ts = .ok a) : ts = ⟨.word a.1.1, a.1.2⟩ :: a.2 := by
  unfold word at h
  split at h
  · obtain rfl := Except.ok.inj h
    rfl
  · cases h

@[simp] theorem word_cons_self (stop : Stop) (expected w : String) (s : Span) (ts : List Token) :
    word stop expected (⟨.word w, s⟩ :: ts) = .ok ((w, s), ts) := rfl

/-- And the variable of a loop. -/
theorem exists_of_variableName_ok {x : String} (h : variableName stop ts = .ok (x, rest)) :
    ∃ s, ts = ⟨.var x, s⟩ :: rest := by
  unfold variableName at h
  split at h
  · obtain ⟨rfl, rfl⟩ := Prod.mk.inj (Except.ok.inj h)
    exact ⟨_, rfl⟩
  · cases h

/-- And a keyword, which is a word. -/
theorem exists_of_keyword_ok {w : String} {u : Unit} (h : keyword stop w ts = .ok (u, rest)) :
    ∃ s, ts = ⟨.word w, s⟩ :: rest := by
  unfold keyword at h
  split at h
  · split at h
    · next hw =>
      obtain ⟨-, rfl⟩ := Prod.mk.inj (Except.ok.inj h)
      exact ⟨_, by rw [hw]⟩
    · cases h
  · cases h

/-- The end is read exactly where no token is left. -/
theorem finish_eq_ok : finish stop ts = .ok () ↔ ts = [] := by
  cases ts <;> simp [finish]

end Tokens

/-- The operators that the readers know are those of the grammar. -/
theorem binaryOp?_eq_some {l : Lexeme} {op : BinaryOp} : binaryOp? l = some op ↔ l = op.lexeme := by
  constructor
  · intro h
    unfold binaryOp? at h
    split at h <;> (try cases h) <;> (try rfl)
    -- `and` and `or` are words, the others are marks
    · split at h
      · next hw =>
        cases h
        rw [hw]
        rfl
      · split at h
        · next hw =>
          cases h
          rw [hw]
          rfl
        · cases h
  · rintro rfl
    -- each operator has a lexeme of its own
    cases op <;> rfl

/-- The same for the operators before an operand. -/
theorem unaryOp?_eq_some {l : Lexeme} {op : UnaryOp} : unaryOp? l = some op ↔ l = op.lexeme := by
  constructor
  · intro h
    -- `not` is a word, `-` is a mark
    unfold unaryOp? at h
    split at h
    · split at h
      · next hw =>
        cases h
        rw [hw]
        rfl
      · cases h
    · cases h
      rfl
    · cases h
  · rintro rfl
    cases op <;> rfl

/-- The words that the readers take for constants are those of the grammar. -/
theorem constant?_eq_some {w : String} {v : Literal} :
    constant? w = some v ↔ (w, v) ∈ constantWords := by
  simp only [constant?, constantWords, List.mem_cons, Prod.mk.injEq, List.not_mem_nil, or_false]
  split
  · next h => simp [h, eq_comm]
  · split
    · next h => simp [h, eq_comm]
    · split
      · next h => simp [h, eq_comm]
      · simp [*]

/-! ### What may follow -/

/-- The operator that the next token is between two operands. -/
def nextOp? (ts : List Token) : Option BinaryOp := ts.head?.bind (binaryOp? ·.lexeme)

/-- No operator that binds tighter than `floor` comes next. -/
def Stops (floor : Nat) (ts : List Token) : Prop := ∀ op ∈ nextOp? ts, op.precedence ≤ floor

/-- There are six ranks, so no operator binds tighter than the sixth. -/
theorem stops_of_six_le {floor : Nat} (h : 6 ≤ floor) (ts : List Token) : Stops floor ts := by
  intro op _
  have hop : op.precedence ≤ 6 := by cases op <;> decide
  exact Nat.le_trans hop h

/-! ### Soundness -/

/-- The tokens are the arguments, which the grammar derives, with commas between them. -/
structure Itemized (args : List (List Token × Expr)) (inner : List Token) : Prop where
  derives : ∀ x ∈ args, Derives (.joined .disjunction) x.1 x.2
  separated : CommaSeparated (args.map (·.1)) inner

/-- No arguments are no tokens. -/
theorem Itemized.nil : Itemized [] [] := ⟨fun _ hx => absurd hx List.not_mem_nil, .nil⟩

/-- One argument is its own tokens. -/
theorem Itemized.one {ts : List Token} {e : Expr} (h : Derives (.joined .disjunction) ts e) :
    Itemized [(ts, e)] ts :=
  ⟨fun _ hx => List.mem_singleton.mp hx ▸ h, .one ts⟩

/-- One argument more, with a comma behind it. -/
theorem Itemized.cons {ts inner : List Token} {e : Expr} {args : List (List Token × Expr)} (s : Span)
    (h : Derives (.joined .disjunction) ts e) (hne : args ≠ []) (hargs : Itemized args inner) :
    Itemized ((ts, e) :: args) (ts ++ ⟨.mark .comma, s⟩ :: inner) := by
  refine ⟨List.forall_mem_cons.mpr ⟨h, hargs.derives⟩, ?_⟩
  cases args with
  | nil => exact absurd rfl hne
  | cons x args => exact .cons hargs.separated

/-- What the readers read with fuel `n`, the grammar derives from the tokens that they took. -/
structure ReadsSoundly (stop : Stop) (n : Nat) : Prop where
  binary : ∀ {floor ts e rest}, binary stop n floor ts = .ok (e, rest) →
    ∃ used, ts = used ++ rest ∧ Derives (.above floor) used e ∧ Stops floor rest
  /-- The left operand was derived already, and an operator that binds tighter than those in it
  does not follow. -/
  operators : ∀ {floor q before lhs ts e rest}, Derives (.above q) before lhs → floor ≤ q →
    Stops (q + 1) ts → operators stop n floor lhs ts = .ok (e, rest) →
    ∃ used, ts = used ++ rest ∧ Derives (.above floor) (before ++ used) e ∧ Stops floor rest
  unary : ∀ {ts e rest}, unary stop n ts = .ok (e, rest) →
    ∃ used, ts = used ++ rest ∧ Derives .prefixed used e
  /-- The word `not` is an operator before an operand, and read before this reader is called. -/
  postfixed : ∀ {ts e rest}, (∀ t ∈ ts.head?, t.lexeme ≠ .word "not") →
    postfixed stop n ts = .ok (e, rest) → ∃ used, ts = used ++ rest ∧ Derives .postfixed used e
  selectors : ∀ {before base ts e rest}, Derives .postfixed before base →
    selectors stop n base ts = .ok (e, rest) →
    ∃ used, ts = used ++ rest ∧ Derives .postfixed (before ++ used) e
  arguments : ∀ {ts es close rest}, arguments stop n ts = .ok ((es, close), rest) →
    ∃ args inner, ts = inner ++ ⟨.mark .closeParen, close⟩ :: rest ∧ Itemized args inner ∧
      es = args.map (·.2)
  items : ∀ {ts es rest}, items stop n ts = .ok (es, rest) →
    ∃ args inner, ts = inner ++ rest ∧ Itemized args inner ∧ args ≠ [] ∧ es = args.map (·.2)
  listItems : ∀ {ts es close rest}, listItems stop n ts = .ok ((es, close), rest) →
    ∃ args inner trail, ts = inner ++ trail ++ ⟨.mark .closeBracket, close⟩ :: rest ∧
      Itemized args inner ∧ es = args.map (·.2) ∧
      (trail = [] ∨ args ≠ [] ∧ ∃ s, trail = [⟨.mark .comma, s⟩])
  primary : ∀ {ts e rest}, (∀ t ∈ ts.head?, t.lexeme ≠ .word "not") →
    primary stop n ts = .ok (e, rest) → ∃ used, ts = used ++ rest ∧ Derives .primary used e

section Soundness

variable {stop : Stop} {n : Nat}

/-- Without fuel nothing is read. -/
theorem readsSoundly_zero (stop : Stop) : ReadsSoundly stop 0 := by
  constructor <;> intros <;> rename_i h <;>
    simp only [binary, operators, unary, postfixed, selectors, arguments, items, listItems, primary,
      reduceCtorEq] at h

/-- An operand is read and then the loop over operators goes on from it. -/
theorem ReadsSoundly.binary_succ (ih : ReadsSoundly stop n) {floor : Nat} {ts rest : List Token}
    {e : Expr} (h : Reader.binary stop (n + 1) floor ts = .ok (e, rest)) :
    ∃ used, ts = used ++ rest ∧ Derives (.above floor) used e ∧ Stops floor rest := by
  unfold Reader.binary at h
  obtain ⟨⟨lhs, ts'⟩, hlhs, hgoes⟩ := exists_of_bind_ok h
  obtain ⟨before, rfl, hbefore⟩ := ih.unary hlhs
  -- an operand binds tighter than every operator
  have habove : Derives (.above (max 6 floor)) before lhs := by
    obtain ⟨k, hk⟩ : ∃ k, max 6 floor = k + 6 := ⟨max 6 floor - 6, by omega⟩
    rw [hk]
    exact hbefore
  obtain ⟨used, rfl, hused, hstops⟩ :=
    ih.operators habove (Nat.le_max_right _ _) (stops_of_six_le (by omega) _) hgoes
  exact ⟨before ++ used, (List.append_assoc ..).symm, hused, hstops⟩

/-- **The loop over operators.** What was read so far, `before`, becomes the left operand of the next
operator that binds tighter than the floor; it has the rank of that operator, since otherwise an earlier
round would have gone on (`hnext`). -/
theorem ReadsSoundly.operators_succ (ih : ReadsSoundly stop n) {floor q : Nat}
    {before ts rest : List Token} {lhs e : Expr} (hlhs : Derives (.above q) before lhs)
    (hq : floor ≤ q) (hnext : Stops (q + 1) ts)
    (h : Reader.operators stop (n + 1) floor lhs ts = .ok (e, rest)) :
    ∃ used, ts = used ++ rest ∧ Derives (.above floor) (before ++ used) e ∧ Stops floor rest := by
  -- nothing more is read
  have hend : Stops floor ts → (Except.ok (lhs, ts) : Answer _) = .ok (e, rest) →
      ∃ used, ts = used ++ rest ∧ Derives (.above floor) (before ++ used) e ∧ Stops floor rest := by
    intro hstops he
    obtain ⟨rfl, rfl⟩ := Prod.mk.inj (Except.ok.inj he)
    exact ⟨[], rfl, (List.append_nil before).symm ▸ hlhs.of_le hq, hstops⟩
  unfold Reader.operators at h
  split at h
  · next hnone =>
    refine hend ?_ h
    intro op hop
    rw [nextOp?, hnone] at hop
    cases hop
  · next op hsome =>
    split at h
    · next hle =>
      refine hend ?_ h
      intro op' hop'
      rw [nextOp?, hsome] at hop'
      cases hop'
      exact hle
    · next hgt =>
      obtain ⟨⟨rhs, ts'⟩, hrhs, hgoes⟩ := exists_of_bind_ok h
      obtain ⟨t, us, rfl, ht⟩ : ∃ t us, ts = t :: us ∧ binaryOp? t.lexeme = some op := by
        cases ts with
        | nil => cases hsome
        | cons t us => exact ⟨t, us, rfl, hsome⟩
      obtain ⟨r, hr⟩ := Rank.exists_of_op op
      have hprec : op.precedence = r.precedence := Rank.mem_operators_iff.mp hr
      obtain ⟨right, hus, hright, hstops⟩ := ih.binary hrhs
      -- the operator is allowed behind what was read, so its rank is not above that
      have hqr : r.precedence - 1 ≤ q := by
        have hop := hnext op (by rw [nextOp?, hsome]; rfl)
        omega
      -- the new left operand has the rank of the operator
      have hjoined : Derives (.joined r) (before ++ t :: right)
          (.binary (place (lhs.span.union rhs.span)) op lhs rhs) := by
        refine .binary hr (binaryOp?_eq_some.mp ht) ?_ ?_
        · rw [← Symbol.above_precedence_sub r]
          exact hlhs.of_le hqr
        · rw [← Symbol.above_precedence r, ← hprec]
          exact hright
      rw [← Symbol.above_precedence_sub r] at hjoined
      have hpos := r.precedence_pos
      have hstops' : Stops (r.precedence - 1 + 1) ts' := by
        rw [Nat.sub_add_cancel hpos, ← hprec]
        exact hstops
      -- the loop goes on behind the new operand
      obtain ⟨used, hts', hused, hrest⟩ := ih.operators hjoined (by omega) hstops' hgoes
      refine ⟨t :: right ++ used, ?_, ?_, hrest⟩
      · rw [List.tail_cons] at hus
        rw [hus, hts', List.cons_append, List.cons_append, List.append_assoc]
      · rw [← List.append_assoc]
        exact hused

/-- A prefix operator with its operand, or what has none. -/
theorem ReadsSoundly.unary_succ (ih : ReadsSoundly stop n) {ts rest : List Token} {e : Expr}
    (h : Reader.unary stop (n + 1) ts = .ok (e, rest)) :
    ∃ used, ts = used ++ rest ∧ Derives .prefixed used e := by
  unfold Reader.unary at h
  cases ts with
  | nil =>
    obtain ⟨used, hts, hused⟩ := ih.postfixed (by simp) h
    exact ⟨used, hts, .unprefixed hused⟩
  | cons t ts =>
    cases hop : unaryOp? t.lexeme with
    | none =>
      simp only [hop] at h
      -- the word `not` would have been an operator, so it is no name here
      have hnot : ∀ t' ∈ (t :: ts).head?, t'.lexeme ≠ .word "not" := by
        intro t' ht' hw
        cases ht'
        rw [hw] at hop
        cases hop
      obtain ⟨used, hts, hused⟩ := ih.postfixed hnot h
      exact ⟨used, hts, .unprefixed hused⟩
    -- the operator takes the operand behind it
    | some op =>
      simp only [hop] at h
      obtain ⟨⟨operand, ts'⟩, hoperand, hend⟩ := exists_of_bind_ok h
      obtain ⟨used, rfl, hused⟩ := ih.unary hoperand
      obtain ⟨rfl, rfl⟩ := Prod.mk.inj (Except.ok.inj hend)
      exact ⟨t :: used, rfl, .unary (unaryOp?_eq_some.mp hop) hused⟩

/-- A primary expression and the selectors behind it. -/
theorem ReadsSoundly.postfixed_succ (ih : ReadsSoundly stop n) {ts rest : List Token} {e : Expr}
    (hnot : ∀ t ∈ ts.head?, t.lexeme ≠ .word "not")
    (h : Reader.postfixed stop (n + 1) ts = .ok (e, rest)) :
    ∃ used, ts = used ++ rest ∧ Derives .postfixed used e := by
  unfold Reader.postfixed at h
  obtain ⟨⟨base, ts'⟩, hbase, hgoes⟩ := exists_of_bind_ok h
  obtain ⟨before, rfl, hbefore⟩ := ih.primary hnot hbase
  obtain ⟨used, rfl, hused⟩ := ih.selectors (.unselected hbefore) hgoes
  exact ⟨before ++ used, (List.append_assoc ..).symm, hused⟩

/-- Names of fields and calls of methods, one after the other, behind the expression that was read. -/
theorem ReadsSoundly.selectors_succ (ih : ReadsSoundly stop n) {before ts rest : List Token}
    {base e : Expr} (hbase : Derives .postfixed before base)
    (h : Reader.selectors stop (n + 1) base ts = .ok (e, rest)) :
    ∃ used, ts = used ++ rest ∧ Derives .postfixed (before ++ used) e := by
  unfold Reader.selectors at h
  split at h
  -- no dot, so the base is all
  · obtain ⟨rfl, rfl⟩ := Prod.mk.inj (Except.ok.inj h)
    exact ⟨[], rfl, (List.append_nil before).symm ▸ hbase⟩
  · next d ts' hdot =>
    obtain ⟨⟨⟨path, s⟩, us⟩, hpath, hgoes⟩ := exists_of_bind_ok h
    obtain rfl := mark?_eq_some hdot
    obtain rfl := word_eq_ok hpath
    dsimp only at hgoes
    -- with a parenthesis behind it the last of the names is that of a method
    cases hopen : mark? .openParen us with
    | none =>
      simp only [hopen] at hgoes
      obtain ⟨used, rfl, hused⟩ := ih.selectors (.fields hbase) hgoes
      exact ⟨⟨.mark .dot, d⟩ :: ⟨.word path, s⟩ :: used, rfl, by simpa using hused⟩
    | some ous =>
      obtain ⟨o, us'⟩ := ous
      simp only [hopen] at hgoes
      obtain ⟨⟨⟨es, close⟩, vs⟩, hargs, hmore⟩ := exists_of_bind_ok hgoes
      obtain rfl := mark?_eq_some hopen
      obtain ⟨args, inner, rfl, hitemized, rfl⟩ := ih.arguments hargs
      have hmethod :=
        @Derives.method before inner base _ d s o close path args hbase hitemized.derives
          hitemized.separated rfl
      obtain ⟨used, rfl, hused⟩ := ih.selectors hmethod hmore
      refine ⟨⟨.mark .dot, d⟩ :: ⟨.word path, s⟩ :: ⟨.mark .openParen, o⟩ ::
        (inner ++ [⟨.mark .closeParen, close⟩]) ++ used, by simp, ?_⟩
      rw [← List.append_assoc]
      exact hused

/-- The arguments of a call, up to the parenthesis. -/
theorem ReadsSoundly.arguments_succ (ih : ReadsSoundly stop n) {ts rest : List Token}
    {es : List Expr} {close : Span}
    (h : Reader.arguments stop (n + 1) ts = .ok ((es, close), rest)) :
    ∃ args inner, ts = inner ++ ⟨.mark .closeParen, close⟩ :: rest ∧ Itemized args inner ∧
      es = args.map (·.2) := by
  unfold Reader.arguments at h
  split at h
  -- closed at once, or items and then the parenthesis
  · next c ts' hclose =>
    obtain ⟨hes, rfl⟩ := Prod.mk.inj (Except.ok.inj h)
    obtain ⟨rfl, rfl⟩ := Prod.mk.inj hes
    exact ⟨[], [], mark?_eq_some hclose, .nil, rfl⟩
  · obtain ⟨⟨es', us⟩, hitems, hgoes⟩ := exists_of_bind_ok h
    obtain ⟨⟨c, us'⟩, hclose, hend⟩ := exists_of_bind_ok hgoes
    obtain ⟨args, inner, rfl, hitemized, -, rfl⟩ := ih.items hitems
    obtain rfl := mark_eq_ok hclose
    obtain ⟨hes, rfl⟩ := Prod.mk.inj (Except.ok.inj hend)
    obtain ⟨rfl, rfl⟩ := Prod.mk.inj hes
    exact ⟨args, inner, rfl, hitemized, rfl⟩

/-- One or more expressions with commas between them. -/
theorem ReadsSoundly.items_succ (ih : ReadsSoundly stop n) {ts rest : List Token} {es : List Expr}
    (h : Reader.items stop (n + 1) ts = .ok (es, rest)) :
    ∃ args inner, ts = inner ++ rest ∧ Itemized args inner ∧ args ≠ [] ∧ es = args.map (·.2) := by
  unfold Reader.items at h
  obtain ⟨⟨e, us⟩, he, hgoes⟩ := exists_of_bind_ok h
  obtain ⟨used, rfl, hused, -⟩ := ih.binary he
  -- the last item, or one with a comma and more behind it
  cases hcomma : mark? .comma us with
  | none =>
    simp only [hcomma] at hgoes
    obtain ⟨rfl, rfl⟩ := Prod.mk.inj (Except.ok.inj hgoes)
    exact ⟨[(used, e)], used, rfl, .one hused, List.cons_ne_nil _ _, rfl⟩
  | some sv =>
    obtain ⟨s, vs⟩ := sv
    simp only [hcomma] at hgoes
    obtain ⟨⟨es', ws⟩, hmore, hend⟩ := exists_of_bind_ok hgoes
    obtain rfl := mark?_eq_some hcomma
    obtain ⟨args, inner, rfl, hitemized, hne, rfl⟩ := ih.items hmore
    obtain ⟨rfl, rfl⟩ := Prod.mk.inj (Except.ok.inj hend)
    exact ⟨(used, e) :: args, used ++ ⟨.mark .comma, s⟩ :: inner, by simp,
      .cons s hused hne hitemized, List.cons_ne_nil _ _, rfl⟩

/-- The items of a list, up to the bracket. A comma may stand behind the last one. -/
theorem ReadsSoundly.listItems_succ (ih : ReadsSoundly stop n) {ts rest : List Token}
    {es : List Expr} {close : Span}
    (h : Reader.listItems stop (n + 1) ts = .ok ((es, close), rest)) :
    ∃ args inner trail, ts = inner ++ trail ++ ⟨.mark .closeBracket, close⟩ :: rest ∧
      Itemized args inner ∧ es = args.map (·.2) ∧
      (trail = [] ∨ args ≠ [] ∧ ∃ s, trail = [⟨.mark .comma, s⟩]) := by
  unfold Reader.listItems at h
  split at h
  -- the empty list
  · next c ts' hclose =>
    obtain ⟨hes, rfl⟩ := Prod.mk.inj (Except.ok.inj h)
    obtain ⟨rfl, rfl⟩ := Prod.mk.inj hes
    exact ⟨[], [], [], mark?_eq_some hclose, .nil, rfl, .inl rfl⟩
  · obtain ⟨⟨e, us⟩, he, hgoes⟩ := exists_of_bind_ok h
    obtain ⟨used, rfl, hused, -⟩ := ih.binary he
    cases hcomma : mark? .comma us with
    | none =>
      simp only [hcomma] at hgoes
      obtain ⟨⟨c, vs⟩, hclose, hend⟩ := exists_of_bind_ok hgoes
      obtain rfl := mark_eq_ok hclose
      obtain ⟨hes, rfl⟩ := Prod.mk.inj (Except.ok.inj hend)
      obtain ⟨rfl, rfl⟩ := Prod.mk.inj hes
      exact ⟨[(used, e)], used, [], by simp, .one hused, rfl, .inl rfl⟩
    | some sv =>
      obtain ⟨s, vs⟩ := sv
      simp only [hcomma] at hgoes
      obtain ⟨⟨⟨es', c⟩, ws⟩, hmore, hend⟩ := exists_of_bind_ok hgoes
      obtain rfl := mark?_eq_some hcomma
      obtain ⟨args, inner, trail, rfl, hitemized, rfl, htrail⟩ := ih.listItems hmore
      obtain ⟨hes, rfl⟩ := Prod.mk.inj (Except.ok.inj hend)
      obtain ⟨rfl, rfl⟩ := Prod.mk.inj hes
      cases args with
      | nil =>
        -- the comma stood before the bracket
        obtain rfl : inner = [] := by
          cases hitemized.separated
          rfl
        obtain rfl : trail = [] := htrail.resolve_right fun h => h.1 rfl
        exact ⟨[(used, e)], used, [⟨.mark .comma, s⟩], by simp, .one hused, rfl,
          .inr ⟨List.cons_ne_nil _ _, s, rfl⟩⟩
      | cons x args =>
        -- the comma separates two items, and the rest of the list ends as it may
        refine ⟨(used, e) :: x :: args, used ++ ⟨.mark .comma, s⟩ :: inner, trail, by simp,
          .cons s hused (List.cons_ne_nil _ _) hitemized, rfl, ?_⟩
        exact htrail.imp_right fun h => ⟨List.cons_ne_nil _ _, h.2⟩

/-- **Primary expressions**: variables, constants, names, calls, parentheses and lists, told apart by the
first token. -/
theorem ReadsSoundly.primary_succ (ih : ReadsSoundly stop n) {ts rest : List Token} {e : Expr}
    (hnot : ∀ t ∈ ts.head?, t.lexeme ≠ .word "not")
    (h : Reader.primary stop (n + 1) ts = .ok (e, rest)) :
    ∃ used, ts = used ++ rest ∧ Derives .primary used e := by
  unfold Reader.primary at h
  split at h
  · obtain ⟨rfl, rfl⟩ := Prod.mk.inj (Except.ok.inj h)
    exact ⟨[_], rfl, .var⟩
  · obtain ⟨rfl, rfl⟩ := Prod.mk.inj (Except.ok.inj h)
    exact ⟨[_], rfl, .constant (.int _)⟩
  · obtain ⟨rfl, rfl⟩ := Prod.mk.inj (Except.ok.inj h)
    exact ⟨[_], rfl, .constant (.float _)⟩
  · obtain ⟨rfl, rfl⟩ := Prod.mk.inj (Except.ok.inj h)
    exact ⟨[_], rfl, .constant (.string _)⟩
  · next w s us =>
    split at h
    · next v hv =>
      obtain ⟨rfl, rfl⟩ := Prod.mk.inj (Except.ok.inj h)
      exact ⟨[_], rfl, .constant (.word (constant?_eq_some.mp hv))⟩
    · next hnone =>
      -- a word that is no constant and not `not` is a name
      have hname : IsName w := by
        refine ⟨fun v hv => ?_, fun hw => hnot _ rfl (congrArg Lexeme.word hw)⟩
        rw [← constant?_eq_some, hnone] at hv
        cases hv
      split at h
      · obtain ⟨rfl, rfl⟩ := Prod.mk.inj (Except.ok.inj h)
        exact ⟨[_], rfl, .global hname⟩
      · next o vs hopen =>
        obtain ⟨⟨⟨es, c⟩, ws⟩, hargs, hend⟩ := exists_of_bind_ok h
        obtain rfl := mark?_eq_some hopen
        obtain ⟨args, inner, rfl, hitemized, rfl⟩ := ih.arguments hargs
        obtain ⟨rfl, rfl⟩ := Prod.mk.inj (Except.ok.inj hend)
        exact ⟨⟨.word w, s⟩ :: ⟨.mark .openParen, o⟩ :: (inner ++ [⟨.mark .closeParen, c⟩]), by simp,
          .call hname hitemized.derives hitemized.separated⟩
  -- an expression in parentheses is itself
  · next o us =>
    obtain ⟨⟨e', vs⟩, he, hgoes⟩ := exists_of_bind_ok h
    obtain ⟨⟨c, ws⟩, hclose, hend⟩ := exists_of_bind_ok hgoes
    obtain ⟨used, rfl, hused, -⟩ := ih.binary he
    obtain rfl := mark_eq_ok hclose
    obtain ⟨rfl, rfl⟩ := Prod.mk.inj (Except.ok.inj hend)
    exact ⟨⟨.mark .openParen, o⟩ :: (used ++ [⟨.mark .closeParen, c⟩]), by simp, .parens hused⟩
  · next o us =>
    obtain ⟨⟨⟨es, c⟩, vs⟩, hitems, hend⟩ := exists_of_bind_ok h
    obtain ⟨args, inner, trail, rfl, hitemized, rfl, htrail⟩ := ih.listItems hitems
    obtain ⟨rfl, rfl⟩ := Prod.mk.inj (Except.ok.inj hend)
    -- a list may end in a comma, if there is an item before it
    obtain rfl | ⟨hne, d, rfl⟩ := htrail
    · exact ⟨⟨.mark .openBracket, o⟩ :: (inner ++ [⟨.mark .closeBracket, c⟩]), by simp,
        .list hitemized.derives hitemized.separated⟩
    · exact ⟨⟨.mark .openBracket, o⟩ :: (inner ++ [⟨.mark .comma, d⟩, ⟨.mark .closeBracket, c⟩]),
        by simp, .listComma hne hitemized.derives hitemized.separated⟩
  · cases h

/-- **Soundness.** Whatever the readers read, the grammar derives. -/
theorem readsSoundly (stop : Stop) (n : Nat) : ReadsSoundly stop n := by
  induction n with
  -- the nine readers call each other, so they are sound together
  | zero => exact readsSoundly_zero stop
  | succ n ih =>
    exact
      { binary := ih.binary_succ
        operators := ih.operators_succ
        unary := ih.unary_succ
        postfixed := ih.postfixed_succ
        selectors := ih.selectors_succ
        arguments := ih.arguments_succ
        items := ih.items_succ
        listItems := ih.listItems_succ
        primary := ih.primary_succ }

end Soundness

/-! ### Completeness -/

/-- The tokens do not go on with fields, calls or arguments after a name. -/
structure Follows (rest : List Token) : Prop where
  dot : mark? .dot rest = none
  openParen : mark? .openParen rest = none

/-- With enough fuel the reader of a symbol reads the tokens as the expression and goes on with what
follows them. The readers that loop have read the expression when enough fuel for the rest is left. -/
def Reads (stop : Stop) (ts : List Token) (e : Expr) : Symbol → Prop
  | .joined r => ∀ n floor rest, 8 * (ts.length + rest.length) + 4 ≤ n → floor < r.precedence →
      Follows rest → Stops r.precedence rest →
      ∃ m, 8 * rest.length + 1 ≤ m ∧
        binary stop n floor (ts ++ rest) = operators stop m floor e rest
  | .prefixed => ∀ n rest, 8 * (ts.length + rest.length) + 3 ≤ n → Follows rest →
      unary stop n (ts ++ rest) = .ok (e, rest)
  | .postfixed => ∀ n rest, 8 * (ts.length + rest.length) + 2 ≤ n → mark? .openParen rest = none →
      ∃ m, 8 * rest.length + 1 ≤ m ∧ postfixed stop n (ts ++ rest) = selectors stop m e rest
  | .primary => ∀ n rest, 8 * (ts.length + rest.length) + 1 ≤ n → mark? .openParen rest = none →
      primary stop n (ts ++ rest) = .ok (e, rest)

section Completeness

variable {stop : Stop} {ts rest : List Token} {e : Expr} {r : Rank}

/-- Where no operator binds tighter than a floor, none binds tighter than a higher one. -/
theorem Stops.mono {p q : Nat} (h : Stops p ts) (hpq : p ≤ q) : Stops q ts :=
  fun op hop => Nat.le_trans (h op hop) hpq

/-- A mark that is no operator ends every loop over operators. -/
theorem stops_cons_of_mark {m : Mark} {s : Span} (hm : binaryOp? (.mark m) = none) (floor : Nat) :
    Stops floor (⟨.mark m, s⟩ :: rest) := by
  intro op hop
  change op ∈ binaryOp? (.mark m) at hop
  rw [hm] at hop
  cases hop

/-- An operator ends the loop for its own rank and tighter ones. -/
theorem stops_cons_of_op {op : BinaryOp} {t : Token} (ht : t.lexeme = op.lexeme) :
    Stops op.precedence (t :: rest) := by
  intro op' hop'
  change op' ∈ binaryOp? t.lexeme at hop'
  rw [binaryOp?_eq_some.mpr ht] at hop'
  cases hop'
  exact Nat.le_refl _

theorem follows_nil : Follows [] := ⟨rfl, rfl⟩

/-- A token that is neither a dot nor a parenthesis does not go on with a name. -/
theorem follows_cons {t : Token} (hdot : t.lexeme ≠ .mark .dot)
    (hopen : t.lexeme ≠ .mark .openParen) : Follows (t :: rest) := by
  constructor <;> refine mark?_of_ne fun t' ht' => ?_ <;> cases ht' <;> assumption

/-- An operator does not go on with a name. -/
theorem follows_cons_of_op {op : BinaryOp} {t : Token} (ht : t.lexeme = op.lexeme) :
    Follows (t :: rest) := by
  refine follows_cons ?_ ?_ <;> rw [ht] <;> cases op <;> decide

/-- The loop over operators ends where nothing binds tighter than its floor. -/
theorem operators_of_stops {n floor : Nat} (h : Stops floor rest) :
    operators stop (n + 1) floor e rest = .ok (e, rest) := by
  unfold operators
  split
  · rfl
  · next op hop => rw [if_pos (h op hop)]

/-- The loop over selectors ends where no dot follows. -/
theorem selectors_of_follows {n : Nat} (h : Follows rest) :
    selectors stop (n + 1) e rest = .ok (e, rest) := by
  unfold selectors
  rw [h.dot]

/-- An operand of a rank is read wherever the operators of that rank may follow it. -/
theorem Reads.binary_eq (h : Reads stop ts e r.operand) (n floor : Nat)
    (hn : 8 * (ts.length + rest.length) + 4 ≤ n) (hfloor : floor ≤ r.precedence)
    (hfollows : Follows rest) (hstops : Stops r.precedence rest) :
    ∃ m, 8 * rest.length + 1 ≤ m ∧
      Reader.binary stop n floor (ts ++ rest) = operators stop m floor e rest := by
  -- the next rank binds tighter, so its operators do not follow either
  have tighter {r' : Rank} (h : Reads stop ts e (.joined r')) (hr : r'.precedence = r.precedence + 1) :
      ∃ m, 8 * rest.length + 1 ≤ m ∧
        Reader.binary stop n floor (ts ++ rest) = operators stop m floor e rest :=
    h n floor rest hn (by omega) hfollows (hstops.mono (by omega))
  cases r with
  | disjunction | conjunction | equality | comparison | sum => exact tighter h rfl
  | product =>
    obtain ⟨n, rfl⟩ : ∃ k, n = k + 1 := ⟨n - 1, by omega⟩
    refine ⟨n, by omega, ?_⟩
    unfold Reader.binary
    rw [h n rest (by omega) hfollows]
    rfl

/-- What is read as an operand of a rank is read as an expression of that rank. -/
theorem Reads.operand (h : Reads stop ts e r.operand) : Reads stop ts e (.joined r) :=
  fun n floor _ hn hfloor hfollows hstops => h.binary_eq n floor hn (Nat.le_of_lt hfloor) hfollows hstops

/-- **An operator with its operands.** The loop has read the left operand when it comes to the operator, and
the right operand is read up to where nothing binds tighter. -/
theorem Reads.binary {op : BinaryOp} {t : Token} {us : List Token} {a b : Expr}
    (hop : op ∈ r.operators) (ht : t.lexeme = op.lexeme) (ha : Reads stop ts a (.joined r))
    (hb : Reads stop us b r.operand) :
    Reads stop (ts ++ t :: us) (.binary (place (a.span.union b.span)) op a b) (.joined r) := by
  intro n floor rest hn hfloor hfollows hstops
  have hprec : op.precedence = r.precedence := Rank.mem_operators_iff.mp hop
  simp only [List.length_append, List.length_cons] at hn
  -- the left operand stops before the operator and leaves fuel for the rest
  obtain ⟨m, hm, hread⟩ := ha n floor (t :: us ++ rest) (by simp; omega) hfloor
    (follows_cons_of_op ht) (hprec ▸ stops_cons_of_op ht)
  obtain ⟨m, rfl⟩ : ∃ k, m = k + 1 := ⟨m - 1, by omega⟩
  simp only [List.cons_append, List.length_cons, List.length_append] at hm
  obtain ⟨k, hk, hright⟩ := hb.binary_eq m op.precedence (by omega)
    (Nat.le_of_eq hprec) hfollows hstops
  obtain ⟨k, rfl⟩ : ∃ j, k = j + 1 := ⟨k - 1, by omega⟩
  refine ⟨m, by omega, ?_⟩
  -- the loop takes the operator, and the right operand ends where `rest` starts
  rw [List.append_assoc, hread]
  have hnext : (t :: (us ++ rest)).head?.bind (binaryOp? ·.lexeme) = some op :=
    binaryOp?_eq_some.mpr ht
  rw [List.cons_append, operators]
  simp only [hnext]
  rw [if_neg (by omega), List.tail_cons, hright, operators_of_stops (hprec ▸ hstops)]
  rfl

/-- A prefix operator with its operand. -/
theorem Reads.unary {op : UnaryOp} {t : Token} (ht : t.lexeme = op.lexeme)
    (h : Reads stop ts e .prefixed) :
    Reads stop (t :: ts) (.unary (place (t.span.union e.span)) op e) .prefixed := by
  intro n rest hn hfollows
  obtain ⟨n, rfl⟩ : ∃ k, n = k + 1 := ⟨n - 1, by omega⟩
  rw [List.length_cons] at hn
  rw [List.cons_append, Reader.unary]
  simp only [unaryOp?_eq_some.mpr ht]
  rw [h n rest (by omega) hfollows]
  rfl

/-- What starts with no prefix operator is read as it is. -/
theorem Reads.unprefixed (hderives : Derives .postfixed ts e) (h : Reads stop ts e .postfixed) :
    Reads stop ts e .prefixed := by
  intro n rest hn hfollows
  obtain ⟨n, rfl⟩ : ∃ k, n = k + 1 := ⟨n - 1, by omega⟩
  obtain ⟨m, hm, hread⟩ := h n rest (by omega) hfollows.openParen
  obtain ⟨m, rfl⟩ : ∃ k, m = k + 1 := ⟨m - 1, by omega⟩
  obtain ⟨t, us, rfl, ht⟩ := hderives.exists_opening
  -- the grammar says with which tokens such an expression starts
  have hnone : unaryOp? t.lexeme = none := by
    cases hop : unaryOp? t.lexeme with
    | none => rfl
    | some op => exact absurd (unaryOp?_eq_some.mp hop) (ht.notPrefix (.inl rfl) op)
  rw [selectors_of_follows hfollows] at hread
  rw [List.cons_append] at hread ⊢
  rw [Reader.unary]
  simp only [hnone]
  exact hread

/-- A dot and a word, which may name several fields at once. -/
theorem Reads.fields {b : Expr} {d s : Span} {w : String} (h : Reads stop ts b .postfixed) :
    Reads stop (ts ++ [⟨.mark .dot, d⟩, ⟨.word w, s⟩]) (fields s b (dottedNames w)) .postfixed := by
  intro n rest hn hopen
  simp only [List.length_append, List.length_cons, List.length_nil] at hn
  obtain ⟨m, hm, hread⟩ := h n (⟨.mark .dot, d⟩ :: ⟨.word w, s⟩ :: rest) (by simp; omega) rfl
  obtain ⟨m, rfl⟩ : ∃ k, m = k + 1 := ⟨m - 1, by omega⟩
  simp only [List.length_cons] at hm
  refine ⟨m, by omega, ?_⟩
  rw [List.append_assoc, List.cons_append, List.cons_append, List.nil_append, hread, selectors,
    mark?_cons_self]
  simp only [word, ok_bind, hopen, dottedNames]

/-- A primary expression without selectors. -/
theorem Reads.unselected (h : Reads stop ts e .primary) : Reads stop ts e .postfixed := by
  intro n rest hn hopen
  obtain ⟨n, rfl⟩ : ∃ k, n = k + 1 := ⟨n - 1, by omega⟩
  refine ⟨n, by omega, ?_⟩
  rw [postfixed, h n rest (by omega) hopen]
  rfl

/-! ### Lists of expressions -/

/-- A token with which an expression starts is none of the marks that end one. -/
theorem mark?_of_opening {m : Mark} {t : Token} {us : List Token} (h : t.lexeme ≠ .mark m) :
    mark? m (t :: us) = none :=
  mark?_of_ne fun _ ht => by
    cases ht
    exact h

/-- One item is read up to a comma or a closing mark. -/
theorem Reads.binary_zero (h : Reads stop ts e (.joined .disjunction)) {n : Nat} {m : Mark} {s : Span}
    (hn : 8 * (ts.length + (rest.length + 1)) + 4 ≤ n)
    (hm : m = .comma ∨ m = .closeParen ∨ m = .closeBracket) :
    Reader.binary stop n 0 (ts ++ ⟨.mark m, s⟩ :: rest) = .ok (e, ⟨.mark m, s⟩ :: rest) := by
  have hstops (floor : Nat) : Stops floor (⟨.mark m, s⟩ :: rest) :=
    stops_cons_of_mark (by obtain rfl | rfl | rfl := hm <;> rfl) floor
  have hfollows : Follows (⟨.mark m, s⟩ :: rest) := by
    obtain rfl | rfl | rfl := hm <;> exact ⟨rfl, rfl⟩
  obtain ⟨k, hk, hread⟩ := h n 0 (⟨.mark m, s⟩ :: rest) hn (by decide) hfollows (hstops _)
  obtain ⟨k, rfl⟩ : ∃ j, k = j + 1 := ⟨k - 1, by omega⟩
  rw [hread, operators_of_stops (hstops 0)]

/-- One or more arguments are read up to the parenthesis, by induction on them. -/
theorem items_eq {args : List (List Token × Expr)} {inner : List Token} {c : Span} {n : Nat}
    (hargs : ∀ x ∈ args, Reads stop x.1 x.2 (.joined .disjunction)) (hne : args ≠ [])
    (hinner : CommaSeparated (args.map (·.1)) inner)
    (hn : 8 * (inner.length + (rest.length + 1)) + 5 ≤ n) :
    items stop n (inner ++ ⟨.mark .closeParen, c⟩ :: rest) =
      .ok (args.map (·.2), ⟨.mark .closeParen, c⟩ :: rest) := by
  induction args generalizing inner n with
  | nil => exact absurd rfl hne
  | cons x args ih =>
    obtain ⟨n, rfl⟩ : ∃ k, n = k + 1 := ⟨n - 1, by omega⟩
    obtain ⟨hx, hargs⟩ := List.forall_mem_cons.mp hargs
    rw [items]
    cases args with
    | nil =>
      cases hinner
      -- the last argument: no comma follows
      change 8 * (x.1.length + (rest.length + 1)) + 5 ≤ n + 1 at hn
      rw [hx.binary_zero (by omega) (.inr (.inl rfl)), ok_bind]
      rfl
    -- a comma follows, and behind it the other arguments
    | cons y args =>
      cases hinner with
      | @cons _ _ all _ s hall =>
        simp only [List.length_append, List.length_cons] at hn
        rw [List.append_assoc, List.cons_append,
          hx.binary_zero (by simp only [List.length_append, List.length_cons]; omega) (.inl rfl),
          ok_bind]
        simp only [mark?_cons_self]
        rw [ih hargs (List.cons_ne_nil _ _) hall (by omega)]
        rfl

/-- All arguments are read, with the parenthesis behind them. -/
theorem arguments_eq {args : List (List Token × Expr)} {inner : List Token} {c : Span} {n : Nat}
    (hderives : ∀ x ∈ args, Derives (.joined .disjunction) x.1 x.2)
    (hargs : ∀ x ∈ args, Reads stop x.1 x.2 (.joined .disjunction))
    (hinner : CommaSeparated (args.map (·.1)) inner)
    (hn : 8 * (inner.length + (rest.length + 1)) + 6 ≤ n) :
    arguments stop n (inner ++ ⟨.mark .closeParen, c⟩ :: rest) =
      .ok ((args.map (·.2), c), rest) := by
  obtain ⟨n, rfl⟩ : ∃ k, n = k + 1 := ⟨n - 1, by omega⟩
  rw [arguments]
  cases args with
  | nil =>
    cases hinner
    rfl
  | cons x args =>
    -- there is an argument, so the parenthesis does not come at once
    have hhead : mark? .closeParen (inner ++ ⟨.mark .closeParen, c⟩ :: rest) = none := by
      obtain ⟨t, us, hts, ht⟩ := (hderives x List.mem_cons_self).exists_opening
      obtain ⟨vs, rfl⟩ := hinner.exists_append
      change mark? .closeParen (x.1 ++ vs ++ _) = none
      rw [hts]
      exact mark?_of_opening ht.closeParen
    simp only [hhead]
    rw [items_eq hargs (List.cons_ne_nil _ _) hinner (by omega), ok_bind, mark_cons_self]
    rfl

/-- A comma may stand between the last item and the bracket. -/
theorem listItems_eq {items : List (List Token × Expr)} {inner trail : List Token} {c : Span}
    {n : Nat} (hderives : ∀ x ∈ items, Derives (.joined .disjunction) x.1 x.2)
    (hitems : ∀ x ∈ items, Reads stop x.1 x.2 (.joined .disjunction))
    (hinner : CommaSeparated (items.map (·.1)) inner)
    (htrail : trail = [] ∨ items ≠ [] ∧ ∃ d, trail = [⟨.mark .comma, d⟩])
    (hn : 8 * (inner.length + trail.length + (rest.length + 1)) + 5 ≤ n) :
    listItems stop n (inner ++ (trail ++ ⟨.mark .closeBracket, c⟩ :: rest)) =
      .ok ((items.map (·.2), c), rest) := by
  induction items generalizing inner n with
  | nil =>
    obtain rfl : trail = [] := htrail.resolve_right fun h => h.1 rfl
    obtain ⟨n, rfl⟩ : ∃ k, n = k + 1 := ⟨n - 1, by omega⟩
    cases hinner
    rw [listItems]
    rfl
  | cons x items ih =>
    obtain ⟨n, rfl⟩ : ∃ k, n = k + 1 := ⟨n - 1, by omega⟩
    obtain ⟨hx, hitems⟩ := List.forall_mem_cons.mp hitems
    obtain ⟨hdx, hderives⟩ := List.forall_mem_cons.mp hderives
    -- an item comes first, so the list is not over
    have hhead (us : List Token) : mark? .closeBracket (x.1 ++ us) = none := by
      obtain ⟨t, vs, hts, ht⟩ := hdx.exists_opening
      rw [hts]
      exact mark?_of_opening ht.closeBracket
    rw [listItems]
    cases items with
    | nil =>
      cases hinner
      change 8 * (x.1.length + trail.length + (rest.length + 1)) + 5 ≤ n + 1 at hn
      simp only [hhead]
      -- the last item: the bracket comes next, or a comma and then the bracket
      obtain rfl | ⟨-, d, rfl⟩ := htrail
      · rw [List.nil_append, hx.binary_zero (by simp at hn; omega) (.inr (.inr rfl)), ok_bind]
        simp only [mark?_of_opening (m := .comma) (t := ⟨.mark .closeBracket, c⟩) (by simp)]
        rw [mark_cons_self]
        rfl
      · rw [List.cons_append, List.nil_append, hx.binary_zero (by simp at hn ⊢; omega) (.inl rfl),
          ok_bind]
        simp only [mark?_cons_self]
        obtain ⟨n, rfl⟩ : ∃ k, n = k + 1 := ⟨n - 1, by omega⟩
        -- behind the last comma the bracket is found at once
        rw [listItems, mark?_cons_self]
        rfl
    | cons y items =>
      cases hinner with
      | @cons _ _ all _ s hall =>
        simp only [List.length_append, List.length_cons] at hn
        simp only [List.append_assoc, List.cons_append, hhead]
        rw [hx.binary_zero (by simp only [List.length_append, List.length_cons]; omega) (.inl rfl),
          ok_bind]
        simp only [mark?_cons_self]
        rw [ih hderives hitems hall (htrail.imp_right fun h => ⟨List.cons_ne_nil _ _, h.2⟩)
          (by omega)]
        rfl

/-! ### Calls and primaries -/

/-- A call of a method: the names before the last one are fields. -/
theorem Reads.method {inner : List Token} {b base : Expr} {d s o c : Span} {w : String}
    {args : List (List Token × Expr)} (h : Reads stop ts b .postfixed)
    (hderives : ∀ x ∈ args, Derives (.joined .disjunction) x.1 x.2)
    (hargs : ∀ x ∈ args, Reads stop x.1 x.2 (.joined .disjunction))
    (hinner : CommaSeparated (args.map (·.1)) inner)
    (hbase : base = Reader.fields s b (dottedNames w).dropLast) :
    Reads stop
      (ts ++ ⟨.mark .dot, d⟩ :: ⟨.word w, s⟩ :: ⟨.mark .openParen, o⟩ ::
        (inner ++ [⟨.mark .closeParen, c⟩]))
      (.method (place ((base.span.union s).union c)) base ((dottedNames w).getLastD "")
        (args.map (·.2)) none) .postfixed := by
  subst hbase
  intro n rest hn hopen
  simp only [List.length_append, List.length_cons, List.length_nil] at hn
  -- the receiver is read first and leaves fuel for the arguments
  obtain ⟨m, hm, hread⟩ := h n (⟨.mark .dot, d⟩ :: ⟨.word w, s⟩ :: ⟨.mark .openParen, o⟩ ::
    (inner ++ ⟨.mark .closeParen, c⟩ :: rest)) (by simp; omega) rfl
  obtain ⟨m, rfl⟩ : ∃ k, m = k + 1 := ⟨m - 1, by omega⟩
  simp only [List.length_append, List.length_cons] at hm
  refine ⟨m, by omega, ?_⟩
  simp only [List.append_assoc, List.cons_append, List.nil_append]
  rw [hread, selectors]
  -- behind it the reader finds the dot, the name and the open parenthesis
  simp only [mark?_cons_self, word_cons_self, ok_bind]
  rw [arguments_eq hderives hargs hinner (by omega)]
  rfl

/-- A constant, written as a literal or as a word. -/
theorem Reads.constant {t : Token} {v : Literal} (h : IsConstant t.lexeme v) :
    Reads stop [t] (.literal (place t.span) v) .primary := by
  intro n rest hn _
  obtain ⟨n, rfl⟩ : ∃ k, n = k + 1 := ⟨n - 1, by omega⟩
  obtain ⟨l, s⟩ := t
  cases h with
  | int | float | string => rfl
  | word hw =>
    rw [List.cons_append, primary]
    simp only [constant?_eq_some.mpr hw]
    rfl

/-- A variable. -/
theorem Reads.var {x : String} {s : Span} : Reads stop [⟨.var x, s⟩] (.var (place s) x) .primary := by
  intro n rest hn _
  obtain ⟨n, rfl⟩ : ∃ k, n = k + 1 := ⟨n - 1, by omega⟩
  rfl

/-- A name is no constant. -/
theorem constant?_of_name {w : String} (hw : IsName w) : constant? w = none := by
  cases hv : constant? w with
  | none => rfl
  | some v => exact absurd (constant?_eq_some.mp hv) (hw.1 v)

/-- A name by itself. -/
theorem Reads.global {w : String} {s : Span} (hw : IsName w) :
    Reads stop [⟨.word w, s⟩] (.global (place s) w) .primary := by
  intro n rest hn hopen
  obtain ⟨n, rfl⟩ : ∃ k, n = k + 1 := ⟨n - 1, by omega⟩
  rw [List.cons_append, List.nil_append, primary]
  simp only [constant?_of_name hw, hopen]

/-- A name with arguments. -/
theorem Reads.call {inner : List Token} {w : String} {s o c : Span}
    {args : List (List Token × Expr)} (hw : IsName w)
    (hderives : ∀ x ∈ args, Derives (.joined .disjunction) x.1 x.2)
    (hargs : ∀ x ∈ args, Reads stop x.1 x.2 (.joined .disjunction))
    (hinner : CommaSeparated (args.map (·.1)) inner) :
    Reads stop (⟨.word w, s⟩ :: ⟨.mark .openParen, o⟩ :: (inner ++ [⟨.mark .closeParen, c⟩]))
      (.call (place (s.union c)) w (args.map (·.2)) none) .primary := by
  intro n rest hn _
  obtain ⟨n, rfl⟩ : ∃ k, n = k + 1 := ⟨n - 1, by omega⟩
  simp only [List.length_append, List.length_cons, List.length_nil] at hn
  simp only [List.append_assoc, List.cons_append, List.nil_append]
  rw [primary]
  simp only [constant?_of_name hw, mark?_cons_self]
  rw [arguments_eq hderives hargs hinner (by omega)]
  rfl

/-- Parentheses leave no trace in the expression. -/
theorem Reads.parens {o c : Span} (h : Reads stop ts e (.joined .disjunction)) :
    Reads stop (⟨.mark .openParen, o⟩ :: (ts ++ [⟨.mark .closeParen, c⟩])) e .primary := by
  intro n rest hn _
  obtain ⟨n, rfl⟩ : ∃ k, n = k + 1 := ⟨n - 1, by omega⟩
  simp only [List.length_append, List.length_cons, List.length_nil] at hn
  simp only [List.append_assoc, List.cons_append, List.nil_append]
  rw [primary, h.binary_zero (by omega) (.inr (.inl rfl)), ok_bind]
  simp only [mark_cons_self]
  rfl

/-- A list with its items, and a comma behind the last one or none. -/
theorem Reads.list {inner trail : List Token} {o c : Span} {items : List (List Token × Expr)}
    (hderives : ∀ x ∈ items, Derives (.joined .disjunction) x.1 x.2)
    (hitems : ∀ x ∈ items, Reads stop x.1 x.2 (.joined .disjunction))
    (hinner : CommaSeparated (items.map (·.1)) inner)
    (htrail : trail = [] ∨ items ≠ [] ∧ ∃ d, trail = [⟨.mark .comma, d⟩]) :
    Reads stop (⟨.mark .openBracket, o⟩ :: (inner ++ (trail ++ [⟨.mark .closeBracket, c⟩])))
      (.list (place (o.union c)) (items.map (·.2))) .primary := by
  intro n rest hn _
  obtain ⟨n, rfl⟩ : ∃ k, n = k + 1 := ⟨n - 1, by omega⟩
  simp only [List.length_append, List.length_cons, List.length_nil] at hn
  simp only [List.append_assoc, List.cons_append, List.nil_append]
  rw [primary, listItems_eq hderives hitems hinner htrail (by omega)]
  rfl

/-- **Completeness.** Whatever the grammar derives, the readers read. -/
theorem reads_of_derives {s : Symbol} (stop : Stop) (h : Derives s ts e) : Reads stop ts e s := by
  -- one lemma above for each rule of the grammar
  induction h with
  | operand _ ih => exact ih.operand
  | binary hop ht _ _ iha ihb => exact .binary hop ht iha ihb
  | unary ht _ ih => exact .unary ht ih
  | unprefixed h ih => exact .unprefixed h ih
  | fields _ ih => exact .fields ih
  | method _ hargs hinner hbase ih ihargs => exact .method ih hargs ihargs hinner hbase
  | unselected _ ih => exact .unselected ih
  | constant h => exact .constant h
  | var => exact .var
  | global hw => exact .global hw
  | call hw hargs hinner ihargs => exact .call hw hargs ihargs hinner
  | parens _ ih => exact .parens ih
  | list hitems hinner ihitems => exact .list hitems ihitems hinner (.inl (rfl : ([] : List Token) = []))
  | @listComma _ _ d _ _ hne hitems hinner ihitems =>
    have htrail : [⟨.mark .comma, d⟩] = [(⟨.mark .comma, d⟩ : Token)] := rfl
    exact .list hitems ihitems hinner (.inr ⟨hne, d, htrail⟩)

end Completeness

/-! ### Whole expressions -/

/-- One expression and nothing else. -/
def whole (stop : Stop) (ts : List Token) : Except SyntaxError Expr := do
  let (e, rest) ← expr stop ts
  finish stop rest
  pure e

/-- **Whole expressions.** What is read in full is derived from all of the tokens, and what is derived is
read in full. -/
theorem whole_eq_ok_iff (stop : Stop) {ts : List Token} {e : Expr} :
    whole stop ts = .ok e ↔ IsExpression ts e := by
  constructor
  · intro h
    obtain ⟨⟨e', rest⟩, he, hgoes⟩ := exists_of_bind_ok h
    obtain ⟨u, hrest, hend⟩ := exists_of_bind_ok hgoes
    obtain rfl := Except.ok.inj hend
    -- nothing may be left behind the expression
    obtain rfl := finish_eq_ok.mp hrest
    obtain ⟨used, rfl, hused, -⟩ := (readsSoundly stop (depth ts)).binary he
    rw [List.append_nil]
    exact hused
  · intro h
    -- behind the last token nothing goes on, and there is fuel for that many tokens
    have hstops : Stops 0 [] := nofun
    obtain ⟨m, hm, hread⟩ := reads_of_derives stop h (depth ts) 0 [] (by simp [depth]; omega)
      (by decide) follows_nil (hstops.mono (Nat.zero_le _))
    obtain ⟨m, rfl⟩ : ∃ k, m = k + 1 := ⟨m - 1, by omega⟩
    rw [List.append_nil, operators_of_stops hstops] at hread
    rw [whole, expr, hread]
    rfl

end Reader

open Reader

/-- A list of tokens is at most one expression. -/
theorem IsExpression.unique {ts : List Token} {e e' : Expr} (h : IsExpression ts e)
    (h' : IsExpression ts e') : e = e' := by
  rw [← whole_eq_ok_iff 0] at h h'
  exact Except.ok.inj (h.symm.trans h')

/-- A text is read as an expression from its tokens. -/
theorem parse_eq_ok_iff {offset : Nat} {cs : List Char} {e : Expr} :
    parse offset cs = .ok e ↔ ∃ ts, tokens offset cs = .ok ts ∧ IsExpression ts e := by
  change (tokens offset cs >>= whole (offset + Text.byteLength cs)) = .ok e ↔ _
  simp only [← whole_eq_ok_iff (offset + Text.byteLength cs)]
  constructor
  · exact exists_of_bind_ok
  · rintro ⟨ts, hts, he⟩
    rw [hts]
    exact he

/-- **The readers accept exactly the grammar.** A list of tokens is read in full as an expression if
and only if the grammar derives that expression, and no other, from it. -/
theorem whole_eq_ok_iff_derivation (stop : Stop) (ts : List Token) (e : Expr) :
    whole stop ts = .ok e ↔ IsExpression ts e ∧ ∀ e', IsExpression ts e' → e' = e := by
  rw [whole_eq_ok_iff]
  exact ⟨fun h => ⟨h, fun e' h' => h'.unique h⟩, And.left⟩

/-! ### Print commands and loops -/

/-- The tokens are the directives. -/
inductive AreDirectives : List Token → List Directive → Prop
  | nil : AreDirectives [] []
  | plain {bar s : Span} {name : String} {ts : List Token} {ds : List Directive} (h : AreDirectives ts ds) :
      AreDirectives (⟨.mark .bar, bar⟩ :: ⟨.word name, s⟩ :: ts) (⟨name, [], bar.union s⟩ :: ds)
  /-- The range of a directive goes on to its last argument. -/
  | args {bar s c : Span} {name : String} {ts inner : List Token} {args : List (List Token × Expr)}
      {ds : List Directive} (hargs : Itemized args inner) (h : AreDirectives ts ds) :
      AreDirectives (⟨.mark .bar, bar⟩ :: ⟨.word name, s⟩ :: ⟨.mark .colon, c⟩ :: (inner ++ ts))
        (⟨name, args.map (·.2), (args.map (·.2)).foldl (fun s e => s.union e.span) (bar.union s)⟩ :: ds)

/-- What is read as directives is a list of them, by induction on the fuel. -/
theorem exists_of_directives_ok {stop fuel : Nat} {ts rest : List Token} {ds : List Directive}
    (h : directives stop fuel ts = .ok (ds, rest)) : ∃ used, ts = used ++ rest ∧ AreDirectives used ds := by
  induction fuel generalizing ts ds with
  | zero =>
    obtain ⟨rfl, rfl⟩ := Prod.mk.inj (Except.ok.inj h)
    exact ⟨[], rfl, .nil⟩
  | succ fuel ih =>
    unfold directives at h
    split at h
    · obtain ⟨rfl, rfl⟩ := Prod.mk.inj (Except.ok.inj h)
      exact ⟨[], rfl, .nil⟩
    -- a bar and a name
    · next bar us hbar =>
      obtain rfl := Reader.mark?_eq_some hbar
      obtain ⟨⟨⟨name, s⟩, ws⟩, hword, hgoes⟩ := exists_of_bind_ok h
      clear h
      obtain rfl := Reader.word_eq_ok hword
      dsimp only at hgoes
      split at hgoes
      · obtain ⟨⟨more, ts⟩, hmore, hgoes⟩ := exists_of_bind_ok hgoes
        obtain ⟨rfl, rfl⟩ := Prod.mk.inj (Except.ok.inj hgoes)
        obtain ⟨used, rfl, hused⟩ := ih hmore
        exact ⟨_, rfl, .plain hused⟩
      -- a colon starts arguments
      · next colon vs hcolon =>
        obtain rfl := Reader.mark?_eq_some hcolon
        obtain ⟨⟨args, xs⟩, hargs, hgoes⟩ := exists_of_bind_ok hgoes
        obtain ⟨⟨more, ts⟩, hmore, hgoes⟩ := exists_of_bind_ok hgoes
        obtain ⟨rfl, rfl⟩ := Prod.mk.inj (Except.ok.inj hgoes)
        obtain ⟨items, inner, rfl, hitems, -, rfl⟩ := (Reader.readsSoundly _ _).items hargs
        obtain ⟨used, rfl, hused⟩ := ih hmore
        exact ⟨_, by rw [← List.append_assoc]; rfl, .args hitems hused⟩

/-- **A print command** is an expression with directives after it. -/
theorem exists_of_parsePrint_ok {offset : Nat} {cs : List Char} {e : Expr} {ds : List Directive}
    (h : parsePrint offset cs = .ok (e, ds)) :
    ∃ ts us, tokens offset cs = .ok (ts ++ us) ∧ IsExpression ts e ∧ AreDirectives us ds := by
  obtain ⟨all, hall, h⟩ := exists_of_bind_ok h
  obtain ⟨⟨e', rest⟩, he, h⟩ := exists_of_bind_ok h
  obtain ⟨⟨ds', rest'⟩, hds, h⟩ := exists_of_bind_ok h
  obtain ⟨⟨⟩, hend, h⟩ := exists_of_bind_ok h
  obtain ⟨rfl, rfl⟩ := Prod.mk.inj (Except.ok.inj h)
  obtain rfl := Reader.finish_eq_ok.mp hend
  obtain ⟨ts, rfl, hts, -⟩ := (Reader.readsSoundly _ _).binary he
  obtain ⟨us, rfl, hus⟩ := exists_of_directives_ok hds
  exact ⟨ts, us, by rw [hall, List.append_nil], hts, hus⟩

/-- **A loop** is a variable and a word with an expression after them. -/
theorem exists_of_parseLoop_ok {offset : Nat} {cs : List Char} {x : String} {e : Expr}
    (h : parseLoop offset cs = .ok (x, e)) :
    ∃ s t ts, tokens offset cs = .ok (⟨.var x, s⟩ :: ⟨.word "in", t⟩ :: ts) ∧ IsExpression ts e := by
  obtain ⟨all, hall, h⟩ := exists_of_bind_ok h
  obtain ⟨⟨y, us⟩, hvar, h⟩ := exists_of_bind_ok h
  obtain ⟨⟨⟨⟩, vs⟩, hin, h⟩ := exists_of_bind_ok h
  obtain ⟨⟨e', rest⟩, he, h⟩ := exists_of_bind_ok h
  obtain ⟨⟨⟩, hend, h⟩ := exists_of_bind_ok h
  obtain ⟨rfl, rfl⟩ := Prod.mk.inj (Except.ok.inj h)
  -- what each reader took, from the end of the loop header to its front
  obtain rfl := Reader.finish_eq_ok.mp hend
  obtain ⟨s, rfl⟩ := Reader.exists_of_variableName_ok hvar
  obtain ⟨t, rfl⟩ := Reader.exists_of_keyword_ok hin
  obtain ⟨ts, rfl, hts, -⟩ := (Reader.readsSoundly _ _).binary he
  exact ⟨s, t, ts, by rw [hall, List.append_nil], hts⟩

end TemplateFrontend.Expr
