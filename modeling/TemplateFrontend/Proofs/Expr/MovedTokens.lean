import TemplateFrontend.Proofs.Expr.Parts
import TemplateFrontend.Proofs.Expr.Placement
/-!
# Reading further on in a file

The readers of expressions go by what tokens are, and what they answer is placed where the tokens are. So from
tokens that stand further on in a file they answer the same, further on in the file.

* `Expr.shift_zero` — an expression that is not moved;
* `Directive.shift` — a directive further on in a file;
* `Expr.Reader.ReadsAlong`, `Expr.Reader.readsAlong` — the readers of expressions;
* `Expr.parse_along`, `Expr.parsePrint_along`, `Expr.parseLoop_along` — the texts of commands.
-/

namespace TemplateFrontend

open Text

/-- A directive further on in a file. -/
def Directive.shift (d : Nat) (x : Directive) : Directive :=
  ⟨x.name, x.args.map (Expr.shift d), x.span.shift d⟩

namespace Expr

/-- An expression that is not moved. -/
theorem shift_zero (e : Expr) : e.shift 0 = e := by
  induction e using children_induct with
  | h e ih =>
    have hparts : e.mapChildren (shift 0) = e := mapChildren_eq_self ih
    rw [shift, mapParts_eq]
    change (fun e : Expr => e.withNote ⟨e.note.span, e.note.type⟩) (e.mapChildren (shift 0)) = e
    rw [hparts]
    cases e <;> rfl

/-- Expressions that are not moved. -/
theorem map_shift_zero (es : List Expr) : es.map (shift 0) = es := by
  rw [show shift 0 = id from funext shift_zero, List.map_id]

end Expr

/-- A directive that is not moved. -/
theorem Directive.shift_zero (x : Directive) : x.shift 0 = x := by
  rw [shift, Expr.map_shift_zero]
  rfl

namespace Expr.Reader

/-- The second reader answers what the first one does, moved by `f`, and leaves the same tokens further on. -/
abbrev Along {α : Type} (d : Nat) (f : α → α) (x y : Answer (α × List Token)) : Prop :=
  Maps (Prod.map f (List.map (Token.shift d))) x y

section Tokens

variable {stop stop' d : Nat}

/-- A mark is looked for among moved tokens as among the tokens. -/
theorem mark?_shift (d : Nat) (m : Mark) (ts : List Token) : mark? m (ts.map (Token.shift d)) =
    (mark? m ts).map (Prod.map (Span.shift d) (List.map (Token.shift d))) := by
  cases ts with
  | nil => rfl
  | cons t ts =>
    obtain ⟨l, s⟩ := t
    cases l with
    | mark m' => by_cases h : m' = m <;> simp [mark?, Token.shift, h]
    | _ => rfl

/-- So is a mark that has to come. -/
theorem mark_along (m : Mark) (ts : List Token) :
    Along d (Span.shift d) (mark stop m ts) (mark stop' m (ts.map (Token.shift d))) := by
  rintro ⟨s, rest⟩ h
  obtain rfl := mark_eq_ok h
  exact mark_cons_self stop' m (s.shift d) (rest.map (Token.shift d))

/-- So is a word. -/
theorem word_along (expected : String) (ts : List Token) :
    Along d (Prod.map id (Span.shift d)) (word stop expected ts) (word stop' expected (ts.map (Token.shift d))) := by
  rintro ⟨⟨w, s⟩, rest⟩ h
  obtain rfl := word_eq_ok h
  rfl

/-- So is the name of a variable. -/
theorem variableName_along (ts : List Token) :
    Along d id (variableName stop ts) (variableName stop' (ts.map (Token.shift d))) := by
  cases ts with
  | nil => exact .error _ _
  | cons t ts =>
    obtain ⟨l, s⟩ := t
    cases l with
    | var x => exact .ok rfl
    | _ => exact .error _ _

/-- So is a keyword. -/
theorem keyword_along (w : String) (ts : List Token) :
    Along d id (keyword stop w ts) (keyword stop' w (ts.map (Token.shift d))) := by
  cases ts with
  | nil => exact .error _ _
  | cons t ts =>
    obtain ⟨l, s⟩ := t
    cases l with
    -- only the word itself is compared, and moving keeps it
    | word w' =>
      by_cases hw : w' = w
      · rw [List.map_cons, Token.shift, keyword, keyword, if_pos hw, if_pos hw]
        exact .ok rfl
      · rw [keyword, if_neg hw]
        exact .error _ _
    | _ => exact .error _ _

/-- All moved tokens are read if all tokens are. -/
theorem finish_along (ts : List Token) : Maps id (finish stop ts) (finish stop' (ts.map (Token.shift d))) := by
  rintro ⟨⟩ h
  obtain rfl := finish_eq_ok.mp h
  rfl

/-- The first token is the same one, moved. -/
theorem head?_shift (d : Nat) (ts : List Token) {α : Type} (f : Lexeme → Option α) :
    (ts.map (Token.shift d)).head?.bind (f ·.lexeme) = ts.head?.bind (f ·.lexeme) := by
  cases ts <;> rfl

/-- There is as much fuel for moved tokens. -/
theorem depth_shift (d : Nat) (ts : List Token) : depth (ts.map (Token.shift d)) = depth ts := by
  rw [depth, depth, List.length_map]

end Tokens

/-! ### Readers -/

/-- With fuel `n` the readers answer from moved tokens what they answer from the tokens, moved. -/
structure ReadsAlong (stop stop' : Stop) (d n : Nat) : Prop where
  binary : ∀ floor ts, Along d (Expr.shift d) (binary stop n floor ts)
    (binary stop' n floor (ts.map (Token.shift d)))
  operators : ∀ floor lhs ts, Along d (Expr.shift d) (operators stop n floor lhs ts)
    (operators stop' n floor (lhs.shift d) (ts.map (Token.shift d)))
  unary : ∀ ts, Along d (Expr.shift d) (unary stop n ts) (unary stop' n (ts.map (Token.shift d)))
  postfixed : ∀ ts, Along d (Expr.shift d) (postfixed stop n ts) (postfixed stop' n (ts.map (Token.shift d)))
  selectors : ∀ base ts, Along d (Expr.shift d) (selectors stop n base ts)
    (selectors stop' n (base.shift d) (ts.map (Token.shift d)))
  arguments : ∀ ts, Along d (Prod.map (List.map (Expr.shift d)) (Span.shift d)) (arguments stop n ts)
    (arguments stop' n (ts.map (Token.shift d)))
  items : ∀ ts, Along d (List.map (Expr.shift d)) (items stop n ts) (items stop' n (ts.map (Token.shift d)))
  listItems : ∀ ts, Along d (Prod.map (List.map (Expr.shift d)) (Span.shift d)) (listItems stop n ts)
    (listItems stop' n (ts.map (Token.shift d)))
  primary : ∀ ts, Along d (Expr.shift d) (primary stop n ts) (primary stop' n (ts.map (Token.shift d)))

section Readers

variable {stop stop' d n : Nat}

/-- Without fuel nothing is read. -/
theorem readsAlong_zero (stop stop' d : Nat) : ReadsAlong stop stop' d 0 := by
  constructor <;> intros <;> exact Maps.error _ _

/-- The operators behind an operand have the same precedences. -/
theorem ReadsAlong.operators_succ (ih : ReadsAlong stop stop' d n) (floor : Nat) (lhs : Expr) (ts : List Token) :
    Along d (Expr.shift d) (Reader.operators stop (n + 1) floor lhs ts)
      (Reader.operators stop' (n + 1) floor (lhs.shift d) (ts.map (Token.shift d))) := by
  rw [Reader.operators, Reader.operators, head?_shift d ts binaryOp?]
  cases ts.head?.bind (binaryOp? ·.lexeme) with
  | none => exact .ok rfl
  | some op =>
    dsimp only
    split
    · exact .ok rfl
    · rw [← List.map_tail]
      refine (ih.binary op.precedence ts.tail).bind ?_
      rintro ⟨rhs, us⟩ -
      -- the tree so far was moved too, and the union of moved spans is the moved union
      have hnext := ih.operators floor (.binary (place (lhs.span.union rhs.span)) op lhs rhs) us
      rwa [shift_binary, Span.shift_union, ← span_shift, ← span_shift] at hnext

/-- A prefix stands before an operand, moved with it. -/
theorem ReadsAlong.unary_succ (ih : ReadsAlong stop stop' d n) (ts : List Token) :
    Along d (Expr.shift d) (Reader.unary stop (n + 1) ts) (Reader.unary stop' (n + 1) (ts.map (Token.shift d))) := by
  cases ts with
  | nil => exact ih.postfixed []
  | cons t ts =>
    rw [List.map_cons, Reader.unary, Reader.unary, show (t.shift d).lexeme = t.lexeme from rfl]
    cases unaryOp? t.lexeme with
    | none => exact ih.postfixed (t :: ts)
    | some op =>
      -- the operand, and its operator put around it on both sides
      refine (ih.unary ts).bind ?_
      rintro ⟨operand, us⟩ -
      refine .ok ?_
      simp only [Prod.map_apply, shift_unary, Span.shift_union, span_shift, Token.shift]

/-- A dot is followed by a name, and that by arguments if they are opened. -/
theorem ReadsAlong.selectors_succ (ih : ReadsAlong stop stop' d n) (base : Expr) (ts : List Token) :
    Along d (Expr.shift d) (Reader.selectors stop (n + 1) base ts)
      (Reader.selectors stop' (n + 1) (base.shift d) (ts.map (Token.shift d))) := by
  rw [Reader.selectors, Reader.selectors, mark?_shift]
  cases mark? .dot ts with
  | none => exact .ok rfl
  | some dotted =>
    obtain ⟨dot, us⟩ := dotted
    refine (word_along _ us).bind ?_
    rintro ⟨⟨path, s⟩, vs⟩ -
    dsimp only [Prod.map_apply, id_eq]
    rw [mark?_shift]
    cases mark? .openParen vs with
    | none =>
      -- without arguments the names are fields,
      have hnext := ih.selectors (fields s base ((pieces '.' path.toList).map String.ofList)) vs
      rwa [shift_fields] at hnext
    | some opened =>
      obtain ⟨o, ws⟩ := opened
      refine (ih.arguments ws).bind ?_
      rintro ⟨⟨args, close⟩, xs⟩ -
      -- and with arguments the last name is that of a method
      have hnext := ih.selectors (.method
        (place (((fields s base ((pieces '.' path.toList).map String.ofList).dropLast).span.union s).union close))
        (fields s base ((pieces '.' path.toList).map String.ofList).dropLast)
        (((pieces '.' path.toList).map String.ofList).getLastD "") args none) xs
      rwa [shift_method, Span.shift_union, Span.shift_union, ← span_shift, shift_fields] at hnext

/-- Arguments end at their parenthesis. -/
theorem ReadsAlong.arguments_succ (ih : ReadsAlong stop stop' d n) (ts : List Token) :
    Along d (Prod.map (List.map (Expr.shift d)) (Span.shift d)) (Reader.arguments stop (n + 1) ts)
      (Reader.arguments stop' (n + 1) (ts.map (Token.shift d))) := by
  rw [Reader.arguments, Reader.arguments, mark?_shift]
  cases mark? .closeParen ts with
  | some closed => exact .ok rfl
  | none =>
    refine (ih.items ts).bind ?_
    rintro ⟨args, us⟩ -
    refine (mark_along .closeParen us).bind ?_
    rintro ⟨close, vs⟩ -
    exact .ok rfl

/-- Items go on after a comma. -/
theorem ReadsAlong.items_succ (ih : ReadsAlong stop stop' d n) (ts : List Token) :
    Along d (List.map (Expr.shift d)) (Reader.items stop (n + 1) ts)
      (Reader.items stop' (n + 1) (ts.map (Token.shift d))) := by
  rw [Reader.items, Reader.items]
  refine (ih.binary 0 ts).bind ?_
  rintro ⟨e, us⟩ -
  dsimp only [Prod.map_apply]
  rw [mark?_shift]
  -- a comma or the end stands at the same token on both sides
  cases mark? .comma us with
  | none => exact .ok rfl
  | some comma =>
    refine (ih.items comma.2).bind ?_
    rintro ⟨es, vs⟩ -
    exact .ok rfl

/-- Items of a list go on after a comma, unless the bracket follows. -/
theorem ReadsAlong.listItems_succ (ih : ReadsAlong stop stop' d n) (ts : List Token) :
    Along d (Prod.map (List.map (Expr.shift d)) (Span.shift d)) (Reader.listItems stop (n + 1) ts)
      (Reader.listItems stop' (n + 1) (ts.map (Token.shift d))) := by
  rw [Reader.listItems, Reader.listItems, mark?_shift]
  cases mark? .closeBracket ts with
  | some closed => exact .ok rfl
  | none =>
    refine (ih.binary 0 ts).bind ?_
    rintro ⟨e, us⟩ -
    dsimp only [Prod.map_apply]
    rw [mark?_shift]
    -- after an item: a comma and more items, or the bracket
    cases mark? .comma us with
    | some comma =>
      refine (ih.listItems comma.2).bind ?_
      rintro ⟨⟨es, close⟩, vs⟩ -
      exact .ok rfl
    | none =>
      refine (mark_along .closeBracket us).bind ?_
      rintro ⟨close, vs⟩ -
      exact .ok rfl

/-- Only calls, parentheses and lists hold other expressions. -/
theorem ReadsAlong.primary_succ (ih : ReadsAlong stop stop' d n) (ts : List Token) :
    Along d (Expr.shift d) (Reader.primary stop (n + 1) ts)
      (Reader.primary stop' (n + 1) (ts.map (Token.shift d))) := by
  cases ts with
  | nil => exact .error _ _
  | cons t us =>
    obtain ⟨l, s⟩ := t
    cases l with
    -- these are one token
    | var | int | float | string => exact .ok rfl
    -- a constant, a name, or a function before a parenthesis
    | word w =>
      rw [List.map_cons, Token.shift, Reader.primary, Reader.primary]
      cases constant? w with
      | some v => exact .ok rfl
      | none =>
        dsimp only
        rw [mark?_shift]
        cases mark? .openParen us with
        | none => exact .ok rfl
        | some opened =>
          refine (ih.arguments opened.2).bind ?_
          rintro ⟨⟨args, close⟩, vs⟩ -
          refine .ok ?_
          simp only [Prod.map_apply, shift_call, Span.shift_union]
    | mark m =>
      cases m with
      -- parentheses leave no trace in the expression
      | openParen =>
        refine (ih.binary 0 us).bind ?_
        rintro ⟨e, vs⟩ -
        refine (mark_along .closeParen vs).bind ?_
        rintro ⟨close, ws⟩ -
        exact .ok rfl
      | openBracket =>
        refine (ih.listItems us).bind ?_
        rintro ⟨⟨es, close⟩, vs⟩ -
        refine .ok ?_
        simp only [Prod.map_apply, shift_list, Span.shift_union]
      | _ => exact .error _ _

/-- **The readers of expressions** go by what tokens are. -/
theorem readsAlong (stop stop' d n : Nat) : ReadsAlong stop stop' d n := by
  induction n with
  -- one step of fuel for all nine readers together, as they call each other
  | zero => exact readsAlong_zero stop stop' d
  | succ n ih =>
    exact
      { binary := fun floor ts => (ih.unary ts).bind fun a _ => ih.operators floor a.1 a.2
        operators := ih.operators_succ
        unary := ih.unary_succ
        postfixed := fun ts => (ih.primary ts).bind fun a _ => ih.selectors a.1 a.2
        selectors := ih.selectors_succ
        arguments := ih.arguments_succ
        items := ih.items_succ
        listItems := ih.listItems_succ
        primary := ih.primary_succ }

/-- An expression is read from moved tokens, moved. -/
theorem expr_along (ts : List Token) :
    Along d (Expr.shift d) (expr stop ts) (expr stop' (ts.map (Token.shift d))) := by
  rw [expr, expr, depth_shift]
  exact (readsAlong stop stop' d _).binary 0 ts

/-- The range of a directive with arguments goes on to the end of the last one. -/
theorem shift_foldl_union (d : Nat) (s : Span) (es : List Expr) :
    (es.foldl (fun s e => s.union e.span) s).shift d =
      (es.map (Expr.shift d)).foldl (fun s e => s.union e.span) (s.shift d) := by
  induction es generalizing s with
  | nil => rfl
  | cons e es ih =>
    rw [List.foldl_cons, ih, List.map_cons, List.foldl_cons, Span.shift_union, span_shift]

/-- So are the directives behind it, each with its bar. -/
theorem directives_along (fuel : Nat) (ts : List Token) :
    Along d (List.map (Directive.shift d)) (directives stop fuel ts)
      (directives stop' fuel (ts.map (Token.shift d))) := by
  induction fuel generalizing ts with
  | zero => exact .ok rfl
  | succ fuel ih =>
    rw [directives, directives, mark?_shift]
    cases mark? .bar ts with
    | none => exact .ok rfl
    | some barred =>
      obtain ⟨bar, us⟩ := barred
      refine (word_along _ us).bind ?_
      rintro ⟨⟨name, s⟩, vs⟩ -
      dsimp only [Prod.map_apply, id_eq]
      rw [mark?_shift]
      cases mark? .colon vs with
      | none =>
        -- no colon: the next directive follows at once
        refine (ih vs).bind ?_
        rintro ⟨more, ws⟩ -
        refine .ok ?_
        simp only [Prod.map_apply, List.map_cons, Directive.shift, Span.shift_union, List.map_nil]
      | some colon =>
        -- behind a colon there are arguments
        have hargs : Along d (List.map (Expr.shift d)) (directiveArgs stop colon.2)
            (directiveArgs stop' (colon.2.map (Token.shift d))) := by
          rw [directiveArgs, directiveArgs, depth_shift]
          exact (readsAlong stop stop' d _).items colon.2
        refine hargs.bind ?_
        rintro ⟨args, ws⟩ -
        refine (ih ws).bind ?_
        rintro ⟨more, xs⟩ -
        refine .ok ?_
        simp only [Prod.map_apply, List.map_cons, Directive.shift, shift_foldl_union, Span.shift_union]

end Readers

end Expr.Reader

/-! ### Texts of commands -/

namespace Expr

open Reader

/-- The tokens of a text that stands further on. -/
theorem tokens_along (d offset : Nat) (cs : List Char) :
    Maps (List.map (Token.shift d)) (tokens offset cs) (tokens (offset + d) cs) := by
  intro ts hts
  have hsplits : SplitsInto offset (cs ++ []) ts := by
    rw [List.append_nil]
    exact tokens_eq_ok_iff.mp hts
  exact tokens_eq_ok_iff.mpr (hsplits.shift (List.forall_mem_nil _) d)

/-- The text of an expression further on in a file. -/
theorem parse_along (d offset : Nat) (cs : List Char) :
    Maps (shift d) (parse offset cs) (parse (offset + d) cs) := by
  intro e he
  have hblank : parse offset (cs ++ []) = .ok e := by rwa [List.append_nil]
  exact parse_shift (List.forall_mem_nil _) hblank d

/-- The text of a print command further on in a file. -/
theorem parsePrint_along (d offset : Nat) (cs : List Char) :
    Maps (Prod.map (shift d) (List.map (Directive.shift d))) (parsePrint offset cs)
      (parsePrint (offset + d) cs) := by
  refine (tokens_along d offset cs).bind fun ts _ => ?_
  refine (expr_along ts).bind ?_
  rintro ⟨e, us⟩ -
  dsimp only [Prod.map_apply]
  rw [List.length_map]
  refine (directives_along us.length us).bind ?_
  rintro ⟨ds, vs⟩ -
  exact (finish_along vs).bind fun _ _ => .ok rfl

/-- The text of a loop further on in a file. -/
theorem parseLoop_along (d offset : Nat) (cs : List Char) :
    Maps (Prod.map id (shift d)) (parseLoop offset cs) (parseLoop (offset + d) cs) := by
  refine (tokens_along d offset cs).bind fun ts _ => ?_
  refine (variableName_along ts).bind ?_
  rintro ⟨x, us⟩ -
  refine (keyword_along "in" us).bind ?_
  rintro ⟨⟨⟩, vs⟩ -
  refine (expr_along vs).bind ?_
  rintro ⟨e, ws⟩ -
  exact (finish_along ws).bind fun _ _ => .ok rfl

end Expr

end TemplateFrontend
