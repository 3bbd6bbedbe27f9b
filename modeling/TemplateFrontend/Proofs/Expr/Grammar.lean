import TemplateFrontend.Expr.Reader
/-!
# The grammar of expressions

Expressions have a stratified grammar over tokens. Operators between operands have six ranks, each of
which associates to the left over operands of the next rank; operators before an operand bind tighter
than all of these, fields and method calls after it tighter still.

* `Expr.Rank`, `Expr.Rank.operators` — the ranks, from the loosest to the tightest;
* `Expr.Derives` — a list of tokens derives an expression from a symbol of the grammar;
* `Expr.IsExpression` — a list of tokens is an expression;
* `Expr.Derives.of_le` — what derives from a symbol derives from every looser one.
-/

namespace TemplateFrontend

/-- The token that an operator between operands is written as. -/
def BinaryOp.lexeme : BinaryOp → Lexeme
  | .mul => .mark .star
  | .div => .mark .slash
  | .mod => .mark .percent
  | .add => .mark .plus
  | .sub => .mark .minus
  | .lt => .mark .lt
  | .gt => .mark .gt
  | .le => .mark .le
  | .ge => .mark .ge
  | .eq => .mark .eq
  | .ne => .mark .ne
  | .and => .word "and"
  | .or => .word "or"

/-- The token that an operator before an operand is written as. -/
def UnaryOp.lexeme : UnaryOp → Lexeme
  | .not => .word "not"
  | .neg => .mark .minus

namespace Expr

open Expr.Reader (place)

/-! ### Symbols -/

/-- The ranks of operators between operands, the loosest first. -/
inductive Rank where
  | disjunction
  | conjunction
  | equality
  | comparison
  | sum
  | product
  deriving DecidableEq, Repr

/-- The operators of a rank. -/
def Rank.operators : Rank → List BinaryOp
  | .disjunction => [.or]
  | .conjunction => [.and]
  | .equality => [.eq, .ne]
  | .comparison => [.lt, .gt, .le, .ge]
  | .sum => [.add, .sub]
  | .product => [.mul, .div, .mod]

/-- The symbols of the grammar. -/
inductive Symbol where
  /-- Operands with operators of a rank, or of a tighter one, between them. -/
  | joined (r : Rank)
  /-- An operand with operators before it. -/
  | prefixed
  /-- An operand with fields and method calls after it. -/
  | postfixed
  | primary
  deriving DecidableEq, Repr

/-- What stands to the right of an operator of a rank: the next tighter symbol. -/
def Rank.operand : Rank → Symbol
  | .disjunction => .joined .conjunction
  | .conjunction => .joined .equality
  | .equality => .joined .comparison
  | .comparison => .joined .sum
  | .sum => .joined .product
  | .product => .prefixed

/-! ### Derivations -/

/-- Lists of tokens, and the list of all their tokens with a comma between each two. -/
inductive CommaSeparated : List (List Token) → List Token → Prop
  | nil : CommaSeparated [] []
  | one (ts : List Token) : CommaSeparated [ts] ts
  | cons {ts us all : List Token} {rest : List (List Token)} {s : Span}
      (h : CommaSeparated (us :: rest) all) :
      CommaSeparated (ts :: us :: rest) (ts ++ ⟨.mark .comma, s⟩ :: all)

theorem CommaSeparated.exists_append {ts all : List Token} {rest : List (List Token)}
    (h : CommaSeparated (ts :: rest) all) : ∃ us, all = ts ++ us := by
  cases h with
  | one => exact ⟨[], (List.append_nil ts).symm⟩
  | cons => exact ⟨_, rfl⟩

/-- The words that are constants. -/
def constantWords : List (String × Literal) :=
  [("true", .bool true), ("false", .bool false), ("null", .null)]

/-- The tokens that are constants. -/
inductive IsConstant : Lexeme → Literal → Prop
  | int (n : Int64) : IsConstant (.int n) (.int n)
  | float (x : Float) : IsConstant (.float x) (.float x)
  | string (s : String) : IsConstant (.string s) (.string s)
  | word {w : String} {v : Literal} (h : (w, v) ∈ constantWords) : IsConstant (.word w) v

/-- A word that names a global or a function. The words for operators between operands are names
where an operand is wanted; the word `not` is an operator there. -/
def IsName (w : String) : Prop := (∀ v, (w, v) ∉ constantWords) ∧ w ≠ "not"

/-- The names in a dotted word. -/
def dottedNames (w : String) : List String := (Text.pieces '.' w.toList).map String.ofList

/-- **The grammar.** The tokens derive the expression from the symbol. Arguments and items are given
with the tokens that derive them. Each name of a dotted word is a field of what the names before it
give, and that of a method call is the last one. -/
inductive Derives : Symbol → List Token → Expr → Prop
  | operand {r : Rank} {ts : List Token} {e : Expr} (h : Derives r.operand ts e) :
      Derives (.joined r) ts e
  | binary {r : Rank} {op : BinaryOp} {t : Token} {ts us : List Token} {a b : Expr}
      (hop : op ∈ r.operators) (ht : t.lexeme = op.lexeme)
      (ha : Derives (.joined r) ts a) (hb : Derives r.operand us b) :
      Derives (.joined r) (ts ++ t :: us) (.binary (place (a.span.union b.span)) op a b)
  | unary {op : UnaryOp} {t : Token} {ts : List Token} {e : Expr} (ht : t.lexeme = op.lexeme)
      (h : Derives .prefixed ts e) :
      Derives .prefixed (t :: ts) (.unary (place (t.span.union e.span)) op e)
  | unprefixed {ts : List Token} {e : Expr} (h : Derives .postfixed ts e) :
      Derives .prefixed ts e
  | fields {ts : List Token} {b : Expr} {d s : Span} {w : String} (h : Derives .postfixed ts b) :
      Derives .postfixed (ts ++ [⟨.mark .dot, d⟩, ⟨.word w, s⟩])
        ((dottedNames w).foldl (fun e x => .field (place (e.span.union s)) e x) b)
  | method {ts inner : List Token} {b base : Expr} {d s o c : Span} {w : String}
      {args : List (List Token × Expr)} (h : Derives .postfixed ts b)
      (hargs : ∀ x ∈ args, Derives (.joined .disjunction) x.1 x.2)
      (hinner : CommaSeparated (args.map (·.1)) inner)
      (hbase : base =
        (dottedNames w).dropLast.foldl (fun e x => .field (place (e.span.union s)) e x) b) :
      Derives .postfixed
        (ts ++ ⟨.mark .dot, d⟩ :: ⟨.word w, s⟩ :: ⟨.mark .openParen, o⟩ ::
          (inner ++ [⟨.mark .closeParen, c⟩]))
        (.method (place ((base.span.union s).union c)) base ((dottedNames w).getLastD "")
          (args.map (·.2)) none)
  | unselected {ts : List Token} {e : Expr} (h : Derives .primary ts e) : Derives .postfixed ts e
  | constant {t : Token} {v : Literal} (h : IsConstant t.lexeme v) :
      Derives .primary [t] (.literal (place t.span) v)
  | var {x : String} {s : Span} : Derives .primary [⟨.var x, s⟩] (.var (place s) x)
  | global {w : String} {s : Span} (hw : IsName w) :
      Derives .primary [⟨.word w, s⟩] (.global (place s) w)
  | call {inner : List Token} {w : String} {s o c : Span} {args : List (List Token × Expr)}
      (hw : IsName w) (hargs : ∀ x ∈ args, Derives (.joined .disjunction) x.1 x.2)
      (hinner : CommaSeparated (args.map (·.1)) inner) :
      Derives .primary
        (⟨.word w, s⟩ :: ⟨.mark .openParen, o⟩ :: (inner ++ [⟨.mark .closeParen, c⟩]))
        (.call (place (s.union c)) w (args.map (·.2)) none)
  | parens {ts : List Token} {e : Expr} {o c : Span} (h : Derives (.joined .disjunction) ts e) :
      Derives .primary (⟨.mark .openParen, o⟩ :: (ts ++ [⟨.mark .closeParen, c⟩])) e
  | list {inner : List Token} {o c : Span} {items : List (List Token × Expr)}
      (hitems : ∀ x ∈ items, Derives (.joined .disjunction) x.1 x.2)
      (hinner : CommaSeparated (items.map (·.1)) inner) :
      Derives .primary (⟨.mark .openBracket, o⟩ :: (inner ++ [⟨.mark .closeBracket, c⟩]))
        (.list (place (o.union c)) (items.map (·.2)))
  /-- A comma may stand after the last item of a list. -/
  | listComma {inner : List Token} {o d c : Span} {items : List (List Token × Expr)}
      (hne : items ≠ []) (hitems : ∀ x ∈ items, Derives (.joined .disjunction) x.1 x.2)
      (hinner : CommaSeparated (items.map (·.1)) inner) :
      Derives .primary
        (⟨.mark .openBracket, o⟩ :: (inner ++ [⟨.mark .comma, d⟩, ⟨.mark .closeBracket, c⟩]))
        (.list (place (o.union c)) (items.map (·.2)))

/-- The fields that a reader makes of names are those of the grammar. -/
theorem Reader.fields_eq_foldl (s : Span) (b : Expr) (names : List String) : Reader.fields s b names =
    names.foldl (fun e x => .field (place (e.span.union s)) e x) b := rfl

/-- The tokens are an expression. -/
def IsExpression (ts : List Token) (e : Expr) : Prop := Derives (.joined .disjunction) ts e

/-! ### What an expression starts with -/

/-- An expression starts neither with a closing mark nor, unless operators may stand before it, with
an operator. -/
structure Opening (s : Symbol) (t : Token) : Prop where
  closeParen : t.lexeme ≠ .mark .closeParen
  closeBracket : t.lexeme ≠ .mark .closeBracket
  notPrefix : s = .postfixed ∨ s = .primary → ∀ op : UnaryOp, t.lexeme ≠ op.lexeme

theorem Opening.of_name {s : Symbol} {w : String} {p : Span} (hw : IsName w) :
    Opening s ⟨.word w, p⟩ where
  closeParen := nofun
  closeBracket := nofun
  notPrefix _ op h := by
    cases op with
    | not => exact hw.2 (Lexeme.word.inj h)
    | neg => cases h

theorem Opening.of_constant {s : Symbol} {t : Token} {v : Literal} (h : IsConstant t.lexeme v) :
    Opening s t := by
  obtain ⟨l, p⟩ := t
  cases h with
  | int | float | string => exact ⟨nofun, nofun, fun _ op => by cases op <;> exact nofun⟩
  | @word w v hw =>
    refine ⟨nofun, nofun, fun _ op h => ?_⟩
    cases op with
    | not =>
      obtain rfl := Lexeme.word.inj h
      simp [constantWords] at hw
    | neg => cases h

theorem Derives.exists_opening {s : Symbol} {ts : List Token} {e : Expr} (h : Derives s ts e) :
    ∃ t us, ts = t :: us ∧ Opening s t := by
  induction h with
  | operand _ ih =>
    obtain ⟨t, us, rfl, ht⟩ := ih
    exact ⟨t, us, rfl, ht.closeParen, ht.closeBracket, by simp⟩
  | binary _ _ _ _ ih _ =>
    obtain ⟨t, us, rfl, ht⟩ := ih
    exact ⟨t, _, rfl, ht⟩
  -- a prefix operator opens with itself and closes nothing
  | @unary op t _ _ ht _ _ =>
    refine ⟨t, _, rfl, ?_, ?_, by simp⟩ <;> rw [ht] <;> cases op <;> exact nofun
  | unprefixed _ ih =>
    obtain ⟨t, us, rfl, ht⟩ := ih
    exact ⟨t, us, rfl, ht.closeParen, ht.closeBracket, by simp⟩
  | fields _ ih | method _ _ _ _ ih _ =>
    obtain ⟨t, us, rfl, ht⟩ := ih
    exact ⟨t, _, rfl, ht⟩
  -- a primary opens with no operator, so neither does what is made from it
  | unselected _ ih =>
    obtain ⟨t, us, rfl, ht⟩ := ih
    exact ⟨t, us, rfl, ht.closeParen, ht.closeBracket, fun _ => ht.notPrefix (.inr rfl)⟩
  | constant h => exact ⟨_, _, rfl, .of_constant h⟩
  | global hw | call hw => exact ⟨_, _, rfl, .of_name hw⟩
  | var | parens | list | listComma =>
    exact ⟨_, _, rfl, nofun, nofun, fun _ op => by cases op <;> exact nofun⟩

theorem Derives.isExpression {ts : List Token} {e : Expr} (h : Derives .primary ts e) :
    IsExpression ts e :=
  .operand (.operand (.operand (.operand (.operand (.operand (.unprefixed (.unselected h)))))))

/-! ### Ranks as numbers -/

/-- How tightly the operators of a rank bind. -/
def Rank.precedence : Rank → Nat
  | .disjunction => 1
  | .conjunction => 2
  | .equality => 3
  | .comparison => 4
  | .sum => 5
  | .product => 6

theorem Rank.mem_operators_iff {r : Rank} {op : BinaryOp} :
    op ∈ r.operators ↔ op.precedence = r.precedence := by
  cases r <;> cases op <;> decide

theorem Rank.exists_of_op (op : BinaryOp) : ∃ r : Rank, op ∈ r.operators := by
  simp only [Rank.mem_operators_iff]
  cases op with
  | or => exact ⟨.disjunction, rfl⟩
  | and => exact ⟨.conjunction, rfl⟩
  | eq | ne => exact ⟨.equality, rfl⟩
  | lt | gt | le | ge => exact ⟨.comparison, rfl⟩
  | add | sub => exact ⟨.sum, rfl⟩
  | mul | div | mod => exact ⟨.product, rfl⟩

/-- The symbol whose operators all bind tighter than `floor`. -/
def Symbol.above (floor : Nat) : Symbol :=
  match floor with
  | 0 => .joined .disjunction
  | 1 => .joined .conjunction
  | 2 => .joined .equality
  | 3 => .joined .comparison
  | 4 => .joined .sum
  | 5 => .joined .product
  | _ => .prefixed

theorem Symbol.above_precedence (r : Rank) : above r.precedence = r.operand := by
  cases r <;> rfl

theorem Symbol.above_precedence_sub (r : Rank) : above (r.precedence - 1) = .joined r := by
  cases r <;> rfl

theorem Rank.precedence_pos (r : Rank) : 0 < r.precedence := by
  cases r <;> decide

theorem Derives.above_of_succ {q : Nat} {ts : List Token} {e : Expr}
    (h : Derives (.above (q + 1)) ts e) : Derives (.above q) ts e := by
  match q, h with
  | 0, h | 1, h | 2, h | 3, h | 4, h | 5, h => exact .operand h
  | _ + 6, h => exact h

/-- What binds tighter may stand where something looser is wanted. -/
theorem Derives.of_le {p q : Nat} {ts : List Token} {e : Expr} (h : Derives (.above q) ts e)
    (hpq : p ≤ q) : Derives (.above p) ts e := by
  induction hpq with
  | refl => exact h
  | step _ ih => exact ih h.above_of_succ

end Expr

end TemplateFrontend
