import TemplateFrontend.Proofs.Expr.Parsing
/-!
# How deep reading an expression goes

The readers of expressions call each other on fuel. Here it is shown that the fuel never runs out: a call
is made on tokens that are left of those of its caller, and on fewer of them unless it is further down in
the order of the readers. So no reader comes back to itself without having taken a token, and the number
of tokens bounds how deep the calls go.

* `Job` — a reader with what it is given besides the tokens;
* `Calls` — which reader calls which one, and on which tokens, with one case for each call;
* `Job.CallsAgree`, `Job.run_congr` — nothing else is called: on two amounts of fuel on which these calls
  have the same answers, the reader has the same answer;
* `Calls.descends`, `CallsIn.height_le` — one call and a chain of calls;
* `Job.run_eq`, `directives_eq` — any two fuels that suffice give the same answer.
-/

namespace TemplateFrontend

namespace Expr.Reader

/-! ### Tokens that are left -/

/-- The second list is what is left of the first one after so many tokens or more. -/
def Leaves (least : Nat) (ts rest : List Token) : Prop :=
  ∃ used, ts = used ++ rest ∧ least ≤ used.length

namespace Leaves

variable {k l : Nat} {ts us rest : List Token} {stop : Stop} {s : Span}

/-- All tokens are left where none was taken. -/
theorem refl (ts : List Token) : Leaves 0 ts ts := ⟨[], rfl, Nat.le_refl 0⟩

/-- One token is taken. -/
theorem cons (t : Token) (ts : List Token) : Leaves 1 (t :: ts) ts := ⟨[t], rfl, Nat.le_refl 1⟩

/-- It may be said that fewer were taken. -/
theorem mono (h : Leaves k ts rest) (hl : l ≤ k) : Leaves l ts rest := by
  obtain ⟨used, hts, hused⟩ := h
  exact ⟨used, hts, Nat.le_trans hl hused⟩

/-- Some tokens are taken, and then more. -/
theorem trans (h : Leaves k ts us) (h' : Leaves l us rest) : Leaves (k + l) ts rest := by
  obtain ⟨used, rfl, hused⟩ := h
  obtain ⟨used', rfl, hused'⟩ := h'
  refine ⟨used ++ used', (List.append_assoc ..).symm, ?_⟩
  rw [List.length_append]
  exact Nat.add_le_add hused hused'

/-- What is left is shorter by what was taken. -/
theorem length_le (h : Leaves k ts rest) : rest.length + k ≤ ts.length := by
  obtain ⟨used, rfl, hused⟩ := h
  rw [List.length_append]
  omega

/-- A mark that is looked for, and found, is one token. -/
theorem mark? {m : Mark} (h : Reader.mark? m ts = some (s, rest)) : Leaves 1 ts rest := by
  obtain rfl := mark?_eq_some h
  exact cons _ _

/-- A mark that has to come is one token. -/
theorem mark {m : Mark} (h : Reader.mark stop m ts = .ok (s, rest)) : Leaves 1 ts rest := by
  obtain rfl := mark_eq_ok h
  exact cons _ _

/-- A word is one token. -/
theorem word {expected : String} {w : String × Span} (h : Reader.word stop expected ts = .ok (w, rest)) :
    Leaves 1 ts rest := by
  obtain rfl := word_eq_ok h
  exact cons _ _

end Leaves

/-! ### Readers -/

/-- A reader with what it is given besides the tokens, by what it reads. -/
inductive Job : Type → Type
  | binary (floor : Nat) : Job Expr
  | operators (floor : Nat) (lhs : Expr) : Job Expr
  | unary : Job Expr
  | postfixed : Job Expr
  | selectors (base : Expr) : Job Expr
  | arguments : Job (List Expr × Span)
  | items : Job (List Expr)
  | listItems : Job (List Expr × Span)
  | primary : Job Expr
  | directives : Job (List Directive)

namespace Job

/-- What the reader answers with an amount of fuel. -/
def run (stop : Stop) (n : Nat) {α : Type} (job : Job α) (ts : List Token) :
    Answer (α × List Token) :=
  match job with
  | .binary floor => Reader.binary stop n floor ts
  | .operators floor lhs => Reader.operators stop n floor lhs ts
  | .unary => Reader.unary stop n ts
  | .postfixed => Reader.postfixed stop n ts
  | .selectors base => Reader.selectors stop n base ts
  | .arguments => Reader.arguments stop n ts
  | .items => Reader.items stop n ts
  | .listItems => Reader.listItems stop n ts
  | .primary => Reader.primary stop n ts
  | .directives => Reader.directives stop n ts

/-- The order of the readers: one that is called on the tokens of its caller stands below it. -/
def rank {α : Type} : Job α → Nat
  | .operators _ _ | .selectors _ | .primary | .directives => 0
  | .postfixed => 1
  | .unary => 2
  | .binary _ => 3
  | .items | .listItems => 4
  | .arguments => 5

/-- No reader stands above the fifth place. -/
theorem rank_le {α : Type} (job : Job α) : job.rank ≤ 5 := by cases job <;> simp [rank]

end Job

/-! ### What is left of the tokens -/

section Left

variable {stop : Stop} {n : Nat} {ts rest : List Token}

/-- What derives an expression has a token. -/
theorem Leaves.of_derives {sym : Symbol} {used : List Token} {e : Expr} (h : Derives sym used e)
    (rest : List Token) : Leaves 1 (used ++ rest) rest := by
  obtain ⟨t, us, rfl, -⟩ := h.exists_opening
  exact ⟨t :: us, rfl, Nat.le_add_left _ _⟩

/-- An expression takes a token. -/
theorem leaves_of_binary {floor : Nat} {e : Expr} (h : binary stop n floor ts = .ok (e, rest)) :
    Leaves 1 ts rest := by
  obtain ⟨used, rfl, hused, -⟩ := (readsSoundly stop n).binary h
  exact .of_derives hused rest

/-- An operand takes a token. -/
theorem leaves_of_unary {e : Expr} (h : unary stop n ts = .ok (e, rest)) : Leaves 1 ts rest := by
  obtain ⟨used, rfl, hused⟩ := (readsSoundly stop n).unary h
  exact .of_derives hused rest

/-- Arguments take a token, the parenthesis behind them if no other. -/
theorem leaves_of_arguments {a : List Expr × Span} (h : arguments stop n ts = .ok (a, rest)) :
    Leaves 1 ts rest := by
  obtain ⟨args, inner, rfl, -⟩ := (readsSoundly stop n).arguments h
  exact ⟨inner ++ [⟨.mark .closeParen, a.2⟩], by simp, by simp⟩

/-- Items take tokens of those that there are. -/
theorem leaves_of_items {es : List Expr} (h : items stop n ts = .ok (es, rest)) : Leaves 0 ts rest := by
  obtain ⟨args, inner, rfl, -⟩ := (readsSoundly stop n).items h
  exact ⟨inner, rfl, Nat.zero_le _⟩

/-- The items of a list take a token, the bracket behind them if no other. -/
theorem leaves_of_listItems {a : List Expr × Span} (h : listItems stop n ts = .ok (a, rest)) :
    Leaves 1 ts rest := by
  obtain ⟨args, inner, trail, rfl, -⟩ := (readsSoundly stop n).listItems h
  exact ⟨inner ++ trail ++ [⟨.mark .closeBracket, a.2⟩], by simp, by simp; omega⟩

/-- The word `not` is read as a name where no operator is looked for, so the grammar says nothing of
this reader alone. -/
theorem leaves_of_primary {e : Expr} (h : primary stop n ts = .ok (e, rest)) : Leaves 1 ts rest := by
  cases n with
  | zero => cases h
  | succ n =>
    unfold primary at h
    -- one case for each first token; only calls, parentheses and lists go on reading
    split at h
    · obtain ⟨-, rfl⟩ := Prod.mk.inj (Except.ok.inj h)
      exact .cons _ _
    · obtain ⟨-, rfl⟩ := Prod.mk.inj (Except.ok.inj h)
      exact .cons _ _
    · obtain ⟨-, rfl⟩ := Prod.mk.inj (Except.ok.inj h)
      exact .cons _ _
    · obtain ⟨-, rfl⟩ := Prod.mk.inj (Except.ok.inj h)
      exact .cons _ _
    · next w s us =>
      split at h
      · obtain ⟨-, rfl⟩ := Prod.mk.inj (Except.ok.inj h)
        exact .cons _ _
      · split at h
        · obtain ⟨-, rfl⟩ := Prod.mk.inj (Except.ok.inj h)
          exact .cons _ _
        · next o vs hopen =>
          obtain ⟨⟨⟨args, close⟩, ws⟩, hargs, h⟩ := exists_of_bind_ok h
          obtain ⟨-, rfl⟩ := Prod.mk.inj (Except.ok.inj h)
          -- a word, a parenthesis and the arguments behind it
          have hname := (Leaves.cons ⟨.word w, s⟩ us).trans (.mark? hopen)
          exact (hname.trans (leaves_of_arguments hargs)).mono (Nat.le_add_left _ _)
    · next s us =>
      obtain ⟨⟨e, vs⟩, he, h⟩ := exists_of_bind_ok h
      obtain ⟨⟨close, ws⟩, hclose, h⟩ := exists_of_bind_ok h
      obtain ⟨-, rfl⟩ := Prod.mk.inj (Except.ok.inj h)
      -- a parenthesis, an expression and the parenthesis that ends it
      have hinner := (Leaves.cons ⟨.mark .openParen, s⟩ us).trans (leaves_of_binary he)
      exact (hinner.trans (.mark hclose)).mono (Nat.le_add_left _ _)
    · next s us =>
      obtain ⟨⟨⟨es, close⟩, vs⟩, hes, h⟩ := exists_of_bind_ok h
      obtain ⟨-, rfl⟩ := Prod.mk.inj (Except.ok.inj h)
      have hopen := Leaves.cons ⟨.mark .openBracket, s⟩ us
      exact (hopen.trans (leaves_of_listItems hes)).mono (Nat.le_add_left _ _)
    · cases h

end Left

/-! ### Calls -/

/-- A reader on tokens calls another one on tokens. What comes between two calls of one reader has been
read by then, with some amount of fuel. -/
inductive Calls (stop : Stop) : {α β : Type} → Job α → List Token → Job β → List Token → Prop
  | operand {floor : Nat} {ts : List Token} : Calls stop (.binary floor) ts .unary ts
  | joined {n floor : Nat} {ts rest : List Token} {lhs : Expr}
    (h : unary stop n ts = .ok (lhs, rest)) :
    Calls stop (.binary floor) ts (.operators floor lhs) rest
  | rightOperand {floor : Nat} {lhs : Expr} {t : Token} {ts : List Token} {op : BinaryOp}
    (hop : binaryOp? t.lexeme = some op) (hfloor : ¬ op.precedence ≤ floor) :
    Calls stop (.operators floor lhs) (t :: ts) (.binary op.precedence) ts
  | nextOperator {n floor : Nat} {lhs rhs : Expr} {t : Token} {ts rest : List Token} {op : BinaryOp}
    (hop : binaryOp? t.lexeme = some op) (h : binary stop n op.precedence ts = .ok (rhs, rest)) :
    Calls stop (.operators floor lhs) (t :: ts)
      (.operators floor (.binary (place (lhs.span.union rhs.span)) op lhs rhs)) rest
  | prefixed {t : Token} {ts : List Token} {op : UnaryOp} (hop : unaryOp? t.lexeme = some op) :
    Calls stop .unary (t :: ts) .unary ts
  | unprefixed {ts : List Token} : Calls stop .unary ts .postfixed ts
  | base {ts : List Token} : Calls stop .postfixed ts .primary ts
  | selected {n : Nat} {ts rest : List Token} {base : Expr}
    (h : primary stop n ts = .ok (base, rest)) : Calls stop .postfixed ts (.selectors base) rest
  | nextField {base : Expr} {ts us rest : List Token} {d s : Span} {w expected : String}
    (hdot : mark? .dot ts = some (d, us)) (hname : word stop expected us = .ok ((w, s), rest)) :
    Calls stop (.selectors base) ts (.selectors (fields s base (dottedNames w))) rest
  | methodArguments {base : Expr} {ts us vs rest : List Token} {d s o : Span} {w expected : String}
    (hdot : mark? .dot ts = some (d, us)) (hname : word stop expected us = .ok ((w, s), vs))
    (hopen : mark? .openParen vs = some (o, rest)) :
    Calls stop (.selectors base) ts .arguments rest
  | nextMethod {n : Nat} {base base' : Expr} {ts us vs ws rest : List Token} {d s o : Span}
    {w expected : String} {args : List Expr × Span}
    (hdot : mark? .dot ts = some (d, us)) (hname : word stop expected us = .ok ((w, s), vs))
    (hopen : mark? .openParen vs = some (o, ws)) (hargs : arguments stop n ws = .ok (args, rest))
    (hbase : base' = fields s base (dottedNames w).dropLast) :
    Calls stop (.selectors base) ts
      (.selectors (.method (place ((base'.span.union s).union args.2)) base' ((dottedNames w).getLastD "")
        args.1 none)) rest
  | firstArgument {ts : List Token} (hclose : mark? .closeParen ts = none) :
    Calls stop .arguments ts .items ts
  | item {ts : List Token} : Calls stop .items ts (.binary 0) ts
  | nextItem {n : Nat} {ts us rest : List Token} {e : Expr} {s : Span}
    (h : binary stop n 0 ts = .ok (e, us)) (hcomma : mark? .comma us = some (s, rest)) :
    Calls stop .items ts .items rest
  | listItem {ts : List Token} (hclose : mark? .closeBracket ts = none) :
    Calls stop .listItems ts (.binary 0) ts
  | nextListItem {n : Nat} {ts us rest : List Token} {e : Expr} {s : Span}
    (h : binary stop n 0 ts = .ok (e, us)) (hcomma : mark? .comma us = some (s, rest)) :
    Calls stop .listItems ts .listItems rest
  | callArguments {w : String} {s o : Span} {ts rest : List Token}
    (hopen : mark? .openParen ts = some (o, rest)) :
    Calls stop .primary (⟨.word w, s⟩ :: ts) .arguments rest
  | parentheses {s : Span} {ts : List Token} :
    Calls stop .primary (⟨.mark .openParen, s⟩ :: ts) (.binary 0) ts
  | list {s : Span} {ts : List Token} :
    Calls stop .primary (⟨.mark .openBracket, s⟩ :: ts) .listItems ts
  | directiveArguments {ts us vs rest : List Token} {b c : Span} {w : String × Span} {expected : String}
    (hbar : mark? .bar ts = some (b, us)) (hname : word stop expected us = .ok (w, vs))
    (hcolon : mark? .colon vs = some (c, rest)) : Calls stop .directives ts .items rest
  | nextDirective {ts us rest : List Token} {b : Span} {w : String × Span} {expected : String}
    (hbar : mark? .bar ts = some (b, us)) (hname : word stop expected us = .ok (w, rest)) :
    Calls stop .directives ts .directives rest
  | nextWithArguments {n : Nat} {ts us vs ws rest : List Token} {b c : Span} {w : String × Span}
    {expected : String} {args : List Expr}
    (hbar : mark? .bar ts = some (b, us)) (hname : word stop expected us = .ok (w, vs))
    (hcolon : mark? .colon vs = some (c, ws)) (hargs : items stop n ws = .ok (args, rest)) :
    Calls stop .directives ts .directives rest

section Calls

variable {stop : Stop} {α β : Type} {job : Job α} {job' : Job β} {ts ts' : List Token}

/-- **One call** is made on fewer tokens of those of the caller, or on the same ones by a reader further
up. -/
theorem Calls.descends (h : Calls stop job ts job' ts') :
    Leaves 1 ts ts' ∨ ts' = ts ∧ job'.rank < job.rank := by
  -- some calls are made before anything is read, each by a reader further up; all others have tokens read
  -- before them
  cases h with
  | operand | unprefixed | base | firstArgument | item | listItem =>
    exact .inr ⟨rfl, by simp [Job.rank]⟩
  | joined h => exact .inl (leaves_of_unary h)
  | rightOperand | prefixed | parentheses | list => exact .inl (.cons _ _)
  | nextOperator hop h => exact .inl (((Leaves.cons _ _).trans (leaves_of_binary h)).mono (by omega))
  | selected h => exact .inl (leaves_of_primary h)
  | nextField hdot hname => exact .inl (((Leaves.mark? hdot).trans (.word hname)).mono (by omega))
  | methodArguments hdot hname hopen =>
    exact .inl ((((Leaves.mark? hdot).trans (.word hname)).trans (.mark? hopen)).mono (by omega))
  | nextMethod hdot hname hopen hargs =>
    have hcall := ((Leaves.mark? hdot).trans (.word hname)).trans (.mark? hopen)
    exact .inl ((hcall.trans (leaves_of_arguments hargs)).mono (by omega))
  | nextItem h hcomma | nextListItem h hcomma =>
    exact .inl (((leaves_of_binary h).trans (.mark? hcomma)).mono (by omega))
  | callArguments hopen => exact .inl (((Leaves.cons _ _).trans (.mark? hopen)).mono (by omega))
  | directiveArguments hbar hname hcolon =>
    exact .inl ((((Leaves.mark? hbar).trans (.word hname)).trans (.mark? hcolon)).mono (by omega))
  | nextDirective hbar hname => exact .inl (((Leaves.mark? hbar).trans (.word hname)).mono (by omega))
  | nextWithArguments hbar hname hcolon hargs =>
    have hargument := ((Leaves.mark? hbar).trans (.word hname)).trans (.mark? hcolon)
    exact .inl ((hargument.trans (leaves_of_items hargs)).mono (by omega))

/-- How deep calls can go from a reader on tokens. -/
def Job.height (job : Job α) (ts : List Token) : Nat := 8 * ts.length + job.rank

/-- A call needs less height than its caller has. -/
theorem Calls.height_lt (h : Calls stop job ts job' ts') : job'.height ts' < job.height ts := by
  have hrank := job'.rank_le
  unfold Job.height
  obtain hleaves | ⟨rfl, hlt⟩ := h.descends
  · have := hleaves.length_le
    omega
  · omega

/-- Directives are read one after the other; their arguments are read on fuel of their own. -/
theorem directives_congr {n m : Nat}
    (h : ∀ rest, Calls stop .directives ts .directives rest → directives stop n rest = directives stop m rest) :
    directives stop (n + 1) ts = directives stop (m + 1) ts := by
  rw [directives, directives]
  -- each branch asks again only after the tokens a `Calls` of it has taken
  split
  · rfl
  · next b us hbar =>
    refine bind_congr_of_ok fun a hname => ?_
    obtain ⟨w, vs⟩ := a
    dsimp only
    split
    · rw [h vs (.nextDirective hbar hname)]
    · next c ws hcolon =>
      refine bind_congr_of_ok fun a hargs => ?_
      obtain ⟨args, xs⟩ := a
      rw [h xs (.nextWithArguments hbar hname hcolon hargs)]

/-- Two amounts of fuel give the same answers to all calls of a reader on tokens. -/
def Job.CallsAgree (stop : Stop) (n m : Nat) (job : Job α) (ts : List Token) : Prop :=
  ∀ {β : Type} {job' : Job β} {ts' : List Token}, Calls stop job ts job' ts' →
    job'.run stop n ts' = job'.run stop m ts'

section Agree

variable {n m : Nat}

/-- An operator is followed by its right operand, and that by the next operator. -/
theorem operators_congr {floor : Nat} {lhs : Expr}
    (h : (Job.operators floor lhs).CallsAgree stop n m ts) :
    operators stop (n + 1) floor lhs ts = operators stop (m + 1) floor lhs ts := by
  rw [operators, operators]
  cases ts with
  | nil => rfl
  | cons t ts =>
    dsimp only [List.head?_cons, Option.bind_some, List.tail_cons]
    split
    · rfl
    · next op hop =>
      split
      · rfl
      -- the right operand first, since what follows starts where it ends
      · next hfloor =>
        have hright : binary stop n op.precedence ts = binary stop m op.precedence ts :=
          h (.rightOperand hop hfloor)
        rw [← hright]
        exact bind_congr_of_ok fun _ hrhs => h (.nextOperator hop hrhs)

/-- A dot is followed by a name, and that by arguments if they are opened. -/
theorem selectors_congr {base : Expr} (h : (Job.selectors base).CallsAgree stop n m ts) :
    selectors stop (n + 1) base ts = selectors stop (m + 1) base ts := by
  rw [selectors, selectors]
  split
  · rfl
  · next d us hdot =>
    refine bind_congr_of_ok fun a hname => ?_
    obtain ⟨⟨path, s⟩, vs⟩ := a
    dsimp only
    -- without a parenthesis the name is a field, with one it is a method
    split
    · exact h (.nextField hdot hname)
    · next o ws hopen =>
      have hargs : arguments stop n ws = arguments stop m ws := h (.methodArguments hdot hname hopen)
      rw [← hargs]
      exact bind_congr_of_ok fun _ hread => h (.nextMethod hdot hname hopen hread rfl)

/-- Items of a list go on after a comma, unless the bracket follows. -/
theorem listItems_congr (h : Job.listItems.CallsAgree stop n m ts) :
    listItems stop (n + 1) ts = listItems stop (m + 1) ts := by
  rw [listItems, listItems]
  split
  · rfl
  -- an item, and after a comma the items behind it
  · next hclose =>
    have hitem : binary stop n 0 ts = binary stop m 0 ts := h (.listItem hclose)
    rw [← hitem]
    refine bind_congr_of_ok fun a he => ?_
    obtain ⟨e, us⟩ := a
    dsimp only
    split
    · next s vs hcomma =>
      have hmore : listItems stop n vs = listItems stop m vs := h (.nextListItem he hcomma)
      rw [hmore]
    · rfl

/-- Only calls, parentheses and lists hold other expressions. -/
theorem primary_congr (h : Job.primary.CallsAgree stop n m ts) :
    primary stop (n + 1) ts = primary stop (m + 1) ts := by
  unfold primary
  -- constants and variables are read without asking further
  split
  · rfl
  · rfl
  · rfl
  · rfl
  -- only these three ask again: a call, parentheses and a list
  · next w s us =>
    split
    · rfl
    · split
      · rfl
      · next o vs hopen =>
        have hargs : arguments stop n vs = arguments stop m vs := h (.callArguments hopen)
        rw [hargs]
  · next s us =>
    have hinner : binary stop n 0 us = binary stop m 0 us := h .parentheses
    rw [hinner]
  · next s us =>
    have hitems : listItems stop n us = listItems stop m us := h .list
    rw [hitems]
  · rfl

/-- **Nothing else is called**: if two amounts of fuel give the same answers to all calls of a reader, one
more gives the same answer of the reader itself. -/
theorem Job.run_congr (h : job.CallsAgree stop n m ts) :
    job.run stop (n + 1) ts = job.run stop (m + 1) ts := by
  -- each reader is opened once, with the calls that it makes for fuel `n` and for fuel `m`
  cases job with
  | binary floor =>
    have hoperand : Reader.unary stop n ts = Reader.unary stop m ts := h .operand
    rw [run, run, Reader.binary, Reader.binary, ← hoperand]
    exact bind_congr_of_ok fun _ hlhs => h (.joined hlhs)
  | operators floor lhs => exact operators_congr h
  | unary =>
    cases ts with
    | nil => exact h .unprefixed
    | cons t ts =>
      rw [run, run, Reader.unary, Reader.unary]
      dsimp only
      split
      · exact h .unprefixed
      · next op hop =>
        have hoperand : Reader.unary stop n ts = Reader.unary stop m ts := h (.prefixed hop)
        rw [hoperand]
  | postfixed =>
    have hbase : Reader.primary stop n ts = Reader.primary stop m ts := h .base
    rw [run, run, Reader.postfixed, Reader.postfixed, ← hbase]
    exact bind_congr_of_ok fun _ hread => h (.selected hread)
  | selectors base => exact selectors_congr h
  | arguments =>
    rw [run, run, Reader.arguments, Reader.arguments]
    split
    · rfl
    · next hclose =>
      have hitems : Reader.items stop n ts = Reader.items stop m ts := h (.firstArgument hclose)
      rw [hitems]
  | items =>
    have hitem : Reader.binary stop n 0 ts = Reader.binary stop m 0 ts := h .item
    rw [run, run, Reader.items, Reader.items, ← hitem]
    refine bind_congr_of_ok fun a he => ?_
    obtain ⟨e, us⟩ := a
    dsimp only
    split
    · rfl
    · next s vs hcomma =>
      -- what comes behind the comma is asked with the same fuel
      have hmore : Reader.items stop n vs = Reader.items stop m vs := h (.nextItem he hcomma)
      rw [hmore]
  | listItems => exact listItems_congr h
  | primary => exact primary_congr h
  | directives => exact directives_congr fun _ hcall => h hcall

end Agree

/-- **Fuel does not matter** where it suffices: a reader answers the same with any two amounts of it that
are more than its height. -/
theorem Job.run_eq {n m : Nat} (hn : job.height ts < n) (hm : job.height ts < m) :
    job.run stop n ts = job.run stop m ts := by
  induction n generalizing α job ts m with
  | zero => exact absurd hn (Nat.not_lt_zero _)
  | succ n ih =>
    cases m with
    | zero => exact absurd hm (Nat.not_lt_zero _)
    | succ m =>
      refine run_congr fun hcall => ?_
      have := hcall.height_lt
      exact ih (by omega) (by omega)

/-- With as much fuel as there are tokens all directives are read. -/
theorem directives_eq {n m : Nat} (hn : ts.length ≤ n) (hm : ts.length ≤ m) :
    directives stop n ts = directives stop m ts := by
  induction n generalizing ts m with
  | zero =>
    obtain rfl := List.length_eq_zero_iff.mp (Nat.le_zero.mp hn)
    cases m <;> rfl
  | succ n ih =>
    cases m with
    | zero =>
      obtain rfl := List.length_eq_zero_iff.mp (Nat.le_zero.mp hm)
      rfl
    | succ m =>
      refine directives_congr fun rest hcall => ?_
      -- asking for directives again takes a token each time, so fuel for the tokens is enough
      obtain hleaves | ⟨-, hlt⟩ := hcall.descends
      · have := hleaves.length_le
        exact ih (by omega) (by omega)
      · exact absurd hlt (Nat.lt_irrefl _)

/-- A reader on tokens comes to another one on tokens by a number of calls. -/
inductive CallsIn (stop : Stop) (job : Job α) (ts : List Token) : {β : Type} → Nat → Job β → List Token → Prop
  | here : CallsIn stop job ts 0 job ts
  | call {β γ : Type} {k : Nat} {job' : Job β} {job'' : Job γ} {ts' ts'' : List Token}
    (h : CallsIn stop job ts k job' ts') (hcall : Calls stop job' ts' job'' ts'') :
    CallsIn stop job ts (k + 1) job'' ts''

/-- **A chain of calls** is no longer than there is height for. -/
theorem CallsIn.height_le {k : Nat} (h : CallsIn stop job ts k job' ts') :
    job'.height ts' + k ≤ job.height ts := by
  induction h with
  | here => exact Nat.le_refl _
  | call _ hcall ih =>
    have := hcall.height_lt
    omega

/-- Nothing is put back by calls, however many. -/
theorem CallsIn.leaves {k : Nat} (h : CallsIn stop job ts k job' ts') : Leaves 0 ts ts' := by
  induction h with
  | here => exact .refl ts
  | call _ hcall ih =>
    obtain hleaves | ⟨rfl, -⟩ := hcall.descends
    · exact (ih.trans hleaves).mono (Nat.zero_le _)
    · exact ih

/-- **A cycle of calls** takes a token: a reader that is called again, by itself or by those that it
calls, is called on fewer tokens. -/
theorem CallsIn.length_lt {k : Nat} (h : CallsIn stop job ts k job' ts') (hk : 0 < k)
    (hrank : job.rank ≤ job'.rank) : ts'.length < ts.length := by
  have hle := h.leaves.length_le
  have hheight := h.height_le
  unfold Job.height at hheight
  omega

end Calls

end Expr.Reader

end TemplateFrontend
