import TemplateFrontend.Proofs.Expr.Parsing
import TemplateFrontend.Proofs.Expr.Parts
import TemplateFrontend.Proofs.Number.DecimalText
/-!
# Expressions written with all parentheses

An expression is written as text with parentheses around every operator and its operands. The text says nothing of
places. What was read from a text has names that can be read again; which constants and fields can is said by
`Printable`.

* `Expr.render` — an expression as text;
* `Expr.unplaced` — an expression without the places of its parts, and `Expr.render_eq_of_unplaced_eq`;
* `Expr.IsIdentifier`, `Expr.IsDotted`, `Expr.Legible` — names as they are read;
* `Expr.Printable` — expressions whose texts are read back.
-/

namespace TemplateFrontend.Expr

open Text

/-! ### Texts -/

/-- An operator before an operand. A blank sets off the word. -/
def unaryText : UnaryOp → List Char
  | .not => ['n', 'o', 't', ' ']
  | .neg => ['-']

mutual
/-- The text of an expression, with parentheses around every operator and its operands. -/
def render : Expr → List Char
  | .literal _ v => v.text.toList
  | .var _ x => '$' :: x.toList
  | .global _ w => w.toList
  | .field _ b x => b.render ++ '.' :: x.toList
  | .call _ w as _ => w.toList ++ '(' :: (renderAll as ++ [')'])
  | .method _ b x as _ => b.render ++ '.' :: (x.toList ++ '(' :: (renderAll as ++ [')']))
  | .list _ es => '[' :: (renderAll es ++ [']'])
  | .unary _ op a => '(' :: (unaryText op ++ (a.render ++ [')']))
  | .binary _ op a b => '(' :: (a.render ++ ' ' :: (op.symbol.toList ++ ' ' :: (b.render ++ [')'])))

/-- Several expressions, with a comma and a blank between each two. -/
def renderAll : List Expr → List Char
  | [] => []
  | [e] => e.render
  | e :: e' :: es => e.render ++ ',' :: ' ' :: renderAll (e' :: es)
end

theorem renderAll_cons (e : Expr) (es : List Expr) :
    renderAll (e :: es) = e.render ++ if es = [] then [] else ',' :: ' ' :: renderAll es := by
  cases es with
  | nil => simp [renderAll]
  | cons e' es => simp [renderAll]

theorem renderAll_map {g : Expr → Expr} {es : List Expr} (h : ∀ e ∈ es, (g e).render = e.render) :
    renderAll (es.map g) = renderAll es := by
  induction es with
  | nil => rfl
  | cons e es ih =>
    obtain ⟨he, hes⟩ := List.forall_mem_cons.mp h
    rw [List.map_cons, renderAll_cons, renderAll_cons, he, ih hes]
    simp only [List.map_eq_nil_iff]

/-- An integer without a sign is written as its digits. -/
theorem text_int {n : Int64} (hn : 0 ≤ n.toInt) : (Literal.int n).text.toList = digits n.toInt.toNat := by
  change (toString n.toInt).toList = _
  obtain ⟨m, hm⟩ := Int.eq_ofNat_of_zero_le hn
  rw [hm]
  exact Nat.toList_repr

/-! ### Places -/

/-- The expression without the places and the types of its parts. -/
def unplaced (e : Expr) : Expr := e.mapParts (withNote default)

section Unplaced

variable (n : Note)

@[simp] theorem unplaced_literal (v : Literal) : unplaced (.literal n v) = .literal default v := rfl

@[simp] theorem unplaced_var (x : String) : unplaced (.var n x) = .var default x := rfl

@[simp] theorem unplaced_global (w : String) : unplaced (.global n w) = .global default w := rfl

@[simp] theorem unplaced_field (b : Expr) (x : String) :
    unplaced (.field n b x) = .field default b.unplaced x := rfl

@[simp] theorem unplaced_call (w : String) (args : List Expr) (c : Option Callee) :
    unplaced (.call n w args c) = .call default w (args.map unplaced) c := by
  simp only [unplaced, mapParts, mapPartsOf_eq_map]
  rfl

@[simp] theorem unplaced_method (b : Expr) (x : String) (args : List Expr) (c : Option Callee) :
    unplaced (.method n b x args c) = .method default b.unplaced x (args.map unplaced) c := by
  simp only [unplaced, mapParts, mapPartsOf_eq_map]
  rfl

@[simp] theorem unplaced_list (es : List Expr) :
    unplaced (.list n es) = .list default (es.map unplaced) := by
  simp only [unplaced, mapParts, mapPartsOf_eq_map]
  rfl

@[simp] theorem unplaced_unary (op : UnaryOp) (a : Expr) :
    unplaced (.unary n op a) = .unary default op a.unplaced := rfl

@[simp] theorem unplaced_binary (op : BinaryOp) (a b : Expr) :
    unplaced (.binary n op a b) = .binary default op a.unplaced b.unplaced := rfl

theorem children_withNote (e : Expr) : (e.withNote n).children = e.children := by
  cases e <;> rfl

end Unplaced

theorem subexprs_unplaced (e : Expr) : e.unplaced.subexprs = e.subexprs.map unplaced :=
  subexprs_mapParts (children_withNote default) e

/-- Expressions that differ in places have the same literals. -/
theorem exists_literal_of_unplaced_eq {e e' : Expr} (h : e.unplaced = e'.unplaced) {n : Note} {v : Literal}
    (hv : .literal n v ∈ e.subexprs) : ∃ n', .literal n' v ∈ e'.subexprs := by
  have hmem : unplaced (.literal n v) ∈ e.unplaced.subexprs := by
    rw [subexprs_unplaced]
    exact List.mem_map_of_mem hv
  rw [h, subexprs_unplaced, List.mem_map] at hmem
  obtain ⟨p, hp, heq⟩ := hmem
  cases p with
  | literal n' v' =>
    obtain rfl := (literal.inj heq).2
    exact ⟨n', hp⟩
  | _ => simp at heq

/-- The text does not tell where the parts stand. -/
theorem render_unplaced (e : Expr) : e.unplaced.render = e.render := by
  induction e using children_induct with
  | h e ih =>
    cases e with
    -- the text is made of names, operators and operands only
    | literal | var | global => rfl
    | field n b x => rw [unplaced_field, render, render, ih b (by simp [children])]
    | call n w as c =>
      have has : ∀ a ∈ as, a.unplaced.render = a.render := ih
      rw [unplaced_call, render, render, renderAll_map has]
    | method n b x as c =>
      obtain ⟨hb, has⟩ := List.forall_mem_cons.mp ih
      rw [unplaced_method, render, render, hb, renderAll_map has]
    | list n es =>
      have hes : ∀ e ∈ es, e.unplaced.render = e.render := ih
      rw [unplaced_list, render, render, renderAll_map hes]
    | unary n op a => rw [unplaced_unary, render, render, ih a (by simp [children])]
    | binary n op a b =>
      rw [unplaced_binary, render, render, ih a (by simp [children]), ih b (by simp [children])]

theorem render_eq_of_unplaced_eq {e e' : Expr} (h : e.unplaced = e'.unplaced) : e.render = e'.render := by
  rw [← render_unplaced, h, render_unplaced]

/-! ### Names -/

/-- A name without dots. -/
def IsIdentifier (x : String) : Prop :=
  ∃ c cs, x.toList = c :: cs ∧ isNameStart c = true ∧ ∀ d ∈ cs, isNameChar d = true

/-- The names of fields, each after a dot. -/
def selectors (names : List String) : List Char := names.flatMap fun x => '.' :: x.toList

/-- A name with the names of fields behind it. -/
def dotted (w : String) (names : List String) : String := String.ofList (w.toList ++ selectors names)

/-- Names with dots between them. -/
def IsDotted (w : String) : Prop :=
  ∃ x names, w = dotted x names ∧ IsIdentifier x ∧ ∀ y ∈ names, IsIdentifier y

theorem IsIdentifier.isNameChar {x : String} (h : IsIdentifier x) : ∀ c ∈ x.toList, isNameChar c = true := by
  obtain ⟨c, cs, hx, hc, hcs⟩ := h
  rw [hx]
  exact List.forall_mem_cons.mpr ⟨isNameChar_of_isNameStart hc, hcs⟩

/-- A name by itself is one without fields. -/
theorem IsDotted.of_identifier {x : String} (hx : IsIdentifier x) : IsDotted x :=
  ⟨x, [], by simp [dotted, selectors, String.ofList_toList], hx, by simp⟩

theorem dottedNames_ne_nil (w : String) : dottedNames w ≠ [] := by
  rw [dottedNames, Ne, List.map_eq_nil_iff]
  exact pieces_ne_nil _ _

/-- The names in a word are those that it is put together of. -/
theorem dottedNames_dotted {x : String} {names : List String} (hx : IsIdentifier x)
    (hnames : ∀ y ∈ names, IsIdentifier y) : dottedNames (dotted x names) = x :: names := by
  -- a name holds no dot, so it is one piece
  have hone {cs : List Char} (hcs : ∀ c ∈ cs, isNameChar c = true) (rest : List Char) :
      pieces '.' (cs ++ '.' :: rest) = cs :: pieces '.' rest ∧ pieces '.' cs = [cs] := by
    induction cs with
    | nil => exact ⟨by rw [List.nil_append, pieces, if_pos rfl], rfl⟩
    | cons c cs ih =>
      obtain ⟨hc, hcs⟩ := List.forall_mem_cons.mp hcs
      have hne : c ≠ '.' := by
        rintro rfl
        exact absurd hc (by decide)
      obtain ⟨hdot, hend⟩ := ih hcs
      exact ⟨by rw [List.cons_append, pieces, if_neg hne, hdot], by rw [pieces, if_neg hne, hend]⟩
  -- names between dots come apart at the dots
  have hall : pieces '.' (x.toList ++ selectors names) = x.toList :: names.map String.toList := by
    induction names generalizing x with
    | nil => simpa [selectors] using (hone hx.isNameChar []).2
    | cons y names ih =>
      obtain ⟨hy, hnames⟩ := List.forall_mem_cons.mp hnames
      rw [selectors, List.flatMap_cons, List.cons_append, (hone hx.isNameChar _).1, List.map_cons]
      exact congrArg _ (ih hy hnames)
  have hback (y : String) : String.ofList y.toList = y := String.ofList_toList
  rw [dottedNames, dotted, String.toList_ofList, hall, List.map_cons, List.map_map, hback]
  exact congrArg _ ((List.map_congr_left fun y _ => hback y).trans (List.map_id names))

/-- The part of an expression is as it is read from a text: names are names, integers have no sign, and nothing is
bound. -/
def LegiblePart : Expr → Prop
  | .literal _ (.int n) => 0 ≤ n.toInt
  | .literal _ _ => True
  | .var _ x => x ≠ "" ∧ ∀ c ∈ x.toList, isNameChar c = true
  | .global _ w => IsDotted w ∧ IsName w
  | .field _ _ x => IsIdentifier x
  | .call _ w _ c => IsDotted w ∧ IsName w ∧ c = none
  | .method _ _ x _ c => IsIdentifier x ∧ c = none
  | .list _ _ | .unary _ _ _ | .binary _ _ _ _ => True

/-- All parts of the expression are as they are read from a text. -/
def Legible (e : Expr) : Prop := ∀ p ∈ e.subexprs, p.LegiblePart

/-! ### What can be read back -/

/-- The word that the expression is written as, if it is one. -/
def word? : Expr → Option String
  | .global _ w => some w
  | .literal _ .null => some "null"
  | .literal _ (.bool b) => some (if b then "true" else "false")
  | _ => none

/-- Nothing keeps the literal from being read back: a string has no backslash, and a floating-point number has a point in
its text. -/
def LiteralPrintable : Literal → Prop
  | .string s => '\\' ∉ s.toList
  | .float x => Decimal.Fractional x
  | _ => True

/-- The part of an expression is no name after a word. -/
def NamesApart : Expr → Prop
  | .field _ b _ | .method _ b _ _ _ => b.word? = none
  | _ => True

/-- Nothing keeps the expression from being read back: all its literals can be printed, and no name stands after a word,
with which it would be read as one word. -/
structure Printable (e : Expr) : Prop where
  literals : ∀ n v, .literal n v ∈ e.subexprs → LiteralPrintable v
  names : ∀ p ∈ e.subexprs, p.NamesApart

end TemplateFrontend.Expr
