import TemplateFrontend.Markup.Commands
import TemplateFrontend.Proofs.Expr.MovedTokens
import TemplateFrontend.Tree.File
/-!
# Tags further on in a file

What is inside of a tag is read without a look at what stands around it. So a tag that stands further on in a
file is read as the same words, settings and declarations, further on in the file. A node that stands further
on is the same node with all places in it moved along: its own range, and the ranges of the declarations,
parameters, attributes and expressions in it. The numbers of the nodes inside it are no places.

* `NodeKind.shift`, `Node.shift` — a node further on in a file;
* `Node.shift_zero` — a node that is not moved;
* `Input.shift`, `Tag.shift` — a text and a tag further on in a file;
* `Input.word_along`, `Input.settings_along` — words and settings;
* `Tag.ofBody_shift` — the tag of a text.
-/

namespace TemplateFrontend

/-! ### Nodes -/

section Nodes

variable (d : Nat)

/-- A declaration of a parameter further on in a file. -/
def ParamDecl.shift (p : ParamDecl) : ParamDecl := { p with span := p.span.shift d }

/-- A declaration of a state variable further on in a file. -/
def StateDecl.shift (x : StateDecl) : StateDecl := { x with initial := x.initial.shift d, span := x.span.shift d }

/-- A template further on in a file. -/
def Template.shift (t : Template) : Template :=
  { t with params := t.params.map (ParamDecl.shift d), state := t.state.map (StateDecl.shift d) }

/-- A branch further on in a file. -/
def Branch.shift (b : Branch) : Branch := { b with cond := b.cond.shift d }

/-- A parameter that is passed, further on in a file. -/
def Passed.shift (p : Passed) : Passed := { p with bound := p.bound.mapExpr (Expr.shift d), span := p.span.shift d }

/-- A call further on in a file. -/
def Call.shift (c : Call) : Call := { c with passed := c.passed.map (Passed.shift d) }

/-- An attribute further on in a file. -/
def Attribute.shift (a : Attribute) : Attribute := { a with span := a.span.shift d }

/-- What a node is, further on in a file. -/
def NodeKind.shift : NodeKind → NodeKind
  | .template t => .template (t.shift d)
  | .print e directives => .print (e.shift d) (directives.map (Directive.shift d))
  | .conditional branches otherwise => .conditional (branches.map (Branch.shift d)) otherwise
  | .loop x list body => .loop x (list.shift d) body
  | .binding x bound => .binding x (bound.mapExpr (Expr.shift d))
  | .call c => .call (c.shift d)
  | .openTag name attributes closed => .openTag name (attributes.map (Attribute.shift d)) closed
  | k => k

/-- A node further on in a file. -/
def Node.shift (n : Node) : Node := ⟨n.kind.shift d, n.span.shift d⟩

/-! ### No distance -/

theorem StateDecl.shift_zero (x : StateDecl) : x.shift 0 = x := by
  rw [shift, Expr.shift_zero]
  rfl

theorem Template.shift_zero (t : Template) : t.shift 0 = t := by
  rw [shift, List.map_id'' (f := ParamDecl.shift 0) fun _ => rfl, List.map_id'' StateDecl.shift_zero]

theorem Branch.shift_zero (b : Branch) : b.shift 0 = b := by
  rw [shift, Expr.shift_zero]

theorem Bound.mapExpr_shift_zero (b : Bound) : b.mapExpr (Expr.shift 0) = b := by
  cases b with
  | value e => exact congrArg value e.shift_zero
  | content => rfl

theorem Passed.shift_zero (p : Passed) : p.shift 0 = p := by
  rw [shift, Bound.mapExpr_shift_zero]
  rfl

theorem Call.shift_zero (c : Call) : c.shift 0 = c := by
  rw [shift, List.map_id'' Passed.shift_zero]

theorem NodeKind.shift_zero (k : NodeKind) : k.shift 0 = k := by
  cases k with
  | template t => exact congrArg template t.shift_zero
  | print e ds => exact congrArg₂ print e.shift_zero (List.map_id'' Directive.shift_zero ds)
  | conditional branches otherwise =>
    exact congrArg (conditional · otherwise) (List.map_id'' Branch.shift_zero branches)
  | loop x list body => exact congrArg (loop x · body) list.shift_zero
  | binding x bound => exact congrArg (binding x) bound.mapExpr_shift_zero
  | call c => exact congrArg call c.shift_zero
  | openTag name attributes closed =>
    exact congrArg (openTag name · closed) (List.map_id'' (f := Attribute.shift 0) (fun _ => rfl) attributes)
  -- these kinds hold no expression
  | text | special | message | visualElement | closeTag => rfl

/-- A node that is not moved. -/
theorem Node.shift_zero (n : Node) : n.shift 0 = n := by
  rw [shift, NodeKind.shift_zero]
  rfl

end Nodes

/-! ### Texts -/

open Text

variable {d : Nat}

namespace Input

/-- The text further on in a file. -/
def shift (d : Nat) (i : Input) : Input := ⟨i.offset + d, i.rest⟩

section Texts

variable (i : Input)

theorem drop_shift (n : Nat) : (i.shift d).drop n = (i.drop n).shift d := by
  simp only [drop, shift, Nat.add_right_comm]

theorem takeWhile_shift (p : Char → Bool) :
    (i.shift d).takeWhile p = Prod.map id (shift d) (i.takeWhile p) :=
  congrArg (Prod.mk _) (i.drop_shift _)

theorem skipBlanks_shift : (i.shift d).skipBlanks = i.skipBlanks.shift d := i.drop_shift _

theorem trim_shift : (i.shift d).trim = i.trim.shift d := by
  rw [trim, skipBlanks_shift]
  rfl

theorem spanOf_shift (n : Nat) : (i.shift d).spanOf n = (i.spanOf n).shift d := by
  simp only [spanOf, shift, Span.shift, Nat.add_right_comm]

theorem mark?_shift (cs : List Char) : (i.shift d).mark? cs = (i.mark? cs).map (shift d) := by
  unfold mark?
  rw [skipBlanks_shift]
  dsimp only
  rw [drop_shift]
  by_cases h : cs.isPrefixOf i.skipBlanks.rest = true
  · exact (if_pos h).trans (by rw [if_pos h]; rfl)
  · exact (if_neg h).trans (by rw [if_neg h]; rfl)

/-- A word further on. -/
theorem word_along (expected : String) :
    Maps (Prod.map (Prod.map id (Span.shift d)) (shift d)) (i.word expected) ((i.shift d).word expected) := by
  unfold word
  rw [skipBlanks_shift]
  dsimp only
  rw [show (i.skipBlanks.shift d).rest = i.skipBlanks.rest from rfl]
  cases wordLength i.skipBlanks.rest with
  | zero => exact .error _ _
  | succ n =>
    refine .ok ?_
    rw [spanOf_shift, drop_shift]
    rfl

end Texts

end Input

/-! ### Settings -/

/-- A setting further on in a file. -/
def Setting.shift (d : Nat) (s : Setting) : Setting := { s with span := s.span.shift d }

theorem Setting.read_along (i : Input) :
    Maps (Prod.map (Setting.shift d) (Input.shift d)) (Setting.read i) (Setting.read (i.shift d)) := by
  refine (i.word_along "an attribute").bind ?_
  rintro ⟨⟨name, s⟩, j⟩ -
  dsimp only [Prod.map_apply, id_eq]
  rw [j.mark?_shift]
  -- the marks stand at the same characters, so both sides go wrong together
  cases j.mark? ['='] with
  | none => exact .error _ _
  | some k =>
    dsimp only [Option.map_some]
    rw [k.mark?_shift]
    cases k.mark? ['"'] with
    | none => exact .error _ _
    | some l =>
      dsimp only [Option.map_some]
      rw [l.takeWhile_shift]
      -- a value without a closing quote is an error in both texts
      refine .ite (fun _ => .error _ _) fun _ => ?_
      rw [Prod.map_snd, Input.drop_shift]
      exact .ok rfl

theorem Setting.readAll_along (fuel : Nat) (i : Input) :
    Maps (List.map (Setting.shift d)) (Setting.readAll fuel i) (Setting.readAll fuel (i.shift d)) := by
  induction fuel generalizing i with
  | zero => exact .ok rfl
  | succ fuel ih =>
    refine .ite (fun _ => .ok rfl) fun _ => (read_along i).bind ?_
    rintro ⟨s, j⟩ -
    exact (ih j).bind fun more _ => .ok rfl

/-- Settings further on. -/
theorem Input.settings_along (i : Input) : Maps (List.map (Setting.shift d)) i.settings (i.shift d).settings :=
  Setting.readAll_along i.rest.length i

/-! ### Tags -/

/-- A tag further on in a file. -/
def Tag.shift (d : Nat) (t : Tag) : Tag :=
  { t with args := t.args.shift d, content := t.content.shift d, span := t.span.shift d }

/-- The tag of a text that stands further on. -/
theorem Tag.ofBody_shift (body : Input) (s : Span) :
    Tag.ofBody (body.shift d) (s.shift d) = (Tag.ofBody body s).shift d := by
  -- the name is the first word of the text, and the arguments are what follows it
  have hnamed (content : Input) (closed : Bool) :
      Tag.mk (String.ofList ((content.shift d).takeWhile (! isBlank ·)).1)
          ((content.shift d).takeWhile (! isBlank ·)).2.trim (content.shift d) (s.shift d) closed =
        Tag.shift d ⟨String.ofList (content.takeWhile (! isBlank ·)).1,
          (content.takeWhile (! isBlank ·)).2.trim, content, s, closed⟩ := by
    rw [Input.takeWhile_shift, Prod.map_snd, Input.trim_shift]
    rfl
  unfold Tag.ofBody
  rw [Input.trim_shift]
  dsimp only [Input.shift]
  split
  · exact hnamed ⟨body.trim.offset, trimEnd body.trim.rest.dropLast⟩ _
  · exact hnamed body.trim _

namespace Markup

@[simp] theorem isClosing_shift (t : Tag) : (t.shift d).isClosing = t.isClosing := rfl

/-- The content kind of a block further on. -/
theorem contentKind_along (s : Setting) : Maps id (contentKind s) (contentKind (s.shift d)) := by
  unfold contentKind
  rw [show (s.shift d).value = s.value from rfl]
  cases ContentKind.ofWord? s.value with
  | none => exact .error _ _
  | some kind => exact .ok rfl

theorem blockKind_along (i : Input) : Maps id (blockKind i) (blockKind (i.shift d)) := by
  refine i.settings_along.bind fun settings _ => Maps.foldlM (fun kind s => ?_) settings ContentKind.html
  exact .ite (fun _ => contentKind_along s) fun _ => .error _ _

end Markup

end TemplateFrontend
