import TemplateFrontend.Proofs.Expr.Ranges
import TemplateFrontend.Proofs.Tree.Arena
import TemplateFrontend.Tree.File
/-!
# The ranges that a file takes up

A node takes up a range of the text. In that range stand the nodes inside it, its expressions and what else
of it has a range, one after the other, and in the range of each of these stand its own parts.

* `Extent` — what stands in the range of a node: another node, or a range with more in it;
* `Extent.InOrder` — what stands between two offsets, in source order and without overlaps;
* `NodeKind.extents` — what each kind of node has in its range;
* `TemplateFile.LaidOut` — the property of whole files;
* `Expr.inOrder_extents` — expressions whose parts are in order and fit the text.
-/

namespace TemplateFrontend

open Text

/-- What stands in the range of a node. -/
inductive Extent where
  /-- A node inside it. -/
  | node (id : NodeId)
  /-- An expression, a declaration or another part with a range of its own. -/
  | range (span : Span) (parts : List Extent)

namespace Extent

mutual

/-- The extent takes up the range `s`: a node of the table does, or a part whose own parts stand in that
range. What stands inside a node is said of the node, not where it is named. -/
def Covers (nodes : Array Node) (content : List Char) (s : Span) : Extent → Prop
  | .node id => nodes[id]?.map (·.span) = some s
  | .range s' parts => s' = s ∧ InOrder nodes content s.start s.stop parts

/-- The extents stand between two offsets, each from one boundary of the text to another and not before the
one before it stops. -/
def InOrder (nodes : Array Node) (content : List Char) (lo hi : Nat) : List Extent → Prop
  | [] => lo ≤ hi
  | x :: xs => ∃ s : Span, x.Covers nodes content s ∧ s.Fits content ∧ lo ≤ s.start ∧
    InOrder nodes content s.stop hi xs

end

variable {nodes : Array Node} {content : List Char} {lo mid hi : Nat} {xs ys : List Extent} {x : Extent}
  {s : Span}

namespace InOrder

theorem le (h : InOrder nodes content lo hi xs) : lo ≤ hi := by
  induction xs generalizing lo with
  | nil => exact h
  | cons x xs ih =>
    obtain ⟨s, -, hs, hlo, hrest⟩ := h
    exact Nat.le_trans hlo (Nat.le_trans hs.start_le_stop (ih hrest))

theorem mono {lo' hi' : Nat} (h : InOrder nodes content lo hi xs) (hlo : lo' ≤ lo) (hhi : hi ≤ hi') :
    InOrder nodes content lo' hi' xs := by
  induction xs generalizing lo lo' with
  | nil => exact Nat.le_trans hlo (Nat.le_trans h hhi)
  | cons x xs ih =>
    obtain ⟨s, hx, hs, hstart, hrest⟩ := h
    exact ⟨s, hx, hs, Nat.le_trans hlo hstart, ih hrest (Nat.le_refl _)⟩

theorem append (h : InOrder nodes content lo mid xs) (h' : InOrder nodes content mid hi ys) :
    InOrder nodes content lo hi (xs ++ ys) := by
  induction xs generalizing lo with
  | nil => exact h'.mono h (Nat.le_refl hi)
  | cons x xs ih =>
    obtain ⟨s, hx, hs, hstart, hrest⟩ := h
    exact ⟨s, hx, hs, hstart, ih hrest⟩

theorem one (hx : x.Covers nodes content s) (hs : s.Fits content) :
    InOrder nodes content s.start s.stop [x] :=
  ⟨s, hx, hs, Nat.le_refl _, Nat.le_refl _⟩

/-- One more at the end. -/
theorem concat (h : InOrder nodes content lo mid xs) (hx : x.Covers nodes content s)
    (hs : s.Fits content) (hmid : mid ≤ s.start) (hhi : s.stop ≤ hi) :
    InOrder nodes content lo hi (xs ++ [x]) :=
  h.append ((one hx hs).mono hmid hhi)

end InOrder

/-! ### More nodes -/

mutual

theorem Covers.push (n : Node) : ∀ {x : Extent} {s : Span}, x.Covers nodes content s →
    x.Covers (nodes.push n) content s
  | .node id, s, h => by
    -- a node that is there already keeps its place
    obtain ⟨m, hm, hs⟩ := Option.map_eq_some_iff.mp h
    obtain ⟨hlt, rfl⟩ := Array.getElem?_eq_some_iff.mp hm
    unfold Covers
    rw [Array.getElem?_push_lt hlt]
    exact congrArg some hs
  | .range s' parts, s, h => ⟨h.1, InOrder.push n h.2⟩

/-- What stands in order does so when the table has one more node. -/
theorem InOrder.push (n : Node) : ∀ {xs : List Extent} {lo hi : Nat}, InOrder nodes content lo hi xs →
    InOrder (nodes.push n) content lo hi xs
  | [], _, _, h => h
  | _ :: _, _, _, ⟨s, hx, hs, hlo, hrest⟩ => ⟨s, hx.push n, hs, hlo, InOrder.push n hrest⟩

end

theorem covers_push_self (content : List Char) (nodes : Array Node) (n : Node) :
    (Extent.node nodes.size).Covers (nodes.push n) content n.span := by
  simp [Covers]

end Extent

/-! ### Expressions -/

mutual
/-- The range of an expression, with the ranges of its parts. -/
def Expr.extent : Expr → Extent
  | .literal n _ | .var n _ | .global n _ => .range n.span []
  | .field n b _ => .range n.span [b.extent]
  | .call n _ as _ => .range n.span (Expr.extents as)
  | .method n b _ as _ => .range n.span (b.extent :: Expr.extents as)
  | .list n es => .range n.span (Expr.extents es)
  | .unary n _ e => .range n.span [e.extent]
  | .binary n _ a b => .range n.span [a.extent, b.extent]

/-- The ranges of several expressions. -/
def Expr.extents : List Expr → List Extent
  | [] => []
  | e :: es => e.extent :: Expr.extents es
end

/-- The range of a directive, with those of its arguments. -/
def Directive.extent (d : Directive) : Extent := .range d.span (Expr.extents d.args)

namespace Expr

variable {nodes : Array Node} {content : List Char} {lo hi : Nat}

theorem extent_eq (e : Expr) : e.extent = .range e.span (extents e.children) := by
  cases e <;> simp [extent, extents, children, span, note]

/-- Expressions in order take up ranges in order, if every one of them covers its own range. -/
theorem InOrder.extents_of {es : List Expr} (h : InOrder lo hi es)
    (hes : ∀ e ∈ es, e.Enclosed → e.extent.Covers nodes content e.span ∧ e.span.Fits content) :
    Extent.InOrder nodes content lo hi (extents es) := by
  induction es generalizing lo with
  | nil => exact h
  | cons e es ih =>
    obtain ⟨hlo, he, hrest⟩ := h
    obtain ⟨hself, hes⟩ := List.forall_mem_cons.mp hes
    obtain ⟨hcovers, hfits⟩ := hself he
    exact ⟨e.span, hcovers, hfits, hlo, ih hrest hes⟩

theorem covers_extent {e : Expr} (h : e.Enclosed) (hfits : e.SpansIn (Span.Fits content)) :
    e.extent.Covers nodes content e.span := by
  induction e using children_induct with
  | h e ih =>
    -- the parts are in order between the ends of the whole, and each covers its own range
    obtain ⟨-, horder⟩ := enclosed_iff.mp h
    obtain ⟨-, hparts⟩ := spansIn_iff.mp hfits
    rw [extent_eq]
    refine ⟨rfl, horder.extents_of fun c hc henclosed => ?_⟩
    exact ⟨ih c hc henclosed (hparts c hc), (hparts c hc).span⟩

/-- **Expressions in order** whose ranges fit the text. -/
theorem inOrder_extents {es : List Expr} (h : InOrder lo hi es)
    (hfits : ∀ e ∈ es, e.SpansIn (Span.Fits content)) :
    Extent.InOrder nodes content lo hi (extents es) :=
  h.extents_of fun e he henclosed => ⟨covers_extent henclosed (hfits e he), (hfits e he).span⟩

end Expr

theorem Directive.inOrder_extents {nodes : Array Node} {content : List Char} {lo hi : Nat}
    {ds : List Directive} (h : Directive.InOrder lo hi ds)
    (hfits : ∀ d ∈ ds, d.SpansIn (Span.Fits content)) :
    Extent.InOrder nodes content lo hi (ds.map Directive.extent) := by
  induction ds generalizing lo with
  | nil => exact h
  | cons d ds ih =>
    obtain ⟨hlo, hargs, hrest⟩ := h
    obtain ⟨⟨hd, hargsFit⟩, hds⟩ := List.forall_mem_cons.mp hfits
    exact ⟨d.span, ⟨rfl, Expr.inOrder_extents hargs hargsFit⟩, hd, hlo, ih hrest hds⟩

/-! ### Nodes -/

/-- Nodes inside a node. -/
def Extent.ofNodes (ids : List NodeId) : List Extent := ids.map .node

open Extent (ofNodes)

/-- A declaration of a parameter takes up the range of its tag. -/
def ParamDecl.extent (d : ParamDecl) : Extent := .range d.span []

/-- A declaration of state, with the expression of its default. -/
def StateDecl.extent (d : StateDecl) : Extent := .range d.span [d.initial.extent]

/-- The value that is bound, or the content. -/
def Bound.extents : Bound → List Extent
  | .value e => [e.extent]
  | .content _ body => ofNodes body

/-- A parameter that a call passes, with what is bound to it. -/
def Passed.extent (p : Passed) : Extent := .range p.span p.bound.extents

/-- An attribute, with the nodes of its value if one is written. -/
def Attribute.extent (a : Attribute) : Extent := .range a.span (ofNodes (a.value.getD []))

/-- A condition and what it guards. -/
def Branch.extents (b : Branch) : List Extent := b.cond.extent :: ofNodes b.body

/-- What stands in the range of a node, in source order. The parameters and the state variables of a
template may be declared in turn, so they are two lists, and the body comes after both. -/
def NodeKind.extents : NodeKind → List (List Extent)
  | .template t =>
    [t.params.map ParamDecl.extent ++ ofNodes t.body, t.state.map StateDecl.extent ++ ofNodes t.body]
  | .print e directives => [e.extent :: directives.map Directive.extent]
  | .conditional branches otherwise =>
    [branches.flatMap Branch.extents ++ ofNodes (otherwise.getD [])]
  | .loop _ list body => [list.extent :: ofNodes body]
  | .binding _ bound => [bound.extents]
  | .call c => [c.passed.map Passed.extent]
  | .message _ _ body | .visualElement _ body => [ofNodes body]
  | .openTag _ attributes _ => [attributes.map Attribute.extent]
  | .text _ | .special _ | .closeTag _ => []

/-- The node takes up a range of the text, in which its parts stand in order. -/
structure Node.LaidOut (nodes : Array Node) (content : List Char) (n : Node) : Prop where
  fits : n.span.Fits content
  extents : ∀ xs ∈ n.kind.extents, Extent.InOrder nodes content n.span.start n.span.stop xs

/-- **The ranges of a file** of the text `content`: every node is laid out, and the templates stand in the
text one after the other. -/
structure TemplateFile.LaidOut (content : List Char) (f : TemplateFile) : Prop where
  nodes : ∀ n ∈ f.nodes, n.LaidOut f.nodes content
  templates : Extent.InOrder f.nodes content 0 (byteLength content) (ofNodes f.templates)

end TemplateFrontend
