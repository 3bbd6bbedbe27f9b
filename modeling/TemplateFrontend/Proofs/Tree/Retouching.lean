import TemplateFrontend.Proofs.Expr.Extents
import TemplateFrontend.Proofs.Markup.Steps
import TemplateFrontend.Proofs.Tree.Mapping
/-!
# Nodes that are only retouched

Resolution, typing and escaping change what a node says, but not which nodes are inside it, where its
expressions stand or under which key it is registered. More generally, a pass that sets nodes one after
the other often leaves some part of every node as it was. Such a part is a view of the node: if no step
changes what the view shows, nothing that the pass does changes it. Typing, for one, replaces expressions
and nothing else, so whatever does not look at expressions sees the same file.

* `NodeKind.Alike` — a node and the same node retouched;
* `TemplateFile.Retouched` — a file and the same file with nodes retouched, which `setKind` keeps;
* `TemplateFile.Retouched.holds` — a retouched table holds the forest with its nodes retouched;
* `TemplateFile.Retouched.reachable_eq` — the reachable nodes are the same;
* `TemplateFile.Keeps` — a file with another one in which a view shows the same, which `setKind`, folds
  over nodes and edits of lists keep;
* `TemplateFile.Rewritten` — a file with expressions rewritten in place;
* `TemplateFile.Rewritten.keeps` — views that do not look at expressions.
-/

namespace TemplateFrontend

/-- The key of a template in a package; other nodes have none. -/
def NodeKind.key? (package : Option String) : NodeKind → Option String
  | .template t => some (t.key package)
  | _ => none

/-- The second node is the first one retouched. -/
structure NodeKind.Alike (k k' : NodeKind) : Prop where
  bodies_eq : k'.bodies = k.bodies
  exprs : List.Forall₂ Expr.InPlace k.exprs k'.exprs
  key_eq : ∀ package, k'.key? package = k.key? package
  fitsValue_eq : k'.fitsValue = k.fitsValue
  /-- Open tags are not retouched. -/
  eq_of_openTag : ∀ name attributes closed, k' = .openTag name attributes closed → k' = k

namespace NodeKind

variable {k k' k'' : NodeKind}

/-- A node that was not touched. -/
theorem Alike.refl (k : NodeKind) : k.Alike k :=
  ⟨rfl, Expr.forall₂_inPlace_refl _, fun _ => rfl, rfl, fun _ _ _ _ => rfl⟩

/-- A node may be retouched twice. -/
theorem Alike.trans (h : k.Alike k') (h' : k'.Alike k'') : k.Alike k'' where
  bodies_eq := h'.bodies_eq.trans h.bodies_eq
  exprs := Expr.forall₂_inPlace_trans h.exprs h'.exprs
  key_eq := fun package => (h'.key_eq package).trans (h.key_eq package)
  fitsValue_eq := h'.fitsValue_eq.trans h.fitsValue_eq
  eq_of_openTag := fun name attributes closed heq => by
    have hmiddle := h'.eq_of_openTag name attributes closed heq
    rw [hmiddle] at heq ⊢
    exact h.eq_of_openTag name attributes closed heq

/-- A node that is no template and no tag is alike with one that holds the same. -/
theorem Alike.of_content (hbodies : k'.bodies = k.bodies)
    (hexprs : List.Forall₂ Expr.InPlace k.exprs k'.exprs) (hkey : ∀ package, k.key? package = none)
    (hkey' : ∀ package, k'.key? package = none) (hfits : k.fitsValue = true)
    (hfits' : k'.fitsValue = true) : k.Alike k' where
  bodies_eq := hbodies
  exprs := hexprs
  key_eq := fun package => (hkey' package).trans (hkey package).symm
  fitsValue_eq := hfits'.trans hfits.symm
  eq_of_openTag := fun name attributes closed heq => by
    rw [heq] at hfits'
    cases hfits'

/-- Expressions rewritten in place. -/
theorem alike_mapExprs {e : Expr → Expr} (he : ∀ x, Expr.InPlace x (e x))
    (k : NodeKind) : k.Alike (k.mapExprs e) where
  bodies_eq := bodies_mapExprs e k
  exprs := by
    rw [exprs_mapExprs, List.forall₂_map_right_iff]
    exact List.forall₂_same.mpr fun x _ => he x
  key_eq := fun package => by cases k <;> rfl
  fitsValue_eq := by cases k <;> rfl
  eq_of_openTag := fun name attributes closed heq => by
    cases k with
    | openTag => rfl
    | _ => cases heq

end NodeKind

namespace Forest

mutual

/-- The node and everything below it with the kinds of a table. -/
def relabelTree (f : TemplateFile) : NodeTree → NodeTree
  | .node id _ bodies => .node id (f.kind id) (relabelAll f bodies)

/-- The forest with the kinds of a table. -/
def relabel (f : TemplateFile) : Forest → Forest
  | [] => []
  | t :: ts => relabelTree f t :: relabel f ts

/-- Several forests with the kinds of a table. -/
def relabelAll (f : TemplateFile) : List Forest → List Forest
  | [] => []
  | b :: bs => relabel f b :: relabelAll f bs

end

section Relabel

variable (f : TemplateFile)

/-- Several forests are relabelled one by one. -/
theorem relabelAll_eq_map (bs : List Forest) : relabelAll f bs = bs.map (relabel f) := by
  induction bs with
  | nil => rfl
  | cons b bs ih => rw [relabelAll, ih, List.map_cons]

@[simp] theorem relabel_nil : relabel f [] = [] := rfl

/-- The first node gets the kind of the table, and so do those inside it. -/
@[simp] theorem relabel_cons (id : NodeId) (k : NodeKind) (bs : List Forest) (ts : Forest) :
    relabel f (.node id k bs :: ts) =
      .node id (f.kind id) (bs.map (relabel f)) :: relabel f ts := by
  rw [relabel, relabelTree, relabelAll_eq_map]

/-- The roots are the same nodes. -/
@[simp] theorem roots_relabel (ts : Forest) : roots (relabel f ts) = roots ts := by
  induction ts with
  | nil => rfl
  | cons t ts ih =>
    obtain ⟨id, k, bs⟩ := t
    rw [relabel_cons, roots_cons, roots_cons, ih, NodeTree.id_node, NodeTree.id_node]

/-- All nodes are the same. -/
@[simp] theorem ids_relabel (ts : Forest) : ids (relabel f ts) = ids ts := by
  induction ts using Forest.induct with
  | nil => rfl
  | cons id k bs ts ihb iht =>
    have hbodies : (bs.map (relabel f)).flatMap ids = bs.flatMap ids := by
      rw [List.flatMap_map]
      exact List.flatMap_congr fun b hb => ihb b hb
    rw [relabel_cons, ids_cons, ids_cons, hbodies, iht]

/-- Other kinds with the same lists. -/
theorem labelled_relabel {ts : Forest} (h : Labelled ts)
    (hbodies : ∀ t ∈ subtrees ts, (f.kind t.id).bodies = t.kind.bodies) :
    Labelled (relabel f ts) := by
  induction ts using Forest.induct with
  | nil => exact labelled_nil
  | cons id k bs ts ihb iht =>
    obtain ⟨hl, hlbs, hlts⟩ := labelled_cons.mp h
    rw [subtrees_cons] at hbodies
    obtain ⟨hself, hbelow⟩ := List.forall_mem_cons.mp hbodies
    rw [relabel_cons, labelled_cons, List.map_map]
    refine ⟨hself.trans (hl.trans ?_), fun b hb => ?_, ?_⟩
    -- the lists inside have the roots that they had
    · exact List.map_congr_left fun b _ => (roots_relabel f b).symm
    · obtain ⟨c, hc, rfl⟩ := List.mem_map.mp hb
      refine ihb c hc (hlbs c hc) fun t ht => hbelow t (List.mem_append_left _ ?_)
      exact List.mem_flatMap.mpr ⟨c, hc, ht⟩
    · exact iht hlts fun t ht => hbelow t (List.mem_append_right _ ht)

/-- The table shows what it gave the forest. -/
theorem shows_relabel (ts : Forest) : f.Shows (relabel f ts) := by
  induction ts using Forest.induct with
  | nil => exact TemplateFile.shows_nil
  | cons id k bs ts ihb iht =>
    rw [relabel_cons, TemplateFile.shows_cons]
    refine ⟨rfl, fun b hb => ?_, iht⟩
    obtain ⟨c, hc, rfl⟩ := List.mem_map.mp hb
    exact ihb c hc

end Relabel

end Forest

namespace TemplateFile

open Forest

/-- Nodes that have the lists that they had. -/
theorem Holds.relabel {f g : TemplateFile} {ts : Forest} (h : f.Holds ts)
    (hsize : f.nodes.size ≤ g.nodes.size)
    (hbodies : ∀ x ∈ ids ts, (g.kind x).bodies = (f.kind x).bodies) :
    g.Holds (Forest.relabel g ts) where
  shows_nodes := shows_relabel g ts
  labelled := labelled_relabel g h.labelled fun t ht => by
    rw [hbodies t.id (List.mem_map_of_mem ht), h.shows_nodes t ht]
  nodup := by
    rw [ids_relabel]
    exact h.nodup
  lt_size x hx := by
    rw [ids_relabel] at hx
    exact Nat.lt_of_lt_of_le (h.lt_size x hx) hsize

/-- The second file is the first one with nodes retouched. -/
structure Retouched (f g : TemplateFile) : Prop where
  size_eq : g.nodes.size = f.nodes.size
  alike : ∀ id, (f.kind id).Alike (g.kind id)
  rest_eq : { g with nodes := f.nodes } = f

namespace Retouched

variable {f g h : TemplateFile}

/-- A file that was not touched. -/
theorem refl (f : TemplateFile) : Retouched f f := ⟨rfl, fun _ => .refl _, rfl⟩

/-- A file may be retouched twice. -/
theorem trans (h₁ : Retouched f g) (h₂ : Retouched g h) : Retouched f h where
  size_eq := h₂.size_eq.trans h₁.size_eq
  alike := fun id => (h₁.alike id).trans (h₂.alike id)
  rest_eq := rest_trans h₁.rest_eq h₂.rest_eq

/-- A node is set to a form of what it was at first. -/
theorem setKind (hr : Retouched f g) {id : NodeId} {k : NodeKind} (hk : (f.kind id).Alike k) :
    Retouched f (g.setKind id k) where
  size_eq := (size_setKind ..).trans hr.size_eq
  alike := fun other => by
    obtain ⟨rfl, hkind⟩ | hkind := kind_setKind_cases g id k other
    · rwa [hkind]
    · rw [hkind]
      exact hr.alike other
  rest_eq := hr.rest_eq

/-- A node is retouched once more. -/
theorem retouch (hr : Retouched f g) {id : NodeId} {k : NodeKind} (hk : (g.kind id).Alike k) :
    Retouched f (g.setKind id k) :=
  hr.setKind ((hr.alike id).trans hk)

/-! ### What a retouched file keeps -/

/-- The templates are the same. -/
theorem templates_eq (hr : Retouched f g) : g.templates = f.templates :=
  templates_of_rest hr.rest_eq

/-- A node has the children that it had. -/
theorem children_eq (hr : Retouched f g) (id : NodeId) : g.children id = f.children id := by
  rw [children, children, (hr.alike id).bodies_eq]

/-- A walk meets the same nodes. -/
theorem preorder_eq (hr : Retouched f g) (fuel : Nat) (ids : List NodeId) :
    g.preorder fuel ids = f.preorder fuel ids := by
  induction fuel generalizing ids with
  | zero => rfl
  | succ fuel ih =>
    cases ids with
    | nil => rfl
    | cons id ids => rw [preorder, preorder, hr.children_eq, ih]

/-- The same nodes are below a node. -/
theorem descendants_eq (hr : Retouched f g) (id : NodeId) : g.descendants id = f.descendants id := by
  rw [descendants, descendants, hr.size_eq, hr.children_eq, hr.preorder_eq]

/-- The reachable nodes are the same. -/
theorem reachable_eq (hr : Retouched f g) : g.reachable = f.reachable := by
  unfold reachable
  rw [hr.templates_eq]
  exact List.flatMap_congr fun id _ => congrArg (id :: ·) (hr.descendants_eq id)

/-- The table holds the forest with the retouched nodes. -/
theorem holds {ts : Forest} (hr : Retouched f g) (h : f.Holds ts) : g.Holds (relabel g ts) :=
  h.relabel (Nat.le_of_eq hr.size_eq.symm) fun x _ => (hr.alike x).bodies_eq

end Retouched

/-! ### Views that are kept -/

variable {α β : Type} {view : NodeKind → α} {f g h : TemplateFile}

/-- The view shows the same of all nodes of both files, the nodes stand in the same places, and all
else is the same. -/
structure Keeps (view : NodeKind → α) (f g : TemplateFile) : Prop where
  view_eq : ∀ id, view (g.kind id) = view (f.kind id)
  span_eq : ∀ id, g.span id = f.span id
  rest_eq : { g with nodes := f.nodes } = f

namespace Keeps

/-- Any view of a file that was not touched. -/
theorem refl (view : NodeKind → α) (f : TemplateFile) : Keeps view f f :=
  ⟨fun _ => rfl, fun _ => rfl, rfl⟩

/-- A view may be kept twice. -/
theorem trans (h₁ : Keeps view f g) (h₂ : Keeps view g h) : Keeps view f h where
  view_eq id := (h₂.view_eq id).trans (h₁.view_eq id)
  span_eq id := (h₂.span_eq id).trans (h₁.span_eq id)
  rest_eq := rest_trans h₁.rest_eq h₂.rest_eq

/-- What is seen of what the view shows is the same too. -/
theorem comp (hk : Keeps view f g) (more : α → β) : Keeps (fun k => more (view k)) f g :=
  ⟨fun id => congrArg more (hk.view_eq id), hk.span_eq, hk.rest_eq⟩

/-- With a view the templates are kept. -/
theorem templates_eq (hk : Keeps view f g) : g.templates = f.templates :=
  templates_of_rest hk.rest_eq

/-- A node is set to one that the view shows alike. -/
theorem setKind {id : NodeId} {k : NodeKind} (hk : view k = view (f.kind id)) :
    Keeps view f (f.setKind id k) where
  view_eq other := by
    obtain ⟨rfl, hkind⟩ | hkind := kind_setKind_cases f id k other
    · rw [hkind, hk]
    · rw [hkind]
  span_eq := fun _ => span_setKind ..
  rest_eq := rfl

/-- Steps that keep a view, one after the other. -/
theorem foldl {ι : Type} {step : TemplateFile → ι → TemplateFile}
    (hstep : ∀ g a, Keeps view g (step g a)) (f : TemplateFile) (as : List ι) :
    Keeps view f (as.foldl step f) := by
  induction as generalizing f with
  | nil => exact .refl view f
  | cons a as ih => exact (hstep f a).trans (ih _)

/-- Editing lists keeps a view that does not look at the lists, if each edit does. -/
theorem editBodies {edit : BodyEdit} (hedit : ∀ f ids, Keeps view f (edit f ids).1)
    (hview : ∀ (k : NodeKind) ls, view (k.withBodies ls) = view k) (f : TemplateFile) :
    Keeps view f (f.editBodies edit) := by
  refine foldl (fun g id => foldl (fun g slot => ?_) g _) f _
  unfold editBody
  split
  · exact .refl view g
  · next body _ => exact (hedit g body).trans (setKind (hview _ _))

end Keeps

/-! ### Expressions rewritten in place -/

/-- The second file is the first one with the expressions of nodes rewritten in place. -/
structure Rewritten (f g : TemplateFile) : Prop where
  size_eq : g.nodes.size = f.nodes.size
  kind_eq : ∀ id, ∃ e : Expr → Expr,
    (∀ x, Expr.InPlace x (e x)) ∧ g.kind id = (f.kind id).mapExprs e
  span_eq : ∀ id, g.span id = f.span id
  rest_eq : { g with nodes := f.nodes } = f

end TemplateFile

/-- Rewriting each expression to itself changes no node. -/
theorem NodeKind.mapExprs_id (k : NodeKind) : k.mapExprs (fun e => e) = k := by
  cases k with
  | binding x b => cases b <;> rfl
  -- of a call it is the parameters that hold expressions
  | call c =>
    refine congrArg (fun ps => NodeKind.call { c with passed := ps }) ?_
    refine (List.map_congr_left fun p _ => ?_).trans (List.map_id _)
    obtain ⟨name, bound, span⟩ := p
    cases bound <;> rfl
  | template t =>
    exact congrArg (fun ds => NodeKind.template { t with state := ds }) (List.map_id _)
  | print e ds =>
    refine congrArg (NodeKind.print e) ((List.map_congr_left fun d _ => ?_).trans (List.map_id _))
    exact congrArg (fun args => { d with args }) (List.map_id _)
  | conditional bs o => exact congrArg (NodeKind.conditional · o) (List.map_id _)
  | _ => rfl

namespace TemplateFile.Rewritten

variable {α : Type} {view : NodeKind → α} {f g h : TemplateFile}

/-- A file of which nothing was rewritten. -/
theorem refl (f : TemplateFile) : Rewritten f f :=
  ⟨rfl, fun id => ⟨fun e => e, .refl, (f.kind id).mapExprs_id.symm⟩, fun _ => rfl, rfl⟩

/-- A file may be rewritten twice. -/
theorem trans (h₁ : Rewritten f g) (h₂ : Rewritten g h) : Rewritten f h where
  size_eq := h₂.size_eq.trans h₁.size_eq
  kind_eq id := by
    obtain ⟨e, he, hg⟩ := h₁.kind_eq id
    obtain ⟨e', he', hh⟩ := h₂.kind_eq id
    refine ⟨e' ∘ e, fun x => (he x).trans (he' (e x)), ?_⟩
    rw [hh, hg, NodeKind.mapExprs_mapExprs]
  span_eq id := (h₂.span_eq id).trans (h₁.span_eq id)
  rest_eq := rest_trans h₁.rest_eq h₂.rest_eq

/-- A node is set to what it was at first, with its expressions rewritten. -/
theorem setKind (hr : Rewritten f g) {e : Expr → Expr} (he : ∀ x, Expr.InPlace x (e x)) (id : NodeId) :
    Rewritten f (g.setKind id ((f.kind id).mapExprs e)) where
  size_eq := (size_setKind ..).trans hr.size_eq
  kind_eq other := by
    obtain ⟨rfl, hkind⟩ | hkind := kind_setKind_cases g id ((f.kind id).mapExprs e) other
    · exact ⟨e, he, hkind⟩
    · rw [hkind]
      exact hr.kind_eq other
  span_eq other := (span_setKind ..).trans (hr.span_eq other)
  rest_eq := hr.rest_eq

/-- A node is rewritten once more. -/
theorem rewrite (hr : Rewritten f g) {e : Expr → Expr} (he : ∀ x, Expr.InPlace x (e x)) (id : NodeId) :
    Rewritten f (g.setKind id ((g.kind id).mapExprs e)) :=
  hr.trans ((refl g).setKind he id)

/-- Steps that rewrite nodes, one after the other. -/
theorem foldl {ι : Type} {step : TemplateFile → ι → TemplateFile} {as : List ι}
    (hstep : ∀ a ∈ as, ∀ g, Rewritten f g → Rewritten f (step g a)) (hr : Rewritten f g) :
    Rewritten f (as.foldl step g) := by
  induction as generalizing g with
  | nil => exact hr
  | cons a as ih =>
    obtain ⟨ha, has⟩ := List.forall_mem_cons.mp hstep
    exact ih has (ha g hr)

/-- What is rewritten is retouched. -/
theorem retouched (hr : Rewritten f g) : Retouched f g where
  size_eq := hr.size_eq
  alike id := by
    obtain ⟨e, he, hkind⟩ := hr.kind_eq id
    rw [hkind]
    exact NodeKind.alike_mapExprs he _
  rest_eq := hr.rest_eq

/-- **Expressions aside**, nothing is seen of the rewriting. -/
theorem keeps (hr : Rewritten f g) (hview : ∀ (k : NodeKind) e, view (k.mapExprs e) = view k) :
    Keeps view f g where
  view_eq id := by
    obtain ⟨e, -, hkind⟩ := hr.kind_eq id
    rw [hkind, hview]
  span_eq := hr.span_eq
  rest_eq := hr.rest_eq

end TemplateFile.Rewritten

end TemplateFrontend
