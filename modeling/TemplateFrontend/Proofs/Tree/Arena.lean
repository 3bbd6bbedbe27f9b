import TemplateFrontend.Proofs.Expr.Extents
import TemplateFrontend.Proofs.Tree.Editing
import Mathlib.Data.List.Nodup
import Mathlib.Logic.Relation
/-!
# Files as forests

What can be reached from the templates of a file by following the numbers in lists of nodes. In a table
that holds the forest of its templates, these nodes stand once each, and so do their expressions.

* `TemplateFile.Reaches`, `TemplateFile.StandsIn` — reachable nodes, and the lists that they stand in;
* `TemplateFile.heldExprs` — the expressions that reachable nodes hold;
* `TemplateFile.Unshared` — no node stands in two places, and there is no cycle;
* `TemplateFile.IsForest` — every node, and every expression, has one place, and the walk meets it once;
* `TemplateFile.Holds.perm_children` — in a forest every node is a root or stands in one list;
* `TemplateFile.Planted.isForest` — a table that holds the forest of its templates is a forest.
-/

namespace TemplateFrontend

/-- The ranges do not overlap. -/
def Span.Apart (s t : Span) : Prop := s.stop ≤ t.start ∨ t.stop ≤ s.start

/-- It does not matter which range is named first. -/
theorem Span.Apart.symm {s t : Span} (h : s.Apart t) : t.Apart s := Or.symm h

/-- The expressions take up ranges that do not overlap, and each has its own parts in order in its
range. An expression is known by its place, so none of them, and no part of one, is there twice. -/
structure Expr.Separate (es : List Expr) : Prop where
  apart : es.Pairwise fun e e' => e.span.Apart e'.span
  enclosed : ∀ e ∈ es, e.Enclosed

namespace Expr

section Separate

variable {e p : Expr} {es es' : List Expr}

/-- Some of the expressions, in any order, are separate too. -/
theorem Separate.subperm (h : Separate es) (hsub : es'.Subperm es) : Separate es' := by
  obtain ⟨l, hperm, hl⟩ := hsub
  refine ⟨?_, fun e he => h.enclosed e (hl.subset (hperm.mem_iff.mpr he))⟩
  exact hperm.pairwise (h.apart.sublist hl) fun h => h.symm

/-- Expressions in order do not overlap. -/
theorem InOrder.separate {lo hi : Nat} (h : InOrder lo hi es) : Separate es :=
  ⟨h.pairwise.imp fun hle => .inl hle, fun _ he => (h.inside he).enclosed⟩

/-- No part is larger than the whole. -/
theorem sizeOf_le_of_mem_subexprs (hp : p ∈ e.subexprs) : sizeOf p ≤ sizeOf e := by
  induction e using children_induct with
  | h e ih =>
    rw [subexprs_eq] at hp
    obtain rfl | hp := List.mem_cons.mp hp
    · exact Nat.le_refl _
    · obtain ⟨c, hc, hp⟩ := mem_subexprsOf.mp hp
      exact Nat.le_trans (ih c hc hp) (Nat.le_of_lt (sizeOf_lt_of_mem_children hc))

/-- The parts of an expression stand in its range. -/
theorem Enclosed.inside (h : e.Enclosed) (hp : p ∈ e.subexprs) :
    p.Inside e.span.start e.span.stop := by
  induction e using children_induct with
  | h e ih =>
    rw [subexprs_eq] at hp
    obtain rfl | hp := List.mem_cons.mp hp
    · exact ⟨h, Nat.le_refl _, Nat.le_refl _⟩
    · obtain ⟨c, hc, hp⟩ := mem_subexprsOf.mp hp
      have hchild := (enclosed_iff.mp h).2.inside hc
      exact (ih c hc hchild.enclosed hp).mono hchild.le_start hchild.stop_le

/-- Expressions in ranges that do not overlap have no part in common. -/
private theorem Separate.nodup_of (h : Separate es) (hes : ∀ e ∈ es, e.subexprs.Nodup) :
    (subexprsOf es).Nodup := by
  rw [subexprsOf_eq_flatMap]
  refine List.nodup_flatMap.mpr ⟨hes, ?_⟩
  refine h.apart.imp_of_mem fun {e e'} he he' hapart p hp hp' => ?_
  have hin := (h.enclosed e he).inside hp
  have hin' := (h.enclosed e' he').inside hp'
  have hne := hin.enclosed.nonempty
  obtain hle | hle := hapart
  · exact absurd (Nat.le_trans hin.stop_le (Nat.le_trans hle hin'.le_start)) (Nat.not_le.mpr hne)
  · exact absurd (Nat.le_trans hin'.stop_le (Nat.le_trans hle hin.le_start)) (Nat.not_le.mpr hne)

/-- An expression has each part once. -/
theorem Enclosed.nodup_subexprs (h : e.Enclosed) : e.subexprs.Nodup := by
  induction e using children_induct with
  | h e ih =>
    have hchildren := (enclosed_iff.mp h).2.separate
    rw [subexprs_eq]
    refine List.nodup_cons.mpr ⟨fun hself => ?_, ?_⟩
    · -- no expression is a part of a part of itself
      obtain ⟨c, hc, hself⟩ := mem_subexprsOf.mp hself
      have hlt := sizeOf_lt_of_mem_children hc
      exact Nat.not_lt.mpr (sizeOf_le_of_mem_subexprs hself) hlt
    · exact hchildren.nodup_of fun c hc => ih c hc (hchildren.enclosed c hc)

/-- **Each part once.** -/
theorem Separate.nodup_subexprsOf (h : Separate es) : (subexprsOf es).Nodup :=
  h.nodup_of fun e he => (h.enclosed e he).nodup_subexprs

end Separate

end Expr

namespace TemplateFile

open Forest

/-! ### Reachable nodes -/

/-- The templates of the file, and the nodes in the lists of reachable nodes. -/
inductive Reaches (f : TemplateFile) : NodeId → Prop
  | template {id : NodeId} (h : id ∈ f.templates) : Reaches f id
  | inside {owner id : NodeId} (h : Reaches f owner) (hid : id ∈ f.children owner) : Reaches f id

/-- The node stands in a list of a reachable node. -/
def StandsIn (f : TemplateFile) (id owner : NodeId) (slot : Nat) : Prop :=
  f.Reaches owner ∧ ∃ body, (f.kind owner).bodies[slot]? = some body ∧ id ∈ body

/-- A child stands in one of the lists. -/
theorem exists_standsIn {f : TemplateFile} {a b : NodeId} (ha : f.Reaches a) (hb : b ∈ f.children a) :
    ∃ slot, f.StandsIn b a slot := by
  obtain ⟨body, hbody, hmem⟩ := List.mem_flatten.mp hb
  obtain ⟨slot, hslot⟩ := List.mem_iff_getElem?.mp hbody
  exact ⟨slot, ha, body, hslot, hmem⟩

/-- What a path leads to can be reached. -/
theorem Reaches.of_path {f : TemplateFile} {a b : NodeId} (h : f.Reaches a)
    (hpath : Relation.ReflTransGen (fun a b => b ∈ f.children a) a b) : f.Reaches b := by
  induction hpath with
  | refl => exact h
  | tail _ hstep ih => exact .inside ih hstep

/-- The expressions that reachable nodes hold, node by node. -/
def heldExprs (f : TemplateFile) : List Expr := f.reachable.flatMap fun id => (f.kind id).exprs

/-- The parts of these expressions are the reachable expressions. -/
theorem reachableExprs_eq (f : TemplateFile) : f.reachableExprs = Expr.subexprsOf f.heldExprs := by
  rw [reachableExprs, heldExprs, Expr.subexprsOf_eq_flatMap, List.flatMap_assoc]
  exact List.flatMap_congr fun id _ => Expr.subexprsOf_eq_flatMap _

/-- **Nothing is shared** by the nodes that can be reached. -/
structure Unshared (f : TemplateFile) : Prop where
  lt_size : ∀ {id}, f.Reaches id → id < f.nodes.size
  templates_nodup : f.templates.Nodup
  not_standsIn_of_template : ∀ {id owner slot}, id ∈ f.templates → ¬ f.StandsIn id owner slot
  /-- A node stands in one list at most. -/
  standsIn_inj : ∀ {id owner slot owner' slot'}, f.StandsIn id owner slot → f.StandsIn id owner' slot' →
    owner = owner' ∧ slot = slot'
  bodies_nodup : ∀ {id body}, f.Reaches id → body ∈ (f.kind id).bodies → body.Nodup
  acyclic : ∀ {id}, f.Reaches id → ¬ Relation.TransGen (fun a b => b ∈ f.children a) id id

/-- **A file as a forest.** -/
structure IsForest (f : TemplateFile) : Prop where
  /-- No number is out of the table. -/
  lt_size : ∀ {id}, f.Reaches id → id < f.nodes.size
  templates_nodup : f.templates.Nodup
  /-- No template stands in a list. -/
  not_standsIn_of_template : ∀ {id owner slot}, id ∈ f.templates → ¬ f.StandsIn id owner slot
  /-- Every other reachable node stands in one list. -/
  unique_standsIn : ∀ {id}, f.Reaches id → id ∉ f.templates →
    ∃! place : NodeId × Nat, f.StandsIn id place.1 place.2
  /-- No node stands twice in a list. -/
  bodies_nodup : ∀ {id body}, f.Reaches id → body ∈ (f.kind id).bodies → body.Nodup
  acyclic : ∀ {id}, f.Reaches id → ¬ Relation.TransGen (fun a b => b ∈ f.children a) id id
  /-- The walk over the file meets every reachable node once. -/
  reachable_nodup : f.reachable.Nodup
  mem_reachable : ∀ {id}, id ∈ f.reachable ↔ f.Reaches id
  /-- The expressions of reachable nodes take up ranges of their own. -/
  exprs_separate : Expr.Separate f.heldExprs
  /-- No expression is held twice, by nodes or by other expressions. -/
  exprs_nodup : f.reachableExprs.Nodup

/-! ### Nodes of a forest in the table -/

section Holds

variable {f : TemplateFile} {ts : Forest} {id : NodeId}

/-- **Roots and lists.** Every node of the forest is a root, or it stands in the lists of the forest
once. -/
theorem Holds.perm_children (h : f.Holds ts) :
    (roots ts ++ (ids ts).flatMap f.children).Perm (ids ts) := h.depthFirst.perm

/-- The nodes of a forest are those that can be reached from its roots. -/
theorem Holds.reaches_of_mem (h : f.Holds ts) (hroots : ∀ r ∈ roots ts, f.Reaches r)
    (hid : id ∈ ids ts) : f.Reaches id := by
  obtain ⟨r, hr, hpath⟩ := h.depthFirst.mem_iff.mp hid
  exact (hroots r hr).of_path hpath

/-- What is below a node of the forest is in the forest, in order. -/
theorem subtrees_sublist {t : NodeTree} (ht : t ∈ subtrees ts) :
    (subtrees [t]).Sublist (subtrees ts) := by
  induction ts using Forest.induct with
  | nil => cases ht
  | cons i k bs ts ihb iht =>
    rw [subtrees_cons] at ht ⊢
    obtain rfl | ht := List.mem_cons.mp ht
    · rw [subtrees_cons, subtrees_nil, List.append_nil]
      exact (List.sublist_append_left _ _).cons_cons _
    · refine List.Sublist.cons _ ?_
      -- inside of the first tree or behind it, everything comes in its order
      obtain ht | ht := List.mem_append.mp ht
      · obtain ⟨b, hb, ht⟩ := List.mem_flatMap.mp ht
        exact (ihb b hb ht).trans
          ((sublist_flatMap subtrees hb).trans (List.sublist_append_left _ _))
      · exact (iht ht).trans (List.sublist_append_right _ _)

/-- A node of the forest with what is below it. -/
theorem Holds.exists_node (h : f.Holds ts) (hid : id ∈ ids ts) :
    ∃ k bs, .node id k bs ∈ subtrees ts ∧ f.Holds [.node id k bs] := by
  obtain ⟨⟨i, k, bs⟩, ht, rfl⟩ := List.mem_map.mp hid
  exact ⟨k, bs, ht, h.of_sublist (subtrees_sublist ht)⟩

/-- **No cycle.** Nothing below a node leads back to it. -/
theorem Holds.acyclic (h : f.Holds ts) (hid : id ∈ ids ts) :
    ¬ Relation.TransGen (fun a b => b ∈ f.children a) id id := by
  obtain ⟨k, bs, -, hnode⟩ := h.exists_node hid
  have hclosed := hnode.inside.closed
  -- everything that the node leads to is inside it
  have hbelow : ∀ {x}, Relation.TransGen (fun a b => b ∈ f.children a) id x →
      x ∈ ids bs.flatten := by
    intro x hx
    induction hx with
    | single hstep =>
      rw [hnode.children_eq] at hstep
      exact roots_subset_ids _ hstep
    | tail _ hstep ih => exact (hclosed _ ih).2 hstep
  intro hcycle
  -- so on a cycle the node would be inside itself
  have hself := hbelow hcycle
  rw [ids_flatten] at hself
  exact hnode.root_notMem_inside hself

end Holds

/-! ### Forests of templates -/

/-- The table holds a forest whose roots are the templates of the file. -/
structure Planted (f : TemplateFile) (ts : Forest) : Prop where
  holds : f.Holds ts
  roots_eq : roots ts = f.templates
  areTemplates : AreTemplates ts

namespace Planted

variable {f : TemplateFile} {ts : Forest} {id owner : NodeId} {slot : Nat}

/-- The reachable nodes are those of the forest, in its order. -/
theorem reachable_eq (h : f.Planted ts) : f.reachable = ids ts := h.holds.reachable h.roots_eq

/-- A node can be reached if it is in the forest. -/
theorem reaches_iff (h : f.Planted ts) : f.Reaches id ↔ id ∈ ids ts := by
  constructor
  · intro hid
    induction hid with
    | template hid => exact roots_subset_ids ts (h.roots_eq ▸ hid)
    | inside _ hid ih => exact (h.holds.closed _ ih).2 hid
  · exact h.holds.reaches_of_mem fun r hr => .template (h.roots_eq ▸ hr)

/-- A template of the file is a root of the forest, and its body is the list below the root. -/
theorem exists_node (h : f.Planted ts) (hid : id ∈ f.templates) :
    ∃ x b, .node id (.template x) [b] ∈ ts ∧ f.kind id = .template x ∧ x.body = roots b := by
  obtain ⟨x, b, hb⟩ := exists_template h.holds.labelled h.areTemplates (h.roots_eq.symm ▸ hid)
  have hself := mem_subtrees_self hb
  have hbody : [x.body] = [roots b] := h.holds.labelled _ hself
  exact ⟨x, b, hb, h.holds.shows_nodes _ hself, List.singleton_inj.mp hbody⟩

/-- A root of the forest is a template of the file, and a list below it is the body. -/
theorem template_of_mem (h : f.Planted ts) {x : Template} {bs : List Forest} {b : Forest}
    (hm : .node id (.template x) bs ∈ ts) (hb : b ∈ bs) :
    id ∈ f.templates ∧ f.kind id = .template x ∧ x.body = roots b := by
  have hself := mem_subtrees_self hm
  have hbodies : [x.body] = bs.map roots := h.holds.labelled _ hself
  have hbody : roots b ∈ [x.body] := hbodies ▸ List.mem_map_of_mem hb
  exact ⟨h.roots_eq ▸ List.mem_map_of_mem hm, h.holds.shows_nodes _ hself,
    (List.mem_singleton.mp hbody).symm⟩

/-- Templates and lists together name every node once. -/
theorem nodup_children (h : f.Planted ts) :
    (f.templates ++ (ids ts).flatMap f.children).Nodup := by
  rw [← h.roots_eq]
  exact h.holds.perm_children.nodup_iff.mpr h.holds.nodup

/-- What stands in a list of a node is a child of it. -/
theorem mem_children (h : f.StandsIn id owner slot) : id ∈ f.children owner := by
  obtain ⟨-, body, hbody, hid⟩ := h
  exact List.mem_flatten.mpr ⟨body, List.mem_of_getElem? hbody, hid⟩

/-- A node stands in one list at most. -/
theorem standsIn_inj (h : f.Planted ts) {owner' : NodeId} {slot' : Nat}
    (hs : f.StandsIn id owner slot) (hs' : f.StandsIn id owner' slot') :
    owner = owner' ∧ slot = slot' := by
  obtain ⟨-, hlists, -⟩ := List.nodup_append'.mp h.nodup_children
  obtain ⟨heach, hpairs⟩ := List.nodup_flatMap.mp hlists
  have howner := h.reaches_iff.mp hs.1
  -- the lists of two nodes have no node in common
  obtain rfl : owner = owner' := by
    by_contra hne
    have hsymm : Std.Symm (Function.onFun List.Disjoint f.children) :=
      ⟨fun _ _ hd _ hx hy => hd hy hx⟩
    exact hpairs.forall howner (h.reaches_iff.mp hs'.1) hne (mem_children hs) (mem_children hs')
  refine ⟨rfl, ?_⟩
  obtain ⟨-, b, hb, hid⟩ := hs
  obtain ⟨-, b', hb', hid'⟩ := hs'
  obtain ⟨hlt, rfl⟩ := List.getElem?_eq_some_iff.mp hb
  obtain ⟨hlt', rfl⟩ := List.getElem?_eq_some_iff.mp hb'
  -- two lists of one node have no node in common
  have hdisjoint := List.pairwise_iff_getElem.mp (List.nodup_flatten.mp (heach owner howner)).2
  rcases Nat.lt_trichotomy slot slot' with h' | h' | h'
  · exact absurd hid' (hdisjoint slot slot' hlt hlt' h' hid)
  · exact h'
  · exact absurd hid (hdisjoint slot' slot hlt' hlt h' hid')

/-- Such a file shares nothing. -/
theorem unshared (h : f.Planted ts) : f.Unshared where
  lt_size hid := h.holds.lt_size _ (h.reaches_iff.mp hid)
  templates_nodup := (List.nodup_append'.mp h.nodup_children).1
  not_standsIn_of_template hid hs := by
    obtain ⟨-, -, hdisjoint⟩ := List.nodup_append'.mp h.nodup_children
    exact hdisjoint hid (List.mem_flatMap.mpr ⟨_, h.reaches_iff.mp hs.1, mem_children hs⟩)
  standsIn_inj := h.standsIn_inj
  bodies_nodup hid hbody := by
    obtain ⟨-, hlists, -⟩ := List.nodup_append'.mp h.nodup_children
    have hchildren := (List.nodup_flatMap.mp hlists).1 _ (h.reaches_iff.mp hid)
    exact (List.nodup_flatten.mp hchildren).1 _ hbody
  acyclic hid := h.holds.acyclic (h.reaches_iff.mp hid)

/-- **The nodes of a file** whose table holds the forest of its templates. -/
theorem isForest (h : f.Planted ts) (hexprs : Expr.Separate f.heldExprs) : f.IsForest where
  lt_size := h.unshared.lt_size
  templates_nodup := h.unshared.templates_nodup
  not_standsIn_of_template := h.unshared.not_standsIn_of_template
  -- a node that is no template has an owner, and lists are apart
  unique_standsIn hid hnot := by
    obtain hid | ⟨howner, hid⟩ := hid
    · exact absurd hid hnot
    · obtain ⟨slot, hs⟩ := exists_standsIn howner hid
      refine ⟨(_, slot), hs, fun place hplace => ?_⟩
      obtain ⟨rfl, rfl⟩ := h.standsIn_inj hplace hs
      rfl
  bodies_nodup := h.unshared.bodies_nodup
  acyclic := h.unshared.acyclic
  reachable_nodup := h.reachable_eq ▸ h.holds.nodup
  mem_reachable := by
    intro id
    rw [h.reachable_eq, h.reaches_iff]
  exprs_separate := hexprs
  exprs_nodup := by
    rw [reachableExprs_eq]
    exact hexprs.nodup_subexprsOf

end Planted

/-- A forest shares nothing. -/
theorem IsForest.unshared {f : TemplateFile} (h : f.IsForest) : f.Unshared where
  lt_size := h.lt_size
  templates_nodup := h.templates_nodup
  not_standsIn_of_template := h.not_standsIn_of_template
  standsIn_inj := by
    intro id owner slot owner' slot' hs hs'
    have hreached : f.Reaches id := .inside hs.1 (Planted.mem_children hs)
    obtain ⟨place, -, hplace⟩ := h.unique_standsIn hreached fun ht => h.not_standsIn_of_template ht hs
    have heq := (hplace (owner, slot) hs).trans (hplace (owner', slot') hs').symm
    exact Prod.mk.inj heq
  bodies_nodup := h.bodies_nodup
  acyclic := h.acyclic

end TemplateFile

end TemplateFrontend
