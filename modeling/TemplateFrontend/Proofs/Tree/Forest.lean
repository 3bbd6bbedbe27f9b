import TemplateFrontend.Proofs.Tree.DepthFirst
import TemplateFrontend.Tree.File
import Mathlib.Data.List.Nodup
import Mathlib.Data.List.Pairwise
import Mathlib.Data.List.Perm.Subperm
import Mathlib.Data.List.Perm.Basic
/-!
# The forest that a table of nodes holds

A `TemplateFile` keeps its nodes in a table in which they name each other by number. As long as every
node is named at most once, following the numbers from a list of nodes gives a forest, and a walk over
the table is a recursion over that forest. A table is filled node by node: a new node takes in nodes that
stand alone and stands alone from then on. What stands alone is a list of roots, in any order.

* `NodeTree`, `Forest` — nodes with everything below them, with their numbers;
* `TemplateFile.Holds` — the table of a file holds a forest: every node of the forest stands in the
  table under its number, and no two have the same;
* `TemplateFile.forest` — the forest below a list of nodes, read off the table;
* `TemplateFile.Holds.forest_roots` — reading a forest that the table holds gives that forest;
* `TemplateFile.Holds.reachable` — the reachable nodes are those of the forest of templates, each
  before the nodes inside it;
* `TemplateFile.HoldsBelow` — the table holds a forest with the given roots;
* `TemplateFile.HoldsBelow.perm`, `TemplateFile.HoldsBelow.of_sublist` — the order of the roots does
  not matter, and some may be left out;
* `TemplateFile.HoldsBelow.add` — a new node over some of the roots.
-/

namespace TemplateFrontend

/-- A node with everything below it. The lists of numbers in the kind repeat what the bodies say;
`Forest.Labelled` states that they agree. -/
inductive NodeTree where
  | node (id : NodeId) (kind : NodeKind) (bodies : List (List NodeTree))

/-- The nodes of a list with everything below them. -/
abbrev Forest := List NodeTree

namespace NodeTree

/-- The number of the root. -/
def id : NodeTree → NodeId
  | .node id _ _ => id

/-- What the root is. -/
def kind : NodeTree → NodeKind
  | .node _ kind _ => kind

/-- The lists of nodes inside the root. -/
def bodies : NodeTree → List Forest
  | .node _ _ bodies => bodies

@[simp] theorem id_node (id : NodeId) (k : NodeKind) (bs : List Forest) :
    (node id k bs).id = id := rfl

@[simp] theorem kind_node (id : NodeId) (k : NodeKind) (bs : List Forest) :
    (node id k bs).kind = k := rfl

@[simp] theorem bodies_node (id : NodeId) (k : NodeKind) (bs : List Forest) :
    (node id k bs).bodies = bs := rfl

end NodeTree

mutual

/-- The node and everything below it, each before the nodes inside it. -/
def NodeTree.subtrees : NodeTree → List NodeTree
  | .node id kind bodies => .node id kind bodies :: Forest.subtreesOfAll bodies

/-- The nodes of a forest, each before the nodes inside it. -/
def Forest.subtrees : Forest → List NodeTree
  | [] => []
  | t :: ts => t.subtrees ++ Forest.subtrees ts

/-- The nodes of several forests, one forest after the other. -/
def Forest.subtreesOfAll : List Forest → List NodeTree
  | [] => []
  | b :: bs => Forest.subtrees b ++ Forest.subtreesOfAll bs

end

namespace Forest

/-- **Induction over forests.** What holds of the empty forest, and of a node followed by a forest
once it holds of every list inside the node and of that forest, holds of every forest. -/
@[elab_as_elim]
theorem induct {P : Forest → Prop} (nil : P [])
    (cons : ∀ id kind bodies rest, (∀ b ∈ bodies, P b) → P rest → P (.node id kind bodies :: rest))
    (ts : Forest) : P ts :=
  @NodeTree.rec_2 (fun t => ∀ rest, P rest → P (t :: rest)) (fun bs => ∀ b ∈ bs, P b) P
    (fun id k bs hbs rest hrest => cons id k bs rest hbs hrest)
    (fun _ hb => absurd hb List.not_mem_nil)
    (fun _ _ hb hbs _ hc => (List.mem_cons.mp hc).elim (fun h => h ▸ hb) (hbs _))
    nil (fun _ ts ht hts => ht ts hts) ts

/-! ### Nodes and numbers -/

/-- What is listed for one of the lists inside a node is part of what is listed for the node. -/
theorem sublist_flatMap {α : Type} {b : Forest} {bs : List Forest} (listed : Forest → List α) (hb : b ∈ bs) :
    (listed b).Sublist (bs.flatMap listed) := by
  rw [List.flatMap_def]
  exact List.sublist_flatten_of_mem (List.mem_map_of_mem hb)

/-- The numbers of the roots. -/
def roots (ts : Forest) : List NodeId := ts.map NodeTree.id

/-- The numbers of all nodes, each before those inside it. -/
def ids (ts : Forest) : List NodeId := (subtrees ts).map NodeTree.id

@[simp] theorem roots_nil : roots [] = [] := rfl

@[simp] theorem roots_cons (t : NodeTree) (ts : Forest) : roots (t :: ts) = t.id :: roots ts := rfl

/-- The roots of two lists are those of the one and then those of the other. -/
@[simp] theorem roots_append (ts us : Forest) : roots (ts ++ us) = roots ts ++ roots us := by
  simp [roots]

/-- The bodies of a node are walked one after the other. -/
theorem subtreesOfAll_eq_flatMap (bs : List Forest) : subtreesOfAll bs = bs.flatMap subtrees := by
  induction bs with
  | nil => rfl
  | cons b bs ih => rw [subtreesOfAll, ih, List.flatMap_cons]

@[simp] theorem subtrees_nil : subtrees [] = [] := rfl

/-- A tree comes before what is in its bodies, and that before the trees that stand next to it. -/
@[simp] theorem subtrees_cons (id : NodeId) (k : NodeKind) (bs : List Forest) (ts : Forest) :
    subtrees (.node id k bs :: ts) = .node id k bs :: (bs.flatMap subtrees ++ subtrees ts) := by
  rw [subtrees, NodeTree.subtrees, subtreesOfAll_eq_flatMap, List.cons_append]

/-- What stands in two lists is what stands in the one and then what stands in the other. -/
@[simp] theorem subtrees_append (ts us : Forest) : subtrees (ts ++ us) = subtrees ts ++ subtrees us := by
  induction ts with
  | nil => rfl
  | cons t ts ih => rw [List.cons_append, subtrees, subtrees, ih, List.append_assoc]

/-- What holds of every tree: of the first one, of those in its bodies and of the others. -/
theorem forall_subtrees_cons {P : NodeTree → Prop} {id : NodeId} {k : NodeKind} {bs : List Forest}
    {ts : Forest} :
    (∀ t ∈ subtrees (.node id k bs :: ts), P t) ↔
      P (.node id k bs) ∧ (∀ b ∈ bs, ∀ t ∈ subtrees b, P t) ∧ ∀ t ∈ subtrees ts, P t := by
  rw [subtrees_cons, List.forall_mem_cons, List.forall_mem_append, List.forall_mem_flatMap]

/-- What holds of every tree of two lists holds of every tree of each. -/
theorem forall_subtrees_append {P : NodeTree → Prop} {ts us : Forest} :
    (∀ t ∈ subtrees (ts ++ us), P t) ↔ (∀ t ∈ subtrees ts, P t) ∧ ∀ t ∈ subtrees us, P t := by
  rw [subtrees_append, List.forall_mem_append]

/-- What holds of every tree holds of those of each root. -/
theorem forall_subtrees_iff {P : NodeTree → Prop} {ts : Forest} :
    (∀ u ∈ subtrees ts, P u) ↔ ∀ t ∈ ts, ∀ u ∈ subtrees [t], P u := by
  induction ts with
  | nil => simp
  | cons t ts ih => rw [← List.singleton_append, forall_subtrees_append, ih, List.forall_mem_append,
      List.forall_mem_singleton]

@[simp] theorem ids_nil : ids [] = [] := rfl

/-- The number of a root comes before the numbers inside it, and these before the others. -/
@[simp] theorem ids_cons (id : NodeId) (k : NodeKind) (bs : List Forest) (ts : Forest) :
    ids (.node id k bs :: ts) = id :: (bs.flatMap ids ++ ids ts) := by
  rw [ids, subtrees_cons, List.map_cons, NodeTree.id_node, List.map_append, List.map_flatMap]
  rfl

/-- A single node: its number, and the numbers inside it. -/
theorem ids_singleton (id : NodeId) (k : NodeKind) (bs : List Forest) :
    ids [.node id k bs] = id :: bs.flatMap ids := by
  rw [ids_cons, ids_nil, List.append_nil]

/-- The numbers in two lists are those in the one and then those in the other. -/
@[simp] theorem ids_append (ts us : Forest) : ids (ts ++ us) = ids ts ++ ids us := by
  simp [ids]

/-- Lists that are joined have the trees that they have one by one. -/
theorem subtrees_flatten (bs : List Forest) : subtrees bs.flatten = bs.flatMap subtrees := by
  induction bs with
  | nil => rfl
  | cons b bs ih => rw [List.flatten_cons, subtrees_append, ih, List.flatMap_cons]

/-- Lists that are joined have the numbers that they have one by one. -/
theorem ids_flatten (bs : List Forest) : ids bs.flatten = bs.flatMap ids := by
  rw [ids, subtrees_flatten, List.map_flatMap]
  rfl

/-- Lists that are joined have the roots that they have one by one. -/
theorem roots_flatten (bs : List Forest) : roots bs.flatten = (bs.map roots).flatten := by
  rw [roots, List.map_flatten]
  rfl

/-- A root is one of the trees. -/
theorem mem_subtrees_self {t : NodeTree} {ts : Forest} (h : t ∈ ts) : t ∈ subtrees ts := by
  induction ts with
  | nil => exact absurd h List.not_mem_nil
  | cons u us ih =>
    rw [subtrees, List.mem_append]
    rcases List.mem_cons.mp h with rfl | h
    · obtain ⟨id, k, bs⟩ := t
      exact Or.inl (by rw [NodeTree.subtrees]; exact List.mem_cons_self)
    · exact Or.inr (ih h)

/-- What is below a list inside a node of the forest is below the forest. -/
theorem mem_subtrees_inside {ts b : Forest} {t u : NodeTree} (ht : t ∈ subtrees ts)
    (hb : b ∈ t.bodies) (hu : u ∈ subtrees b) : u ∈ subtrees ts := by
  induction ts using Forest.induct with
  | nil => exact absurd ht List.not_mem_nil
  | cons id k bs ts ihb iht =>
    rw [subtrees_cons] at ht ⊢
    -- the tree is the first root, below it, or further on
    rcases List.mem_cons.mp ht with rfl | ht
    · refine List.mem_cons_of_mem _ (List.mem_append_left _ ?_)
      exact List.mem_flatMap.mpr ⟨b, hb, hu⟩
    · rcases List.mem_append.mp ht with ht | ht
      · obtain ⟨c, hc, htc⟩ := List.mem_flatMap.mp ht
        refine List.mem_cons_of_mem _ (List.mem_append_left _ ?_)
        exact List.mem_flatMap.mpr ⟨c, hc, ihb c hc htc⟩
      · exact List.mem_cons_of_mem _ (List.mem_append_right _ (iht ht))

/-- The nodes of a list inside a node of the forest are nodes of the forest. -/
theorem mem_subtrees_of_mem_body {ts b : Forest} {t u : NodeTree} (ht : t ∈ subtrees ts)
    (hb : b ∈ t.bodies) (hu : u ∈ b) : u ∈ subtrees ts :=
  mem_subtrees_inside ht hb (mem_subtrees_self hu)

/-- What is below a list inside a root is below the forest. -/
theorem mem_subtrees_below {ts b : Forest} {t u : NodeTree} (ht : t ∈ ts) (hb : b ∈ t.bodies)
    (hu : u ∈ subtrees b) : u ∈ subtrees ts :=
  mem_subtrees_inside (mem_subtrees_self ht) hb hu

/-- The roots are among the numbers, in the order of the list. -/
theorem roots_sublist_ids (ts : Forest) : (roots ts).Sublist (ids ts) := by
  induction ts with
  | nil => exact List.Sublist.refl _
  | cons t ts ih =>
    obtain ⟨id, k, bs⟩ := t
    rw [roots_cons, ids_cons]
    exact (ih.trans (List.sublist_append_right _ _)).cons_cons id

/-- In particular every root is one of the numbers. -/
theorem roots_subset_ids (ts : Forest) : roots ts ⊆ ids ts := (roots_sublist_ids ts).subset

/-- A number inside a root is one of the numbers. -/
theorem mem_ids_of_mem_body {t : NodeTree} {ts b : Forest} (ht : t ∈ ts) (hb : b ∈ t.bodies)
    {id : NodeId} (h : id ∈ ids b) : id ∈ ids ts := by
  obtain ⟨u, hu, rfl⟩ := List.mem_map.mp h
  exact List.mem_map_of_mem (mem_subtrees_below ht hb hu)

/-- The kinds in a forest name the nodes that stand in the bodies. -/
def Labelled (ts : Forest) : Prop := ∀ t ∈ subtrees ts, t.kind.bodies = t.bodies.map roots

@[simp] theorem labelled_nil : Labelled [] := fun _ h => absurd h List.not_mem_nil

/-- A list is labelled if its first node names its bodies, and if these and the other nodes are labelled. -/
@[simp] theorem labelled_cons {id : NodeId} {k : NodeKind} {bs : List Forest} {ts : Forest} :
    Labelled (.node id k bs :: ts) ↔
      k.bodies = bs.map roots ∧ (∀ b ∈ bs, Labelled b) ∧ Labelled ts :=
  forall_subtrees_cons

/-- Two lists are labelled together if each of them is. -/
theorem labelled_append {ts us : Forest} : Labelled (ts ++ us) ↔ Labelled ts ∧ Labelled us :=
  forall_subtrees_append

/-- The first node on its own is labelled. -/
theorem Labelled.head {id : NodeId} {k : NodeKind} {bs : List Forest} {ts : Forest}
    (h : Labelled (.node id k bs :: ts)) : Labelled [.node id k bs] := by
  rw [labelled_cons] at h ⊢
  exact ⟨h.1, h.2.1, labelled_nil⟩

/-- The roots of the forest are templates. -/
def AreTemplates (ts : Forest) : Prop := ∀ t ∈ ts, ∃ x, t.kind = .template x

/-! ### Depth -/

/-- The forest has at most `d` levels. -/
def Within : (d : Nat) → Forest → Prop
  | 0, ts => ts = []
  | d + 1, ts => ∀ t ∈ ts, ∀ b ∈ t.bodies, Within d b

/-- What has at most `d` levels has at most `d + 1`. -/
theorem Within.succ {d : Nat} {ts : Forest} (h : ts.Within d) : ts.Within (d + 1) := by
  induction d generalizing ts with
  | zero =>
    obtain rfl : ts = [] := h
    exact fun _ ht => absurd ht List.not_mem_nil
  | succ d ih => exact fun t ht b hb => ih (h t ht b hb)

/-- There are no more levels than nodes. -/
theorem within_of_length_le {d : Nat} {ts : Forest} (h : (ids ts).length ≤ d) : ts.Within d := by
  induction ts using Forest.induct generalizing d with
  | nil =>
    cases d with
    | zero => rfl
    | succ d => exact fun _ ht => absurd ht List.not_mem_nil
  | cons id k bs ts ihb iht =>
    rw [ids_cons, List.length_cons, List.length_append] at h
    obtain ⟨d, rfl⟩ : ∃ e, d = e + 1 := ⟨d - 1, by omega⟩
    intro t ht b hb
    -- the bodies of the first node are a level further down, and have a node less
    rcases List.mem_cons.mp ht with rfl | ht
    · have hb' : b ∈ bs := hb
      have hle := (sublist_flatMap ids hb').length_le
      exact ihb b hb' (by omega)
    · have hts : ts.Within (d + 1) := iht (by omega)
      exact hts t ht b hb

end Forest

/-! ### Forests in the table of a file -/

namespace TemplateFile

open Forest

/-- The table shows every node of the forest under its number. -/
def Shows (f : TemplateFile) (ts : Forest) : Prop := ∀ t ∈ subtrees ts, f.kind t.id = t.kind

@[simp] theorem shows_nil {f : TemplateFile} : f.Shows [] := fun _ h => absurd h List.not_mem_nil

/-- The table shows a list if it shows its first node, the bodies of that node and the other nodes. -/
@[simp] theorem shows_cons {f : TemplateFile} {id : NodeId} {k : NodeKind} {bs : List Forest}
    {ts : Forest} :
    f.Shows (.node id k bs :: ts) ↔ f.kind id = k ∧ (∀ b ∈ bs, f.Shows b) ∧ f.Shows ts :=
  forall_subtrees_cons

/-- The table shows two lists together if it shows each. -/
theorem shows_append {f : TemplateFile} {ts us : Forest} :
    f.Shows (ts ++ us) ↔ f.Shows ts ∧ f.Shows us :=
  forall_subtrees_append

/-- The table holds the forest: it shows all nodes, and each node stands in it under a number of its
own. -/
structure Holds (f : TemplateFile) (ts : Forest) : Prop where
  shows_nodes : f.Shows ts
  labelled : Labelled ts
  nodup : (ids ts).Nodup
  lt_size : ∀ id ∈ ids ts, id < f.nodes.size

/-- The empty list is held by every table. -/
theorem Holds.nil (f : TemplateFile) : f.Holds [] :=
  ⟨shows_nil, labelled_nil, List.nodup_nil, fun _ h => absurd h List.not_mem_nil⟩

/-- What the table holds, it holds part by part. -/
theorem Holds.of_sublist {f : TemplateFile} {ts us : Forest} (h : f.Holds ts)
    (hs : (subtrees us).Sublist (subtrees ts)) : f.Holds us where
  shows_nodes := fun t ht => h.shows_nodes t (hs.subset ht)
  labelled := fun t ht => h.labelled t (hs.subset ht)
  nodup := h.nodup.sublist (hs.map NodeTree.id)
  lt_size := fun x hx => h.lt_size x ((hs.map NodeTree.id).subset hx)

/-- What the table holds, it holds node by node. -/
theorem Holds.of_mem {f : TemplateFile} {ts : Forest} (h : f.Holds ts) {t : NodeTree} (ht : t ∈ ts) :
    f.Holds [t] := by
  obtain ⟨front, rest, rfl⟩ := List.append_of_mem ht
  have hsplit : front ++ t :: rest = front ++ ([t] ++ rest) := rfl
  refine h.of_sublist ?_
  rw [hsplit, subtrees_append, subtrees_append]
  exact (List.sublist_append_left _ _).trans (List.sublist_append_right _ _)

section Parts

variable {f : TemplateFile} {id : NodeId} {k : NodeKind} {bs : List Forest} {b ts us : Forest}

/-- The table has the kind of the first node. -/
theorem Holds.kind_eq (h : f.Holds (.node id k bs :: ts)) : f.kind id = k :=
  (shows_cons.mp h.shows_nodes).1

/-- The kind of the first node names the roots of its bodies. -/
theorem Holds.bodies_eq (h : f.Holds (.node id k bs :: ts)) : k.bodies = bs.map roots :=
  (labelled_cons.mp h.labelled).1

/-- A node whose kind has no bodies has none. -/
theorem Holds.bodies_eq_nil (h : f.Holds (.node id k bs :: ts)) (hk : k.bodies = []) : bs = [] :=
  List.map_eq_nil_iff.mp (h.bodies_eq.symm.trans hk)

/-- The children of the first node are the roots of its bodies, over all its bodies. -/
theorem Holds.children_eq (h : f.Holds (.node id k bs :: ts)) :
    f.children id = roots bs.flatten := by
  rw [children, h.kind_eq, h.bodies_eq, roots_flatten]

/-- The nodes directly inside a node, over all its bodies. -/
theorem Holds.inside (h : f.Holds (.node id k bs :: ts)) : f.Holds bs.flatten := by
  refine h.of_sublist ?_
  rw [subtrees_flatten, subtrees_cons]
  exact (List.sublist_append_left _ _).trans (List.sublist_cons_self _ _)

/-- With a node the table holds each of its bodies. -/
theorem Holds.body (h : f.Holds (.node id k bs :: ts)) (hb : b ∈ bs) : f.Holds b := by
  refine h.inside.of_sublist ?_
  rw [subtrees_flatten]
  exact sublist_flatMap subtrees hb

/-- With a list the table holds what stands behind its first node. -/
theorem Holds.tail (h : f.Holds (.node id k bs :: ts)) : f.Holds ts := by
  refine h.of_sublist ?_
  rw [subtrees_cons]
  exact (List.sublist_append_right _ _).trans (List.sublist_cons_self _ _)

/-- A node and all that is inside it are in the table. -/
theorem Holds.lt_size_head (h : f.Holds (.node id k bs :: ts)) :
    ∀ x ∈ id :: bs.flatMap ids, x < f.nodes.size := by
  intro x hx
  refine h.lt_size x ?_
  rw [ids_cons, ← List.cons_append]
  exact List.mem_append_left _ hx

/-- The first node is in the table. -/
theorem Holds.root_lt (h : f.Holds (.node id k bs :: ts)) : id < f.nodes.size :=
  h.lt_size_head id List.mem_cons_self

/-! Nothing stands in a forest twice. -/

/-- A node is not inside itself. -/
theorem Holds.root_notMem_inside (h : f.Holds (.node id k bs :: ts)) : id ∉ bs.flatMap ids := by
  have hn := h.nodup
  rw [ids_cons, List.nodup_cons, List.mem_append, not_or] at hn
  exact hn.1.1

/-- A node does not stand again in the list behind it. -/
theorem Holds.root_notMem_tail (h : f.Holds (.node id k bs :: ts)) : id ∉ ids ts := by
  have hn := h.nodup
  rw [ids_cons, List.nodup_cons, List.mem_append, not_or] at hn
  exact hn.1.2

/-- A node does not stand in any body of its own. -/
theorem Holds.root_notMem_body (h : f.Holds (.node id k bs :: ts)) (hb : b ∈ bs) : id ∉ ids b :=
  fun hid => h.root_notMem_inside (List.mem_flatMap.mpr ⟨b, hb, hid⟩)

/-- What is inside a node stands nowhere in the list behind it. -/
theorem Holds.disjoint_inside_tail (h : f.Holds (.node id k bs :: ts)) :
    (bs.flatMap ids).Disjoint (ids ts) := by
  have hn := h.nodup
  rw [ids_cons, List.nodup_cons] at hn
  exact (List.nodup_append'.mp hn.2).2.2

/-- A node and what is inside it stand nowhere in the list behind it. -/
theorem Holds.disjoint_head_tail (h : f.Holds (.node id k bs :: ts)) :
    (id :: bs.flatMap ids).Disjoint (ids ts) :=
  List.disjoint_cons_left.mpr ⟨h.root_notMem_tail, h.disjoint_inside_tail⟩

/-- The same for a single body. -/
theorem Holds.disjoint_body_tail (h : f.Holds (.node id k bs :: ts)) (hb : b ∈ bs) :
    (ids b).Disjoint (ids ts) := fun _ hx hxt =>
  h.disjoint_inside_tail (List.mem_flatMap.mpr ⟨b, hb, hx⟩) hxt

/-- No node stands twice inside a node. -/
theorem Holds.nodup_inside (h : f.Holds (.node id k bs :: ts)) : (bs.flatMap ids).Nodup := by
  have hn := h.inside.nodup
  rwa [ids_flatten] at hn

/-- Two bodies of a node have no node in common. -/
theorem Holds.disjoint_bodies (h : f.Holds (.node id k bs :: ts)) {c : Forest} (hb : b ∈ bs)
    (hc : c ∈ bs) (hne : b ≠ c) : (ids b).Disjoint (ids c) := by
  have hsymm : Std.Symm (Function.onFun List.Disjoint ids) := ⟨fun _ _ hd _ hx hy => hd hy hx⟩
  exact (List.nodup_flatMap.mp h.nodup_inside).2.forall hb hc hne

/-- A table that shows what another table holds, and is no shorter, holds it too. -/
theorem Holds.of_shows {g : TemplateFile} (h : f.Holds ts) (hsize : f.nodes.size ≤ g.nodes.size)
    (hshows : g.Shows ts) : g.Holds ts :=
  ⟨hshows, h.labelled, h.nodup, fun x hx => Nat.lt_of_lt_of_le (h.lt_size x hx) hsize⟩

/-- Only the kinds of the nodes in the list matter for whether it is shown. -/
theorem Shows.congr {g : TemplateFile} (h : f.Shows ts)
    (hkind : ∀ x ∈ ids ts, g.kind x = f.kind x) : g.Shows ts := fun t ht =>
  (hkind t.id (List.mem_map_of_mem ht)).trans (h t ht)

/-- There are no more nodes in a forest than in the table that holds it. -/
theorem Holds.length_ids_le (h : f.Holds ts) : (ids ts).length ≤ f.nodes.size := by
  have hsub : ids ts ⊆ List.range f.nodes.size := fun x hx => List.mem_range.mpr (h.lt_size x hx)
  simpa using (List.Nodup.subperm h.nodup hsub).length_le

end Parts

/-! ### Reading a forest off the table -/

/-- The forest below a list of nodes, as far as `fuel` levels go. -/
def forestTo (f : TemplateFile) : (fuel : Nat) → List NodeId → Forest
  | 0, _ => []
  | fuel + 1, ids => ids.map fun id =>
    .node id (f.kind id) ((f.kind id).bodies.map (f.forestTo fuel))

/-- The forest below a list of nodes. No forest is deeper than the table is long. -/
def forest (f : TemplateFile) (ids : List NodeId) : Forest := f.forestTo f.nodes.size ids

/-- With enough fuel the forest below the roots of a forest that is shown is that forest. -/
theorem forestTo_roots {f : TemplateFile} {ts : Forest} (hshows : f.Shows ts) (hl : Labelled ts)
    {fuel : Nat} (hdepth : ts.Within fuel) : f.forestTo fuel (roots ts) = ts := by
  induction fuel generalizing ts with
  | zero =>
    obtain rfl : ts = [] := hdepth
    rfl
  | succ fuel ih =>
    -- each root is read as itself: first what is in its bodies, then the node with the kind that the table
    -- shows
    rw [forestTo, roots, List.map_map]
    refine (List.map_congr_left fun t ht => ?_).trans (List.map_id' ts)
    have hbodies : (t.bodies.map roots).map (f.forestTo fuel) = t.bodies := by
      rw [List.map_map]
      refine (List.map_congr_left fun b hb => ?_).trans (List.map_id' _)
      exact ih (fun u hu => hshows u (mem_subtrees_below ht hb hu))
        (fun u hu => hl u (mem_subtrees_below ht hb hu)) (hdepth t ht b hb)
    have hself := mem_subtrees_self ht
    obtain ⟨id, k, bs⟩ := t
    rw [Function.comp_apply, hshows _ hself, hl _ hself, hbodies]
    rfl

/-- **Reading back.** The forest below the roots of a forest that the table holds is that forest. -/
theorem Holds.forest_roots {f : TemplateFile} {ts : Forest} (h : f.Holds ts) :
    f.forest (roots ts) = ts :=
  forestTo_roots h.shows_nodes h.labelled (within_of_length_le h.length_ids_le)

/-- What is read inside a node with one list, if the table shows the forest that the node is in. -/
theorem Shows.forest_children {f : TemplateFile} {ts : Forest} (h : f.Shows ts) (hl : Labelled ts)
    {id : NodeId} {k : NodeKind} {b : Forest} (hm : .node id k [b] ∈ ts)
    (hdepth : b.Within f.nodes.size) : f.forest (f.children id) = b := by
  have hself := mem_subtrees_self hm
  have hkind : f.kind id = k := h _ hself
  have hbodies : k.bodies = [roots b] := hl _ hself
  have hchildren : f.children id = roots b := by
    rw [children, hkind, hbodies, List.flatten_singleton]
  rw [hchildren]
  exact forestTo_roots (fun t ht => h t (mem_subtrees_below hm List.mem_cons_self ht))
    (fun t ht => hl t (mem_subtrees_below hm List.mem_cons_self ht)) hdepth

/-- A body has fewer nodes than the table, since the node that it belongs to is in the table too. -/
theorem Holds.length_ids_lt {f : TemplateFile} {ts : Forest} (h : f.Holds ts) {id : NodeId}
    {k : NodeKind} {b : Forest} (hm : .node id k [b] ∈ ts) : (ids b).length < f.nodes.size := by
  have hle := (h.of_mem hm).length_ids_le
  rw [ids_singleton, List.flatMap_singleton] at hle
  exact hle

/-- The only body of a root is read back from its children. -/
theorem Holds.forest_children {f : TemplateFile} {ts : Forest} (h : f.Holds ts) {id : NodeId}
    {k : NodeKind} {b : Forest} (hm : .node id k [b] ∈ ts) : f.forest (f.children id) = b :=
  h.shows_nodes.forest_children h.labelled hm
    (within_of_length_le (Nat.le_of_lt (h.length_ids_lt hm)))

/-- A template has one list. -/
theorem exists_template {ts : Forest} (hl : Labelled ts) (htemplates : AreTemplates ts) {id : NodeId}
    (hid : id ∈ roots ts) : ∃ x b, .node id (.template x) [b] ∈ ts := by
  obtain ⟨⟨i, k, bs⟩, ht, rfl⟩ := List.mem_map.mp hid
  obtain ⟨x, hx⟩ := htemplates _ ht
  obtain rfl : k = .template x := hx
  have hlen : 1 = bs.length := by
    have hbodies := congrArg List.length (hl _ (mem_subtrees_self ht))
    simpa [NodeKind.bodies] using hbodies
  obtain ⟨b, rfl⟩ := List.length_eq_one_iff.mp hlen.symm
  exact ⟨x, b, ht⟩

/-- A template is what the table says is one. -/
theorem template?_eq_some {f : TemplateFile} {id : NodeId} {t : Template} :
    f.template? id = some t ↔ f.kind id = .template t := by
  unfold template?
  cases f.kind id <;> simp

/-- What is declared is a template of the file, with the kind of one. -/
theorem kind_of_mem_declared {f : TemplateFile} {p : NodeId × Template} (hp : p ∈ f.declared) :
    p.1 ∈ f.templates ∧ f.kind p.1 = .template p.2 := by
  obtain ⟨id, hid, hp⟩ := List.mem_filterMap.mp hp
  obtain ⟨t, ht, rfl⟩ := Option.map_eq_some_iff.mp hp
  exact ⟨hid, template?_eq_some.mp ht⟩

/-- The declared templates of a file are the roots of its forest. -/
theorem Holds.mem_of_declared {f : TemplateFile} {ts : Forest} (h : f.Holds ts)
    (hroots : roots ts = f.templates) (htemplates : AreTemplates ts) {id : NodeId} {t : Template}
    (hid : (id, t) ∈ f.declared) : ∃ b, .node id (.template t) [b] ∈ ts := by
  obtain ⟨htemplate, hkind⟩ := kind_of_mem_declared hid
  obtain ⟨x, b, hb⟩ := exists_template h.labelled htemplates (hroots ▸ htemplate)
  have hx : f.kind id = .template x := h.shows_nodes _ (mem_subtrees_self hb)
  obtain rfl := NodeKind.template.inj (hkind.symm.trans hx)
  exact ⟨b, hb⟩

/-- The declared templates are the roots with their kinds, in the order of the file. -/
theorem Shows.declared_eq {f : TemplateFile} {ts : Forest} (h : f.Shows ts)
    (hroots : roots ts = f.templates) (htemplates : AreTemplates ts) :
    ts.map (fun u => (u.id, u.kind)) = f.declared.map fun p => (p.1, .template p.2) := by
  rw [declared, ← hroots]
  clear hroots
  induction ts with
  | nil => rfl
  | cons u ts ih =>
    obtain ⟨⟨x, hx⟩, hts⟩ := List.forall_mem_cons.mp htemplates
    obtain ⟨id, k, bs⟩ := u
    obtain rfl : k = .template x := hx
    obtain ⟨hk, -, hrest⟩ := shows_cons.mp h
    -- each root is a template of the table
    have hself : f.template? id = some x := template?_eq_some.mpr hk
    rw [List.map_cons, roots_cons, NodeTree.id_node, List.filterMap_cons_some (b := (id, x)),
      List.map_cons, ih hrest hts]
    · rfl
    · rw [hself]
      rfl

/-! ### Walks over the table -/

/-- A walk that ends needs as much fuel as it meets nodes. -/
theorem preorder_append {f : TemplateFile} {items met : List NodeId} (h : DepthFirst f.children items met)
    (rest : List NodeId) (fuel : Nat) :
    f.preorder (met.length + fuel) (items ++ rest) = met ++ f.preorder fuel rest := by
  induction h generalizing rest fuel with
  | nil => rw [List.length_nil, Nat.zero_add, List.nil_append, List.nil_append]
  | @cons a items below after _ _ ihbelow ihafter =>
    have hlen : (a :: (below ++ after)).length + fuel = (below.length + (after.length + fuel)) + 1 := by
      rw [List.length_cons, List.length_append]
      omega
    rw [hlen, List.cons_append, preorder, ihbelow, ihafter, List.cons_append, List.append_assoc]

/-- With as much fuel as there are nodes to meet, a walk meets them all. -/
theorem preorder_eq {f : TemplateFile} {items met : List NodeId} (h : DepthFirst f.children items met) {fuel : Nat}
    (hfuel : met.length ≤ fuel) : f.preorder fuel items = met := by
  obtain ⟨n, rfl⟩ := Nat.exists_eq_add_of_le hfuel
  have hend : f.preorder n [] = [] := by cases n <;> rfl
  have hwalk := preorder_append h [] n
  rwa [List.append_nil, hend, List.append_nil] at hwalk

/-- A forest is walked from its roots. -/
theorem Holds.depthFirst {f : TemplateFile} {ts : Forest} (h : f.Holds ts) :
    DepthFirst f.children (roots ts) (ids ts) := by
  induction ts using Forest.induct with
  | nil => exact .nil
  | cons id k bs ts ihb iht =>
    have hbelow : DepthFirst f.children (f.children id) (bs.flatMap ids) := by
      rw [h.children_eq, roots_flatten, ← List.flatMap_def]
      exact .flatMap fun b hb => ihb b hb (h.body hb)
    rw [roots_cons, ids_cons, NodeTree.id_node]
    exact .cons hbelow (iht h.tail)

/-- The descendants of a node are the nodes in its bodies, body after body. -/
theorem Holds.descendants_eq {f : TemplateFile} {id : NodeId} {k : NodeKind} {bs : List Forest}
    {ts : Forest} (h : f.Holds (.node id k bs :: ts)) : f.descendants id = bs.flatMap ids := by
  rw [descendants, h.children_eq, preorder_eq h.inside.depthFirst h.inside.length_ids_le, ids_flatten]

/-- **Reachable nodes.** They are those of the forest of templates, each before the nodes inside it. -/
theorem Holds.reachable {f : TemplateFile} {ts : Forest} (h : f.Holds ts)
    (hroots : roots ts = f.templates) : f.reachable = ids ts := by
  rw [TemplateFile.reachable, ← hroots]
  clear hroots
  induction ts using Forest.induct with
  | nil => rfl
  | cons id k bs ts _ iht =>
    rw [roots_cons, List.flatMap_cons, NodeTree.id_node, h.descendants_eq, iht h.tail, ids_cons,
      List.cons_append]

/-! ### Forests that grow from below -/

/-- The table holds a forest with these roots. -/
def HoldsBelow (f : TemplateFile) (ids : List NodeId) : Prop := ∃ ts, f.Holds ts ∧ roots ts = ids

section Reorder

variable {f : TemplateFile}

/-- Some of the roots, with what is below them. -/
theorem subtrees_mono {ts us : Forest} (h : us.Sublist ts) : (subtrees us).Sublist (subtrees ts) := by
  induction h with
  | slnil => exact List.Sublist.refl _
  | cons t _ ih => exact ih.trans (List.sublist_append_right _ _)
  | cons_cons t _ ih => exact (List.Sublist.refl _).append ih

/-- Roots in another order. -/
theorem Holds.perm {ts us : Forest} (h : f.Holds ts) (hp : ts.Perm us) : f.Holds us := by
  -- only the order of the trees changes, and none of the facts depends on it
  have hsubtrees : (subtrees ts).Perm (subtrees us) := by
    have hflat : ∀ vs : Forest, subtrees vs = vs.flatMap NodeTree.subtrees := by
      intro vs
      induction vs with
      | nil => rfl
      | cons v vs ih => rw [subtrees, ih, List.flatMap_cons]
    rw [hflat, hflat]
    exact hp.flatMap_right _
  have hids : (ids ts).Perm (ids us) := hsubtrees.map _
  exact ⟨fun t ht => h.shows_nodes t (hsubtrees.mem_iff.mpr ht),
    fun t ht => h.labelled t (hsubtrees.mem_iff.mpr ht), hids.nodup_iff.mp h.nodup,
    fun x hx => h.lt_size x (hids.mem_iff.mpr hx)⟩

/-- No roots need no forest. -/
theorem HoldsBelow.nil (f : TemplateFile) : f.HoldsBelow [] := ⟨[], Holds.nil f, rfl⟩

/-- The order of the roots does not matter. -/
theorem HoldsBelow.perm {ids ids' : List NodeId} (h : f.HoldsBelow ids) (hp : ids.Perm ids') :
    f.HoldsBelow ids' := by
  obtain ⟨ts, hts, rfl⟩ := h
  -- the forest is put into the order of its roots
  obtain ⟨us, hus, hperm⟩ : ∃ us : Forest, ids' = us.map NodeTree.id ∧ us.Perm ts := by
    have hcomp := List.eq_map_comp_perm NodeTree.id
    exact (congrFun (congrFun hcomp ids') ts).mpr hp.symm
  exact ⟨us, hts.perm hperm.symm, hus.symm⟩

/-- Roots may be left out. -/
theorem HoldsBelow.of_sublist {ids ids' : List NodeId} (h : f.HoldsBelow ids)
    (hs : ids'.Sublist ids) : f.HoldsBelow ids' := by
  obtain ⟨ts, hts, rfl⟩ := h
  obtain ⟨us, hus, rfl⟩ := List.sublist_map_iff.mp hs
  exact ⟨us, hts.of_sublist (subtrees_mono hus), rfl⟩

/-- The roots are in the table. -/
theorem HoldsBelow.lt_size {ids : List NodeId} (h : f.HoldsBelow ids) {x : NodeId} (hx : x ∈ ids) :
    x < f.nodes.size := by
  obtain ⟨ts, hts, rfl⟩ := h
  exact hts.lt_size x (roots_subset_ids ts hx)

/-- Only the table matters. -/
theorem HoldsBelow.congr {g : TemplateFile} {ids : List NodeId} (h : f.HoldsBelow ids)
    (hnodes : g.nodes = f.nodes) : g.HoldsBelow ids := by
  obtain ⟨ts, hts, hroots⟩ := h
  refine ⟨ts, hts.of_shows (Nat.le_of_eq (by rw [hnodes])) ?_, hroots⟩
  exact hts.shows_nodes.congr fun x _ => by rw [kind, kind, hnodes]

end Reorder

/-- Roots that come in several lists. -/
theorem exists_bodies {ts : Forest} {lists : List (List NodeId)} {rest : List NodeId}
    (h : roots ts = lists.flatten ++ rest) :
    ∃ (bs : List Forest) (us : Forest),
      ts = bs.flatten ++ us ∧ bs.map roots = lists ∧ roots us = rest := by
  induction lists generalizing ts with
  | nil => exact ⟨[], ts, rfl, rfl, h⟩
  | cons l lists ih =>
    rw [List.flatten_cons, List.append_assoc] at h
    obtain ⟨b, ts', rfl, hb, hts'⟩ := List.map_eq_append_iff.mp h
    obtain ⟨bs, us, rfl, hbs, hus⟩ := ih hts'
    refine ⟨b :: bs, us, ?_, ?_, hus⟩
    · rw [List.flatten_cons, List.append_assoc]
    · rw [List.map_cons, hbs]
      exact congrArg (· :: lists) hb

/-- **A new node.** It takes in the roots that its lists name. -/
theorem HoldsBelow.add {f : TemplateFile} {k : NodeKind} {rest : List NodeId}
    (h : f.HoldsBelow (k.bodies.flatten ++ rest)) (s : Span) :
    (f.add k s).1.HoldsBelow (f.nodes.size :: rest) := by
  obtain ⟨ts, hts, hroots⟩ := h
  obtain ⟨bs, us, rfl, hbs, rfl⟩ := exists_bodies hroots
  have hsize : (f.add k s).1.nodes.size = f.nodes.size + 1 := Array.size_push _
  have hids : ids (.node f.nodes.size k bs :: us) = f.nodes.size :: ids (bs.flatten ++ us) := by
    rw [ids_cons, ids_append, ids_flatten]
  -- the nodes that were there keep their kinds, so all of them are still shown
  have hold : ∀ x ∈ ids (bs.flatten ++ us), (f.add k s).1.kind x = f.kind x := fun x hx =>
    kind_add_of_lt f k s (hts.lt_size x hx)
  have hshows := hts.shows_nodes.congr hold
  have hparts : ∀ {vs : Forest}, (subtrees vs).Sublist (subtrees (bs.flatten ++ us)) →
      (f.add k s).1.Shows vs ∧ Labelled vs := fun hs =>
    ⟨fun t ht => hshows t (hs.subset ht), fun t ht => hts.labelled t (hs.subset ht)⟩
  have hbody : ∀ b ∈ bs, (subtrees b).Sublist (subtrees (bs.flatten ++ us)) := fun b hb => by
    rw [subtrees_append, subtrees_flatten]
    exact (sublist_flatMap subtrees hb).trans (List.sublist_append_left _ _)
  -- what is not taken into the new node stays beside it
  have hrest : (subtrees us).Sublist (subtrees (bs.flatten ++ us)) := by
    rw [subtrees_append]
    exact List.sublist_append_right _ _
  refine ⟨.node f.nodes.size k bs :: us, ⟨?_, ?_, ?_, ?_⟩, rfl⟩
  · rw [shows_cons]
    exact ⟨kind_add_self f k s, fun b hb => (hparts (hbody b hb)).1, (hparts hrest).1⟩
  · rw [labelled_cons]
    exact ⟨hbs.symm, fun b hb => (hparts (hbody b hb)).2, (hparts hrest).2⟩
  -- the new number is the size of the table, which no older node has
  · rw [hids, List.nodup_cons]
    exact ⟨fun hm => Nat.lt_irrefl _ (hts.lt_size _ hm), hts.nodup⟩
  · rw [hids, hsize]
    intro x hx
    rcases List.mem_cons.mp hx with rfl | hx
    · exact Nat.lt_succ_self _
    · exact Nat.lt_succ_of_lt (hts.lt_size x hx)

end TemplateFile

end TemplateFrontend
