import TemplateFrontend.Proofs.Tree.Grafting
import TemplateFrontend.Proofs.Tree.Retouching
import Mathlib.Data.List.Flatten
/-!
# Forests that are rebuilt

Steps that edit lists of nodes rebuild the forest of a file. Nodes may get lost in it, and with them
their expressions, but none is there twice. This also holds of edits of nodes that the forest has lost,
as long as these leave the lists of the other nodes alone.

* `TemplateFile.Sheds` — no node holds more expressions than before;
* `TemplateFile.Descends` — the forest of a file was rebuilt from nodes of the old one and new ones;
* `TemplateFile.Regrows` — what an edit of a list does to a forest that stands below the list;
* `TemplateFile.Regrows.editBodies` — the visits of all nodes rebuild the forest.
-/

namespace TemplateFrontend

/-- Expressions that are rewritten in place stay apart. -/
theorem Expr.Separate.inPlace {es es' : List Expr} (h : Separate es)
    (hes : List.Forall₂ InPlace es es') : Separate es' := by
  have hspans : es'.map Expr.span = es.map Expr.span := by
    rw [← List.forall₂_eq_eq_eq, List.forall₂_map_left_iff, List.forall₂_map_right_iff]
    exact hes.flip.imp fun _ _ he => he.span_eq
  refine ⟨?_, fun e' he' => ?_⟩
  · have hapart : (es.map Expr.span).Pairwise Span.Apart := List.pairwise_map.mpr h.apart
    exact List.pairwise_map.mp (hspans ▸ hapart)
  · obtain ⟨i, hi, rfl⟩ := List.mem_iff_getElem.mp he'
    have hi' : i < es.length := hes.length_eq ▸ hi
    exact (List.Forall₂.get hes hi' hi).enclosed (h.enclosed _ (List.getElem_mem hi'))

namespace TemplateFile

open Forest

/-! ### Expressions of the nodes of a table -/

/-- Outside of the table a node counts as an empty text. -/
theorem kind_of_size_le {f : TemplateFile} {id : NodeId} (h : f.nodes.size ≤ id) :
    f.kind id = .text "" := by
  rw [kind, Array.getElem?_eq_none h]

/-- No node of the table holds more expressions in the second file than in the first one, new nodes
hold none, and templates stay templates. -/
structure Sheds (f g : TemplateFile) : Prop where
  templates_eq : g.templates = f.templates
  size_le : f.nodes.size ≤ g.nodes.size
  exprs : ∀ id, (g.kind id).exprs.Sublist (f.kind id).exprs
  template : ∀ id t, f.kind id = .template t → ∃ t', g.kind id = .template t'

namespace Sheds

variable {f g h : TemplateFile}

/-- A file that stays as it is loses nothing. -/
theorem refl (f : TemplateFile) : Sheds f f :=
  ⟨rfl, Nat.le_refl _, fun _ => .refl _, fun _ t ht => ⟨t, ht⟩⟩

/-- What two changes shed, the first and then the second, is shed by both. -/
theorem trans (h₁ : Sheds f g) (h₂ : Sheds g h) : Sheds f h where
  templates_eq := h₂.templates_eq.trans h₁.templates_eq
  size_le := Nat.le_trans h₁.size_le h₂.size_le
  exprs id := (h₂.exprs id).trans (h₁.exprs id)
  template id t ht := by
    obtain ⟨t', ht'⟩ := h₁.template id t ht
    exact h₂.template id t' ht'

/-- A node is replaced by one that holds no more. -/
theorem setNode (f : TemplateFile) (id : NodeId) (n : Node)
    (hexprs : n.kind.exprs.Sublist (f.kind id).exprs)
    (htemplate : ∀ t, f.kind id = .template t → ∃ t', n.kind = .template t') :
    Sheds f (f.setNode id n) := by
  -- outside the table nothing is set
  have hkind : ∀ x, (f.setNode id n).kind x = f.kind x ∨ x = id ∧ (f.setNode id n).kind x = n.kind := by
    intro x
    by_cases hx : id = x
    · subst hx
      by_cases hlt : id < f.nodes.size
      · exact .inr ⟨rfl, kind_setNode_self f n hlt⟩
      · have hle := Nat.not_lt.mp hlt
        refine .inl ?_
        rw [kind_of_size_le hle, kind_of_size_le (by rwa [size_setNode])]
    · exact .inl (kind_setNode_of_ne f n hx)
  refine ⟨rfl, Nat.le_of_eq (size_setNode ..).symm, fun x => ?_, fun x t ht => ?_⟩
  · obtain hsame | ⟨rfl, hset⟩ := hkind x
    · rw [hsame]
    -- the node itself holds what the new one holds
    · rwa [hset]
  · obtain hsame | ⟨rfl, hset⟩ := hkind x
    · exact ⟨t, hsame.trans ht⟩
    · rw [hset]
      exact htemplate t ht

/-- Another kind for a node, which holds no more either. -/
theorem setKind (f : TemplateFile) (id : NodeId) (k : NodeKind)
    (hexprs : k.exprs.Sublist (f.kind id).exprs)
    (htemplate : ∀ t, f.kind id = .template t → ∃ t', k = .template t') :
    Sheds f (f.setKind id k) :=
  setNode f id _ hexprs htemplate

/-- A new node without expressions. -/
theorem add (f : TemplateFile) {k : NodeKind} (s : Span) (hk : k.exprs = []) :
    Sheds f (f.add k s).1 := by
  refine ⟨rfl, by rw [size_add]; exact Nat.le_succ _, fun x => ?_, fun x t ht => ?_⟩
  -- a node of before, the new one, or none at all
  · rcases Nat.lt_trichotomy x f.nodes.size with hlt | rfl | hgt
    · rw [kind_add_of_lt f k s hlt]
    · have hself : (f.add k s).1.kind f.nodes.size = k := kind_add_self f k s
      rw [hself, hk]
      exact List.nil_sublist _
    · rw [kind_of_size_le (by rw [size_add]; exact hgt), kind_of_size_le (Nat.le_of_lt hgt)]
  · by_cases hlt : x < f.nodes.size
    · exact ⟨t, (kind_add_of_lt f k s hlt).trans ht⟩
    · rw [kind_of_size_le (Nat.not_lt.mp hlt)] at ht
      cases ht

/-- Other lists put into a node. -/
theorem withBodies (f : TemplateFile) (id : NodeId) (ls : List (List NodeId)) :
    Sheds f (f.setKind id ((f.kind id).withBodies ls)) := by
  refine setKind f id _ (by rw [NodeKind.exprs_withBodies]) fun t ht => ?_
  rw [ht]
  exact ⟨_, rfl⟩

/-- Many changes shed if each of them does. -/
theorem foldl {α : Type} {step : TemplateFile → α → TemplateFile} (hstep : ∀ f a, Sheds f (step f a))
    (as : List α) (f : TemplateFile) : Sheds f (as.foldl step f) := by
  induction as generalizing f with
  | nil => exact refl f
  | cons a as ih => exact (hstep f a).trans (ih _)

end Sheds

/-! ### Rebuilt forests -/

/-- The templates of the second file stand over a forest of nodes of the first forest and of new ones,
none of which holds more expressions than before. -/
structure Descends (f : TemplateFile) (ts : Forest) (g : TemplateFile) (us : Forest) : Prop where
  planted : g.Planted us
  sheds : Sheds f g
  ids_from : ∀ x ∈ ids us, x ∈ ids ts ∨ f.nodes.size ≤ x

section Descends

variable {f g h : TemplateFile} {ts us vs : Forest}

/-- A file over its own forest. -/
theorem Descends.refl (hf : f.Planted ts) : Descends f ts f ts := ⟨hf, .refl f, fun _ hx => .inl hx⟩

/-- Rebuilding twice is rebuilding. -/
theorem Descends.trans (h₁ : Descends f ts g us) (h₂ : Descends g us h vs) : Descends f ts h vs where
  planted := h₂.planted
  sheds := h₁.sheds.trans h₂.sheds
  ids_from x hx := by
    obtain hx | hge := h₂.ids_from x hx
    · exact h₁.ids_from x hx
    · exact .inr (Nat.le_trans h₁.sheds.size_le hge)

/-- Steps that rebuild the forest, one after the other. -/
theorem Descends.foldl {α : Type} {step : TemplateFile → α → TemplateFile}
    (hstep : ∀ {f ts}, f.Planted ts → ∀ a, ∃ us, Descends f ts (step f a) us) (as : List α)
    (hf : f.Planted ts) : ∃ us, Descends f ts (as.foldl step f) us := by
  induction as generalizing f ts with
  | nil => exact ⟨ts, .refl hf⟩
  | cons a as ih =>
    obtain ⟨us, hus⟩ := hstep hf a
    obtain ⟨vs, hvs⟩ := ih hus.planted
    exact ⟨vs, hus.trans hvs⟩

/-- The roots are templates after the change too. -/
theorem Planted.areTemplates_of_sheds (hf : f.Planted ts) (hs : Sheds f g) (hshows : g.Shows us)
    (hroots : roots us = roots ts) : AreTemplates us := by
  intro u hu
  have hroot : u.id ∈ roots ts := hroots ▸ List.mem_map_of_mem hu
  obtain ⟨t, ht, hid⟩ := List.mem_map.mp hroot
  obtain ⟨x, hx⟩ := hf.areTemplates t ht
  have hkind : f.kind u.id = .template x :=
    hid ▸ (hf.holds.shows_nodes t (mem_subtrees_self ht)).trans hx
  obtain ⟨x', hx'⟩ := hs.template u.id x hkind
  exact ⟨x', (hshows u (mem_subtrees_self hu)).symm.trans hx'⟩

/-- A forest with the same roots over the new table. -/
theorem Planted.descends (hf : f.Planted ts) (hs : Sheds f g) (hus : g.Holds us)
    (hroots : roots us = roots ts) (hfrom : ∀ x ∈ ids us, x ∈ ids ts ∨ f.nodes.size ≤ x) :
    Descends f ts g us := by
  refine ⟨⟨hus, ?_, hf.areTemplates_of_sheds hs hus.shows_nodes hroots⟩, hs, hfrom⟩
  rw [hroots, hf.roots_eq, hs.templates_eq]

/-- The nodes of the forest have the lists that they had. -/
theorem Planted.relabel (hf : f.Planted ts) (hs : Sheds f g)
    (hbodies : ∀ x ∈ ids ts, (g.kind x).bodies = (f.kind x).bodies) :
    Descends f ts g (Forest.relabel g ts) := by
  refine hf.descends hs (hf.holds.relabel hs.size_le hbodies) (roots_relabel g ts)
    fun x hx => .inl ?_
  rwa [ids_relabel] at hx

/-- **Expressions are only lost.** The expressions that the rebuilt file holds are among those that the
file held, each at most as often. -/
theorem Descends.heldExprs_subperm (hf : f.Planted ts) (hd : Descends f ts g us) :
    g.heldExprs.Subperm f.heldExprs := by
  rw [heldExprs, heldExprs, hd.planted.reachable_eq, hf.reachable_eq]
  -- the nodes that are not new
  let old := (ids us).filter (· < f.nodes.size)
  -- new nodes held nothing in the first file
  have hnew : (ids us).flatMap (fun id => (f.kind id).exprs) =
      old.flatMap fun id => (f.kind id).exprs := by
    simp only [old]
    induction ids us with
    | nil => rfl
    | cons x xs ih =>
      by_cases hx : x < f.nodes.size
      · rw [List.filter_cons_of_pos (by simpa using hx), List.flatMap_cons, List.flatMap_cons, ih]
      · rw [List.filter_cons_of_neg (by simpa using hx), List.flatMap_cons, ih,
          kind_of_size_le (Nat.not_lt.mp hx)]
        rfl
  -- the others were nodes of its forest, each of them once
  have hold : old.Subperm (ids ts) := by
    refine List.Nodup.subperm (hd.planted.holds.nodup.filter _) fun x hx => ?_
    obtain ⟨hx, hlt⟩ := List.mem_filter.mp hx
    exact (hd.ids_from x hx).resolve_right (Nat.not_le.mpr (by simpa using hlt))
  obtain ⟨l, hperm, hl⟩ := hold
  -- and each of them holds no more than it did
  have hfewer : ((ids us).flatMap fun id => (g.kind id).exprs).Sublist
      ((ids us).flatMap fun id => (f.kind id).exprs) :=
    List.Sublist.flatMap_right _ fun id _ => hd.sheds.exprs id
  exact (hnew ▸ hfewer.subperm).trans ⟨_, hperm.flatMap_right _, hl.flatMap _⟩

end Descends

/-! ### Edits of lists -/

/-- In place of the first forest there is the second one, over its nodes and new ones; nothing else has
changed. -/
structure Grown (f g : TemplateFile) (b c : Forest) : Prop where
  changes : ChangesOnly (ids b) f g
  holds : g.Holds c
  ids_from : ∀ x ∈ ids c, x ∈ ids b ∨ f.nodes.size ≤ x

section Grown

variable {f g h : TemplateFile} {b c d ts us : Forest}

/-- A forest in its own place. -/
theorem Grown.refl (hf : f.Holds b) : Grown f f b b := ⟨.refl _ f, hf, fun _ hx => .inl hx⟩

/-- What is put in place of the second forest stands in place of the first. -/
theorem Grown.trans (h₁ : Grown f g b c) (h₂ : Grown g h c d) : Grown f h b d where
  changes := by
    refine ⟨Nat.le_trans h₁.changes.size_le h₂.changes.size_le, fun x hlt hx => ?_, ?_⟩
    · -- a node of the middle forest is one of the first, or new
      have hmiddle : x ∉ ids c := fun hc =>
        (h₁.ids_from x hc).elim hx fun hge => Nat.not_lt.mpr hge hlt
      rw [h₂.changes.kind_eq x (Nat.lt_of_lt_of_le hlt h₁.changes.size_le) hmiddle]
      exact h₁.changes.kind_eq x hlt hx
    · exact (h₁.changes.trans h₂.changes).rest_eq
  holds := h₂.holds
  ids_from x hx := by
    obtain hx | hge := h₂.ids_from x hx
    · exact h₁.ids_from x hx
    · exact .inr (Nat.le_trans h₁.changes.size_le hge)

/-- The forest stands inside a bigger one, which is replaced as a whole. -/
theorem Grown.of_subset (hg : Grown f g b c) (hsub : ids b ⊆ ids d) : Grown f g d c :=
  ⟨hg.changes.mono hsub, hg.holds, fun x hx => (hg.ids_from x hx).imp_left (hsub ·)⟩

/-- Two forests side by side, replaced one after the other. -/
theorem Grown.append (hf : f.Holds (b ++ ts)) (h₁ : Grown f g b c) (h₂ : Grown g h ts us) :
    Grown f h (b ++ ts) (c ++ us) := by
  have hlt : ∀ x ∈ ids ts, x < f.nodes.size := hf.right.lt_size
  -- what stands in place of the first forest shares no nodes with the second one
  have hdisjoint : (ids c).Disjoint (ids ts) := fun x hx hts =>
    (h₁.ids_from x hx).elim (fun hb => hf.disjoint hb hts) fun hge => Nat.not_lt.mpr hge (hlt x hts)
  refine ⟨?_, ?_, fun x hx => ?_⟩
  · rw [ids_append]
    exact h₁.changes.trans h₂.changes
  · refine (h₁.holds.kept h₂.changes fun x hts hx => hdisjoint hx hts).append h₂.holds ?_
    intro x hx hus
    -- a node of the second one, or one that is newer than all of the first
    obtain hts | hge := h₂.ids_from x hus
    · exact hdisjoint hx hts
    · exact Nat.not_lt.mpr hge (h₁.holds.lt_size x hx)
  · rw [ids_append] at hx ⊢
    obtain hx | hx := List.mem_append.mp hx
    · exact (h₁.ids_from x hx).imp_left (List.mem_append_left _)
    · obtain hts | hge := h₂.ids_from x hx
      · exact .inl (List.mem_append_right _ hts)
      · exact .inr (Nat.le_trans h₁.changes.size_le hge)

end Grown

/-- **A node of the forest gets other lists**, which stand in place of those that it had. -/
theorem Planted.setKind {f g : TemplateFile} {ts : Forest} {id : NodeId} {k k' : NodeKind}
    {bs cs : List Forest} (hf : f.Planted ts) (hnode : .node id k bs ∈ subtrees ts)
    (hheld : f.Holds [.node id k bs]) (hgrown : Grown f g bs.flatten cs.flatten)
    (hbodies : k'.bodies = cs.map roots) (hsheds : Sheds f (g.setKind id k')) :
    ∃ us, Descends f ts (g.setKind id k') us := by
  have hlt := hheld.root_lt
  have hchanges := hgrown.changes
  have hfrom := hgrown.ids_from
  rw [ids_flatten bs] at hchanges hfrom
  -- the node is in none of its new lists
  have hself : id ∉ ids cs.flatten := fun hmem =>
    (hfrom id hmem).elim hheld.root_notMem_inside fun hge => Nat.not_lt.mpr hge hlt
  have hput := ChangesOnly.setKind (List.mem_singleton_self id) k' (f := g)
  -- nothing but the node and what was inside it has changed
  have hchange : ChangesOnly (id :: bs.flatMap ids) f (g.setKind id k') := by
    refine (hchanges.trans hput).mono fun x hx => ?_
    obtain hx | hx := List.mem_append.mp hx
    · exact List.mem_cons_of_mem _ hx
    · exact List.mem_singleton.mp hx ▸ List.mem_cons_self
  have hkind : (g.setKind id k').kind id = k' :=
    kind_setKind_self _ _ (Nat.lt_of_lt_of_le hlt hgrown.changes.size_le)
  have hinside := hgrown.holds.kept hput fun x hx hx' => hself (List.mem_singleton.mp hx ▸ hx')
  obtain ⟨us, hus, husroots, hids⟩ :=
    hf.holds.graft hnode hchange (hkind.symm ▸ hbodies) hinside hfrom
  exact ⟨us, hf.descends hsheds hus husroots hids⟩

/-- An edit of lists that rebuilds the forest below a list. On any list, also one of nodes that are in
other lists by now, it only adds nodes and changes no list of the nodes that are there. -/
structure Regrows (edit : BodyEdit) : Prop where
  sheds : ∀ f ids, Sheds f (edit f ids).1
  bodies_eq : ∀ (f : TemplateFile) ids, ∀ id < f.nodes.size,
    ((edit f ids).1.kind id).bodies = (f.kind id).bodies
  grows : ∀ {f b}, f.Holds b →
    ∃ c, Grown f (edit f (roots b)).1 b c ∧ roots c = (edit f (roots b)).2

namespace Regrows

variable {edit : BodyEdit} {f : TemplateFile} {ts : Forest}

/-- One edit after another is an edit of that kind. -/
theorem comp {edit' : BodyEdit} (h : Regrows edit) (h' : Regrows edit') :
    Regrows fun f ids => edit' (edit f ids).1 (edit f ids).2 where
  sheds f ids := (h.sheds f ids).trans (h'.sheds _ _)
  bodies_eq f ids id hid :=
    (h'.bodies_eq _ _ id (Nat.lt_of_lt_of_le hid (h.sheds f ids).size_le)).trans (h.bodies_eq f ids id hid)
  grows hb := by
    obtain ⟨c, hc, hroots⟩ := h.grows hb
    obtain ⟨d, hd, hroots'⟩ := h'.grows hc.holds
    rw [← hroots]
    exact ⟨d, hc.trans hd, hroots'⟩

/-- The edit of a list of a node that the forest has lost. -/
theorem editBody_lost (h : Regrows edit) (hf : f.Planted ts) {id : NodeId} (hid : id ∉ ids ts)
    {body : List NodeId} (ls : List (List NodeId)) :
    ∃ us, Descends f ts ((edit f body).1.setKind id (((edit f body).1.kind id).withBodies ls)) us := by
  refine ⟨_, hf.relabel ((h.sheds f body).trans (.withBodies _ id ls)) fun x hx => ?_⟩
  have hne : id ≠ x := fun heq => hid (heq ▸ hx)
  rw [kind_setKind_of_ne _ _ hne, h.bodies_eq f body x (hf.holds.lt_size x hx)]

/-- The edit of a list of a node of the forest. -/
theorem editBody_held (h : Regrows edit) (hf : f.Planted ts) {id : NodeId} {k : NodeKind}
    {before after : List Forest} {b : Forest}
    (hnode : .node id k (before ++ b :: after) ∈ subtrees ts)
    (hheld : f.Holds [.node id k (before ++ b :: after)]) :
    ∃ us, Descends f ts ((edit f (roots b)).1.setKind id
      (((edit f (roots b)).1.kind id).withBodies
        (((edit f (roots b)).1.kind id).bodies.set before.length (edit f (roots b)).2))) us := by
  have hb : b ∈ before ++ b :: after := List.mem_append_right _ List.mem_cons_self
  have hsheds := (h.sheds f (roots b)).trans (.withBodies _ id
    (((edit f (roots b)).1.kind id).bodies.set before.length (edit f (roots b)).2))
  obtain ⟨c, hgrown, hroots⟩ := h.grows (hheld.body hb)
  rw [← hroots] at hsheds ⊢
  obtain ⟨g, hg⟩ : ∃ g, g = (edit f (roots b)).1 := ⟨_, rfl⟩
  rw [← hg] at hgrown hsheds ⊢
  -- the edit of a list does not touch the node that has the list
  have hkind : g.kind id = k :=
    (hgrown.changes.kind_eq id hheld.root_lt (hheld.root_notMem_body hb)).trans hheld.kind_eq
  rw [hkind] at hsheds ⊢
  -- the edited list takes the place of the list that was there
  have hset : k.bodies.set before.length (roots c) = (before ++ c :: after).map roots := by
    rw [hheld.bodies_eq, List.map_append, List.map_append, List.map_cons, List.map_cons,
      List.set_append_right _ _ (by simp)]
    simp
  have hlen : ((before ++ c :: after).map roots).length = k.bodies.length := by
    rw [hheld.bodies_eq]
    simp
  rw [hset] at hsheds ⊢
  refine hf.setKind hnode hheld ?_ (NodeKind.bodies_withBodies _ _ hlen) hsheds
  -- the lists beside the edited one are as they were
  have hinside := hheld.inside
  rw [List.flatten_append, List.flatten_cons] at hinside
  rw [List.flatten_append, List.flatten_append, List.flatten_cons, List.flatten_cons]
  have hafter : g.Holds after.flatten :=
    hinside.right.right.kept hgrown.changes hinside.right.disjoint
  exact Grown.append hinside (.refl hinside.left)
    (Grown.append hinside.right hgrown (.refl hafter))

/-- **The edit of one list** of a node, whether the forest has it or not. -/
theorem editBody (h : Regrows edit) (hf : f.Planted ts) (id : NodeId) (slot : Nat) :
    ∃ us, Descends f ts (TemplateFile.editBody edit id f slot) us := by
  unfold TemplateFile.editBody
  split
  · exact ⟨ts, .refl hf⟩
  · next body hbody =>
    by_cases hid : id ∈ ids ts
    -- the node is in the forest, and `slot` names one of its lists
    · obtain ⟨k, bs, hnode, hheld⟩ := hf.holds.exists_node hid
      rw [hheld.kind_eq, hheld.bodies_eq, List.getElem?_map] at hbody
      obtain ⟨b, hb, rfl⟩ := Option.map_eq_some_iff.mp hbody
      obtain ⟨hlt, rfl⟩ := List.getElem?_eq_some_iff.mp hb
      have hsplit : bs = bs.take slot ++ bs[slot] :: bs.drop (slot + 1) := by
        rw [List.getElem_cons_drop, List.take_append_drop]
      have hlen : (bs.take slot).length = slot := by
        rw [List.length_take, Nat.min_eq_left (Nat.le_of_lt hlt)]
      rw [hsplit] at hnode hheld
      have hedited := h.editBody_held hf hnode hheld
      rwa [hlen] at hedited
    -- a node that is not in the forest is not shown by it
    · exact h.editBody_lost hf hid _

/-- **The visits of all nodes** that were reachable at first. -/
theorem editBodies (h : Regrows edit) (hf : f.Planted ts) :
    ∃ us, Descends f ts (f.editBodies edit) us := by
  refine Descends.foldl (fun {f ts} hf id => ?_) f.reachable hf
  exact Descends.foldl (fun hf slot => h.editBody hf id slot) _ hf

end Regrows

/-! ### Files with a forest of templates -/

/-- The table holds the forest of the templates, and each expression in it has a place of its own. -/
def Rooted (f : TemplateFile) : Prop := ∃ ts, f.Planted ts ∧ Expr.Separate f.heldExprs

section Rooted

variable {f g : TemplateFile} {ts us : Forest}

/-- Such a file is a forest. -/
theorem Rooted.isForest (h : f.Rooted) : f.IsForest := by
  obtain ⟨ts, hts, hexprs⟩ := h
  exact hts.isForest hexprs

/-- A forest that was rebuilt. -/
theorem Descends.rooted (hd : Descends f ts g us) (hf : f.Planted ts)
    (hexprs : Expr.Separate f.heldExprs) : g.Rooted :=
  ⟨us, hd.planted, hexprs.subperm (hd.heldExprs_subperm hf)⟩

/-- It stays one when its forest is rebuilt. -/
theorem Rooted.of_descends (h : f.Rooted) (hd : ∀ ts, f.Planted ts → ∃ us, Descends f ts g us) :
    g.Rooted := by
  obtain ⟨ts, hts, hexprs⟩ := h
  obtain ⟨us, hus⟩ := hd ts hts
  exact hus.rooted hts hexprs

/-- The expressions stay in their places. -/
theorem Retouched.heldExprs (hr : Retouched f g) :
    List.Forall₂ Expr.InPlace f.heldExprs g.heldExprs := by
  rw [TemplateFile.heldExprs, TemplateFile.heldExprs, hr.reachable_eq]
  induction f.reachable with
  | nil => exact .nil
  | cons id ids ih =>
    rw [List.flatMap_cons, List.flatMap_cons]
    exact List.rel_append (hr.alike id).exprs ih

/-- The same nodes can be reached. -/
theorem Retouched.reaches_iff (hr : Retouched f g) {id : NodeId} : g.Reaches id ↔ f.Reaches id := by
  constructor
  · intro hid
    induction hid with
    | template hid => exact .template (hr.templates_eq ▸ hid)
    | inside _ hid ih => exact .inside ih (hr.children_eq _ ▸ hid)
  · intro hid
    induction hid with
    | template hid => exact .template (hr.templates_eq.symm ▸ hid)
    | inside _ hid ih => exact .inside ih ((hr.children_eq _).symm ▸ hid)

/-- The templates stay templates. -/
theorem Retouched.planted (hr : Retouched f g) (hf : f.Planted ts) :
    g.Planted (Forest.relabel g ts) where
  holds := hr.holds hf.holds
  roots_eq := by rw [roots_relabel, hf.roots_eq, hr.templates_eq]
  areTemplates := by
    intro u hu
    have hkind : g.kind u.id = u.kind := shows_relabel g ts u (mem_subtrees_self hu)
    have hroot : u.id ∈ roots ts := roots_relabel g ts ▸ List.mem_map_of_mem hu
    obtain ⟨t, ht, hid⟩ := List.mem_map.mp hroot
    obtain ⟨x, hx⟩ := hf.areTemplates t ht
    have hold : f.kind u.id = .template x :=
      hid ▸ (hf.holds.shows_nodes t (mem_subtrees_self ht)).trans hx
    -- only templates have keys
    have hkey := (hr.alike u.id).key_eq none
    rw [hold, hkind] at hkey
    cases hk : u.kind with
    | template x' => exact ⟨x', rfl⟩
    | _ =>
      rw [hk] at hkey
      cases hkey

/-- A forest that was retouched. -/
theorem Rooted.retouched (h : f.Rooted) (hr : Retouched f g) : g.Rooted := by
  obtain ⟨ts, hts, hexprs⟩ := h
  exact ⟨_, hr.planted hts, hexprs.inPlace hr.heldExprs⟩

end Rooted

end TemplateFile

end TemplateFrontend
