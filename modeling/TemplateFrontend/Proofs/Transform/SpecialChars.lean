import TemplateFrontend.Proofs.Registry.Outlines
/-!
# Texts around special characters

Writing special characters out changes which nodes a list has, never what its runs of texts and special
characters say: a character becomes the text that it stands for, in its place, and one that stands for nothing
leaves its list.

* `NodeKind.plainText?` — the text of a node that is a text or a special character;
* `TemplateFile.plainRuns` — a list as the texts of its runs, with the other nodes between them;
* `Forest.ids_writeOut_eq`, `Forest.mem_subtrees_writeOut` — which nodes are left of a forest, and as what;
* `TemplateFile.ExpandsSpecials`, `TemplateFile.Planted.expandsSpecials` — what the pass makes of a file.
-/

namespace TemplateFrontend

namespace NodeKind

/-- The text of a node that is a text or a special character. -/
def plainText? : NodeKind → Option String
  | .text s => some s
  | .special c => some c.text
  | _ => none

variable {k : NodeKind}

theorem plainText?_of_isBlank (h : k.isBlank = true) : k.plainText? = some "" := by
  cases k with
  | special c => exact congrArg some (beq_iff_eq.mp h)
  | _ => cases h

@[simp] theorem plainText?_writtenOut (k : NodeKind) : k.writtenOut.plainText? = k.plainText? := by
  cases k <;> rfl

@[simp] theorem plainText?_withBodies (k : NodeKind) (ls : List (List NodeId)) :
    (k.withBodies ls).plainText? = k.plainText? := by
  cases k with
  | binding x b => cases b <;> rfl
  | _ => rfl

theorem withBodies_writtenOut_ne_special (k : NodeKind) (ls : List (List NodeId)) (c : SpecialChar) :
    k.writtenOut.withBodies ls ≠ .special c := by
  cases k with
  | binding x b => cases b <;> exact fun h => nomatch h
  | _ => exact fun h => nomatch h

end NodeKind

/-! ### Runs of a list -/

namespace TemplateFile

/-- A list of nodes as the text of the run that it starts with, and its nodes that are neither texts nor
special characters, each with the text of the run after it. A run without nodes has the empty text. -/
def plainRuns (f : TemplateFile) : List NodeId → String × List (NodeId × String)
  | [] => ("", [])
  | id :: ids =>
    match (f.kind id).plainText? with
    | some s => (s ++ (f.plainRuns ids).1, (f.plainRuns ids).2)
    | none => ("", (id, (f.plainRuns ids).1) :: (f.plainRuns ids).2)

/-- Whether a list has to go without a node, because it stands for nothing. -/
def isBlank (f : TemplateFile) (id : NodeId) : Bool := (f.kind id).isBlank

/-- The nodes of a list that stand for something. -/
def withoutBlanks (f : TemplateFile) (ids : List NodeId) : List NodeId := ids.filter fun id => !f.isBlank id

section Lists

variable {f g : TemplateFile} {id : NodeId} {ids : List NodeId}

theorem withoutBlanks_cons_of_blank (h : f.isBlank id = true) :
    f.withoutBlanks (id :: ids) = f.withoutBlanks ids :=
  List.filter_cons_of_neg (by rw [h]; exact Bool.false_ne_true)

theorem withoutBlanks_cons (h : f.isBlank id = false) :
    f.withoutBlanks (id :: ids) = id :: f.withoutBlanks ids :=
  List.filter_cons_of_pos (by rw [h]; rfl)

theorem plainRuns_congr (h : ∀ id ∈ ids, (g.kind id).plainText? = (f.kind id).plainText?) :
    g.plainRuns ids = f.plainRuns ids := by
  induction ids with
  | nil => rfl
  | cons id ids ih =>
    obtain ⟨hid, hids⟩ := List.forall_mem_cons.mp h
    rw [plainRuns, plainRuns, hid, ih hids]

/-- Nodes that stand for nothing do not count in a run. -/
theorem plainRuns_withoutBlanks (f : TemplateFile) (ids : List NodeId) :
    f.plainRuns (f.withoutBlanks ids) = f.plainRuns ids := by
  induction ids with
  | nil => rfl
  | cons id ids ih =>
    cases hblank : f.isBlank id with
    | true =>
      rw [withoutBlanks_cons_of_blank hblank, ih, plainRuns, NodeKind.plainText?_of_isBlank hblank]
      exact Prod.ext (String.empty_append).symm rfl
    | false => rw [withoutBlanks_cons hblank, plainRuns, plainRuns, ih]

end Lists

end TemplateFile

/-! ### Nodes of a forest written out -/

namespace Forest

open TemplateFile

variable {f : TemplateFile} {ts : Forest}

theorem roots_writeOut (h : f.Shows ts) : roots (writeOut ts) = f.withoutBlanks (roots ts) := by
  induction ts with
  | nil => rfl
  | cons t ts ih =>
    obtain ⟨id, k, bs⟩ := t
    obtain ⟨hk, -, hts⟩ := shows_cons.mp h
    -- what is blank in the tree is blank in the table
    have hid : f.isBlank id = k.isBlank := congrArg NodeKind.isBlank hk
    cases hblank : k.isBlank with
    | true =>
      rw [writeOut_cons_blank hblank, roots_cons, NodeTree.id_node,
        withoutBlanks_cons_of_blank (hid.trans hblank), ih hts]
    | false =>
      rw [writeOut_cons hblank, roots_cons, roots_cons, NodeTree.id_node, NodeTree.id_node,
        withoutBlanks_cons (hid.trans hblank), ih hts]

/-- A node of the forest written out was a node before, with longer lists, and stood for something. -/
theorem exists_of_mem_subtrees_writeOut {t : NodeTree} (ht : t ∈ subtrees (writeOut ts)) :
    ∃ u ∈ subtrees ts, u.id = t.id ∧ u.kind.isBlank = false ∧
      t.kind = u.kind.writtenOut.withBodies ((u.bodies.map writeOut).map roots) := by
  induction ts using Forest.induct with
  | nil => cases ht
  | cons id k bs ts ihb iht =>
    rw [subtrees_cons]
    cases hblank : k.isBlank with
    | true =>
      -- a blank node is left out
      rw [writeOut_cons_blank hblank] at ht
      obtain ⟨u, hu, h⟩ := iht ht
      exact ⟨u, List.mem_cons_of_mem _ (List.mem_append_right _ hu), h⟩
    | false =>
      rw [writeOut_cons hblank, subtrees_cons] at ht
      obtain rfl | ht := List.mem_cons.mp ht
      · exact ⟨_, List.mem_cons_self, rfl, hblank, rfl⟩
      -- in a list of this node, or in the rest of the list
      · obtain ht | ht := List.mem_append.mp ht
        · obtain ⟨c, hc, ht⟩ := List.mem_flatMap.mp ht
          obtain ⟨b, hb, rfl⟩ := List.mem_map.mp hc
          obtain ⟨u, hu, h⟩ := ihb b hb ht
          exact ⟨u, List.mem_cons_of_mem _ (List.mem_append_left _ (List.mem_flatMap.mpr ⟨b, hb, hu⟩)), h⟩
        · obtain ⟨u, hu, h⟩ := iht ht
          exact ⟨u, List.mem_cons_of_mem _ (List.mem_append_right _ hu), h⟩

/-- **The nodes that are left.** Nothing is below a node that stands for nothing, so it alone is gone. -/
theorem ids_writeOut_eq (h : f.Shows ts) (hl : Labelled ts) :
    ids (writeOut ts) = f.withoutBlanks (ids ts) := by
  -- the nodes that are no blanks come in the same order
  have hkeep : (ids (writeOut ts)).filterMap (Option.guard fun id => !f.isBlank id) =
      (ids ts).filterMap (Option.guard fun id => !f.isBlank id) :=
    filterMap_ids_writeOut hl fun t ht hblank => by
      have hgone : f.isBlank t.id = true := (congrArg NodeKind.isBlank (h t ht)).trans hblank
      rw [Option.guard, hgone]
      rfl
  rw [List.filterMap_eq_filter] at hkeep
  calc ids (writeOut ts) = f.withoutBlanks (ids (writeOut ts)) := by
        refine (List.filter_eq_self.mpr fun id hid => ?_).symm
        obtain ⟨t, ht, rfl⟩ := List.mem_map.mp hid
        obtain ⟨u, hu, hid, hblank, -⟩ := exists_of_mem_subtrees_writeOut ht
        rw [← hid, isBlank, h u hu, hblank]
        rfl
    _ = f.withoutBlanks (ids ts) := hkeep

end Forest

/-! ### Files -/

namespace TemplateFile

open Forest

/-- **Special characters written out.** The second file is the first one without special characters: every one
is a text where it stood, or gone if it stands for nothing. -/
structure ExpandsSpecials (f g : TemplateFile) : Prop where
  /-- What the file declares is as it was, and so are the places of the nodes. -/
  rest_eq : { g with nodes := f.nodes } = f
  span_eq : ∀ id, g.span id = f.span id
  ne_special : ∀ id ∈ g.reachable, ∀ c, g.kind id ≠ .special c
  /-- The other nodes are left, in their order. -/
  reachable_eq : g.reachable = f.withoutBlanks f.reachable
  kind_eq : ∀ id ∈ g.reachable,
    g.kind id = (f.kind id).writtenOut.withBodies ((f.kind id).bodies.map f.withoutBlanks)
  /-- The runs of every list have the texts that they had. -/
  runs_eq : ∀ id ∈ g.reachable, (g.kind id).bodies.map g.plainRuns = (f.kind id).bodies.map f.plainRuns

namespace Planted

variable {f : TemplateFile} {ts : Forest} {id : NodeId}

theorem desugarSyntax (h : f.Planted ts) : f.desugarSyntax.Planted (writeOut ts) := by
  obtain ⟨hafter, htemplates⟩ := h.holds.desugarSyntax h.roots_eq h.areTemplates
  obtain ⟨hare, hroots⟩ := areTemplates_writeOut h.areTemplates
  exact ⟨hafter, hroots.trans (h.roots_eq.trans htemplates.symm), hare⟩

theorem reachable_desugarSyntax (h : f.Planted ts) :
    f.desugarSyntax.reachable = f.withoutBlanks f.reachable := by
  rw [h.desugarSyntax.reachable_eq, h.reachable_eq]
  exact ids_writeOut_eq h.holds.shows_nodes h.holds.labelled

theorem mem_reachable_desugarSyntax (h : f.Planted ts) (hid : id ∈ f.desugarSyntax.reachable) {x : NodeId}
    (hx : x ∈ f.desugarSyntax.children id) : x ∈ f.desugarSyntax.reachable := by
  rw [h.desugarSyntax.reachable_eq] at hid ⊢
  exact (h.desugarSyntax.holds.closed id hid).2 hx

theorem kind_desugarSyntax (h : f.Planted ts) (hid : id ∈ f.desugarSyntax.reachable) :
    f.desugarSyntax.kind id = (f.kind id).writtenOut.withBodies ((f.kind id).bodies.map f.withoutBlanks) := by
  rw [h.desugarSyntax.reachable_eq] at hid
  obtain ⟨t, ht, rfl⟩ := List.mem_map.mp hid
  obtain ⟨u, hu, hid, -, hkind⟩ := exists_of_mem_subtrees_writeOut ht
  have hbodies : (u.bodies.map writeOut).map roots = u.kind.bodies.map f.withoutBlanks := by
    rw [h.holds.labelled u hu, List.map_map, List.map_map]
    exact List.map_congr_left fun b hb =>
      roots_writeOut fun v hv => h.holds.shows_nodes v (mem_subtrees_inside hu hb hv)
  rw [h.desugarSyntax.holds.shows_nodes t ht, hkind, ← hid, h.holds.shows_nodes u hu, hbodies]

theorem bodies_desugarSyntax (h : f.Planted ts) (hid : id ∈ f.desugarSyntax.reachable) :
    (f.desugarSyntax.kind id).bodies = (f.kind id).bodies.map f.withoutBlanks := by
  rw [h.kind_desugarSyntax hid, NodeKind.bodies_withBodies]
  rw [NodeKind.bodies_writtenOut, List.length_map]

theorem plainRuns_desugarSyntax (h : f.Planted ts) (hid : id ∈ f.desugarSyntax.reachable) :
    (f.desugarSyntax.kind id).bodies.map f.desugarSyntax.plainRuns = (f.kind id).bodies.map f.plainRuns := by
  have hbodies := h.bodies_desugarSyntax hid
  rw [hbodies, List.map_map]
  refine List.map_congr_left fun l hl => ?_
  have htexts : ∀ x ∈ f.withoutBlanks l, (f.desugarSyntax.kind x).plainText? = (f.kind x).plainText? := by
    intro x hx
    have hreach := h.mem_reachable_desugarSyntax hid
      (List.mem_flatten.mpr ⟨_, hbodies ▸ List.mem_map_of_mem hl, hx⟩)
    rw [h.kind_desugarSyntax hreach, NodeKind.plainText?_withBodies, NodeKind.plainText?_writtenOut]
  exact (plainRuns_congr htexts).trans (f.plainRuns_withoutBlanks l)

/-- **What the pass makes of a file** whose table holds the forest of its templates. -/
theorem expandsSpecials (h : f.Planted ts) : f.ExpandsSpecials f.desugarSyntax where
  rest_eq := (Keeps.editBodies expandSpecials_keeps NodeKind.profile_withBodies f).rest_eq
  span_eq := (Keeps.editBodies expandSpecials_keeps NodeKind.profile_withBodies f).span_eq
  ne_special id hid c := by
    rw [h.kind_desugarSyntax hid]
    exact NodeKind.withBodies_writtenOut_ne_special _ _ c
  reachable_eq := h.reachable_desugarSyntax
  kind_eq _ hid := h.kind_desugarSyntax hid
  runs_eq _ hid := h.plainRuns_desugarSyntax hid

end Planted

end TemplateFile

end TemplateFrontend
