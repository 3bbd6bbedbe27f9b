import TemplateFrontend.Proofs.Tree.Mapping
import TemplateFrontend.Proofs.Markup.Steps
import TemplateFrontend.Transform.Lowering
import Mathlib.Data.List.Flatten
/-!
# Forests with special characters written out

`Forest.writeOut` replaces every special character of a forest by its text and drops those without a
text. `TemplateFile.desugarSyntax` does the same to the table.

* `Forest.ids_writeOut`, `Forest.labelled_writeOut`, `Forest.areTemplates_writeOut`,
  `Forest.valuesFit_writeOut` — what stays true of the forest;
* `TemplateFile.expandSpecials_spec` — the edit of one list;
* `TemplateFile.Holds.desugarSyntax` — the table holds the forest written out.
-/

namespace TemplateFrontend

namespace NodeKind

/-- A special character as the text that it stands for; any other kind as it is. -/
def writtenOut : NodeKind → NodeKind
  | .special c => .text c.text
  | k => k

/-- Whether the kind is a special character that stands for nothing. -/
def isBlank : NodeKind → Bool
  | .special c => c.text == ""
  | _ => false

@[simp] theorem bodies_writtenOut (k : NodeKind) : k.writtenOut.bodies = k.bodies := by
  cases k <;> rfl

theorem fitsValue_writtenOut (k : NodeKind) : k.writtenOut.fitsValue = k.fitsValue := by
  cases k <;> rfl

/-- Whether a node may stand in a value does not depend on its lists. -/
theorem fitsValue_withBodies (k : NodeKind) (ls : List (List NodeId)) :
    (k.withBodies ls).fitsValue = k.fitsValue := by
  cases k with
  | binding x b => cases b <;> rfl
  | _ => rfl

end NodeKind

namespace Forest

mutual

/-- A node with special characters written out, in it and below it. -/
def writeOutTree : NodeTree → Forest
  | .node id k bodies =>
    if k.isBlank then []
    else [.node id (k.writtenOut.withBodies ((writeOutAll bodies).map roots)) (writeOutAll bodies)]

/-- A forest with its special characters written out. -/
def writeOut : Forest → Forest
  | [] => []
  | t :: ts => writeOutTree t ++ writeOut ts

/-- Several forests with their special characters written out. -/
def writeOutAll : List Forest → List Forest
  | [] => []
  | b :: bs => writeOut b :: writeOutAll bs

end

/-- Several forests are written out one by one. -/
theorem writeOutAll_eq_map (bs : List Forest) : writeOutAll bs = bs.map writeOut := by
  induction bs with
  | nil => rfl
  | cons b bs ih => rw [writeOutAll, ih, List.map_cons]

@[simp] theorem writeOut_nil : writeOut [] = [] := rfl

section Cons

variable {id : NodeId} {k : NodeKind} {bs : List Forest} {ts : Forest}

/-- A character that stands for nothing leaves its list. -/
theorem writeOut_cons_blank (h : k.isBlank = true) :
    writeOut (.node id k bs :: ts) = writeOut ts := by
  rw [writeOut, writeOutTree, if_pos h, List.nil_append]

/-- Any other node is written out, with what is inside it. -/
theorem writeOut_cons (h : k.isBlank = false) :
    writeOut (.node id k bs :: ts) =
      .node id (k.writtenOut.withBodies ((bs.map writeOut).map roots)) (bs.map writeOut) ::
        writeOut ts := by
  rw [writeOut, writeOutTree, if_neg (by simp [h]), writeOutAll_eq_map, List.singleton_append]

end Cons

/-- Nodes are only lost. -/
theorem ids_writeOut (ts : Forest) : (ids (writeOut ts)).Sublist (ids ts) := by
  induction ts using Forest.induct with
  | nil => exact List.Sublist.refl _
  | cons id k bs ts ihb iht =>
    rw [ids_cons]
    cases hk : k.isBlank with
    -- a blank is left out with everything below it
    | true =>
      rw [writeOut_cons_blank hk]
      exact (iht.trans (List.sublist_append_right _ _)).cons id
    | false =>
      rw [writeOut_cons hk, ids_cons, List.flatMap_map]
      exact ((List.Sublist.flatMap_right bs fun b hb => ihb b hb).append iht).cons_cons id

/-- The lists inside a node are again those of its trees. -/
theorem labelled_writeOut {ts : Forest} (h : Labelled ts) : Labelled (writeOut ts) := by
  induction ts using Forest.induct with
  | nil => exact labelled_nil
  | cons id k bs ts ihb iht =>
    obtain ⟨hk, hbs, hts⟩ := labelled_cons.mp h
    cases hblank : k.isBlank with
    | true =>
      rw [writeOut_cons_blank hblank]
      exact iht hts
    | false =>
      rw [writeOut_cons hblank, labelled_cons]
      -- writing out changes no list, so each kind still has as many as its node
      refine ⟨NodeKind.bodies_withBodies _ _ ?_, fun b hb => ?_, iht hts⟩
      · rw [NodeKind.bodies_writtenOut, hk]
        simp
      · obtain ⟨c, hc, rfl⟩ := List.mem_map.mp hb
        exact ihb c hc (hbs c hc)

/-- Templates stay templates. -/
theorem areTemplates_writeOut {ts : Forest} (h : AreTemplates ts) :
    AreTemplates (writeOut ts) ∧ roots (writeOut ts) = roots ts := by
  induction ts with
  | nil => exact ⟨h, rfl⟩
  | cons t ts ih =>
    obtain ⟨x, hx⟩ := h t List.mem_cons_self
    obtain ⟨id, k, bs⟩ := t
    obtain rfl : k = .template x := hx
    obtain ⟨htemplates, hroots⟩ := ih fun t ht => h t (List.mem_cons_of_mem _ ht)
    rw [writeOut_cons rfl, roots_cons, roots_cons, hroots]
    exact ⟨List.forall_mem_cons.mpr ⟨⟨_, rfl⟩, htemplates⟩, rfl⟩

/-- The root of a node written out is of the same sort. -/
theorem fitsValue_of_mem_writeOut {ts : Forest} (h : ∀ u ∈ ts, u.kind.fitsValue = true) :
    ∀ u ∈ writeOut ts, u.kind.fitsValue = true := by
  induction ts with
  | nil => exact fun _ hu => absurd hu List.not_mem_nil
  | cons t ts ih =>
    obtain ⟨id, k, bs⟩ := t
    obtain ⟨hk, hts⟩ := List.forall_mem_cons.mp h
    cases hblank : k.isBlank with
    | true =>
      rw [writeOut_cons_blank hblank]
      exact ih hts
    | false =>
      rw [writeOut_cons hblank, List.forall_mem_cons]
      -- what is written out is a text, and the others keep their kind
      refine ⟨?_, ih hts⟩
      rw [NodeTree.kind_node, NodeKind.fitsValue_withBodies, NodeKind.fitsValue_writtenOut]
      exact hk

/-- The values of a tag, of what is inside a node, and of what follows it. -/
theorem valuesFit_cons {id : NodeId} {k : NodeKind} {bs : List Forest} {ts : Forest} :
    ValuesFit (.node id k bs :: ts) ↔
      ((∀ name as closed, k = .openTag name as closed →
          ∀ b ∈ bs, ∀ u ∈ b, u.kind.fitsValue = true) ∧
        (∀ b ∈ bs, ValuesFit b) ∧ ValuesFit ts) :=
  forall_subtrees_cons

/-- So it is with a list in two parts. -/
theorem valuesFit_append {ts us : Forest} : ValuesFit (ts ++ us) ↔ ValuesFit ts ∧ ValuesFit us :=
  forall_subtrees_append

/-- What stands in values still may stand there. -/
theorem valuesFit_writeOut {ts : Forest} (h : ValuesFit ts) : ValuesFit (writeOut ts) := by
  induction ts using Forest.induct with
  | nil => exact h
  | cons id k bs ts ihb iht =>
    obtain ⟨hk, hbs, hts⟩ := valuesFit_cons.mp h
    cases hblank : k.isBlank with
    | true =>
      rw [writeOut_cons_blank hblank]
      exact iht hts
    | false =>
      rw [writeOut_cons hblank, valuesFit_cons]
      refine ⟨fun name as closed hopen b hb => ?_, fun b hb => ?_, iht hts⟩
      · obtain ⟨c, hc, rfl⟩ := List.mem_map.mp hb
        -- what is written out in a value was in the value
        refine fitsValue_of_mem_writeOut ?_
        -- only an open tag becomes an open tag
        cases k with
        | openTag name' as' closed' => exact hk name' as' closed' rfl c hc
        | binding x bound => cases bound <;> exact absurd hopen (by simp [NodeKind.writtenOut, NodeKind.withBodies])
        | _ => exact absurd hopen (by simp [NodeKind.writtenOut, NodeKind.withBodies])
      · obtain ⟨c, hc, rfl⟩ := List.mem_map.mp hb
        exact ihb c hc (hbs c hc)

end Forest

namespace TemplateFile

open Forest

/-- A list that was edited: its nodes are written out, what is below them is as it was. -/
def WrittenOut (b : Forest) (g : TemplateFile) : Prop :=
  ∀ t ∈ b, g.kind t.id = t.kind.writtenOut ∧ ∀ c ∈ t.bodies, g.Shows c

section Edit

variable {f g : TemplateFile} {b ts : Forest} {id : NodeId} {k : NodeKind} {bs : List Forest}

/-- The edit of a list starts with its first node. -/
theorem expandSpecials_cons (g : TemplateFile) (id : NodeId) (ids : List NodeId) :
    ∃ g₁, ChangesOnly [id] g g₁ ∧ (id < g.nodes.size → g₁.kind id = (g.kind id).writtenOut) ∧
      g.expandSpecials (id :: ids)
        = ((g₁.expandSpecials ids).1,
          if (g.kind id).isBlank then (g₁.expandSpecials ids).2
          else id :: (g₁.expandSpecials ids).2) := by
  cases hk : g.kind id with
  | special c =>
    refine ⟨g.setKind id (.text c.text), ChangesOnly.setKind (List.mem_singleton.mpr rfl) _,
      fun hid => kind_setKind_self g _ hid, ?_⟩
    simp only [expandSpecials, hk, NodeKind.isBlank, beq_iff_eq]
  | _ => exact ⟨g, ChangesOnly.refl _ _, fun _ => hk, by simp [expandSpecials, hk, NodeKind.isBlank]⟩

/-- What was written out stays as long as nothing touches it. -/
private theorem WrittenOut.congr {g' : TemplateFile} (h : WrittenOut b g)
    (hkind : ∀ x ∈ ids b, g'.kind x = g.kind x) : WrittenOut b g' := fun t ht =>
  ⟨(hkind t.id (roots_subset_ids b (List.mem_map_of_mem ht))).trans (h t ht).1, fun c hc =>
    ((h t ht).2 c hc).congr fun x hx => hkind x (mem_ids_of_mem_body ht hc hx)⟩

/-- **The edit of one list.** -/
theorem expandSpecials_spec (hf : f.Holds b) (hsize : f.nodes.size ≤ g.nodes.size)
    (hshows : g.Shows b) :
    (g.expandSpecials (roots b)).2 = roots (writeOut b) ∧
      WrittenOut b (g.expandSpecials (roots b)).1 ∧
      ChangesOnly (ids b) g (g.expandSpecials (roots b)).1 := by
  induction b generalizing g with
  | nil => exact ⟨rfl, fun _ ht => absurd ht List.not_mem_nil, ChangesOnly.refl _ _⟩
  | cons t b ih =>
    obtain ⟨id, k, bs⟩ := t
    obtain ⟨hk, hbs, hb⟩ := shows_cons.mp hshows
    have hidlt := Nat.lt_of_lt_of_le hf.root_lt hsize
    obtain ⟨g₁, hchange, hkind, hstep⟩ := expandSpecials_cons g id (roots b)
    have hkind' : g₁.kind id = k.writtenOut := by rw [hkind hidlt, hk]
    -- the node is the only one that is other than before
    have hkeep : ∀ x, x < f.nodes.size → x ≠ id → g₁.kind x = g.kind x := fun x hx hne =>
      hchange.kind_eq x (Nat.lt_of_lt_of_le hx hsize) fun he => hne (List.mem_singleton.mp he)
    have hb₁ : g₁.Shows b := hb.congr fun x hx =>
      hkeep x (hf.tail.lt_size x hx) fun he => hf.root_notMem_tail (he ▸ hx)
    obtain ⟨hlist, hwritten, hrest⟩ := ih hf.tail (Nat.le_trans hsize hchange.size_le) hb₁
    -- the rest of the edit touches the rest of the list only
    have hlast : ∀ x, x < f.nodes.size → x ∉ ids b →
        (g₁.expandSpecials (roots b)).1.kind x = g₁.kind x := fun x hx hxb =>
      hrest.kind_eq x (Nat.lt_of_lt_of_le hx (Nat.le_trans hsize hchange.size_le)) hxb
    rw [roots_cons, NodeTree.id_node, hstep, hk]
    refine ⟨?_, List.forall_mem_cons.mpr ⟨⟨?_, fun c hc => ?_⟩, hwritten⟩, ?_⟩
    -- a blank node leaves the list, every other one stays in its place
    · cases hblank : k.isBlank with
      | true =>
        rw [writeOut_cons_blank hblank]
        exact hlist
      | false =>
        rw [writeOut_cons hblank, roots_cons]
        exact congrArg (id :: ·) hlist
    · exact (hlast id hf.root_lt hf.root_notMem_tail).trans hkind'
    · refine (hbs c hc).congr fun x hx => ?_
      have hxlt := (hf.body hc).lt_size x hx
      have hne : x ≠ id := fun he => hf.root_notMem_body hc (he ▸ hx)
      exact (hlast x hxlt fun hxb => hf.disjoint_body_tail hc hx hxb).trans (hkeep x hxlt hne)
    · refine (hchange.trans hrest).mono fun x hx => ?_
      rw [ids_cons]
      rcases List.mem_append.mp hx with hx | hx
      · exact List.mem_cons.mpr (Or.inl (List.mem_singleton.mp hx))
      · exact List.mem_cons_of_mem _ (List.mem_append_right _ hx)

/-- The edits of the lists of one node. -/
theorem editsApart_writtenOut (hf : f.Holds (.node id k bs :: ts)) (hsize : f.nodes.size ≤ g.nodes.size)
    (hk : g.kind id = k.writtenOut) (hbs : ∀ b ∈ bs, g.Shows b) :
    EditsApart expandSpecials g id bs fun b g out => WrittenOut b g ∧ out = roots (writeOut b) where
  bodies_eq := by rw [hk, NodeKind.bodies_writtenOut, hf.bodies_eq]
  nodup := List.nodup_cons.mpr ⟨hf.root_notMem_inside, hf.nodup_inside⟩
  lt := fun x hx => Nat.lt_of_lt_of_le (hf.lt_size_head x hx) hsize
  edit := by
    intro b hb S g' hS hdisj
    -- the lists that were done before lie apart from this one
    have hb' : g'.Shows b := (hbs b hb).congr fun x hx => hS.kind_eq x
      (Nat.lt_of_lt_of_le ((hf.body hb).lt_size x hx) hsize) fun hxS => hdisj hxS hx
    obtain ⟨hlist, hwritten, hch⟩ := expandSpecials_spec (hf.body hb)
      (Nat.le_trans hsize hS.size_le) hb'
    exact ⟨⟨hwritten, hlist⟩, hch⟩
  keep := fun b hb out => LocalTo.of_kinds
    (fun x hx => Nat.lt_of_lt_of_le ((hf.body hb).lt_size x hx) hsize)
    fun g g' h hkinds _ => ⟨h.1.congr hkinds, h.2⟩

/-- **The visits of the nodes of a list.** -/
theorem visit_writtenOut (hf : f.Holds ts) (hsize : f.nodes.size ≤ g.nodes.size)
    (h : WrittenOut ts g) :
    (g.visit expandSpecials (ids ts)).Shows (writeOut ts) ∧
      ChangesOnly (ids ts) g (g.visit expandSpecials (ids ts)) := by
  induction ts using Forest.induct generalizing g with
  | nil => exact ⟨shows_nil, ChangesOnly.refl _ _⟩
  | cons id k bs ts ihb iht =>
    obtain ⟨⟨hk, hbs⟩, hts⟩ := List.forall_mem_cons.mp h
    rw [NodeTree.id_node, NodeTree.kind_node] at hk
    -- the lists of the node are edited
    obtain ⟨outs, hkind, houts, hchange⟩ := editNode_spec (editsApart_writtenOut hf hsize hk hbs)
    obtain ⟨g₁, hg₁⟩ : ∃ g₁, g₁ = g.editNode expandSpecials id := ⟨_, rfl⟩
    rw [← hg₁] at hkind houts hchange
    rw [eq_map_of_forall₂ houts] at hkind
    have hsize₁ : f.nodes.size ≤ g₁.nodes.size := Nat.le_trans hsize hchange.size_le
    -- and then the nodes in them are visited
    obtain ⟨hdone, hchange₂⟩ := visit_bodies (n := f.nodes.size) expandSpecials g₁ bs WrittenOut
      (fun b g => g.Shows (writeOut b)) hf.nodup_inside
      (fun x hx => hf.lt_size x (by
        rw [ids_cons]
        exact List.mem_cons_of_mem _ (List.mem_append_left _ hx)))
      hsize₁ (fun b hb => (exists_of_forall₂ houts b hb).choose_spec.1)
      (fun b hb g h hg => ihb b hb (hf.body hb) hg h)
      (fun b hb => LocalTo.of_kinds (hf.body hb).lt_size fun g g' h hkinds _ => h.congr hkinds)
      (fun b hb => LocalTo.of_kinds (hf.body hb).lt_size fun g g' h hkinds _ =>
        h.congr fun x hx => hkinds x ((ids_writeOut b).subset hx))
    obtain ⟨g₂, hg₂⟩ : ∃ g₂, g₂ = g₁.visit expandSpecials (bs.flatMap ids) := ⟨_, rfl⟩
    rw [← hg₂] at hdone hchange₂
    have hhead := hchange.trans hchange₂
    -- neither has touched what follows the node
    have hkeep : ∀ x ∈ ids ts, g₂.kind x = g.kind x := by
      intro x hx
      refine hhead.kind_eq x (Nat.lt_of_lt_of_le (hf.tail.lt_size x hx) hsize) fun hxh => ?_
      rcases List.mem_append.mp hxh with hxh | hxh
      · exact hf.disjoint_head_tail hxh hx
      · exact hf.disjoint_inside_tail hxh hx
    have hsize₂ := Nat.le_trans hsize hhead.size_le
    -- the rest of the list
    obtain ⟨hrest, hchange₃⟩ := iht hf.tail hsize₂ (WrittenOut.congr hts hkeep)
    rw [ids_cons, visit_cons, visit_append, ← hg₁, ← hg₂]
    -- nor do the visits of what follows touch the node
    have hlast : ∀ x, x < f.nodes.size → x ∉ ids ts →
        (g₂.visit expandSpecials (ids ts)).kind x = g₂.kind x := fun x hx hxt =>
      hchange₃.kind_eq x (Nat.lt_of_lt_of_le hx hsize₂) hxt
    refine ⟨?_, (hhead.trans hchange₃).mono fun x hx => ?_⟩
    · cases hblank : k.isBlank with
      | true =>
        rw [writeOut_cons_blank hblank]
        exact hrest
      | false =>
        rw [writeOut_cons hblank, shows_cons]
        refine ⟨?_, fun b hb => ?_, hrest⟩
        · rw [hlast id hf.root_lt hf.root_notMem_tail,
            hchange₂.kind_eq id (Nat.lt_of_lt_of_le hf.root_lt hsize₁) hf.root_notMem_inside, hkind,
            hk, List.map_map]
          rfl
        · obtain ⟨c, hc, rfl⟩ := List.mem_map.mp hb
          refine (hdone c hc).congr fun x hx => ?_
          have hxc := (ids_writeOut c).subset hx
          exact hlast x ((hf.body hc).lt_size x hxc) fun hxt => hf.disjoint_body_tail hc hxc hxt
    · simp only [List.mem_append, List.mem_cons] at hx ⊢
      tauto

/-- **Special characters written out.** The table holds the forest written out after the pass. -/
theorem Holds.desugarSyntax (h : f.Holds ts) (hroots : roots ts = f.templates)
    (htemplates : AreTemplates ts) :
    f.desugarSyntax.Holds (writeOut ts) ∧ f.desugarSyntax.templates = f.templates := by
  -- templates are no special characters, so the list of them is written out already
  have hstart : WrittenOut ts f := by
    intro t ht
    obtain ⟨x, hx⟩ := htemplates t ht
    refine ⟨?_, fun c hc u hu => ?_⟩
    · rw [h.shows_nodes t (mem_subtrees_self ht), hx]
      rfl
    · exact h.shows_nodes u (mem_subtrees_below ht hc hu)
  obtain ⟨hshows, hchange⟩ := visit_writtenOut h (Nat.le_refl _) hstart
  rw [TemplateFile.desugarSyntax, editBodies_eq_visit, h.reachable hroots]
  refine ⟨⟨hshows, labelled_writeOut h.labelled, (ids_writeOut ts).nodup h.nodup, fun x hx => ?_⟩,
    hchange.templates_eq⟩
  exact Nat.lt_of_lt_of_le (h.lt_size x ((ids_writeOut ts).subset hx)) hchange.size_le

end Edit

end TemplateFile

end TemplateFrontend
