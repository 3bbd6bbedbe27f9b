import TemplateFrontend.Proofs.Transform.ConstantPrints
import TemplateFrontend.Proofs.Transform.EmissionSimplified
/-!
# Texts of a file

What the last passes make of the texts of a file. Simplification joins the runs of each template, escaping
leaves every text as it is, and a debug attribute is one more text.

A debug attribute is the only thing that a pass adds to the table: the value is a new node, and the tag gets
it as a child. So the file after `addDebugAttributes` is described by what one attribute does
(`kind_withAttribute`, `reaches_withAttribute`), and by the texts that the other templates are to get being
the same before and after (`debugText?_withAttribute`).

* `TemplateFile.texts`, `TemplateFile.templateTexts` — the texts of a file, and of one of its templates;
* `TemplateFile.textRuns`, `TemplateFile.Planted.runs_become_texts` — the runs that simplification joins;
* `TemplateFile.debugText?`, `TemplateFile.Planted.mem_texts_addDebugAttributes` — the texts of debug
  attributes.
-/

namespace TemplateFrontend

open Forest

/-- Escaping changes no text. -/
@[simp] theorem NodeKind.text?_escaped (c : OutputContext) (place : Span) (k : NodeKind) :
    (k.escaped c place).text? = k.text? := by
  cases k <;> rfl

namespace TemplateFile

/-- The texts of the reachable nodes. -/
def texts (f : TemplateFile) : List String := f.reachable.filterMap fun id => (f.kind id).text?

/-- The texts of the nodes inside a template. -/
def templateTexts (f : TemplateFile) (id : NodeId) : List String :=
  (f.descendants id).filterMap fun i => (f.kind i).text?

/-- The runs of texts inside a template, as constants make them. -/
def textRuns (f : TemplateFile) (id : NodeId) : List String :=
  (runs .html false
    (leveled (mapKinds (NodeKind.mapExprs Expr.fold) (f.forest (f.children id))))).map Prod.fst

section Planted

variable {f g : TemplateFile} {ts : Forest} {id : NodeId} {s : String}

/-- The texts are those of nodes that can be reached. -/
theorem Planted.mem_texts_iff_reaches (h : f.Planted ts) :
    s ∈ f.texts ↔ ∃ id, f.Reaches id ∧ f.kind id = .text s := by
  rw [texts, h.reachable_eq, List.mem_filterMap]
  refine exists_congr fun id => and_congr h.reaches_iff.symm ⟨NodeKind.eq_text_of_text?, fun hk => ?_⟩
  rw [hk]
  rfl

/-- Every text is inside a template. -/
theorem Planted.mem_texts (h : f.Planted ts) :
    s ∈ f.texts ↔ ∃ id ∈ f.templates, s ∈ f.templateTexts id := by
  have htemplate : ∀ id ∈ f.templates, (f.kind id).text? = none := by
    intro id hid
    obtain ⟨x, -, -, hx, -⟩ := h.exists_node hid
    rw [hx]
    rfl
  rw [texts, reachable, List.filterMap_flatMap, List.mem_flatMap]
  refine exists_congr fun id => and_congr_right fun hid => ?_
  rw [List.filterMap_cons_none (f := fun id => (f.kind id).text?) (htemplate id hid)]
  rfl

/-- The texts of a template are those of its forest. -/
theorem Planted.templateTexts_eq (h : f.Planted ts) {k : NodeKind} {b : Forest}
    (hb : .node id k [b] ∈ ts) : f.templateTexts id = (Forest.texts .html b).map Prod.fst := by
  have hnode := h.holds.of_mem hb
  have hbody := hnode.body (List.mem_singleton_self b)
  -- in which context the texts are does not matter here
  rw [templateTexts, hnode.descendants_eq, List.flatMap_singleton, Forest.texts, List.map_filterMap,
    ids, ← map_fst_contexts hbody.labelled .html, List.map_map, List.filterMap_map]
  refine List.filterMap_congr fun p hp => ?_
  have hsub : p.1 ∈ subtrees b := by
    rw [← map_fst_contexts hbody.labelled .html]
    exact List.mem_map_of_mem hp
  change (f.kind p.1.id).text? = _
  rw [hbody.shows_nodes _ hsub]
  cases p.1.kind.text? <;> rfl

/-! ### Simplification -/

/-- The texts of a simplified file are those of its templates. -/
theorem Planted.mem_texts_optimize (h : f.Planted ts) :
    s ∈ f.optimize.texts ↔ ∃ id ∈ f.templates, s ∈ f.optimize.templateTexts id := by
  rw [h.optimize.mem_texts, h.templates_optimize]

/-- **Runs become texts.** The texts of a template of the simplified file are the runs of the template, one
by one, with more behind them only where text is repeated. -/
theorem Planted.runs_become_texts (h : f.Planted ts) (hid : id ∈ f.templates) :
    List.Forall₂ (fun run text => ∃ again, text = run ++ again ∧
      (f.repeatsText id = false → again = "")) (f.textRuns id) (f.optimize.templateTexts id) := by
  obtain ⟨x, b, hb, -⟩ := h.exists_node hid
  obtain ⟨k, hk⟩ := mem_simplify_mapKinds h.areTemplates hb
  have hl : Labelled (mapKinds (NodeKind.mapExprs Expr.fold) b) :=
    labelled_mapKinds (NodeKind.bodies_mapExprs Expr.fold) fun t ht =>
      h.holds.labelled t (mem_subtrees_below hb List.mem_cons_self ht)
  rw [textRuns, repeatsText, h.holds.forest_children hb, h.optimize.templateTexts_eq hk,
    List.forall₂_map_left_iff, List.forall₂_map_right_iff]
  refine (extends_simplify hl .html).imp fun run text => ?_
  rintro ⟨again, rfl, hagain⟩
  exact ⟨again, rfl, hagain⟩

/-! ### Escaping -/

/-- Escaping leaves the texts of a file. -/
theorem Planted.texts_insertEscapingDirectives (h : f.Planted ts) :
    f.insertEscapingDirectives.texts = f.texts := by
  rw [texts, texts, h.escaped.reachable_eq]
  refine List.filterMap_congr fun id _ => ?_
  obtain ⟨c, -, hkind⟩ | ⟨-, hkind⟩ := h.kind_insertEscapingDirectives id
  · rw [hkind, NodeKind.text?_escaped]
  · rw [hkind]

/-! ### Debug attributes -/

/-- The text of the debug attribute of a template, if it has a tag for it. -/
def debugText? (f : TemplateFile) (id : NodeId) : Option String :=
  (f.template? id).bind fun t =>
    if !t.strictHtml || t.contentKind != .html then none
    else (t.body.find? f.isOpenTag).map fun i => f.debugText t (f.span i)

/-- The file with a tag that has one more attribute, with a new text as its value. -/
def withAttribute (f : TemplateFile) (id : NodeId) (name : String) (as : List Attribute) (closed : Bool)
    (text : String) : TemplateFile :=
  (f.add (.text text) (f.span id)).1.setKind id
    (.openTag name (as ++ [⟨debugAttribute, some [f.nodes.size], f.span id⟩]) closed)

/-- The file with the debug attribute of one template. -/
def markTemplate (f : TemplateFile) (id : NodeId) : TemplateFile :=
  match f.template? id with
  | some t => f.addDebugAttribute t
  | none => f

theorem addDebugAttributes_eq (f : TemplateFile) :
    f.addDebugAttributes = f.templates.foldl markTemplate f := rfl

/-- A template without a text for the attribute stays, and in others a tag gets the attribute. -/
theorem markTemplate_cases (f : TemplateFile) (id : NodeId) :
    (f.debugText? id = none ∧ f.markTemplate id = f) ∨
      ∃ t i name as closed text, f.template? id = some t ∧ i ∈ t.body ∧
        f.kind i = .openTag name as closed ∧ f.debugText? id = some text ∧
        f.markTemplate id = f.withAttribute i name as closed text := by
  unfold debugText? markTemplate
  cases ht : f.template? id with
  | none => exact .inl ⟨rfl, rfl⟩
  | some t =>
    rw [Option.bind_some]
    dsimp only
    unfold addDebugAttribute
    -- only templates of strict HTML are marked
    by_cases hhtml : (!t.strictHtml || t.contentKind != .html) = true
    · rw [if_pos hhtml, if_pos hhtml]
      exact .inl ⟨rfl, rfl⟩
    · rw [if_neg hhtml, if_neg hhtml]
      cases hfind : t.body.find? f.isOpenTag with
      | none => exact .inl ⟨rfl, rfl⟩
      | some i =>
        -- the first open tag of the body
        have htag := List.find?_some hfind
        unfold isOpenTag at htag
        split at htag
        · next name as closed hk =>
          refine .inr ⟨t, i, name, as, closed, _, rfl, List.mem_of_find?_eq_some hfind, hk, rfl, ?_⟩
          dsimp only
          rw [hk]
          rfl
        · cases htag

section Attribute

variable {i : NodeId} {name : String} {as : List Attribute} {closed : Bool} {text : String}

/-- A tag is in the table. -/
theorem lt_size_of_openTag (hk : f.kind i = .openTag name as closed) : i < f.nodes.size := by
  by_contra hge
  cases hk.symm.trans (kind_of_size_le (Nat.not_lt.mp hge))

/-- The tag has the attribute, the new node is its value, and the other nodes are what they were. -/
theorem kind_withAttribute (hk : f.kind i = .openTag name as closed) (x : NodeId) :
    (f.withAttribute i name as closed text).kind x =
      if x = i then
        .openTag name (as ++ [⟨debugAttribute, some [f.nodes.size], f.span i⟩]) closed
      else if x = f.nodes.size then .text text else f.kind x := by
  have hlt := lt_size_of_openTag hk
  have hsize : (f.add (.text text) (f.span i)).1.nodes.size = f.nodes.size + 1 := size_add f _ _
  unfold withAttribute
  by_cases hx : x = i
  · subst hx
    rw [if_pos rfl, kind_setKind_self _ _ (hsize ▸ Nat.lt_succ_of_lt hlt)]
  · rw [if_neg hx, kind_setKind_of_ne _ _ (Ne.symm hx)]
    by_cases hnew : x = f.nodes.size
    · subst hnew
      rw [if_pos rfl]
      exact kind_add_self f _ _
    · rw [if_neg hnew]
      -- outside of both tables there is nothing to see
      by_cases hold : x < f.nodes.size
      · exact kind_add_of_lt f _ _ hold
      · have hge := Nat.not_lt.mp hold
        rw [kind_of_size_le (hsize ▸ Nat.lt_of_le_of_ne hge (Ne.symm hnew)), kind_of_size_le hge]

/-- Nodes outside of the table have no children. -/
theorem children_of_size_le {x : NodeId} (hx : f.nodes.size ≤ x) : f.children x = [] := by
  rw [children, kind_of_size_le hx]
  rfl

/-- The tag has one more child. -/
theorem children_withAttribute (hk : f.kind i = .openTag name as closed) (x : NodeId) :
    (f.withAttribute i name as closed text).children x =
      if x = i then f.children i ++ [f.nodes.size] else f.children x := by
  rw [children, kind_withAttribute hk]
  by_cases hx : x = i
  · rw [if_pos hx, if_pos hx, children, hk, NodeKind.bodies, NodeKind.bodies, List.filterMap_append,
      List.flatten_append]
    rfl
  · rw [if_neg hx, if_neg hx]
    by_cases hnew : x = f.nodes.size
    · rw [if_pos hnew, children_of_size_le hnew.ge]
      rfl
    · rw [if_neg hnew, children]

/-- The new text is the only node that can be reached besides those before. -/
theorem reaches_withAttribute (hk : f.kind i = .openTag name as closed) (hi : f.Reaches i)
    {x : NodeId} : (f.withAttribute i name as closed text).Reaches x ↔
      f.Reaches x ∨ x = f.nodes.size := by
  -- every node has the children that it had
  have hsub : ∀ {x y}, x ∈ f.children y → x ∈ (f.withAttribute i name as closed text).children y := by
    intro x y hx
    rw [children_withAttribute hk]
    split
    · next hy => exact List.mem_append_left _ (hy ▸ hx)
    · exact hx
  -- so what could be reached still can be
  have hkept : ∀ {x}, f.Reaches x → (f.withAttribute i name as closed text).Reaches x := by
    intro x hx
    induction hx with
    | template hx => exact .template hx
    | inside _ hx ih => exact .inside ih (hsub hx)
  constructor
  · intro hx
    induction hx with
    | template hx => exact .inl (.template hx)
    | inside _ hx ih =>
      rw [children_withAttribute hk] at hx
      split at hx
      · obtain hx | hx := List.mem_append.mp hx
        · exact .inl (.inside hi hx)
        · exact .inr (List.mem_singleton.mp hx)
      · obtain ih | rfl := ih
        · exact .inl (.inside ih hx)
        · -- nothing is inside the new text
          rw [children_of_size_le (Nat.le_refl _)] at hx
          cases hx
  -- back: the new text is a child of the tag
  · rintro (hx | rfl)
    · exact hkept hx
    · refine .inside (hkept hi) ?_
      rw [children_withAttribute hk, if_pos rfl]
      exact List.mem_append_right _ (List.mem_singleton_self _)

/-- Nodes stay what they are: tags stay tags, and texts stay texts. -/
theorem kind_withAttribute_cases (hk : f.kind i = .openTag name as closed) (x : NodeId) :
    (f.withAttribute i name as closed text).kind x = f.kind x ∨
      (∃ bs bs', f.kind x = .openTag name bs closed ∧
        (f.withAttribute i name as closed text).kind x = .openTag name bs' closed) ∨
      ∃ s s', f.kind x = .text s ∧ (f.withAttribute i name as closed text).kind x = .text s' := by
  rw [kind_withAttribute hk]
  by_cases hx : x = i
  · rw [if_pos hx]
    exact .inr (.inl ⟨as, _, hx ▸ hk, rfl⟩)
  · rw [if_neg hx]
    by_cases hnew : x = f.nodes.size
    · rw [if_pos hnew]
      exact .inr (.inr ⟨"", _, kind_of_size_le hnew.ge, rfl⟩)
    · rw [if_neg hnew]
      exact .inl rfl

/-- No template gets another text for its attribute. -/
theorem debugText?_withAttribute (hk : f.kind i = .openTag name as closed) (id : NodeId) :
    (f.withAttribute i name as closed text).debugText? id = f.debugText? id := by
  -- templates are the same templates,
  have htemplate : (f.withAttribute i name as closed text).template? id = f.template? id := by
    rw [template?, template?]
    obtain h | ⟨_, _, h, h'⟩ | ⟨_, _, h, h'⟩ := kind_withAttribute_cases hk id
    · rw [h]
    · rw [h, h']
    · rw [h, h']
  -- and open tags are open tags
  have htag : (f.withAttribute i name as closed text).isOpenTag = f.isOpenTag := funext fun x => by
    rw [isOpenTag, isOpenTag]
    obtain h | ⟨_, _, h, h'⟩ | ⟨_, _, h, h'⟩ := kind_withAttribute_cases hk x
    · rw [h]
    · rw [h, h']
    · rw [h, h']
  -- the text names the line of the first tag, which stays where it is
  have hspan : ∀ {x}, f.isOpenTag x = true →
      (f.withAttribute i name as closed text).span x = f.span x := by
    intro x hx
    unfold isOpenTag at hx
    split at hx
    · next hx' =>
      have hlt := lt_size_of_openTag hx'
      rw [withAttribute, span_setKind, span, add, Array.getElem?_push, if_neg (Nat.ne_of_lt hlt)]
      rfl
    · cases hx
  rw [debugText?, debugText?, htemplate, htag]
  refine congrArg (Option.bind _) (funext fun t => ?_)
  split
  · rfl
  · cases hfind : t.body.find? f.isOpenTag with
    | none => rfl
    | some x =>
      rw [Option.map_some, Option.map_some, hspan (List.find?_some hfind)]
      rfl

/-- The value is one more text of the file. -/
theorem Planted.mem_texts_withAttribute (h : f.Planted ts) {us : Forest}
    (hus : (f.withAttribute i name as closed text).Planted us)
    (hk : f.kind i = .openTag name as closed) (hi : f.Reaches i) :
    s ∈ (f.withAttribute i name as closed text).texts ↔ s ∈ f.texts ∨ text = s := by
  have hlt := lt_size_of_openTag hk
  rw [hus.mem_texts_iff_reaches, h.mem_texts_iff_reaches]
  constructor
  · rintro ⟨x, hx, hxk⟩
    rw [kind_withAttribute hk] at hxk
    split at hxk
    · cases hxk
    -- the new text, or one that was there
    · next hne =>
      split at hxk
      · exact .inr (NodeKind.text.inj hxk)
      · next hnew => exact .inl ⟨x, ((reaches_withAttribute hk hi).mp hx).resolve_right hnew, hxk⟩
  · rintro (⟨x, hx, hxk⟩ | rfl)
    · refine ⟨x, (reaches_withAttribute hk hi).mpr (.inl hx), ?_⟩
      have hxlt : x < f.nodes.size := h.holds.lt_size _ (h.reaches_iff.mp hx)
      -- a text is not the tag
      have hne : x ≠ i := fun heq => by
        rw [heq, hk] at hxk
        cases hxk
      rw [kind_withAttribute hk, if_neg hne, if_neg (Nat.ne_of_lt hxlt), hxk]
    · refine ⟨f.nodes.size, (reaches_withAttribute hk hi).mpr (.inr rfl), ?_⟩
      rw [kind_withAttribute hk, if_neg (Nat.ne_of_gt hlt), if_pos rfl]

end Attribute

/-- The attribute of one template. -/
theorem Planted.markTemplate (h : f.Planted ts) (hid : id ∈ f.templates) :
    (∃ us, (f.markTemplate id).Planted us) ∧ (f.markTemplate id).templates = f.templates ∧
      (∀ s, s ∈ (f.markTemplate id).texts ↔ s ∈ f.texts ∨ f.debugText? id = some s) ∧
      ∀ other, (f.markTemplate id).debugText? other = f.debugText? other := by
  obtain ⟨hnone, hsame⟩ | ⟨t, i, name, as, closed, text, ht, hi, hk, htext, hmark⟩ :=
    f.markTemplate_cases id
  -- no mark, so the file is as it was
  · rw [hsame, hnone]
    exact ⟨⟨ts, h⟩, rfl, fun s => by simp, fun _ => rfl⟩
  · obtain ⟨us, hus⟩ : ∃ us, (f.markTemplate id).Planted us := by
      obtain ⟨us, hus⟩ := exists_descends_addDebugAttribute h t
      exact ⟨us, by rw [TemplateFile.markTemplate, ht]; exact hus.planted⟩
    refine ⟨⟨us, hus⟩, by rw [hmark]; rfl, fun s => ?_, fun other => ?_⟩
    -- the tag stands in the body of the template
    · have hreach : f.Reaches i := by
        refine .inside (.template hid) ?_
        rw [children, template?_eq_some.mp ht]
        exact List.mem_flatten.mpr ⟨t.body, List.mem_singleton_self _, hi⟩
      rw [hmark] at hus ⊢
      rw [htext, Option.some_inj]
      exact h.mem_texts_withAttribute hus hk hreach
    · rw [hmark]
      exact debugText?_withAttribute hk other

/-- **Texts of debug attributes.** They are there besides the texts before, and nothing else is. -/
theorem Planted.mem_texts_addDebugAttributes (h : f.Planted ts) :
    s ∈ f.addDebugAttributes.texts ↔ s ∈ f.texts ∨ ∃ id ∈ f.templates, f.debugText? id = some s := by
  have hfold : ∀ (ids : List NodeId) {g : TemplateFile}, (∃ us, g.Planted us) → ids ⊆ g.templates →
      (s ∈ (ids.foldl TemplateFile.markTemplate g).texts ↔
        s ∈ g.texts ∨ ∃ id ∈ ids, g.debugText? id = some s) := by
    intro ids
    induction ids with
    | nil => exact fun _ _ => by simp
    | cons id ids ih =>
      rintro g ⟨us, hg⟩ hsub
      -- marking one template changes neither the templates nor the texts that others are to get
      obtain ⟨hid, hids⟩ := List.cons_subset.mp hsub
      obtain ⟨hplanted, htemplates, htexts, hdebug⟩ := hg.markTemplate hid
      rw [List.foldl_cons, ih hplanted (htemplates ▸ hids), htexts, List.exists_mem_cons_iff, or_assoc]
      simp only [hdebug]
  rw [addDebugAttributes_eq]
  exact hfold f.templates ⟨ts, h⟩ (List.Subset.refl _)

end Planted

end TemplateFile

end TemplateFrontend
