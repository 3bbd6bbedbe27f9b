import TemplateFrontend.Proofs.Transform.LoweringVisits
import TemplateFrontend.Proofs.Transform.SimplifyVisits
import TemplateFrontend.Proofs.Transform.StateBindings
import TemplateFrontend.Proofs.Markup.Steps
import Mathlib
import TemplateFrontend.Proofs.Transform.Simplified
import TemplateFrontend.Proofs.Transform.Spelling
import TemplateFrontend.Proofs.Transform.WrittenOut
import TemplateFrontend.Proofs.Tree.Mapping
/-!
# What the templates of a lowered file spell

In a simplified forest no text follows another in any list, so lowering repeats no value there. In other
forests it may, and what a template spells then tells where.

* `Forest.valuesFit_mapKinds`, `Forest.valuesFit_simplify` — attribute values still hold what they may;
* `Forest.repeatsValues_simplify` — in a simplified forest no value runs on;
* `TemplateFile.spelled`, `TemplateFile.repeatsValues` — what a template of a file spells, and whether
  lowering repeats text in it;
* `TemplateFile.Holds.editBodies_lowerBody` — the templates of a file after the visits of the lowering;
* `TemplateFile.Holds.spelled_desugarHtmlAndState` — a template before and after
  `TemplateFile.desugarHtmlAndState`;
* `parse_spelled_desugarHtmlAndState` — the same for every source that is read without error, simplified
  before or not.
-/

namespace TemplateFrontend

open Forest

/-! ### Attribute values of a simplified forest -/

namespace NodeKind

/-- Other expressions in a node do not change what may stand in a value. -/
theorem fitsValue_mapExprs (e : Expr → Expr) (k : NodeKind) :
    (k.mapExprs e).fitsValue = k.fitsValue := by
  cases k <;> rfl

/-- Putting lists into a node makes no text of it. -/
theorem withBodies_ne_text {k : NodeKind} (h : ∀ s, k ≠ .text s) (ls : List (List NodeId)) (s : String) :
    k.withBodies ls ≠ .text s := by
  cases k with
  | text t => exact absurd rfl (h t)
  | binding x b => cases b <;> simp [withBodies]
  | _ => simp [withBodies]

/-- Only an open tag becomes an open tag. -/
theorem exists_openTag_of_withBodies {k : NodeKind} {ls : List (List NodeId)} {name : String}
    {as : List Attribute} {closed : Bool} (h : k.withBodies ls = .openTag name as closed) :
    ∃ name as closed, k = .openTag name as closed := by
  cases k with
  | openTag name as closed => exact ⟨name, as, closed, rfl⟩
  | binding x b => cases b <;> exact absurd h (by simp [withBodies])
  | _ => exact absurd h (by simp [withBodies])

end NodeKind

namespace Piece

section Finish

variable {ps : List Piece}

/-- Behind a text a list goes on with a node that is no text. -/
theorem lead_finishAfter_true (h : ∀ t r, other t r ∈ ps → ∀ s, t.kind ≠ .text s) :
    Forest.lead (finishAfter true ps) = "" := by
  induction ps with
  | nil => rfl
  | cons p ps ih =>
    cases p with
    | text i s again => exact ih fun t r hm => h t r (List.mem_cons_of_mem _ hm)
    -- the first node that is left is no text, so nothing is led in
    | other t r =>
      have ht := h t r List.mem_cons_self
      obtain ⟨id, k, bs⟩ := t
      rw [finishAfter_other]
      cases k with
      | text s => exact absurd rfl (ht s)
      | _ => rfl

/-- After joining no text follows another one, so nothing runs on. -/
theorem runsOn_finishAfter (h : ∀ t r, other t r ∈ ps → ∀ s, t.kind ≠ .text s) (again after : Bool) :
    Forest.runsOn again (finishAfter after ps) = false := by
  induction ps generalizing again after with
  | nil => rw [finishAfter_nil]; rfl
  | cons p ps ih =>
    have hps := fun t r hm => h t r (List.mem_cons_of_mem _ hm)
    cases p with
    | other t r =>
      have ht := h t r List.mem_cons_self
      obtain ⟨id, k, bs⟩ := t
      rw [finishAfter_other]
      cases k with
      | text s => exact absurd rfl (ht s)
      | _ => exact ih hps false false
    | text i s again' =>
      cases after with
      -- the text is in the one before it
      | true => exact ih hps again true
      | false =>
        -- behind a text the next node is another one, since texts in a row were joined
        change ((!again && Forest.lead (finishAfter true ps) != "")
          || Forest.runsOn true (finishAfter true ps)) = false
        rw [lead_finishAfter_true hps, ih hps true true]
        simp

end Finish

end Piece

namespace Forest

section Values

variable {ts : Forest}

/-- Other expressions in the nodes leave the values of attributes what they may be. -/
theorem valuesFit_mapKinds (e : Expr → Expr) (h : ValuesFit ts) :
    ValuesFit (mapKinds (NodeKind.mapExprs e) ts) := by
  -- the nodes of a value stay of kinds that fit one
  have hroots : ∀ v : Forest, (∀ u ∈ v, u.kind.fitsValue = true) →
      ∀ u ∈ mapKinds (NodeKind.mapExprs e) v, u.kind.fitsValue = true := by
    intro v hv
    induction v with
    | nil => exact hv
    | cons t v ih =>
      obtain ⟨id, k, bs⟩ := t
      obtain ⟨hk, hrest⟩ := List.forall_mem_cons.mp hv
      rw [mapKinds_cons]
      refine List.forall_mem_cons.mpr ⟨?_, ih hrest⟩
      exact (NodeKind.fitsValue_mapExprs e k).trans hk
  induction ts using Forest.induct with
  | nil => exact h
  | cons id k bs ts ihb iht =>
    obtain ⟨hk, hbs, hts⟩ := valuesFit_cons.mp h
    rw [mapKinds_cons, valuesFit_cons]
    refine ⟨fun name as closed hopen c hc => ?_, fun c hc => ?_, iht hts⟩
    · obtain ⟨b, hb, rfl⟩ := List.mem_map.mp hc
      refine hroots b ?_
      -- only an open tag has values, and it stays one
      cases k with
      | openTag name' as' closed' => exact hk name' as' closed' rfl b hb
      | _ => exact absurd hopen (by simp [NodeKind.mapExprs])
    · obtain ⟨b, hb, rfl⟩ := List.mem_map.mp hc
      exact ihb b hb (hbs b hb)

/-! ### Simplified values -/

/-- The nodes that simplification keeps are no texts. -/
theorem ne_text_of_other_mem_simplified (hl : Labelled ts) :
    ∀ t r, Piece.other t r ∈ simplified ts → ∀ s, t.kind ≠ .text s :=
  forall_other_simplified hl fun _ _ _ _ _ hv _ =>
    NodeKind.withBodies_ne_text (NodeKind.ne_text_of_kept hv) _

/-- No list of a simplified forest has a text that follows another. -/
theorem runsOn_simplify (hl : Labelled ts) (again : Bool) : runsOn again (simplify ts) = false :=
  Piece.runsOn_finishAfter (ne_text_of_other_mem_simplified hl) again false

/-- What may stand in a value stays so: no node makes way for what is inside it. -/
theorem fitsValue_simplify (h : ∀ u ∈ ts, u.kind.fitsValue = true) :
    ∀ u ∈ simplify ts, u.kind.fitsValue = true := by
  have hother : ∀ t r, Piece.other t r ∈ simplified ts → t.kind.fitsValue = true := by
    induction ts with
    | nil => exact fun _ _ hm => absurd hm List.not_mem_nil
    | cons t ts ih =>
      obtain ⟨id, k, bs⟩ := t
      obtain ⟨hk, hts⟩ := List.forall_mem_cons.mp h
      rw [NodeTree.kind_node] at hk
      intro t r hm
      rw [simplified_cons, List.mem_append] at hm
      refine hm.elim (fun hm => ?_) (ih hts t r)
      obtain ⟨k', hv, rfl⟩ | hv := cases_of_other_mem hm
      · rw [NodeTree.kind_node, NodeKind.fitsValue_withBodies]
        -- a branching command may not stand in a value, so the node is kept as it is
        rcases NodeKind.verdict_eq_kept hv with ⟨rfl, -⟩ | ⟨bs', o, rfl, -⟩
        · exact hk
        · exact absurd hk (by simp [NodeKind.fitsValue])
      · obtain ⟨bs', o, rfl, -⟩ := NodeKind.verdict_eq_spliced hv
        exact absurd hk (by simp [NodeKind.fitsValue])
  -- what is put together is a text, or one of these nodes
  intro u hu
  rcases Piece.mem_finishAfter hu with ⟨i, s, rfl⟩ | ⟨r, hr⟩
  · rfl
  · exact hother u r hr

/-- A forest whose nodes are texts and nodes of which the values fit. -/
private theorem valuesFit_finishAfter {ps : List Piece}
    (h : ∀ t r, Piece.other t r ∈ ps → ValuesFit [t]) (after : Bool) :
    ValuesFit (Piece.finishAfter after ps) :=
  Piece.forall_subtrees_finishAfter (fun _ _ _ _ _ hk => absurd hk (by simp)) h after

/-- **Values of a simplified forest** hold what they may. -/
theorem valuesFit_simplify (hl : Labelled ts) (h : ValuesFit ts) : ValuesFit (simplify ts) := by
  refine valuesFit_finishAfter (forall_other_simplified hl fun id k k' bs hm hv hbs => ?_) false
  refine valuesFit_cons.mpr ⟨fun name as closed hopen c hc => ?_, fun c hc => ?_,
    fun _ ht => absurd ht List.not_mem_nil⟩
  · obtain ⟨b, hb, rfl⟩ := List.mem_map.mp hc
    obtain ⟨name', as', closed', rfl⟩ := NodeKind.exists_openTag_of_withBodies hopen
    -- a tag keeps its kind, so its values are those of before
    rcases NodeKind.verdict_eq_kept hv with ⟨rfl, -⟩ | ⟨bs', o, -, hk'⟩
    · have hbmem : b ∈ bs := (NodeKind.live_sublist _ bs).subset hb
      exact fitsValue_simplify (h _ hm name' as' closed' rfl b hbmem)
    · exact absurd hk' (by simp)
  · obtain ⟨b, hb, rfl⟩ := List.mem_map.mp hc
    exact valuesFit_finishAfter (hbs b hb) false

/-- Values run on in joined pieces only if they do in one of them. -/
private theorem repeatsValues_finishAfter {ps : List Piece}
    (h : ∀ t r, Piece.other t r ∈ ps → repeatsValues [t] = false) (after : Bool) :
    repeatsValues (Piece.finishAfter after ps) = false := by
  -- a list repeats values only if one of its trees does
  have hall : ∀ us : Forest, (∀ u ∈ us, repeatsValues [u] = false) → repeatsValues us = false := by
    intro us hus
    induction us with
    | nil => rfl
    | cons u us ih =>
      obtain ⟨hu, hrest⟩ := List.forall_mem_cons.mp hus
      obtain ⟨id, k, bs⟩ := u
      rw [repeatsValues_cons, repeatsValues_nil, Bool.or_false] at hu
      rw [repeatsValues_cons, hu, ih hrest, Bool.or_false]
  refine hall _ fun u hu => ?_
  rcases Piece.mem_finishAfter hu with ⟨i, s, rfl⟩ | ⟨r, hr⟩
  · rfl
  · exact h u r hr

/-- **Values of a simplified forest** do not run on. -/
theorem repeatsValues_simplify (hl : Labelled ts) : repeatsValues (simplify ts) = false := by
  refine repeatsValues_finishAfter (forall_other_simplified hl fun id k k' bs hm hv hbs => ?_) false
  have hbody : ∀ b ∈ k.live bs, Labelled b := fun b hb u hu =>
    hl u (mem_subtrees_inside hm ((k.live_sublist bs).subset hb) hu)
  -- the values of the node itself do not run on, and neither do those below it
  have hruns : ((k.live bs).map simplify).any (runsOn true) = false := by
    rw [List.any_map, List.any_eq_false]
    intro b hb
    rw [Function.comp_apply, runsOn_simplify (hbody b hb)]
    exact Bool.false_ne_true
  have hbelow : ((k.live bs).map simplify).any repeatsValues = false := by
    rw [List.any_map, List.any_eq_false]
    intro b hb
    rw [Function.comp_apply, simplify, repeatsValues_finishAfter (hbs b hb) false]
    exact Bool.false_ne_true
  rw [repeatsValues_cons, hbelow, repeatsValues_nil, Bool.or_false, Bool.or_false]
  exact NodeTree.runsOn_eq_false hruns

end Values

/-! ### Templates at the top of a forest -/

section Templates

variable {n : NodeId} {ts : Forest} {ps : List Piece}

/-- A template stays where it is, with what is inside it lowered. -/
theorem LowersTo.mem_template (h : LowersTo n ts ps) (htemplates : AreTemplates ts) {id : NodeId}
    {t : Template} {b : Forest} (hm : .node id (.template t) [b] ∈ ts) :
    ∃ k v, LowersTo n b v ∧ .node id k [Piece.finishAfter false v] ∈ Piece.finishAfter false ps := by
  induction ts generalizing ps with
  | nil => exact absurd hm List.not_mem_nil
  | cons u ts ih =>
    obtain ⟨⟨x, hx⟩, hts⟩ := List.forall_mem_cons.mp htemplates
    obtain ⟨i, k, bs⟩ := u
    obtain rfl : k = .template x := hx
    obtain ⟨inner, p, q, hinner, hp, hq, rfl⟩ := lowersTo_cons.mp h
    obtain rfl : p = [_] := hp
    rw [List.singleton_append, Piece.finishAfter_other]
    -- the template is the first one, which holds its one list lowered, or a later one
    rcases List.mem_cons.mp hm with he | htail
    · obtain ⟨rfl, -, rfl⟩ := NodeTree.node.inj he
      obtain ⟨v, rest, hv, hrest, rfl⟩ := List.forall₂_cons_left_iff.mp hinner
      obtain rfl := List.forall₂_nil_left_iff.mp hrest
      exact ⟨_, v, hv, List.mem_cons_self⟩
    · obtain ⟨k, v, hv, hmem⟩ := ih hq hts htail
      exact ⟨k, v, hv, List.mem_cons_of_mem _ hmem⟩

/-- The bindings at the start of a list stay there. -/
theorem LowersTo.bindingNodes {m : NodeId} {ds : List StateDecl}
    (h : LowersTo n (bindingNodes m ds ++ ts) ps) :
    ∃ q, LowersTo n ts q ∧
      Piece.finishAfter false ps = Forest.bindingNodes m ds ++ Piece.finishAfter false q := by
  induction ds generalizing m ps with
  | nil => exact ⟨ps, h, rfl⟩
  | cons d ds ih =>
    obtain ⟨inner, p, q, hinner, hp, hq, rfl⟩ := lowersTo_cons.mp h
    obtain rfl := List.forall₂_nil_left_iff.mp hinner
    obtain rfl : p = [_] := hp
    obtain ⟨r, hr, hfinish⟩ := ih hq
    refine ⟨r, hr, ?_⟩
    rw [List.singleton_append, Piece.finishAfter_other, hfinish]
    rfl

/-- Bindings have no values of attributes. -/
theorem valuesFit_bindingNodes (n : NodeId) (ds : List StateDecl) :
    ValuesFit (Forest.bindingNodes n ds) := by
  induction ds generalizing n with
  | nil => exact fun _ ht => absurd ht List.not_mem_nil
  | cons d ds ih =>
    exact valuesFit_cons.mpr
      ⟨fun _ _ _ hk => absurd hk (by simp), fun _ hb => absurd hb List.not_mem_nil, ih (n + 1)⟩

/-- So the bindings of the state leave the values what they may be. -/
theorem valuesFit_bindState (h : ValuesFit ts) (n : NodeId) : ValuesFit (bindState n ts) := by
  induction ts generalizing n with
  | nil => exact h
  | cons u ts ih =>
    obtain ⟨i, k, bs⟩ := u
    obtain ⟨hk, hbs, hts⟩ := valuesFit_cons.mp h
    cases k with
    -- the bindings for its state go to the front of the body of a template
    | template t =>
      refine valuesFit_cons.mpr ⟨fun _ _ _ hk => absurd hk (by simp), fun c hc => ?_, ih hts _⟩
      obtain ⟨b, hb, rfl⟩ := List.mem_map.mp hc
      exact valuesFit_append.mpr ⟨valuesFit_bindingNodes _ _, hbs b hb⟩
    | _ => exact valuesFit_cons.mpr ⟨hk, hbs, ih hts _⟩

end Templates

end Forest

namespace TemplateFile

/-- What a template of the file spells. -/
def spelled (f : TemplateFile) (id : NodeId) : List Emitted :=
  (f.forest (f.children id)).spell

/-- Whether lowering repeats text in a template of the file. -/
def repeatsValues (f : TemplateFile) (id : NodeId) : Bool :=
  (f.forest (f.children id)).repeatsValues

section Pass

variable {f : TemplateFile} {ts : Forest}

/-- The templates of a file, as they stand before the visits. -/
private theorem outlined_templates (hshows : f.Shows ts) (htemplates : AreTemplates ts) (n : NodeId) :
    ∃ ps, Outlined n ts ps ∧ (own ts).map Piece.shape = ps.map Piece.shape ∧
      f.Joined f false ps := by
  induction ts with
  | nil => exact ⟨[], rfl, rfl, trivial⟩
  | cons u ts ih =>
    obtain ⟨⟨t, ht⟩, hts⟩ := List.forall_mem_cons.mp htemplates
    obtain ⟨id, k, bs⟩ := u
    obtain rfl : k = .template t := ht
    obtain ⟨hk, -, hrest⟩ := shows_cons.mp hshows
    obtain ⟨ps, hps, hshape, hjoin⟩ := ih hrest hts
    exact ⟨_, ⟨_, ps, rfl, hps, rfl⟩, congrArg ((id, none) :: ·) hshape, rfl, hjoin⟩

/-- **The visits of the lowering.** Every template holds what is inside it lowered. -/
theorem Holds.editBodies_lowerBody (h : f.Holds ts) (hroots : roots ts = f.templates)
    (htemplates : AreTemplates ts) (hfit : ValuesFit ts) {id : NodeId} {t : Template} {b : Forest}
    (hm : .node id (.template t) [b] ∈ ts) :
    ∃ v, LowersTo f.nodes.size b v ∧
      (f.editBodies lowerBody).forest ((f.editBodies lowerBody).children id)
        = Piece.finishAfter false v := by
  obtain ⟨ps, hps, hshape, hjoin⟩ := outlined_templates h.shows_nodes htemplates f.nodes.size
  have hown : f.ShowsOwn ps := (showsOwn_own h.shows_nodes).of_shape hshape
  -- the pieces of the whole file are its templates, none of them new
  have hids : ∀ x ∈ ps.map Piece.id, x < f.nodes.size := by
    rw [← Piece.map_id_of_shape hshape, map_id_own]
    exact fun x hx => h.lt_size x (roots_subset_ids ts hx)
  obtain ⟨⟨qs, hqs⟩, hchange⟩ := visit_lowered h hfit f ps false (Nat.le_refl _)
    (Ready.of_shows h.shows_nodes) hps hids (standing_of_own hown.texts hown.others)
  have hedit : f.editBodies lowerBody = f.visit lowerBody (ids ts) := by
    rw [editBodies_eq_visit, h.reachable hroots]
  rw [hedit]
  obtain ⟨g, hg⟩ : ∃ g, g = f.visit lowerBody (ids ts) := ⟨_, rfl⟩
  rw [← hg] at hqs hchange ⊢
  -- no list edits the templates themselves, so they stand as they did, with their lists visited
  have hshows : g.Shows (Piece.finishAfter false qs) :=
    Piece.shows_finishAfter (hown.of_shape hqs.shape).texts (hjoin.of_shape hqs.shape) hqs.settles
  obtain ⟨k, v, hv, hmem⟩ := hqs.lowers.mem_template htemplates hm
  refine ⟨v, hv, hshows.forest_children (Piece.labelled_finishAfter _ _ ?_) hmem ?_⟩
  · exact hqs.lowers.labelled h.labelled
  · -- the list has no more levels than before
    have hlen : (ids b).length < g.nodes.size :=
      Nat.lt_of_lt_of_le (h.length_ids_lt hm) hchange.size_le
    obtain ⟨d, hd⟩ : ∃ d, g.nodes.size = d + 1 := ⟨g.nodes.size - 1, by omega⟩
    rw [hd]
    exact within_finishAfter false (hv.within (within_of_length_le (by omega)))

/-- **Spelling before and after.** A lowered template spells the bindings of its state, and then what
it did before, unless text of an attribute value is repeated. -/
theorem Holds.spelled_desugarHtmlAndState (h : f.Holds ts) (hroots : roots ts = f.templates)
    (htemplates : AreTemplates ts) (hfit : ValuesFit ts) {id : NodeId} {t : Template}
    (hid : (id, t) ∈ f.declared) :
    ∃ n ≥ f.nodes.size, ∃ rest, f.desugarHtmlAndState.spelled id = t.boundState n ++ rest ∧
      GrowsStrictly (f.repeatsValues id) (f.spelled id) rest := by
  obtain ⟨b, hb⟩ := h.mem_of_declared hroots htemplates hid
  have hbefore : f.forest (f.children id) = b := h.forest_children hb
  -- the state of all templates is lowered first
  have hstart : f.Holds ([] ++ ts) := h
  obtain ⟨hstate, -, htempl⟩ := hstart.lowerStates htemplates
    (h.shows_nodes.declared_eq hroots htemplates)
  obtain ⟨g, hg⟩ : ∃ g, g = f.declared.foldl (fun f p => f.lowerState p.1 p.2) f := ⟨_, rfl⟩
  rw [← hg] at hstate htempl
  rw [List.nil_append] at hstate
  obtain ⟨n, hn, t', ht'⟩ := mem_bindState (n := f.nodes.size) hb
  obtain ⟨v, hv, hafter⟩ := hstate.editBodies_lowerBody
    ((roots_bindState _ ts).trans (hroots.trans htempl.symm)) (areTemplates_bindState htemplates _)
    (valuesFit_bindState hfit _) ht'
  -- the bindings of the state come first, and nothing of them is joined
  obtain ⟨q, hq, hfinish⟩ := hv.bindingNodes
  have hrun : f.desugarHtmlAndState = g.editBodies lowerBody := by
    rw [hg]
    rfl
  refine ⟨n, hn, spell (Piece.finishAfter false q), ?_, ?_⟩
  · rw [hrun, spelled, hafter, hfinish, spell_append, spell_bindingNodes]
  · rw [repeatsValues, spelled, hbefore]
    have hhere := h.of_mem hb
    refine hq.spells (hhere.body (List.mem_singleton.mpr rfl)).labelled fun u hu => ?_
    exact hfit u (mem_subtrees_below hb (List.mem_singleton.mpr rfl) hu)

/-- The templates of a simplified file. -/
theorem Holds.optimize_templates (h : f.Holds ts) (hroots : roots ts = f.templates)
    (htemplates : AreTemplates ts) (hfit : ValuesFit ts) :
    ∃ us, f.optimize.Holds us ∧ roots us = f.optimize.templates ∧ AreTemplates us ∧ ValuesFit us ∧
      us.repeatsValues = false := by
  obtain ⟨hsimp, htempl⟩ := h.optimize hroots htemplates
  have hl : Labelled (mapKinds (NodeKind.mapExprs Expr.fold) ts) :=
    labelled_mapKinds (NodeKind.bodies_mapExprs Expr.fold) h.labelled
  have htemplates' := areTemplates_mapExprs Expr.fold htemplates
  refine ⟨_, hsimp, ?_, areTemplates_simplify htemplates', ?_, repeatsValues_simplify hl⟩
  · rw [roots_simplify htemplates', roots_mapKinds, hroots, htempl]
  · exact valuesFit_simplify hl (valuesFit_mapKinds Expr.fold hfit)

/-- What is repeated in a template is repeated in the file. -/
theorem Holds.repeatsValues_template (h : f.Holds ts) (hroots : roots ts = f.templates)
    (htemplates : AreTemplates ts) (hr : ts.repeatsValues = false) {id : NodeId} {t : Template}
    (hid : (id, t) ∈ f.declared) : f.repeatsValues id = false := by
  obtain ⟨b, hb⟩ := h.mem_of_declared hroots htemplates hid
  have hread : f.forest (f.children id) = b := h.forest_children hb
  rw [repeatsValues, hread, Forest.repeatsValues, List.any_eq_false]
  intro u hu
  exact List.any_eq_false.mp hr u (mem_subtrees_below hb (List.mem_singleton.mpr rfl) hu)

end Pass

end TemplateFile

/-! ### Sources -/

section Sources

variable {source : SourceText} {f g : TemplateFile} {id : NodeId} {t : Template}

/-- **Lowering of what was parsed.** A template of a source, with its special characters written out,
and simplified or not, spells after the lowering the bindings of its state, and then what it did before;
this is all if and only if no attribute value runs on, and in a simplified template none does. -/
theorem parse_spelled_desugarHtmlAndState (h : parse source = .ok f) (optimized : Bool)
    (hg : g = if optimized then f.desugarSyntax.optimize else f.desugarSyntax)
    (hid : (id, t) ∈ g.declared) :
    ∃ n ≥ g.nodes.size, ∃ rest, g.desugarHtmlAndState.spelled id = t.boundState n ++ rest ∧
      (g.spelled id).Sublist rest ∧ (rest = g.spelled id ↔ g.repeatsValues id = false) ∧
      (optimized = true → g.repeatsValues id = false) := by
  obtain ⟨ts, hts, hroots, htemplates, hfit⟩ := parse_forest h
  -- the file after the first pass still holds a forest of templates
  obtain ⟨hout, htempl⟩ := hts.desugarSyntax hroots htemplates
  obtain ⟨htemplates', hroots'⟩ := areTemplates_writeOut htemplates
  have hroots'' := (hroots'.trans hroots).trans htempl.symm
  have hfit' := valuesFit_writeOut hfit
  -- a simplified file has no value that runs on, and is lowered without repeating text
  cases optimized with
  | false =>
    obtain rfl : g = f.desugarSyntax := hg
    obtain ⟨n, hn, rest, hrest, hgrows⟩ :=
      hout.spelled_desugarHtmlAndState hroots'' htemplates' hfit' hid
    exact ⟨n, hn, rest, hrest, hgrows.sublist, hgrows.eq_iff, fun hf => absurd hf Bool.false_ne_true⟩
  | true =>
    obtain rfl : g = f.desugarSyntax.optimize := hg
    obtain ⟨us, hus, hurots, hutemplates, hufit, hnone⟩ :=
      hout.optimize_templates hroots'' htemplates' hfit'
    obtain ⟨n, hn, rest, hrest, hgrows⟩ := hus.spelled_desugarHtmlAndState hurots hutemplates hufit hid
    exact ⟨n, hn, rest, hrest, hgrows.sublist, hgrows.eq_iff, fun _ =>
      hus.repeatsValues_template hurots hutemplates hnone hid⟩

end Sources

/-- The character of an item, if it is one. -/
def Emitted.char? : Emitted → Option Char
  | .char c => some c
  | .enter _ _ | .leave => none

/-- A template with an attribute whose value goes on after a print with a text and a special
character. -/
def printedAttribute : SourceText :=
  ⟨"a.st", "\x7bnamespace a\x7d\x7btemplate .t\x7d\x7b@param x: string\x7d" ++
    "<p a=\"\x7b$x\x7da\x7bsp\x7db\">\x7b/template\x7d"⟩

/-- What the template spells before and after the lowering. -/
theorem parse_printedAttribute : ∃ f, parse printedAttribute = .ok f ∧
    (f.desugarSyntax.declared.map fun p => (p.1, p.2.bindings.length)) = [(5, 0)] ∧
    (f.desugarSyntax.spelled 5).filterMap Emitted.char? = "<p a=\"a b\">".toList ∧
    (f.desugarSyntax.desugarHtmlAndState.spelled 5).filterMap Emitted.char?
      = "<p a=\"a b\"> b".toList := by
  have hrun : (parse printedAttribute).toOption.map (fun f =>
      (f.desugarSyntax.declared.map fun p => (p.1, p.2.bindings.length),
        (f.desugarSyntax.spelled 5).filterMap Emitted.char?,
        (f.desugarSyntax.desugarHtmlAndState.spelled 5).filterMap Emitted.char?))
      = some ([(5, 0)], "<p a=\"a b\">".toList, "<p a=\"a b\"> b".toList) := by decide +kernel
  obtain ⟨f, hp, hf⟩ := exists_of_toOption_map hrun
  obtain ⟨hdeclared, hf⟩ := Prod.mk.inj hf
  obtain ⟨hbefore, hafter⟩ := Prod.mk.inj hf
  exact ⟨f, hp, hdeclared, hbefore, hafter⟩

/-- The theorem at that template, without simplification. -/
theorem parse_spelled_desugarHtmlAndState_printedAttribute : ∃ f t, parse printedAttribute = .ok f ∧
    (5, t) ∈ f.desugarSyntax.declared ∧
    ∃ n ≥ f.desugarSyntax.nodes.size, ∃ rest,
      f.desugarSyntax.desugarHtmlAndState.spelled 5 = t.boundState n ++ rest ∧
      (f.desugarSyntax.spelled 5).Sublist rest ∧
      (rest = f.desugarSyntax.spelled 5 ↔ f.desugarSyntax.repeatsValues 5 = false) ∧
      (false = true → f.desugarSyntax.repeatsValues 5 = false) := by
  obtain ⟨f, hp, hdeclared, -⟩ := parse_printedAttribute
  obtain ⟨⟨i, t⟩, hmem, he⟩ : ∃ p ∈ f.desugarSyntax.declared, (p.1, p.2.bindings.length) = (5, 0) := by
    rw [← List.mem_map, hdeclared]
    exact List.mem_singleton.mpr rfl
  obtain rfl : i = 5 := congrArg Prod.fst he
  exact ⟨f, t, hp, hmem, parse_spelled_desugarHtmlAndState hp false rfl hmem⟩

/-- The special character in the attribute is spelled again after the tag, although the template has no
state. -/
theorem desugarHtmlAndState_repeats_printedAttribute : ∃ f t, parse printedAttribute = .ok f ∧
    (5, t) ∈ f.desugarSyntax.declared ∧
    (f.desugarSyntax.spelled 5).filterMap Emitted.char? = "<p a=\"a b\">".toList ∧
    (f.desugarSyntax.desugarHtmlAndState.spelled 5).filterMap Emitted.char?
      = "<p a=\"a b\"> b".toList ∧
    ∀ n, f.desugarSyntax.desugarHtmlAndState.spelled 5
      ≠ t.boundState n ++ f.desugarSyntax.spelled 5 := by
  obtain ⟨f, hp, hdeclared, hbefore, hafter⟩ := parse_printedAttribute
  obtain ⟨⟨i, t⟩, hmem, he⟩ : ∃ p ∈ f.desugarSyntax.declared, (p.1, p.2.bindings.length) = (5, 0) := by
    rw [← List.mem_map, hdeclared]
    exact List.mem_singleton.mpr rfl
  obtain ⟨rfl, hlen⟩ : i = 5 ∧ t.bindings.length = 0 := Prod.mk.inj he
  refine ⟨f, t, hp, hmem, hbefore, hafter, fun n hsame => ?_⟩
  -- the template has no state, so nothing may be put before its text
  have hnone : t.boundState n = [] := by
    rw [Template.boundState, List.length_eq_zero_iff.mp hlen]
    rfl
  rw [hsame, hnone, List.nil_append, hbefore] at hafter
  exact absurd hafter (by decide)

end TemplateFrontend
