import TemplateFrontend.Proofs.Transform.Escaped
import TemplateFrontend.Proofs.Transform.Rebuilt
import TemplateFrontend.Proofs.Transform.Runs
/-!
# Prints of constants

What simplification leaves of the prints and the texts of a file, and of their contexts.

A node remains if it is in no branch that constants drop. On the table this is `Remains`, and on the forest
`Forest.remaining`, and `Planted.mem_remaining_iff` goes from one to the other. Prints and texts of a
simplified file are then found in three steps: a file is folded, which leaves every context
(`Planted.mem_remaining_folded`); its forest is simplified, which is known of each template
(`Forest.prints_simplify`, `Forest.extends_simplify`); and the result is read in the new table
(`Planted.mem_prints`, `Planted.exists_text`).

* `TemplateFile.Remains` — the nodes outside of the branches that constant conditions drop;
* `TemplateFile.Planted.mem_remaining_iff` — the same on the forest;
* `TemplateFile.Planted.print_optimize_iff` — the prints of a simplified file;
* `TemplateFile.Planted.exists_text_optimize` — a node that becomes a text is part of one in its context.
-/

namespace TemplateFrontend

open Forest

namespace TemplateFile

/-- Constant conditions leave the node: it is not in a branch that they drop. -/
inductive Remains (f : TemplateFile) : NodeId → Prop
  | template {id : NodeId} (h : id ∈ f.templates) : Remains f id
  | inside {owner id : NodeId} {body : List NodeId} (howner : Remains f owner)
      (hbody : body ∈ (f.kind owner).live (f.kind owner).bodies) (hid : id ∈ body) : Remains f id

end TemplateFile

namespace Forest

section Remaining

variable {c c' d e : OutputContext} {ts b : Forest} {t : NodeTree}

/-- Of a list in two parts both parts are gone through. -/
theorem remaining_append (c : OutputContext) (ts us : Forest) :
    remaining c (ts ++ us) = remaining c ts ++ remaining c us := by
  induction ts with
  | nil => rfl
  | cons t ts ih => rw [List.cons_append, remaining, remaining, ih, List.append_assoc]

/-- What is left are nodes of the list, in order. -/
theorem remaining_sublist (c : OutputContext) (ts : Forest) :
    (remaining c ts).Sublist (contexts c ts) := by
  induction ts using Forest.induct generalizing c with
  | nil => exact .slnil
  | cons id k bs ts ihb iht =>
    rw [remaining_cons, contexts_cons]
    refine ((List.Sublist.append ?_ (iht c))).cons_cons _
    refine (List.Sublist.flatMap_right _ fun p hp => ?_).trans ((k.live_sublist _).flatMap _)
    exact ihb p.1 (List.of_mem_zip ((k.live_sublist _).subset hp)).1 p.2

/-- The nodes of the list itself are left. -/
theorem mem_remaining_self (c : OutputContext) (h : t ∈ ts) : (t, c) ∈ remaining c ts := by
  obtain ⟨front, rest, rfl⟩ := List.append_of_mem h
  obtain ⟨id, k, bs⟩ := t
  rw [remaining_append, remaining_cons]
  exact List.mem_append_right _ List.mem_cons_self

/-- What constants leave of a list that they leave inside a node that they leave. -/
theorem mem_remaining_inside (ht : (t, d) ∈ remaining c ts)
    (hb : (b, e) ∈ t.kind.live (t.bodies.zip (t.kind.contextsInside d))) {p : NodeTree × OutputContext}
    (hp : p ∈ remaining e b) : p ∈ remaining c ts := by
  induction ts using Forest.induct generalizing c with
  | nil => cases ht
  | cons id k bs ts ihb iht =>
    rw [remaining_cons] at ht ⊢
    obtain heq | ht := List.mem_cons.mp ht
    · obtain ⟨rfl, rfl⟩ := Prod.mk.inj heq
      exact List.mem_cons_of_mem _ (List.mem_append_left _ (List.mem_flatMap.mpr ⟨_, hb, hp⟩))
    · refine List.mem_cons_of_mem _ ?_
      -- further down in a body that is left, or later in the list
      obtain ht | ht := List.mem_append.mp ht
      · obtain ⟨q, hq, ht⟩ := List.mem_flatMap.mp ht
        have hqb := (List.of_mem_zip ((k.live_sublist _).subset hq)).1
        exact List.mem_append_left _ (List.mem_flatMap.mpr ⟨q, hq, ihb q.1 hqb ht⟩)
      · exact List.mem_append_right _ (iht ht)

end Remaining

end Forest

namespace TemplateFile

section Planted

variable {f : TemplateFile} {ts : Forest} {id : NodeId} {c c' : OutputContext} {t : NodeTree}

/-- What is left of the forest remains in the table. -/
theorem Holds.remains_of_mem (h : f.Holds ts) (hroots : ∀ r ∈ roots ts, f.Remains r)
    (ht : (t, c') ∈ remaining c ts) : f.Remains t.id := by
  induction ts using Forest.induct generalizing c with
  | nil => cases ht
  | cons i k bs ts ihb iht =>
    obtain ⟨hself, hrest⟩ := List.forall_mem_cons.mp hroots
    rw [remaining_cons] at ht
    obtain heq | ht := List.mem_cons.mp ht
    · obtain ⟨rfl, rfl⟩ := Prod.mk.inj heq
      exact hself
    · obtain ht | ht := List.mem_append.mp ht
      · obtain ⟨⟨b, d⟩, hbd, ht⟩ := List.mem_flatMap.mp ht
        -- the node is in a list that the constants of its owner leave
        have hb : b ∈ k.live bs := by
          have hfst := List.mem_map_of_mem (f := Prod.fst) hbd
          rwa [← k.live_map, map_fst_zip_contextsInside h.bodies_eq] at hfst
        have hbs : b ∈ bs := (k.live_sublist bs).subset hb
        refine ihb b hbs (h.body hbs) (fun r hr => .inside hself ?_ hr) ht
        rw [NodeTree.id_node, h.kind_eq, h.bodies_eq, k.live_map]
        exact List.mem_map_of_mem hb
      -- or among the nodes behind this one
      · exact iht h.tail hrest ht

/-- **What constants leave**, in the table and in the forest. -/
theorem Planted.mem_remaining_iff (h : f.Planted ts) :
    (t, c) ∈ inTemplates remaining ts ↔ (t, c) ∈ templateContexts ts ∧ f.Remains t.id := by
  have hshows := h.holds.shows_nodes
  have hlabelled := h.holds.labelled
  -- what is left stands in templates
  have hsub : ∀ p ∈ inTemplates remaining ts, p ∈ templateContexts ts := by
    intro p hp
    obtain ⟨i, x, bs, b, ht, hb, hp⟩ := mem_inTemplates.mp hp
    exact mem_inTemplates.mpr ⟨i, x, bs, b, ht, hb, (remaining_sublist _ b).subset hp⟩
  constructor
  · intro ht
    refine ⟨hsub _ ht, ?_⟩
    obtain ⟨i, x, bs, b, hm, hb, ht⟩ := mem_inTemplates.mp ht
    obtain ⟨htemplate, hkind, hbody⟩ := h.template_of_mem hm hb
    refine ((h.holds.of_mem hm).body hb).remains_of_mem (fun r hr => ?_) ht
    -- the roots of the body remain because their template does
    refine .inside (.template htemplate) ?_ hr
    rw [hkind, ← hbody]
    exact List.mem_singleton_self _
  · rintro ⟨ht, hremains⟩
    -- a node that remains is a template, or it is found among the remaining nodes
    have hfound : ∀ {id}, f.Remains id →
        id ∈ f.templates ∨ ∃ p ∈ inTemplates remaining ts, p.1.id = id := by
      intro id hid
      induction hid with
      | template hid => exact .inl hid
      | @inside owner id body _ hbody hid ih =>
        right
        obtain hroot | ⟨⟨o, d⟩, ho, rfl⟩ := ih
        · obtain ⟨x, b, hb, hkind, hroots⟩ := h.exists_node hroot
          rw [hkind] at hbody
          obtain rfl := List.mem_singleton.mp hbody
          obtain ⟨u, hu, rfl⟩ := List.mem_map.mp (hroots ▸ hid)
          exact ⟨(u, _), mem_inTemplates.mpr ⟨owner, x, [b], b, hb, List.mem_singleton_self b,
            mem_remaining_self _ hu⟩, rfl⟩
        · have hsubtree := mem_subtrees_of_templateContexts hlabelled (hsub _ ho)
          obtain ⟨i, x, bs, b, hm, hb, ho⟩ := mem_inTemplates.mp ho
          have hkind := hshows o hsubtree
          have hbodies := hlabelled o hsubtree
          rw [hkind, hbodies, o.kind.live_map] at hbody
          obtain ⟨l, hl, rfl⟩ := List.mem_map.mp hbody
          rw [← map_fst_zip_contextsInside hbodies d, o.kind.live_map] at hl
          obtain ⟨⟨l, e⟩, hle, rfl⟩ := List.mem_map.mp hl
          obtain ⟨u, hu, rfl⟩ := List.mem_map.mp hid
          exact ⟨(u, e), mem_inTemplates.mpr ⟨i, x, bs, b, hm, hb,
            mem_remaining_inside ho hle (mem_remaining_self e hu)⟩, rfl⟩
    obtain hroot | ⟨⟨u, d⟩, hu, heq⟩ := hfound hremains
    · have hcontext : f.InContext t.id c := h.inContext_iff.mpr ⟨t, ht, rfl⟩
      exact absurd hroot (h.notMem_templates_of_inContext hcontext)
    · -- each node inside a template is met once
      have hpair := List.inj_on_of_nodup_map h.nodup_templateContexts (hsub _ hu) ht heq
      exact hpair ▸ hu

end Planted

end TemplateFile

/-! ### Folding -/

/-- No context depends on expressions. -/
theorem NodeKind.contextsInside_mapExprs (c : OutputContext) (e : Expr → Expr) (k : NodeKind) :
    (k.mapExprs e).contextsInside c = k.contextsInside c := by
  by_cases hk : k.isTransparent = true
  -- a node hands its context down whatever its expressions are
  · have hk' : (k.mapExprs e).isTransparent = true := by
      cases k with
      | openTag | binding | call => cases hk
      | _ => rfl
    rw [contextsInside, contextsInside, bodiesWithContext_of_transparent hk,
      bodiesWithContext_of_transparent hk', bodies_mapExprs]
  · cases k with
    -- these name the contexts of their lists, by attribute or by kind
    | openTag => rfl
    | binding x b => cases b <;> rfl
    | call call =>
      rw [mapExprs, contextsInside, contextsInside, bodiesWithContext, bodiesWithContext,
        List.filterMap_map]
      refine congrArg _ (List.filterMap_congr fun p _ => ?_)
      obtain ⟨name, bound, span⟩ := p
      cases bound <;> rfl
    | _ => exact absurd rfl hk

namespace Forest

variable {ts : Forest} {c : OutputContext}

/-- Other kinds that hand contexts down alike change none below them. -/
theorem contexts_mapKinds {g : NodeKind → NodeKind}
    (hg : ∀ c k, (g k).contextsInside c = k.contextsInside c) (c : OutputContext) (ts : Forest) :
    contexts c (mapKinds g ts) = (contexts c ts).map (Prod.map (mapKindsOfTree g) id) := by
  induction ts using Forest.induct generalizing c with
  | nil => rfl
  | cons i k bs ts ihb iht =>
    have hself : mapKindsOfTree g (.node i k bs) = .node i (g k) (bs.map (mapKinds g)) := by
      rw [mapKindsOfTree, mapKindsOfAll_eq_map]
    rw [mapKinds_cons, contexts_cons, contexts_cons, hg, iht, List.map_cons, List.map_append,
      List.map_flatMap, List.zip_map_left, List.flatMap_map, Prod.map_apply, hself]
    exact congrArg (_ :: · ++ _) (List.flatMap_congr fun p hp => ihb p.1 (List.of_mem_zip hp).1 p.2)

/-- Folding changes neither contexts nor the nodes that have them. -/
theorem templateContexts_mapExprs (e : Expr → Expr) (ts : Forest) :
    templateContexts (mapKinds (NodeKind.mapExprs e) ts) =
      (templateContexts ts).map (Prod.map (mapKindsOfTree (NodeKind.mapExprs e)) id) := by
  induction ts with
  | nil => rfl
  | cons t ts ih =>
    obtain ⟨i, k, bs⟩ := t
    rw [mapKinds_cons]
    cases k with
    | template x =>
      rw [NodeKind.mapExprs, templateContexts, templateContexts, inTemplates_cons, inTemplates_cons,
        List.map_append, List.map_flatMap, List.flatMap_map, ← templateContexts, ih]
      -- the contexts are read off tags and commands, which keep their kinds
      refine congrArg (· ++ _) (List.flatMap_congr fun b _ => ?_)
      exact contexts_mapKinds (fun c k => NodeKind.contextsInside_mapExprs c e k) _ b
    | _ => exact ih

/-- Each template is simplified by itself. -/
theorem inTemplates_simplify {α : Type} (walk : OutputContext → Forest → List α)
    (htemplates : AreTemplates ts) :
    inTemplates walk (simplify ts) = inTemplates (fun c b => walk c (simplify b)) ts := by
  induction ts with
  | nil => rfl
  | cons t ts ih =>
    obtain ⟨⟨x, hx⟩, hrest⟩ := List.forall_mem_cons.mp htemplates
    obtain ⟨i, k, bs⟩ := t
    obtain rfl : k = .template x := hx
    rw [simplify_cons_template, NodeKind.withBodies, inTemplates_cons, inTemplates_cons, ih hrest,
      List.flatMap_map]

end Forest

/-! ### Simplified files -/

namespace TemplateFile

section Planted

variable {f : TemplateFile} {ts us : Forest} {id : NodeId} {c : OutputContext}

/-- Expressions are rewritten over the same forest. -/
theorem Planted.mapExprs (h : f.Planted ts) (e : Expr → Expr) :
    (f.mapExprs e).Planted (mapKinds (NodeKind.mapExprs e) ts) := by
  obtain ⟨hholds, htemplates⟩ := h.holds.mapExprs h.roots_eq e
  exact ⟨hholds, by rw [roots_mapKinds, h.roots_eq, htemplates], areTemplates_mapExprs e h.areTemplates⟩

/-- An optimized file has the simplified forest of its folded one. -/
theorem Planted.optimize (h : f.Planted ts) :
    f.optimize.Planted (simplify (mapKinds (NodeKind.mapExprs Expr.fold) ts)) :=
  (descends_simplify (h.mapExprs Expr.fold)).planted

/-- Its templates are the same. -/
theorem Planted.templates_optimize (h : f.Planted ts) : f.optimize.templates = f.templates :=
  (h.holds.optimize h.roots_eq h.areTemplates).2

/-- Folding leaves every node in its context. -/
theorem Planted.inContext_mapExprs (h : f.Planted ts) (e : Expr → Expr) :
    (f.mapExprs e).InContext id c ↔ f.InContext id c := by
  rw [(h.mapExprs e).inContext_iff, h.inContext_iff, templateContexts_mapExprs]
  -- the nodes stand where they stood, with other expressions
  constructor
  · rintro ⟨t, ht, rfl⟩
    obtain ⟨⟨u, d⟩, hu, heq⟩ := List.mem_map.mp ht
    obtain ⟨rfl, rfl⟩ := Prod.mk.inj heq
    obtain ⟨i, k, bs⟩ := u
    exact ⟨_, hu, rfl⟩
  · rintro ⟨u, hu, rfl⟩
    refine ⟨_, List.mem_map_of_mem hu, ?_⟩
    obtain ⟨i, k, bs⟩ := u
    rfl

/-- The prints of a file are those of its forest. -/
theorem Planted.mem_prints (h : f.Planted us) {e : Expr} {ds : List Directive} :
    (id, (e, ds), c) ∈ inTemplates prints us ↔ f.InContext id c ∧ f.kind id = .print e ds := by
  -- the table and the forest agree on what has a context
  have hkind : ∀ p ∈ templateContexts us, f.kind p.1.id = p.1.kind := fun p hp =>
    h.holds.shows_nodes _ (mem_subtrees_of_templateContexts h.holds.labelled hp)
  rw [h.inContext_iff]
  constructor
  · intro hp
    obtain ⟨i, x, bs, b, hm, hb, hp⟩ := mem_inTemplates.mp hp
    obtain ⟨p, hp, hself⟩ := List.mem_flatMap.mp hp
    have hmem : p ∈ templateContexts us := mem_inTemplates.mpr ⟨i, x, bs, b, hm, hb, hp⟩
    -- the entry was made for the node itself
    obtain ⟨y, hy, heq⟩ := Option.map_eq_some_iff.mp (Option.mem_toList.mp hself)
    obtain ⟨rfl, rfl, rfl⟩ : p.1.id = id ∧ y = (e, ds) ∧ p.2 = c := by simpa using heq
    exact ⟨⟨p.1, hmem, rfl⟩, (hkind p hmem).trans (NodeKind.print?_eq_some.mp hy)⟩
  · rintro ⟨⟨t, ht, rfl⟩, hk⟩
    rw [hkind _ ht] at hk
    obtain ⟨i, x, bs, b, hm, hb, hp⟩ := mem_inTemplates.mp ht
    refine mem_inTemplates.mpr ⟨i, x, bs, b, hm, hb, List.mem_flatMap.mpr ⟨_, hp, ?_⟩⟩
    rw [NodeKind.print?_eq_some.mpr hk]
    exact List.mem_singleton.mpr rfl

/-- A node that can be reached gets its expressions rewritten. -/
theorem Planted.kind_mapExprs (h : f.Planted ts) (e : Expr → Expr) (hid : f.Reaches id) :
    (f.mapExprs e).kind id = (f.kind id).mapExprs e := by
  rw [TemplateFile.mapExprs, foldReachable, h.reachable_eq]
  exact (foldl_setKind (NodeKind.mapExprs e) h.holds.nodup h.holds.lt_size).2 id (h.reaches_iff.mp hid)

/-- What constants leave of the folded forest. -/
theorem Planted.mem_remaining_folded (h : f.Planted ts) {k : NodeKind} :
    (∃ t, (t, c) ∈ inTemplates remaining (mapKinds (NodeKind.mapExprs Expr.fold) ts) ∧ t.id = id ∧
      t.kind = k) ↔
    f.InContext id c ∧ (f.mapExprs Expr.fold).Remains id ∧ (f.kind id).mapExprs Expr.fold = k := by
  have hfold := h.mapExprs Expr.fold
  -- a node of the folded forest is the node of the file, folded
  have hkind : ∀ p ∈ templateContexts (mapKinds (NodeKind.mapExprs Expr.fold) ts),
      p.1.kind = (f.kind p.1.id).mapExprs Expr.fold := by
    intro p hp
    have hcontext : f.InContext p.1.id p.2 :=
      (h.inContext_mapExprs Expr.fold).mp (hfold.inContext_iff.mpr ⟨p.1, hp, rfl⟩)
    rw [← h.kind_mapExprs Expr.fold (h.reaches_of_inContext hcontext)]
    exact (hfold.holds.shows_nodes _
      (mem_subtrees_of_templateContexts hfold.holds.labelled hp)).symm
  rw [← h.inContext_mapExprs Expr.fold, hfold.inContext_iff]
  constructor
  · rintro ⟨t, ht, rfl, rfl⟩
    obtain ⟨hmem, hremains⟩ := hfold.mem_remaining_iff.mp ht
    exact ⟨⟨t, hmem, rfl⟩, hremains, (hkind _ hmem).symm⟩
  · rintro ⟨⟨t, hmem, rfl⟩, hremains, rfl⟩
    exact ⟨t, hfold.mem_remaining_iff.mpr ⟨hmem, hremains⟩, rfl, hkind _ hmem⟩

/-- **Prints of a simplified file.** They are the prints that simplification keeps, of the nodes that
constants leave, each in the context that it had. -/
theorem Planted.print_optimize_iff (h : f.Planted ts) {e : Expr} {ds : List Directive} :
    f.optimize.InContext id c ∧ f.optimize.kind id = .print e ds ↔
      f.InContext id c ∧ (f.mapExprs Expr.fold).Remains id ∧
        ((f.kind id).mapExprs Expr.fold).keptPrint? = some (e, ds) := by
  have hfold := h.mapExprs Expr.fold
  have hbody : ∀ {i k bs b}, .node i k bs ∈ mapKinds (NodeKind.mapExprs Expr.fold) ts → b ∈ bs →
      Labelled b := fun hm hb u hu => hfold.holds.labelled u (mem_subtrees_below hm hb hu)
  -- both sides are read off the forest, where each template is simplified by itself
  rw [← h.optimize.mem_prints, inTemplates_simplify _ hfold.areTemplates]
  constructor
  · intro hin
    obtain ⟨i, x, bs, b, hm, hb, hprint⟩ := mem_inTemplates.mp hin
    rw [prints_simplify (hbody hm hb)] at hprint
    obtain ⟨p, hp, hself⟩ := List.mem_flatMap.mp hprint
    obtain ⟨y, hy, heq⟩ := Option.map_eq_some_iff.mp (Option.mem_toList.mp hself)
    obtain ⟨rfl, rfl, rfl⟩ : p.1.id = id ∧ y = (e, ds) ∧ p.2 = c := by simpa using heq
    -- the print is one that simplification keeps of a node that is left
    obtain ⟨hc, hremains, hk⟩ := h.mem_remaining_folded.mp
      ⟨p.1, mem_inTemplates.mpr ⟨i, x, bs, b, hm, hb, hp⟩, rfl, rfl⟩
    exact ⟨hc, hremains, hk ▸ hy⟩
  · rintro ⟨hc, hremains, hk⟩
    obtain ⟨t, ht, rfl, hkind⟩ := h.mem_remaining_folded.mpr ⟨hc, hremains, rfl⟩
    obtain ⟨i, x, bs, b, hm, hb, hp⟩ := mem_inTemplates.mp ht
    refine mem_inTemplates.mpr ⟨i, x, bs, b, hm, hb, ?_⟩
    rw [prints_simplify (hbody hm hb)]
    refine List.mem_flatMap.mpr ⟨_, hp, ?_⟩
    rw [hkind, hk]
    exact List.mem_singleton.mpr rfl

/-- The texts of a file are those of its forest. -/
theorem Planted.exists_text (h : f.Planted us) {s : String} (hs : (s, c) ∈ inTemplates texts us) :
    ∃ i, f.InContext i c ∧ f.kind i = .text s := by
  obtain ⟨i, x, bs, b, hm, hb, hs⟩ := mem_inTemplates.mp hs
  obtain ⟨p, hp, hself⟩ := List.mem_filterMap.mp hs
  obtain ⟨y, hy, heq⟩ := Option.map_eq_some_iff.mp hself
  obtain ⟨rfl, rfl⟩ := Prod.mk.inj heq
  have hmem : p ∈ templateContexts us := mem_inTemplates.mpr ⟨i, x, bs, b, hm, hb, hp⟩
  have hsub := mem_subtrees_of_templateContexts h.holds.labelled hmem
  exact ⟨p.1.id, h.inContext_iff.mpr ⟨p.1, hmem, rfl⟩,
    (h.holds.shows_nodes _ hsub).trans (NodeKind.eq_text_of_text? hy)⟩

/-- **Texts of a simplified file.** A node that constants leave and that becomes a text is part of a text in
its context. -/
theorem Planted.exists_text_optimize (h : f.Planted ts) {s : String} (hc : f.InContext id c)
    (hid : (f.mapExprs Expr.fold).Remains id)
    (hv : ((f.kind id).mapExprs Expr.fold).verdict = .text s) :
    ∃ i front back, f.optimize.InContext i c ∧ f.optimize.kind i = .text (front ++ s ++ back) := by
  have hfold := h.mapExprs Expr.fold
  obtain ⟨t, ht, rfl, hkind⟩ := h.mem_remaining_folded.mpr ⟨hc, hid, rfl⟩
  obtain ⟨i, x, bs, b, hm, hb, hp⟩ := mem_inTemplates.mp ht
  have hl : Labelled b := fun u hu => hfold.holds.labelled u (mem_subtrees_below hm hb hu)
  -- the text of the print lies in a run of texts at its level
  obtain ⟨front, back, hrun⟩ | ⟨hfalse, -⟩ :=
    mem_runs_of_mem_contexts false (mem_contexts_leveled hl hp (hkind ▸ hv))
  · -- the run becomes a text, perhaps with more behind it
    obtain ⟨again, htext⟩ := (extends_simplify hl _).exists_text hrun
    obtain ⟨j, hj, hkind⟩ := h.optimize.exists_text
      ((inTemplates_simplify texts hfold.areTemplates).symm ▸
        mem_inTemplates.mpr ⟨i, x, bs, b, hm, hb, htext⟩)
    exact ⟨j, front, back ++ again, hj, hkind.trans (congrArg NodeKind.text String.append_assoc)⟩
  · cases hfalse

end Planted

end TemplateFile

end TemplateFrontend
