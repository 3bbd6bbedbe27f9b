import TemplateFrontend.Proofs.Transform.Retouching
import TemplateFrontend.Proofs.Tree.Contexts
import TemplateFrontend.Proofs.Tree.Rebuilding
/-!
# What escaping leaves

The walk of escaping over the table sets the nodes of a list one by one, each in its context, and only
prints are other than before.

The walk sets the first node of a list, then goes through the lists inside it, then through the rest of the
list. `Holds.escapeList_roots` is by induction on the forest below the list: nodes that are set in one part
of the forest are in no other part, so the table still holds what is left to be walked (`Holds.escapeAll`).
After that a file is escaped by a fold over its nodes with their contexts, and what has become of a node is
found where the fold sets it (`kind_escapeAll_of_mem`).

* `TemplateFile.escapeAll` — nodes escaped one after the other, each in its context;
* `TemplateFile.Holds.escapeList_roots` — the walk over a list escapes the nodes of the forest below it;
* `TemplateFile.Planted.insertEscapingDirectives_eq` — the walk over a file;
* `TemplateFile.Escaped` — what a file and the same file escaped have to do with each other;
* `TemplateFile.Planted.escaped`, `TemplateFile.Planted.insertEscapingDirectives_twice` — completeness and
  exactness of escaping, and that it changes nothing the second time.
-/

namespace TemplateFrontend

open Forest

/-! ### Nodes -/

section Directives

variable {c : OutputContext} {place : Span}

/-- The directives of a context are about escaping. -/
theorem escapesItself_directives (hc : c.directives ≠ []) (ds : List Directive) :
    escapesItself (ds ++ c.directives.map fun name => ⟨name, [], place⟩) = true := by
  have hknown : ∀ name ∈ c.directives, escapingDirectives.contains name = true := by
    rcases c with _ | (_ | _) | _ | _ | _ | _ <;> decide
  obtain ⟨name, hname⟩ := List.exists_mem_of_ne_nil _ hc
  refine List.any_eq_true.mpr ⟨⟨name, [], place⟩, ?_, hknown name hname⟩
  exact List.mem_append_right _ (List.mem_map_of_mem hname)

/-- Directives are added once. -/
theorem escapedBy_escapedBy (c : OutputContext) (place : Span) (ds : List Directive) :
    escapedBy c place (escapedBy c place ds) = escapedBy c place ds := by
  by_cases hds : escapesItself ds = true
  · rw [escapedBy, escapedBy, if_pos hds, if_pos hds]
  · by_cases hc : c.directives = []
    · have hsame : escapedBy c place ds = ds := by
        rw [escapedBy, if_neg hds, hc, List.map_nil, List.append_nil]
      rw [hsame, hsame]
    · have hadded : escapedBy c place ds = ds ++ c.directives.map fun name => ⟨name, [], place⟩ :=
        if_neg hds
      rw [hadded, escapedBy, if_pos (escapesItself_directives hc ds)]

end Directives

namespace NodeKind

/-- What escaping leaves of a node in a context. -/
def escaped (c : OutputContext) (place : Span) : NodeKind → NodeKind
  | .print e ds => .print e (escapedBy c place ds)
  | k => k

section Escaped

variable (c : OutputContext) (place : Span) (k : NodeKind)

@[simp] theorem escaped_print (e : Expr) (ds : List Directive) :
    (print e ds).escaped c place = .print e (escapedBy c place ds) := rfl

/-- Nodes that are no prints stay as they are. -/
theorem escaped_of_ne_print (hk : ∀ e ds, k ≠ .print e ds) : k.escaped c place = k := by
  cases k with
  | print e ds => exact absurd rfl (hk e ds)
  | _ => rfl

/-- A node that was escaped in a context is left alone there. -/
@[simp] theorem escaped_escaped : (k.escaped c place).escaped c place = k.escaped c place := by
  cases k with
  | print e ds => rw [escaped_print, escaped_print, escapedBy_escapedBy]
  | _ => rfl

end Escaped

end NodeKind

namespace TemplateFile

/-! ### The walk -/

section Table

variable {f g : TemplateFile} {id other : NodeId} {k : NodeKind}

/-- Two files are the same if their nodes are, one by one, and the rest is. -/
theorem eq_of_nodes (hrest : { g with nodes := f.nodes } = f) (hsize : g.nodes.size = f.nodes.size)
    (hkind : ∀ id, g.kind id = f.kind id) (hspan : ∀ id, g.span id = f.span id) : g = f := by
  have hnodes : g.nodes = f.nodes := by
    refine Array.ext hsize fun id hg hf => ?_
    have hk := hkind id
    have hs := hspan id
    simp only [kind, span, Array.getElem?_eq_getElem hg, Array.getElem?_eq_getElem hf] at hk hs
    have hnode : ∀ n m : Node, n.kind = m.kind → n.span = m.span → n = m := by
      rintro ⟨_, _⟩ ⟨_, _⟩ rfl rfl
      rfl
    exact hnode _ _ hk hs
  rw [← hrest, ← hnodes]

end Table

/-- The file with nodes escaped one after the other, each in its context. -/
def escapeAll (f : TemplateFile) (ps : List (NodeTree × OutputContext)) : TemplateFile :=
  ps.foldl (fun f p => f.setKind p.1.id ((f.kind p.1.id).escaped p.2 (f.span p.1.id))) f

section Walk

variable {f : TemplateFile} {ts us b : Forest} {id : NodeId} {c : OutputContext}
  {ps qs : List (NodeTree × OutputContext)}

@[simp] theorem escapeAll_nil (f : TemplateFile) : f.escapeAll [] = f := rfl

/-- The first node is escaped before the others. -/
theorem escapeAll_cons (f : TemplateFile) (p : NodeTree × OutputContext)
    (ps : List (NodeTree × OutputContext)) : f.escapeAll (p :: ps) =
      (f.setKind p.1.id ((f.kind p.1.id).escaped p.2 (f.span p.1.id))).escapeAll ps := rfl

/-- Nodes in two parts are escaped part by part. -/
theorem escapeAll_append (f : TemplateFile) (ps qs : List (NodeTree × OutputContext)) :
    f.escapeAll (ps ++ qs) = (f.escapeAll ps).escapeAll qs := List.foldl_append

/-- No node is added. -/
@[simp] theorem size_escapeAll (f : TemplateFile) (ps : List (NodeTree × OutputContext)) :
    (f.escapeAll ps).nodes.size = f.nodes.size := by
  induction ps generalizing f with
  | nil => rfl
  | cons p ps ih => rw [escapeAll_cons, ih, size_setKind]

/-- No node moves. -/
@[simp] theorem span_escapeAll (f : TemplateFile) (ps : List (NodeTree × OutputContext)) (id : NodeId) :
    (f.escapeAll ps).span id = f.span id := by
  induction ps generalizing f with
  | nil => rfl
  | cons p ps ih => rw [escapeAll_cons, ih, span_setKind]

/-- A node that is not among them is what it was. -/
theorem kind_escapeAll_of_notMem (hid : id ∉ ps.map fun p => p.1.id) :
    (f.escapeAll ps).kind id = f.kind id := by
  induction ps generalizing f with
  | nil => rfl
  | cons p ps ih =>
    obtain ⟨hne, hid⟩ := List.ne_and_not_mem_of_not_mem_cons hid
    rw [escapeAll_cons, ih hid, kind_setKind_of_ne _ _ (Ne.symm hne)]

/-- A node among them is escaped in its context, if none is there twice. -/
theorem kind_escapeAll_of_mem (hnodup : (ps.map fun p => p.1.id).Nodup)
    (hlt : ∀ p ∈ ps, p.1.id < f.nodes.size) {p : NodeTree × OutputContext} (hp : p ∈ ps) :
    (f.escapeAll ps).kind p.1.id = (f.kind p.1.id).escaped p.2 (f.span p.1.id) := by
  induction ps generalizing f with
  | nil => cases hp
  | cons q ps ih =>
    obtain ⟨hq, hps⟩ := List.nodup_cons.mp hnodup
    obtain ⟨hqlt, hpslt⟩ := List.forall_mem_cons.mp hlt
    rw [escapeAll_cons]
    obtain rfl | hp := List.mem_cons.mp hp
    · -- the nodes behind this one are others, so it is not set again
      rw [kind_escapeAll_of_notMem hq, kind_setKind_self _ _ hqlt]
    · have hne : q.1.id ≠ p.1.id := fun heq => hq (List.mem_map.mpr ⟨p, hp, heq.symm⟩)
      rw [ih hps (fun r hr => by rw [size_setKind]; exact hpslt r hr) hp,
        kind_setKind_of_ne _ _ hne, span_setKind]

/-- The table holds a forest beside the nodes that are escaped as before. -/
theorem Holds.escapeAll (h : f.Holds us) (hps : ∀ p ∈ ps, p.1.id ∉ ids us) :
    (f.escapeAll ps).Holds us := by
  refine h.of_shows (Nat.le_of_eq (size_escapeAll f ps).symm) (h.shows_nodes.congr fun x hx => ?_)
  refine kind_escapeAll_of_notMem fun hmem => ?_
  obtain ⟨p, hp, rfl⟩ := List.mem_map.mp hmem
  exact hps p hp hx

/-- Nodes with contexts are nodes of the list. -/
theorem mem_ids_of_contexts (hl : Labelled ts) {p : NodeTree × OutputContext}
    (hp : p ∈ contexts c ts) : p.1.id ∈ ids ts := by
  rw [ids, ← map_fst_contexts hl c, List.map_map]
  exact List.mem_map_of_mem (f := NodeTree.id ∘ Prod.fst) hp

/-- The first node of a list is escaped, then the lists inside it, then the nodes after it. -/
theorem escapeList_cons (f : TemplateFile) (fuel : Nat) (c : OutputContext) (id : NodeId)
    (ids : List NodeId) : f.escapeList (fuel + 1) c (id :: ids) =
      (((f.kind id).bodiesWithContext c).foldl (fun f p => f.escapeList fuel p.2 p.1)
        (f.setKind id ((f.kind id).escaped c (f.span id)))).escapeList fuel c ids := by
  rw [escapeList]
  cases hk : f.kind id with
  | print e ds => rfl
  | _ =>
    dsimp only [NodeKind.escaped]
    rw [← hk, setKind_kind]

/-- **The walk over a list.** It escapes the nodes below the list, one after the other. -/
theorem Holds.escapeList_roots (h : f.Holds ts) {fuel : Nat} (hfuel : (ids ts).length ≤ fuel)
    (c : OutputContext) : f.escapeList fuel c (roots ts) = f.escapeAll (contexts c ts) := by
  induction ts using Forest.induct generalizing f fuel c with
  | nil => cases fuel <;> rfl
  | cons i k bs ts ihb iht =>
    rw [ids_cons, List.length_cons, List.length_append] at hfuel
    obtain ⟨fuel, rfl⟩ : ∃ n, fuel = n + 1 := ⟨fuel - 1, by omega⟩
    -- lists inside the node, one after the other
    have hlists : ∀ (ps : List (Forest × OutputContext)) {g : TemplateFile}, (∀ p ∈ ps, p.1 ∈ bs) →
        g.Holds (ps.map Prod.fst).flatten →
        (ps.map (Prod.map roots id)).foldl (fun f p => f.escapeList fuel p.2 p.1) g =
          g.escapeAll (ps.flatMap fun p => contexts p.2 p.1) := by
      intro ps
      induction ps with
      | nil => exact fun _ _ => rfl
      | cons p ps ih =>
        intro g hps hg
        obtain ⟨hp, hps⟩ := List.forall_mem_cons.mp hps
        rw [List.map_cons, List.flatten_cons] at hg
        -- the fuel is enough for each of the lists
        have hfuelp : (ids p.1).length ≤ fuel := by
          have hle := (sublist_flatMap ids hp).length_le
          omega
        rw [List.map_cons, List.foldl_cons, List.flatMap_cons, escapeAll_append, Prod.map_fst,
          Prod.map_snd, id, ihb p.1 hp hg.left hfuelp]
        refine ih hps (hg.right.escapeAll fun q hq hmem => ?_)
        exact hg.disjoint (mem_ids_of_contexts hg.left.labelled hq) hmem
    -- the node itself comes first, and it is none of the nodes below it and behind it
    have hself : ∀ {us : Forest}, f.Holds us → i ∉ ids us →
        (f.escapeAll [(.node i k bs, c)]).Holds us := fun hus hi =>
      hus.escapeAll fun p hp => by rwa [List.mem_singleton.mp hp]
    have hinside : (f.escapeAll [(.node i k bs, c)]).Holds
        ((bs.zip (k.contextsInside c)).map Prod.fst).flatten := by
      rw [map_fst_zip_contextsInside h.bodies_eq]
      exact hself h.inside (by rw [ids_flatten]; exact h.root_notMem_inside)
    -- nor is anything below it among the nodes behind it
    have htail : ((f.escapeAll [(.node i k bs, c)]).escapeAll
        ((bs.zip (k.contextsInside c)).flatMap fun p => contexts p.2 p.1)).Holds ts := by
      refine (hself h.tail h.root_notMem_tail).escapeAll fun q hq hmem => ?_
      obtain ⟨p, hp, hq⟩ := List.mem_flatMap.mp hq
      have hb : p.1 ∈ bs := (List.of_mem_zip hp).1
      exact h.disjoint_body_tail hb (mem_ids_of_contexts (h.body hb).labelled hq) hmem
    have hfirst : f.setKind i ((f.kind i).escaped c (f.span i)) =
        f.escapeAll [(.node i k bs, c)] := rfl
    rw [roots_cons, NodeTree.id_node, escapeList_cons, hfirst, h.kind_eq,
      bodiesWithContext_of_labelled h.bodies_eq, hlists _ (fun p hp => (List.of_mem_zip hp).1) hinside,
      iht htail (by omega), contexts_cons]
    exact (escapeAll_append _ _ _).symm

/-- The file with one template escaped. -/
def escapeTemplate (f : TemplateFile) (id : NodeId) : TemplateFile :=
  match f.template? id with
  | some t => f.escapeList f.nodes.size (.ofContent t.contentKind) t.body
  | none => f

theorem insertEscapingDirectives_eq (f : TemplateFile) :
    f.insertEscapingDirectives = f.templates.foldl escapeTemplate f := rfl

/-- **The walk over a file.** It escapes the nodes inside the templates, one after the other. -/
theorem Planted.insertEscapingDirectives_eq (h : f.Planted ts) :
    f.insertEscapingDirectives = f.escapeAll (templateContexts ts) := by
  -- by induction on the templates that are still to come
  have hwalk : ∀ (us : Forest) {g : TemplateFile}, AreTemplates us → g.Holds us →
      (roots us).foldl escapeTemplate g = g.escapeAll (templateContexts us) := by
    intro us
    induction us with
    | nil => exact fun _ _ => rfl
    | cons u us ih =>
      intro g htemplates hg
      obtain ⟨⟨x, hx⟩, hrest⟩ := List.forall_mem_cons.mp htemplates
      obtain ⟨i, k, bs⟩ := u
      obtain rfl : k = .template x := hx
      have hkind : g.template? i = some x := template?_eq_some.mpr hg.kind_eq
      have hbodies : [x.body] = bs.map roots := hg.bodies_eq
      obtain ⟨b, rfl, hbody⟩ := List.map_eq_singleton_iff.mp hbodies.symm
      have hb := hg.body (List.mem_singleton_self b)
      rw [roots_cons, NodeTree.id_node, List.foldl_cons, escapeTemplate, hkind, templateContexts,
        inTemplates_cons, List.flatMap_singleton, escapeAll_append]
      dsimp only
      rw [← hbody, hb.escapeList_roots hb.length_ids_le]
      -- the table still holds the templates behind this one
      refine ih hrest (hg.tail.escapeAll fun q hq hmem => ?_)
      exact hg.disjoint_body_tail (List.mem_singleton_self b) (mem_ids_of_contexts hb.labelled hq) hmem
  rw [TemplateFile.insertEscapingDirectives_eq, ← h.roots_eq]
  exact hwalk ts h.areTemplates h.holds

end Walk

/-! ### Before and after -/

/-- **A file escaped.** Every reachable print that says nothing about escaping got the directives of the one
context in which it stands, and nothing else is other than before. -/
structure Escaped (f g : TemplateFile) : Prop where
  rest_eq : { g with nodes := f.nodes } = f
  size_eq : g.nodes.size = f.nodes.size
  span_eq : ∀ id, g.span id = f.span id
  reachable_eq : g.reachable = f.reachable
  /-- The context of a reachable print is settled. -/
  existsUnique_inContext : ∀ {id e ds}, f.Reaches id → f.kind id = .print e ds → ∃! c, f.InContext id c
  kind_of_print : ∀ {id e ds c}, f.Reaches id → f.kind id = .print e ds → f.InContext id c →
    escapesItself ds = false →
      g.kind id = .print e (ds ++ c.directives.map fun name => ⟨name, [], f.span id⟩)
  kind_of_escapesItself : ∀ {id e ds}, f.kind id = .print e ds → escapesItself ds = true →
    g.kind id = .print e ds
  kind_of_ne_print : ∀ {id}, (∀ e ds, f.kind id ≠ .print e ds) → g.kind id = f.kind id
  kind_of_not_reaches : ∀ {id}, ¬ f.Reaches id → g.kind id = f.kind id

section Before

variable {f : TemplateFile} {ts : Forest} {id : NodeId}

/-- A print is no template. -/
theorem Planted.notMem_templates_of_print (h : f.Planted ts) {e : Expr} {ds : List Directive}
    (hk : f.kind id = .print e ds) : id ∉ f.templates := by
  intro hid
  obtain ⟨x, -, -, hx, -⟩ := h.exists_node hid
  rw [hx] at hk
  cases hk

/-- A node after escaping is the node escaped in its context, or what it was if it has none. -/
theorem Planted.kind_insertEscapingDirectives (h : f.Planted ts) (id : NodeId) :
    (∃ c, f.InContext id c ∧ f.insertEscapingDirectives.kind id = (f.kind id).escaped c (f.span id)) ∨
      (∀ c, ¬ f.InContext id c) ∧ f.insertEscapingDirectives.kind id = f.kind id := by
  rw [h.insertEscapingDirectives_eq]
  -- the pass sets the nodes that the walk over contexts lists, each one once
  by_cases hid : id ∈ (templateContexts ts).map fun p => p.1.id
  · obtain ⟨⟨t, c⟩, htc, rfl⟩ := List.mem_map.mp hid
    have hcontext : f.InContext t.id c := h.inContext_iff.mpr ⟨t, htc, rfl⟩
    refine .inl ⟨c, hcontext, ?_⟩
    refine kind_escapeAll_of_mem h.nodup_templateContexts (fun p hp => ?_) htc
    exact h.holds.lt_size _
      (List.mem_map_of_mem (mem_subtrees_of_templateContexts h.holds.labelled hp))
  · refine .inr ⟨fun c hc => ?_, kind_escapeAll_of_notMem hid⟩
    obtain ⟨t, ht, rfl⟩ := h.inContext_iff.mp hc
    exact hid (List.mem_map.mpr ⟨(t, c), ht, rfl⟩)

/-- **Complete and exact.** -/
theorem Planted.escaped (h : f.Planted ts) : Escaped f f.insertEscapingDirectives where
  rest_eq := (insertEscapingDirectives_retouched f).rest_eq
  size_eq := (insertEscapingDirectives_retouched f).size_eq
  span_eq id := by rw [h.insertEscapingDirectives_eq, span_escapeAll]
  reachable_eq := (insertEscapingDirectives_retouched f).reachable_eq
  existsUnique_inContext hid hk :=
    h.existsUnique_inContext hid (h.notMem_templates_of_print hk)
  -- a print in a template has one context, and its directives are those for it
  kind_of_print {id e ds c} hid hk hc hds := by
    obtain ⟨c', hc', hkind⟩ | ⟨hnone, -⟩ := h.kind_insertEscapingDirectives id
    · obtain rfl := (h.existsUnique_inContext hid (h.notMem_templates_of_print hk)).unique hc hc'
      rw [hkind, hk, NodeKind.escaped_print, escapedBy, hds]
      rfl
    · exact absurd hc (hnone c)
  kind_of_escapesItself {id e ds} hk hds := by
    obtain ⟨c, -, hkind⟩ | ⟨-, hkind⟩ := h.kind_insertEscapingDirectives id
    · rw [hkind, hk, NodeKind.escaped_print, escapedBy, if_pos hds]
    · rw [hkind, hk]
  kind_of_ne_print {id} hk := by
    obtain ⟨c, -, hkind⟩ | ⟨-, hkind⟩ := h.kind_insertEscapingDirectives id
    · rw [hkind, NodeKind.escaped_of_ne_print _ _ _ hk]
    · exact hkind
  -- the walk comes to reachable nodes only
  kind_of_not_reaches {id} hid := by
    obtain ⟨c, hc, -⟩ | ⟨-, hkind⟩ := h.kind_insertEscapingDirectives id
    · exact absurd (h.reaches_of_inContext hc) hid
    · exact hkind

/-- Nodes keep their contexts. -/
theorem Planted.inContext_insertEscapingDirectives (h : f.Planted ts) {c : OutputContext}
    (hid : f.InContext id c) : f.insertEscapingDirectives.InContext id c := by
  have hr := insertEscapingDirectives_retouched f
  -- a print has no lists, and every other node is what it was
  have hcases : ∀ id, (∃ e ds, f.kind id = .print e ds) ∨
      f.insertEscapingDirectives.kind id = f.kind id := by
    intro id
    by_cases hk : ∃ e ds, f.kind id = .print e ds
    · exact .inl hk
    · exact .inr (h.escaped.kind_of_ne_print fun e ds heq => hk ⟨e, ds, heq⟩)
  induction hid with
  | template howner hkind hid =>
    refine .template (hr.templates_eq ▸ howner) ?_ hid
    obtain ⟨e, ds, hk⟩ | hsame := hcases _
    · rw [hk] at hkind
      cases hkind
    · rw [hsame, hkind]
  | settled howner hsettles hid =>
    refine .settled (hr.reaches_iff.mpr howner) ?_ hid
    obtain ⟨e, ds, hk⟩ | hsame := hcases _
    · rw [hk] at hsettles
      cases hsettles
    · rwa [hsame]
  -- a print would have no lists to hand a context to
  | inherited _ hkind hid ih =>
    refine .inherited ih ?_ (by rwa [hr.children_eq])
    obtain ⟨e, ds, hk⟩ | hsame := hcases _
    · rw [children, hk] at hid
      cases hid
    · rwa [hsame]

/-- **Nothing the second time.** -/
theorem Planted.insertEscapingDirectives_twice (h : f.Planted ts) :
    f.insertEscapingDirectives.insertEscapingDirectives = f.insertEscapingDirectives := by
  have hr := insertEscapingDirectives_retouched f
  have hplanted := hr.planted h
  have htwice := hplanted.escaped
  refine eq_of_nodes htwice.rest_eq htwice.size_eq (fun id => ?_) htwice.span_eq
  obtain ⟨c, hc, hkind⟩ | ⟨-, hkind⟩ := hplanted.kind_insertEscapingDirectives id
  · -- only prints are changed at all
    by_cases hprint : ∃ e ds, f.kind id = .print e ds
    · obtain ⟨e, ds, hprint⟩ := hprint
      have hreach : f.Reaches id := hr.reaches_iff.mp (hplanted.reaches_of_inContext hc)
      have hnot := h.notMem_templates_of_print hprint
      obtain ⟨d, hd, -⟩ := h.existsUnique_inContext hreach hnot
      obtain ⟨d, hd, hfirst⟩ | ⟨hnone, -⟩ := h.kind_insertEscapingDirectives id
      · -- both times the print stands in the same context
        have hunique := hplanted.existsUnique_inContext (hplanted.reaches_of_inContext hc)
          (hr.templates_eq.symm ▸ hnot)
        obtain rfl := hunique.unique hc (h.inContext_insertEscapingDirectives hd)
        rw [hkind, hfirst, h.escaped.span_eq, NodeKind.escaped_escaped]
      -- the print has a context
      · exact absurd hd (hnone d)
    · refine htwice.kind_of_ne_print fun e ds heq => ?_
      rw [h.escaped.kind_of_ne_print fun e ds heq => hprint ⟨e, ds, heq⟩] at heq
      exact hprint ⟨e, ds, heq⟩
  · exact hkind

end Before

end TemplateFile

end TemplateFrontend
