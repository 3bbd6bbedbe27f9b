import TemplateFrontend.Proofs.Tree.Arena
import TemplateFrontend.Transform.Escaping
/-!
# Output contexts

Where the text of a node ends up is settled by the innermost attribute value, or block of content, around
it, and by the template if there is none. `TemplateFile.InContext` says this of the table. On a forest it
is an attribute that is handed down from the roots:

* `Forest.contexts` — the nodes of a forest, each with the context that it stands in;
* `Forest.templateContexts` — the same for the nodes inside templates;
* `TemplateFile.Planted.inContext_iff` — both say the same;
* `TemplateFile.Planted.existsUnique_inContext` — every node inside a template has one context.
-/

namespace TemplateFrontend

open Forest TemplateFile

namespace NodeKind

variable {k : NodeKind} {body : List NodeId} {c c' : OutputContext}

/-- The list inside the node settles the context of what stands in it, whatever is around the node. -/
inductive Settles : NodeKind → List NodeId → OutputContext → Prop
  | attributeValue {name : String} {attributes : List Attribute} {closed : Bool} {a : Attribute}
      {body : List NodeId} (ha : a ∈ attributes) (hvalue : a.value = some body) :
      Settles (.openTag name attributes closed) body (.ofAttribute a.name)
  | letContent {x : String} {kind : ContentKind} {body : List NodeId} :
      Settles (.binding x (.content kind body)) body (.ofContent kind)
  | paramContent {c : Call} {p : Passed} {kind : ContentKind} {body : List NodeId}
      (hp : p ∈ c.passed) (hbound : p.bound = .content kind body) :
      Settles (.call c) body (.ofContent kind)

/-- Whether what stands inside the node has the context of the node. -/
def isTransparent : NodeKind → Bool
  | .openTag _ _ _ | .binding _ _ | .call _ => false
  | _ => true

/-- The contexts of the lists inside a node, for a node in the given context. -/
def contextsInside (c : OutputContext) (k : NodeKind) : List OutputContext :=
  (k.bodiesWithContext c).map Prod.snd

/-- The lists that come with contexts are the lists inside the node, in order. -/
theorem map_fst_bodiesWithContext (c : OutputContext) (k : NodeKind) :
    (k.bodiesWithContext c).map Prod.fst = k.bodies := by
  -- one context for all lists
  have hwhole : ∀ bodies : List (List NodeId),
      (bodies.map (·, c)).map Prod.fst = bodies := fun bodies => by
    rw [List.map_map]
    exact List.map_id' bodies
  cases k with
  | openTag name attributes closed =>
    rw [bodiesWithContext, bodies, List.map_filterMap]
    exact List.filterMap_congr fun a _ => by cases a.value <;> rfl
  | binding x b => cases b <;> rfl
  | call call =>
    rw [bodiesWithContext, bodies, List.map_filterMap]
    refine List.filterMap_congr fun p _ => ?_
    cases hp : p.bound <;> rfl
  | _ => exact hwhole _

/-- The lists of a node with their contexts. -/
theorem bodiesWithContext_eq_zip (c : OutputContext) (k : NodeKind) :
    k.bodiesWithContext c = k.bodies.zip (k.contextsInside c) := by
  rw [← map_fst_bodiesWithContext c k, contextsInside]
  exact (List.zip_unzip (k.bodiesWithContext c)).symm.trans (by rw [List.unzip_eq_map])

/-- There is one context for each list inside. -/
theorem length_contextsInside (c : OutputContext) (k : NodeKind) :
    (k.contextsInside c).length = k.bodies.length := by
  rw [← map_fst_bodiesWithContext c k, contextsInside, List.length_map, List.length_map]

/-- A node that hands its context down hands it to each list. -/
theorem bodiesWithContext_of_transparent (hk : k.isTransparent = true) :
    k.bodiesWithContext c = k.bodies.map (·, c) := by
  cases k with
  | openTag | binding | call => cases hk
  | _ => rfl

/-- All contexts inside such a node are its own. -/
theorem contextsInside_of_transparent (hk : k.isTransparent = true) :
    k.contextsInside c = List.replicate k.bodies.length c := by
  rw [contextsInside, bodiesWithContext_of_transparent hk, List.map_map]
  exact List.map_const' ..

/-- As many lists as are inside a node that hands its context down. -/
theorem zip_contextsInside_of_transparent {α : Type} (hk : k.isTransparent = true) {bs : List α}
    (hlen : bs.length = k.bodies.length) : bs.zip (k.contextsInside c) = bs.map (·, c) := by
  rw [contextsInside_of_transparent hk, ← hlen, ← List.map_const', List.map_prod_left_eq_zip]

/-- A list inside a node has a context of its own, or that of the node. -/
theorem mem_bodiesWithContext : (body, c') ∈ k.bodiesWithContext c ↔
    k.Settles body c' ∨ (k.isTransparent = true ∧ c' = c ∧ body ∈ k.bodies) := by
  by_cases hk : k.isTransparent = true
  · -- only tags, bindings and calls settle contexts
    have hsettles : ¬ k.Settles body c' := by
      rintro (_ | _ | _) <;> cases hk
    simp only [bodiesWithContext_of_transparent hk, List.mem_map, Prod.mk.injEq, hsettles, hk,
      false_or, true_and]
    constructor
    · rintro ⟨l, hl, rfl, rfl⟩
      exact ⟨rfl, hl⟩
    · rintro ⟨rfl, hl⟩
      exact ⟨body, hl, rfl, rfl⟩
  · simp only [hk, Bool.false_eq_true, false_and, or_false]
    constructor
    · intro h
      cases k with
      | openTag name attributes closed =>
        obtain ⟨a, ha, hmap⟩ := List.mem_filterMap.mp h
        obtain ⟨value, hvalue, heq⟩ := Option.map_eq_some_iff.mp hmap
        obtain ⟨rfl, rfl⟩ := Prod.mk.inj heq
        exact .attributeValue ha hvalue
      | binding x b =>
        cases b with
        | value e => cases h
        | content kind l =>
          obtain ⟨rfl, rfl⟩ := Prod.mk.inj (List.mem_singleton.mp h)
          exact .letContent
      | call call =>
        -- a parameter with content, by its kind
        obtain ⟨p, hp, hbound⟩ := List.mem_filterMap.mp h
        cases hb : p.bound with
        | value e =>
          rw [hb] at hbound
          cases hbound
        | content kind l =>
          rw [hb] at hbound
          obtain ⟨rfl, rfl⟩ := Prod.mk.inj (Option.some.inj hbound)
          exact .paramContent hp hb
      | _ => exact absurd rfl hk
    -- each of the three that settle a context is one of the lists
    · rintro (⟨ha, hvalue⟩ | _ | ⟨hp, hbound⟩)
      · exact List.mem_filterMap.mpr ⟨_, ha, by rw [hvalue]; rfl⟩
      · exact List.mem_singleton.mpr rfl
      · exact List.mem_filterMap.mpr ⟨_, hp, by rw [hbound]⟩

end NodeKind

/-! ### Forests -/

mutual

/-- The node and everything below it, each with its context, for a node in the given context. -/
def NodeTree.contexts (c : OutputContext) : NodeTree → List (NodeTree × OutputContext)
  | .node id k bodies =>
    (.node id k bodies, c) :: Forest.contextsAll (k.contextsInside c) bodies

/-- The nodes of a list in one context and everything below them, each with its context. -/
def Forest.contexts (c : OutputContext) : Forest → List (NodeTree × OutputContext)
  | [] => []
  | t :: ts => t.contexts c ++ Forest.contexts c ts

/-- The nodes of several lists, each list in a context of its own. -/
def Forest.contextsAll : List OutputContext → List Forest → List (NodeTree × OutputContext)
  | c :: cs, b :: bs => Forest.contexts c b ++ Forest.contextsAll cs bs
  | _, _ => []

end

namespace Forest

/-- What a walk finds in the templates of a forest, in the context of each. -/
def inTemplates {α : Type} (walk : OutputContext → Forest → List α) (ts : Forest) : List α :=
  ts.flatMap fun t =>
    match t.kind with
    | .template x => t.bodies.flatMap (walk (.ofContent x.contentKind))
    | _ => []

/-- The nodes inside the templates of a forest, each with its context. -/
abbrev templateContexts (ts : Forest) : List (NodeTree × OutputContext) := inTemplates contexts ts

section Contexts

variable {c c' : OutputContext} {ts : Forest} {t u : NodeTree} {b : Forest}

/-- Several lists are gone through one after the other. -/
theorem contextsAll_eq_flatMap (cs : List OutputContext) (bs : List Forest) :
    contextsAll cs bs = (bs.zip cs).flatMap fun p => contexts p.2 p.1 := by
  induction bs generalizing cs with
  | nil => cases cs <;> rfl
  | cons b bs ih =>
    cases cs with
    | nil => rfl
    | cons c cs => rw [contextsAll, ih, List.zip_cons_cons, List.flatMap_cons]

@[simp] theorem contexts_nil (c : OutputContext) : contexts c [] = [] := rfl

/-- A node comes first, then what is inside it, then what follows. -/
@[simp] theorem contexts_cons (c : OutputContext) (id : NodeId) (k : NodeKind) (bs : List Forest)
    (ts : Forest) : contexts c (.node id k bs :: ts) =
      (.node id k bs, c) ::
        ((bs.zip (k.contextsInside c)).flatMap (fun p => contexts p.2 p.1) ++ contexts c ts) := by
  rw [contexts, NodeTree.contexts, contextsAll_eq_flatMap]
  rfl

/-- A list in two parts is gone through part by part. -/
theorem contexts_append (c : OutputContext) (ts us : Forest) :
    contexts c (ts ++ us) = contexts c ts ++ contexts c us := by
  induction ts with
  | nil => rfl
  | cons t ts ih => rw [List.cons_append, contexts, contexts, ih, List.append_assoc]

/-- So is a list in many parts. -/
theorem contexts_flatMap {α : Type} (c : OutputContext) (g : α → Forest) (l : List α) :
    contexts c (l.flatMap g) = l.flatMap fun a => contexts c (g a) := by
  induction l with
  | nil => rfl
  | cons a l ih => rw [List.flatMap_cons, contexts_append, ih, List.flatMap_cons]

/-- In a template the walk starts with the context of its content. -/
theorem inTemplates_cons {α : Type} (walk : OutputContext → Forest → List α) (id : NodeId)
    (x : Template) (bs : List Forest) (ts : Forest) : inTemplates walk (.node id (.template x) bs :: ts) =
      bs.flatMap (walk (.ofContent x.contentKind)) ++ inTemplates walk ts := rfl

/-- What is found was found in a body of some template. -/
theorem mem_inTemplates {α : Type} {walk : OutputContext → Forest → List α} {a : α} :
    a ∈ inTemplates walk ts ↔
      ∃ id x bs b, .node id (.template x) bs ∈ ts ∧ b ∈ bs ∧ a ∈ walk (.ofContent x.contentKind) b := by
  constructor
  · intro ha
    obtain ⟨⟨id, k, bs⟩, ht, ha⟩ := List.mem_flatMap.mp ha
    cases k with
    | template x =>
      obtain ⟨b, hb, ha⟩ := List.mem_flatMap.mp ha
      exact ⟨id, x, bs, b, ht, hb, ha⟩
    | _ => cases ha
  · rintro ⟨id, x, bs, b, ht, hb, ha⟩
    exact List.mem_flatMap.mpr ⟨_, ht, List.mem_flatMap.mpr ⟨b, hb, ha⟩⟩

/-- The nodes of the list itself have the context of the list. -/
theorem mem_contexts_self (c : OutputContext) (h : t ∈ ts) : (t, c) ∈ contexts c ts := by
  obtain ⟨front, rest, rfl⟩ := List.append_of_mem h
  obtain ⟨id, k, bs⟩ := t
  rw [contexts_append, contexts_cons]
  exact List.mem_append_right _ List.mem_cons_self

/-- A list inside a node for each of its contexts. -/
theorem map_fst_zip_contextsInside {k : NodeKind} {bs : List Forest} (hk : k.bodies = bs.map roots)
    (c : OutputContext) : (bs.zip (k.contextsInside c)).map Prod.fst = bs := by
  refine List.map_fst_zip (Nat.le_of_eq ?_)
  rw [k.length_contextsInside, hk, List.length_map]

/-- The lists of a node in a forest are those of its trees. -/
theorem bodiesWithContext_of_labelled {k : NodeKind} {bs : List Forest}
    (hk : k.bodies = bs.map roots) (c : OutputContext) :
    k.bodiesWithContext c = (bs.zip (k.contextsInside c)).map (Prod.map roots id) := by
  rw [k.bodiesWithContext_eq_zip, hk, List.zip_map_left]

/-- Every node of the forest is met once, in order. -/
theorem map_fst_contexts (hl : Labelled ts) (c : OutputContext) :
    (contexts c ts).map Prod.fst = subtrees ts := by
  induction ts using Forest.induct generalizing c with
  | nil => rfl
  | cons id k bs ts ihb iht =>
    obtain ⟨hk, hbs, hts⟩ := labelled_cons.mp hl
    -- inside the node, where the contexts are taken away again
    have hinside : (bs.zip (k.contextsInside c)).flatMap (fun p => (contexts p.2 p.1).map Prod.fst) =
        bs.flatMap subtrees := by
      have hfst := congrArg (List.flatMap subtrees) (map_fst_zip_contextsInside hk c)
      rw [List.flatMap_map] at hfst
      rw [← hfst]
      refine List.flatMap_congr fun p hp => ?_
      have hb : p.1 ∈ bs := (List.of_mem_zip hp).1
      exact ihb p.1 hb (hbs p.1 hb) p.2
    rw [contexts_cons, subtrees_cons, List.map_cons, List.map_append, iht hts, List.map_flatMap,
      hinside]

/-- What stands in a list inside a node has the context that the node gives to the list. -/
theorem mem_contexts_inside {d e : OutputContext} (ht : (t, d) ∈ contexts c ts)
    (hb : (b, e) ∈ t.bodies.zip (t.kind.contextsInside d)) {p : NodeTree × OutputContext}
    (hp : p ∈ contexts e b) : p ∈ contexts c ts := by
  induction ts using Forest.induct generalizing c with
  | nil => cases ht
  | cons id k bs ts ihb iht =>
    rw [contexts_cons] at ht ⊢
    obtain heq | ht := List.mem_cons.mp ht
    -- it stands right inside the first node
    · obtain ⟨rfl, rfl⟩ := Prod.mk.inj heq
      exact List.mem_cons_of_mem _ (List.mem_append_left _ (List.mem_flatMap.mpr ⟨_, hb, hp⟩))
    · refine List.mem_cons_of_mem _ ?_
      obtain ht | ht := List.mem_append.mp ht
      · obtain ⟨q, hq, ht⟩ := List.mem_flatMap.mp ht
        have hqb := (List.of_mem_zip hq).1
        exact List.mem_append_left _ (List.mem_flatMap.mpr ⟨q, hq, ihb q.1 hqb ht⟩)
      · exact List.mem_append_right _ (iht ht)

/-- Whatever has a context is a node of the forest. -/
theorem mem_subtrees_of_templateContexts (hl : Labelled ts) {p : NodeTree × OutputContext}
    (hp : p ∈ templateContexts ts) : p.1 ∈ subtrees ts := by
  obtain ⟨id, x, bs, b, ht, hb, hp⟩ := mem_inTemplates.mp hp
  refine mem_subtrees_below ht hb ?_
  rw [← map_fst_contexts (fun u hu => hl u (mem_subtrees_below ht hb hu))]
  exact List.mem_map_of_mem hp

/-- The nodes inside the templates of a forest. -/
theorem map_fst_templateContexts (hl : Labelled ts) (htemplates : AreTemplates ts) :
    (templateContexts ts).map Prod.fst = ts.flatMap fun t => t.bodies.flatMap subtrees := by
  rw [templateContexts, inTemplates, List.map_flatMap]
  refine List.flatMap_congr fun t ht => ?_
  obtain ⟨x, hx⟩ := htemplates t ht
  obtain ⟨id, k, bs⟩ := t
  obtain rfl : k = .template x := hx
  rw [NodeTree.kind_node, NodeTree.bodies_node, List.map_flatMap]
  exact List.flatMap_congr fun b hb =>
    map_fst_contexts (fun u hu => hl u (mem_subtrees_below ht hb hu)) _

/-- A node is a root, or it stands inside one. -/
theorem mem_subtrees : t ∈ subtrees ts ↔ t ∈ ts ∨ t ∈ ts.flatMap fun u => u.bodies.flatMap subtrees := by
  induction ts with
  | nil => simp
  | cons u ts ih =>
    obtain ⟨id, k, bs⟩ := u
    rw [subtrees_cons, List.mem_cons, List.mem_append, ih, List.mem_cons, List.flatMap_cons,
      List.mem_append, NodeTree.bodies_node]
    tauto

end Contexts

end Forest

/-! ### The table -/

namespace TemplateFile

/-- **The context of a node.** Nodes at the top of a template have the context of its content. A list
that settles its context gives it to the nodes in it, and every other node hands its own context down. -/
inductive InContext (f : TemplateFile) : NodeId → OutputContext → Prop
  | template {owner id : NodeId} {t : Template} (howner : owner ∈ f.templates)
      (hkind : f.kind owner = .template t) (hid : id ∈ t.body) :
      InContext f id (.ofContent t.contentKind)
  | settled {owner id : NodeId} {body : List NodeId} {c : OutputContext} (howner : f.Reaches owner)
      (hsettles : (f.kind owner).Settles body c) (hid : id ∈ body) : InContext f id c
  | inherited {owner id : NodeId} {c : OutputContext} (howner : InContext f owner c)
      (hkind : (f.kind owner).isTransparent = true) (hid : id ∈ f.children owner) : InContext f id c

/-- The nodes inside templates with their contexts. -/
def contextTable (f : TemplateFile) : List (NodeId × OutputContext) :=
  (templateContexts (f.forest f.templates)).map fun p => (p.1.id, p.2)

section Planted

variable {f : TemplateFile} {ts : Forest} {id : NodeId} {c c' : OutputContext}

/-- The contexts of a forest are those of the nodes in the table. -/
theorem Holds.inContext_of_mem (h : f.Holds ts) (hreach : ∀ r ∈ roots ts, f.Reaches r)
    (hroots : ∀ r ∈ roots ts, f.InContext r c) {t : NodeTree} (ht : (t, c') ∈ contexts c ts) :
    f.InContext t.id c' := by
  induction ts using Forest.induct generalizing c with
  | nil => cases ht
  | cons i k bs ts ihb iht =>
    obtain ⟨hself, hrest⟩ := List.forall_mem_cons.mp hreach
    obtain ⟨hcontext, hcontexts⟩ := List.forall_mem_cons.mp hroots
    rw [contexts_cons] at ht
    obtain heq | ht := List.mem_cons.mp ht
    · obtain ⟨rfl, rfl⟩ := Prod.mk.inj heq
      exact hcontext
    · obtain ht | ht := List.mem_append.mp ht
      -- below the node: the list is handed a context, settled or inherited
      · obtain ⟨⟨b, d⟩, hbd, ht⟩ := List.mem_flatMap.mp ht
        have hb : b ∈ bs := (List.of_mem_zip hbd).1
        have hchild : ∀ r ∈ roots b, r ∈ f.children i := fun r hr => by
          rw [h.children_eq, roots_flatten]
          exact List.mem_flatten.mpr ⟨_, List.mem_map_of_mem hb, hr⟩
        -- the list is one of those that the node hands a context to
        have hd : (roots b, d) ∈ k.bodiesWithContext c := by
          rw [bodiesWithContext_of_labelled h.bodies_eq]
          exact List.mem_map_of_mem hbd
        refine ihb b hb (h.body hb) (fun r hr => .inside hself (hchild r hr)) (fun r hr => ?_) ht
        rw [← h.kind_eq] at hd
        obtain hsettles | ⟨htransparent, rfl, -⟩ := NodeKind.mem_bodiesWithContext.mp hd
        · exact .settled hself hsettles hr
        · exact .inherited hcontext htransparent (hchild r hr)
      · exact iht h.tail hrest hcontexts ht

namespace Planted

/-- **Contexts in the table and in the forest.** -/
theorem inContext_iff (h : f.Planted ts) :
    f.InContext id c ↔ ∃ t, (t, c) ∈ templateContexts ts ∧ t.id = id := by
  have hshows := h.holds.shows_nodes
  have hlabelled := h.holds.labelled
  constructor
  · intro hid
    -- nodes in a list inside a node that has a context itself
    have hinside : ∀ {o : NodeTree} {body : List NodeId} {id : NodeId} {d e : OutputContext},
        (o, d) ∈ templateContexts ts → (body, e) ∈ (f.kind o.id).bodiesWithContext d → id ∈ body →
        ∃ t, (t, e) ∈ templateContexts ts ∧ t.id = id := by
      intro o body id d e ho hbody hid
      have hsub := mem_subtrees_of_templateContexts hlabelled ho
      obtain ⟨i, x, bs, b, ht, hb, ho⟩ := mem_inTemplates.mp ho
      rw [hshows o hsub, bodiesWithContext_of_labelled (hlabelled o hsub)] at hbody
      obtain ⟨⟨l, e'⟩, hl, heq⟩ := List.mem_map.mp hbody
      obtain ⟨rfl, rfl⟩ := Prod.mk.inj heq
      obtain ⟨u, hu, rfl⟩ := List.mem_map.mp hid
      exact ⟨u, mem_inTemplates.mpr ⟨i, x, bs, b, ht, hb,
        mem_contexts_inside ho hl (mem_contexts_self e' hu)⟩, rfl⟩
    induction hid with
    -- a root of a template, in the context of its content
    | @template owner id t howner hkind hid =>
      obtain ⟨x, b, hb, hx, hbody⟩ := h.exists_node howner
      obtain rfl := NodeKind.template.inj (hkind.symm.trans hx)
      rw [hbody] at hid
      obtain ⟨u, hu, rfl⟩ := List.mem_map.mp hid
      exact ⟨u, mem_inTemplates.mpr ⟨owner, t, [b], b, hb, List.mem_singleton_self b,
        mem_contexts_self _ hu⟩, rfl⟩
    | settled howner hsettles hid =>
      obtain ⟨o, ho, rfl⟩ := List.mem_map.mp (h.reaches_iff.mp howner)
      obtain hroot | hin := mem_subtrees.mp ho
      · -- a template settles nothing in this way
        obtain ⟨x, hx⟩ := h.areTemplates o hroot
        rw [hshows o ho, hx] at hsettles
        cases hsettles
      · rw [← map_fst_templateContexts hlabelled h.areTemplates] at hin
        obtain ⟨⟨o, d⟩, hd, rfl⟩ := List.mem_map.mp hin
        exact hinside hd (NodeKind.mem_bodiesWithContext.mpr (.inl hsettles)) hid
    | inherited _ hkind hid ih =>
      obtain ⟨o, ho, rfl⟩ := ih
      obtain ⟨body, hbody, hid⟩ := List.mem_flatten.mp hid
      exact hinside ho (NodeKind.mem_bodiesWithContext.mpr (.inr ⟨hkind, rfl, hbody⟩)) hid
  · rintro ⟨t, ht, rfl⟩
    obtain ⟨i, x, bs, b, hm, hb, ht⟩ := mem_inTemplates.mp ht
    obtain ⟨htemplate, hkind, hbody⟩ := h.template_of_mem hm hb
    -- below a template the contexts start with that of its content
    refine ((h.holds.of_mem hm).body hb).inContext_of_mem (fun r hr => ?_) (fun r hr => ?_) ht
    · refine .inside (.template htemplate) ?_
      rw [children, hkind]
      exact List.mem_flatten.mpr ⟨x.body, List.mem_singleton_self _, hbody ▸ hr⟩
    · exact .template htemplate hkind (hbody ▸ hr)

/-- A node that stands in a context can be reached. -/
theorem reaches_of_inContext (h : f.Planted ts) (hid : f.InContext id c) : f.Reaches id := by
  obtain ⟨t, ht, rfl⟩ := h.inContext_iff.mp hid
  exact h.reaches_iff.mpr
    (List.mem_map_of_mem (mem_subtrees_of_templateContexts h.holds.labelled ht))

/-- No template stands in a context. -/
theorem notMem_templates_of_inContext (h : f.Planted ts) (hid : f.InContext id c) :
    id ∉ f.templates := by
  -- it stands in a list
  obtain ⟨owner, howner, hchild⟩ : ∃ owner, f.Reaches owner ∧ id ∈ f.children owner := by
    cases hid with
    | @template owner _ t howner hkind hid =>
      refine ⟨owner, .template howner, ?_⟩
      rw [children, hkind]
      exact List.mem_flatten.mpr ⟨t.body, List.mem_singleton_self _, hid⟩
    | @settled owner _ body _ howner hsettles hid =>
      refine ⟨owner, howner, List.mem_flatten.mpr ⟨body, ?_, hid⟩⟩
      rw [← NodeKind.map_fst_bodiesWithContext c]
      exact List.mem_map_of_mem (NodeKind.mem_bodiesWithContext.mpr (.inl hsettles))
    | @inherited owner _ _ howner _ hid => exact ⟨owner, h.reaches_of_inContext howner, hid⟩
  -- roots are in no list
  obtain ⟨-, -, hdisjoint⟩ := List.nodup_append'.mp h.nodup_children
  exact fun hroot =>
    hdisjoint hroot (List.mem_flatMap.mpr ⟨owner, h.reaches_iff.mp howner, hchild⟩)

/-- The nodes inside templates are met once each. -/
theorem nodup_templateContexts (h : f.Planted ts) :
    ((templateContexts ts).map fun p => p.1.id).Nodup := by
  have hmap : (templateContexts ts).map (fun p => p.1.id) =
      (ts.flatMap fun t => t.bodies.flatMap subtrees).map NodeTree.id := by
    rw [← map_fst_templateContexts h.holds.labelled h.areTemplates, List.map_map]
    rfl
  -- they are some of the nodes of the forest, in order
  have hsub : (ts.flatMap fun t => t.bodies.flatMap subtrees).Sublist (subtrees ts) := by
    clear hmap h
    induction ts with
    | nil => exact List.nil_sublist _
    | cons t ts ih =>
      obtain ⟨i, k, bs⟩ := t
      rw [List.flatMap_cons, subtrees_cons]
      exact ((List.Sublist.refl _).append ih).cons _
  rw [hmap]
  exact h.holds.nodup.sublist (hsub.map NodeTree.id)

/-- **One context.** Every reachable node that is no template stands in exactly one context. -/
theorem existsUnique_inContext (h : f.Planted ts) (hid : f.Reaches id) (hnot : id ∉ f.templates) :
    ∃! c, f.InContext id c := by
  have hfst := map_fst_templateContexts h.holds.labelled h.areTemplates
  obtain ⟨t, ht, rfl⟩ := List.mem_map.mp (h.reaches_iff.mp hid)
  have hin := (mem_subtrees.mp ht).resolve_left fun hroot =>
    hnot (h.roots_eq ▸ List.mem_map_of_mem hroot)
  rw [← hfst] at hin
  obtain ⟨⟨t, c⟩, htc, rfl⟩ := List.mem_map.mp hin
  refine ⟨c, h.inContext_iff.mpr ⟨t, htc, rfl⟩, fun c' hc' => ?_⟩
  -- the node is met once, so both contexts come with the same entry
  obtain ⟨u, hu, heq⟩ := h.inContext_iff.mp hc'
  have hpair := List.inj_on_of_nodup_map h.nodup_templateContexts hu htc heq
  exact congrArg Prod.snd hpair

/-- Contexts can be computed. -/
theorem mem_contextTable (h : f.Planted ts) : (id, c) ∈ f.contextTable ↔ f.InContext id c := by
  rw [h.inContext_iff, contextTable, ← h.roots_eq, h.holds.forest_roots]
  constructor
  · intro hmem
    obtain ⟨⟨t, d⟩, ht, heq⟩ := List.mem_map.mp hmem
    obtain ⟨rfl, rfl⟩ := Prod.mk.inj heq
    exact ⟨t, ht, rfl⟩
  · rintro ⟨t, ht, rfl⟩
    exact List.mem_map.mpr ⟨(t, c), ht, rfl⟩

end Planted

end Planted

end TemplateFile

end TemplateFrontend
