import TemplateFrontend.Proofs.Transform.Spelling
import TemplateFrontend.Transform.Lowering
/-!
# State as bindings

The declarations of state of an element template become nodes at the start of its body. The nodes are
new, and get the next numbers in the order of declaration.

* `Template.bindings`, `Forest.bindingNodes` — the declarations that become bindings, and their nodes;
* `Forest.bindState` — the forest of templates with the nodes added;
* `TemplateFile.Holds.lowerState` — the step for one template;
* `TemplateFile.Holds.bindState` — the step for every template of a file.
-/

namespace TemplateFrontend

/-- The declarations that become bindings: those of an element. -/
def Template.bindings (t : Template) : List StateDecl :=
  if t.kind = .element then t.state else []

/-- What the bindings of a template spell, if their nodes are numbered from `n`. -/
def Template.boundState (t : Template) (n : NodeId) : List Emitted :=
  (t.bindings.zipIdx n).map fun (d, i) => .enter i (.binding d.name (.value d.initial))

/-- The template with its state turned into the nodes of a list. -/
def Template.withBindings (t : Template) (ids : List NodeId) : Template :=
  if t.kind = .element then { t with state := [], body := ids ++ t.body } else t

namespace Forest

/-- The nodes of bindings, numbered from `n`. -/
def bindingNodes : (n : NodeId) → List StateDecl → Forest
  | _, [] => []
  | n, d :: ds => .node n (.binding d.name (.value d.initial)) [] :: bindingNodes (n + 1) ds

/-- The templates with the nodes of their state in front of their bodies; the nodes are numbered from
`n`. -/
def bindState : (n : NodeId) → Forest → Forest
  | _, [] => []
  | n, .node id k bs :: ts =>
    match k with
    | .template t =>
      let nodes := bindingNodes n t.bindings
      .node id (.template (t.withBindings (roots nodes))) (bs.map (nodes ++ ·)) ::
        bindState (n + t.bindings.length) ts
    | _ => .node id k bs :: bindState n ts

section BindingNodes

variable {n : NodeId} {ds : List StateDecl}

theorem ids_bindingNodes (n : NodeId) (ds : List StateDecl) :
    ids (bindingNodes n ds) = List.range' n ds.length := by
  induction ds generalizing n with
  | nil => rfl
  | cons d ds ih =>
    rw [bindingNodes, ids_cons, List.flatMap_nil, List.nil_append, ih, List.length_cons,
      List.range'_succ]

theorem labelled_bindingNodes (n : NodeId) (ds : List StateDecl) : Labelled (bindingNodes n ds) := by
  induction ds generalizing n with
  | nil => exact labelled_nil
  | cons d ds ih =>
    rw [bindingNodes, labelled_cons]
    exact ⟨rfl, fun _ hb => absurd hb List.not_mem_nil, ih (n + 1)⟩

/-- What bindings spell. -/
theorem spell_bindingNodes (t : Template) (n : NodeId) :
    spell (bindingNodes n t.bindings) = t.boundState n := by
  rw [Template.boundState]
  generalize t.bindings = ds
  induction ds generalizing n with
  | nil => rfl
  | cons d ds ih =>
    rw [bindingNodes, spell_cons, ih, List.zipIdx_cons, List.map_cons]
    rfl

end BindingNodes

/-- A template in a forest, with its state in front of its body. -/
theorem mem_bindState {n : NodeId} {ts : Forest} {id : NodeId} {t : Template} {b : Forest}
    (hm : .node id (.template t) [b] ∈ ts) :
    ∃ m ≥ n, ∃ t', .node id (.template t') [bindingNodes m t.bindings ++ b] ∈ bindState n ts := by
  induction ts generalizing n with
  | nil => exact absurd hm List.not_mem_nil
  | cons u ts ih =>
    obtain ⟨i, k, bs⟩ := u
    rcases List.mem_cons.mp hm with he | htail
    · obtain ⟨rfl, rfl, rfl⟩ := NodeTree.node.inj he
      exact ⟨n, Nat.le_refl _, _, List.mem_cons_self⟩
    · cases k with
      -- a template before it takes as many numbers as it has bindings
      | template u =>
        obtain ⟨m, hle, t', ht'⟩ := ih (n := n + u.bindings.length) htail
        exact ⟨m, Nat.le_trans (Nat.le_add_right _ _) hle, t', List.mem_cons_of_mem _ ht'⟩
      | _ =>
        obtain ⟨m, hle, t', ht'⟩ := ih (n := n) htail
        exact ⟨m, hle, t', List.mem_cons_of_mem _ ht'⟩

theorem roots_bindState (n : NodeId) (ts : Forest) : roots (bindState n ts) = roots ts := by
  induction ts generalizing n with
  | nil => rfl
  | cons u ts ih =>
    obtain ⟨i, k, bs⟩ := u
    cases k <;> exact congrArg (i :: ·) (ih _)

theorem areTemplates_bindState {ts : Forest} (h : AreTemplates ts) (n : NodeId) :
    AreTemplates (bindState n ts) := by
  induction ts generalizing n with
  | nil => exact h
  | cons u ts ih =>
    obtain ⟨⟨t, ht⟩, hts⟩ := List.forall_mem_cons.mp h
    obtain ⟨i, k, bs⟩ := u
    obtain rfl : k = .template t := ht
    exact List.forall_mem_cons.mpr ⟨⟨_, rfl⟩, ih hts _⟩

end Forest

namespace TemplateFile

open Forest

section Lowering

variable {f : TemplateFile} {id : NodeId} {t : Template} {b ts done : Forest}

/-- The nodes of the bindings are added at the end of the table. -/
theorem addBindings_spec (f : TemplateFile) (ds : List StateDecl) :
    (f.addBindings ds).2 = roots (bindingNodes f.nodes.size ds) ∧
      (f.addBindings ds).1.Shows (bindingNodes f.nodes.size ds) ∧
      (f.addBindings ds).1.nodes.size = f.nodes.size + ds.length ∧
      ChangesOnly [] f (f.addBindings ds).1 := by
  induction ds generalizing f with
  | nil => exact ⟨rfl, shows_nil, rfl, ChangesOnly.refl _ _⟩
  | cons d ds ih =>
    obtain ⟨f', hf'⟩ : ∃ f', f' = (f.add (.binding d.name (.value d.initial)) d.span).1 := ⟨_, rfl⟩
    have hsize : f'.nodes.size = f.nodes.size + 1 := hf' ▸ size_add f _ d.span
    have hadd : ChangesOnly [] f f' := hf' ▸ ChangesOnly.add f _ d.span
    -- the first binding takes the next number
    have hself : f'.kind f.nodes.size = .binding d.name (.value d.initial) :=
      hf' ▸ kind_add_self f _ d.span
    -- and the others follow it without touching it
    obtain ⟨hids, hshows, hlast, hchange⟩ := ih f'
    have hrun : f.addBindings (d :: ds)
        = ((f'.addBindings ds).1, f.nodes.size :: (f'.addBindings ds).2) := by
      rw [hf']
      rfl
    rw [hsize] at hids hshows
    rw [hrun]
    refine ⟨congrArg (f.nodes.size :: ·) hids, ?_, ?_, hadd.trans hchange⟩
    · refine shows_cons.mpr ⟨?_, fun _ hc => absurd hc List.not_mem_nil, hshows⟩
      refine (hchange.kind_eq f.nodes.size ?_ List.not_mem_nil).trans hself
      rw [hsize]
      exact Nat.lt_succ_self _
    · rw [hlast, hsize, List.length_cons, Nat.add_assoc, Nat.add_comm 1]

/-- A node at the top of a forest may take new nodes into its list. -/
private theorem nodup_insert {done new here rest : List NodeId} {id n : NodeId}
    (h : (done ++ id :: (here ++ rest)).Nodup) (hlt : ∀ x ∈ done ++ id :: (here ++ rest), x < n)
    (hnew : new.Nodup) (hge : ∀ x ∈ new, n ≤ x) :
    (done ++ id :: ((new ++ here) ++ rest)).Nodup := by
  have hperm : (new ++ (done ++ id :: (here ++ rest))).Perm
      (done ++ id :: ((new ++ here) ++ rest)) := by
    refine List.perm_iff_count.mpr fun a => ?_
    simp only [List.count_append, List.count_cons]
    omega
  refine hperm.nodup_iff.mp (List.nodup_append'.mpr ⟨hnew, h, fun x hx hxh => ?_⟩)
  exact Nat.not_lt.mpr (hge x hx) (hlt x hxh)

/-- A template at the top of a forest that takes new nodes into its list. -/
private theorem Holds.insertNodes {g : TemplateFile} {t' : Template} {nodes : Forest}
    (h : f.Holds (done ++ .node id (.template t) [b] :: ts)) (hchange : ChangesOnly [] f g)
    (hshows : g.Shows nodes) (hl : Labelled nodes) (hn : (ids nodes).Nodup)
    (hge : ∀ x ∈ ids nodes, f.nodes.size ≤ x) (hlt : ∀ x ∈ ids nodes, x < g.nodes.size)
    (hbody : t'.body = roots nodes ++ t.body) :
    (g.setKind id (.template t')).Holds
      (done ++ .node id (.template t') [nodes ++ b] :: ts) := by
  have hids : ∀ c : Forest, ∀ k, ids (done ++ .node id k [c] :: ts)
      = ids done ++ id :: (ids c ++ ids ts) := by
    intro c k
    rw [ids_append, ids_cons, List.flatMap_singleton]
  have hnodup := h.nodup
  have hold := h.lt_size
  rw [hids] at hnodup hold
  have hid : id < g.nodes.size := by
    refine Nat.lt_of_lt_of_le (hold id ?_) hchange.size_le
    exact List.mem_append_right _ List.mem_cons_self
  -- the other nodes are as they were
  have hset := ChangesOnly.setKind (S := [id]) (f := g) (List.mem_singleton.mpr rfl) (.template t')
  have hkeep : ∀ x, x < g.nodes.size → x ≠ id → (g.setKind id (.template t')).kind x = g.kind x :=
    fun x hx hne => hset.kind_eq x hx fun hm => hne (List.mem_singleton.mp hm)
  obtain ⟨-, hnodup', hdisj⟩ := List.nodup_append'.mp hnodup
  obtain ⟨hinside, -⟩ := List.nodup_cons.mp hnodup'
  -- a forest of other nodes is shown as before
  have hkeepOld : ∀ us : Forest, ids us ⊆ ids done ++ (ids b ++ ids ts) → f.Shows us →
      (g.setKind id (.template t')).Shows us := by
    intro us hsub hus
    refine hus.congr fun x hx => ?_
    have hmem : x ∈ ids done ++ id :: (ids b ++ ids ts) := by
      rcases List.mem_append.mp (hsub hx) with hx | hx
      · exact List.mem_append_left _ hx
      · exact List.mem_append_right _ (List.mem_cons_of_mem _ hx)
    rw [hkeep x (Nat.lt_of_lt_of_le (hold x hmem) hchange.size_le) fun he => ?_,
      hchange.kind_eq x (hold x hmem) List.not_mem_nil]
    subst he
    rcases List.mem_append.mp (hsub hx) with hx | hx
    · exact hdisj hx List.mem_cons_self
    · exact hinside hx
  obtain ⟨hshowsDone, hshowsHere⟩ := shows_append.mp h.shows_nodes
  obtain ⟨-, hshowsBody, hshowsRest⟩ := shows_cons.mp hshowsHere
  obtain ⟨hlDone, hlHere⟩ := labelled_append.mp h.labelled
  obtain ⟨hlKind, hlBody, hlRest⟩ := labelled_cons.mp hlHere
  have hbodyOld : t.body = roots b := List.singleton_inj.mp hlKind
  refine ⟨shows_append.mpr ⟨?_, shows_cons.mpr ⟨?_, List.forall_mem_singleton.mpr ?_, ?_⟩⟩,
    labelled_append.mpr ⟨hlDone, labelled_cons.mpr ⟨?_, List.forall_mem_singleton.mpr ?_, hlRest⟩⟩,
    ?_, fun x hx => ?_⟩
  · exact hkeepOld done (List.subset_append_left _ _) hshowsDone
  · exact kind_setKind_self g _ hid
  · refine shows_append.mpr ⟨hshows.congr fun x hx => ?_, ?_⟩
    · refine hkeep x (hlt x hx) fun he => ?_
      refine Nat.not_lt.mpr (hge x hx) (hold x (he ▸ ?_))
      exact List.mem_append_right _ List.mem_cons_self
    · refine hkeepOld b ?_ (hshowsBody b (List.mem_singleton.mpr rfl))
      exact fun x hx => List.mem_append_right _ (List.mem_append_left _ hx)
  · refine hkeepOld ts ?_ hshowsRest
    exact fun x hx => List.mem_append_right _ (List.mem_append_right _ hx)
  · change [t'.body] = [roots (nodes ++ b)]
    rw [hbody, hbodyOld, roots_append]
  · exact labelled_append.mpr ⟨hl, hlBody b (List.mem_singleton.mpr rfl)⟩
  · rw [hids, ids_append]
    exact nodup_insert hnodup hold hn hge
  · rw [hids, ids_append] at hx
    rw [size_setKind]
    -- a new node, or one that was there
    have hcases : x ∈ ids nodes ∨ x ∈ ids done ++ id :: (ids b ++ ids ts) := by
      simp only [List.mem_append, List.mem_cons] at hx ⊢
      tauto
    rcases hcases with hx | hx
    · exact hlt x hx
    · exact Nat.lt_of_lt_of_le (hold x hx) hchange.size_le

/-- **The state of one template.** -/
theorem Holds.lowerState (h : f.Holds (done ++ .node id (.template t) [b] :: ts)) :
    (f.lowerState id t).Holds (done ++ .node id (.template (t.withBindings
        (roots (bindingNodes f.nodes.size t.bindings)))) [bindingNodes f.nodes.size t.bindings ++ b]
          :: ts) ∧
      (f.lowerState id t).nodes.size = f.nodes.size + t.bindings.length ∧
      (f.lowerState id t).templates = f.templates := by
  by_cases helement : t.kind = .element
  · obtain ⟨hids, hshows, hsize, hchange⟩ := addBindings_spec f t.state
    -- only the state of an element is bound
    have hbindings : t.bindings = t.state := if_pos helement
    have hrun : f.lowerState id t = (f.addBindings t.state).1.setKind id
        (.template (t.withBindings (f.addBindings t.state).2)) := by
      rw [TemplateFile.lowerState, if_pos helement, Template.withBindings, if_pos helement]
    rw [hrun, hbindings, hids]
    refine ⟨h.insertNodes hchange hshows (labelled_bindingNodes _ _) ?_ ?_ ?_ ?_, ?_,
      hchange.templates_eq⟩
    · rw [ids_bindingNodes]
      exact List.nodup_range'
    · rw [ids_bindingNodes]
      exact fun x hx => (List.mem_range'_1.mp hx).1
    · rw [ids_bindingNodes, hsize]
      exact fun x hx => (List.mem_range'_1.mp hx).2
    · rw [Template.withBindings, if_pos helement]
    · rw [size_setKind, hsize]
  -- any other template is left as it is
  · have hbindings : t.bindings = [] := if_neg helement
    have hrun : f.lowerState id t = f := if_neg helement
    have hsame : t.withBindings [] = t := if_neg helement
    rw [hrun, hbindings, bindingNodes, roots_nil, hsame]
    exact ⟨h, rfl, rfl⟩

/-- **The state of all templates.** -/
theorem Holds.lowerStates (h : f.Holds (done ++ ts)) (htemplates : AreTemplates ts)
    {pairs : List (NodeId × Template)}
    (hpairs : ts.map (fun u => (u.id, u.kind)) = pairs.map fun p => (p.1, .template p.2)) :
    (pairs.foldl (fun f p => f.lowerState p.1 p.2) f).Holds
        (done ++ bindState f.nodes.size ts) ∧
      f.nodes.size ≤ (pairs.foldl (fun f p => f.lowerState p.1 p.2) f).nodes.size ∧
      (pairs.foldl (fun f p => f.lowerState p.1 p.2) f).templates = f.templates := by
  induction ts generalizing f done pairs with
  | nil =>
    obtain rfl : pairs = [] := List.map_eq_nil_iff.mp hpairs.symm
    exact ⟨h, Nat.le_refl _, rfl⟩
  | cons u ts ih =>
    obtain ⟨⟨t, ht⟩, hts⟩ := List.forall_mem_cons.mp htemplates
    obtain ⟨p, rest, rfl, hp, hrest⟩ := List.map_eq_cons_iff.mp hpairs.symm
    -- a template has one list, its body
    obtain ⟨b, rfl⟩ : ∃ b, u = .node p.1 (.template p.2) [b] := by
      have hu := (labelled_append.mp h.labelled).2 u (mem_subtrees_self List.mem_cons_self)
      obtain ⟨i, k, bs⟩ := u
      obtain ⟨rfl, rfl⟩ := Prod.mk.inj hp
      have hlen := congrArg List.length hu
      rw [List.length_map] at hlen
      obtain ⟨b, rfl⟩ := List.length_eq_one_iff.mp hlen.symm
      exact ⟨b, rfl⟩
    obtain ⟨hstep, hsize, htempl⟩ := h.lowerState
    -- the template that is done moves to the front
    have hsplit : ∀ v : NodeTree, ∀ vs : Forest, done ++ v :: vs = (done ++ [v]) ++ vs := by
      intro v vs
      rw [List.append_assoc, List.singleton_append]
    rw [hsplit] at hstep
    obtain ⟨hall, hle, htempl'⟩ := ih hstep hts hrest.symm
    rw [hsize] at hall hle
    rw [List.foldl_cons]
    refine ⟨?_, Nat.le_trans (Nat.le_add_right _ _) hle, htempl'.trans htempl⟩
    rw [← hsplit] at hall
    exact hall

end Lowering

end TemplateFile

end TemplateFrontend
