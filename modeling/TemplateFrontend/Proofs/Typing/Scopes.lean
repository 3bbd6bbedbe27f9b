import TemplateFrontend.Proofs.Check.Undeclared
/-!
# The scopes of types

Types are given to variables by a walk of its own, which keeps a stack of names with types. It puts
something on the stack where the walk over names does, and takes it off where that does: at every node,
the stack of types is the stack of names with the types of what binds them, the header below it.

* `Expr.varsTyped_infer` — a variable takes its type from the stack;
* `TemplateFile.typesIn` — the stack of types that a stack of binders stands for;
* `TemplateFile.Typed` — nodes typed in the stacks that belong to them;
* `TemplateFile.typeNodes_typed` — what the walk over a list does, by induction on the forest;
* `TemplateFile.Planted.resolveTypes_typed` — what typing a file does.
-/

namespace TemplateFrontend

open Forest TemplateFile

/-! ### Variables in typed expressions -/

namespace Expr

/-- The variables in the expression have the types that the stack has for them. -/
def VarsTyped (scope : TypeScope) (e : Expr) : Prop :=
  ∀ n x, .var n x ∈ e.subexprs → n.type = some (scope.typeOf x)

/-- **A variable takes its type from the stack.** -/
theorem varsTyped_infer (r : Resolver) (scope : TypeScope) (e : Expr) :
    (e.infer r scope).1.VarsTyped scope := by
  intro n x hmem
  rw [subexprs_infer] at hmem
  obtain ⟨p, -, hp⟩ := List.mem_map.mp hmem
  -- only a variable becomes one by being typed
  cases p with
  | var m y =>
    obtain ⟨rfl, rfl⟩ := Expr.var.inj hp
    rfl
  | call m y as c => cases c <;> cases hp
  | method m b y as c =>
    rw [infer] at hp
    dsimp only at hp
    split at hp <;> cases hp
  | unary m op a => cases op <;> cases hp
  | _ => cases hp

end Expr

/-! ### Stacks of binders -/

namespace TemplateFile

/-- The type of what a node binds: of the items that a loop runs over, of the value or the content of a
`{let}`. -/
def boundType (f : TemplateFile) (b : NodeId) : ValueType :=
  match f.kind b with
  | .loop _ list _ => (loopItem list).1
  | .binding _ bound => bound.type
  | _ => .unknown

/-- The stack of types of a stack of binders, above the types `header`. -/
def typesIn (f : TemplateFile) (header : TypeScope) (scope : Scope) : TypeScope :=
  scope.map (fun p => (p.1, f.boundType p.2)) ++ header

section Stacks

variable {f g : TemplateFile} {header : TypeScope} {scope : Scope}

theorem typesIn_nil (f : TemplateFile) (header : TypeScope) : f.typesIn header [] = header := rfl

theorem typesIn_cons (f : TemplateFile) (header : TypeScope) (p : String × NodeId) (scope : Scope) :
    f.typesIn header (p :: scope) = (p.1, f.boundType p.2) :: f.typesIn header scope := rfl

/-- Only the kinds of the binders matter for their types. -/
theorem typesIn_congr (h : ∀ p ∈ scope, g.kind p.2 = f.kind p.2) :
    g.typesIn header scope = f.typesIn header scope := by
  rw [typesIn, typesIn]
  refine congrArg (· ++ header) (List.map_congr_left fun p hp => ?_)
  rw [boundType, boundType, h p hp]

/-- The binders of a stack are nodes of the table, none of them among those in `T`. -/
def ScopeOutside (f : TemplateFile) (T : List NodeId) (scope : Scope) : Prop :=
  ∀ p ∈ scope, p.2 < f.nodes.size ∧ p.2 ∉ T

/-- Fewer nodes, or a longer table. -/
theorem ScopeOutside.mono {S T : List NodeId} (h : f.ScopeOutside T scope) (hs : S ⊆ T)
    (hsize : f.nodes.size ≤ g.nodes.size) : g.ScopeOutside S scope := fun p hp =>
  ⟨Nat.lt_of_lt_of_le (h p hp).1 hsize, fun hmem => (h p hp).2 (hs hmem)⟩

/-- What a node binds stands outside of a list that does not hold the node. -/
theorem ScopeOutside.own {T : List NodeId} {own : Scope} {id : NodeId} (hown : ∀ p ∈ own, p.2 = id)
    (hlt : id < f.nodes.size) (hnot : id ∉ T) (h : f.ScopeOutside T scope) :
    f.ScopeOutside T (own ++ scope) := by
  intro p hp
  obtain hp | hp := List.mem_append.mp hp
  · rw [hown p hp]
    exact ⟨hlt, hnot⟩
  · exact h p hp

/-- A change of other nodes leaves the types of a stack alone. -/
theorem ChangesOnly.typesIn_eq {T : List NodeId} (hc : ChangesOnly T f g) (h : f.ScopeOutside T scope) :
    g.typesIn header scope = f.typesIn header scope :=
  typesIn_congr fun p hp => hc.kind_eq p.2 (h p hp).1 (h p hp).2

end Stacks

end TemplateFile

namespace Forest

/-- A binder is a node of the forest that it binds something in. -/
theorem Binds.binder_mem {p : String × NodeId} {id : NodeId} {ts : Forest} (h : Binds p id ts) :
    p.2 ∈ ids ts := by
  induction h with
  | inside hp _ =>
    rw [(NodeKind.mem_scopeInside.mp hp).1]
    exact roots_subset_ids _ List.mem_cons_self
  -- a binder that reaches behind itself stands in the list as well
  | after hp _ =>
    rw [(NodeKind.mem_scopeAfter.mp hp).1]
    exact roots_subset_ids _ List.mem_cons_self
  | body hb _ ih => exact mem_ids_of_mem_body List.mem_cons_self hb ih
  | rest _ ih =>
    rw [ids_cons]
    exact List.mem_cons_of_mem _ (List.mem_append_right _ ih)

/-- What is in scope in a forest was so before, or is bound by a node of the forest. -/
theorem mem_scope_cases {f : TemplateFile} {ts : Forest} (hf : f.Holds ts) {scope s : Scope}
    {t : NodeTree} (ht : (t, s) ∈ scopes scope ts) {p : String × NodeId} (hp : p ∈ s) :
    p ∈ scope ∨ p.2 ∈ ids ts :=
  ((mem_scope_iff hf ht).mp hp).imp_right Binds.binder_mem

/-- The scopes of a list are those of its nodes, each node once. -/
theorem map_id_scopes (scope : Scope) (ts : Forest) :
    (scopes scope ts).map (fun p => p.1.id) = ids ts := by
  rw [ids, ← map_fst_scopes scope ts, List.map_map]
  rfl

/-- The same for several lists. -/
theorem map_id_flatMap_scopes (scope : Scope) (bs : List Forest) :
    ((bs.flatMap (scopes scope)).map fun p => p.1.id) = bs.flatMap ids := by
  rw [List.map_flatMap]
  exact List.flatMap_congr fun b _ => map_id_scopes scope b

end Forest

namespace TemplateFile

/-! ### Nodes typed -/

/-- `g` is `f` with the expressions of some nodes typed, each in the types of its own stack. -/
structure Typed (r : Resolver) (header : TypeScope) (ps : List (NodeTree × Scope))
    (f g : TemplateFile) : Prop where
  changes : ChangesOnly (ps.map fun p => p.1.id) f g
  kind_eq : ∀ p ∈ ps, g.kind p.1.id =
    (f.kind p.1.id).mapExprs fun e => (e.infer r (g.typesIn header p.2)).1

namespace Typed

variable {r : Resolver} {header : TypeScope} {ps qs : List (NodeTree × Scope)} {f g h : TemplateFile}

/-- No node is typed. -/
theorem nil (f : TemplateFile) : Typed r header [] f f :=
  ⟨.refl _ f, fun _ hp => nomatch hp⟩

/-- First some nodes, then others: what the first ones have in scope is not among the others. -/
theorem append (h₁ : Typed r header ps f g) (h₂ : Typed r header qs g h)
    (hlt : ∀ q ∈ ps ++ qs, q.1.id < f.nodes.size)
    (hdisj : (ps.map fun p => p.1.id).Disjoint (qs.map fun p => p.1.id))
    (hscope : ∀ p ∈ ps, f.ScopeOutside (qs.map fun p => p.1.id) p.2) :
    Typed r header (ps ++ qs) f h where
  changes := by
    rw [List.map_append]
    exact h₁.changes.trans h₂.changes
  kind_eq q hq := by
    have hsize := h₁.changes.size_le
    have hqlt := hlt q hq
    -- a node of the first ones keeps the types that it got, since its binders are not typed later
    obtain hq | hq := List.mem_append.mp hq
    · have hnot : q.1.id ∉ qs.map fun p => p.1.id := fun hmem => hdisj (List.mem_map_of_mem hq) hmem
      rw [h₂.changes.kind_eq _ (Nat.lt_of_lt_of_le hqlt hsize) hnot, h₁.kind_eq q hq,
        h₂.changes.typesIn_eq ((hscope q hq).mono (List.Subset.refl _) hsize)]
    · have hnot : q.1.id ∉ ps.map fun p => p.1.id := fun hmem => hdisj hmem (List.mem_map_of_mem hq)
      rw [h₂.kind_eq q hq, h₁.changes.kind_eq _ hqlt hnot]

/-- The order of the nodes does not matter. -/
theorem perm (h : Typed r header ps f g) (hperm : ps.Perm qs) : Typed r header qs f g where
  changes := h.changes.mono (hperm.map _).subset
  kind_eq q hq := h.kind_eq q (hperm.mem_iff.mpr hq)

/-- One node typed. -/
theorem setKind {t : NodeTree} {scope : Scope} (hlt : t.id < f.nodes.size)
    (hscope : f.ScopeOutside [t.id] scope) :
    Typed r header [(t, scope)] f (f.setKind t.id
      ((f.kind t.id).mapExprs fun e => (e.infer r (f.typesIn header scope)).1)) := by
  have hchanges : ChangesOnly [t.id] f (f.setKind t.id
      ((f.kind t.id).mapExprs fun e => (e.infer r (f.typesIn header scope)).1)) :=
    ChangesOnly.setKind (List.mem_singleton_self _) _
  refine ⟨hchanges, List.forall_mem_singleton.mpr ?_⟩
  rw [kind_setKind_self f _ hlt, hchanges.typesIn_eq hscope]

end Typed

section Lists

variable {r : Resolver} {header : TypeScope} {f : TemplateFile} {bs : List Forest} {scope : Scope}
  {types : TemplateFile → List NodeId → TemplateFile}

/-- Several lists in one scope, one after the other. -/
theorem typed_lists
    (htypes : ∀ b ∈ bs, ∀ g : TemplateFile, g.Holds b → g.ScopeOutside (ids b) scope →
      g.typesIn header scope = f.typesIn header scope →
      Typed r header (scopes scope b) g (types g (roots b)))
    (hf : f.Holds bs.flatten) (hscope : f.ScopeOutside (bs.flatMap ids) scope) :
    Typed r header (bs.flatMap (scopes scope)) f ((bs.map roots).foldl types f) := by
  -- by induction on the lists that are left, in the file after those before them
  suffices hgeneral : ∀ (cs : List Forest) (g : TemplateFile), cs ⊆ bs → g.Holds cs.flatten →
      g.ScopeOutside (cs.flatMap ids) scope → g.typesIn header scope = f.typesIn header scope →
      Typed r header (cs.flatMap (scopes scope)) g ((cs.map roots).foldl types g) from
    hgeneral bs f (List.Subset.refl _) hf hscope rfl
  intro cs
  induction cs with
  | nil => exact fun g _ _ _ _ => .nil g
  | cons c cs ih =>
    intro g hsub hg hout heq
    rw [List.flatten_cons] at hg
    rw [List.flatMap_cons] at hout
    have hc : g.Holds c := hg.of_sublist (by rw [subtrees_append]; exact List.sublist_append_left _ _)
    have hcs : g.Holds cs.flatten :=
      hg.of_sublist (by rw [subtrees_append]; exact List.sublist_append_right _ _)
    have hdisj : (ids c).Disjoint (cs.flatMap ids) := by
      have hnodup := hg.nodup
      rw [ids_append, ids_flatten] at hnodup
      exact (List.nodup_append'.mp hnodup).2.2
    have houtc : g.ScopeOutside (ids c) scope := hout.mono (List.subset_append_left _ _) (Nat.le_refl _)
    have hfirst := htypes c (hsub List.mem_cons_self) g hc houtc heq
    have hchanges : ChangesOnly (ids c) g (types g (roots c)) := map_id_scopes scope c ▸ hfirst.changes
    have hrest := ih (types g (roots c)) (fun b hb => hsub (List.mem_cons_of_mem _ hb))
      (hcs.of_shows hchanges.size_le (hchanges.shows hcs.shows_nodes hcs.lt_size
        (by rw [ids_flatten]; exact hdisj)))
      (hout.mono (List.subset_append_right _ _) hchanges.size_le) ((hchanges.typesIn_eq houtc).trans heq)
    rw [List.flatMap_cons]
    refine hfirst.append hrest ?_ ?_ ?_
    · intro q hq
      refine hg.lt_size _ ?_
      rw [ids_append, ids_flatten, ← map_id_flatMap_scopes scope cs, ← map_id_scopes scope c,
        ← List.map_append]
      exact List.mem_map_of_mem hq
    · rw [map_id_scopes, map_id_flatMap_scopes]
      exact hdisj
    -- what is in scope at a node of the first list is bound around the lists or in the first one, not in
    -- the others
    · intro p hp q hq
      rw [map_id_flatMap_scopes]
      obtain hq | hq := mem_scope_cases hc hp hq
      · exact ⟨(hout q hq).1, fun hmem => (hout q hq).2 (List.mem_append_right _ hmem)⟩
      · exact ⟨hc.lt_size _ hq, fun hmem => hdisj hq hmem⟩

end Lists

/-! ### One node -/

section Node

variable {r : Resolver} {header : TypeScope} {f : TemplateFile} {id : NodeId} {k : NodeKind}
  {bs : List Forest} {scope : Scope}

/-- What is in scope inside a node stands outside of its lists. -/
theorem ScopeOutside.inside (hf : f.Holds [.node id k bs])
    (hscope : f.ScopeOutside (id :: bs.flatMap ids) scope) :
    f.ScopeOutside (bs.flatMap ids) (k.scopeInside id ++ scope) :=
  .own (fun _ hp => (NodeKind.mem_scopeInside.mp hp).1) hf.root_lt hf.root_notMem_inside
    (hscope.mono (List.subset_cons_self _ _) (Nat.le_refl _))

variable {types : TemplateFile → List NodeId → TemplateFile}

/-- A node typed before the lists inside it. -/
theorem typed_node_lists {f₁ : TemplateFile} (hf : f.Holds [.node id k bs])
    (hscope : f.ScopeOutside (id :: bs.flatMap ids) scope)
    (hset : f₁ = f.setKind id (k.mapExprs fun e => (e.infer r (f.typesIn header scope)).1))
    (htypes : ∀ b ∈ bs, ∀ g : TemplateFile, g.Holds b →
      g.ScopeOutside (ids b) (k.scopeInside id ++ scope) →
      g.typesIn header (k.scopeInside id ++ scope) = f₁.typesIn header (k.scopeInside id ++ scope) →
      Typed r header (scopes (k.scopeInside id ++ scope) b) g (types g (roots b))) :
    Typed r header ((.node id k bs, scope) :: bs.flatMap (scopes (k.scopeInside id ++ scope))) f
      (k.bodies.foldl types f₁) := by
  have hself : Typed r header [(.node id k bs, scope)] f f₁ := by
    have hout : f.ScopeOutside [id] scope :=
      hscope.mono (List.cons_subset_cons _ (List.nil_subset _)) (Nat.le_refl _)
    rw [hset, ← hf.kind_eq]
    exact .setKind (t := .node id (f.kind id) bs) hf.root_lt hout
  have hchanges : ChangesOnly [id] f f₁ := hself.changes
  -- the node itself is none of those in its lists
  have hinside : f₁.Holds bs.flatten := by
    refine hf.inside.of_shows hchanges.size_le
      (hchanges.shows hf.inside.shows_nodes hf.inside.lt_size ?_)
    rw [ids_flatten, List.singleton_disjoint]
    exact hf.root_notMem_inside
  have hout := hscope.inside hf
  -- the lists are typed in the scope that the node makes for them
  have hlists := typed_lists htypes hinside (hout.mono (List.Subset.refl _) hchanges.size_le)
  rw [hf.bodies_eq]
  change Typed r header ([(.node id k bs, scope)] ++ bs.flatMap (scopes _)) f _
  refine hself.append hlists ?_ ?_ (List.forall_mem_singleton.mpr ?_)
  · intro q hq
    refine hf.lt_size_head _ ?_
    rw [← map_id_flatMap_scopes (k.scopeInside id ++ scope) bs]
    obtain hq | hq := List.mem_append.mp hq
    · rw [List.mem_singleton.mp hq]
      exact List.mem_cons_self
    · exact List.mem_cons_of_mem _ (List.mem_map_of_mem hq)
  · rw [map_id_flatMap_scopes]
    exact List.singleton_disjoint.mpr hf.root_notMem_inside
  · rw [map_id_flatMap_scopes]
    exact hscope.mono (List.subset_cons_self _ _) (Nat.le_refl _)

/-- A node typed after the lists inside it, which binds nothing for them. -/
theorem typed_lists_node (hf : f.Holds [.node id k bs])
    (hscope : f.ScopeOutside (id :: bs.flatMap ids) scope) (hinside : k.scopeInside id = [])
    (htypes : ∀ b ∈ bs, ∀ g : TemplateFile, g.Holds b → g.ScopeOutside (ids b) scope →
      g.typesIn header scope = f.typesIn header scope →
      Typed r header (scopes scope b) g (types g (roots b))) :
    Typed r header ((.node id k bs, scope) :: bs.flatMap (scopes (k.scopeInside id ++ scope))) f
      ((k.bodies.foldl types f).setKind id
        (k.mapExprs fun e => (e.infer r (f.typesIn header scope)).1)) := by
  have hout : f.ScopeOutside (bs.flatMap ids) scope := by
    have hout := hscope.inside hf
    rwa [hinside] at hout
  have hlists := typed_lists htypes hf.inside hout
  -- typing a list changes the nodes in it only
  have hchanges : ChangesOnly (bs.flatMap ids) f ((bs.map roots).foldl types f) :=
    map_id_flatMap_scopes scope bs ▸ hlists.changes
  have hlt := Nat.lt_of_lt_of_le hf.root_lt hchanges.size_le
  have houtSelf : ((bs.map roots).foldl types f).ScopeOutside [id] scope :=
    hscope.mono (List.cons_subset_cons _ (List.nil_subset _)) hchanges.size_le
  -- the lists have left the node and its scope alone
  have hself : Typed r header [(.node id k bs, scope)] ((bs.map roots).foldl types f)
      (((bs.map roots).foldl types f).setKind id
        (k.mapExprs fun e => (e.infer r (f.typesIn header scope)).1)) := by
    have hset : Typed r header [(.node id k bs, scope)] _ _ := .setKind hlt houtSelf
    rw [NodeTree.id_node, hchanges.typesIn_eq hout,
      hchanges.kind_eq id hf.root_lt hf.root_notMem_inside, hf.kind_eq] at hset
    exact hset
  rw [hf.bodies_eq, hinside, List.nil_append]
  -- the scopes list the node first, although it is typed last
  refine (hlists.append hself ?_ ?_ ?_).perm List.perm_append_comm
  · intro q hq
    refine hf.lt_size_head _ ?_
    rw [← map_id_flatMap_scopes scope bs]
    obtain hq | hq := List.mem_append.mp hq
    · exact List.mem_cons_of_mem _ (List.mem_map_of_mem hq)
    · rw [List.mem_singleton.mp hq]
      exact List.mem_cons_self
  · rw [map_id_flatMap_scopes]
    exact List.disjoint_singleton.mpr hf.root_notMem_inside
  · intro p hp q hq
    obtain ⟨b, hb, hp⟩ := List.mem_flatMap.mp hp
    obtain hq | hq := mem_scope_cases (hf.body hb) hp hq
    · exact ⟨(hscope q hq).1, fun hmem => (hscope q hq).2
        (List.mem_cons.mpr (.inl (List.mem_singleton.mp hmem)))⟩
    · refine ⟨(hf.body hb).lt_size _ hq, fun hmem => hf.root_notMem_body hb ?_⟩
      have heq : q.2 = id := List.mem_singleton.mp hmem
      exact heq ▸ hq

end Node

/-! ### Lists of nodes -/

section Walk

variable {r : Resolver} {header : TypeScope} {f : TemplateFile} {id : NodeId} {k : NodeKind}
  {bs : List Forest} {ts : Forest} {scope : Scope} {fuel : Nat}

/-- The lists of a node, one after the other, with what is wrong in them. -/
theorem foldl_lists_fst (types : TemplateFile → List NodeId → TemplateFile × TypeProblems)
    (bodies : List (List NodeId)) (x : TemplateFile × TypeProblems) :
    (bodies.foldl (fun (x : TemplateFile × TypeProblems) body =>
      ((types x.1 body).1, x.2 ++ (types x.1 body).2)) x).1 =
      bodies.foldl (fun g body => (types g body).1) x.1 :=
  (List.foldl_hom Prod.fst fun _ _ => rfl).symm

/-- The contents among the parameters of a call, one after the other. -/
theorem foldl_typeBound_fst (types : TemplateFile → List NodeId → TemplateFile × TypeProblems)
    (stack : TypeScope) (ps : List Passed) (x : TemplateFile × List Passed × TypeProblems) :
    (ps.foldl (fun (x : TemplateFile × List Passed × TypeProblems) p =>
      ((typeBound r stack types x.1 p.bound).1,
        x.2.1 ++ [{ p with bound := (typeBound r stack types x.1 p.bound).2.1 }],
        x.2.2 ++ (typeBound r stack types x.1 p.bound).2.2)) x).1 =
      (ps.filterMap (·.bound.body?)).foldl (fun g body => (types g body).1) x.1 := by
  induction ps generalizing x with
  | nil => rfl
  | cons p ps ih =>
    rw [List.foldl_cons, ih]
    obtain ⟨name, bound, span⟩ := p
    cases bound <;> rfl

/-- What is in scope at a node keeps its types when the node and the lists inside it are typed. -/
theorem Typed.typesIn_eq {s : Scope} {g : TemplateFile}
    (h : Typed r header ((.node id k bs, scope) :: bs.flatMap (scopes s)) f g)
    (hscope : f.ScopeOutside (id :: bs.flatMap ids) scope) :
    g.typesIn header scope = f.typesIn header scope := by
  have hchanges := h.changes
  rw [List.map_cons, map_id_flatMap_scopes] at hchanges
  exact hchanges.typesIn_eq hscope

/-- The variable of a loop has the type of the items, once the list is typed. -/
theorem typesIn_loop {stack : TypeScope} {x : String} {list : Expr} {body : List NodeId} (hid : id < f.nodes.size)
    (hset : ∀ k' : NodeKind, (f.setKind id k').typesIn header scope = stack) :
    (f.setKind id (.loop x (list.infer r stack).1 body)).typesIn header ((x, id) :: scope) =
      (x, (loopItem (list.infer r stack).1).1) :: stack := by
  rw [typesIn_cons, hset, boundType, kind_setKind_self f _ hid]

/-- The variable of a binding has the type of what is bound, once that is typed. -/
theorem Typed.typesIn_binding {s : Scope} {x : String} {bound : Bound} {g : TemplateFile}
    (h : Typed r header ((.node id (.binding x bound) bs, scope) :: bs.flatMap (scopes s)) f g)
    (hk : f.kind id = .binding x bound) (hscope : f.ScopeOutside (id :: bs.flatMap ids) scope) :
    g.typesIn header ((x, id) :: scope) =
      (x, (bound.mapExpr fun e => (e.infer r (f.typesIn header scope)).1).type) :: f.typesIn header scope := by
  have hkind := h.kind_eq _ List.mem_cons_self
  rw [NodeTree.id_node, hk, h.typesIn_eq hscope] at hkind
  rw [typesIn_cons, h.typesIn_eq hscope, boundType, hkind]
  rfl

/-- **One node**, with the stack that it leaves for the nodes after it. -/
theorem typeNodes_cons (hf : f.Holds [.node id k bs])
    (hscope : f.ScopeOutside (id :: bs.flatMap ids) scope)
    (hbodies : ∀ b ∈ bs, ∀ (g : TemplateFile) (scope : Scope), g.Holds b →
      g.ScopeOutside (ids b) scope → Typed r header (scopes scope b) g
        (typeNodes r fuel (g.typesIn header scope) g (roots b)).1) :
    ∃ g, (∀ rest, (typeNodes r (fuel + 1) (f.typesIn header scope) f (id :: rest)).1 =
        (typeNodes r fuel (g.typesIn header (k.scopeAfter id ++ scope)) g rest).1) ∧
      Typed r header ((.node id k bs, scope) :: bs.flatMap (scopes (k.scopeInside id ++ scope))) f g := by
  have hk : f.kind id = k := hf.kind_eq
  have hset : ∀ k' : NodeKind, (f.setKind id k').typesIn header scope = f.typesIn header scope := fun k' =>
    (ChangesOnly.setKind (List.mem_singleton_self id) k').typesIn_eq
      (hscope.mono (List.cons_subset_cons _ (List.nil_subset _)) (Nat.le_refl _))
  -- the node first, or the lists inside it first
  have hfirst : ∀ {f₁ : TemplateFile} {inner : TypeScope},
      f₁ = f.setKind id (k.mapExprs fun e => (e.infer r (f.typesIn header scope)).1) →
      inner = f₁.typesIn header (k.scopeInside id ++ scope) →
      Typed r header ((.node id k bs, scope) :: bs.flatMap (scopes (k.scopeInside id ++ scope))) f
        (k.bodies.foldl (fun g body => (typeNodes r fuel inner g body).1) f₁) := by
    intro f₁ inner hf₁ hinner
    refine typed_node_lists hf hscope hf₁ fun b hb g hg hout heq => ?_
    rw [hinner, ← heq]
    exact hbodies b hb g _ hg hout
  have hlast : k.scopeInside id = [] →
      Typed r header ((.node id k bs, scope) :: bs.flatMap (scopes (k.scopeInside id ++ scope))) f
        ((k.bodies.foldl (fun g body => (typeNodes r fuel (f.typesIn header scope) g body).1) f).setKind
          id (k.mapExprs fun e => (e.infer r (f.typesIn header scope)).1)) := fun hinside =>
    typed_lists_node hf hscope hinside fun b hb g hg hout heq => heq ▸ hbodies b hb g scope hg hout
  -- a loop types what it binds for its list first; a binding and a call type their contents first
  cases k with
  | loop x list body =>
    have htyped := hfirst rfl (typesIn_loop hf.root_lt hset).symm
    refine ⟨_, fun rest => ?_, htyped⟩
    rw [typeNodes, hk]
    exact congrArg (fun after => (typeNodes r fuel after _ rest).1) (htyped.typesIn_eq hscope).symm
  | binding x bound =>
    have htyped := hlast rfl
    refine ⟨_, fun rest => ?_, htyped⟩
    rw [typeNodes, hk]
    refine Eq.trans ?_ (congrArg (fun after => (typeNodes r fuel after _ rest).1)
      (htyped.typesIn_binding hk hscope).symm)
    cases bound <;> rfl
  | call c =>
    have htyped := hlast rfl
    refine ⟨_, fun rest => ?_, htyped⟩
    obtain ⟨y, hy, -, hpassed⟩ := @typePassed_rel r (f.typesIn header scope) Rewritten
      (typeNodes r fuel (f.typesIn header scope)) Rewritten.refl Rewritten.trans
      (typeNodes_rewritten r fuel _) f c.passed (f, [], []) (.refl f)
    have hfile := (congrArg Prod.fst hy).symm.trans (foldl_typeBound_fst ..)
    rw [typeNodes, hk]
    dsimp only
    rw [hy, hpassed, hfile]
    exact congrArg (fun after => (typeNodes r fuel after _ rest).1) (htyped.typesIn_eq hscope).symm
  | text | special | closeTag =>
    have htyped := hfirst rfl (hset _).symm
    refine ⟨_, fun rest => ?_, htyped⟩
    rw [typeNodes, hk]
    exact congrArg (fun after => (typeNodes r fuel after _ rest).1) (htyped.typesIn_eq hscope).symm
  -- every other node is typed before its lists, and binds nothing behind it
  | _ =>
    have htyped := hfirst rfl (hset _).symm
    refine ⟨_, fun rest => ?_, htyped⟩
    rw [typeNodes, hk]
    refine Eq.trans ?_ (congrArg (fun after => (typeNodes r fuel after _ rest).1)
      (htyped.typesIn_eq hscope).symm)
    exact congrArg (fun g => (typeNodes r fuel _ g rest).1) (foldl_lists_fst ..)

/-- **A list of nodes.** Every node in it, and below, is typed in the types of its own stack. -/
theorem typeNodes_typed (hf : f.Holds ts) (hscope : f.ScopeOutside (ids ts) scope)
    (hfuel : (ids ts).length ≤ fuel) : Typed r header (scopes scope ts) f
      (typeNodes r fuel (f.typesIn header scope) f (roots ts)).1 := by
  induction ts using Forest.induct generalizing f scope fuel with
  | nil => cases fuel <;> exact .nil f
  | cons id k bs ts ihb iht =>
    rw [ids_cons] at hscope hfuel
    rw [List.length_cons, List.length_append] at hfuel
    obtain ⟨fuel, rfl⟩ : ∃ n, fuel = n + 1 := ⟨fuel - 1, by omega⟩
    have hnode := hf.of_mem List.mem_cons_self
    have houtNode : f.ScopeOutside (id :: bs.flatMap ids) scope :=
      hscope.mono (List.cons_subset_cons _ (List.subset_append_left _ _)) (Nat.le_refl _)
    have hbodies : ∀ b ∈ bs, ∀ (g : TemplateFile) (scope : Scope), g.Holds b →
        g.ScopeOutside (ids b) scope → Typed r header (scopes scope b) g
          (typeNodes r fuel (g.typesIn header scope) g (roots b)).1 := by
      intro b hb g scope hg hout
      have hlen := (sublist_flatMap ids hb).length_le
      exact ihb b hb hg hout (by omega)
    -- the first node with all that is inside
    obtain ⟨g, hg, htyped⟩ := typeNodes_cons hnode houtNode hbodies
    have hchanges := htyped.changes
    rw [List.map_cons, map_id_flatMap_scopes, NodeTree.id_node] at hchanges
    have hdisj := hf.disjoint_head_tail
    have hrest : g.Holds ts :=
      hf.tail.of_shows hchanges.size_le (hchanges.shows hf.tail.shows_nodes hf.tail.lt_size hdisj)
    -- neither what was in scope before nor what the node binds stands in the rest of the list
    have hout : f.ScopeOutside (ids ts) scope := hscope.mono
      (List.subset_cons_of_subset _ (List.subset_append_right _ _)) (Nat.le_refl _)
    have houtRest : f.ScopeOutside (ids ts) (k.scopeAfter id ++ scope) :=
      hout.own (fun _ hp => (NodeKind.mem_scopeAfter.mp hp).1) hf.root_lt hf.root_notMem_tail
    have houtInside : f.ScopeOutside (ids ts) (k.scopeInside id ++ scope) :=
      hout.own (fun _ hp => (NodeKind.mem_scopeInside.mp hp).1) hf.root_lt hf.root_notMem_tail
    rw [roots_cons, NodeTree.id_node, hg, scopes_cons, ← List.cons_append]
    refine htyped.append
      (iht hrest (houtRest.mono (List.Subset.refl _) hchanges.size_le) (by omega)) ?_ ?_ ?_
    · intro q hq
      refine hf.lt_size _ ?_
      rw [← map_id_scopes scope, scopes_cons, ← List.cons_append]
      exact List.mem_map_of_mem hq
    · rw [List.map_cons, map_id_flatMap_scopes, map_id_scopes]
      exact hdisj
    · intro p hp q hq
      rw [map_id_scopes]
      -- a binder in scope at the node or below it was there before, or is bound by the node or inside it
      have hcases : q ∈ k.scopeInside id ++ scope ∨ q.2 ∈ bs.flatMap ids := by
        obtain rfl | hp := List.mem_cons.mp hp
        · exact .inl (List.mem_append_right _ hq)
        · obtain ⟨b, hb, hp⟩ := List.mem_flatMap.mp hp
          exact (mem_scope_cases (hf.body hb) hp hq).imp_right fun hmem =>
            List.mem_flatMap.mpr ⟨b, hb, hmem⟩
      obtain hq | hq := hcases
      · exact houtInside q hq
      · exact ⟨hf.lt_size_head _ (List.mem_cons_of_mem _ hq), fun hmem =>
          hf.disjoint_inside_tail hq hmem⟩

end Walk

/-! ### Files -/

section Files

variable {s : Settings} {f : TemplateFile} {ts : Forest} {id : NodeId} {t : Template} {b : Forest}

/-- The header is typed before the body. -/
theorem typeTemplate_fst (s : Settings) (f : TemplateFile) (id : NodeId) (t : Template) :
    (f.typeTemplate s id t).1 = (typeNodes s.plugins f.nodes.size (typeHeader s.types s.plugins t).2.1
      (f.setKind id (.template (typeHeader s.types s.plugins t).1)) t.body).1 := rfl

/-- The nodes of a body, each typed in the types of its own stack above those of the header. -/
def BodyTyped (s : Settings) (t : Template) (b : Forest) (f g : TemplateFile) : Prop :=
  ∀ p ∈ scopes [] b, g.kind p.1.id = (f.kind p.1.id).mapExprs fun e =>
    (e.infer s.plugins (g.typesIn (typeHeader s.types s.plugins t).2.1 p.2)).1

/-- **One template.** Its header is typed, then its body, in the types of the header. -/
theorem typeTemplate_typed (s : Settings) (hf : f.Holds [.node id (.template t) [b]]) :
    ChangesOnly (id :: ids b) f (f.typeTemplate s id t).1 ∧
      (f.typeTemplate s id t).1.kind id = .template (typeHeader s.types s.plugins t).1 ∧
      BodyTyped s t b f (f.typeTemplate s id t).1 := by
  have hbody : [t.body] = [roots b] := hf.bodies_eq
  have hb := hf.body List.mem_cons_self
  have hnot := hf.root_notMem_body List.mem_cons_self
  rw [BodyTyped, typeTemplate_fst, List.singleton_inj.mp hbody]
  have hset : ChangesOnly [id] f (f.setKind id (.template (typeHeader s.types s.plugins t).1)) :=
    .setKind (List.mem_singleton_self _) _
  -- typing the header changes the template only, not its body
  have hb' : (f.setKind id (.template (typeHeader s.types s.plugins t).1)).Holds b :=
    hb.of_shows hset.size_le (hset.shows hb.shows_nodes hb.lt_size (List.singleton_disjoint.mpr hnot))
  have htyped : Typed s.plugins (typeHeader s.types s.plugins t).2.1 (scopes [] b) _ _ :=
    typeNodes_typed hb' (List.forall_mem_nil _) hb.length_ids_le
  rw [typesIn_nil] at htyped
  have hchanges := htyped.changes
  rw [map_id_scopes] at hchanges
  refine ⟨hset.trans hchanges, ?_, fun p hp => (htyped.kind_eq p hp).trans ?_⟩
  · rw [hchanges.kind_eq id (Nat.lt_of_lt_of_le hf.root_lt hset.size_le) hnot]
    exact kind_setKind_self f _ hf.root_lt
  -- the nodes of the body are typed from the kinds that they had before
  · have hid : p.1.id ∈ ids b := map_id_scopes [] b ▸ List.mem_map_of_mem hp
    rw [hset.kind_eq _ (hb.lt_size _ hid) fun heq => hnot (List.mem_singleton.mp heq ▸ hid)]

/-- A body stays typed when other nodes change. -/
theorem BodyTyped.after {g g' : TemplateFile} (h : BodyTyped s t b f g) (hb : f.Holds b)
    (hsize : f.nodes.size ≤ g.nodes.size) {S : List NodeId} (hchanges : ChangesOnly S g g')
    (hdisj : S.Disjoint (ids b)) : BodyTyped s t b f g' := by
  intro p hp
  have hid : p.1.id ∈ ids b := map_id_scopes [] b ▸ List.mem_map_of_mem hp
  have hlt : ∀ {x}, x ∈ ids b → x < g.nodes.size := fun hx =>
    Nat.lt_of_lt_of_le (hb.lt_size _ hx) hsize
  have hout : g.ScopeOutside S p.2 := fun q hq => by
    obtain hq | hq := mem_scope_cases hb hp hq
    · cases hq
    · exact ⟨hlt hq, fun hS => hdisj hS hq⟩
  rw [hchanges.kind_eq _ (hlt hid) fun hS => hdisj hS hid, h p hp, hchanges.typesIn_eq hout]

/-- What was changed before a body was typed does not matter, if it is not in the body. -/
theorem BodyTyped.before {f' g : TemplateFile} (h : BodyTyped s t b f g)
    (hbefore : ∀ x ∈ ids b, f.kind x = f'.kind x) : BodyTyped s t b f' g := by
  intro p hp
  have hid : p.1.id ∈ ids b := map_id_scopes [] b ▸ List.mem_map_of_mem hp
  rw [h p hp, hbefore _ hid]

/-- The templates of a file, one after the other. -/
theorem typeTemplates_typed (s : Settings) {us : Forest} {declared : List (NodeId × Template)}
    (hf : f.Holds us)
    (hdeclared : us.map (fun u => (u.id, u.kind)) = declared.map fun p => (p.1, .template p.2)) :
    ChangesOnly (ids us) f (declared.foldl (fun g p => (g.typeTemplate s p.1 p.2).1) f) ∧
      ∀ id t b, .node id (.template t) [b] ∈ us →
        (declared.foldl (fun g p => (g.typeTemplate s p.1 p.2).1) f).kind id =
            .template (typeHeader s.types s.plugins t).1 ∧
          BodyTyped s t b f (declared.foldl (fun g p => (g.typeTemplate s p.1 p.2).1) f) := by
  induction us generalizing f declared with
  | nil =>
    obtain rfl := List.map_eq_nil_iff.mp hdeclared.symm
    exact ⟨.refl _ f, fun _ _ _ hm => nomatch hm⟩
  | cons u us ih =>
    cases declared with
    | nil => cases hdeclared
    | cons p declared =>
      obtain ⟨hhead, htail⟩ := List.cons.inj hdeclared
      obtain ⟨i, k, bs⟩ := u
      obtain ⟨i', t⟩ := p
      obtain ⟨rfl, rfl⟩ : i = i' ∧ k = .template t := Prod.mk.inj hhead
      have hbodies : [t.body] = bs.map roots := hf.bodies_eq
      obtain ⟨b, rfl, -⟩ := List.map_eq_singleton_iff.mp hbodies.symm
      obtain ⟨hchanges, hkind, hbody⟩ := typeTemplate_typed s (hf.of_mem List.mem_cons_self)
      -- two templates have no node in common
      have hdisj : (i :: ids b).Disjoint (ids us) := List.disjoint_cons_left.mpr
        ⟨hf.root_notMem_tail, hf.disjoint_body_tail List.mem_cons_self⟩
      have hrest : (f.typeTemplate s i t).1.Holds us :=
        hf.tail.of_shows hchanges.size_le (hchanges.shows hf.tail.shows_nodes hf.tail.lt_size hdisj)
      obtain ⟨hlater, htyped⟩ := ih hrest htail
      rw [List.foldl_cons]
      refine ⟨?_, fun id t' c hm => ?_⟩
      · rw [ids_cons, List.flatMap_singleton]
        exact hchanges.trans hlater
      obtain heq | hm := List.mem_cons.mp hm
      · -- what is done to later templates leaves this one alone
        obtain ⟨rfl, hk, hc⟩ := NodeTree.node.inj heq
        obtain rfl := NodeKind.template.inj hk
        obtain rfl := List.singleton_inj.mp hc
        refine ⟨?_, hbody.after (hf.body List.mem_cons_self) hchanges.size_le hlater fun x hx hxb =>
          hdisj (List.mem_cons_of_mem _ hxb) hx⟩
        rw [hlater.kind_eq id (Nat.lt_of_lt_of_le hf.root_lt hchanges.size_le) hf.root_notMem_tail]
        exact hkind
      -- what was done to the template before leaves the later ones as they were
      · obtain ⟨hkind', hbody'⟩ := htyped id t' c hm
        refine ⟨hkind', hbody'.before fun x hx => ?_⟩
        have hxus : x ∈ ids us := mem_ids_of_mem_body hm List.mem_cons_self hx
        exact hchanges.kind_eq x (hf.tail.lt_size x hxus) fun hxi => hdisj hxi hxus

/-- The templates are typed in the order of their declarations. -/
theorem resolveTypes_fst (s : Settings) (f : TemplateFile) :
    (f.resolveTypes s).1 = f.declared.foldl (fun g p => (g.typeTemplate s p.1 p.2).1) f := by
  unfold resolveTypes
  dsimp only
  exact (List.foldl_hom Prod.fst fun _ _ => rfl).symm

/-- Only nodes of the forest are typed. -/
theorem Planted.resolveTypes_changes (s : Settings) (hf : f.Planted ts) :
    ChangesOnly (ids ts) f (f.resolveTypes s).1 := by
  rw [resolveTypes_fst]
  exact (typeTemplates_typed s hf.holds
    (hf.holds.shows_nodes.declared_eq hf.roots_eq hf.areTemplates)).1

/-- **Typing a file.** Every header is typed, and every node of a body in the types of its own stack,
above those of the header. -/
theorem Planted.resolveTypes_typed (s : Settings) (hf : f.Planted ts)
    (hm : .node id (.template t) [b] ∈ ts) :
    (f.resolveTypes s).1.kind id = .template (typeHeader s.types s.plugins t).1 ∧
      BodyTyped s t b f (f.resolveTypes s).1 := by
  rw [resolveTypes_fst]
  exact (typeTemplates_typed s hf.holds
    (hf.holds.shows_nodes.declared_eq hf.roots_eq hf.areTemplates)).2 id t b hm

end Files

end TemplateFile

end TemplateFrontend
