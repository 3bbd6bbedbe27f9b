import TemplateFrontend.Proofs.Typing.Scopes
/-!
# The binders behind types

The walk that checks names and the walk that gives types agree on what a variable means: the innermost
loop or `{let}` that binds its name where it stands, else the last declaration of the header with that
name. The type of a variable is that of this binder, and it has none exactly if it is reported as
undeclared.

* `Binder`, `meanings` — what the names mean at a node, the innermost meaning first;
* `Template.binders_typeHeader` — the types of a header are those of its declarations;
* `TemplateFile.Planted.body_typed` — the nodes of a body, typed in what the names mean there;
* `parse_binders` — both walks on every source that is read without error.
-/

namespace TemplateFrontend

open Forest TemplateFile

/-- What a variable of a template means. -/
inductive Binder where
  /-- A loop or a `{let}`. -/
  | node (id : NodeId)
  | param (d : ParamDecl)
  | state (d : StateDecl)

/-- The declarations of a header by name, the last one first. -/
def Template.binders (t : Template) : List (String × Binder) :=
  (t.params.map (fun d => (d.name, Binder.param d)) ++
    t.state.map fun d => (d.name, Binder.state d)).reverse

/-- What the names mean at a node of a template with some scope, the innermost meaning first. -/
def meanings (t : Template) (scope : Scope) : List (String × Binder) :=
  scope.map (fun p => (p.1, .node p.2)) ++ t.binders

/-- The type of what a binder binds. -/
def TemplateFile.binderType (f : TemplateFile) : Binder → ValueType
  | .node id => f.boundType id
  | .param d => d.type.getD .unknown
  | .state d => d.type.getD .unknown

theorem lookup_map_snd {α β : Type} (g : α → β) (ps : List (String × α)) (x : String) :
    (ps.map fun p => (p.1, g p.2)).lookup x = (ps.lookup x).map g := by
  induction ps with
  | nil => rfl
  | cons p ps ih =>
    rw [List.map_cons, List.lookup_cons, List.lookup_cons]
    split
    · rfl
    · exact ih

/-! ### Headers -/

section Headers

variable (types : TypeRegistry) (r : Resolver)

/-- The types that parameters put into scope, the last one first. -/
theorem scope_typeParams (ps : List ParamDecl) (scope : TypeScope) :
    (typeParams types scope ps).2.1 =
      ((typeParams types scope ps).1.map fun d => (d.name, d.type.getD .unknown)).reverse ++ scope := by
  induction ps generalizing scope with
  | nil => rfl
  | cons p ps ih =>
    rw [typeParams]
    dsimp only
    rw [ih, List.map_cons, List.reverse_cons, List.append_assoc]
    rfl

/-- The types that state declarations put into scope, the last one first. -/
theorem scope_typeState (ds : List StateDecl) (scope : TypeScope) :
    (typeState types r scope ds).2.1 =
      ((typeState types r scope ds).1.map fun d => (d.name, d.type.getD .unknown)).reverse ++ scope := by
  induction ds generalizing scope with
  | nil => rfl
  | cons d ds ih =>
    rw [typeState]
    dsimp only
    rw [ih, List.map_cons, List.reverse_cons, List.append_assoc]
    rfl

/-- **The types of a header** are those of its declarations, the last one first. -/
theorem Template.binders_typeHeader (f : TemplateFile) (t : Template) :
    (typeHeader types r t).2.1 =
      (typeHeader types r t).1.binders.map fun p => (p.1, f.binderType p.2) := by
  have hparams := (scope_typeParams types t.params []).trans (List.append_nil _)
  have hstate := scope_typeState types r t.state (typeParams types [] t.params).2.1
  rw [Template.binders, List.map_reverse, List.map_append, List.reverse_append, List.map_map, List.map_map]
  exact hstate.trans (congrArg (_ ++ ·) hparams)

end Headers

/-! ### Scopes of a typed file -/

namespace NodeKind

theorem scopeInside_mapExprs (e : Expr → Expr) (k : NodeKind) (id : NodeId) :
    (k.mapExprs e).scopeInside id = k.scopeInside id := by
  cases k <;> rfl

theorem scopeAfter_mapExprs (e : Expr → Expr) (k : NodeKind) (id : NodeId) :
    (k.mapExprs e).scopeAfter id = k.scopeAfter id := by
  cases k <;> rfl

end NodeKind

/-- Nodes with other expressions have the same scopes. -/
theorem Forest.scopes_relabel {g : TemplateFile} {ts : Forest}
    (h : ∀ u ∈ subtrees ts, ∃ e, g.kind u.id = u.kind.mapExprs e) (scope : Scope) :
    scopes scope (relabel g ts) = (scopes scope ts).map fun p => (relabelTree g p.1, p.2) := by
  induction ts using Forest.induct generalizing scope with
  | nil => rfl
  | cons id k bs ts ihb iht =>
    obtain ⟨⟨e, he⟩, hbs, hts⟩ := forall_subtrees_cons.mp h
    have hkind : g.kind id = k.mapExprs e := he
    -- names are bound by kinds, and other expressions bind the same names
    have hbodies : (bs.map (relabel g)).flatMap (scopes ((g.kind id).scopeInside id ++ scope)) =
        (bs.flatMap (scopes (k.scopeInside id ++ scope))).map fun p => (relabelTree g p.1, p.2) := by
      rw [List.flatMap_map, List.map_flatMap, hkind, NodeKind.scopeInside_mapExprs]
      exact List.flatMap_congr fun b hb => ihb b hb (hbs b hb) _
    rw [relabel_cons, scopes_cons, hbodies, iht hts, scopes_cons, List.map_cons, List.map_append, hkind,
      NodeKind.scopeAfter_mapExprs, relabelTree, relabelAll_eq_map, hkind]

theorem id_relabelTree (g : TemplateFile) (u : NodeTree) : (relabelTree g u).id = u.id := by
  obtain ⟨id, k, bs⟩ := u
  rfl

namespace TemplateFile

section Bodies

variable {f g : TemplateFile} {ts : Forest} {id : NodeId} {t : Template}

/-- **A typed body.** Every node has its expressions typed in the types of what the names mean there. -/
theorem Planted.body_typed (hf : f.Planted ts) (s : Settings) (hg : g = (f.resolveTypes s).1)
    (hid : (id, t) ∈ g.declared) : ∀ u scope, (u, scope) ∈ scopes [] (g.forest t.body) →
      (g.kind u.id).exprs = (f.kind u.id).exprs.map fun e =>
        (e.infer s.plugins ((meanings t scope).map fun p => (p.1, g.binderType p.2))).1 := by
  have hretouched : Retouched f g := hg ▸ resolveTypes_retouched s f
  obtain ⟨htemplate, hkind⟩ := kind_of_mem_declared hid
  obtain ⟨t₀, b, hm, -, hbody⟩ := hf.exists_node (hretouched.templates_eq ▸ htemplate)
  obtain ⟨hheader, htyped⟩ := hf.resolveTypes_typed s hm
  rw [← hg] at hheader htyped
  obtain rfl : t = (typeHeader s.types s.plugins t₀).1 :=
    NodeKind.template.inj (hkind.symm.trans hheader)
  have hb := (hf.holds.of_mem hm).body List.mem_cons_self
  -- the body is the same forest with the typed nodes
  have hforest : g.forest (typeHeader s.types s.plugins t₀).1.body = Forest.relabel g b := by
    have hroots : (typeHeader s.types s.plugins t₀).1.body = roots (Forest.relabel g b) := by
      rw [roots_relabel, ← hbody]
      rfl
    rw [hroots, (hretouched.holds hb).forest_roots]
  -- typing leaves the form of every node
  have hsame : ∀ u ∈ subtrees b, ∃ e, g.kind u.id = u.kind.mapExprs e := by
    intro u hu
    rw [← map_fst_scopes [] b] at hu
    obtain ⟨p, hp, rfl⟩ := List.mem_map.mp hu
    refine ⟨_, (htyped p hp).trans (congrArg _ (hb.shows_nodes p.1 ?_))⟩
    rw [← map_fst_scopes [] b]
    exact List.mem_map_of_mem hp
  intro u scope hu
  rw [hforest, scopes_relabel hsame] at hu
  obtain ⟨p, hp, heq⟩ := List.mem_map.mp hu
  obtain ⟨rfl, rfl⟩ := Prod.mk.inj heq
  have hstack : g.typesIn (typeHeader s.types s.plugins t₀).2.1 p.2 =
      (meanings (typeHeader s.types s.plugins t₀).1 p.2).map fun q => (q.1, g.binderType q.2) := by
    rw [meanings, List.map_append, ← Template.binders_typeHeader, typesIn, List.map_map]
    rfl
  rw [id_relabelTree, htyped p hp, NodeKind.exprs_mapExprs, hstack]

/-- A name means nothing at a node exactly if no node binds it there and the header does not declare
it. -/
theorem lookup_meanings_eq_none {scope : Scope} {x : String} :
    (meanings t scope).lookup x = none ↔ x ∉ declaredNames t ∧ ∀ b, (x, b) ∉ scope := by
  -- the header means what it declares, the last declaration of a name first
  have hheader : t.binders.map Prod.fst = (declaredNames t).reverse := by
    rw [Template.binders, declaredNames, List.map_reverse, List.map_append, List.map_map, List.map_map]
    rfl
  have hnames : (meanings t scope).map Prod.fst = scope.map Prod.fst ++ (declaredNames t).reverse := by
    rw [meanings, List.map_append, hheader, List.map_map]
    rfl
  have hlookup : (meanings t scope).lookup x = none ↔ x ∉ (meanings t scope).map Prod.fst := by
    rw [List.lookup_eq_none_iff]
    grind
  rw [hlookup, hnames]
  grind

end Bodies

end TemplateFile

/-! ### Sources -/

section Sources

variable {source : SourceText} {f g g' : TemplateFile}

/-- **Names and types agree.** Whatever passes on single files ran before a file was typed, at every node
of the body of a template: the names in scope are those that the check of variables finds there, in the
same order; every expression is typed in the types of what the names mean, the innermost binder first;
so a variable has the type of its innermost binder, and it has none if and only if it is reported. -/
theorem parse_binders (h : parse source = .ok f) (s : Settings) (ps : List Pass)
    (hg : g = (f.runPasses s ps).1) (hg' : g' = (g.resolveTypes s).1) :
    ∀ id t, (id, t) ∈ g'.declared →
      g'.scopedNodes t.body =
        (scopes [] (g'.forest t.body)).map (fun p => (p.1.id, p.2.map Prod.fst)) ∧
      ∀ u scope, (u, scope) ∈ scopes [] (g'.forest t.body) →
        (∀ x b, (x, b) ∈ scope ↔ g'.Binds x b u.id) ∧
        ((g'.kind u.id).exprs = (g.kind u.id).exprs.map fun e =>
          (e.infer s.plugins ((meanings t scope).map fun p => (p.1, g'.binderType p.2))).1) ∧
        ∀ n x, .var n x ∈ Expr.subexprsOf (g'.kind u.id).exprs →
          n.type = some (((meanings t scope).lookup x).elim .unknown g'.binderType) ∧
          ((meanings t scope).lookup x = none ↔ g'.undeclared ⟨x, n.span⟩ ∈ g'.checkVariables) := by
  have hrooted : g.Rooted := hg ▸ (rooted_of_parse h).runPasses s ps
  have hrooted' : g'.Rooted := hg' ▸ hrooted.retouched (resolveTypes_retouched s g)
  obtain ⟨ts, hts, -⟩ := hrooted
  obtain ⟨ts', hts', -⟩ := id hrooted'
  intro id t hid
  obtain ⟨b, hb, hbody, hbelow, hnot, hscopes⟩ := hts'.exists_body hid
  -- the body of the template, read off the table
  have hforest : g'.forest t.body = b := by rw [hbody, hb.forest_roots]
  refine ⟨by rw [hforest, hbody, hb.scopedNodes_eq], fun u scope hu => ?_⟩
  have htyped := hts.body_typed s hg' hid u scope hu
  rw [hforest] at hu
  -- the walk has exactly the binders in scope that reach the node
  have hscope : ∀ x b, (x, b) ∈ scope ↔ g'.Binds x b u.id := fun _ _ =>
    hts'.mem_scope_iff (hscopes _ hu)
  have hnode : u.id ∈ g'.descendants id := by
    rw [hbelow, ← map_id_scopes [] b]
    exact List.mem_map_of_mem hu
  refine ⟨hscope, htyped, fun n x hx => ⟨?_, ?_⟩⟩
  · obtain ⟨e, he, hx⟩ := Expr.mem_subexprsOf.mp hx
    rw [htyped] at he
    obtain ⟨e₀, -, rfl⟩ := List.mem_map.mp he
    rw [Expr.varsTyped_infer _ _ e₀ n x hx, TypeScope.typeOf, lookup_map_snd]
    cases (meanings t scope).lookup x <;> rfl
  -- a node of the body is not the template itself
  · have hne : u.id ≠ id := fun heq => hnot (heq ▸ hbelow ▸ hnode)
    have hvar : (⟨x, n.span⟩ : VarRef) ∈ varRefs (g'.kind u.id).exprs :=
      Expr.mem_varRefs.mpr ⟨n, hx, rfl⟩
    rw [hrooted'.undeclared_mem_iff hid (List.mem_cons_of_mem _ hnode) hvar, lookup_meanings_eq_none]
    simp only [hscope]
    exact ⟨fun h => ⟨hne, h⟩, fun h => h.2⟩

/-- A loop variable with the name of a parameter, read inside the loop and behind it, and a variable that
nothing declares. -/
def shadowedParam : SourceText :=
  ⟨"a.st", "\x7bnamespace a\x7d\x7btemplate .t\x7d\x7b@param x: string\x7d" ++
    "\x7bfor $x in [1]\x7d\x7b$x\x7d\x7b/for\x7d\x7b$x\x7d\x7b$y\x7d\x7b/template\x7d"⟩

theorem parse_binders_shadowedParam : ∃ f g t, parse shadowedParam = .ok f ∧
    g = (f.resolveTypes (.default default)).1 ∧ (4, t) ∈ g.declared ∧
    g.scopedNodes t.body = [(1, []), (0, ["x"]), (2, []), (3, [])] ∧
    ([0, 2, 3].flatMap fun n => (g.kind n).exprs.map (·.type)) = [.int, .string, .unknown] ∧
    ∀ u scope, (u, scope) ∈ scopes [] (g.forest t.body) →
      ∀ n x, .var n x ∈ Expr.subexprsOf (g.kind u.id).exprs →
        n.type = some (((meanings t scope).lookup x).elim .unknown g.binderType) ∧
        ((meanings t scope).lookup x = none ↔ g.undeclared ⟨x, n.span⟩ ∈ g.checkVariables) := by
  -- scopes and types as they come out, in one evaluation
  have hrun : (parse shadowedParam).toOption.map (fun f => decide
      (((f.resolveTypes (.default default)).1.declared.map fun p =>
          (p.1, (f.resolveTypes (.default default)).1.scopedNodes p.2.body)) =
            [(4, [(1, []), (0, ["x"]), (2, []), (3, [])])] ∧
        ([0, 2, 3].flatMap fun n => ((f.resolveTypes (.default default)).1.kind n).exprs.map (·.type)) =
          [.int, .string, .unknown])) = some true := by decide +kernel
  obtain ⟨f, hp, hf⟩ := exists_of_toOption_map hrun
  obtain ⟨hscoped, htypes⟩ := of_decide_eq_true hf
  obtain ⟨⟨id, t⟩, hdeclared, ht⟩ := List.map_eq_singleton_iff.mp hscoped
  obtain ⟨rfl, hscoped⟩ := Prod.mk.inj ht
  have hid : (4, t) ∈ (f.resolveTypes (.default default)).1.declared :=
    hdeclared ▸ List.mem_singleton_self _
  obtain ⟨-, hspec⟩ := parse_binders hp (.default default) [] rfl rfl 4 t hid
  exact ⟨f, _, t, hp, rfl, hid, hscoped, htypes, fun u scope hu => (hspec u scope hu).2.2⟩

end Sources

end TemplateFrontend
