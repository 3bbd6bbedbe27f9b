import TemplateFrontend.Check.Variables
import TemplateFrontend.Proofs.Compiler.Forests
import TemplateFrontend.Proofs.Tree.Bindings
/-!
# Undeclared variables

`checkVariables` reports a variable that nothing binds: no loop around it, no `{let}` before it, and no
declaration of the header. In the body of a template it reports all of these, each once, and nothing else.
The initial values of state declarations stand in the header and not in the body: their variables are
never looked up, so one that nothing declares goes unreported.

* `Expr.Separate.pairwise_varRefs` — variables stand in places of their own;
* `TemplateFile.Planted.mem_openRefs` — what the walk over a body leaves open;
* `TemplateFile.Rooted.undeclared_mem_iff` — when a variable is reported;
* `parse_undeclared` — the same for every source that is read without error.
-/

namespace TemplateFrontend

open Forest TemplateFile

/-! ### Places of variables -/

namespace Expr

section Separate

variable {e e' p q : Expr} {es : List Expr}

/-- Expressions that do not overlap have no parts in one place. -/
theorem Separate.owner_unique (h : Separate es) (he : e ∈ es) (he' : e' ∈ es) (hp : p ∈ e.subexprs)
    (hq : q ∈ e'.subexprs) (hspan : p.span = q.span) : e = e' := by
  by_contra hne
  have hsymm : Std.Symm fun e e' : Expr => e.span.Apart e'.span := ⟨fun _ _ h => h.symm⟩
  -- two expressions apart hold their parts inside of themselves, so no part can lie in both
  have hapart := h.apart.forall he he' hne
  have hin := (h.enclosed e he).inside hp
  have hin' := (h.enclosed e' he').inside hq
  have hnonempty := hin.enclosed.nonempty
  have hstart := hin.le_start
  have hstop := hin.stop_le
  have hstart' := hspan ▸ hin'.le_start
  have hstop' := hspan ▸ hin'.stop_le
  obtain hle | hle := hapart <;> omega

/-- In one expression there is one leaf in each place. -/
theorem Enclosed.eq_of_leaves (h : e.Enclosed) (hp : p ∈ e.subexprs) (hq : q ∈ e.subexprs)
    (hleaf : p.children = []) (hleaf' : q.children = []) (hspan : p.span = q.span) : p = q := by
  induction e using children_induct with
  | h e ih =>
    rw [subexprs_eq] at hp hq
    by_cases hchildren : e.children = []
    · rw [hchildren, subexprsOf] at hp hq
      exact (List.mem_singleton.mp hp).trans (List.mem_singleton.mp hq).symm
    -- a leaf is not the expression itself, so it is below an operand
    · have hself : ∀ {r : Expr}, r.children = [] → r ∈ e :: subexprsOf e.children →
          ∃ c ∈ e.children, r ∈ c.subexprs := by
        intro r hr hmem
        obtain rfl | hmem := List.mem_cons.mp hmem
        · exact absurd hr hchildren
        · exact mem_subexprsOf.mp hmem
      obtain ⟨c, hc, hp⟩ := hself hleaf hp
      obtain ⟨c', hc', hq⟩ := hself hleaf' hq
      -- operands lie apart, so one operand holds both leaves
      have hseparate := (enclosed_iff.mp h).2.separate
      obtain rfl := hseparate.owner_unique hc hc' hp hq hspan
      exact ih c hc (hseparate.enclosed c hc) hp hq

/-- The references of expressions are the variables among their parts. -/
theorem mem_varRefs {x : VarRef} :
    x ∈ varRefs es ↔ ∃ n, .var n x.name ∈ subexprsOf es ∧ x.span = n.span := by
  unfold varRefs
  rw [List.mem_filterMap]
  constructor
  · rintro ⟨v, hv, hx⟩
    -- only a variable among the parts gives a reference
    cases v with
    | var n y =>
      obtain rfl := Option.some.inj hx
      exact ⟨n, hv, rfl⟩
    | _ => cases hx
  · rintro ⟨n, hv, hx⟩
    exact ⟨_, hv, congrArg some (congrArg (VarRef.mk x.name) hx.symm)⟩

/-- **One place, one variable.** -/
theorem Separate.pairwise_varRefs (h : Separate es) :
    (varRefs es).Pairwise fun x y => x.span ≠ y.span := by
  refine List.pairwise_filterMap.mpr (h.nodup_subexprsOf.imp_of_mem ?_)
  intro p q hp hq hne x hx y hy hspan
  obtain ⟨e, he, hp⟩ := mem_subexprsOf.mp hp
  obtain ⟨e', he', hq⟩ := mem_subexprsOf.mp hq
  -- what a reference comes from is a leaf in the same place
  have hvar : ∀ {v : Expr} {x : VarRef}, v.varRef? = some x → v.children = [] ∧ v.span = x.span := by
    intro v x hv
    cases v with
    | var n y =>
      obtain rfl := Option.some.inj hv
      exact ⟨rfl, rfl⟩
    | _ => cases hv
  have hsame : p.span = q.span := by rw [(hvar hx).2, (hvar hy).2, hspan]
  obtain rfl := h.owner_unique he he' hp hq hsame
  exact hne ((h.enclosed e he).eq_of_leaves hp hq (hvar hx).1 (hvar hy).1 hsame)

end Separate

end Expr

namespace TemplateFile

variable {f : TemplateFile} {ts : Forest} {id : NodeId} {t : Template} {x : VarRef}

/-- The variables in the expressions of reachable nodes, node by node. -/
def heldRefs (f : TemplateFile) : List VarRef := f.reachable.flatMap fun id => varRefs (f.kind id).exprs

/-- The variables of a file are those of its expressions. -/
theorem heldRefs_eq (f : TemplateFile) : f.heldRefs = varRefs f.heldExprs := by
  rw [heldRefs, varRefs, heldExprs, Expr.subexprsOf_eq_flatMap, List.flatMap_assoc, List.filterMap_flatMap]
  refine List.flatMap_congr fun id _ => ?_
  rw [varRefs, Expr.subexprsOf_eq_flatMap]

/-- **One place, one variable** in a whole file. -/
theorem Rooted.pairwise_heldRefs (h : f.Rooted) : f.heldRefs.Pairwise fun x y => x.span ≠ y.span := by
  obtain ⟨ts, -, hexprs⟩ := h
  rw [heldRefs_eq]
  exact hexprs.pairwise_varRefs

/-- Where a variable stands, no other node has one. -/
theorem Rooted.node_unique (h : f.Rooted) {n n' : NodeId} (hn : n ∈ f.reachable)
    (hn' : n' ∈ f.reachable) {x y : VarRef} (hx : x ∈ varRefs (f.kind n).exprs)
    (hy : y ∈ varRefs (f.kind n').exprs) (hspan : x.span = y.span) : n = n' := by
  by_contra hne
  have hsymm : Std.Symm fun a b : NodeId =>
      ∀ x ∈ varRefs (f.kind a).exprs, ∀ y ∈ varRefs (f.kind b).exprs, x.span ≠ y.span :=
    ⟨fun _ _ h x hx y hy heq => h y hy x hx heq.symm⟩
  have hpairs := (List.pairwise_flatMap.mp h.pairwise_heldRefs).2
  exact hpairs.forall hn hn' hne x hx y hy hspan

/-! ### What the walk leaves open -/

/-- The scopes of a template are those of the forest that it is a root of. -/
theorem mem_scopes_of_template (htemplates : AreTemplates ts) {bs : List Forest} {b : Forest}
    (hm : .node id (.template t) bs ∈ ts) (hb : b ∈ bs) {u : NodeTree} {s : Scope}
    (hu : (u, s) ∈ scopes [] b) : (u, s) ∈ scopes [] ts := by
  induction ts with
  | nil => cases hm
  | cons v ts ih =>
    obtain ⟨⟨y, hy⟩, hts⟩ := List.forall_mem_cons.mp htemplates
    obtain ⟨i, k, cs⟩ := v
    obtain rfl : k = .template y := hy
    rw [scopes_cons]
    refine List.mem_cons_of_mem _ (List.mem_append.mpr ?_)
    -- the template is the first root, or one behind it
    obtain heq | hm := List.mem_cons.mp hm
    · obtain ⟨rfl, -, rfl⟩ := NodeTree.node.inj heq
      exact .inl (List.mem_flatMap.mpr ⟨b, hb, hu⟩)
    · exact .inr (ih hts hm)

/-- The body of a template as a part of the forest of its file. -/
theorem Planted.exists_body (h : f.Planted ts) (hid : (id, t) ∈ f.declared) :
    ∃ b, f.Holds b ∧ t.body = roots b ∧ f.descendants id = ids b ∧ id ∉ ids b ∧
      ∀ p ∈ scopes [] b, p ∈ scopes [] ts := by
  obtain ⟨b, hb⟩ := h.holds.mem_of_declared h.roots_eq h.areTemplates hid
  have hroot := h.holds.of_mem hb
  obtain ⟨-, -, hlist⟩ := h.template_of_mem hb List.mem_cons_self
  refine ⟨b, hroot.body List.mem_cons_self, hlist, ?_, hroot.root_notMem_body List.mem_cons_self, ?_⟩
  · rw [hroot.descendants_eq, List.flatMap_singleton]
  · exact fun _ hp => mem_scopes_of_template h.areTemplates hb List.mem_cons_self hp

/-- The walk meets each node of a body. -/
theorem ids_eq_scopes (b : Forest) : ids b = (scopes [] b).map fun p => p.1.id := by
  rw [ids, ← map_fst_scopes [] b, List.map_map]
  rfl

/-- **What is open in a body.** The variables below a template that no loop and no `{let}` binds. -/
theorem Planted.mem_openRefs (h : f.Planted ts) (hid : (id, t) ∈ f.declared) :
    x ∈ f.openRefs t.body ↔ ∃ node ∈ f.descendants id, x ∈ varRefs (f.kind node).exprs ∧
      ∀ b, ¬ f.Binds x.name b node := by
  obtain ⟨b, hbody, hlist, hbelow, -, hscopes⟩ := h.exists_body hid
  -- no name in scope means that no node binds it
  have hopen : ∀ u s, (u, s) ∈ scopes [] b →
      ((!(s.map Prod.fst).contains x.name) = true ↔ ∀ n, ¬ f.Binds x.name n u.id) := by
    intro u s hu
    have hscope : ∀ n, (x.name, n) ∈ s ↔ f.Binds x.name n u.id := fun n =>
      h.mem_scope_iff (hscopes _ hu)
    simp only [Bool.not_eq_true', ← Bool.not_eq_true, List.contains_iff_mem, List.mem_map, Prod.exists,
      ← hscope]
    grind
  -- the nodes of the body are those of the table
  have hkind : ∀ u s, (u, s) ∈ scopes [] b → f.kind u.id = u.kind := fun u s hu => by
    refine hbody.shows_nodes u ?_
    rw [← map_fst_scopes [] b]
    exact List.mem_map_of_mem hu
  rw [openRefs, hlist, hbody.scopedNodes_eq, hbelow, ids_eq_scopes, List.flatMap_map]
  simp only [List.mem_flatMap, List.mem_filter, List.mem_map]
  constructor
  · rintro ⟨⟨u, s⟩, hu, hx, hnot⟩
    exact ⟨u.id, ⟨_, hu, rfl⟩, hx, (hopen u s hu).mp hnot⟩
  · rintro ⟨-, ⟨⟨u, s⟩, hu, rfl⟩, hx, hnot⟩
    exact ⟨_, hu, hx, (hopen u s hu).mpr hnot⟩

/-- A node stands in one template. -/
theorem Planted.template_unique (h : f.Planted ts) {id' : NodeId} {t' : Template} {node : NodeId}
    (hid : (id, t) ∈ f.declared) (hid' : (id', t') ∈ f.declared) (hnode : node ∈ id :: f.descendants id)
    (hnode' : node ∈ id' :: f.descendants id') : id = id' ∧ t = t' := by
  obtain ⟨hmem, hkind⟩ := kind_of_mem_declared hid
  obtain ⟨hmem', hkind'⟩ := kind_of_mem_declared hid'
  -- the templates are walked one after the other and the walk names no node twice
  have hnodup : (f.templates.flatMap fun i => i :: f.descendants i).Nodup := by
    have hreach : f.reachable.Nodup := h.reachable_eq ▸ h.holds.nodup
    exact hreach
  obtain rfl : id = id' := by
    by_contra hne
    have hsymm : Std.Symm (Function.onFun List.Disjoint fun i => i :: f.descendants i) :=
      ⟨fun _ _ hd _ hx hy => hd hy hx⟩
    exact (List.nodup_flatMap.mp hnodup).2.forall hmem hmem' hne hnode hnode'
  exact ⟨rfl, NodeKind.template.inj (hkind.symm.trans hkind')⟩

/-- Nothing is bound at a template. -/
theorem Planted.not_binds_template (h : f.Planted ts) (hid : (id, t) ∈ f.declared) {y : String}
    {b : NodeId} : ¬ f.Binds y b id := by
  intro hbinds
  obtain ⟨⟨i, k, bs⟩, hm, c, hc, hinside⟩ := (h.binds_iff.mpr hbinds).of_templates h.areTemplates
  obtain ⟨u, hu⟩ := h.areTemplates _ hm
  obtain rfl : k = .template u := hu
  obtain ⟨htemplate, hkind, -⟩ := h.template_of_mem hm hc
  have hi : (i, u) ∈ f.declared :=
    List.mem_filterMap.mpr ⟨i, htemplate, by rw [template?_eq_some.mpr hkind]; rfl⟩
  have hroot := h.holds.of_mem hm
  have hbelow : id ∈ f.descendants i := by
    rw [hroot.descendants_eq]
    exact List.mem_flatMap.mpr ⟨c, hc, hinside.mem_ids⟩
  -- the binder is in the same template, so the template would be inside itself
  obtain ⟨rfl, -⟩ := h.template_unique hid hi List.mem_cons_self (List.mem_cons_of_mem _ hbelow)
  exact hroot.root_notMem_body hc hinside.mem_ids

/-! ### What is reported -/

/-- The error of a variable that nothing binds. -/
def undeclared (f : TemplateFile) (x : VarRef) : Diagnostic :=
  .errorAt Pass.checkHeaderVars.name ("undeclared variable '$" ++ x.name ++ "'") (f.location x.span)

/-- An error names the place of its variable. -/
theorem span_of_undeclared {y : VarRef} (h : f.undeclared x = f.undeclared y) : x.span = y.span := by
  have hlocation := congrArg Diagnostic.location h
  exact Option.some.inj (congrArg Location.span (Option.some.inj hlocation))

/-- The variables in the body of a template that nothing binds, neither in the body nor in the header. -/
def strayRefs (f : TemplateFile) (t : Template) : List VarRef :=
  (f.openRefs t.body).filter fun x => !(declaredNames t).contains x.name

/-- The errors of the check are those of stray variables, template by template. -/
theorem errors_checkVariables (f : TemplateFile) :
    Diagnostics.errors f.checkVariables =
      f.declared.flatMap fun p => (f.strayRefs p.2).map f.undeclared := by
  rw [Diagnostics.errors, checkVariables, List.filter_flatMap]
  refine List.flatMap_congr fun p _ => ?_
  obtain ⟨i, t⟩ := p
  have hundeclared : ∀ xs : List VarRef,
      (xs.map f.undeclared).filter (·.isError) = xs.map f.undeclared := fun xs => by
    refine List.filter_eq_self.mpr (List.forall_mem_map.mpr fun _ _ => rfl)
  change (f.templateVariables i t).filter _ = _
  unfold templateVariables
  rw [List.filter_append]
  refine (congrArg₂ (· ++ ·) (hundeclared (f.strayRefs t)) ?_).trans (List.append_nil _)
  -- a parameter without use is not an error
  split
  · rfl
  · exact List.filter_eq_nil_iff.mpr (List.forall_mem_map.mpr fun _ _ => Bool.false_ne_true)

/-- An error is that of a stray variable of some template. -/
theorem mem_errors_iff {f : TemplateFile} {d : Diagnostic} :
    d ∈ Diagnostics.errors f.checkVariables ↔
      ∃ id t, (id, t) ∈ f.declared ∧ ∃ x ∈ f.strayRefs t, d = f.undeclared x := by
  rw [errors_checkVariables]
  simp only [List.mem_flatMap, List.mem_map, Prod.exists, eq_comm (a := d)]

/-- A stray variable is used below the template, and nothing binds it there. -/
theorem Planted.mem_strayRefs (h : f.Planted ts) (hid : (id, t) ∈ f.declared) :
    x ∈ f.strayRefs t ↔ ∃ node ∈ f.descendants id, x ∈ varRefs (f.kind node).exprs ∧
      x.name ∉ declaredNames t ∧ ∀ b, ¬ f.Binds x.name b node := by
  rw [strayRefs, List.mem_filter, h.mem_openRefs hid, Bool.not_eq_true', ← Bool.not_eq_true,
    List.contains_iff_mem]
  constructor
  · rintro ⟨⟨node, hnode, hx, hb⟩, hdeclared⟩
    exact ⟨node, hnode, hx, hdeclared, hb⟩
  · rintro ⟨node, hnode, hx, hdeclared, hb⟩
    exact ⟨⟨node, hnode, hx, hb⟩, hdeclared⟩

/-- **When a variable is reported.** A variable of the body is, if nothing binds it; a variable of the
header never is. -/
theorem Rooted.undeclared_mem_iff (h : f.Rooted) (hid : (id, t) ∈ f.declared) {node : NodeId}
    (hnode : node ∈ id :: f.descendants id) (hx : x ∈ varRefs (f.kind node).exprs) :
    f.undeclared x ∈ f.checkVariables ↔
      node ≠ id ∧ x.name ∉ declaredNames t ∧ ∀ b, ¬ f.Binds x.name b node := by
  have hrooted := h
  obtain ⟨ts, hts, -⟩ := h
  -- the report is an error, and no warning is looked at here
  have herror : f.undeclared x ∈ f.checkVariables ↔
      f.undeclared x ∈ Diagnostics.errors f.checkVariables := by
    rw [Diagnostics.errors, List.mem_filter]
    exact (and_iff_left rfl).symm
  -- nodes of a template can be reached
  have hreach : ∀ {i : NodeId} {u : Template} {n : NodeId}, (i, u) ∈ f.declared →
      n ∈ i :: f.descendants i → n ∈ f.reachable := fun hi hn =>
    List.mem_flatMap.mpr ⟨_, (kind_of_mem_declared hi).1, hn⟩
  obtain ⟨b, -, -, hbelow, hnot, -⟩ := hts.exists_body hid
  rw [herror, mem_errors_iff]
  constructor
  · rintro ⟨id', t', hid', y, hstray, heq⟩
    obtain ⟨node', hnode', hy, hdeclared, hfree⟩ := (hts.mem_strayRefs hid').mp hstray
    have hspan := span_of_undeclared heq
    -- the error is that of a variable in the same place, so in the same node
    obtain rfl := hrooted.node_unique (hreach hid hnode) (hreach hid' (List.mem_cons_of_mem _ hnode'))
      hx hy hspan
    obtain ⟨rfl, rfl⟩ := hts.template_unique hid hid' hnode (List.mem_cons_of_mem _ hnode')
    -- within one node no two variables have the same place
    obtain rfl : x = y := by
      by_contra hne
      have hsymm : Std.Symm fun x y : VarRef => x.span ≠ y.span := ⟨fun _ _ h heq => h heq.symm⟩
      have hpairs := (List.pairwise_flatMap.mp hrooted.pairwise_heldRefs).1 node (hreach hid hnode)
      exact hpairs.forall hx hy hne hspan
    exact ⟨fun heq => hnot (hbelow ▸ heq ▸ hnode'), hdeclared, hfree⟩
  · rintro ⟨hne, hdeclared, hfree⟩
    obtain rfl | hnode := List.mem_cons.mp hnode
    -- the template itself is left out by the check
    · exact absurd rfl hne
    · exact ⟨id, t, hid, x, (hts.mem_strayRefs hid).mpr ⟨node, hnode, hx, hdeclared, hfree⟩, rfl⟩

/-- The variables that are reported, template by template, are variables of the file in its order. -/
theorem Planted.strayRefs_sublist (h : f.Planted ts) :
    (f.declared.flatMap fun p => f.strayRefs p.2).Sublist f.heldRefs := by
  -- in each template they are some of its variables
  have htemplate : ∀ p ∈ f.declared, (f.strayRefs p.2).Sublist
      ((p.1 :: f.descendants p.1).flatMap fun n => varRefs (f.kind n).exprs) := by
    rintro ⟨i, u⟩ hp
    obtain ⟨b, hbody, hlist, hbelow, -⟩ := h.exists_body hp
    refine List.filter_sublist.trans ?_
    rw [openRefs, hlist, hbody.scopedNodes_eq, List.flatMap_map, List.flatMap_cons, hbelow,
      ids_eq_scopes, List.flatMap_map]
    refine List.Sublist.trans (List.Sublist.flatMap_right _ fun p _ => List.filter_sublist) ?_
    exact List.sublist_append_right _ _
  have hdeclared : f.declared.map Prod.fst = f.templates := by
    have heq := congrArg (List.map Prod.fst) (h.holds.shows_nodes.declared_eq h.roots_eq h.areTemplates)
    rw [List.map_map, List.map_map] at heq
    exact heq.symm.trans h.roots_eq
  -- and the variables of the file are those of its templates
  have hheld : f.heldRefs = f.declared.flatMap fun p =>
      (p.1 :: f.descendants p.1).flatMap fun n => varRefs (f.kind n).exprs := by
    rw [heldRefs, reachable, ← hdeclared, List.flatMap_map, List.flatMap_assoc]
  rw [hheld]
  exact List.Sublist.flatMap_right _ htemplate

/-- Every error is reported once. -/
theorem Rooted.nodup_errors (h : f.Rooted) : (Diagnostics.errors f.checkVariables).Nodup := by
  obtain ⟨ts, hts, -⟩ := id h
  rw [errors_checkVariables, ← List.map_flatMap]
  refine List.pairwise_map.mpr ((h.pairwise_heldRefs.sublist hts.strayRefs_sublist).imp ?_)
  exact fun hne heq => hne (span_of_undeclared heq)

end TemplateFile

/-! ### Sources -/

section Sources

variable {source : SourceText} {f g : TemplateFile}

/-- **Undeclared variables of what was parsed.** Whatever passes on single files ran before, a variable of
a template is reported if and only if it stands in the body, no declaration of the header has its name,
and no loop and no `{let}` binds it there. Each is reported once, and nothing else is an error. -/
theorem parse_undeclared (h : parse source = .ok f) (s : Settings) (ps : List Pass)
    (hg : g = (f.runPasses s ps).1) :
    (∀ id t, (id, t) ∈ g.declared → ∀ node ∈ id :: g.descendants id,
      ∀ x ∈ varRefs (g.kind node).exprs, (g.undeclared x ∈ g.checkVariables ↔
        node ≠ id ∧ x.name ∉ declaredNames t ∧ ∀ b, ¬ g.Binds x.name b node)) ∧
    (∀ d ∈ Diagnostics.errors g.checkVariables, ∃ id t, (id, t) ∈ g.declared ∧
      ∃ node ∈ g.descendants id, ∃ x ∈ varRefs (g.kind node).exprs, d = g.undeclared x) ∧
    (Diagnostics.errors g.checkVariables).Nodup := by
  have hrooted : g.Rooted := hg ▸ (rooted_of_parse h).runPasses s ps
  obtain ⟨ts, hts, -⟩ := id hrooted
  refine ⟨fun id t hid node hnode x hx => hrooted.undeclared_mem_iff hid hnode hx, ?_,
    hrooted.nodup_errors⟩
  intro d hd
  obtain ⟨id, t, hid, x, hx, rfl⟩ := mem_errors_iff.mp hd
  obtain ⟨node, hnode, hx, -⟩ := (hts.mem_strayRefs hid).mp hx
  exact ⟨id, t, hid, node, hnode, x, hx, rfl⟩

/-- A variable that nothing declares, in the header and in the body of an element. -/
def ghostState : SourceText :=
  ⟨"a.st", "\x7bnamespace a\x7d\x7belement .e\x7d\x7b@state s: string = $ghost\x7d" ++
    "<p>\x7b$s\x7d\x7b$ghost\x7d</p>\x7b/element\x7d"⟩

/-- What the source is read to: an element with a variable in its header and one in its body, of which the
second is reported. -/
theorem parse_ghostState : ∃ f, parse ghostState = .ok f ∧
    (f.declared.map fun p => (p.1, declaredNames p.2)) = [(4, ["s"])] ∧
    varRefs (f.kind 4).exprs = [⟨"ghost", ⟨45, 51⟩⟩] ∧
    varRefs (f.kind 2).exprs = [⟨"ghost", ⟨60, 66⟩⟩] ∧ f.descendants 4 = [0, 1, 2, 3] ∧
    f.checkVariables = [f.undeclared ⟨"ghost", ⟨60, 66⟩⟩] := by
  have hrun : (parse ghostState).toOption.map (fun f => decide
      ((f.declared.map fun p => (p.1, declaredNames p.2)) = [(4, ["s"])] ∧
        varRefs (f.kind 4).exprs = [⟨"ghost", ⟨45, 51⟩⟩] ∧
        varRefs (f.kind 2).exprs = [⟨"ghost", ⟨60, 66⟩⟩] ∧ f.descendants 4 = [0, 1, 2, 3] ∧
        f.checkVariables = [f.undeclared ⟨"ghost", ⟨60, 66⟩⟩])) = some true := by decide +kernel
  obtain ⟨f, hp, hf⟩ := exists_of_toOption_map hrun
  exact ⟨f, hp, of_decide_eq_true hf⟩

/-- The variable of the body is reported, the one of the header is not. -/
theorem parse_undeclared_ghostState : ∃ f t, parse ghostState = .ok f ∧ (4, t) ∈ f.declared ∧
    (f.undeclared ⟨"ghost", ⟨60, 66⟩⟩ ∈ f.checkVariables ↔
      2 ≠ 4 ∧ "ghost" ∉ declaredNames t ∧ ∀ b, ¬ f.Binds "ghost" b 2) ∧
    f.undeclared ⟨"ghost", ⟨60, 66⟩⟩ ∈ f.checkVariables ∧
    (Diagnostics.errors f.checkVariables).Nodup := by
  obtain ⟨f, hp, hdeclared, -, hbody, hbelow, hcheck⟩ := parse_ghostState
  obtain ⟨⟨id, t⟩, heq, ht⟩ := List.map_eq_singleton_iff.mp hdeclared
  obtain ⟨rfl, -⟩ := Prod.mk.inj ht
  have hid : (4, t) ∈ f.declared := heq ▸ List.mem_singleton_self _
  obtain ⟨hmem, -, hnodup⟩ := parse_undeclared hp (.default default) [] rfl
  -- the reference in the body is reported; the one in the header is the next theorem's
  refine ⟨f, t, hp, hid, ?_, ?_, hnodup⟩
  · refine hmem 4 t hid 2 ?_ ⟨"ghost", ⟨60, 66⟩⟩ ?_
    · change 2 ∈ 4 :: f.descendants 4
      rw [hbelow]
      decide
    · change _ ∈ varRefs (f.kind 2).exprs
      rw [hbody]
      exact List.mem_singleton_self _
  · rw [hcheck]
    exact List.mem_singleton_self _

/-- Nothing declares the variable of the header, yet it is not reported. -/
theorem checkVariables_misses_ghostState : ∃ f t x, parse ghostState = .ok f ∧ (4, t) ∈ f.declared ∧
    x ∈ varRefs (f.kind 4).exprs ∧ x.name ∉ declaredNames t ∧ (∀ b, ¬ f.Binds x.name b 4) ∧
    f.undeclared x ∉ f.checkVariables := by
  obtain ⟨f, hp, hdeclared, hheader, -, -, hcheck⟩ := parse_ghostState
  obtain ⟨⟨id, t⟩, heq, ht⟩ := List.map_eq_singleton_iff.mp hdeclared
  obtain ⟨rfl, hnames⟩ := Prod.mk.inj ht
  have hid : (4, t) ∈ f.declared := heq ▸ List.mem_singleton_self _
  obtain ⟨ts, hts, -⟩ := rooted_of_parse hp
  -- the reference in the header: the node of a template binds nothing for itself
  refine ⟨f, t, ⟨"ghost", ⟨45, 51⟩⟩, hp, hid, ?_, ?_, fun b => hts.not_binds_template hid, ?_⟩
  · rw [hheader]
    exact List.mem_singleton_self _
  · change "ghost" ∉ declaredNames t
    rw [show declaredNames t = ["s"] from hnames]
    decide
  · rw [hcheck]
    intro hmem
    have hspan := span_of_undeclared (List.mem_singleton.mp hmem)
    exact absurd hspan (by decide)

end Sources

end TemplateFrontend
