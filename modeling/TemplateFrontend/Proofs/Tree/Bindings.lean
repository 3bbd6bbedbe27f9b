import TemplateFrontend.Proofs.Tree.Arena
import TemplateFrontend.Proofs.Expr.Parts
import TemplateFrontend.Proofs.Tree.Mapping
/-!
# What is bound at a node

A reference means the innermost loop around it, or `{let}` before it in a list around it, that binds its
name; if there is none, it means what the header declares. `scopedNodes` has the names that are bound at
each node. Here the names come with the nodes that bind them, so that references before a change of the
tree can be compared with those after it.

`Forest.scopes` carries names and the nodes that bind them along a walk. The same is then read off the
lists of a file, without a walk: a loop binds its variable at every node below it, and a `{let}` binds its
variable at the nodes after it in its list, and below those.

* `Scope`, `Forest.scopes` — the nodes of a forest, each with what is bound where it stands;
* `TemplateFile.Holds.scopedNodes_eq` — the names are those that `scopedNodes` has;
* `Forest.references` — the references of a forest, each with the node that it means;
* `Forest.references_append` — a list behind another one, in the scope that the first one leaves;
* `Forest.reference_unique` — a node of the forest refers to one binder by one name;
* `TemplateFile.Binds` — the node that binds a name at another node;
* `Forest.Binds` — the same in a forest, by its constructors;
* `Forest.mem_scope_iff` — what the walk has in scope at a node of a forest;
* `TemplateFile.Planted.mem_scope_iff` — the same for the lists of a file.
-/

namespace TemplateFrontend

open TemplateFile

/-- What is bound at some place: names with the nodes that bind them, the innermost first. -/
abbrev Scope := List (String × NodeId)

/-- A reference to a variable in an expression of a node. -/
structure Reference where
  node : NodeId
  ref : VarRef
  /-- The node that binds the variable; without one, the header does. -/
  binder : Option NodeId
  deriving DecidableEq, Repr

namespace Reference

/-- Where a reference stands: the node, and the variable with its place. -/
def occurrence (r : Reference) : NodeId × VarRef := (r.node, r.ref)

end Reference

/-- What a node binds for the nodes inside it. -/
def NodeKind.scopeInside (k : NodeKind) (id : NodeId) : Scope := (bindsInside k).map (·, id)

/-- What a node binds for the nodes after it in its list. -/
def NodeKind.scopeAfter (k : NodeKind) (id : NodeId) : Scope := (bindsAfter k).map (·, id)

/-- The references in the expressions of a node. -/
def NodeKind.references (k : NodeKind) (id : NodeId) (scope : Scope) : List Reference :=
  (varRefs k.exprs).map fun r => ⟨id, r, scope.lookup r.name⟩

mutual

/-- The node and everything below it, each with what is bound there. -/
def NodeTree.scopes (scope : Scope) : NodeTree → List (NodeTree × Scope)
  | .node id k bodies =>
    (.node id k bodies, scope) :: Forest.scopesAll (k.scopeInside id ++ scope) bodies

/-- The nodes of a list and everything below them, each with what is bound there. -/
def Forest.scopes (scope : Scope) : Forest → List (NodeTree × Scope)
  | [] => []
  | t :: ts => t.scopes scope ++ Forest.scopes (t.kind.scopeAfter t.id ++ scope) ts

/-- The nodes of several lists in one scope. -/
def Forest.scopesAll (scope : Scope) : List Forest → List (NodeTree × Scope)
  | [] => []
  | b :: bs => Forest.scopes scope b ++ Forest.scopesAll scope bs

end

namespace Forest

section Scoped

variable {scope : Scope}

/-- Several lists are walked in the same scope. -/
theorem scopesAll_eq_flatMap (scope : Scope) (bs : List Forest) :
    scopesAll scope bs = bs.flatMap (scopes scope) := by
  induction bs with
  | nil => rfl
  | cons b bs ih => rw [scopesAll, ih, List.flatMap_cons]

@[simp] theorem scopes_nil (scope : Scope) : scopes scope [] = [] := rfl

/-- The first node, then its lists in what it binds for them, then the others in what it leaves. -/
@[simp] theorem scopes_cons (scope : Scope) (id : NodeId) (k : NodeKind) (bs : List Forest)
    (ts : Forest) : scopes scope (.node id k bs :: ts) =
      (.node id k bs, scope) :: (bs.flatMap (scopes (k.scopeInside id ++ scope)) ++
 scopes (k.scopeAfter id ++ scope) ts) := by
  rw [scopes, NodeTree.scopes, scopesAll_eq_flatMap]
  rfl

/-- Every node of the forest is met once, in order. -/
theorem map_fst_scopes (scope : Scope) (ts : Forest) :
    (scopes scope ts).map Prod.fst = subtrees ts := by
  induction ts using Forest.induct generalizing scope with
  | nil => rfl
  | cons id k bs ts ihb iht =>
    rw [scopes_cons, subtrees_cons, List.map_cons, List.map_append, iht, List.map_flatMap]
    exact congrArg (_ :: · ++ subtrees ts) (List.flatMap_congr fun b hb => ihb b hb _)

end Scoped

/-! ### References -/

/-- The references of a forest, node by node. -/
def references (scope : Scope) (ts : Forest) : List Reference :=
  (scopes scope ts).flatMap fun p => p.1.kind.references p.1.id p.2

section References

variable {scope : Scope} {ts us : Forest}

@[simp] theorem references_nil (scope : Scope) : references scope [] = [] := rfl

/-- The references of the first node, then those in its lists, then those of the others. -/
@[simp] theorem references_cons (scope : Scope) (id : NodeId) (k : NodeKind) (bs : List Forest)
    (ts : Forest) : references scope (.node id k bs :: ts) =
      k.references id scope ++ (bs.flatMap (references (k.scopeInside id ++ scope)) ++
        references (k.scopeAfter id ++ scope) ts) := by
  rw [references, scopes_cons, List.flatMap_cons, List.flatMap_append, List.flatMap_assoc]
  rfl

/-- What the nodes of a list bind for what follows the list. -/
def scopeAfter : Forest → Scope
  | [] => []
  | t :: ts => scopeAfter ts ++ t.kind.scopeAfter t.id

/-- **A list behind another one** is in the scope that the first one leaves. -/
theorem references_append (scope : Scope) (ts us : Forest) :
    references scope (ts ++ us) = references scope ts ++ references (scopeAfter ts ++ scope) us := by
  induction ts generalizing scope with
  | nil => rfl
  | cons t ts ih =>
    obtain ⟨id, k, bs⟩ := t
    rw [List.cons_append, references_cons, references_cons, ih, scopeAfter, NodeTree.kind_node,
      NodeTree.id_node, List.append_assoc, List.append_assoc, List.append_assoc]

/-- What binds names after a list are roots of the list. -/
theorem mem_roots_of_scopeAfter {p : String × NodeId} (h : p ∈ scopeAfter ts) : p.2 ∈ roots ts := by
  induction ts with
  | nil => cases h
  | cons t ts ih =>
    obtain h | h := List.mem_append.mp h
    · exact List.mem_cons_of_mem _ (ih h)
    · obtain ⟨x, -, rfl⟩ := List.mem_map.mp h
      exact List.mem_cons_self

/-- A reference is a variable in an expression of a node, and is bound by what is in scope there. -/
theorem mem_references {r : Reference} : r ∈ references scope ts ↔
    ∃ t s, (t, s) ∈ scopes scope ts ∧ r.node = t.id ∧ r.ref ∈ varRefs t.kind.exprs ∧
      r.binder = s.lookup r.ref.name := by
  simp only [references, List.mem_flatMap, NodeKind.references, List.mem_map, Prod.exists]
  constructor
  · rintro ⟨t, s, hts, v, hv, rfl⟩
    exact ⟨t, s, hts, rfl, hv, rfl⟩
  · rintro ⟨t, s, hts, hnode, hv, hbinder⟩
    refine ⟨t, s, hts, r.ref, hv, ?_⟩
    rw [← hnode, ← hbinder]

/-- **One meaning.** In a forest without repeated nodes, two references of one name in one node mean the
same. -/
theorem reference_unique (hn : (ids ts).Nodup) {r r' : Reference} (h : r ∈ references scope ts)
    (h' : r' ∈ references scope ts) (heq : r.occurrence = r'.occurrence) : r = r' := by
  obtain ⟨t, s, hts, hnode, -, hbinder⟩ := mem_references.mp h
  obtain ⟨t', s', hts', hnode', -, hbinder'⟩ := mem_references.mp h'
  obtain ⟨hsame, href⟩ := Prod.mk.inj heq
  -- a node has one scope, as its number comes once
  have hids : ((scopes scope ts).map fun p => p.1.id).Nodup := by
    have hmap : (scopes scope ts).map (fun p => p.1.id) = ids ts := by
      rw [ids, ← map_fst_scopes scope ts, List.map_map]
      rfl
    rwa [hmap]
  -- the node is met once, so both references are in the same scope
  obtain ⟨rfl, rfl⟩ : t = t' ∧ s = s' := by
    have hpair := List.inj_on_of_nodup_map hids hts hts' (by rw [← hnode, ← hnode', hsame])
    exact Prod.mk.inj hpair
  obtain ⟨node, ref, binder⟩ := r
  obtain ⟨node', ref', binder'⟩ := r'
  obtain rfl : node = node' := hsame
  obtain rfl : ref = ref' := href
  rw [Reference.mk.injEq]
  exact ⟨rfl, rfl, hbinder.trans hbinder'.symm⟩

/-- Folding constants changes neither scopes nor references. -/
theorem references_mapKinds_fold (scope : Scope) (ts : Forest) :
    references scope (mapKinds (NodeKind.mapExprs Expr.fold) ts) = references scope ts := by
  induction ts using Forest.induct generalizing scope with
  | nil => rfl
  | cons id k bs ts ihb iht =>
    have hinside : (k.mapExprs Expr.fold).scopeInside id = k.scopeInside id := by cases k <;> rfl
    have hafter : (k.mapExprs Expr.fold).scopeAfter id = k.scopeAfter id := by cases k <;> rfl
    -- folding keeps the variables of an expression, in their order
    have hself : (k.mapExprs Expr.fold).references id scope = k.references id scope := by
      rw [NodeKind.references, NodeKind.varRefs_mapExprs_fold]
      rfl
    rw [mapKinds_cons, references_cons, references_cons, hinside, hafter, hself, iht,
      List.flatMap_map]
    congr 2
    exact List.flatMap_congr fun b hb => ihb b hb _

end References

end Forest

/-! ### The table -/

namespace TemplateFile

open Forest

/-- The references of a template of the file. -/
def references (f : TemplateFile) (id : NodeId) : List Reference :=
  Forest.references [] (f.forest [id])

/-- **Scopes by name.** The scopes of a forest, with the names only, are those that a walk over the table
finds. -/
theorem withScopes_eq {f : TemplateFile} {ts : Forest} (h : f.Holds ts) (scope : Scope) {fuel : Nat}
    (hfuel : (ids ts).length ≤ fuel) : f.withScopes fuel (scope.map Prod.fst) (roots ts) =
      (scopes scope ts).map fun p => (p.1.id, p.2.map Prod.fst) := by
  induction ts using Forest.induct generalizing scope fuel with
  | nil => cases fuel <;> rfl
  | cons id k bs ts ihb iht =>
    rw [ids_cons, List.length_cons, List.length_append] at hfuel
    obtain ⟨fuel, rfl⟩ : ∃ n, fuel = n + 1 := ⟨fuel - 1, by omega⟩
    -- without the nodes that bind them only the names are left
    have hnames : ∀ names : List String,
        (names.map (·, id) ++ scope).map Prod.fst = names ++ scope.map Prod.fst := by
      intro names
      rw [List.map_append, List.map_map]
      exact congrArg (· ++ _) (List.map_id' names)
    have hrestFuel : (ids ts).length ≤ fuel := by omega
    -- inside the node with what it binds there, behind it with what it binds there
    have hbody : ∀ b ∈ bs, f.withScopes fuel (bindsInside k ++ scope.map Prod.fst) (roots b) =
        (scopes (k.scopeInside id ++ scope) b).map fun p => (p.1.id, p.2.map Prod.fst) := by
      intro b hb
      have hbodyFuel : (ids b).length ≤ fuel := by
        have hle := (sublist_flatMap ids hb).length_le
        omega
      rw [← ihb b hb (h.body hb) _ hbodyFuel, NodeKind.scopeInside, hnames]
    have hrest : f.withScopes fuel (bindsAfter k ++ scope.map Prod.fst) (roots ts) =
        (scopes (k.scopeAfter id ++ scope) ts).map fun p => (p.1.id, p.2.map Prod.fst) := by
      rw [← iht h.tail _ hrestFuel, NodeKind.scopeAfter, hnames]
    rw [roots_cons, NodeTree.id_node, withScopes, h.kind_eq, h.bodies_eq, hrest, scopes_cons,
      List.map_cons, List.map_append, List.map_flatMap, List.flatMap_map]
    exact congrArg (_ :: · ++ _) (List.flatMap_congr hbody)

/-- The walk that starts with nothing bound. -/
theorem Holds.scopedNodes_eq {f : TemplateFile} {ts : Forest} (h : f.Holds ts) :
    f.scopedNodes (roots ts) = (scopes [] ts).map fun p => (p.1.id, p.2.map Prod.fst) :=
  withScopes_eq h [] h.length_ids_le

end TemplateFile

/-! ### The lists of a file -/

/-- The node `b` binds the variable `x` where the node `id` stands. -/
inductive TemplateFile.Binds (f : TemplateFile) (x : String) (b id : NodeId) : Prop
  /-- A loop around the node. -/
  | around {list : Expr} {body : List NodeId} (hb : f.Reaches b) (hkind : f.kind b = .loop x list body)
      (hbelow : Relation.TransGen (fun a c => c ∈ f.children a) b id)
  /-- A `{let}` before the node, or before a node around it, in one list. -/
  | before {bound : Bound} {owner next : NodeId} {body : List NodeId} (howner : f.Reaches owner)
      (hbody : body ∈ (f.kind owner).bodies) (hkind : f.kind b = .binding x bound)
      (hbefore : [b, next].Sublist body)
      (hbelow : Relation.ReflTransGen (fun a c => c ∈ f.children a) next id)

namespace NodeKind

variable {k : NodeKind} {id : NodeId} {p : String × NodeId}

/-- Only a loop binds a name for the nodes inside it. -/
theorem mem_scopeInside : p ∈ k.scopeInside id ↔ p.2 = id ∧ ∃ list body, k = .loop p.1 list body := by
  obtain ⟨x, b⟩ := p
  cases k <;> simp [scopeInside, bindsInside]
  grind

/-- Only a binding binds a name for the nodes after it. -/
theorem mem_scopeAfter : p ∈ k.scopeAfter id ↔ p.2 = id ∧ ∃ bound, k = .binding p.1 bound := by
  obtain ⟨x, b⟩ := p
  cases k <;> simp [scopeAfter, bindsAfter]
  grind

end NodeKind

namespace Forest

/-- A node of the forest binds the name of `p` where the node `id` of the forest stands; `p` is the name
with the node that binds it. -/
inductive Binds (p : String × NodeId) (id : NodeId) : Forest → Prop
  | inside {i : NodeId} {k : NodeKind} {bs : List Forest} {ts : Forest} (hp : p ∈ k.scopeInside i)
      (hid : id ∈ bs.flatMap ids) : Binds p id (.node i k bs :: ts)
  | after {i : NodeId} {k : NodeKind} {bs : List Forest} {ts : Forest} (hp : p ∈ k.scopeAfter i)
      (hid : id ∈ ids ts) : Binds p id (.node i k bs :: ts)
  | body {i : NodeId} {k : NodeKind} {bs : List Forest} {b ts : Forest} (hb : b ∈ bs)
      (h : Binds p id b) : Binds p id (.node i k bs :: ts)
  | rest {i : NodeId} {k : NodeKind} {bs : List Forest} {ts : Forest} (h : Binds p id ts) :
      Binds p id (.node i k bs :: ts)

section Binds

variable {f : TemplateFile} {p : String × NodeId} {id : NodeId} {ts : Forest}

/-- Names are bound at nodes inside the forest, and at no root before another node. -/
theorem Binds.mem_ids (h : Binds p id ts) : id ∈ ids ts := by
  induction h with
  | inside _ hid =>
    rw [ids_cons]
    exact List.mem_cons_of_mem _ (List.mem_append_left _ hid)
  | after _ hid =>
    rw [ids_cons]
    exact List.mem_cons_of_mem _ (List.mem_append_right _ hid)
  -- the place is in a list of a node further in or further on
  | body hb _ ih =>
    rw [ids_cons]
    exact List.mem_cons_of_mem _ (List.mem_append_left _ (List.mem_flatMap.mpr ⟨_, hb, ih⟩))
  | rest _ ih =>
    rw [ids_cons]
    exact List.mem_cons_of_mem _ (List.mem_append_right _ ih)

/-- **What is in scope.** At a node of a forest, what was in scope before the forest and what the forest
binds there. -/
theorem mem_scope_iff (hf : f.Holds ts) {scope s : Scope} {t : NodeTree}
    (ht : (t, s) ∈ scopes scope ts) : p ∈ s ↔ p ∈ scope ∨ Binds p t.id ts := by
  induction ts using Forest.induct generalizing scope with
  | nil => cases ht
  | cons i k bs ts ihb iht =>
    -- what has a scope in a list is a node of it
    have hmem : ∀ {sc : Scope} {us : Forest}, (t, s) ∈ scopes sc us → t.id ∈ ids us := by
      intro sc us htu
      have hfst : t ∈ subtrees us := by
        rw [← map_fst_scopes sc us]
        exact List.mem_map_of_mem htu
      exact List.mem_map_of_mem hfst
    rw [scopes_cons] at ht
    rcases List.mem_cons.mp ht with hhead | ht
    · -- nothing inside or after the first node is bound at it
      obtain ⟨rfl, rfl⟩ := Prod.mk.inj hhead
      refine ⟨.inl, fun h => h.elim id fun h => ?_⟩
      cases h with
      | inside _ hid => exact absurd hid hf.root_notMem_inside
      | after _ hid => exact absurd hid hf.root_notMem_tail
      | body hb h => exact absurd h.mem_ids (hf.root_notMem_body hb)
      | rest h => exact absurd h.mem_ids hf.root_notMem_tail
    rcases List.mem_append.mp ht with ht | ht
    · obtain ⟨b, hb, ht⟩ := List.mem_flatMap.mp ht
      have hid := hmem ht
      -- a node inside the first one is not behind it
      have hnot : t.id ∉ ids ts := fun h => hf.disjoint_body_tail hb hid h
      rw [ihb b hb (hf.body hb) ht, List.mem_append]
      constructor
      · rintro ((hp | hp) | h)
        · exact .inr (.inside hp (List.mem_flatMap.mpr ⟨b, hb, hid⟩))
        · exact .inl hp
        · exact .inr (.body hb h)
      · rintro (hp | h)
        · exact .inl (.inr hp)
        cases h with
        | inside hp _ => exact .inl (.inl hp)
        | after _ hts => exact absurd hts hnot
        | @body _ _ _ c _ hc h =>
          -- the lists inside a node have no node in common
          obtain rfl : b = c := by
            by_contra hne
            exact hf.disjoint_bodies hb hc hne hid h.mem_ids
          exact .inr h
        | rest h => exact absurd h.mem_ids hnot
    · have hid := hmem ht
      rw [iht hf.tail ht, List.mem_append]
      -- in the rest of the list, what the first node leaves is in scope as well
      constructor
      · rintro ((hp | hp) | h)
        · exact .inr (.after hp hid)
        · exact .inl hp
        · exact .inr (.rest h)
      · rintro (hp | h)
        · exact .inl (.inr hp)
        cases h with
        | inside _ hbs => exact absurd hid (hf.disjoint_inside_tail hbs)
        | after hp _ => exact .inl (.inl hp)
        | body hb h => exact absurd hid (hf.disjoint_body_tail hb h.mem_ids)
        | rest h => exact .inr h

/-- What a node of the forest binds by itself or in its lists. -/
theorem Binds.of_subtree {t : NodeTree} (h : Binds p id [t]) (ht : t ∈ subtrees ts) :
    Binds p id ts := by
  induction ts using Forest.induct with
  | nil => cases ht
  | cons i k bs ts ihb iht =>
    rw [subtrees_cons] at ht
    -- the node is the first one, or below it, or in the rest
    rcases List.mem_cons.mp ht with rfl | ht
    · cases h with
      | inside hp hid => exact .inside hp hid
      | after _ hid => cases hid
      | body hb h => exact .body hb h
      | rest h => cases h
    rcases List.mem_append.mp ht with ht | ht
    · obtain ⟨b, hb, ht⟩ := List.mem_flatMap.mp ht
      exact .body hb (ihb b hb ht)
    · exact .rest (iht ht)

/-- Templates bind nothing by themselves. -/
theorem Binds.of_templates (h : Binds p id ts) (htemplates : AreTemplates ts) :
    ∃ t ∈ ts, ∃ b ∈ t.bodies, Binds p id b := by
  induction ts with
  | nil => cases h
  | cons t ts ih =>
    obtain ⟨⟨x, hx⟩, hts⟩ := List.forall_mem_cons.mp htemplates
    obtain ⟨i, k, bs⟩ := t
    obtain rfl : k = .template x := hx
    cases h with
    -- a template binds nothing by itself, so the binder stands in a body
    | inside hp _ => cases hp
    | after hp _ => cases hp
    | body hb h => exact ⟨_, List.mem_cons_self, _, hb, h⟩
    | rest h =>
      obtain ⟨t, ht, hspec⟩ := ih h hts
      exact ⟨t, List.mem_cons_of_mem _ ht, hspec⟩

end Binds

end Forest

namespace TemplateFile

open Forest

section Table

variable {f : TemplateFile} {x : String} {b id : NodeId} {ts : Forest}

/-- Every node of a forest is a root or below one. -/
theorem Holds.exists_root (h : f.Holds ts) (hid : id ∈ ids ts) :
    ∃ r ∈ roots ts, Relation.ReflTransGen (fun a c => c ∈ f.children a) r id := by
  induction ts using Forest.induct with
  | nil => cases hid
  | cons i k bs ts ihb iht =>
    rw [ids_cons] at hid
    rcases List.mem_cons.mp hid with rfl | hid
    · exact ⟨id, List.mem_cons_self, .refl⟩
    rcases List.mem_append.mp hid with hid | hid
    · obtain ⟨c, hc, hid⟩ := List.mem_flatMap.mp hid
      obtain ⟨r, hr, hbelow⟩ := ihb c hc (h.body hc) hid
      -- the root of a body is a child of the node
      have hchild : r ∈ f.children i := by
        rw [h.children_eq, roots_flatten]
        exact List.mem_flatten.mpr ⟨_, List.mem_map_of_mem hc, hr⟩
      exact ⟨i, List.mem_cons_self, .head hchild hbelow⟩
    · obtain ⟨r, hr, hbelow⟩ := iht h.tail hid
      exact ⟨r, List.mem_cons_of_mem _ hr, hbelow⟩

/-- What can be reached from nodes of a forest is in the forest. -/
theorem Holds.mem_of_below (h : f.Holds ts) {r : NodeId} (hr : r ∈ ids ts)
    (hbelow : Relation.ReflTransGen (fun a c => c ∈ f.children a) r id) : id ∈ ids ts := by
  induction hbelow with
  | refl => exact hr
  | tail _ hstep ih => exact (h.closed _ ih).2 hstep

/-- A list inside a reachable node binds what its forest binds. -/
theorem Holds.binds_of_list (h : f.Holds ts) (hreach : ∀ n ∈ ids ts, f.Reaches n) {owner : NodeId}
    {body : List NodeId} (howner : f.Reaches owner) (hbody : body ∈ (f.kind owner).bodies)
    (hsub : (roots ts).Sublist body) (hbinds : Forest.Binds (x, b) id ts) : f.Binds x b id := by
  induction hbinds generalizing owner body with
  | inside hp hid =>
    obtain ⟨rfl, list, inner, rfl⟩ := NodeKind.mem_scopeInside.mp hp
    have hself : f.Reaches b := hreach b (roots_subset_ids _ List.mem_cons_self)
    rw [← ids_flatten] at hid
    obtain ⟨r, hr, hbelow⟩ := h.inside.exists_root hid
    exact .around hself h.kind_eq (.head' (h.children_eq ▸ hr) hbelow)
  -- the node stands behind the binding in the same list, or below one that does
  | after hp hid =>
    obtain ⟨rfl, bound, rfl⟩ := NodeKind.mem_scopeAfter.mp hp
    obtain ⟨r, hr, hbelow⟩ := h.tail.exists_root hid
    have hpair : [b, r].Sublist body :=
      ((List.singleton_sublist.mpr hr).cons_cons b).trans hsub
    exact .before howner hbody h.kind_eq hpair hbelow
  | @body i k bs c rest hc _ ih =>
    have hself : f.Reaches i := hreach i (roots_subset_ids _ List.mem_cons_self)
    have hlist : roots c ∈ (f.kind i).bodies := by
      rw [h.kind_eq, h.bodies_eq]
      exact List.mem_map_of_mem hc
    -- in the lists of the node, and in what is behind it
    refine ih (h.body hc) (fun n hn => hreach n ?_) hself hlist (.refl _)
    exact mem_ids_of_mem_body List.mem_cons_self hc hn
  | @rest i k bs rest _ ih =>
    refine ih h.tail (fun n hn => hreach n ?_) howner hbody ((List.sublist_cons_self _ _).trans hsub)
    rw [ids_cons]
    exact List.mem_cons_of_mem _ (List.mem_append_right _ hn)

/-- A `{let}` in a list binds its variable at what follows it there. -/
theorem Holds.binds_after (h : f.Holds ts) {bound : Bound} {next : NodeId}
    (hkind : f.kind b = .binding x bound) (hbefore : [b, next].Sublist (roots ts))
    (hbelow : Relation.ReflTransGen (fun a c => c ∈ f.children a) next id) :
    Forest.Binds (x, b) id ts := by
  induction ts with
  | nil => cases hbefore
  | cons t ts ih =>
    obtain ⟨i, k, bs⟩ := t
    rw [roots_cons, NodeTree.id_node] at hbefore
    -- the binding is the first node, or stands further on
    cases hbefore with
    | cons _ hbefore => exact .rest (ih h.tail hbefore)
    | cons_cons _ hnext =>
      have hk : k = .binding x bound := h.kind_eq.symm.trans hkind
      have hid := h.tail.mem_of_below (roots_subset_ids _ (List.singleton_sublist.mp hnext)) hbelow
      exact .after (NodeKind.mem_scopeAfter.mpr ⟨rfl, bound, hk⟩) hid

/-- **Bindings of a file** are those of its forest. -/
theorem Planted.binds_iff (h : f.Planted ts) : Forest.Binds (x, b) id ts ↔ f.Binds x b id := by
  have hreach : ∀ n ∈ ids ts, f.Reaches n := fun n hn => h.reaches_iff.mpr hn
  constructor
  · intro hbinds
    obtain ⟨⟨i, k, bs⟩, ht, c, hc, hbinds⟩ := hbinds.of_templates h.areTemplates
    have hself := h.holds.of_mem ht
    have hlist : roots c ∈ (f.kind i).bodies := by
      rw [hself.kind_eq, hself.bodies_eq]
      exact List.mem_map_of_mem hc
    refine (hself.body hc).binds_of_list (fun n hn => hreach n ?_) (hreach i ?_) hlist (.refl _) hbinds
    · exact mem_ids_of_mem_body ht hc hn
    · exact roots_subset_ids ts (List.mem_map_of_mem ht)
  · intro hbinds
    cases hbinds with
    | around hb hkind hbelow =>
      obtain ⟨k, bs, hsub, hnode⟩ := h.holds.exists_node (h.reaches_iff.mp hb)
      obtain rfl := hnode.kind_eq.symm.trans hkind
      -- the first step down leads into a list of the node that binds
      obtain ⟨r, hr, hbelow⟩ := Relation.TransGen.head'_iff.mp hbelow
      rw [hnode.children_eq] at hr
      have hid := hnode.inside.mem_of_below (roots_subset_ids _ hr) hbelow
      rw [ids_flatten] at hid
      exact Forest.Binds.of_subtree (.inside (NodeKind.mem_scopeInside.mpr ⟨rfl, _, _, rfl⟩) hid) hsub
    | @before _ owner _ body howner hbody hkind hbefore hbelow =>
      obtain ⟨k, bs, hsub, hnode⟩ := h.holds.exists_node (h.reaches_iff.mp howner)
      rw [hnode.kind_eq, hnode.bodies_eq] at hbody
      -- the list of the two nodes is one of the bodies of their owner
      obtain ⟨c, hc, rfl⟩ := List.mem_map.mp hbody
      exact Forest.Binds.of_subtree (.body hc ((hnode.body hc).binds_after hkind hbefore hbelow)) hsub

/-- **What is in scope** at a node of a file. -/
theorem Planted.mem_scope_iff (h : f.Planted ts) {s : Scope} {t : NodeTree}
    (ht : (t, s) ∈ scopes [] ts) : (x, b) ∈ s ↔ f.Binds x b t.id := by
  rw [Forest.mem_scope_iff h.holds ht, h.binds_iff]
  exact or_iff_right List.not_mem_nil

end Table

end TemplateFile

end TemplateFrontend
