import TemplateFrontend.Proofs.Tree.Editing
/-!
# The nodes of a forest replaced one by one

A step that gives every reachable node another kind with the same lists inside it keeps the shape of
the forest.

* `Forest.mapKinds` — a forest with every kind replaced;
* `TemplateFile.Holds.setKinds` — replacing the kinds of the nodes of a forest in the table;
* `TemplateFile.Holds.mapExprs` — replacing the expressions of all reachable nodes.
-/

namespace TemplateFrontend

namespace NodeKind

/-- Expressions stand beside the lists of a node, not inside them. -/
@[simp] theorem bodies_mapExprs (e : Expr → Expr) (k : NodeKind) :
    (k.mapExprs e).bodies = k.bodies := by
  cases k with
  | conditional branches otherwise =>
    rw [mapExprs, bodies, bodies, List.map_map]
    rfl
  | binding x b => cases b <;> rfl
  | call c =>
    rw [mapExprs, bodies, bodies, List.filterMap_map]
    refine List.filterMap_congr fun p _ => ?_
    cases hp : p.bound <;> simp [hp, Bound.mapExpr]
  | _ => rfl

/-- Lists put into a node leave its expressions alone. -/
theorem mapExprs_withBodies (e : Expr → Expr) (k : NodeKind) (ls : List (List NodeId)) :
    (k.withBodies ls).mapExprs e = (k.mapExprs e).withBodies ls := by
  cases k with
  -- a value has an expression and a content has a list, but none has both
  | binding x b => cases b <;> rfl
  | conditional bs o =>
    -- filling replaces lists and mapping replaces conditions, so they do not meet
    have hfill : ∀ ls : List (List NodeId),
        ((fillBranches bs ls).1.map fun b => { b with cond := e b.cond })
            = (fillBranches (bs.map fun b => { b with cond := e b.cond }) ls).1 ∧
          (fillBranches bs ls).2
            = (fillBranches (bs.map fun b => { b with cond := e b.cond }) ls).2 := by
      induction bs with
      | nil => intro ls; cases ls <;> exact ⟨rfl, rfl⟩
      | cons b bs ih =>
        intro ls
        cases ls with
        | nil => exact ⟨rfl, rfl⟩
        | cons l ls =>
          obtain ⟨h₁, h₂⟩ := ih ls
          simp only [fillBranches, List.map_cons, h₁, h₂, and_self]
    simp only [withBodies, mapExprs, (hfill ls).1, (hfill ls).2]
  | call c =>
    -- the same for parameters, of which only those with content take a list
    have hfill : ∀ (ps : List Passed) (ls : List (List NodeId)),
        (fillPassed ps ls).map (fun p => { p with bound := p.bound.mapExpr e })
          = fillPassed (ps.map fun p => { p with bound := p.bound.mapExpr e }) ls := by
      intro ps
      induction ps with
      | nil => exact fun _ => rfl
      | cons p ps ih =>
        intro ls
        obtain ⟨name, bound, span⟩ := p
        cases bound with
        | value v => exact congrArg (⟨name, .value (e v), span⟩ :: ·) (ih ls)
        | content kind body =>
          cases ls with
          | nil => exact congrArg (⟨name, .content kind body, span⟩ :: ·) (ih [])
          | cons l ls => exact congrArg (⟨name, .content kind l, span⟩ :: ·) (ih ls)
    simp only [withBodies, mapExprs, hfill]
  | _ => rfl

end NodeKind

namespace Forest

mutual

/-- The node and everything below it with every kind replaced. -/
def mapKindsOfTree (g : NodeKind → NodeKind) : NodeTree → NodeTree
  | .node id k bodies => .node id (g k) (mapKindsOfAll g bodies)

/-- The forest with every kind replaced. -/
def mapKinds (g : NodeKind → NodeKind) : Forest → Forest
  | [] => []
  | t :: ts => mapKindsOfTree g t :: mapKinds g ts

/-- Several forests with every kind replaced. -/
def mapKindsOfAll (g : NodeKind → NodeKind) : List Forest → List Forest
  | [] => []
  | b :: bs => mapKinds g b :: mapKindsOfAll g bs

end

section MapKinds

variable {g : NodeKind → NodeKind}

theorem mapKindsOfAll_eq_map (g : NodeKind → NodeKind) (bs : List Forest) :
    mapKindsOfAll g bs = bs.map (mapKinds g) := by
  induction bs with
  | nil => rfl
  | cons b bs ih => rw [mapKindsOfAll, ih, List.map_cons]

@[simp] theorem mapKinds_nil (g : NodeKind → NodeKind) : mapKinds g [] = [] := rfl

@[simp] theorem mapKinds_cons (g : NodeKind → NodeKind) (id : NodeId) (k : NodeKind)
    (bs : List Forest) (ts : Forest) :
    mapKinds g (.node id k bs :: ts) = .node id (g k) (bs.map (mapKinds g)) :: mapKinds g ts := by
  rw [mapKinds, mapKindsOfTree, mapKindsOfAll_eq_map]

@[simp] theorem roots_mapKinds (g : NodeKind → NodeKind) (ts : Forest) :
    roots (mapKinds g ts) = roots ts := by
  induction ts with
  | nil => rfl
  | cons t ts ih =>
    obtain ⟨id, k, bs⟩ := t
    rw [mapKinds_cons, roots_cons, roots_cons, ih, NodeTree.id_node, NodeTree.id_node]

@[simp] theorem ids_mapKinds (g : NodeKind → NodeKind) (ts : Forest) :
    ids (mapKinds g ts) = ids ts := by
  induction ts using Forest.induct with
  | nil => rfl
  | cons id k bs ts ihb iht =>
    have hbodies : (bs.map (mapKinds g)).flatMap ids = bs.flatMap ids := by
      rw [List.flatMap_map]
      exact List.flatMap_congr fun b hb => ihb b hb
    rw [mapKinds_cons, ids_cons, ids_cons, hbodies, iht]

theorem labelled_mapKinds (hg : ∀ k, (g k).bodies = k.bodies) {ts : Forest} (h : Labelled ts) :
    Labelled (mapKinds g ts) := by
  induction ts using Forest.induct with
  | nil => exact labelled_nil
  | cons id k bs ts ihb iht =>
    obtain ⟨hk, hbs, hts⟩ := labelled_cons.mp h
    rw [mapKinds_cons, labelled_cons, hg, hk]
    refine ⟨?_, fun b hb => ?_, iht hts⟩
    · rw [List.map_map]
      exact List.map_congr_left fun b _ => (roots_mapKinds g b).symm
    · obtain ⟨c, hc, rfl⟩ := List.mem_map.mp hb
      exact ihb c hc (hbs c hc)

end MapKinds

end Forest

namespace TemplateFile

open Forest

theorem shows_mapKinds {f f' : TemplateFile} {g : NodeKind → NodeKind} {ts : Forest}
    (h : f.Shows ts) (hkind : ∀ x ∈ ids ts, f'.kind x = g (f.kind x)) :
    f'.Shows (mapKinds g ts) := by
  induction ts using Forest.induct with
  | nil => exact shows_nil
  | cons id k bs ts ihb iht =>
    rw [ids_cons] at hkind
    obtain ⟨hk, hbs, hts⟩ := shows_cons.mp h
    rw [mapKinds_cons, shows_cons, hkind id List.mem_cons_self, hk]
    -- the root has the new kind; the lists below and the rest of the list follow
    refine ⟨rfl, fun b hb => ?_, iht hts fun x hx => ?_⟩
    · obtain ⟨c, hc, rfl⟩ := List.mem_map.mp hb
      refine ihb c hc (hbs c hc) fun x hx => hkind x (List.mem_cons_of_mem _ ?_)
      exact List.mem_append_left _ (List.mem_flatMap.mpr ⟨c, hc, hx⟩)
    · exact hkind x (List.mem_cons_of_mem _ (List.mem_append_right _ hx))

/-- Replacing the kinds of different nodes one after the other replaces each once. -/
theorem foldl_setKind (g : NodeKind → NodeKind) {f : TemplateFile} {xs : List NodeId}
    (hnodup : xs.Nodup) (hlt : ∀ x ∈ xs, x < f.nodes.size) :
    ChangesOnly xs f (xs.foldl (fun f x => f.setKind x (g (f.kind x))) f) ∧
      ∀ x ∈ xs, (xs.foldl (fun f x => f.setKind x (g (f.kind x))) f).kind x = g (f.kind x) := by
  induction xs generalizing f with
  | nil => exact ⟨ChangesOnly.refl _ _, fun x hx => absurd hx List.not_mem_nil⟩
  | cons x xs ih =>
    obtain ⟨hx, hxs⟩ := List.nodup_cons.mp hnodup
    have hset : ChangesOnly [x] f (f.setKind x (g (f.kind x))) :=
      ChangesOnly.setKind (List.mem_singleton.mpr rfl) _
    have hlt' : ∀ y ∈ xs, y < (f.setKind x (g (f.kind x))).nodes.size := fun y hy => by
      rw [size_setKind]
      exact hlt y (List.mem_cons_of_mem _ hy)
    -- setting a node leaves the table as long as it was, so the others can be set too
    obtain ⟨hchange, hkind⟩ := ih hxs hlt'
    have hxlt := hlt x List.mem_cons_self
    rw [List.foldl_cons]
    refine ⟨hset.trans hchange, fun y hy => ?_⟩
    -- no node comes twice: the first one is not set again, the others were not set yet
    rcases List.mem_cons.mp hy with rfl | hy
    · rw [hchange.kind_eq y (by rwa [size_setKind]) hx, kind_setKind_self _ _ hxlt]
    · rw [hkind y hy, kind_setKind_of_ne]
      rintro rfl
      exact hx hy

/-- **Kinds replaced.** Steps that replace the kinds of reachable nodes, and keep the lists inside
them, turn a table that holds a forest into one that holds the forest with the kinds replaced. -/
theorem Holds.setKinds {f : TemplateFile} {ts : Forest} (h : f.Holds ts)
    (hroots : roots ts = f.templates) {g : NodeKind → NodeKind}
    (hg : ∀ k, (g k).bodies = k.bodies) :
    (f.foldReachable fun f x => f.setKind x (g (f.kind x))).Holds (mapKinds g ts) ∧
      (f.foldReachable fun f x => f.setKind x (g (f.kind x))).templates = f.templates := by
  rw [foldReachable, h.reachable hroots]
  obtain ⟨hchange, hkind⟩ := foldl_setKind g h.nodup h.lt_size
  refine ⟨⟨shows_mapKinds h.shows_nodes hkind, labelled_mapKinds hg h.labelled, ?_, ?_⟩, ?_⟩
  · rw [ids_mapKinds]
    exact h.nodup
  · rw [ids_mapKinds]
    exact fun x hx => Nat.lt_of_lt_of_le (h.lt_size x hx) hchange.size_le
  · exact hchange.templates_eq

/-- **Expressions replaced.** -/
theorem Holds.mapExprs {f : TemplateFile} {ts : Forest} (h : f.Holds ts)
    (hroots : roots ts = f.templates) (e : Expr → Expr) :
    (f.mapExprs e).Holds (mapKinds (NodeKind.mapExprs e) ts) ∧
      (f.mapExprs e).templates = f.templates :=
  h.setKinds hroots (NodeKind.bodies_mapExprs e)

end TemplateFile

end TemplateFrontend
