import TemplateFrontend.Proofs.Transform.Simplified
import TemplateFrontend.Proofs.Tree.Bindings
/-!
# References in simplified forests

A list that takes the place of its node takes its `{let}`s along. They were bound to the end of that
list; now they are bound to the end of the list that it was spliced into, and a reference there that has
the name of one of them means it from then on.

* `Rebinds` — the references of a forest before a change and after it, and those that mean other nodes;
* `Forest.captured` — the references that simplification makes mean other nodes, found by names alone;
* `Leaks` — a scope, and the same scope with names leaked into it;
* `Forest.rebinds_simplify` — the references of a simplified forest mean what they did, but for the
  captured ones, and these do not.
-/

namespace TemplateFrontend

open TemplateFile Forest

/-! ### References before and after -/

/-- The references of a forest before a change and after it. Some are lost, and some mean other nodes
than before. -/
inductive Rebinds : (before after : List Reference) → (captured : List (NodeId × VarRef)) → Prop
  | nil : Rebinds [] [] []
  | lost {rs rs' cs} (r : Reference) : Rebinds rs rs' cs → Rebinds (r :: rs) rs' cs
  | kept {rs rs' cs} (r : Reference) : Rebinds rs rs' cs → Rebinds (r :: rs) (r :: rs') cs
  | captured {rs rs' cs} (r : Reference) {b : Option NodeId} (h : b ≠ r.binder) :
    Rebinds rs rs' cs → Rebinds (r :: rs) ({ r with binder := b } :: rs') (r.occurrence :: cs)

namespace Rebinds

variable {rs rs' ss ss' : List Reference} {cs ds : List (NodeId × VarRef)}

/-- Lists of references are compared part by part. -/
theorem append (h : Rebinds rs rs' cs) (h' : Rebinds ss ss' ds) :
    Rebinds (rs ++ ss) (rs' ++ ss') (cs ++ ds) := by
  induction h with
  | nil => exact h'
  | lost r _ ih => exact .lost r ih
  | kept r _ ih => exact .kept r ih
  | captured r hb _ ih => exact .captured r hb ih

/-- More was there before. -/
theorem of_sublist (h : Rebinds rs rs' cs) (hsub : rs.Sublist ss) : Rebinds ss rs' cs := by
  induction hsub generalizing rs' cs with
  | slnil => exact h
  | cons r _ ih => exact .lost r (ih h)
  | cons_cons r _ ih =>
    cases h with
    | lost _ h => exact .lost r (ih h)
    | kept _ h => exact .kept r (ih h)
    | captured _ hb h => exact .captured r hb (ih h)

/-- All references may be lost. -/
theorem all_lost (rs : List Reference) : Rebinds rs [] [] := nil.of_sublist (List.nil_sublist rs)

/-- The references of many parts are compared part by part. -/
theorem flatMap {α : Type} {as : List α} {f g : α → List Reference}
    {c : α → List (NodeId × VarRef)} (h : ∀ a ∈ as, Rebinds (f a) (g a) (c a)) :
    Rebinds (as.flatMap f) (as.flatMap g) (as.flatMap c) := by
  induction as with
  | nil => exact .nil
  | cons a as ih =>
    obtain ⟨ha, has⟩ := List.forall_mem_cons.mp h
    exact ha.append (ih has)

/-- A reference that is left was there before, and it is captured if it means another node now. -/
theorem exists_before (h : Rebinds rs rs' cs) {r' : Reference} (hr : r' ∈ rs') :
    ∃ r ∈ rs, r.occurrence = r'.occurrence ∧ (r'.binder ≠ r.binder → r'.occurrence ∈ cs) := by
  induction h with
  | nil => cases hr
  | lost s _ ih =>
    obtain ⟨r, hmem, hr⟩ := ih hr
    exact ⟨r, List.mem_cons_of_mem s hmem, hr⟩
  | kept s _ ih =>
    obtain rfl | hr := List.mem_cons.mp hr
    · exact ⟨_, List.mem_cons_self, rfl, fun hne => absurd rfl hne⟩
    · obtain ⟨r, hmem, hr⟩ := ih hr
      exact ⟨r, List.mem_cons_of_mem s hmem, hr⟩
  -- only here the binder is another one, and the occurrence is listed
  | captured s _ _ ih =>
    obtain rfl | hr := List.mem_cons.mp hr
    · exact ⟨s, List.mem_cons_self, rfl, fun _ => List.mem_cons_self⟩
    · obtain ⟨r, hmem, hocc, hr⟩ := ih hr
      exact ⟨r, List.mem_cons_of_mem s hmem, hocc, fun hne => List.mem_cons_of_mem _ (hr hne)⟩

/-- A captured reference is there before and after, and does not mean the same. -/
theorem exists_captured (h : Rebinds rs rs' cs) {o : NodeId × VarRef} (ho : o ∈ cs) :
    ∃ r ∈ rs, ∃ r' ∈ rs', r.occurrence = o ∧ r'.occurrence = o ∧ r'.binder ≠ r.binder := by
  induction h with
  | nil => cases ho
  | lost s _ ih =>
    obtain ⟨r, hr, r', hr', hspec⟩ := ih ho
    exact ⟨r, List.mem_cons_of_mem s hr, r', hr', hspec⟩
  | kept s _ ih =>
    obtain ⟨r, hr, r', hr', hspec⟩ := ih ho
    exact ⟨r, List.mem_cons_of_mem s hr, r', List.mem_cons_of_mem s hr', hspec⟩
  -- the one step that lists an occurrence
  | captured s hb _ ih =>
    obtain rfl | ho := List.mem_cons.mp ho
    · exact ⟨s, List.mem_cons_self, _, List.mem_cons_self, rfl, rfl, hb⟩
    · obtain ⟨r, hr, r', hr', hspec⟩ := ih ho
      exact ⟨r, List.mem_cons_of_mem s hr, r', List.mem_cons_of_mem _ hr', hspec⟩

/-- **What captured means.** If no reference stands twice before or after, the captured ones are those
that mean another node than before. -/
theorem spec (h : Rebinds rs rs' cs)
    (hrs : ∀ r ∈ rs, ∀ s ∈ rs, r.occurrence = s.occurrence → r = s)
    (hrs' : ∀ r ∈ rs', ∀ s ∈ rs', r.occurrence = s.occurrence → r = s) :
    (∀ r' ∈ rs', ∃ r ∈ rs, r.occurrence = r'.occurrence ∧
      (r'.binder = r.binder ↔ r'.occurrence ∉ cs)) ∧
    ((∀ r' ∈ rs', r' ∈ rs) ↔ cs = []) := by
  have hmeans : ∀ r' ∈ rs', ∃ r ∈ rs, r.occurrence = r'.occurrence ∧
      (r'.binder = r.binder ↔ r'.occurrence ∉ cs) := by
    intro r' hr'
    obtain ⟨r, hr, hocc, hne⟩ := h.exists_before hr'
    refine ⟨r, hr, hocc, fun hsame hmem => ?_, fun hnot => by_contra fun hb => hnot (hne hb)⟩
    -- it is the same one before and after, as no reference stands twice
    obtain ⟨s, hs, s', hs', hsocc, hsocc', hsne⟩ := h.exists_captured hmem
    obtain rfl := hrs r hr s hs (hocc.trans hsocc.symm)
    obtain rfl := hrs' r' hr' s' hs' hsocc'.symm
    exact hsne hsame
  refine ⟨hmeans, fun hall => ?_, fun hnil r' hr' => ?_⟩
  -- a captured one would be among those before with another node
  · refine List.eq_nil_iff_forall_not_mem.mpr fun o ho => ?_
    obtain ⟨r, hr, r', hr', hocc, hocc', hne⟩ := h.exists_captured ho
    obtain rfl := hrs r hr r' (hall r' hr') (hocc.trans hocc'.symm)
    exact hne rfl
  · obtain ⟨r, hr, hocc, hiff⟩ := hmeans r' hr'
    have hbinder : r'.binder = r.binder := hiff.mpr (hnil ▸ List.not_mem_nil)
    obtain ⟨node, ref, binder⟩ := r
    obtain ⟨node', ref', binder'⟩ := r'
    obtain ⟨rfl, rfl⟩ := Prod.mk.inj hocc
    obtain rfl : binder' = binder := hbinder
    exact hr

end Rebinds

/-! ### Leaked names -/

/-- The names that a list binds for what follows it once it is simplified. -/
def Forest.exposed (b : Forest) : List String := (scopeAfter (simplify b)).map Prod.fst

namespace NodeKind

/-- The names that are bound behind a node though they should not be, given those in front of it and
those that the lists inside it expose. -/
def leaked (k : NodeKind) (names : List String) (inner : List (List String)) : List String :=
  match k.verdict with
  | .kept _ => names.filter (· ∉ bindsAfter k)
  | .spliced => (k.live inner).flatten ++ names
  | _ => names

/-- The references that are captured in a node and below it, given the names that leaked in front of
it. -/
def captured (id : NodeId) (k : NodeKind)
    (inner : List (List String → List (NodeId × VarRef))) (names : List String) :
    List (NodeId × VarRef) :=
  match k.verdict with
  | .kept k' =>
    ((varRefs k'.exprs).filter fun r => r.name ∈ names).map (id, ·) ++
      (k.live inner).flatMap fun body => body (names.filter (· ∉ bindsInside k))
  | .spliced => (k.live inner).flatMap fun body => body names
  | _ => []

end NodeKind

mutual

/-- The references that are captured in a node and below it. -/
def NodeTree.captured : NodeTree → List String → List (NodeId × VarRef)
  | .node id k bodies => k.captured id (Forest.capturedAll bodies)

/-- The references that are captured in a list and below it, given the names that leaked in front of
it. -/
def Forest.captured : Forest → List String → List (NodeId × VarRef)
  | [], _ => []
  | t :: ts, names => t.captured names ++
      Forest.captured ts (t.kind.leaked names (t.bodies.map Forest.exposed))

/-- The references that are captured in each of several lists. -/
def Forest.capturedAll : List Forest → List (List String → List (NodeId × VarRef))
  | [] => []
  | b :: bs => Forest.captured b :: Forest.capturedAll bs

end

namespace Forest

/-- Several lists are gone through one by one. -/
theorem capturedAll_eq_map (bs : List Forest) : capturedAll bs = bs.map captured := by
  induction bs with
  | nil => rfl
  | cons b bs ih => rw [capturedAll, ih, List.map_cons]

@[simp] theorem captured_nil (names : List String) : captured [] names = [] := rfl

/-- Names that the first node leaks are known in what follows it. -/
@[simp] theorem captured_cons (id : NodeId) (k : NodeKind) (bs : List Forest) (ts : Forest)
    (names : List String) : captured (.node id k bs :: ts) names =
      k.captured id (bs.map captured) names ++ captured ts (k.leaked names (bs.map exposed)) := by
  rw [captured, NodeTree.captured, capturedAll_eq_map]
  rfl

end Forest

/-! ### Lists without their texts -/

namespace Piece

/-- The nodes of a list that are no texts. -/
def others (ps : List Piece) : Forest :=
  ps.filterMap fun
    | text _ _ _ => none
    | other t _ => some t

@[simp] theorem others_nil : others [] = [] := rfl

@[simp] theorem others_other (t : NodeTree) (r : Bool) (ps : List Piece) :
    others (other t r :: ps) = t :: others ps := rfl

/-- The texts go from both parts. -/
theorem others_append (ps qs : List Piece) : others (ps ++ qs) = others ps ++ others qs :=
  List.filterMap_append

/-- A second visit changes texts only. -/
theorem others_echoAfter (after : Bool) (ps : List Piece) :
    others (echoAfter after ps) = others ps := by
  induction ps generalizing after with
  | nil => rw [echoAfter_nil]
  | cons p ps ih =>
    cases p with
    | other t r => rw [echoAfter_other, others_other, others_other, ih]
    | text i s again => cases after <;> exact ih true

/-- Texts neither refer to anything nor bind anything. -/
theorem references_finishAfter (scope : Scope) (after : Bool) (ps : List Piece) :
    references scope (finishAfter after ps) = references scope (others ps) := by
  induction ps generalizing scope after with
  | nil => rw [finishAfter_nil, others_nil]
  | cons p ps ih =>
    cases p with
    | other t r =>
      obtain ⟨id, k, bs⟩ := t
      rw [finishAfter_other, others_other, references_cons, references_cons, ih]
    -- texts refer to nothing, whether they are kept or joined
    | text i s again =>
      cases after with
      | true => exact ih scope true
      | false =>
        rw [finishAfter, references_cons, ih]
        rfl

/-- Nor do texts bind a name for what follows the list. -/
theorem scopeAfter_finishAfter (after : Bool) (ps : List Piece) :
    scopeAfter (finishAfter after ps) = scopeAfter (others ps) := by
  induction ps generalizing after with
  | nil => rw [finishAfter_nil, others_nil]
  | cons p ps ih =>
    cases p with
    | other t r => rw [finishAfter_other, others_other, scopeAfter, scopeAfter, ih]
    -- and bind nothing
    | text i s again =>
      cases after with
      | true => exact ih true
      | false =>
        rw [finishAfter, scopeAfter, ih]
        exact List.append_nil _

end Piece

/-! ### Scopes with leaked names -/

/-- A name that a node binds means that node. -/
theorem lookup_map_const (xs : List String) (id : NodeId) (x : String) :
    (xs.map (·, id)).lookup x = if x ∈ xs then some id else none := by
  induction xs with
  | nil => rfl
  | cons y ys ih =>
    rw [List.map_cons, List.lookup_cons, ih]
    by_cases hxy : x = y
    · simp [hxy]
    · simp [hxy, beq_eq_false_iff_ne.mpr hxy]

/-- The second scope binds the names of a list to other nodes than the first one does, and all other
names to the same. The nodes that are still to come bind nothing in either. -/
structure Leaks (names : List String) (coming : List NodeId) (scope scope' : Scope) : Prop where
  lookup_eq_iff : ∀ x, scope'.lookup x = scope.lookup x ↔ x ∉ names
  fresh : ∀ p ∈ scope, p.2 ∉ coming
  fresh' : ∀ p ∈ scope', p.2 ∉ coming

namespace Leaks

variable {names : List String} {coming coming' : List NodeId} {scope scope' : Scope}

/-- Nothing has leaked where both scopes are empty. -/
theorem nil (coming : List NodeId) : Leaks [] coming [] [] :=
  ⟨fun _ => ⟨fun _ => List.not_mem_nil, fun _ => rfl⟩, fun _ hp => absurd hp List.not_mem_nil,
    fun _ hp => absurd hp List.not_mem_nil⟩

/-- Fewer nodes are still to come. -/
theorem mono (h : Leaks names coming scope scope') (hsub : coming' ⊆ coming) :
    Leaks names coming' scope scope' :=
  ⟨h.lookup_eq_iff, fun p hp hmem => h.fresh p hp (hsub hmem),
    fun p hp hmem => h.fresh' p hp (hsub hmem)⟩

/-- A node binds names in both scopes, and so stops their leaks. -/
theorem bind (h : Leaks names coming scope scope') (xs : List String) {id : NodeId}
    (hid : id ∉ coming) :
    Leaks (names.filter (· ∉ xs)) coming (xs.map (·, id) ++ scope) (xs.map (·, id) ++ scope') := by
  have hnew : ∀ p ∈ xs.map (·, id), p.2 ∉ coming := by
    intro p hp
    obtain ⟨x, -, rfl⟩ := List.mem_map.mp hp
    exact hid
  refine ⟨fun x => ?_, fun p hp => ?_, fun p hp => ?_⟩
  · rw [List.lookup_append, List.lookup_append, lookup_map_const]
    -- a name bound here is looked up to the same binder on both sides
    by_cases hx : x ∈ xs
    · simp [hx]
    · simpa [hx] using h.lookup_eq_iff x
  · exact (List.mem_append.mp hp).elim (hnew p) (h.fresh p)
  · exact (List.mem_append.mp hp).elim (hnew p) (h.fresh' p)

/-- Nodes that were still to come bind names in the second scope only. -/
theorem leak (h : Leaks names coming scope scope') {new : Scope} (hnew : ∀ p ∈ new, p.2 ∈ coming)
    (hsub : coming' ⊆ coming) (hnew' : ∀ p ∈ new, p.2 ∉ coming') :
    Leaks (new.map Prod.fst ++ names) coming' scope (new ++ scope') := by
  refine ⟨fun x => ?_, (h.mono hsub).fresh, fun p hp => ?_⟩
  · rw [List.lookup_append, List.mem_append, not_or]
    -- a name that the new nodes bind has leaked, any other is as before
    cases hx : new.lookup x with
    | none =>
      have hnot : x ∉ new.map Prod.fst := by
        intro hmem
        obtain ⟨p, hp, rfl⟩ := List.mem_map.mp hmem
        exact absurd (beq_self_eq_true p.1) (by simpa using List.lookup_eq_none_iff.mp hx p hp)
      rw [Option.none_or, h.lookup_eq_iff x]
      exact ⟨fun hnames => ⟨hnot, hnames⟩, fun hboth => hboth.2⟩
    | some i =>
      obtain ⟨front, back, hsplit, -⟩ := List.lookup_eq_some_iff.mp hx
      have hmem : (x, i) ∈ new := hsplit ▸ List.mem_append_right _ List.mem_cons_self
      refine ⟨fun heq => ?_, fun hboth => absurd (List.mem_map_of_mem hmem) hboth.1⟩
      -- the first scope does not know the new node
      obtain ⟨front', back', hsplit', -⟩ := List.lookup_eq_some_iff.mp heq.symm
      have hold : (x, i) ∈ scope := hsplit' ▸ List.mem_append_right _ List.mem_cons_self
      exact absurd (hnew _ hmem) (h.fresh _ hold)
  · exact (List.mem_append.mp hp).elim (hnew' p) ((h.mono hsub).fresh' p)

/-- The references of one node. -/
theorem rebinds (h : Leaks names coming scope scope') (k : NodeKind) (id : NodeId) :
    Rebinds (k.references id scope) (k.references id scope')
      (((varRefs k.exprs).filter fun r => r.name ∈ names).map (id, ·)) := by
  rw [NodeKind.references, NodeKind.references]
  induction varRefs k.exprs with
  | nil => exact .nil
  | cons r rs ih =>
    by_cases hr : r.name ∈ names
    -- the name has leaked, so the reference is captured
    · rw [List.filter_cons_of_pos (by simpa using hr)]
      have hne : scope'.lookup r.name ≠ scope.lookup r.name := fun heq =>
        (h.lookup_eq_iff r.name).mp heq hr
      exact .captured ⟨id, r, scope.lookup r.name⟩ hne ih
    · rw [List.filter_cons_of_neg (by simpa using hr), List.map_cons, List.map_cons,
        (h.lookup_eq_iff r.name).mpr hr]
      exact .kept _ ih

end Leaks

/-! ### Simplification -/

namespace NodeKind

/-- Nodes that leave their list, or become texts, bind nothing and refer to nothing that stays. -/
theorem scope_eq_nil {k : NodeKind} (h : ∀ k', k.verdict ≠ .kept k') (id : NodeId) :
    k.scopeInside id = [] ∧ k.scopeAfter id = [] := by
  cases k with
  | loop x e body => exact absurd rfl (h _)
  | binding x b => exact absurd rfl (h _)
  | _ => exact ⟨rfl, rfl⟩

/-- A node that is kept binds what it did, whatever lists it gets. -/
theorem scope_of_kept {k k' : NodeKind} (h : k.verdict = .kept k') (id : NodeId)
    (ls : List (List NodeId)) : (k'.withBodies ls).scopeInside id = k.scopeInside id ∧
      (k'.withBodies ls).scopeAfter id = k.scopeAfter id := by
  obtain ⟨rfl, -⟩ | ⟨bs, o, rfl, rfl⟩ := verdict_eq_kept h
  · cases k' with
    | binding x b => cases b <;> exact ⟨rfl, rfl⟩
    | _ => exact ⟨rfl, rfl⟩
  · exact ⟨rfl, rfl⟩

/-- Branches that are left keep their conditions. -/
theorem references_kept {k k' : NodeKind} (h : k.verdict = .kept k') (id : NodeId) (scope : Scope) :
    (k'.references id scope).Sublist (k.references id scope) := by
  obtain ⟨rfl, -⟩ | ⟨bs, o, rfl, rfl⟩ := verdict_eq_kept h
  · exact .refl _
  · refine List.Sublist.map _ ?_
    change (varRefs ((prune bs o).1.map (·.cond))).Sublist (varRefs (bs.map (·.cond)))
    rw [Expr.varRefs_eq_flatMap, Expr.varRefs_eq_flatMap]
    exact ((prune_fst_sublist bs o).map _).flatMap _

end NodeKind

namespace Forest

/-- The lists inside a node that is kept: the names it binds there are its own again. -/
theorem rebinds_live {id : NodeId} {k : NodeKind} {bs : List Forest} {names : List String}
    {scope scope' : Scope} (h : Leaks names (id :: bs.flatMap ids) scope scope') (hid : id ∉ bs.flatMap ids)
    (hinside : ∀ b ∈ bs, ∀ {names : List String} {scope scope' : Scope}, Leaks names (ids b) scope scope' →
      Rebinds (references scope b) (references scope' (Piece.others (simplified b))) (captured b names)) :
    Rebinds (bs.flatMap (references (k.scopeInside id ++ scope)))
      (((k.live bs).map simplify).flatMap (references (k.scopeInside id ++ scope')))
      ((k.live (bs.map captured)).flatMap fun body => body (names.filter (· ∉ bindsInside k))) := by
  rw [k.live_map, List.flatMap_map, List.flatMap_map]
  refine (Rebinds.flatMap fun b hb => ?_).of_sublist ((k.live_sublist bs).flatMap _)
  have hbmem := (k.live_sublist bs).subset hb
  have hcoming : ids b ⊆ id :: bs.flatMap ids := fun x hx =>
    List.mem_cons_of_mem _ (List.mem_flatMap.mpr ⟨b, hbmem, hx⟩)
  rw [simplify, Piece.references_finishAfter]
  exact hinside b hbmem ((h.mono hcoming).bind _ fun hmem => hid (List.mem_flatMap.mpr ⟨b, hbmem, hmem⟩))

/-- **References of a simplified list.** Names that leaked in front of the list are captured in it, and
so are the names that leak in it. -/
theorem rebinds_simplified {ts : Forest} (hl : Labelled ts) (hn : (ids ts).Nodup)
    {names : List String} {scope scope' : Scope} (h : Leaks names (ids ts) scope scope') :
    Rebinds (references scope ts) (references scope' (Piece.others (simplified ts)))
      (captured ts names) := by
  induction ts using Forest.induct generalizing names scope scope' with
  | nil => exact .nil
  | cons id k bs ts ihb iht =>
    obtain ⟨hk, hbs, hts⟩ := labelled_cons.mp hl
    rw [ids_cons] at hn h
    obtain ⟨hid, hn⟩ := List.nodup_cons.mp hn
    obtain ⟨hnbs, hnts, hdisjoint⟩ := List.nodup_append'.mp hn
    have hsubts : ids ts ⊆ id :: (bs.flatMap ids ++ ids ts) := fun x hx =>
      List.mem_cons_of_mem _ (List.mem_append_right _ hx)
    have hsubbs : id :: bs.flatMap ids ⊆ id :: (bs.flatMap ids ++ ids ts) :=
      List.cons_subset_cons _ (List.subset_append_left _ _)
    have hcoming : ∀ b ∈ bs, ids b ⊆ id :: (bs.flatMap ids ++ ids ts) := fun b hb x hx =>
      hsubbs (List.mem_cons_of_mem _ (List.mem_flatMap.mpr ⟨b, hb, hx⟩))
    have hnb : ∀ b ∈ bs, (ids b).Nodup := fun b hb => (List.nodup_flatMap.mp hnbs).1 b hb
    -- the references of a node that leaves its list are lost, those behind it are not
    have hgone : k.scopeAfter id = [] →
        Rebinds (k.references id scope ++ (bs.flatMap (references (k.scopeInside id ++ scope)) ++
          references (k.scopeAfter id ++ scope) ts)) (references scope' (Piece.others (simplified ts)))
          (captured ts names) := by
      intro hscope
      rw [hscope]
      have hrest := iht hts hnts (h.mono hsubts)
      exact (Rebinds.all_lost _).append ((Rebinds.all_lost _).append hrest)
    rw [references_cons, simplified_cons, captured_cons, Piece.others_append]
    cases hv : k.verdict with
    -- a node that becomes text, or goes, has no references left
    | text s =>
      rw [pieces_of_text hv, NodeKind.captured, NodeKind.leaked, hv]
      exact hgone (NodeKind.scope_eq_nil (by simp [hv]) id).2
    | dropped =>
      rw [pieces_of_dropped hv, NodeKind.captured, NodeKind.leaked, hv]
      exact hgone (NodeKind.scope_eq_nil (by simp [hv]) id).2
    | kept k' =>
      -- the node keeps its own references, what is inside it and behind it is compared by induction
      have hself := (h.rebinds k' id).of_sublist (NodeKind.references_kept hv id scope)
      have hlive := rebinds_live (k := k) (h.mono hsubbs) (fun hmem => hid (List.mem_append_left _ hmem))
        fun b hb => ihb b hb (hbs b hb) (hnb b hb)
      have hrest := iht hts hnts ((h.mono hsubts).bind (bindsAfter k) fun hmem =>
        hid (List.mem_append_right _ hmem))
      have hscopes := NodeKind.scope_of_kept hv id
      have hrefs : (k'.withBodies (((k.live bs).map simplify).map roots)).references id scope' =
          k'.references id scope' := by
        rw [NodeKind.references, NodeKind.exprs_withBodies]
        rfl
      rw [pieces_of_kept hv, NodeKind.captured, NodeKind.leaked, hv, List.append_assoc]
      rw [Piece.others_other, Piece.others_nil, List.singleton_append, references_cons, hrefs,
        (hscopes _).1, (hscopes _).2]
      exact hself.append (hlive.append hrest)
    | spliced =>
      have hscope := NodeKind.scope_eq_nil (k := k) (by simp [hv]) id
      have hlen : bs.length = k.bodies.length := by rw [hk, List.length_map]
      rw [NodeKind.captured, NodeKind.leaked, hv]
      dsimp only
      rw [k.live_map, k.live_map]
      obtain ⟨hlive, hpieces⟩ | ⟨b, hb, hlive, hpieces⟩ := pieces_of_spliced id hv hlen
      -- no list is taken, so nothing is left of the node
      · rw [hlive, hpieces]
        exact hgone hscope.2
      · have hsimplify : scopeAfter (Piece.others (simplified b)) = scopeAfter (simplify b) :=
          (Piece.scopeAfter_finishAfter false _).symm
        -- what the spliced list binds leaks into the rest
        have hnew : ∀ p ∈ scopeAfter (simplify b), p.2 ∈ ids b := fun p hp =>
          (ids_simplify (hbs b hb)).subset (roots_subset_ids _ (mem_roots_of_scopeAfter hp))
        have hrest := iht hts hnts (h.leak (fun p hp => hcoming b hb (hnew p hp)) hsubts fun p hp hmem =>
          hdisjoint (List.mem_flatMap.mpr ⟨b, hb, hnew p hp⟩) hmem)
        have hinside := ihb b hb (hbs b hb) (hnb b hb) (h.mono (hcoming b hb))
        rw [hlive, hpieces, Piece.others_echoAfter, references_append, hsimplify, hscope.1, hscope.2,
          List.map_singleton, List.map_singleton, List.flatMap_singleton, List.flatten_singleton]
        exact (Rebinds.all_lost _).append ((hinside.of_sublist (sublist_flatMap (references scope) hb)).append hrest)

/-- **References before and after.** In a simplified forest, all but the captured references mean what
they did. -/
theorem rebinds_simplify {ts : Forest} (hl : Labelled ts) (hn : (ids ts).Nodup) :
    Rebinds (references [] ts) (references [] (simplify ts)) (captured ts []) := by
  rw [simplify, Piece.references_finishAfter]
  exact rebinds_simplified hl hn (.nil (ids ts))

end Forest

end TemplateFrontend
