import TemplateFrontend.Proofs.Tree.Forest
import Mathlib.Data.List.Forall2
/-!
# Edits of the lists of a forest

`TemplateFile.editBodies` visits the reachable nodes one after the other and edits the lists of each.
What a visit does to the table is described from the outside in:

* `NodeKind.withBodies_bodies`, `NodeKind.withBodies_withBodies` — putting lists into a node;
* `TemplateFile.rest_trans` — files that are the same but for their nodes;
* `TemplateFile.ChangesOnly` — the frame of a change: which nodes may be other than before;
* `TemplateFile.editNode_spec` — a visit of one node edits each of its lists once, in the table that
  the edits of the lists before it left behind;
* `TemplateFile.visit_bodies` — visits of the nodes of several disjoint forests, one forest after the
  other, do to each forest what they would do to it alone;
* `TemplateFile.Confined.visit` — visits of nodes that refer to each other only change those nodes.
-/

namespace TemplateFrontend

/-! ### Lists put into a node -/

namespace NodeKind

/-- Branches that take their own lists stay as they are and leave the lists behind those. -/
theorem fillBranches_map_body (bs : List Branch) (left : List (List NodeId)) :
    fillBranches bs (bs.map (·.body) ++ left) = (bs, left) := by
  induction bs with
  | nil => rfl
  | cons b bs ih => rw [List.map_cons, List.cons_append, fillBranches, ih]

/-- What branches take first does not matter when they take as many lists again. -/
theorem fillBranches_fillBranches (bs : List Branch) (ls ls' : List (List NodeId))
    (h : ls.length = ls'.length) :
    fillBranches (fillBranches bs ls).1 ls' = fillBranches bs ls' := by
  induction bs generalizing ls ls' with
  | nil => cases ls <;> rfl
  | cons b bs ih =>
    -- both lists end together, and a second filling overwrites the first
    cases ls with
    | nil =>
      cases ls' with
      | nil => rfl
      | cons => simp at h
    | cons l ls =>
      cases ls' with
      | nil => simp at h
      | cons l' ls' => simp only [fillBranches, ih ls ls' (by simpa using h)]

/-- Parameters that take their own contents stay as they are. -/
theorem fillPassed_filterMap (ps : List Passed) :
    fillPassed ps (ps.filterMap (·.bound.body?)) = ps := by
  induction ps with
  | nil => rfl
  | cons p ps ih =>
    obtain ⟨name, bound, span⟩ := p
    cases bound with
    | value e => simp only [List.filterMap_cons, Bound.body?_value, fillPassed, ih]
    | content kind body => simp only [List.filterMap_cons, Bound.body?_content, fillPassed, ih]

/-- The same for contents of parameters that are replaced twice; values take none. -/
theorem fillPassed_fillPassed (ps : List Passed) (ls ls' : List (List NodeId))
    (h : ls.length = ls'.length) : fillPassed (fillPassed ps ls) ls' = fillPassed ps ls' := by
  induction ps generalizing ls ls' with
  | nil => rfl
  | cons p ps ih =>
    obtain ⟨name, bound, span⟩ := p
    cases bound with
    -- a value takes no list
    | value e => simp only [fillPassed, ih ls ls' h]
    | content kind body =>
      cases ls with
      | nil =>
        cases ls' with
        | nil => simp only [fillPassed, ih [] [] rfl]
        | cons => simp at h
      | cons l ls =>
        cases ls' with
        | nil => simp at h
        | cons l' ls' => simp only [fillPassed, ih ls ls' (by simpa using h)]

/-- Attributes that take their own values stay as they are. -/
theorem fillAttributes_filterMap (as : List Attribute) :
    fillAttributes as (as.filterMap (·.value)) = as := by
  induction as with
  | nil => rfl
  | cons a as ih =>
    obtain ⟨name, value, span⟩ := a
    cases value with
    | none => simp only [List.filterMap_cons, fillAttributes, ih]
    | some body => simp only [List.filterMap_cons, fillAttributes, ih]

/-- And for values of attributes; an attribute without one takes none. -/
theorem fillAttributes_fillAttributes (as : List Attribute) (ls ls' : List (List NodeId))
    (h : ls.length = ls'.length) :
    fillAttributes (fillAttributes as ls) ls' = fillAttributes as ls' := by
  induction as generalizing ls ls' with
  | nil => rfl
  | cons a as ih =>
    obtain ⟨name, value, span⟩ := a
    cases value with
    -- an attribute without a value takes no list
    | none => simp only [fillAttributes, ih ls ls' h]
    | some body =>
      cases ls with
      | nil =>
        cases ls' with
        | nil => simp only [fillAttributes, ih [] [] rfl]
        | cons => simp at h
      | cons l ls =>
        cases ls' with
        | nil => simp at h
        | cons l' ls' => simp only [fillAttributes, ih ls ls' (by simpa using h)]

/-- A node with its own lists put into it. -/
@[simp] theorem withBodies_bodies (k : NodeKind) : k.withBodies k.bodies = k := by
  match k with
  | .template _ | .loop _ _ _ | .message _ _ _ | .visualElement _ _ => rfl
  | .binding _ (.content _ _) | .binding _ (.value _) => rfl
  | .text _ | .special _ | .print _ _ | .closeTag _ => rfl
  | .call c => exact congrArg NodeKind.call (by rw [bodies, fillPassed_filterMap])
  | .openTag x as closed =>
    exact congrArg (NodeKind.openTag x · closed) (fillAttributes_filterMap as)
  -- the branches take their lists first, and what is left is for `else`
  | .conditional bs none =>
    simp only [bodies, withBodies, Option.toList_none, fillBranches_map_body, Option.map_none]
  | .conditional bs (some body) =>
    simp only [bodies, withBodies, Option.toList_some, fillBranches_map_body, Option.map_some,
      List.headD_cons]

/-- Of two lots of lists put into a node one after the other, the second stays. -/
theorem withBodies_withBodies (k : NodeKind) {ls ls' : List (List NodeId)}
    (h : ls.length = k.bodies.length) (h' : ls'.length = k.bodies.length) :
    (k.withBodies ls).withBodies ls' = k.withBodies ls' := by
  -- nodes with one list or none, and then the three whose lists stand in parts of the node
  cases k with
  | template | loop | message | visualElement =>
    obtain ⟨l, rfl⟩ := List.length_eq_one_iff.mp h'
    rfl
  | binding x b =>
    cases b with
    | value e => rfl
    | content kind body =>
      obtain ⟨l, rfl⟩ := List.length_eq_one_iff.mp h'
      rfl
  | text | special | print | closeTag => rfl
  | call c => simp only [withBodies, fillPassed_fillPassed _ _ _ (h.trans h'.symm)]
  | openTag x as closed =>
    simp only [withBodies, fillAttributes_fillAttributes _ _ _ (h.trans h'.symm)]
  | conditional bs o =>
    cases o with
    | none =>
      simp only [withBodies, fillBranches_fillBranches _ _ _ (h.trans h'.symm), Option.map_none]
    | some old =>
      -- one list is left for what happens otherwise
      have hne : ls' ≠ [] := by
        rintro rfl
        simp [bodies] at h'
      -- the last list, which the branches leave over
      obtain ⟨front, l, rfl⟩ : ∃ front l, ls' = front ++ [l] :=
        ⟨_, _, (List.dropLast_concat_getLast hne).symm⟩
      have hl := (bodies_fillBranches bs front [l] (by simpa [bodies] using h')).2
      simp only [withBodies, fillBranches_fillBranches _ _ _ (h.trans h'.symm), Option.map_some, hl,
        List.headD_cons]

/-- Lists put into a node leave its expressions alone. -/
theorem exprs_withBodies (k : NodeKind) (ls : List (List NodeId)) :
    (k.withBodies ls).exprs = k.exprs := by
  -- only branches, parameters and bindings have both lists and expressions
  cases k with
  | binding x b => cases b <;> rfl
  | conditional bs o =>
    -- branches keep their conditions when they get other lists
    have hfill : ∀ ls : List (List NodeId),
        (fillBranches bs ls).1.map (·.cond) = bs.map (·.cond) := by
      induction bs with
      | nil => intro ls; cases ls <;> rfl
      | cons b bs ih =>
        intro ls
        cases ls with
        | nil => rfl
        | cons l ls => exact congrArg (b.cond :: ·) (ih ls)
    exact hfill ls
  | call c =>
    have hfill : ∀ (ps : List Passed) (ls : List (List NodeId)),
        (fillPassed ps ls).filterMap (·.bound.expr?) = ps.filterMap (·.bound.expr?) := by
      intro ps
      induction ps with
      | nil => exact fun _ => rfl
      | cons p ps ih =>
        intro ls
        obtain ⟨name, bound, span⟩ := p
        cases bound with
        | value e => exact congrArg (e :: ·) (ih ls)
        | content kind body =>
          cases ls with
          | nil => exact ih []
          | cons l ls => exact ih ls
    exact hfill c.passed ls
  | _ => rfl

end NodeKind

/-! ### Frames -/

namespace TemplateFile

open Forest

/-- A node that the table has is what it was set to. -/
theorem kind_setNode_self (f : TemplateFile) {id : NodeId} (n : Node) (h : id < f.nodes.size) :
    (f.setNode id n).kind id = n.kind := by
  simp [setNode, kind, h]

/-- Other nodes are what they were. -/
theorem kind_setNode_of_ne (f : TemplateFile) {id other : NodeId} (n : Node) (h : id ≠ other) :
    (f.setNode id n).kind other = f.kind other := by
  simp [setNode, kind, Array.getElem?_setIfInBounds_ne h]

@[simp] theorem size_setNode (f : TemplateFile) (id : NodeId) (n : Node) :
    (f.setNode id n).nodes.size = f.nodes.size := by
  simp [setNode]

@[simp] theorem size_setKind (f : TemplateFile) (id : NodeId) (k : NodeKind) :
    (f.setKind id k).nodes.size = f.nodes.size :=
  size_setNode ..

/-- A node is set to a kind if the table has it, and all others are as they were. -/
theorem kind_setKind_cases (f : TemplateFile) (id : NodeId) (k : NodeKind) (other : NodeId) :
    (other = id ∧ (f.setKind id k).kind other = k) ∨ (f.setKind id k).kind other = f.kind other := by
  by_cases heq : id = other
  · subst heq
    by_cases hlt : id < f.nodes.size
    · exact .inl ⟨rfl, kind_setKind_self f k hlt⟩
    · refine .inr ?_
      rw [setKind, setNode, Array.setIfInBounds_eq_of_size_le (Nat.not_lt.mp hlt)]
  · exact .inr (kind_setKind_of_ne f k heq)

/-- Setting a node to what it is changes nothing. -/
theorem setKind_kind (f : TemplateFile) (id : NodeId) : f.setKind id (f.kind id) = f := by
  by_cases hid : id < f.nodes.size
  · have hnode : (⟨f.kind id, f.span id⟩ : Node) = f.nodes[id] := by
      simp [kind, span, Array.getElem?_eq_getElem hid]
    have hnodes : f.nodes.setIfInBounds id ⟨f.kind id, f.span id⟩ = f.nodes := by
      rw [hnode, Array.setIfInBounds, dif_pos hid, Array.set_getElem_self]
    rw [setKind, setNode, hnodes]
  · rw [setKind, setNode, Array.setIfInBounds_eq_of_size_le (Nat.not_lt.mp hid)]

@[simp] theorem span_setKind (f : TemplateFile) (id other : NodeId) (k : NodeKind) :
    (f.setKind id k).span other = f.span other := by
  by_cases heq : id = other
  · subst heq
    by_cases hid : id < f.nodes.size
    · simp [setKind, setNode, span, hid]
    · rw [setKind, setNode, Array.setIfInBounds_eq_of_size_le (Nat.not_lt.mp hid)]
  · simp [setKind, setNode, span, Array.getElem?_setIfInBounds_ne heq]

/-- The table grows by one node. -/
theorem size_add (f : TemplateFile) (k : NodeKind) (s : Span) :
    (f.add k s).1.nodes.size = f.nodes.size + 1 := by
  simp [add]

section Rest

variable {f g h : TemplateFile}

/-- Files that are the same but for their nodes, one after the other. -/
theorem rest_trans (h₁ : { g with nodes := f.nodes } = f) (h₂ : { h with nodes := g.nodes } = g) :
    { h with nodes := f.nodes } = f :=
  (congrArg (fun x : TemplateFile => { x with nodes := f.nodes }) h₂).trans h₁

/-- The same the other way round. -/
theorem rest_symm (hrest : { g with nodes := f.nodes } = f) : { f with nodes := g.nodes } = g :=
  (congrArg (fun x : TemplateFile => { x with nodes := g.nodes }) hrest).symm

/-- Files that differ in their nodes only have the same templates. -/
theorem templates_of_rest (hrest : { g with nodes := f.nodes } = f) : g.templates = f.templates := by
  have htemplates := congrArg TemplateFile.templates hrest
  exact htemplates

end Rest

/-- **The frame of a change.** `g` is `f` but for the nodes of the list and for new nodes. -/
structure ChangesOnly (S : List NodeId) (f g : TemplateFile) : Prop where
  size_le : f.nodes.size ≤ g.nodes.size
  kind_eq : ∀ id < f.nodes.size, id ∉ S → g.kind id = f.kind id
  rest_eq : { g with nodes := f.nodes } = f

namespace ChangesOnly

variable {S T : List NodeId} {f g h : TemplateFile}

theorem refl (S : List NodeId) (f : TemplateFile) : ChangesOnly S f f :=
  ⟨Nat.le_refl _, fun _ _ _ => rfl, rfl⟩

/-- More nodes may be allowed to change. -/
theorem mono (hc : ChangesOnly S f g) (hs : S ⊆ T) : ChangesOnly T f g :=
  ⟨hc.size_le, fun id hid hT => hc.kind_eq id hid fun hS => hT (hs hS), hc.rest_eq⟩

/-- Two changes are a change of the nodes of both. -/
theorem trans (h₁ : ChangesOnly S f g) (h₂ : ChangesOnly T g h) : ChangesOnly (S ++ T) f h where
  size_le := Nat.le_trans h₁.size_le h₂.size_le
  kind_eq := fun id hid hn => by
    rw [List.mem_append, not_or] at hn
    rw [h₂.kind_eq id (Nat.lt_of_lt_of_le hid h₁.size_le) hn.2, h₁.kind_eq id hid hn.1]
  rest_eq := rest_trans h₁.rest_eq h₂.rest_eq

/-- Two changes of the same nodes are one. -/
theorem trans_self (h₁ : ChangesOnly S f g) (h₂ : ChangesOnly S g h) : ChangesOnly S f h :=
  (h₁.trans h₂).mono (List.append_subset.mpr ⟨List.Subset.refl _, List.Subset.refl _⟩)

/-- A change of nodes leaves the templates alone. -/
theorem templates_eq (hc : ChangesOnly S f g) : g.templates = f.templates :=
  templates_of_rest hc.rest_eq

/-- Setting a node changes that node. -/
theorem setNode {id : NodeId} (hid : id ∈ S) (n : Node) : ChangesOnly S f (f.setNode id n) :=
  ⟨Nat.le_of_eq (size_setNode ..).symm, fun _ _ hn => kind_setNode_of_ne f n fun he => hn (he ▸ hid), rfl⟩

/-- So does setting its kind. -/
theorem setKind {id : NodeId} (hid : id ∈ S) (k : NodeKind) : ChangesOnly S f (f.setKind id k) :=
  setNode hid _

/-- Adding a node changes none that was there. -/
theorem add (f : TemplateFile) (k : NodeKind) (s : Span) : ChangesOnly [] f (f.add k s).1 :=
  ⟨by simp [TemplateFile.add], fun _ hid _ => kind_add_of_lt f k s hid, rfl⟩

/-- A forest that other nodes than its own were changed besides. -/
theorem shows {ts : Forest} (hc : ChangesOnly S f g) (h : f.Shows ts)
    (hlt : ∀ x ∈ ids ts, x < f.nodes.size) (hdisj : S.Disjoint (ids ts)) : g.Shows ts :=
  h.congr fun x hx => hc.kind_eq x (hlt x hx) fun hxS => hdisj hxS hx

end ChangesOnly

/-- `P` speaks of the nodes in `T` only, and of nodes with numbers from `n` on: a change of other
nodes keeps it. -/
def LocalTo (n : Nat) (T : List NodeId) (P : TemplateFile → Prop) : Prop :=
  ∀ S g g', P g → ChangesOnly S g g' → n ≤ g.nodes.size → S.Disjoint T → (∀ x ∈ S, x < n) → P g'

/-- What is said of the kinds of the nodes in `T`, and of the table only that it does not shrink, is local
to them. -/
theorem LocalTo.of_kinds {n : Nat} {T : List NodeId} {P : TemplateFile → Prop}
    (hT : ∀ x ∈ T, x < n)
    (h : ∀ g g', P g → (∀ x ∈ T, g'.kind x = g.kind x) → g.nodes.size ≤ g'.nodes.size → P g') :
    LocalTo n T P := by
  intro S g g' hP hchange hn hdisj _
  refine h g g' hP (fun x hx => ?_) hchange.size_le
  exact hchange.kind_eq x (Nat.lt_of_lt_of_le (hT x hx) hn) fun hS => hdisj hS hx

/-- The same where `P` speaks of new nodes, too, as far as the table went. -/
theorem LocalTo.of_kinds_new {n : Nat} {T : List NodeId} {P : TemplateFile → Prop}
    (h : ∀ g g', P g → (∀ x, x ∈ T ∨ n ≤ x → x < g.nodes.size → g'.kind x = g.kind x) →
      g.nodes.size ≤ g'.nodes.size → P g') : LocalTo n T P := by
  intro S g g' hP hchange _ hdisj hS
  refine h g g' hP (fun x hx hlt => hchange.kind_eq x hlt fun hxS => ?_) hchange.size_le
  rcases hx with hx | hx
  · exact hdisj hxS hx
  · exact Nat.not_lt.mpr hx (hS x hxS)

/-! ### Visits -/

/-- The file after a visit of a node, which edits its lists one after the other. -/
def editNode (edit : BodyEdit) (f : TemplateFile) (id : NodeId) : TemplateFile :=
  (List.range (f.kind id).bodies.length).foldl (editBody edit id) f

/-- The file after visits of several nodes. -/
def visit (edit : BodyEdit) (f : TemplateFile) (ids : List NodeId) : TemplateFile :=
  ids.foldl (editNode edit) f

theorem editBodies_eq_visit (edit : BodyEdit) (f : TemplateFile) :
    f.editBodies edit = f.visit edit f.reachable := rfl

@[simp] theorem visit_nil (edit : BodyEdit) (f : TemplateFile) : f.visit edit [] = f := rfl

@[simp] theorem visit_cons (edit : BodyEdit) (f : TemplateFile) (id : NodeId) (ids : List NodeId) :
    f.visit edit (id :: ids) = (f.editNode edit id).visit edit ids := rfl

/-- Visits of two lists of nodes, one after the other. -/
theorem visit_append (edit : BodyEdit) (f : TemplateFile) (ids ids' : List NodeId) :
    f.visit edit (ids ++ ids') = (f.visit edit ids).visit edit ids' :=
  List.foldl_append

section EditNode

variable {edit : BodyEdit} {f : TemplateFile} {id : NodeId}

/-- A node without lists is left alone by a visit. -/
theorem editNode_of_leaf (h : (f.kind id).bodies = []) : f.editNode edit id = f := by
  rw [editNode, h]
  rfl

/-- The edit of one list, the lists before it already edited into `outs`. -/
private theorem editBody_spec {g : TemplateFile} {k : NodeKind} {b : List NodeId}
    {outs todo : List (List NodeId)} (hid : id < g.nodes.size)
    (hlen : (outs ++ b :: todo).length = k.bodies.length)
    (hk : g.kind id = k.withBodies (outs ++ b :: todo)) {S : List NodeId} (hS : id ∉ S)
    (hchange : ChangesOnly S g (edit g b).1) :
    editBody edit id g outs.length
      = (edit g b).1.setKind id (k.withBodies (outs ++ (edit g b).2 :: todo)) := by
  have hbodies : (g.kind id).bodies = outs ++ b :: todo := by
    rw [hk, NodeKind.bodies_withBodies _ _ hlen]
  -- the lists before this one are edited, so it stands where their number says
  have hslot : (g.kind id).bodies[outs.length]? = some b := by
    rw [hbodies]
    simp
  -- its edit does not touch the node itself
  have hafter : (edit g b).1.kind id = k.withBodies (outs ++ b :: todo) :=
    (hchange.kind_eq id hid hS).trans hk
  have hset : (outs ++ b :: todo).set outs.length (edit g b).2 = outs ++ (edit g b).2 :: todo := by
    simp
  unfold editBody
  rw [hslot]
  dsimp only
  rw [hafter, NodeKind.bodies_withBodies _ _ hlen, hset, NodeKind.withBodies_withBodies _ hlen]
  rw [← hlen]
  simp

/-- The lists of the node are the roots of the forests `bs`, which share no nodes. The edit of each of them leaves the
others alone, and establishes `Done` whatever the other edits did before it. -/
structure EditsApart (edit : BodyEdit) (f : TemplateFile) (id : NodeId) (bs : List Forest)
    (Done : Forest → TemplateFile → List NodeId → Prop) : Prop where
  bodies_eq : (f.kind id).bodies = bs.map roots
  nodup : (id :: bs.flatMap ids).Nodup
  lt : ∀ x ∈ id :: bs.flatMap ids, x < f.nodes.size
  edit : ∀ b ∈ bs, ∀ S g, ChangesOnly S f g → S.Disjoint (ids b) →
    Done b (edit g (roots b)).1 (edit g (roots b)).2 ∧ ChangesOnly (ids b) g (edit g (roots b)).1
  keep : ∀ b ∈ bs, ∀ out, LocalTo f.nodes.size (ids b) (Done b · out)

/-- A visit on its way to `g`: the lists `done` are edited into `outs`, the lists `todo` are as they were. -/
structure Midway (f : TemplateFile) (id : NodeId) (bs : List Forest)
    (Done : Forest → TemplateFile → List NodeId → Prop) (done todo : List Forest) (outs : List (List NodeId))
    (g : TemplateFile) : Prop where
  split : bs = done ++ todo
  length_eq : outs.length = done.length
  kind_eq : g.kind id = (f.kind id).withBodies (outs ++ todo.map roots)
  outcome : List.Forall₂ (fun b out => Done b g out) done outs
  changes : ChangesOnly (id :: done.flatMap ids) f g

section Midway

variable {bs done todo : List Forest} {Done : Forest → TemplateFile → List NodeId → Prop} {b : Forest}
  {outs : List (List NodeId)} {g : TemplateFile}

/-- The node does not stand in its own lists. -/
theorem EditsApart.notMem (h : EditsApart edit f id bs Done) (hb : b ∈ bs) : id ∉ ids b := fun hx =>
  (List.nodup_cons.mp h.nodup).1 (List.mem_flatMap.mpr ⟨b, hb, hx⟩)

/-- The edited list and the node have numbers of the file before the visit. -/
theorem EditsApart.lt_of_mem (h : EditsApart edit f id bs Done) (hb : b ∈ bs) :
    ∀ x ∈ ids b ++ [id], x < f.nodes.size := by
  intro x hx
  obtain hx | hx := List.mem_append.mp hx
  · exact h.lt x (List.mem_cons_of_mem _ (List.mem_flatMap.mpr ⟨b, hb, hx⟩))
  · exact h.lt x (List.mem_singleton.mp hx ▸ List.mem_cons_self)

/-- The list that comes next shares nothing with those before it. -/
theorem Midway.disjoint (hm : Midway f id bs Done done (b :: todo) outs g) (h : EditsApart edit f id bs Done) :
    ∀ c ∈ done, (ids c).Disjoint (ids b) := by
  have hpair := (List.nodup_flatMap.mp (List.nodup_cons.mp h.nodup).2).2
  rw [hm.split, List.pairwise_append] at hpair
  exact fun c hc => hpair.2.2 c hc b List.mem_cons_self

/-- **One list more.** -/
theorem Midway.step (hm : Midway f id bs Done done (b :: todo) outs g) (h : EditsApart edit f id bs Done) :
    Midway f id bs Done (done ++ [b]) todo (outs ++ [(edit g (roots b)).2]) (editBody edit id g outs.length) := by
  have hb : b ∈ bs := by rw [hm.split]; simp
  have hsub : ∀ c ∈ done, c ∈ bs := fun c hc => by rw [hm.split]; simp [hc]
  have hdisj := hm.disjoint h
  have hidg : id < g.nodes.size := Nat.lt_of_lt_of_le (h.lt id List.mem_cons_self) hm.changes.size_le
  -- the edit of `b` itself
  have hSb : (id :: done.flatMap ids).Disjoint (ids b) := by
    rw [List.disjoint_cons_left]
    refine ⟨h.notMem hb, fun x hx hxb => ?_⟩
    obtain ⟨c, hc, hxc⟩ := List.mem_flatMap.mp hx
    exact hdisj c hc hxc hxb
  obtain ⟨hDone, hChange⟩ := h.edit b hb _ g hm.changes hSb
  -- edited lists, this one, and those still to come
  have hlen : (outs ++ roots b :: todo.map roots).length = (f.kind id).bodies.length := by
    rw [h.bodies_eq, hm.split]
    simp [hm.length_eq]
  have hstep := editBody_spec hidg hlen (by simpa using hm.kind_eq) (h.notMem hb) hChange
  -- the table after it, with the edited list put into the node
  have hput := ChangesOnly.setKind (S := [id]) (f := (edit g (roots b)).1) (List.mem_singleton.mpr rfl)
    ((f.kind id).withBodies (outs ++ (edit g (roots b)).2 :: todo.map roots))
  have hboth := hChange.trans hput
  rw [← hstep] at hput hboth
  refine ⟨?_, ?_, ?_, List.rel_append ?_ (.cons ?_ .nil), ?_⟩
  · rw [hm.split, List.append_assoc, List.singleton_append]
  · rw [List.length_append, List.length_append, hm.length_eq, List.length_singleton, List.length_singleton]
  · rw [hstep, kind_setKind_self _ _ (Nat.lt_of_lt_of_le hidg hChange.size_le), List.append_assoc,
      List.singleton_append]
  · -- what was established of the lists before is kept
    have hmem := (List.forall₂_and_left (p := (· ∈ done)) _ _).mpr ⟨fun _ hc => hc, hm.outcome⟩
    refine hmem.imp fun c out ⟨hc, hcout⟩ => ?_
    refine h.keep c (hsub c hc) _ _ _ _ hcout hboth hm.changes.size_le ?_ (h.lt_of_mem hb)
    rw [List.disjoint_append_left, List.singleton_disjoint]
    exact ⟨fun _ hx hxc => hdisj c hc hxc hx, h.notMem (hsub c hc)⟩
  · refine h.keep b hb _ _ _ _ hDone hput (Nat.le_trans hm.changes.size_le hChange.size_le) ?_ ?_
    · exact List.singleton_disjoint.mpr (h.notMem hb)
    · exact fun x hx => h.lt x (List.mem_singleton.mp hx ▸ List.mem_cons_self)
  · refine (hm.changes.trans hboth).mono fun x hx => ?_
    simp only [List.flatMap_append, List.flatMap_cons, List.flatMap_nil, List.append_nil,
      List.mem_append, List.mem_cons, List.not_mem_nil, or_false] at hx ⊢
    tauto

/-- **All lists.** -/
theorem Midway.exists_run (hm : Midway f id bs Done done todo outs g) (h : EditsApart edit f id bs Done) :
    ∃ outs', Midway f id bs Done bs [] outs'
      ((List.range' outs.length todo.length).foldl (editBody edit id) g) := by
  induction todo generalizing done g outs with
  | nil =>
    obtain rfl : bs = done := by rw [hm.split, List.append_nil]
    exact ⟨outs, hm⟩
  | cons b todo ih =>
    obtain ⟨outs', hrun⟩ := ih (hm.step h)
    rw [List.length_append, List.length_singleton] at hrun
    rw [List.length_cons, List.range'_succ, List.foldl_cons]
    exact ⟨outs', hrun⟩

end Midway

/-- **A visit of one node.** `Done` holds of all lists at once after the visit, and the node has the edited lists. -/
theorem editNode_spec {bs : List Forest} {Done : Forest → TemplateFile → List NodeId → Prop}
    (h : EditsApart edit f id bs Done) :
    ∃ outs, (f.editNode edit id).kind id = (f.kind id).withBodies outs ∧
      List.Forall₂ (fun b out => Done b (f.editNode edit id) out) bs outs ∧
      ChangesOnly (id :: bs.flatMap ids) f (f.editNode edit id) := by
  have hstart : Midway f id bs Done [] bs [] f := by
    refine ⟨rfl, rfl, ?_, .nil, ChangesOnly.refl _ _⟩
    rw [List.nil_append, ← h.bodies_eq, NodeKind.withBodies_bodies]
  obtain ⟨outs, hrun⟩ := hstart.exists_run h
  have hlen : (f.kind id).bodies.length = bs.length := by rw [h.bodies_eq, List.length_map]
  rw [List.length_nil, ← hlen, ← List.range_eq_range'] at hrun
  refine ⟨outs, ?_, hrun.outcome, hrun.changes⟩
  have hkind := hrun.kind_eq
  rwa [List.map_nil, List.append_nil] at hkind

end EditNode

/-- Lists that were edited one by one, each with its outcome. -/
theorem exists_of_forall₂ {α β : Type} {R : α → β → Prop} {as : List α} {bs : List β}
    (h : List.Forall₂ R as bs) : ∀ a ∈ as, ∃ b, R a b := by
  induction h with
  | nil => exact fun _ ha => absurd ha List.not_mem_nil
  | cons hab _ ih => exact List.forall_mem_cons.mpr ⟨⟨_, hab⟩, ih⟩

/-- Results that are each computed from their list are the results of all lists. -/
theorem eq_map_of_forall₂ {α β : Type} {R : α → Prop} {out : α → β} {as : List α} {bs : List β}
    (h : List.Forall₂ (fun a b => R a ∧ b = out a) as bs) : bs = as.map out := by
  induction h with
  | nil => rfl
  | cons hab _ ih => rw [List.map_cons, hab.2, ih]

/-- For elements that are each related to some other there is a list of those others. -/
theorem exists_forall₂ {α β : Type} {R : α → β → Prop} {as : List α} (h : ∀ a ∈ as, ∃ b, R a b) :
    ∃ bs, List.Forall₂ R as bs := by
  induction as with
  | nil => exact ⟨[], .nil⟩
  | cons a as ih =>
    obtain ⟨⟨b, hb⟩, has⟩ := List.forall_mem_cons.mp h
    obtain ⟨bs, hbs⟩ := ih has
    exact ⟨b :: bs, .cons hb hbs⟩

/-- Elements that are each related to the image of some other are related to the images of a list of
those others. -/
theorem exists_map_of_forall₂ {α β γ : Type} {R : α → β → Prop} {F : β → γ} {as : List α}
    {cs : List γ} (h : List.Forall₂ (fun a c => ∃ b, R a b ∧ c = F b) as cs) :
    ∃ bs, List.Forall₂ R as bs ∧ cs = bs.map F := by
  induction h with
  | nil => exact ⟨[], .nil, rfl⟩
  | cons hac _ ih =>
    obtain ⟨b, hb, rfl⟩ := hac
    obtain ⟨bs, hbs, rfl⟩ := ih
    exact ⟨b :: bs, .cons hb hbs, rfl⟩

/-- **Visits of several forests.** Let the forests `bs` share no nodes, and let `xs` be what is known
of each of them. If the visits of the nodes of each forest leave the others alone and lead from `P` to
`Q`, then the visits of all nodes, one forest after the other, lead from `P` of all of them to `Q` of
all of them. -/
theorem visit_bodies_forall₂ {α : Type} (edit : BodyEdit) (f : TemplateFile) {bs : List Forest}
    {xs : List α} {n : Nat} (P Q : Forest → α → TemplateFile → Prop)
    (hnodup : (bs.flatMap ids).Nodup) (hlt : ∀ x ∈ bs.flatMap ids, x < n) (hn : n ≤ f.nodes.size)
    (hP : List.Forall₂ (fun b x => P b x f) bs xs)
    (hvisit : ∀ b ∈ bs, ∀ x g, P b x g → n ≤ g.nodes.size →
      Q b x (g.visit edit (ids b)) ∧ ChangesOnly (ids b) g (g.visit edit (ids b)))
    (hkeepP : ∀ b ∈ bs, ∀ x, LocalTo n (ids b) (P b x))
    (hkeepQ : ∀ b ∈ bs, ∀ x, LocalTo n (ids b) (Q b x)) :
    List.Forall₂ (fun b x => Q b x (f.visit edit (bs.flatMap ids))) bs xs ∧
      ChangesOnly (bs.flatMap ids) f (f.visit edit (bs.flatMap ids)) := by
  induction bs generalizing f xs with
  | nil =>
    cases hP
    exact ⟨.nil, ChangesOnly.refl _ _⟩
  | cons b bs ih =>
    obtain ⟨x, rest, hx, hrest, rfl⟩ := List.forall₂_cons_left_iff.mp hP
    rw [List.flatMap_cons] at hlt ⊢
    rw [List.flatMap_cons, List.nodup_append'] at hnodup
    obtain ⟨-, hnodup, hdisj⟩ := hnodup
    have hltb : ∀ x ∈ ids b, x < n := fun x hx => hlt x (List.mem_append_left _ hx)
    have hltbs : ∀ x ∈ bs.flatMap ids, x < n := fun x hx => hlt x (List.mem_append_right _ hx)
    have hdisjc : ∀ c ∈ bs, (ids b).Disjoint (ids c) := fun c hc x hx hxc =>
      hdisj hx (List.mem_flatMap.mpr ⟨c, hc, hxc⟩)
    obtain ⟨hQ, hchange⟩ := hvisit b List.mem_cons_self x f hx hn
    -- the other forests are as they were
    have hP' : List.Forall₂ (fun c x => P c x (f.visit edit (ids b))) bs rest := by
      have hmem := (List.forall₂_and_left (p := (· ∈ bs)) _ _).mpr ⟨fun _ hc => hc, hrest⟩
      refine hmem.imp fun c y ⟨hc, hy⟩ => ?_
      exact hkeepP c (List.mem_cons_of_mem _ hc) y _ _ _ hy hchange hn (hdisjc c hc) hltb
    have hn' := Nat.le_trans hn hchange.size_le
    obtain ⟨hQs, hchanges⟩ := ih _ hnodup hltbs hn' hP'
      (fun c hc => hvisit c (List.mem_cons_of_mem _ hc))
      (fun c hc => hkeepP c (List.mem_cons_of_mem _ hc))
      (fun c hc => hkeepQ c (List.mem_cons_of_mem _ hc))
    rw [visit_append]
    -- the visits of the other forests do not touch what holds of the first
    refine ⟨.cons ?_ hQs, hchange.trans hchanges⟩
    exact hkeepQ b List.mem_cons_self x _ _ _ hQ hchanges hn' (fun _ hx hxb => hdisj hxb hx) hltbs

/-- The same where nothing is known of a forest but `P` itself. -/
theorem visit_bodies (edit : BodyEdit) (f : TemplateFile) (bs : List Forest) {n : Nat}
    (P Q : Forest → TemplateFile → Prop)
    (hnodup : (bs.flatMap ids).Nodup) (hlt : ∀ x ∈ bs.flatMap ids, x < n) (hn : n ≤ f.nodes.size)
    (hP : ∀ b ∈ bs, P b f)
    (hvisit : ∀ b ∈ bs, ∀ g, P b g → n ≤ g.nodes.size →
      Q b (g.visit edit (ids b)) ∧ ChangesOnly (ids b) g (g.visit edit (ids b)))
    (hkeepP : ∀ b ∈ bs, LocalTo n (ids b) (P b)) (hkeepQ : ∀ b ∈ bs, LocalTo n (ids b) (Q b)) :
    (∀ b ∈ bs, Q b (f.visit edit (bs.flatMap ids))) ∧
      ChangesOnly (bs.flatMap ids) f (f.visit edit (bs.flatMap ids)) := by
  obtain ⟨hQ, hchange⟩ := visit_bodies_forall₂ edit f (fun b (_ : Forest) g => P b g)
    (fun b _ g => Q b g) hnodup hlt hn (List.forall₂_same.mpr hP) (fun b hb _ => hvisit b hb)
    (fun b hb _ => hkeepP b hb) (fun b hb _ => hkeepQ b hb)
  exact ⟨List.forall₂_same.mp hQ, hchange⟩

/-! ### Steps of joining texts -/

section JoinSteps

variable {f : TemplateFile} {i : NodeId} {last : Option NodeId} {ids : List NodeId}

/-- A node that is no text stays, and no text before it is gone on with. -/
theorem joinTextsAfter_other (h : ∀ s, f.kind i ≠ .text s) :
    f.joinTextsAfter last (i :: ids)
      = ((f.joinTextsAfter none ids).1, i :: (f.joinTextsAfter none ids).2) := by
  cases hk : f.kind i with
  | text s => exact absurd hk (h s)
  | _ => simp only [joinTextsAfter, hk]

/-- A text with none before it stays, and texts behind it are joined to it. -/
theorem joinTextsAfter_first {s : String} (h : f.kind i = .text s)
    (hlast : ∀ first ∈ last, ∀ t, f.kind first ≠ .text t) :
    f.joinTextsAfter last (i :: ids)
      = ((f.joinTextsAfter (some i) ids).1, i :: (f.joinTextsAfter (some i) ids).2) := by
  cases last with
  | none => simp only [joinTextsAfter, h]
  | some first =>
    cases hk : f.kind first with
    | text t => exact absurd hk (hlast first rfl t)
    | _ => simp only [joinTextsAfter, h, hk]

/-- A text behind another one is added to it and leaves the list. -/
theorem joinTextsAfter_text {first : NodeId} {s t : String} (h : f.kind i = .text s)
    (ht : f.kind first = .text t) :
    f.joinTextsAfter (some first) (i :: ids)
      = (f.setNode first ⟨.text (t ++ s), (f.span first).union (f.span i)⟩).joinTextsAfter
          (some first) ids := by
  simp only [joinTextsAfter, h, ht]

end JoinSteps

/-! ### Nodes that refer to each other only -/

/-- The nodes in `S` refer to no others. -/
def Closed (S : List NodeId) (f : TemplateFile) : Prop :=
  ∀ x ∈ S, x < f.nodes.size ∧ f.children x ⊆ S

/-- The nodes of a forest refer to nodes of the forest only. -/
theorem Holds.closed {f : TemplateFile} {ts : Forest} (h : f.Holds ts) : Closed (ids ts) f := by
  intro x hx
  refine ⟨h.lt_size x hx, ?_⟩
  induction ts using Forest.induct with
  | nil => exact absurd hx List.not_mem_nil
  | cons id k bs ts ihb iht =>
    rw [ids_cons] at hx ⊢
    rcases List.mem_cons.mp hx with rfl | hx
    -- the first node refers to the roots of its own lists
    · rw [h.children_eq, roots_flatten]
      intro y hy
      obtain ⟨l, hl, hyl⟩ := List.mem_flatten.mp hy
      obtain ⟨b, hb, rfl⟩ := List.mem_map.mp hl
      refine List.mem_cons_of_mem _ (List.mem_append_left _ ?_)
      exact List.mem_flatMap.mpr ⟨b, hb, roots_subset_ids b hyl⟩
    · rcases List.mem_append.mp hx with hx | hx
      -- below it or behind it by induction
      · obtain ⟨b, hb, hxb⟩ := List.mem_flatMap.mp hx
        intro y hy
        refine List.mem_cons_of_mem _ (List.mem_append_left _ ?_)
        exact List.mem_flatMap.mpr ⟨b, hb, ihb b hb (h.body hb) hxb hy⟩
      · intro y hy
        exact List.mem_cons_of_mem _ (List.mem_append_right _ (iht h.tail hx hy))

namespace Closed

variable {S : List NodeId} {f g : TemplateFile}

/-- A set that is closed stays so as long as its nodes do not change. -/
theorem congr (h : Closed S f) (hkind : ∀ x ∈ S, g.kind x = f.kind x)
    (hsize : f.nodes.size ≤ g.nodes.size) : Closed S g := fun x hx =>
  ⟨Nat.lt_of_lt_of_le (h x hx).1 hsize, by
    rw [children, hkind x hx]
    exact (h x hx).2⟩

/-- A node of a closed set may take any kind that refers to nodes of the set only. -/
theorem setNode (h : Closed S f) {id : NodeId} {n : Node} (hn : n.kind.bodies.flatten ⊆ S) :
    Closed S (f.setNode id n) := by
  intro x hx
  rw [size_setNode]
  refine ⟨(h x hx).1, ?_⟩
  rcases Nat.decEq id x with hne | rfl
  · rw [children, kind_setNode_of_ne f n hne]
    exact (h x hx).2
  · rw [children, kind_setNode_self f n (h id hx).1]
    exact hn

end Closed

/-- An edit is confined if, given nodes of a closed set, it changes nodes of that set only and gives
back such nodes. -/
def Confined (edit : BodyEdit) : Prop :=
  ∀ S f ids, Closed S f → ids ⊆ S →
    ChangesOnly S f (edit f ids).1 ∧ Closed S (edit f ids).1 ∧ (edit f ids).2 ⊆ S

section Confined

variable {edit : BodyEdit} {S : List NodeId}

/-- A confined edit of one list of a node of the set. -/
private theorem Confined.editBody (hedit : Confined edit) {f : TemplateFile} (h : Closed S f)
    {id : NodeId} (hid : id ∈ S) (slot : Nat) :
    ChangesOnly S f (editBody edit id f slot) ∧ Closed S (editBody edit id f slot) := by
  unfold TemplateFile.editBody
  split
  · exact ⟨ChangesOnly.refl _ _, h⟩
  · next body hbody =>
    have hsub : body ⊆ S := fun x hx =>
      (h id hid).2 (List.mem_flatten.mpr ⟨body, List.mem_of_getElem? hbody, hx⟩)
    obtain ⟨hchange, hclosed, hout⟩ := hedit S f body h hsub
    refine ⟨hchange.trans_self (ChangesOnly.setKind hid _), hclosed.setNode ?_⟩
    -- every list of the node is one of its own or the edited one
    intro x hx
    rw [NodeKind.bodies_withBodies _ _ (List.length_set ..)] at hx
    obtain ⟨l, hl, hxl⟩ := List.mem_flatten.mp hx
    rcases List.mem_or_eq_of_mem_set hl with hl | rfl
    · exact (hclosed id hid).2 (List.mem_flatten.mpr ⟨l, hl, hxl⟩)
    · exact hout hxl

/-- Joining the texts of nodes of a closed set. -/
private theorem joinTextsAfter_confined {f : TemplateFile} (h : Closed S f) {last : Option NodeId}
    {ids : List NodeId} (hlast : ∀ i ∈ last, i ∈ S) (hids : ids ⊆ S) :
    ChangesOnly S f (f.joinTextsAfter last ids).1 ∧ Closed S (f.joinTextsAfter last ids).1 ∧
      (f.joinTextsAfter last ids).2 ⊆ S := by
  induction ids generalizing f last with
  | nil => exact ⟨ChangesOnly.refl _ _, h, hids⟩
  | cons id ids ih =>
    have hid := hids List.mem_cons_self
    have hrest : ids ⊆ S := fun x hx => hids (List.mem_cons_of_mem _ hx)
    -- the node stays in the list, and the rest follows it
    have hstay : ∀ last', (∀ i ∈ last', i ∈ S) →
        ChangesOnly S f (f.joinTextsAfter last' ids).1 ∧ Closed S (f.joinTextsAfter last' ids).1 ∧
          id :: (f.joinTextsAfter last' ids).2 ⊆ S := by
      intro last' hlast'
      obtain ⟨hchange, hclosed, hout⟩ := ih h hlast' hrest
      exact ⟨hchange, hclosed, List.cons_subset.mpr ⟨hid, hout⟩⟩
    have hsome : ∀ i ∈ some id, i ∈ S := fun i hi => Option.some.inj hi ▸ hid
    have hnone : ∀ i ∈ (none : Option NodeId), i ∈ S := fun i hi => absurd hi (Option.not_mem_none i)
    -- only joining changes a node, and that node is in the list already
    by_cases htext : ∃ s, f.kind id = .text s
    · obtain ⟨s, hs⟩ := htext
      by_cases hjoin : ∃ first ∈ last, ∃ t, f.kind first = .text t
      · obtain ⟨first, hfirst, t, ht⟩ := hjoin
        obtain rfl : last = some first := hfirst
        have hset : Closed S (f.setNode first ⟨.text (t ++ s), (f.span first).union (f.span id)⟩) :=
          h.setNode (List.nil_subset S)
        obtain ⟨hchange, hclosed, hout⟩ := ih hset hlast hrest
        rw [joinTextsAfter_text hs ht]
        exact ⟨(ChangesOnly.setNode (hlast first rfl) _).trans_self hchange, hclosed, hout⟩
      -- the first text of a run waits for others
      · rw [joinTextsAfter_first hs fun first hfirst t ht => hjoin ⟨first, hfirst, t, ht⟩]
        exact hstay (some id) hsome
    · rw [joinTextsAfter_other fun s hs => htext ⟨s, hs⟩]
      exact hstay none hnone

/-- Joining the texts of a list is a confined edit. -/
theorem joinTexts_confined : Confined joinTexts := fun _ _ _ h hids =>
  joinTextsAfter_confined h (fun i hi => absurd hi (Option.not_mem_none i)) hids

/-- **Visits of a closed set** change nothing else. -/
theorem Confined.visit (hedit : Confined edit) {f : TemplateFile} (h : Closed S f)
    {ids : List NodeId} (hids : ids ⊆ S) :
    ChangesOnly S f (f.visit edit ids) ∧ Closed S (f.visit edit ids) := by
  -- the lists of one node, one after the other
  have hslots : ∀ id ∈ S, ∀ (slots : List Nat) (g : TemplateFile), Closed S g →
      ChangesOnly S g (slots.foldl (TemplateFile.editBody edit id) g) ∧
        Closed S (slots.foldl (TemplateFile.editBody edit id) g) := by
    intro id hid slots
    induction slots with
    | nil => exact fun g hg => ⟨ChangesOnly.refl _ _, hg⟩
    | cons slot slots ih =>
      intro g hg
      obtain ⟨hchange, hclosed⟩ := hedit.editBody hg hid slot
      obtain ⟨hchanges, hlast⟩ := ih _ hclosed
      exact ⟨hchange.trans_self hchanges, hlast⟩
  induction ids generalizing f with
  | nil => exact ⟨ChangesOnly.refl _ _, h⟩
  -- the lists of the first node, then the other nodes
  | cons id ids ih =>
    obtain ⟨hchange, hclosed⟩ := hslots id (hids List.mem_cons_self) _ f h
    obtain ⟨hchanges, hlast⟩ := ih hclosed fun x hx => hids (List.mem_cons_of_mem _ hx)
    exact ⟨hchange.trans_self hchanges, hlast⟩

end Confined

end TemplateFile

end TemplateFrontend
