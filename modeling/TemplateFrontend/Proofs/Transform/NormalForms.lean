import TemplateFrontend.Proofs.Transform.ConstantPrints
/-!
# Normal forms

Simplification visits the lists of a file once, in an order that it fixed before the first visit, and
splices some of them into others on the way. Still nothing is left to do after that: every list ends as the
pieces of its nodes say, whatever visits they come from, and of a node that is kept nothing can be
simplified further. What has nothing left to simplify is in *normal form*, and simplification leaves it as
it is, node by node and list by list.

* `NodeKind.IsNormal`, `TemplateFile.IsNormal` — what a file in normal form does not hold;
* `Forest.isNormal_simplify` — a simplified forest is in normal form;
* `TemplateFile.Planted.isNormal_optimize` — so is a simplified file;
* `TemplateFile.Planted.optimize_eq_self` — a file in normal form is left as it is.
-/

namespace TemplateFrontend

open Forest

/-! ### Nodes -/

/-- Nothing is left to simplify in the node itself. -/
structure NodeKind.IsNormal (k : NodeKind) : Prop where
  /-- No part of an expression can be folded. -/
  folded : ∀ e ∈ k.exprs, ∀ p ∈ e.subexprs, p.folded? = none
  /-- No condition is a constant, and a command without conditions is none. -/
  conditions : ∀ bs o, k = .conditional bs o → bs ≠ [] ∧ ∀ b ∈ bs, b.cond.literal? = none
  /-- A constant that is printed as it is has characters that HTML writes in another way. -/
  prints : ∀ e v, k = .print e [] → e.literal? = some v → needsEscaping v.output = true

namespace NodeKind

section Kept

variable {k k' : NodeKind}

theorem isNormal_text (s : String) : (text s).IsNormal :=
  ⟨fun _ he => absurd he List.not_mem_nil, fun _ _ hk => absurd hk (by simp),
    fun _ _ hk => absurd hk (by simp)⟩

/-- A branching command that is kept as it is has conditions, none of them a constant. -/
theorem conditions_of_kept {bs : List Branch} {o : Option (List NodeId)}
    (h : (conditional bs o).verdict = .kept (.conditional bs o)) :
    bs ≠ [] ∧ ∀ b ∈ bs, b.cond.literal? = none := by
  constructor
  · rintro rfl
    exact absurd h (by simp [verdict, prune])
  · obtain ⟨-, -, hne⟩ | ⟨bs', o', hk, hk'⟩ := verdict_eq_kept h
    · exact absurd rfl (hne bs o)
    · obtain ⟨rfl, rfl⟩ := NodeKind.conditional.inj hk
      obtain ⟨hbs, -⟩ := NodeKind.conditional.inj hk'
      intro b hb
      rw [hbs] at hb
      exact (prune_cond hb).2

/-- The print of a constant is kept only if the constant has to be escaped. -/
theorem needsEscaping_of_kept {e : Expr} {v : Literal} (he : e.literal? = some v)
    (h : (print e []).verdict = .kept k') : needsEscaping v.output = true := by
  by_contra hv
  simp only [verdict, he, if_neg hv] at h
  split at h <;> exact absurd h (by simp)

/-- What is kept of a node has expressions of the node. -/
theorem exprs_subset_of_kept (h : k.verdict = .kept k') : k'.exprs ⊆ k.exprs := by
  obtain ⟨rfl, -, -⟩ | ⟨bs, o, rfl, rfl⟩ := verdict_eq_kept h
  · exact List.Subset.refl _
  · exact ((prune_fst_sublist bs o).map _).subset

/-- **A node that is kept** is in normal form once its expressions are folded. -/
theorem isNormal_of_kept (h : k.verdict = .kept k')
    (hfolded : ∀ e ∈ k.exprs, ∀ p ∈ e.subexprs, p.folded? = none) : k'.IsNormal := by
  have hself := verdict_of_kept h
  refine ⟨fun e he => hfolded e (exprs_subset_of_kept h he), ?_, ?_⟩
  · rintro bs o rfl
    exact conditions_of_kept hself
  · rintro e v rfl he
    exact needsEscaping_of_kept he hself

/-- The lists inside a node do not matter. -/
theorem IsNormal.withBodies (h : k.IsNormal) (ls : List (List NodeId)) : (k.withBodies ls).IsNormal := by
  have hexprs := exprs_withBodies k ls
  refine ⟨fun e he => h.folded e (hexprs ▸ he), fun bs o hk => ?_, fun e v hk => ?_⟩
  · cases k with
    | conditional bs' o' =>
      obtain ⟨hne, hconds⟩ := h.conditions bs' o' rfl
      -- other bodies, but the conditions are the same
      have hmap : bs.map (·.cond) = bs'.map (·.cond) := by rw [hk] at hexprs; exact hexprs
      constructor
      · rintro rfl
        exact hne (List.map_eq_nil_iff.mp hmap.symm)
      · intro b hb
        have hcond : b.cond ∈ bs'.map (·.cond) := hmap ▸ List.mem_map_of_mem hb
        obtain ⟨b', hb', heq⟩ := List.mem_map.mp hcond
        exact heq ▸ hconds b' hb'
    | binding x b => cases b <;> cases hk
    | _ => cases hk
  · cases k with
    -- a print has no bodies, so it is the same one
    | print e' ds => exact h.prints e v hk
    | binding x b => cases b <;> cases hk
    | _ => cases hk

/-- Expressions that are replaced by themselves. -/
theorem mapExprs_eq_self {g : Expr → Expr} (h : ∀ e ∈ k.exprs, g e = e) : k.mapExprs g = k := by
  -- a record whose expressions stay as they are is not changed
  have hmap : ∀ {α : Type} {xs : List α} {step : α → α}, (∀ x ∈ xs, step x = x) → xs.map step = xs :=
    fun hstep => (List.map_congr_left hstep).trans (List.map_id' _)
  cases k with
  | template t =>
    have hstate : (t.state.map fun d => { d with initial := g d.initial }) = t.state :=
      hmap fun d hd => by rw [h d.initial (List.mem_map_of_mem hd)]
    rw [mapExprs, hstate]
  | print e ds =>
    obtain ⟨he, hds⟩ := List.forall_mem_cons.mp h
    -- each directive keeps its arguments
    have hargs : (ds.map fun d => { d with args := d.args.map g }) = ds := hmap fun d hd => by
      rw [hmap fun a ha => hds a (List.mem_flatMap.mpr ⟨d, hd, ha⟩)]
    rw [mapExprs, he, hargs]
  | conditional bs o =>
    have hconds : (bs.map fun b => { b with cond := g b.cond }) = bs :=
      hmap fun b hb => by rw [h b.cond (List.mem_map_of_mem hb)]
    rw [mapExprs, hconds]
  | loop x e body => rw [mapExprs, h e (List.mem_singleton_self e)]
  | binding x b =>
    cases b with
    | value e => rw [mapExprs, Bound.mapExpr, h e (List.mem_singleton_self e)]
    | content kind body => rfl
  | call c =>
    have hpassed : (c.passed.map fun p => { p with bound := p.bound.mapExpr g }) = c.passed := by
      refine hmap fun p hp => ?_
      obtain ⟨name, bound, span⟩ := p
      cases bound with
      | value e => rw [Bound.mapExpr, h e (List.mem_filterMap.mpr ⟨_, hp, rfl⟩)]
      | content kind body => rfl
    rw [mapExprs, hpassed]
  | _ => rfl

end Kept

end NodeKind

/-! ### Forests -/

/-- No text of the list stands beside another. -/
def Forest.Apart (ts : Forest) : Prop := ts.IsChain fun t u => t.kind.text? = none ∨ u.kind.text? = none

/-- Nothing is left to simplify in the root and in the lists directly inside it. -/
structure NodeTree.IsNormal (t : NodeTree) : Prop where
  kind : t.kind.IsNormal
  apart : ∀ b ∈ t.bodies, b.Apart

namespace Forest

/-- **Joined texts** stand apart, if the other nodes are no texts. -/
theorem apart_finishAfter {ps : List Piece} (h : ∀ t r, Piece.other t r ∈ ps → ∀ s, t.kind ≠ .text s)
    (after : Bool) :
    Apart (Piece.finishAfter after ps) ∧
      (after = true → ∀ t ∈ (Piece.finishAfter after ps).head?, t.kind.text? = none) := by
  induction ps generalizing after with
  | nil => simp [Apart]
  | cons p ps ih =>
    have ih := ih fun t r hm => h t r (List.mem_cons_of_mem _ hm)
    cases p with
    | other t r =>
      -- the node is no text, so it may stand before and behind anything
      have ht : t.kind.text? = none := NodeKind.text?_eq_none (h t r List.mem_cons_self)
      rw [Piece.finishAfter_other, Apart, List.isChain_cons]
      refine ⟨⟨fun u _ => .inl ht, (ih false).1⟩, fun _ u hu => ?_⟩
      obtain rfl := Option.some.inj hu
      exact ht
    | text i s again =>
      -- what follows a text starts with another node, whether the text stays or joins the one before
      obtain ⟨hrest, hhead⟩ := ih true
      cases after with
      | true => exact ⟨hrest, hhead⟩
      | false =>
        rw [Piece.finishAfter, Apart, List.isChain_cons]
        exact ⟨⟨fun u hu => .inr (hhead rfl u hu), hrest⟩, fun h => absurd h (by simp)⟩

/-- **A simplified forest is in normal form**, once its expressions are folded. -/
theorem isNormal_simplify {ts : Forest} (hl : Labelled ts)
    (hfolded : ∀ t ∈ subtrees ts, ∀ e ∈ t.kind.exprs, ∀ p ∈ e.subexprs, p.folded? = none) :
    ∀ t ∈ subtrees (simplify ts), t.IsNormal := by
  -- a joined text holds no expression and no list
  have htext : ∀ i s, (NodeTree.node i (.text s) []).IsNormal := fun i s =>
    ⟨NodeKind.isNormal_text s, fun _ hb => absurd hb List.not_mem_nil⟩
  refine Piece.forall_subtrees_finishAfter htext
    (forall_other_simplified hl fun id k k' bs hm hv hbs => ?_) false
  have hbody : ∀ b ∈ k.live bs, Labelled b := fun b hb u hu =>
    hl u (mem_subtrees_inside hm ((k.live_sublist bs).subset hb) hu)
  refine forall_subtrees_cons.mpr ⟨⟨?_, ?_⟩, ?_, fun _ ht => absurd ht List.not_mem_nil⟩
  · exact (NodeKind.isNormal_of_kept hv (hfolded _ hm)).withBodies _
  · refine List.forall_mem_map.mpr fun b hb => ?_
    exact (apart_finishAfter (ne_text_of_other_mem_simplified (hbody b hb)) false).1
  · exact List.forall_mem_map.mpr fun b hb => Piece.forall_subtrees_finishAfter htext (hbs b hb) false

end Forest

/-! ### Files -/

namespace TemplateFile

/-- **Normal form.** Nothing is left to simplify in the nodes that can be reached, and no text in a list
stands beside another. -/
structure IsNormal (f : TemplateFile) : Prop where
  kinds : ∀ id ∈ f.reachable, (f.kind id).IsNormal
  texts : ∀ id ∈ f.reachable, ∀ body ∈ (f.kind id).bodies,
    body.IsChain fun x y => (f.kind x).text? = none ∨ (f.kind y).text? = none

section Steps

variable {f : TemplateFile} {id : NodeId} {body : List NodeId}

/-- **One node.** A node in normal form is kept as it is. -/
theorem simplifyNode_eq_self (h : (f.kind id).IsNormal) : f.simplifyNode id = (f, .kept) := by
  cases hk : f.kind id with
  | conditional bs o =>
    obtain ⟨hne, hconds⟩ := h.conditions bs o hk
    -- no condition is constant, so pruning gives the branches back
    obtain ⟨b, bs, rfl⟩ := List.exists_cons_of_ne_nil hne
    simp only [simplifyNode, hk, prune_of_no_constants hconds]
    rw [← hk, setKind_kind]
  | print e ds =>
    cases ds with
    | cons d ds => simp only [simplifyNode, hk]
    | nil =>
      cases he : e.literal? with
      | none => simp only [simplifyNode, hk, he]
      | some v => simp only [simplifyNode, hk, he, h.prints e v hk he, if_true]
  | _ => simp only [simplifyNode, hk]

theorem simplifyNodes_eq_self (h : ∀ id ∈ body, (f.kind id).IsNormal) (fuel : Nat) :
    f.simplifyNodes fuel body = (f, body) := by
  induction body generalizing fuel with
  | nil => rw [simplifyNodes]
  | cons id body ih =>
    obtain ⟨hid, hbody⟩ := List.forall_mem_cons.mp h
    cases fuel with
    | zero => rfl
    | succ fuel => simp only [simplifyNodes, simplifyNode_eq_self hid, ih hbody fuel]

/-- Texts that stand apart are not joined. -/
theorem joinTextsAfter_eq_self
    (h : body.IsChain fun x y => (f.kind x).text? = none ∨ (f.kind y).text? = none) {last : Option NodeId}
    (hlast : last = none ∨ ∀ x ∈ body.head?, (f.kind x).text? = none) :
    f.joinTextsAfter last body = (f, body) := by
  induction body generalizing last with
  | nil => rw [joinTextsAfter]
  | cons x body ih =>
    obtain ⟨hx, hbody⟩ := List.isChain_cons.mp h
    cases ht : (f.kind x).text? with
    | none =>
      -- whatever stands before the list, no text behind this node is joined to it
      have hk : ∀ s, f.kind x ≠ .text s := fun s hk => by simp [hk, NodeKind.text?] at ht
      rw [joinTextsAfter_other hk, ih hbody (.inl rfl)]
    | some s =>
      -- a text stays only where no text stands before it, and is itself what stands before the next node
      obtain rfl : last = none := hlast.resolve_right fun hhead => by
        rw [hhead x rfl] at ht
        cases ht
      have hnext : ∀ y ∈ body.head?, (f.kind y).text? = none := fun y hy =>
        (hx y hy).resolve_left fun hnone => by
          rw [hnone] at ht
          cases ht
      rw [joinTextsAfter_first (NodeKind.eq_text_of_text? ht) (by simp), ih hbody (.inr hnext)]

/-- **One list.** A list of nodes in normal form, with texts that stand apart, stays as it is. -/
theorem simplifyBody_eq_self (h : ∀ id ∈ body, (f.kind id).IsNormal)
    (htexts : body.IsChain fun x y => (f.kind x).text? = none ∨ (f.kind y).text? = none) :
    simplifyBody f body = (f, body) := by
  rw [simplifyBody, simplifyNodes_eq_self h]
  exact joinTextsAfter_eq_self htexts (.inl rfl)

theorem foldReachable_eq_self {step : TemplateFile → NodeId → TemplateFile}
    (h : ∀ id ∈ f.reachable, step f id = f) : f.foldReachable step = f := by
  rw [foldReachable]
  generalize f.reachable = ids at h
  induction ids with
  | nil => rfl
  | cons id ids ih =>
    obtain ⟨hid, hids⟩ := List.forall_mem_cons.mp h
    rw [List.foldl_cons, hid, ih hids]

/-- Lists that an edit leaves as they are. -/
theorem editBody_eq_self {edit : BodyEdit} (h : ∀ body ∈ (f.kind id).bodies, edit f body = (f, body))
    (slot : Nat) : f.editBody edit id slot = f := by
  unfold editBody
  split
  · rfl
  · next body hbody =>
    obtain ⟨hlt, rfl⟩ := List.getElem?_eq_some_iff.mp hbody
    simp only [h _ (List.getElem_mem hlt), List.set_getElem_self, NodeKind.withBodies_bodies,
      setKind_kind]

end Steps

namespace Planted

variable {f : TemplateFile} {ts : Forest}

/-- What is below a node that can be reached can be reached. -/
theorem mem_reachable_of_mem_body (h : f.Planted ts) {owner id : NodeId} {body : List NodeId}
    (howner : owner ∈ f.reachable) (hbody : body ∈ (f.kind owner).bodies) (hid : id ∈ body) :
    id ∈ f.reachable := by
  rw [h.reachable_eq] at howner ⊢
  exact (h.holds.closed owner howner).2 (List.mem_flatten.mpr ⟨body, hbody, hid⟩)

/-- **The normal form is a fixed point.** A file in normal form is left as it is. -/
theorem optimize_eq_self (h : f.Planted ts) (hn : f.IsNormal) : f.optimize = f := by
  -- both walks go over the nodes one by one, and no step on a node changes anything
  have hfolds : f.mapExprs Expr.fold = f := foldReachable_eq_self fun id hid => by
    have hexprs : ∀ e ∈ (f.kind id).exprs, e.fold = e := fun e he =>
      Expr.fold_eq_self ((hn.kinds id hid).folded e he)
    rw [NodeKind.mapExprs_eq_self hexprs, setKind_kind]
  have hedits : f.editBodies simplifyBody = f := foldReachable_eq_self fun id hid => by
    have hslot : ∀ slot, f.editBody simplifyBody id slot = f := editBody_eq_self fun body hbody =>
      simplifyBody_eq_self (fun x hx => hn.kinds x (h.mem_reachable_of_mem_body hid hbody hx))
        (hn.texts id hid body hbody)
    exact List.foldl_fixed' hslot _
  rw [TemplateFile.optimize, hfolds, hedits]

/-- What is in normal form in the forest is so in the table. -/
theorem isNormal (h : f.Planted ts) (hn : ∀ t ∈ subtrees ts, t.IsNormal) : f.IsNormal := by
  -- the table shows the forest, so a normal forest is a normal file
  have hshows := h.holds.shows_nodes
  constructor
  · intro id hid
    obtain ⟨t, ht, rfl⟩ := List.mem_map.mp (h.reachable_eq ▸ hid)
    exact hshows t ht ▸ (hn t ht).kind
  · -- a list in the table holds the roots of a list in the forest
    intro id hid body hbody
    obtain ⟨t, ht, rfl⟩ := List.mem_map.mp (h.reachable_eq ▸ hid)
    rw [hshows t ht, h.holds.labelled t ht] at hbody
    obtain ⟨b, hb, rfl⟩ := List.mem_map.mp hbody
    rw [roots, List.isChain_map]
    have hkind : ∀ u ∈ b, f.kind u.id = u.kind := fun u hu => hshows u (mem_subtrees_of_mem_body ht hb hu)
    refine ((hn t ht).apart b hb).imp_of_mem_imp fun u v hu hv huv => ?_
    rw [hkind u hu, hkind v hv]
    exact huv

/-- **A simplified file is in normal form.** -/
theorem isNormal_optimize (h : f.Planted ts) : f.optimize.IsNormal := by
  refine h.optimize.isNormal (isNormal_simplify (h.mapExprs Expr.fold).holds.labelled fun t ht e he => ?_)
  -- every kind of the forest is a kind of the file with its expressions folded
  have hkind : t.kind = (f.kind t.id).mapExprs Expr.fold := by
    have hfolded := h.mapExprs Expr.fold
    have hid : f.Reaches t.id := by
      rw [h.reaches_iff, ← ids_mapKinds (NodeKind.mapExprs Expr.fold)]
      exact List.mem_map_of_mem ht
    rw [← h.kind_mapExprs Expr.fold hid]
    exact (hfolded.holds.shows_nodes t ht).symm
  rw [hkind, NodeKind.exprs_mapExprs] at he
  obtain ⟨e, -, rfl⟩ := List.mem_map.mp he
  exact fun p hp => Expr.folded?_of_mem_fold hp

end Planted

end TemplateFile

end TemplateFrontend
