import TemplateFrontend.Proofs.Transform.LoweredFiles
import TemplateFrontend.Proofs.Tree.Rebuilding
import TemplateFrontend.Transform.DebugAttribute
/-!
# Passes that rebuild the forest

Some passes drop nodes, splice lists into others, and add nodes while they go over the lists. Each of
them rebuilds the forest of the templates, and no expression gets a second place in it.

* `TemplateFile.Respells` — nodes that become texts, in lists from which nodes may be dropped;
* `TemplateFile.Regrows.of_respells`, `TemplateFile.lowerTags_regrows` — the edits of lists;
* `TemplateFile.exists_descends_desugarSyntax` and the following — the passes.
-/

namespace TemplateFrontend

namespace Forest

/-- The expressions of the nodes, node by node. -/
def exprs (ts : Forest) : List Expr := (subtrees ts).flatMap fun t => t.kind.exprs

@[simp] theorem exprs_nil : exprs [] = [] := rfl

/-- A node, what is inside it, and what follows it. -/
@[simp] theorem exprs_cons (id : NodeId) (k : NodeKind) (bs : List Forest) (ts : Forest) :
    exprs (.node id k bs :: ts) = k.exprs ++ (bs.flatMap exprs ++ exprs ts) := by
  rw [exprs, subtrees_cons, List.flatMap_cons, List.flatMap_append, List.flatMap_assoc]
  rfl

/-- A list in two parts has the expressions of both. -/
@[simp] theorem exprs_append (ts us : Forest) : exprs (ts ++ us) = exprs ts ++ exprs us := by
  rw [exprs, subtrees_append, List.flatMap_append]
  rfl

/-- A binding of state holds the first value of its variable. -/
theorem exprs_bindingNodes (n : NodeId) (ds : List StateDecl) :
    exprs (bindingNodes n ds) = ds.map (·.initial) := by
  induction ds generalizing n with
  | nil => rfl
  | cons d ds ih =>
    rw [bindingNodes, exprs_cons, ih]
    rfl

/-- What a template holds as state, its bindings hold afterwards, in the same order. -/
theorem exprs_bindState {n : NodeId} {ts : Forest} (hl : Labelled ts) :
    exprs (bindState n ts) = exprs ts := by
  induction ts generalizing n with
  | nil => rfl
  | cons t ts ih =>
    obtain ⟨i, k, bs⟩ := t
    obtain ⟨hk, -, hts⟩ := labelled_cons.mp hl
    cases k with
    | template t =>
      -- a template has one list, its body
      obtain ⟨b, rfl⟩ : ∃ b, bs = [b] := by
        refine List.length_eq_one_iff.mp ?_
        rw [← List.length_map (f := roots), ← hk]
        rfl
      rw [bindState, exprs_cons, exprs_cons, ih hts, List.map_singleton, List.flatMap_singleton,
        List.flatMap_singleton, exprs_append, exprs_bindingNodes]
      -- only elements have state; of them the expressions move from the template to the bindings
      by_cases helement : t.kind = .element
      · simp only [Template.withBindings, Template.bindings, if_pos helement, NodeKind.exprs]
        rw [List.map_nil, List.nil_append, List.append_assoc]
      · simp only [Template.withBindings, Template.bindings, if_neg helement]
        rfl
    | _ =>
      change exprs (.node i _ bs :: bindState n ts) = _
      rw [exprs_cons, exprs_cons, ih hts]

end Forest

namespace TemplateFile

open Forest

variable {f g h : TemplateFile} {ts : Forest}

/-! ### Nodes that become texts -/

/-- Nodes of `S` that have neither lists nor expressions have become others of that kind. -/
structure Respells (S : List NodeId) (f g : TemplateFile) : Prop extends Sheds f g where
  changes : ChangesOnly S f g
  bodies_eq : ∀ id, (g.kind id).bodies = (f.kind id).bodies

namespace Respells

variable {S T : List NodeId}

/-- A file in which nothing becomes a text. -/
theorem refl (S : List NodeId) (f : TemplateFile) : Respells S f f :=
  ⟨.refl f, .refl S f, fun _ => rfl⟩

/-- Some nodes, and then others. -/
theorem trans (h₁ : Respells S f g) (h₂ : Respells S g h) : Respells S f h :=
  ⟨h₁.toSheds.trans h₂.toSheds, h₁.changes.trans_self h₂.changes,
    fun id => (h₂.bodies_eq id).trans (h₁.bodies_eq id)⟩

/-- It may be said of more nodes. -/
theorem mono (h₁ : Respells S f g) (hsub : S ⊆ T) : Respells T f g :=
  ⟨h₁.toSheds, h₁.changes.mono hsub, h₁.bodies_eq⟩

/-- A node without lists that is no template becomes a text. -/
theorem setNode {id : NodeId} {n : Node} {s : String} (hid : id ∈ S) (hn : n.kind = .text s)
    (hbodies : (f.kind id).bodies = []) : Respells S f (f.setNode id n) where
  toSheds := by
    refine .setNode f id n ?_ fun t ht => ?_
    · rw [hn]
      exact List.nil_sublist _
    · rw [ht] at hbodies
      cases hbodies
  changes := .setNode hid n
  bodies_eq := fun x => by
    -- the new text has no lists, as the node had none
    by_cases hx : id = x
    · subst hx
      by_cases hlt : id < f.nodes.size
      · rw [kind_setNode_self f n hlt, hn, hbodies]
        rfl
      · rw [kind_of_size_le (by rw [size_setNode]; exact Nat.not_lt.mp hlt), hbodies]
        rfl
    · rw [kind_setNode_of_ne f n hx]

end Respells

/-- An edit that respells nodes of the list, and drops some of it. -/
theorem Regrows.of_respells {edit : BodyEdit}
    (hedit : ∀ f ids, Respells ids f (edit f ids).1 ∧ (edit f ids).2.Sublist ids) : Regrows edit where
  sheds f ids := (hedit f ids).1.toSheds
  bodies_eq f ids id _ := (hedit f ids).1.bodies_eq id
  grows := by
    intro f b hb
    obtain ⟨hspell, hsub⟩ := hedit f (roots b)
    -- what stays in the list, with the kinds of the new table
    obtain ⟨c, hc, hroots⟩ := List.sublist_map_iff.mp hsub
    have hbelow : (ids c).Sublist (ids b) := (subtrees_mono hc).map _
    refine ⟨Forest.relabel (edit f (roots b)).1 c, ⟨?_, ?_, fun x hx => .inl ?_⟩, ?_⟩
    · exact hspell.changes.mono (roots_subset_ids b)
    · exact (hb.of_sublist (subtrees_mono hc)).relabel hspell.size_le fun x _ => hspell.bodies_eq x
    · rw [ids_relabel] at hx
      exact hbelow.subset hx
    · rw [roots_relabel, hroots]
      rfl

/-- Adjacent texts are joined into the first of them. -/
theorem joinTextsAfter_respells (f : TemplateFile) (last : Option NodeId) (is : List NodeId) :
    Respells (last.toList ++ is) f (f.joinTextsAfter last is).1 ∧
      (f.joinTextsAfter last is).2.Sublist is := by
  induction is generalizing f last with
  | nil => exact ⟨.refl _ f, .refl _⟩
  | cons i is ih =>
    -- the node stays in the list, whatever it is to the next one
    have hstay : ∀ last' : Option NodeId, last'.toList ⊆ [i] →
        Respells (last.toList ++ i :: is) f (f.joinTextsAfter last' is).1 ∧
          (i :: (f.joinTextsAfter last' is).2).Sublist (i :: is) := by
      intro last' hlast'
      obtain ⟨hspell, hsub⟩ := ih f last'
      refine ⟨hspell.mono fun x hx => List.mem_append_right _ ?_, hsub.cons_cons i⟩
      obtain hx | hx := List.mem_append.mp hx
      · exact List.mem_singleton.mp (hlast' hx) ▸ List.mem_cons_self
      · exact List.mem_cons_of_mem i hx
    by_cases htext : ∃ s, f.kind i = .text s
    · obtain ⟨s, hs⟩ := htext
      -- a text behind a text is added to it and leaves the list
      by_cases hjoin : ∃ first ∈ last, ∃ t, f.kind first = .text t
      · obtain ⟨first, hfirst, t, ht⟩ := hjoin
        obtain rfl : last = some first := hfirst
        rw [joinTextsAfter_text hs ht]
        have hset : Respells (first :: i :: is) f
            (f.setNode first ⟨.text (t ++ s), (f.span first).union (f.span i)⟩) :=
          .setNode List.mem_cons_self rfl (by rw [ht]; rfl)
        obtain ⟨hspell, hsub⟩ := ih _ (some first)
        refine ⟨hset.trans (hspell.mono ?_), hsub.cons i⟩
        exact List.cons_subset_cons first (List.subset_cons_self i is)
      -- the first text of a run stays and waits for others
      · rw [joinTextsAfter_first hs fun first hfirst t ht => hjoin ⟨first, hfirst, t, ht⟩]
        exact hstay (some i) (List.Subset.refl _)
    · rw [joinTextsAfter_other fun s hs => htext ⟨s, hs⟩]
      exact hstay none (List.nil_subset _)

/-- Joining texts rebuilds a list. -/
theorem joinTexts_regrows : Regrows joinTexts :=
  .of_respells fun f is => joinTextsAfter_respells f none is

/-- Special characters become texts. -/
theorem expandSpecials_regrows : Regrows expandSpecials := by
  refine .of_respells fun f is => ?_
  induction is generalizing f with
  | nil => exact ⟨.refl _ f, .refl _⟩
  | cons i is ih =>
    rw [expandSpecials]
    split
    · next c hc =>
      -- the special character becomes a text in its place
      obtain ⟨hspell, hsub⟩ := ih (f.setKind i (.text c.text))
      have hset : Respells (i :: is) f (f.setKind i (.text c.text)) :=
        .setNode List.mem_cons_self rfl (by rw [hc]; rfl)
      refine ⟨hset.trans (hspell.mono (List.subset_cons_self i is)), ?_⟩
      -- an empty text leaves the list at once
      dsimp only
      split
      · exact hsub.cons i
      · exact hsub.cons_cons i
    · obtain ⟨hspell, hsub⟩ := ih f
      exact ⟨hspell.mono (List.subset_cons_self i is), hsub.cons_cons i⟩

/-! ### Tags written out -/

/-- A new node at the end of the table. -/
theorem grown_add (f : TemplateFile) {k : NodeKind} (s : Span) (hk : k.bodies = []) :
    Grown f (f.add k s).1 [] [.node f.nodes.size k []] where
  changes := .add f k s
  holds := by
    have hself : (f.add k s).1.kind f.nodes.size = k := kind_add_self f k s
    -- one tree of one node that is new
    refine ⟨?_, ?_, ?_, fun x hx => ?_⟩
    · exact shows_cons.mpr ⟨hself, fun _ hb => absurd hb List.not_mem_nil, shows_nil⟩
    · exact labelled_cons.mpr ⟨hk, fun _ hb => absurd hb List.not_mem_nil, labelled_nil⟩
    · exact List.nodup_singleton _
    · obtain rfl := List.mem_singleton.mp hx
      rw [size_add]
      exact Nat.lt_succ_self _
  ids_from x hx := by
    obtain rfl := List.mem_singleton.mp hx
    exact .inr (Nat.le_refl _)

/-- The pieces of a tag: the texts are new nodes, and the lists of values stay as they are. -/
theorem addPieces_sheds (f : TemplateFile) (place : Span) (ps : List (String ⊕ List NodeId)) :
    Sheds f (f.addPieces place ps).1 ∧ ChangesOnly [] f (f.addPieces place ps).1 := by
  induction ps generalizing f with
  | nil => exact ⟨.refl f, .refl [] f⟩
  | cons p ps ih =>
    cases p with
    | inl text =>
      obtain ⟨hsheds, hchange⟩ := ih (f.add (.text text) place).1
      exact ⟨(Sheds.add f place rfl).trans hsheds, (ChangesOnly.add f _ place).trans hchange⟩
    | inr value => exact ih f

/-- The pieces of a tag stand in place of the values of its attributes. -/
theorem exists_grown_addPieces (place : Span) {ps : List (String ⊕ List NodeId)} {vs : List Forest}
    (hf : f.Holds vs.flatten) (hps : ps.filterMap Sum.getRight? = vs.map roots) :
    ∃ c, Grown f (f.addPieces place ps).1 vs.flatten c ∧ roots c = (f.addPieces place ps).2 := by
  induction ps generalizing f vs with
  | nil =>
    obtain rfl : vs = [] := List.map_eq_nil_iff.mp hps.symm
    exact ⟨[], .refl hf, rfl⟩
  | cons p ps ih =>
    cases p with
    | inl text =>
      -- a text in front of the rest is a new node
      have hadd := grown_add f (k := .text text) place rfl
      have hkept : (f.add (.text text) place).1.Holds vs.flatten :=
        hf.kept hadd.changes fun x hx => absurd hx List.not_mem_nil
      obtain ⟨c, hc, hroots⟩ := ih hkept hps
      exact ⟨_, Grown.append hf hadd hc, congrArg (f.nodes.size :: ·) hroots⟩
    -- a value brings the nodes that it has
    | inr value =>
      obtain ⟨v, vs, rfl, rfl, hrest⟩ := List.map_eq_cons_iff.mp hps.symm
      obtain ⟨c, hc, hroots⟩ := ih hf.right hrest.symm
      refine ⟨v ++ c, Grown.append hf (.refl hf.left) hc, ?_⟩
      rw [roots_append, hroots]
      rfl

/-- The lists among the pieces of a tag are the values of its attributes. -/
theorem filterMap_tagPieces (text : String) (closed : Bool) (as : List Attribute) :
    (tagPieces text closed as).filterMap Sum.getRight? = as.filterMap (·.value) := by
  induction as generalizing text with
  | nil => rfl
  | cons a as ih =>
    obtain ⟨name, value, place⟩ := a
    cases value with
    | none => exact ih _
    | some value => exact congrArg (value :: ·) (ih _)

/-- What a list becomes that starts with a given node. -/
theorem lowerTags_cons (f : TemplateFile) (i : NodeId) (is : List NodeId) :
    ∃ ps, f.lowerTags (i :: is) = (((f.addPieces (f.span i) ps).1.lowerTags is).1,
        (f.addPieces (f.span i) ps).2 ++ ((f.addPieces (f.span i) ps).1.lowerTags is).2) ∧
      (ps.filterMap Sum.getRight? = (f.kind i).bodies ∨ ps = [.inr [i]]) := by
  cases hk : f.kind i with
  | openTag name attributes closed =>
    refine ⟨tagPieces ("<" ++ name) closed attributes, ?_, .inl (filterMap_tagPieces ..)⟩
    simp only [lowerTags, hk]
  | closeTag name =>
    refine ⟨[.inl ("</" ++ name ++ ">")], ?_, .inl rfl⟩
    simp only [lowerTags, hk]
  | _ =>
    refine ⟨[.inr [i]], ?_, .inr rfl⟩
    simp only [lowerTags, hk, addPieces, List.append_nil]

/-- Writing tags out rebuilds a list. -/
theorem lowerTags_regrows : Regrows lowerTags where
  sheds f is := by
    induction is generalizing f with
    | nil => exact .refl f
    | cons i is ih =>
      obtain ⟨ps, hrun, -⟩ := f.lowerTags_cons i is
      rw [hrun]
      exact (addPieces_sheds f _ ps).1.trans (ih _)
  bodies_eq f is id hid := by
    induction is generalizing f with
    | nil => rfl
    | cons i is ih =>
      obtain ⟨ps, hrun, -⟩ := f.lowerTags_cons i is
      obtain ⟨-, hchange⟩ := addPieces_sheds f (f.span i) ps
      rw [hrun, ih _ (Nat.lt_of_lt_of_le hid hchange.size_le),
        hchange.kind_eq id hid List.not_mem_nil]
  grows := by
    intro f b hb
    induction b generalizing f with
    | nil => exact ⟨[], .refl hb, rfl⟩
    | cons t b ih =>
      have htree : f.Holds ([t] ++ b) := hb
      obtain ⟨i, k, bs⟩ := t
      obtain ⟨ps, hrun, hps⟩ := f.lowerTags_cons i (roots b)
      -- the node, or in its place the lists inside it with new texts between them
      obtain ⟨c, hc, hroots⟩ : ∃ c, Grown f (f.addPieces (f.span i) ps).1 [.node i k bs] c ∧
          roots c = (f.addPieces (f.span i) ps).2 := by
        obtain hps | rfl := hps
        · rw [hb.kind_eq, hb.bodies_eq] at hps
          obtain ⟨c, hc, hroots⟩ := exists_grown_addPieces (f.span i) hb.inside hps
          refine ⟨c, hc.of_subset ?_, hroots⟩
          rw [ids_flatten, ids_singleton]
          exact List.subset_cons_self i _
        · exact ⟨_, .refl htree.left, rfl⟩
      -- the nodes behind it are not touched
      have hrest : (f.addPieces (f.span i) ps).1.Holds b :=
        htree.right.kept hc.changes htree.disjoint
      obtain ⟨d, hd, hroots'⟩ := ih hrest
      rw [roots_cons, NodeTree.id_node, hrun]
      refine ⟨c ++ d, Grown.append htree hc hd, ?_⟩
      rw [roots_append, hroots, hroots']

/-- So does writing tags out and then joining texts. -/
theorem lowerBody_regrows : Regrows lowerBody := lowerTags_regrows.comp joinTexts_regrows

/-! ### Simplification -/

/-- A simplified node keeps some of its branches, or becomes a text. -/
theorem simplifyNode_sheds (f : TemplateFile) (id : NodeId) : Sheds f (f.simplifyNode id).1 := by
  unfold simplifyNode
  split
  · next bs o hk =>
    split
    · exact .refl f
    · next left o' _ hp =>
      -- the branches that are left are some of those that it had
      have hleft : left.Sublist bs := by
        have hsub := prune_fst_sublist bs o
        rwa [hp] at hsub
      refine .setKind f id _ ?_ fun t ht => ?_
      · rw [hk]
        exact hleft.map _
      · cases hk.symm.trans ht
  · next e hk =>
    split
    · exact .refl f
    · dsimp only
      split
      · exact .refl f
      · split
        · exact .refl f
        -- a print becomes a text, and sheds its expression
        · exact .setKind f id _ (List.nil_sublist _) fun t ht => by cases hk.symm.trans ht
  · exact .refl f

/-- A list of nodes is simplified node by node. -/
theorem simplifyNodes_sheds (fuel : Nat) (f : TemplateFile) (is : List NodeId) :
    Sheds f (simplifyNodes fuel f is).1 := by
  induction fuel generalizing f is with
  | zero => cases is <;> exact .refl f
  | succ fuel ih =>
    cases is with
    | nil => exact .refl f
    | cons i is =>
      have hstep := simplifyNode_sheds f i
      rw [simplifyNodes]
      -- whatever becomes of the node, the list goes on from the file it leaves
      split <;> next g _ heq =>
        rw [heq] at hstep
        exact hstep.trans (ih _ _)

/-- Simplification of a list only sheds. -/
theorem simplifyBody_sheds (f : TemplateFile) (is : List NodeId) : Sheds f (simplifyBody f is).1 :=
  (simplifyNodes_sheds f.nodes.size f is).trans (joinTexts_regrows.sheds _ _)

/-- Edits that shed, in every list. -/
theorem Sheds.editBodies {edit : BodyEdit} (hedit : ∀ f is, Sheds f (edit f is).1)
    (f : TemplateFile) : Sheds f (f.editBodies edit) := by
  refine Sheds.foldl (fun f id => Sheds.foldl (fun f slot => ?_) _ f) _ f
  unfold TemplateFile.editBody
  split
  · exact .refl f
  · exact (hedit f _).trans (.withBodies _ id _)

/-! ### Passes -/

/-- Special characters are expanded and tags written out over the same templates. -/
theorem exists_descends_desugarSyntax (hf : f.Planted ts) :
    ∃ us, Descends f ts f.desugarSyntax us :=
  expandSpecials_regrows.editBodies hf

/-- Simplification leaves the simplified forest. -/
theorem descends_simplify (hf : f.Planted ts) :
    Descends f ts (f.editBodies simplifyBody) (simplify ts) := by
  obtain ⟨hsimp, -⟩ := hf.holds.editBodies_simplifyBody hf.roots_eq hf.areTemplates
  refine hf.descends (.editBodies simplifyBody_sheds f) hsimp (roots_simplify hf.areTemplates) ?_
  exact fun x hx => .inl ((ids_simplify hf.holds.labelled).subset hx)

/-- A node gets one more list, of a new node that holds nothing. -/
theorem exists_descends_newNode (hf : f.Planted ts) {id : NodeId} {k k' : NodeKind} (s : Span)
    (hid : id < f.nodes.size) (hk : k.bodies = []) (hexprs : k.exprs = [])
    (hbodies : k'.bodies = (f.kind id).bodies ++ [[f.nodes.size]])
    (hexprs' : k'.exprs.Sublist (f.kind id).exprs) (htemplate : ∀ t, f.kind id ≠ .template t) :
    ∃ us, Descends f ts ((f.add k s).1.setKind id k') us := by
  have hnew := grown_add f s hk
  have hsame : (f.add k s).1.kind id = f.kind id := kind_add_of_lt f k s hid
  -- neither step brings an expression or a template along
  have hsheds : Sheds f ((f.add k s).1.setKind id k') := by
    refine (Sheds.add f s hexprs).trans (.setKind _ id k' ?_ fun t ht => ?_)
    · rwa [hsame]
    · exact absurd (hsame.symm.trans ht) (htemplate t)
  by_cases hheld : id ∈ ids ts
  · -- the new list stands behind those that are there
    obtain ⟨k₀, bs, hnode, hheld⟩ := hf.holds.exists_node hheld
    have hgrown : Grown f (f.add k s).1 (bs ++ [[]]).flatten
        (bs ++ [[NodeTree.node f.nodes.size k []]]).flatten := by
      have hinside : f.Holds (bs.flatten ++ []) := by
        rw [List.append_nil]
        exact hheld.inside
      rw [List.flatten_append, List.flatten_append]
      exact Grown.append hinside (.refl hheld.inside) hnew
    rw [List.flatten_append, List.flatten_singleton, List.append_nil] at hgrown
    refine hf.setKind hnode hheld hgrown ?_ hsheds
    rw [hbodies, hheld.kind_eq, hheld.bodies_eq, List.map_append]
    rfl
  -- outside of the forest the change is not seen
  · refine ⟨_, hf.relabel hsheds fun x hx => ?_⟩
    have hne : id ≠ x := fun heq => hheld (heq ▸ hx)
    rw [kind_setKind_of_ne _ _ hne, kind_add_of_lt f k s (hf.holds.lt_size x hx)]

/-- The first tag of a template gets one more attribute, with a new text as its value. -/
theorem exists_descends_addDebugAttribute (hf : f.Planted ts) (t : Template) :
    ∃ us, Descends f ts (f.addDebugAttribute t) us := by
  unfold addDebugAttribute
  split
  · exact ⟨ts, .refl hf⟩
  split
  · exact ⟨ts, .refl hf⟩
  next id _ =>
  split
  · next name as closed hk =>
    -- past the end of the table there is no tag
    have hid : id < f.nodes.size := by
      by_contra hge
      cases hk.symm.trans (kind_of_size_le (Nat.not_lt.mp hge))
    refine exists_descends_newNode hf (f.span id) hid rfl rfl ?_ (List.nil_sublist _) fun t ht => ?_
    · rw [hk]
      exact List.filterMap_append
    · cases hk.symm.trans ht
  · exact ⟨ts, .refl hf⟩

/-- Debug attributes are added template by template. -/
theorem exists_descends_addDebugAttributes (hf : f.Planted ts) :
    ∃ us, Descends f ts f.addDebugAttributes us := by
  refine Descends.foldl (fun {f ts} hf id => ?_) f.templates hf
  split
  · next t _ => exact exists_descends_addDebugAttribute hf t
  · exact ⟨ts, .refl hf⟩

/-! ### State turned into bindings -/

/-- A file holds the expressions of its forest. -/
theorem Planted.heldExprs_eq (hf : f.Planted ts) : f.heldExprs = Forest.exprs ts := by
  rw [heldExprs, hf.reachable_eq, ids, Forest.exprs, List.flatMap_map]
  exact List.flatMap_congr fun t ht => congrArg NodeKind.exprs (hf.holds.shows_nodes t ht)

/-- **State turned into bindings.** The file holds the forest with the bindings in it, and with them the
expressions that it held. -/
theorem Planted.lowerStates (h : f.Planted ts) :
    Planted (f.declared.foldl (fun f p => f.lowerState p.1 p.2) f) (bindState f.nodes.size ts) ∧
      (f.declared.foldl (fun f p => f.lowerState p.1 p.2) f).heldExprs = f.heldExprs := by
  have hstart : f.Holds ([] ++ ts) := h.holds
  obtain ⟨hlowered, -, htemplates⟩ := hstart.lowerStates h.areTemplates
    (h.holds.shows_nodes.declared_eq h.roots_eq h.areTemplates)
  have hplanted : Planted (f.declared.foldl (fun f p => f.lowerState p.1 p.2) f)
      (bindState f.nodes.size ts) :=
    ⟨hlowered, (roots_bindState _ ts).trans (h.roots_eq.trans htemplates.symm),
      areTemplates_bindState h.areTemplates _⟩
  refine ⟨hplanted, ?_⟩
  rw [hplanted.heldExprs_eq, exprs_bindState h.holds.labelled, ← h.heldExprs_eq]

/-- After the state became bindings the file is a forest, with one place for each expression. -/
theorem rooted_lowerStates (h : f.Rooted) :
    Rooted (f.declared.foldl (fun f p => f.lowerState p.1 p.2) f) := by
  obtain ⟨ts, hts, hexprs⟩ := h
  obtain ⟨hplanted, hheld⟩ := hts.lowerStates
  exact ⟨_, hplanted, hheld ▸ hexprs⟩

end TemplateFile

end TemplateFrontend
