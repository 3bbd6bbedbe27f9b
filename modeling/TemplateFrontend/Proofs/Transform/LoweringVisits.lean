import TemplateFrontend.Proofs.Transform.LoweredLists
/-!
# The visits of the lowering

Lowering visits the reachable nodes in the order they had before the first visit. A tag that was written
out is visited, too: its values, whose nodes stand in the list of the tag by then, are edited once more.
What is left of a list is `Forest.LowersTo`:

* `TagPieces.change` — the pieces of a tag, once what is below its values is known;
* `TemplateFile.Lowers` — what the visits of the nodes of a list lead to;
* `TemplateFile.visit_other`, `TemplateFile.visit_tag` — the visits of one node and of everything below
  it;
* `TemplateFile.visit_lowered` — the visits of the nodes of a list.
-/

namespace TemplateFrontend

open Forest

/-! ### Pieces of a tag -/

section TagPieces

variable {n : NodeId} {closed : Bool} {text : String} {as : List Attribute}
  {inner inner' : List (List Piece)} {ps : List Piece}

/-- **A tag whose values changed below their nodes.** Its texts stay. -/
theorem TagPieces.change (h : TagPieces n closed text as inner ps)
    (hshape : List.Forall₂ (fun v w => v.map Piece.shape = w.map Piece.shape) inner inner') :
    ∃ qs, TagPieces n closed text as inner' qs ∧ ps.map Piece.shape = qs.map Piece.shape ∧
      ∀ q ∈ qs, (∃ i s, n ≤ i ∧ q = .text i s "" ∧ q ∈ ps) ∨
        ∃ w ∈ inner', q ∈ Piece.echoAfter false w := by
  induction as generalizing text inner inner' ps with
  | nil =>
    obtain ⟨i, hi, rfl⟩ := h
    refine ⟨_, ⟨i, hi, rfl⟩, rfl, fun q hq => Or.inl ?_⟩
    exact ⟨i, text ++ tagEnd closed, hi, List.mem_singleton.mp hq, hq⟩
  | cons a as ih =>
    obtain ⟨name, value, span⟩ := a
    cases value with
    -- an attribute without a value has no list to change
    | none => exact ih h hshape
    | some old =>
      cases hshape with
      | nil => exact ih h .nil
      | cons hv hrest =>
        obtain ⟨i, qs, hi, hqs, rfl⟩ := h
        -- the text in front of the value stays, the value is the new one
        obtain ⟨qs', hqs', hshape', hmem⟩ := ih hqs hrest
        refine ⟨_, ⟨i, qs', hi, hqs', rfl⟩, ?_, fun q hq => ?_⟩
        · rw [List.map_cons, List.map_append, Piece.shape_echoAfter, hv, hshape',
            ← Piece.shape_echoAfter false, ← List.map_append, ← List.map_cons]
        · rcases List.mem_cons.mp hq with rfl | hq
          · exact Or.inl ⟨i, _, hi, rfl, List.mem_cons_self⟩
          · rcases List.mem_append.mp hq with hq | hq
            · exact Or.inr ⟨_, List.mem_cons_self, hq⟩
            · refine (hmem q hq).imp (fun ⟨j, s, hj, he, hm⟩ => ⟨j, s, hj, he, ?_⟩)
                fun ⟨w, hw, hqw⟩ => ⟨w, List.mem_cons_of_mem _ hw, hqw⟩
              exact List.mem_cons_of_mem _ (List.mem_append_right _ hm)

/-- The values stand where the tag stood. -/
theorem TagPieces.standing {f : TemplateFile} {after : Bool}
    (h : TagPieces n closed text as inner ps)
    (hlen : inner.length = (as.filterMap (·.value)).length) (hst : f.Standing after ps) :
    ∀ v ∈ inner, f.Standing false v := by
  induction as generalizing text inner ps after with
  | nil =>
    obtain rfl : inner = [] := List.length_eq_zero_iff.mp hlen
    exact fun _ hv => absurd hv List.not_mem_nil
  | cons a as ih =>
    obtain ⟨name, value, span⟩ := a
    cases value with
    -- no value is led into by this attribute
    | none => exact ih h hlen hst
    | some old =>
      cases inner with
      | nil => exact fun _ hv => absurd hv List.not_mem_nil
      | cons v inner =>
        obtain ⟨i, qs, -, hqs, rfl⟩ := h
        -- behind the text that leads into a value its own pieces stand
        obtain ⟨-, hrest⟩ := hst
        obtain ⟨after', hst'⟩ := hrest.right
        refine List.forall_mem_cons.mpr ⟨?_, ih hqs (by simpa using hlen) hst'⟩
        exact (TemplateFile.standing_echoAfter.mp hrest.left).start

end TagPieces

namespace Forest

variable {n : NodeId} {id : NodeId} {k : NodeKind} {bs : List Forest} {t : NodeTree} {ts : Forest}
  {ps qs : List Piece}

/-- A list of one node lowers to the pieces of that node. -/
theorem lowersTo_singleton : LowersTo n [.node id k bs] ps ↔
    ∃ inner, List.Forall₂ (LowersTo n) bs inner ∧ k.LowersTo n id inner ps := by
  rw [lowersTo_cons]
  constructor
  · rintro ⟨inner, p, q, hinner, hp, hq, rfl⟩
    obtain rfl := lowersTo_nil.mp hq
    exact ⟨inner, hinner, (List.append_nil p).symm ▸ hp⟩
  · rintro ⟨inner, hinner, hp⟩
    exact ⟨inner, ps, [], hinner, hp, lowersTo_nil.mpr rfl, (List.append_nil ps).symm⟩

/-- A node in front adds its pieces in front. -/
theorem LowersTo.cons (h : LowersTo n [t] ps) (hts : LowersTo n ts qs) :
    LowersTo n (t :: ts) (ps ++ qs) := by
  obtain ⟨id, k, bs⟩ := t
  obtain ⟨inner, hinner, hp⟩ := lowersTo_singleton.mp h
  exact lowersTo_cons.mpr ⟨inner, ps, qs, hinner, hp, hts, rfl⟩

end Forest

namespace TemplateFile

/-! ### The visits of one node -/

/-- **From `g` to `h` the nodes of a list were visited.** Its pieces, known as `ps` before, are `qs`. -/
structure Lowers (n : NodeId) (b : Forest) (ps qs : List Piece) (g h : TemplateFile) : Prop where
  lowers : LowersTo n b qs
  shape : ps.map Piece.shape = qs.map Piece.shape
  settles : ∀ q ∈ qs, q.Settles g h
  lt_size : ∀ x ∈ qs.flatMap Piece.ids, x < h.nodes.size

/-- What the visits of the nodes of a list lead to; stated as the hypothesis of the induction. -/
def VisitsLower (f : TemplateFile) (b : Forest) : Prop :=
  ∀ g ps after, f.nodes.size ≤ g.nodes.size → g.Ready b → Outlined f.nodes.size b ps →
    (∀ x ∈ ps.map Piece.id, x < g.nodes.size) → g.Standing after ps →
    (∃ qs, Lowers f.nodes.size b ps qs g (g.visit lowerBody (ids b))) ∧
      ChangesOnly (ids b) g (g.visit lowerBody (ids b))

/-- A list that was edited and whose nodes were visited. -/
structure Finished (n : NodeId) (b : Forest) (qs : List Piece) (g : TemplateFile) : Prop where
  lowers : LowersTo n b qs
  shows_nodes : g.Shows (Piece.finishAfter false qs)
  lt_size : ∀ x ∈ ids (Piece.finishAfter false qs), x < g.nodes.size

section Local

variable {n : NodeId} {b : Forest} {ps qs : List Piece} {f g g' h : TemplateFile}

/-- What was written stands as long as nothing touches the nodes of the list, and those that are new. -/
private theorem Written.congr (hw : Written n b ps g) {m : Nat}
    (hmem : ∀ x ∈ ps.map Piece.id, x ∈ ids b ∨ m ≤ x)
    (hkind : ∀ x, x ∈ ids b ∨ m ≤ x → x < g.nodes.size → g'.kind x = g.kind x)
    (hsize : g.nodes.size ≤ g'.nodes.size) : Written n b ps g' := by
  obtain ⟨g₀, hown, hjoin⟩ := hw.joined
  refine ⟨hw.outlined, ⟨g₀, hown, hjoin.congr fun p hp => ?_⟩, ?_, fun x hx => ?_, fun x hx => ?_⟩
  · have hid : p.id ∈ ps.map Piece.id := List.mem_map_of_mem hp
    exact hkind p.id (hmem p.id hid) (hw.lt_size p.id hid)
  · exact hw.ready.congr fun x hx => hkind x (Or.inl hx) (hw.ids_lt x hx)
  · exact Nat.lt_of_lt_of_le (hw.ids_lt x hx) hsize
  · exact Nat.lt_of_lt_of_le (hw.lt_size x hx) hsize

/-- So it is with a list that is finished. -/
private theorem Finished.congr (hf : Finished n b qs g)
    (hkind : ∀ x, x ∈ ids b ∨ n ≤ x → x < g.nodes.size → g'.kind x = g.kind x)
    (hsize : g.nodes.size ≤ g'.nodes.size) : Finished n b qs g' := by
  refine ⟨hf.lowers, hf.shows_nodes.congr fun x hx => ?_, fun x hx => ?_⟩
  · exact hkind x (hf.lowers.mem_ids ((Piece.ids_finishAfter false qs).subset hx)) (hf.lt_size x hx)
  · exact Nat.lt_of_lt_of_le (hf.lt_size x hx) hsize

/-- The first edit of a list and the visits of its nodes leave what the list lowers to. -/
private theorem VisitsLower.finished (hv : VisitsLower f b) (hsize : f.nodes.size ≤ g.nodes.size)
    (hw : Written f.nodes.size b ps g) :
    (∃ qs, Finished f.nodes.size b qs (g.visit lowerBody (ids b)) ∧
        roots (Piece.finishAfter false ps) = roots (Piece.finishAfter false qs)) ∧
      ChangesOnly (ids b) g (g.visit lowerBody (ids b)) := by
  obtain ⟨g₀, hown, hjoin⟩ := hw.joined
  have hst : g₀.Standing false ps := standing_of_own hown.texts hown.others
  obtain ⟨⟨qs, hqs⟩, hchange⟩ := hv g ps false hsize hw.ready hw.outlined hw.lt_size
    (hjoin.standing hst)
  refine ⟨⟨qs, ⟨hqs.lowers, ?_, fun x hx => ?_⟩, Piece.roots_finishAfter_of_shape hqs.shape⟩, hchange⟩
  · have hown' : g₀.ShowsOwn qs := hown.of_shape hqs.shape
    exact Piece.shows_finishAfter hown'.texts (hjoin.of_shape hqs.shape) hqs.settles
  · exact hqs.lt_size x ((Piece.ids_finishAfter false qs).subset hx)

end Local

section Node

variable {f g : TemplateFile} {id : NodeId} {k : NodeKind} {bs : List Forest} {ts : Forest}

/-- A node that is a text or a closing tag: it has one piece, a text, and is not visited again. -/
private theorem lowers_leaf (hf : f.Holds (.node id k bs :: ts)) {i : NodeId} {s : String}
    (hk : k.bodies = []) (hpiece : k.LowersTo f.nodes.size id [] [.text i s ""])
    (hlt : i < g.nodes.size) (htext : ∃ u, g.kind i = .text u) :
    Lowers f.nodes.size [.node id k bs] [.text i s ""] [.text i s ""] g g := by
  obtain rfl := hf.bodies_eq_nil hk
  refine ⟨lowersTo_singleton.mpr ⟨[], .nil, hpiece⟩, rfl, fun q hq => ?_, fun x hx => ?_⟩
  · obtain rfl := List.mem_singleton.mp hq
    obtain ⟨u, hu⟩ := htext
    exact ⟨u, hu, by rw [String.append_empty]; exact hu⟩
  · obtain rfl : x = i := by simpa using hx
    exact hlt

/-- The lists of a node that stays in its list are each edited for the first time. -/
private theorem editsApart_other (hf : f.Holds (.node id k bs :: ts)) (hsize : f.nodes.size ≤ g.nodes.size)
    (hk : g.kind id = k) (hshows : ∀ b ∈ bs, g.Shows b) :
    EditsApart lowerBody g id bs fun b h out =>
      ∃ ps, Written f.nodes.size b ps h ∧ out = roots (Piece.finishAfter false ps) ∧
        ∀ x ∈ ps.map Piece.id, x ∈ ids b ∨ g.nodes.size ≤ x where
  bodies_eq := by rw [hk, hf.bodies_eq]
  nodup := List.nodup_cons.mpr ⟨hf.root_notMem_inside, hf.nodup_inside⟩
  lt := fun x hx => Nat.lt_of_lt_of_le (hf.lt_size_head x hx) hsize
  edit := by
    intro b hb S g' hS hdisj
    -- the bodies lie below the nodes that are new by now
    have hltb : ∀ x ∈ ids b, x < g.nodes.size := fun x hx =>
      Nat.lt_of_lt_of_le ((hf.body hb).lt_size x hx) hsize
    -- no body that was done before has touched this one
    obtain ⟨ps, hw, hmem, hlist, hch⟩ := lowerBody_spec (hf.body hb)
      (Nat.le_trans hsize hS.size_le) (hS.shows (hshows b hb) hltb hdisj)
    exact ⟨⟨ps, hw, hlist, fun x hx => (hmem x hx).imp_right (Nat.le_trans hS.size_le)⟩, hch⟩
  keep := fun b hb out => LocalTo.of_kinds_new fun h h' ⟨ps, hw, hout, hmem⟩ hkinds hle =>
    ⟨ps, hw.congr hmem hkinds hle, hout, hmem⟩

/-- **A node that stays in its list**, and everything below it. -/
private theorem visit_other (hf : f.Holds (.node id k bs :: ts)) (hsize : f.nodes.size ≤ g.nodes.size)
    (hk : g.kind id = k) (hshows : ∀ b ∈ bs, g.Shows b)
    (hpieces : ∀ inner ps, k.LowersTo f.nodes.size id inner ps ↔
      ps = [.other (.node id (k.withBodies ((inner.map (Piece.finishAfter false)).map roots))
        (inner.map (Piece.finishAfter false))) (inner.any (Piece.repeatsAfter false))])
    {ps : List Piece} (hps : k.LowersTo f.nodes.size id (bs.map own) ps)
    (ih : ∀ b ∈ bs, VisitsLower f b) :
    (∃ qs, Lowers f.nodes.size [.node id k bs] ps qs g
        ((g.editNode lowerBody id).visit lowerBody (bs.flatMap ids))) ∧
      ChangesOnly (id :: bs.flatMap ids) g
        ((g.editNode lowerBody id).visit lowerBody (bs.flatMap ids)) := by
  -- the lists inside it are edited
  obtain ⟨outs, hkind, houts, hchange⟩ := editNode_spec (editsApart_other hf hsize hk hshows)
  obtain ⟨g₁, hg₁⟩ : ∃ g₁, g₁ = g.editNode lowerBody id := ⟨_, rfl⟩
  rw [← hg₁] at hkind houts hchange ⊢
  have hsize₁ : f.nodes.size ≤ g₁.nodes.size := Nat.le_trans hsize hchange.size_le
  have hltf : ∀ x ∈ bs.flatMap ids, x < f.nodes.size := fun x hx => by
    refine hf.lt_size x ?_
    rw [ids_cons]
    exact List.mem_cons_of_mem _ (List.mem_append_left _ hx)
  -- and its nodes are visited
  obtain ⟨hdone, hchange₂⟩ := visit_bodies_forall₂ (n := f.nodes.size) lowerBody g₁
    (fun b out h => ∃ ps, Written f.nodes.size b ps h ∧ out = roots (Piece.finishAfter false ps))
    (fun b out h => ∃ qs, Finished f.nodes.size b qs h ∧ out = roots (Piece.finishAfter false qs))
    hf.nodup_inside hltf hsize₁
    (houts.imp fun b out ⟨ps, hw, hout, _⟩ => ⟨ps, hw, hout⟩)
    (fun b hb out h ⟨ps, hw, hout⟩ hh => by
      obtain ⟨⟨qs, hqs, hroots⟩, hch⟩ := (ih b hb).finished hh hw
      exact ⟨⟨qs, hqs, hout.trans hroots⟩, hch⟩)
    (fun b hb out => LocalTo.of_kinds_new fun h h' ⟨ps, hw, hout⟩ hkinds hle =>
      ⟨ps, hw.congr hw.outlined.mem_ids hkinds hle, hout⟩)
    (fun b hb out => LocalTo.of_kinds_new fun h h' ⟨qs, hqs, hout⟩ hkinds hle =>
      ⟨qs, hqs.congr hkinds hle, hout⟩)
  -- what they came to is one list of pieces for each
  obtain ⟨inner, hinner, rfl⟩ := exists_map_of_forall₂ hdone
  have hfinished : ∀ v ∈ inner, ∃ b ∈ bs, Finished f.nodes.size b v _ := fun v hv =>
    exists_of_mem_forall₂ hinner hv
  refine ⟨⟨[.other (.node id (k.withBodies ((inner.map (Piece.finishAfter false)).map roots))
      (inner.map (Piece.finishAfter false))) (inner.any (Piece.repeatsAfter false))],
    ?_, ?_, fun q hq => ?_, fun x hx => ?_⟩, (hchange.trans hchange₂).mono ?_⟩
  -- in turn: the piece is what the node becomes, has its shape, settles, and has numbers of the table only
  · exact lowersTo_singleton.mpr
      ⟨inner, hinner.imp fun b v hv => hv.lowers, (hpieces inner _).mpr rfl⟩
  · rw [(hpieces _ ps).mp hps]
    rfl
  · obtain rfl := List.mem_singleton.mp hq
    refine shows_cons.mpr ⟨?_, fun c hc => ?_, shows_nil⟩
    · rw [hchange₂.kind_eq id (Nat.lt_of_lt_of_le hf.root_lt hsize₁) hf.root_notMem_inside, hkind,
        hk, List.map_map]
      rfl
    · obtain ⟨v, hv, rfl⟩ := List.mem_map.mp hc
      obtain ⟨b, -, hb⟩ := hfinished v hv
      exact hb.shows_nodes
  · rw [List.flatMap_singleton, Piece.ids_other, ids_singleton, List.flatMap_map] at hx
    rcases List.mem_cons.mp hx with rfl | hx
    · exact Nat.lt_of_lt_of_le hf.root_lt (Nat.le_trans hsize₁ hchange₂.size_le)
    · obtain ⟨v, hv, hxv⟩ := List.mem_flatMap.mp hx
      obtain ⟨b, -, hb⟩ := hfinished v hv
      exact hb.lt_size x hxv
  · intro x hx
    rcases List.mem_append.mp hx with hx | hx
    · exact hx
    · exact List.mem_cons_of_mem _ hx

/-- A value of a tag that was written out, after the edit of the value. -/
private theorem VisitsLower.echo {g₀ : TemplateFile} {b : Forest} (hv : VisitsLower f b)
    (hf : f.Holds b) (hfit : FitsValue b) (hsize : f.nodes.size ≤ g.nodes.size)
    (hst : g₀.Standing false (own b)) (hjoin : g₀.Joined g false (own b)) (hready : g.Ready b) :
    (∃ qs, Lowers f.nodes.size b (own b) qs g (g.visit lowerBody (ids b)) ∧
        ∀ q ∈ Piece.echoAfter false qs, q.Settles g₀ (g.visit lowerBody (ids b))) ∧
      ChangesOnly (ids b) g (g.visit lowerBody (ids b)) := by
  obtain ⟨ps, hps, hshape⟩ := exists_outlined_own f.nodes.size hfit
  have hids : ∀ x ∈ ps.map Piece.id, x < g.nodes.size := by
    intro x hx
    rw [Piece.map_id_of_shape hshape, map_id_own] at hx
    exact Nat.lt_of_lt_of_le (hf.lt_size x (roots_subset_ids b hx)) hsize
  obtain ⟨⟨qs, hqs⟩, hchange⟩ := hv g ps false hsize hready hps hids
    ((hjoin.standing hst).of_shape hshape.symm)
  have hown : (own b).map Piece.shape = qs.map Piece.shape := hshape.symm.trans hqs.shape
  refine ⟨⟨qs, ⟨hqs.lowers, hown, hqs.settles, hqs.lt_size⟩, ?_⟩, hchange⟩
  exact Piece.settles_echoAfter (hst.of_shape hown) (hjoin.of_shape hown) hqs.settles

/-- The numbers of the pieces that the nodes of a list are. -/
private theorem mem_ids_of_own {b : Forest} {p : Piece} (hp : p ∈ own b) : p.id ∈ ids b := by
  refine roots_subset_ids b ?_
  rw [← map_id_own]
  exact List.mem_map_of_mem hp

/-- The values of an open tag are edited once more. -/
private theorem editsApart_tag {name : String} {as : List Attribute} {closed : Bool}
    (hf : f.Holds (.node id (.openTag name as closed) bs :: ts)) (hfit : ∀ b ∈ bs, FitsValue b)
    (hsize : f.nodes.size ≤ g.nodes.size) (hready : g.Ready (.node id (.openTag name as closed) bs :: ts))
    (hvalue : ∀ b ∈ bs, g.Standing false (own b)) :
    EditsApart lowerBody g id bs fun b h _ => g.Joined h false (own b) ∧ h.Ready b where
  bodies_eq := by rw [hready.head fun s => by simp, hf.bodies_eq]
  nodup := List.nodup_cons.mpr ⟨hf.root_notMem_inside, hf.nodup_inside⟩
  lt := fun x hx => Nat.lt_of_lt_of_le (hf.lt_size_head x hx) hsize
  edit := by
    intro b hb S g' hS hdisj
    -- values that were done before have not touched this one
    have hkinds : ∀ x ∈ ids b, g'.kind x = g.kind x := fun x hx =>
      hS.kind_eq x (Nat.lt_of_lt_of_le ((hf.body hb).lt_size x hx) hsize) fun hxS => hdisj hxS hx
    obtain ⟨hjoin, hready', hch⟩ := lowerBody_value (hf.body hb) (Nat.le_trans hsize hS.size_le)
      (hfit b hb) ((hready.value hf hb (hfit b hb)).congr hkinds)
      ((hvalue b hb).congr fun p hp => hkinds p.id (mem_ids_of_own hp))
    exact ⟨⟨hjoin.congr_left fun p hp => (hkinds p.id (mem_ids_of_own hp)).symm, hready'⟩, hch⟩
  keep := fun b hb out => LocalTo.of_kinds
    (fun x hx => Nat.lt_of_lt_of_le ((hf.body hb).lt_size x hx) hsize) fun h h' ⟨hjoin, hr⟩ hkinds _ =>
      ⟨hjoin.congr fun p hp => hkinds p.id (mem_ids_of_own hp), hr.congr hkinds⟩

/-- **An open tag**, and everything below it. -/
private theorem visit_tag {name : String} {as : List Attribute} {closed : Bool}
    (hf : f.Holds (.node id (.openTag name as closed) bs :: ts))
    (hfit : ∀ b ∈ bs, FitsValue b) (hsize : f.nodes.size ≤ g.nodes.size)
    (hready : g.Ready (.node id (.openTag name as closed) bs :: ts)) {ps : List Piece}
    {after : Bool} (hps : TagPieces f.nodes.size closed ("<" ++ name) as (bs.map own) ps)
    (hlt : ∀ x ∈ ps.map Piece.id, x < g.nodes.size) (hst : g.Standing after ps)
    (ih : ∀ b ∈ bs, VisitsLower f b) :
    (∃ qs, Lowers f.nodes.size [.node id (.openTag name as closed) bs] ps qs g
        ((g.editNode lowerBody id).visit lowerBody (bs.flatMap ids))) ∧
      ChangesOnly (id :: bs.flatMap ids) g
        ((g.editNode lowerBody id).visit lowerBody (bs.flatMap ids)) := by
  have hltf := hf.lt_size_head
  have hlen : (bs.map own).length = (as.filterMap (·.value)).length := by
    have hcount := congrArg List.length hf.bodies_eq
    rw [List.length_map] at hcount ⊢
    exact hcount.symm
  have hvalue : ∀ b ∈ bs, g.Standing false (own b) := fun b hb =>
    hps.standing hlen hst (own b) (List.mem_map_of_mem hb)
  -- its values are edited once more, in place
  obtain ⟨outs, -, houts, hchange⟩ := editNode_spec (editsApart_tag hf hfit hsize hready hvalue)
  obtain ⟨g₁, hg₁⟩ : ∃ g₁, g₁ = g.editNode lowerBody id := ⟨_, rfl⟩
  rw [← hg₁] at houts hchange ⊢
  have hsize₁ : f.nodes.size ≤ g₁.nodes.size := Nat.le_trans hsize hchange.size_le
  -- and their nodes are visited
  obtain ⟨hdone, hchange₂⟩ := visit_bodies (n := f.nodes.size) lowerBody g₁ bs
    (fun b h => g.Joined h false (own b) ∧ h.Ready b)
    (fun b h => ∃ qs, LowersTo f.nodes.size b qs ∧ (own b).map Piece.shape = qs.map Piece.shape ∧
      (∀ q ∈ Piece.echoAfter false qs, q.Settles g h) ∧ ∀ x ∈ qs.flatMap Piece.ids, x < h.nodes.size)
    hf.nodup_inside (fun x hx => hltf x (List.mem_cons_of_mem _ hx)) hsize₁
    (fun b hb => (exists_of_forall₂ houts b hb).choose_spec)
    (fun b hb h ⟨hjoin, hr⟩ hh => by
      obtain ⟨⟨qs, hqs, hecho⟩, hch⟩ := (ih b hb).echo (hf.body hb) (hfit b hb) hh (hvalue b hb) hjoin hr
      exact ⟨⟨qs, hqs.lowers, hqs.shape, hecho, hqs.lt_size⟩, hch⟩)
    (fun b hb => LocalTo.of_kinds (hf.body hb).lt_size fun h h' ⟨hjoin, hr⟩ hkinds _ =>
      ⟨hjoin.congr fun p hp => hkinds p.id (mem_ids_of_own hp), hr.congr hkinds⟩)
    (fun b hb => LocalTo.of_kinds_new fun h h' ⟨qs, hqs, hshape, hecho, hltq⟩ hkinds hle => by
      refine ⟨qs, hqs, hshape, fun q hq => ?_, fun x hx => Nat.lt_of_lt_of_le (hltq x hx) hle⟩
      refine (hecho q hq).congr rfl fun x hx => ?_
      have hxq : x ∈ qs.flatMap Piece.ids := by
        rw [← Piece.flatMap_ids_echoAfter false]
        exact List.mem_flatMap.mpr ⟨q, hq, hx⟩
      exact hkinds x (hqs.mem_ids hxq) (hltq x hxq))
  obtain ⟨inner, hinner⟩ := exists_forall₂ hdone
  have hchanges : ChangesOnly (id :: bs.flatMap ids) g _ :=
    (hchange.trans hchange₂).mono fun x hx => by
      rcases List.mem_append.mp hx with hx | hx
      · exact hx
      · exact List.mem_cons_of_mem _ hx
  refine ⟨?_, hchanges⟩
  -- the texts of the tag stay as they are
  have hshapes : List.Forall₂ (fun v w => v.map Piece.shape = w.map Piece.shape) (bs.map own) inner :=
    List.forall₂_map_left_iff.mpr (hinner.imp fun b v hv => hv.2.1)
  obtain ⟨qs, hqs, hshape, hmem⟩ := hps.change hshapes
  -- every piece is a text of the tag itself, or one of a value
  refine ⟨qs, lowersTo_singleton.mpr ⟨inner, hinner.imp fun b v hv => hv.1, hqs⟩, hshape,
    fun q hq => ?_, fun x hx => ?_⟩
  · rcases hmem q hq with ⟨i, s, hi, rfl, hip⟩ | ⟨v, hv, hqv⟩
    · obtain ⟨u, hu⟩ := hst.kind_text hip
      refine ⟨u, hu, ?_⟩
      rw [String.append_empty, hchanges.kind_eq i (hlt i (List.mem_map_of_mem hip)) fun hm =>
        Nat.not_lt.mpr hi (hltf i hm), hu]
    · obtain ⟨b, -, hb⟩ := exists_of_mem_forall₂ hinner hv
      exact hb.2.2.1 q hqv
  -- both kinds of pieces are in the table
  · obtain ⟨q, hq, hxq⟩ := List.mem_flatMap.mp hx
    rcases hmem q hq with ⟨i, s, -, rfl, hip⟩ | ⟨v, hv, hqv⟩
    · obtain rfl := List.mem_singleton.mp hxq
      exact Nat.lt_of_lt_of_le (hlt x (List.mem_map_of_mem hip)) hchanges.size_le
    · obtain ⟨b, -, hb⟩ := exists_of_mem_forall₂ hinner hv
      refine hb.2.2.2 x ?_
      rw [← Piece.flatMap_ids_echoAfter false]
      exact List.mem_flatMap.mpr ⟨q, hqv, hxq⟩

/-- One node, whatever it is, and everything below it. -/
private theorem visit_node (hf : f.Holds (.node id k bs :: ts))
    (hfit : ∀ name as closed, k = .openTag name as closed → ∀ b ∈ bs, FitsValue b)
    (hsize : f.nodes.size ≤ g.nodes.size) (hready : g.Ready (.node id k bs :: ts))
    {ps : List Piece} {after : Bool} (hps : k.LowersTo f.nodes.size id (bs.map own) ps)
    (hlt : ∀ x ∈ ps.map Piece.id, x < g.nodes.size) (hst : g.Standing after ps)
    (ih : ∀ b ∈ bs, VisitsLower f b) :
    (∃ qs, Lowers f.nodes.size [.node id k bs] ps qs g
        ((g.editNode lowerBody id).visit lowerBody (bs.flatMap ids))) ∧
      ChangesOnly (id :: bs.flatMap ids) g
        ((g.editNode lowerBody id).visit lowerBody (bs.flatMap ids)) := by
  have hroot : id < g.nodes.size := Nat.lt_of_lt_of_le hf.root_lt hsize
  cases k with
  | text s =>
    obtain rfl : ps = [.text id s ""] := hps
    obtain rfl := hf.bodies_eq_nil rfl
    obtain ⟨u, hu⟩ := hready.head_text
    -- a text has nothing inside that could be edited
    rw [editNode_of_leaf (by rw [hu]; rfl)]
    exact ⟨⟨_, lowers_leaf hf rfl rfl hroot ⟨u, hu⟩⟩, ChangesOnly.refl _ _⟩
  -- a closing tag is a text already
  | closeTag name =>
    obtain ⟨i, hi, rfl⟩ := hps
    obtain rfl := hf.bodies_eq_nil rfl
    rw [editNode_of_leaf (by rw [hready.head fun s => by simp]; rfl)]
    refine ⟨⟨_, lowers_leaf hf rfl ⟨i, hi, rfl⟩ ?_ (hst.kind_text List.mem_cons_self)⟩,
      ChangesOnly.refl _ _⟩
    exact hlt i List.mem_cons_self
  | openTag name as closed =>
    exact visit_tag hf (hfit name as closed rfl) hsize hready hps hlt hst ih
  | _ =>
    refine visit_other hf hsize (hready.head fun s => by simp) (fun b hb => ?_)
      (fun inner ps => Iff.rfl) hps ih
    exact hready.body hf (fun name as closed => by simp) hb

/-- **The visits of the nodes of a list.** -/
theorem visit_lowered (hf : f.Holds ts) (hfit : ValuesFit ts) : VisitsLower f ts := by
  induction ts using Forest.induct with
  | nil =>
    intro g ps after _ _ hps _ _
    obtain rfl : ps = [] := hps
    exact ⟨⟨[], lowersTo_nil.mpr rfl, rfl, fun _ hq => absurd hq List.not_mem_nil,
      fun _ hx => absurd hx List.not_mem_nil⟩, ChangesOnly.refl _ _⟩
  | cons id k bs ts ihb iht =>
    intro g ps after hsize hready hps hlt hst
    obtain ⟨p, q, hp, hq, rfl⟩ := hps
    obtain ⟨hfitk, hfitb, hfitts⟩ := valuesFit_cons.mp hfit
    rw [List.map_append] at hlt
    have hids : ids (.node id k bs :: ts) = (id :: bs.flatMap ids) ++ ids ts := by
      rw [ids_cons, List.cons_append]
    -- the node itself
    obtain ⟨⟨ps', hps'⟩, hchange⟩ := visit_node hf hfitk hsize hready hp
      (fun x hx => hlt x (List.mem_append_left _ hx)) hst.left
      fun b hb => ihb b hb (hf.body hb) (hfitb b hb)
    obtain ⟨g₁, hg₁⟩ : ∃ g₁,
        g₁ = (g.editNode lowerBody id).visit lowerBody (bs.flatMap ids) := ⟨_, rfl⟩
    rw [← hg₁] at hps' hchange
    -- the rest of the list is as it was, and so are its pieces
    have hdisj : (id :: bs.flatMap ids).Disjoint (ids ts) := by
      have hn := hf.nodup
      rw [hids, List.nodup_append'] at hn
      exact hn.2.2
    have hhead := hf.lt_size_head
    have hsame : ∀ x, x ∈ ids ts ∨ f.nodes.size ≤ x → x < g.nodes.size → g₁.kind x = g.kind x := by
      intro x hx hxg
      refine hchange.kind_eq x hxg fun hm => ?_
      rcases hx with hx | hx
      · exact hdisj hm hx
      · exact Nat.not_lt.mpr hx (hhead x hm)
    have hltq : ∀ x ∈ q.map Piece.id, x < g.nodes.size := fun x hx =>
      hlt x (List.mem_append_right _ hx)
    have hsameq : ∀ x ∈ q.map Piece.id, g₁.kind x = g.kind x := fun x hx =>
      hsame x (hq.mem_ids x hx) (hltq x hx)
    obtain ⟨after', hst'⟩ := hst.right
    -- the rest is visited next
    obtain ⟨⟨qs', hqs'⟩, hchange'⟩ := iht hf.tail hfitts g₁ q after'
      (Nat.le_trans hsize hchange.size_le)
      ((hready.tail hf).congr fun x hx =>
        hsame x (Or.inl hx) (Nat.lt_of_lt_of_le (hf.tail.lt_size x hx) hsize))
      hq (fun x hx => Nat.lt_of_lt_of_le (hltq x hx) hchange.size_le)
      (hst'.congr fun r hr => hsameq r.id (List.mem_map_of_mem hr))
    -- the two visits one after the other
    rw [hids, visit_append, visit_cons, ← hg₁]
    refine ⟨⟨ps' ++ qs', hps'.lowers.cons hqs'.lowers, ?_, fun r hr => ?_, fun x hx => ?_⟩,
      hchange.trans hchange'⟩
    · rw [List.map_append, List.map_append, hps'.shape, hqs'.shape]
    · rcases List.mem_append.mp hr with hr | hr
      -- those visits do not touch the pieces of the node, nor those of the node theirs
      · refine (hps'.settles r hr).congr rfl fun x hx => ?_
        have hxp : x ∈ ps'.flatMap Piece.ids := List.mem_flatMap.mpr ⟨r, hr, hx⟩
        refine hchange'.kind_eq x (hps'.lt_size x hxp) fun hxt => ?_
        rcases hps'.lowers.mem_ids hxp with hxh | hle
        · rw [ids_singleton] at hxh
          exact hdisj hxh hxt
        · exact Nat.not_lt.mpr hle (hf.tail.lt_size x hxt)
      · refine (hqs'.settles r hr).congr (hsameq r.id ?_).symm fun _ _ => rfl
        rw [Piece.map_id_of_shape hqs'.shape]
        exact List.mem_map_of_mem hr
    · rw [List.flatMap_append] at hx
      rcases List.mem_append.mp hx with hx | hx
      · exact Nat.lt_of_lt_of_le (hps'.lt_size x hx) hchange'.size_le
      · exact hqs'.lt_size x hx

end Node

end TemplateFile

end TemplateFrontend
