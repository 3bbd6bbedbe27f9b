import TemplateFrontend.Proofs.Transform.Simplified
import TemplateFrontend.Proofs.Tree.Mapping
/-!
# The visits of the simplification

`TemplateFile.optimize` visits the reachable nodes in the order they had before the first visit. A
list that took the place of its node is therefore visited again, after the list around it; what was
dropped is visited, too. `Forest.simplify` is what remains:

* `TemplateFile.Prepared` — the state of a list between the visit of the node around it and the
  visits of its own nodes;
* `TemplateFile.simplifyBody_spec` — the edit of one list;
* `TemplateFile.visit_simplified` — the visits of the nodes of a list;
* `TemplateFile.Holds.optimize` — the file after the pass holds the simplified forest.
-/

namespace TemplateFrontend.TemplateFile

open Forest

/-- **The invariant of the visits.** Every node of the list, and of the lists that take the place of
their nodes, is as simplification leaves it, or still as it was if `fresh` is set; everything below is
as it was. Texts may have been joined. -/
inductive Prepared (fresh : Bool) (g : TemplateFile) : Forest → Prop
  | nil : Prepared fresh g []
  | text {id : NodeId} {k : NodeKind} {bs : List Forest} {ts : Forest} {s : String}
      (hv : k.verdict = .text s)
      (hk : (∃ u, g.kind id = .text u) ∨ (fresh = true ∧ g.kind id = k))
      (hts : Prepared fresh g ts) : Prepared fresh g (.node id k bs :: ts)
  | kept {id : NodeId} {k k' : NodeKind} {bs : List Forest} {ts : Forest}
      (hv : k.verdict = .kept k') (hk : g.kind id = k' ∨ (fresh = true ∧ g.kind id = k))
      (hbs : ∀ b ∈ bs, g.Shows b) (hts : Prepared fresh g ts) :
      Prepared fresh g (.node id k bs :: ts)
  | dropped {id : NodeId} {k : NodeKind} {bs : List Forest} {ts : Forest}
      (hv : k.verdict = .dropped) (hk : g.kind id = k) (hts : Prepared fresh g ts) :
      Prepared fresh g (.node id k bs :: ts)
  | spliced {id : NodeId} {k : NodeKind} {bs : List Forest} {ts : Forest}
      (hv : k.verdict = .spliced) (hk : g.kind id = k)
      (hlive : ∀ b ∈ k.live bs, Prepared fresh g b)
      (hdead : ∀ b ∈ bs, b ∉ k.live bs → g.Shows b) (hts : Prepared fresh g ts) :
      Prepared fresh g (.node id k bs :: ts)

namespace Prepared

variable {fresh : Bool} {g g' : TemplateFile} {id : NodeId} {k k' : NodeKind} {bs : List Forest}
  {ts : Forest} {s : String}

/-- What stands behind a node is prepared as well. -/
theorem tail (h : Prepared fresh g (.node id k bs :: ts)) : Prepared fresh g ts := by
  cases h <;> assumption

/-- A text of a prepared list is a text still, with what was joined to it, or as it was in a list that is
still fresh. -/
theorem of_text (h : Prepared fresh g (.node id k bs :: ts)) (hv : k.verdict = .text s) :
    (∃ u, g.kind id = .text u) ∨ (fresh = true ∧ g.kind id = k) := by
  cases h <;> simp_all

/-- Another node that is kept has its own simplified kind or, in a fresh list, still its old one; nothing in
its bodies has changed. -/
theorem of_kept (h : Prepared fresh g (.node id k bs :: ts)) (hv : k.verdict = .kept k') :
    (g.kind id = k' ∨ (fresh = true ∧ g.kind id = k)) ∧ ∀ b ∈ bs, g.Shows b := by
  cases h <;> simp_all

/-- A node that is dropped is as it was. -/
theorem of_dropped (h : Prepared fresh g (.node id k bs :: ts)) (hv : k.verdict = .dropped) :
    g.kind id = k := by
  cases h <;> simp_all

/-- A node that makes way is as it was. What takes its place is prepared, and its other bodies have not
changed. -/
theorem of_spliced (h : Prepared fresh g (.node id k bs :: ts)) (hv : k.verdict = .spliced) :
    g.kind id = k ∧ (∀ b ∈ k.live bs, Prepared fresh g b) ∧
      ∀ b ∈ bs, b ∉ k.live bs → g.Shows b := by
  cases h <;> simp_all

/-- A list that nothing was done to is prepared. -/
theorem of_shows (h : g.Shows ts) : Prepared true g ts := by
  induction ts using Forest.induct with
  | nil => exact nil
  | cons id k bs ts ihb iht =>
    obtain ⟨hk, hbs, hts⟩ := shows_cons.mp h
    -- nothing has been visited yet, so each node is as it was
    cases hv : k.verdict with
    | text s => exact text hv (Or.inr ⟨rfl, hk⟩) (iht hts)
    | kept k' => exact kept hv (Or.inr ⟨rfl, hk⟩) hbs (iht hts)
    | dropped => exact dropped hv hk (iht hts)
    | spliced =>
      refine spliced hv hk (fun b hb => ?_) (fun b hb _ => hbs b hb) (iht hts)
      have hmem := (k.live_sublist bs).subset hb
      exact ihb b hmem (hbs b hmem)

/-- Only the kinds of the nodes in the list matter for whether it is prepared. -/
theorem congr (h : Prepared fresh g ts) (hkind : ∀ x ∈ ids ts, g'.kind x = g.kind x) :
    Prepared fresh g' ts := by
  induction ts using Forest.induct with
  | nil => exact nil
  | cons id k bs ts ihb iht =>
    rw [ids_cons] at hkind
    have hid := hkind id List.mem_cons_self
    -- the kinds below the node stay as well
    have hbody : ∀ b ∈ bs, ∀ x ∈ ids b, g'.kind x = g.kind x := fun b hb x hx =>
      hkind x (List.mem_cons_of_mem _ (List.mem_append_left _ (List.mem_flatMap.mpr ⟨b, hb, hx⟩)))
    have hts := iht h.tail fun x hx =>
      hkind x (List.mem_cons_of_mem _ (List.mem_append_right _ hx))
    -- each verdict asks something of the node and of its bodies, all about kinds that stay
    cases hv : k.verdict with
    | text s => exact text hv (by rw [hid]; exact h.of_text hv) hts
    | kept k' =>
      obtain ⟨hk, hbs⟩ := h.of_kept hv
      exact kept hv (by rwa [hid]) (fun b hb => (hbs b hb).congr (hbody b hb)) hts
    | dropped => exact dropped hv (hid.trans (h.of_dropped hv)) hts
    | spliced =>
      obtain ⟨hk, hlive, hdead⟩ := h.of_spliced hv
      refine spliced hv (hid.trans hk) (fun b hb => ?_)
        (fun b hb hd => (hdead b hb hd).congr (hbody b hb)) hts
      have hmem := (k.live_sublist bs).subset hb
      exact ihb b hmem (hlive b hb) (hbody b hmem)

/-- Among the pieces of a prepared list only the texts are texts. -/
theorem other_ne_text (h : Prepared false g ts) (hlab : Labelled ts) :
    ∀ t r, Piece.other t r ∈ simplified ts → ∀ s, g.kind t.id ≠ .text s := by
  induction ts using Forest.induct with
  | nil => exact fun _ _ hm => absurd hm List.not_mem_nil
  | cons id k bs ts ihb iht =>
    obtain ⟨hkb, hlbs, hlts⟩ := labelled_cons.mp hlab
    intro t r hm s
    rw [simplified_cons, List.mem_append] at hm
    -- the piece comes from the first node, as itself or out of the list that takes its place, or from the
    -- rest
    rcases hm with hm | hm
    · obtain ⟨k', hv, rfl⟩ | hv := cases_of_other_mem hm
      · have hk := (h.of_kept hv).1.resolve_right fun hf => Bool.false_ne_true hf.1
        rw [NodeTree.id_node, hk]
        exact NodeKind.ne_text_of_kept hv s
      · have hlen : bs.length = k.bodies.length := by rw [hkb, List.length_map]
        obtain ⟨b, hb, hone, hm⟩ := exists_of_other_mem_spliced hv hlen hm
        have hb' := (h.of_spliced hv).2.1 b (hone ▸ List.mem_singleton.mpr rfl)
        exact ihb b hb hb' (hlbs b hb) t r hm s
    · exact iht h.tail hlts t r hm s

end Prepared

/-! ### The edit of one list -/

section SimplifySteps

variable {f : TemplateFile} {id : NodeId} {ids nodes : List NodeId} (fuel : Nat)

/-- A node that is kept stays in front of the outcome for the rest. -/
private theorem simplifyNodes_kept (h : (f.simplifyNode id).2 = .kept) :
    simplifyNodes (fuel + 1) f (id :: ids)
      = ((simplifyNodes fuel (f.simplifyNode id).1 ids).1,
        id :: (simplifyNodes fuel (f.simplifyNode id).1 ids).2) := by
  have hp : f.simplifyNode id = ((f.simplifyNode id).1, .kept) := by rw [← h]
  rw [simplifyNodes, hp]

/-- A node that is dropped is left out. -/
private theorem simplifyNodes_dropped (h : f.simplifyNode id = (f, .dropped)) :
    simplifyNodes (fuel + 1) f (id :: ids) = simplifyNodes fuel f ids := by
  rw [simplifyNodes, h]

/-- The nodes that take the place of a node are simplified before the rest. -/
private theorem simplifyNodes_spliced (h : f.simplifyNode id = (f, .spliced nodes)) :
    simplifyNodes (fuel + 1) f (id :: ids) = simplifyNodes fuel f (nodes ++ ids) := by
  rw [simplifyNodes, h]

end SimplifySteps

/-- The outcome of the simplification of a list, before its texts are joined. -/
structure SimplifiesTo (fresh : Bool) (g g' : TemplateFile) (ts : Forest) : Prop where
  runs : ∃ used ≤ (ids ts).length, ∀ fuel rest,
    simplifyNodes (fuel + used) g (roots ts ++ rest)
      = ((simplifyNodes fuel g' rest).1,
        (simplified ts).map Piece.id ++ (simplifyNodes fuel g' rest).2)
  prepared : Prepared false g' ts
  changes : ChangesOnly (ids ts) g g'
  /-- A list that was simplified before stays as it is. -/
  again : fresh = false → ∀ x ∈ ids ts, g'.kind x = g.kind x
  /-- In a list that nothing was done to, the texts have their own text. -/
  own : g.Shows ts → ∀ i s again, Piece.text i s again ∈ simplified ts → g'.kind i = .text s

section SimplifiesTo

variable {f g g₁ g₂ : TemplateFile} {fresh : Bool} {id : NodeId} {k : NodeKind} {bs : List Forest}
  {ts : Forest}

/-- One node and then the rest of the list. -/
private theorem SimplifiesTo.cons (hf : f.Holds (.node id k bs :: ts))
    (hsize : f.nodes.size ≤ g.nodes.size) (h₁ : SimplifiesTo fresh g g₁ [.node id k bs])
    (h₂ : SimplifiesTo fresh g₁ g₂ ts) : SimplifiesTo fresh g g₂ (.node id k bs :: ts) := by
  have hids : ids (.node id k bs :: ts) = ids [.node id k bs] ++ ids ts := by
    rw [← ids_append, List.singleton_append]
  have hhead : ∀ x ∈ ids [.node id k bs], x ∉ ids ts := by
    have hn := hf.nodup
    rw [hids, List.nodup_append'] at hn
    exact fun x hx hxt => hn.2.2 hx hxt
  have hlt : ∀ x ∈ ids (.node id k bs :: ts), x < g.nodes.size := fun x hx =>
    Nat.lt_of_lt_of_le (hf.lt_size x hx) hsize
  -- neither half changes a kind in the other, since no node stands in both
  have hkeep₁ : ∀ x ∈ ids ts, g₁.kind x = g.kind x := fun x hx =>
    h₁.changes.kind_eq x (hlt x (hids ▸ List.mem_append_right _ hx)) fun hxh => hhead x hxh hx
  have hkeep₂ : ∀ x ∈ ids [.node id k bs], g₂.kind x = g₁.kind x := fun x hx =>
    h₂.changes.kind_eq x
      (Nat.lt_of_lt_of_le (hlt x (hids ▸ List.mem_append_left _ hx)) h₁.changes.size_le) (hhead x hx)
  -- the pieces of the node come before those of the rest
  have hpieces : simplified (.node id k bs :: ts) = simplified [.node id k bs] ++ simplified ts := by
    rw [simplified_cons, simplified_singleton]
  refine ⟨?_, ?_, hids ▸ h₁.changes.trans h₂.changes, fun hfresh x hx => ?_,
    fun hshows i s again hm => ?_⟩
  -- the fuel: the first node uses its part, and the rest goes on with what is left
  · obtain ⟨used₁, hle₁, hrun₁⟩ := h₁.runs
    obtain ⟨used₂, hle₂, hrun₂⟩ := h₂.runs
    refine ⟨used₂ + used₁, ?_, fun fuel rest => ?_⟩
    · rw [hids, List.length_append]
      omega
    · have hstep := hrun₁ (fuel + used₂) (roots ts ++ rest)
      rw [← Nat.add_assoc, roots_cons, List.cons_append]
      refine hstep.trans ?_
      rw [hrun₂, hpieces, List.map_append, List.append_assoc]
  · have hp := h₁.prepared.congr hkeep₂
    cases hp with
    | text hv hk _ => exact .text hv hk h₂.prepared
    | kept hv hk hbs _ => exact .kept hv hk hbs h₂.prepared
    | dropped hv hk _ => exact .dropped hv hk h₂.prepared
    | spliced hv hk hlive hdead _ => exact .spliced hv hk hlive hdead h₂.prepared
  -- a second time nothing changes, in the one half and in the other
  · rw [hids, List.mem_append] at hx
    rcases hx with hx | hx
    · exact (hkeep₂ x hx).trans (h₁.again hfresh x hx)
    · exact (h₂.again hfresh x hx).trans (hkeep₁ x hx)
  · have hshows' := shows_cons.mp hshows
    rw [hpieces, List.mem_append] at hm
    rcases hm with hm | hm
    · have hi : i ∈ ids [.node id k bs] := (ids_simplified hf.labelled.head).subset
        (List.mem_flatMap.mpr ⟨_, hm, Piece.id_mem_ids _⟩)
      rw [hkeep₂ i hi]
      exact h₁.own (shows_cons.mpr ⟨hshows'.1, hshows'.2.1, shows_nil⟩) i s again hm
    · exact h₂.own (hshows'.2.2.congr hkeep₁) i s again hm

/-- One node that stays in its list. -/
private theorem simplifiesTo_of_stays (hf : f.Holds (.node id k bs :: ts))
    (hsize : f.nodes.size ≤ g.nodes.size) (hstays : (g.simplifyNode id).2 = .kept)
    (hpieces : (simplified [.node id k bs]).map Piece.id = [id])
    (hprep : Prepared false (g.simplifyNode id).1 [.node id k bs])
    (hagain : fresh = false → (g.simplifyNode id).1.kind id = g.kind id)
    (hown : g.kind id = k → ∀ s again, Piece.text id s again ∈ simplified [.node id k bs] →
      (g.simplifyNode id).1.kind id = .text s) :
    SimplifiesTo fresh g (g.simplifyNode id).1 [.node id k bs] := by
  have hchange := (simplifyNode_spec (Nat.lt_of_lt_of_le hf.root_lt hsize)).1
  refine ⟨⟨1, ?_, fun fuel rest => ?_⟩, hprep, hchange.mono ?_, fun hfresh x hx => ?_,
    fun hshows i s again hm => ?_⟩
  · rw [ids_singleton, List.length_cons]
    exact Nat.le_add_left 1 _
  -- one step of the edit, after which the node stands where it was
  · rw [hpieces]
    exact simplifyNodes_kept fuel hstays
  · rw [ids_singleton]
    exact fun x hx => List.mem_cons.mpr (Or.inl (List.mem_singleton.mp hx))
  -- where nothing is new, the node is not changed, and nothing inside it ever is
  · rw [ids_singleton] at hx
    rcases List.mem_cons.mp hx with rfl | hx
    · exact hagain hfresh
    · have hxlt : x < g.nodes.size := by
        refine Nat.lt_of_lt_of_le (hf.lt_size x ?_) hsize
        rw [ids_cons]
        exact List.mem_cons_of_mem _ (List.mem_append_left _ hx)
      exact hchange.kind_eq x hxlt fun he => hf.root_notMem_inside (List.mem_singleton.mp he ▸ hx)
  · have hi : i ∈ (simplified [.node id k bs]).map Piece.id := List.mem_map.mpr ⟨_, hm, rfl⟩
    rw [hpieces, List.mem_singleton] at hi
    subst hi
    exact hown (shows_cons.mp hshows).1 s again hm

/-- A text stays in its list, with its own text or with one that was joined before. -/
private theorem simplifiesTo_text {s : String} (hf : f.Holds (.node id k bs :: ts))
    (hsize : f.nodes.size ≤ g.nodes.size) (hprep : Prepared fresh g (.node id k bs :: ts))
    (hv : k.verdict = .text s) : SimplifiesTo fresh g (g.simplifyNode id).1 [.node id k bs] := by
  obtain ⟨-, hspec⟩ := simplifyNode_spec (Nat.lt_of_lt_of_le hf.root_lt hsize)
  have hp : simplified [.node id k bs] = [.text id s ""] := by
    rw [simplified_singleton, pieces_of_text hv]
  have hmem : ∀ {t again}, Piece.text id t again ∈ simplified [.node id k bs] → t = s := by
    intro t again hm
    rw [hp, List.mem_singleton] at hm
    exact (Piece.text.inj hm).2.1
  -- either an edit was here before, and left some text, or the node is as it was parsed
  rcases hprep.of_text hv with ⟨u, hu⟩ | ⟨hfresh, hk⟩
  · rw [hu, NodeKind.verdict_text] at hspec
    refine simplifiesTo_of_stays hf hsize hspec.1 (by rw [hp]; rfl)
      (.text hv (Or.inl ⟨u, hspec.2⟩) .nil) (fun _ => hspec.2.trans hu.symm) ?_
    intro hk t again hm
    -- the text of the node as it was is its own
    have hus : Verdict.text u = .text s := by
      rw [← NodeKind.verdict_text u, ← hu, hk, hv]
    rw [hspec.2, Verdict.text.inj hus, hmem hm]
  · rw [hk, hv] at hspec
    refine simplifiesTo_of_stays hf hsize hspec.1 (by rw [hp]; rfl)
      (.text hv (Or.inl ⟨s, hspec.2⟩) .nil)
      (fun hagain => absurd (hagain.symm.trans hfresh) Bool.false_ne_true) ?_
    intro _ t again hm
    rw [hspec.2, hmem hm]

/-- Any other node that is kept stays in its list, with the lists inside it as they are. -/
private theorem simplifiesTo_kept {k' : NodeKind} (hf : f.Holds (.node id k bs :: ts))
    (hsize : f.nodes.size ≤ g.nodes.size) (hprep : Prepared fresh g (.node id k bs :: ts))
    (hv : k.verdict = .kept k') : SimplifiesTo fresh g (g.simplifyNode id).1 [.node id k bs] := by
  obtain ⟨hchange, hspec⟩ := simplifyNode_spec (Nat.lt_of_lt_of_le hf.root_lt hsize)
  obtain ⟨hk, hshows⟩ := hprep.of_kept hv
  have hp := (simplified_singleton id k bs).trans (pieces_of_kept hv bs)
  -- whether simplification was here before or not, it keeps the node as `k'`
  have hverdict : (g.kind id).verdict = .kept k' := by
    rcases hk with hk | ⟨-, hk⟩
    · rw [hk]
      exact NodeKind.verdict_of_kept hv
    · rw [hk, hv]
  rw [hverdict] at hspec
  -- its lists do not hold the node itself, so they are still shown
  have hbodies : ∀ b ∈ bs, (g.simplifyNode id).1.Shows b := fun b hb =>
    (hshows b hb).congr fun x hx =>
      hchange.kind_eq x (Nat.lt_of_lt_of_le ((hf.body hb).lt_size x hx) hsize) fun he =>
        hf.root_notMem_body hb (List.mem_singleton.mp he ▸ hx)
  refine simplifiesTo_of_stays hf hsize hspec.1 (by rw [hp]; rfl)
    (.kept hv (Or.inl hspec.2) hbodies .nil) (fun hfresh => ?_) fun _ s again hm => ?_
  · rw [hspec.2]
    exact (hk.resolve_right fun h => Bool.false_ne_true (hfresh.symm.trans h.1)).symm
  · rw [hp, List.mem_singleton] at hm
    cases hm

/-- A node that leaves nothing in its list: it is dropped, or it is a command without a branch to take. -/
private theorem simplifiesTo_of_gone (hp : simplified [.node id k bs] = [])
    (hprep : Prepared false g [.node id k bs])
    (hstep : ∀ fuel rest, simplifyNodes (fuel + 1) g (id :: rest) = simplifyNodes fuel g rest) :
    SimplifiesTo fresh g g [.node id k bs] := by
  refine ⟨⟨1, ?_, fun fuel rest => ?_⟩, hprep, ChangesOnly.refl _ _, fun _ _ _ => rfl,
    fun _ i s again hm => ?_⟩
  · rw [ids_singleton, List.length_cons]
    exact Nat.le_add_left 1 _
  · rw [hp]
    exact hstep fuel rest
  · rw [hp] at hm
    exact absurd hm List.not_mem_nil

/-- A node makes way for a list inside it, which is then simplified where the node was. -/
private theorem simplifiesTo_of_spliced {g' : TemplateFile} {b : Forest}
    (hf : f.Holds (.node id k bs :: ts)) (hsize : f.nodes.size ≤ g.nodes.size)
    (hv : k.verdict = .spliced) (hk : g.kind id = k)
    (hdead : ∀ c ∈ bs, c ∉ k.live bs → g.Shows c) (hb : b ∈ bs) (hlive : k.live bs = [b])
    (hp : simplified [.node id k bs] = Piece.echoAfter false (simplified b))
    (hstep : g.simplifyNode id = (g, .spliced (roots b))) (h : SimplifiesTo fresh g g' b) :
    SimplifiesTo fresh g g' [.node id k bs] := by
  have hbody : ∀ c ∈ bs, ids c ⊆ ids [.node id k bs] := fun c hc x hx => by
    rw [ids_singleton]
    exact List.mem_cons_of_mem _ (List.mem_flatMap.mpr ⟨c, hc, hx⟩)
  -- only the nodes of the list change
  have hkeep : ∀ x ∈ ids [.node id k bs], x ∉ ids b → g'.kind x = g.kind x := by
    intro x hx hxb
    rw [ids_singleton] at hx
    exact h.changes.kind_eq x (Nat.lt_of_lt_of_le (hf.lt_size_head x hx) hsize) hxb
  refine ⟨?_, ?_, h.changes.mono (hbody b hb), fun hfresh x hx => ?_, fun hshows i s again hm => ?_⟩
  -- one unit of fuel for the node, and then what its list needs
  · obtain ⟨used, hle, hrun⟩ := h.runs
    refine ⟨used + 1, ?_, fun fuel rest => ?_⟩
    · have hlen := (sublist_flatMap ids hb).length_le
      rw [ids_singleton, List.length_cons]
      omega
    · rw [hp, Piece.map_id_echoAfter, ← hrun, ← Nat.add_assoc]
      exact simplifyNodes_spliced (fuel + used) hstep
  · have hid : id ∈ ids [.node id k bs] := by
      rw [ids_singleton]
      exact List.mem_cons_self
    refine .spliced hv ((hkeep id hid (hf.root_notMem_body hb)).trans hk) (fun c hc => ?_)
      (fun c hc hd => (hdead c hc hd).congr fun x hx => hkeep x (hbody c hc hx) ?_) .nil
    · rw [hlive, List.mem_singleton] at hc
      exact hc ▸ h.prepared
    · have hne : c ≠ b := fun he => hd (by rw [hlive, he]; exact List.mem_singleton.mpr rfl)
      exact hf.disjoint_bodies hc hb hne hx
  -- inside the list that takes the place by its own outcome, elsewhere because nothing changes there
  · by_cases hxb : x ∈ ids b
    · exact h.again hfresh x hxb
    · exact hkeep x hx hxb
  · rw [hp] at hm
    obtain ⟨again', hm'⟩ := Piece.mem_of_text_mem_echoAfter hm
    exact h.own ((shows_cons.mp hshows).2.1 b hb) i s again' hm'

/-- One node, given the outcome for the list that may take its place. -/
private theorem exists_simplifiesTo_head (hf : f.Holds (.node id k bs :: ts))
    (hsize : f.nodes.size ≤ g.nodes.size) (hprep : Prepared fresh g (.node id k bs :: ts))
    (hbodies : ∀ b ∈ bs, Prepared fresh g b → ∃ g', SimplifiesTo fresh g g' b) :
    ∃ g', SimplifiesTo fresh g g' [.node id k bs] := by
  have hspec := (simplifyNode_spec (Nat.lt_of_lt_of_le hf.root_lt hsize)).2
  have hlen : bs.length = k.bodies.length := by rw [hf.bodies_eq, List.length_map]
  cases hv : k.verdict with
  | text s => exact ⟨_, simplifiesTo_text hf hsize hprep hv⟩
  | kept k' => exact ⟨_, simplifiesTo_kept hf hsize hprep hv⟩
  | dropped =>
    have hk := hprep.of_dropped hv
    rw [hk, hv] at hspec
    -- nothing is left of the node
    have hp : simplified [.node id k bs] = [] := by
      rw [simplified_singleton, pieces_of_dropped hv]
    exact ⟨g, simplifiesTo_of_gone hp (.dropped hv hk .nil)
      fun fuel _ => simplifyNodes_dropped fuel hspec⟩
  | spliced =>
    obtain ⟨hk, hlive, hdead⟩ := hprep.of_spliced hv
    rw [hk, hv] at hspec
    dsimp only at hspec
    rw [hf.bodies_eq, k.live_map, ← roots_flatten] at hspec
    -- no branch is taken, or exactly one is
    rcases pieces_of_spliced id hv hlen with ⟨hnone, hp⟩ | ⟨b, hb, hone, hp⟩
    · rw [hnone] at hspec
      have hprep' : Prepared false g [.node id k bs] :=
        .spliced hv hk (fun c hc => absurd (hnone ▸ hc) List.not_mem_nil) hdead .nil
      exact ⟨g, simplifiesTo_of_gone ((simplified_singleton id k bs).trans hp) hprep'
        fun fuel _ => simplifyNodes_spliced fuel hspec⟩
    · rw [hone, List.flatten_cons, List.flatten_nil, List.append_nil] at hspec
      obtain ⟨g', h⟩ := hbodies b hb (hlive b (hone ▸ List.mem_singleton.mpr rfl))
      exact ⟨g', simplifiesTo_of_spliced hf hsize hv hk hdead hb hone
        ((simplified_singleton id k bs).trans hp) hspec h⟩

/-- **The simplification of a list.** -/
theorem exists_simplifiesTo (hf : f.Holds ts) (hsize : f.nodes.size ≤ g.nodes.size)
    (hprep : Prepared fresh g ts) : ∃ g', SimplifiesTo fresh g g' ts := by
  induction ts using Forest.induct generalizing g with
  | nil =>
    refine ⟨g, ⟨0, Nat.le_refl _, fun fuel rest => ?_⟩, .nil, ChangesOnly.refl _ _, fun _ _ _ => rfl,
      fun _ _ _ _ hm => absurd hm List.not_mem_nil⟩
    rfl
  | cons id k bs ts ihb iht =>
    -- the node by itself
    obtain ⟨g₁, h₁⟩ := exists_simplifiesTo_head hf hsize hprep fun b hb => ihb b hb (hf.body hb) hsize
    -- the rest of the list is as it was
    have hprep' : Prepared fresh g₁ ts := by
      refine hprep.tail.congr fun x hx => ?_
      refine h₁.changes.kind_eq x ?_ fun hxh => ?_
      · exact Nat.lt_of_lt_of_le (hf.tail.lt_size x hx) hsize
      · rw [ids_singleton] at hxh
        exact hf.disjoint_head_tail hxh hx
    obtain ⟨g₂, h₂⟩ := iht hf.tail (Nat.le_trans hsize h₁.changes.size_le) hprep'
    exact ⟨g₂, h₁.cons hf hsize h₂⟩

end SimplifiesTo

/-- Pieces of a list are nodes of it. -/
theorem mem_ids_of_piece {ts : Forest} (hlab : Labelled ts) {x : NodeId}
    (hx : x ∈ (simplified ts).map Piece.id) : x ∈ ids ts :=
  ((Piece.map_id_sublist _).trans (ids_simplified hlab)).subset hx

/-! ### Joining texts -/

section Join

variable {f g g' : TemplateFile} {id : NodeId} {k : NodeKind} {bs : List Forest} {ts : Forest}

/-- What is no piece of the first node is none of the whole list. -/
private theorem notMem_pieces_of_head (hf : f.Holds (.node id k bs :: ts)) {x : NodeId}
    (hx : x ∈ id :: bs.flatMap ids) (hxp : x ∉ (k.pieces id (bs.map simplified)).map Piece.id) :
    x ∉ (simplified (.node id k bs :: ts)).map Piece.id := by
  rw [simplified_cons, List.map_append, List.mem_append, not_or]
  exact ⟨hxp, fun hm => hf.disjoint_head_tail hx (mem_ids_of_piece hf.tail.labelled hm)⟩

/-- What is no piece of the rest is none of the whole list. -/
private theorem notMem_pieces_of_tail (hf : f.Holds (.node id k bs :: ts)) {x : NodeId}
    (hx : x ∈ ids ts) (hxp : x ∉ (simplified ts).map Piece.id) :
    x ∉ (simplified (.node id k bs :: ts)).map Piece.id := by
  rw [simplified_cons, List.map_append, List.mem_append, not_or]
  refine ⟨fun hm => ?_, hxp⟩
  -- a piece of the first node is a node of it
  have hxh : x ∈ id :: bs.flatMap ids :=
    (ids_pieces hf.labelled).subset ((Piece.map_id_sublist _).subset hm)
  exact hf.disjoint_head_tail hxh hx

/-- The case of a node that made way for a list inside it, or for nothing. -/
private theorem Prepared.join_spliced (hf : f.Holds (.node id k bs :: ts))
    (h : Prepared false g (.node id k bs :: ts)) (hv : k.verdict = .spliced)
    (hpieces : ∀ p ∈ k.pieces id (bs.map simplified), p.KeepsForm g g')
    (hrest : ∀ x ∈ id :: bs.flatMap ids, x ∉ (k.pieces id (bs.map simplified)).map Piece.id →
      g'.kind x = g.kind x)
    (ih : ∀ b ∈ bs, Prepared false g b → (∀ p ∈ simplified b, p.KeepsForm g g') →
      (∀ x ∈ ids b, x ∉ (simplified b).map Piece.id → g'.kind x = g.kind x) → Prepared false g' b)
    (hts : Prepared false g' ts) : Prepared false g' (.node id k bs :: ts) := by
  have hlen : bs.length = k.bodies.length := by rw [hf.bodies_eq, List.length_map]
  -- every node of a list is one of those that may have changed
  have hbody : ∀ b ∈ bs, ids b ⊆ id :: bs.flatMap ids := fun b hb x hx =>
    List.mem_cons_of_mem _ (List.mem_flatMap.mpr ⟨b, hb, hx⟩)
  obtain ⟨hk, hlive, hdead⟩ := h.of_spliced hv
  rcases pieces_of_spliced id hv hlen with ⟨hnone, hp⟩ | ⟨b, hb, hone, hp⟩
  · -- no list took its place, so that nothing in it is a piece
    rw [hp] at hrest
    have hall := fun x hx => hrest x hx List.not_mem_nil
    exact .spliced hv ((hall id List.mem_cons_self).trans hk)
      (fun c hc => absurd (hnone ▸ hc) List.not_mem_nil)
      (fun c hc hd => (hdead c hc hd).congr fun x hx => hall x (hbody c hc hx)) hts
  · rw [hp, Piece.map_id_echoAfter] at hrest
    have hlab := (hf.body hb).labelled
    have hid : id ∉ (simplified b).map Piece.id := fun hm =>
      hf.root_notMem_body hb (mem_ids_of_piece hlab hm)
    refine .spliced hv ((hrest id List.mem_cons_self hid).trans hk) (fun c hc => ?_)
      (fun c hc hd => (hdead c hc hd).congr fun x hx => hrest x (hbody c hc hx) fun hm => ?_) hts
    · obtain rfl : c = b := by rwa [hone, List.mem_singleton] at hc
      refine ih c hb (hlive c hc) ?_ fun x hx hxp => hrest x (hbody c hb hx) hxp
      exact Piece.keepsForm_of_echoAfter false fun p hm => hpieces p (hp ▸ hm)
    · have hne : c ≠ b := fun he => hd (by rw [hone, he]; exact List.mem_singleton.mpr rfl)
      exact hf.disjoint_bodies hc hb hne hx (mem_ids_of_piece hlab hm)

/-- Joining the texts of a prepared list leaves it prepared. -/
private theorem Prepared.join (hf : f.Holds ts) (h : Prepared false g ts)
    (hpieces : ∀ p ∈ simplified ts, p.KeepsForm g g')
    (hrest : ∀ x ∈ ids ts, x ∉ (simplified ts).map Piece.id → g'.kind x = g.kind x) :
    Prepared false g' ts := by
  induction ts using Forest.induct with
  | nil => exact .nil
  | cons id k bs ts ihb iht =>
    have hhead : ∀ x ∈ id :: bs.flatMap ids, x ∉ (k.pieces id (bs.map simplified)).map Piece.id →
        g'.kind x = g.kind x := fun x hx hxp => by
      refine hrest x ?_ (notMem_pieces_of_head hf hx hxp)
      rw [ids_cons, ← List.cons_append]
      exact List.mem_append_left _ hx
    rw [simplified_cons] at hpieces
    obtain ⟨hpieces, htail⟩ := List.forall_mem_append.mp hpieces
    have hts : Prepared false g' ts := by
      refine iht hf.tail h.tail htail fun x hx hxp => hrest x ?_ (notMem_pieces_of_tail hf hx hxp)
      rw [ids_cons]
      exact List.mem_cons_of_mem _ (List.mem_append_right _ hx)
    cases hv : k.verdict with
    | text s =>
      rw [pieces_of_text hv] at hpieces
      -- the text may have taken in others, but is a text
      obtain ⟨u, hu⟩ := hpieces (.text id s "") List.mem_cons_self
      exact .text hv (Or.inl ⟨u, hu⟩) hts
    | kept k' =>
      rw [pieces_of_kept hv] at hpieces hhead
      obtain ⟨hk, hshows⟩ := h.of_kept hv
      have hself := hpieces _ List.mem_cons_self
      refine .kept hv (Or.inl (hself.trans (hk.resolve_right fun he => Bool.false_ne_true he.1)))
        (fun b hb => (hshows b hb).congr fun x hx => ?_) hts
      -- of the node and what is inside it, only the node itself is a piece
      refine hhead x (List.mem_cons_of_mem _ (List.mem_flatMap.mpr ⟨b, hb, hx⟩)) fun hm => ?_
      rw [List.map_cons, List.map_nil, List.mem_singleton] at hm
      have hxid : x = id := hm
      exact hf.root_notMem_body hb (hxid ▸ hx)
    | dropped =>
      rw [pieces_of_dropped hv] at hhead
      exact .dropped hv ((hhead id List.mem_cons_self List.not_mem_nil).trans (h.of_dropped hv)) hts
    | spliced =>
      exact join_spliced hf h hv hpieces hhead (fun b hb => ihb b hb (hf.body hb)) hts

end Join

/-- **The edit of one list.** Its nodes are simplified and the texts among the pieces are joined. -/
theorem simplifyBody_spec {f g : TemplateFile} {b : Forest} {fresh : Bool} (hf : f.Holds b)
    (hsize : f.nodes.size ≤ g.nodes.size) (hprep : Prepared fresh g b)
    (hst : g.Shows b ∨ fresh = false ∧ g.Standing false (simplified b)) :
    ∃ g₀, SimplifiesTo fresh g g₀ b ∧ g₀.Standing false (simplified b) ∧
      g₀.Joined (g.simplifyBody (roots b)).1 false (simplified b) ∧
      Prepared false (g.simplifyBody (roots b)).1 b ∧
      (g.simplifyBody (roots b)).2 = roots (simplify b) ∧
      ChangesOnly (ids b) g (g.simplifyBody (roots b)).1 := by
  obtain ⟨g₀, h₀⟩ := exists_simplifiesTo hf hsize hprep
  have hpieces := (Piece.map_id_sublist (simplified b)).trans (ids_simplified hf.labelled)
  have hstanding : g₀.Standing false (simplified b) := by
    -- a list that is still shown has its own texts; in one that was edited before the edit changes nothing
    rcases hst with hshows | ⟨hfresh, hst⟩
    · exact standing_of_own (h₀.own hshows) (h₀.prepared.other_ne_text hf.labelled)
    · refine hst.congr fun p hp => h₀.again hfresh p.id ?_
      exact hpieces.subset (List.mem_map_of_mem hp)
  -- the table is long enough for the list
  have hrun : simplifyNodes g.nodes.size g (roots b) = (g₀, (simplified b).map Piece.id) := by
    obtain ⟨used, hle, hrun⟩ := h₀.runs
    obtain ⟨n, hn⟩ := Nat.exists_eq_add_of_le
      (Nat.le_trans hle (Nat.le_trans hf.length_ids_le hsize))
    have hend := hrun n []
    have hnil : simplifyNodes n g₀ [] = (g₀, []) := by cases n <;> rfl
    rw [List.append_nil, hnil, List.append_nil] at hend
    rw [hn, Nat.add_comm]
    exact hend
  have hedit : g.simplifyBody (roots b) = g₀.joinTextsAfter none ((simplified b).map Piece.id) := by
    rw [simplifyBody, hrun]
    rfl
  obtain ⟨hlist, hjoin, -, hchange⟩ := joinTextsAfter_spec g₀ none
    (hpieces.nodup hf.nodup)
    (fun x hx => Nat.lt_of_lt_of_le (hf.lt_size x (hpieces.subset hx))
      (Nat.le_trans hsize h₀.changes.size_le))
    (fun i hi => absurd hi (Option.not_mem_none i)) hstanding
  rw [← hedit] at hlist hjoin hchange
  rw [Option.toList_none, List.nil_append] at hchange
  refine ⟨g₀, h₀, hstanding, hjoin, ?_, hlist, h₀.changes.trans_self (hchange.mono hpieces.subset)⟩
  -- joining changes the pieces only
  refine h₀.prepared.join hf (Piece.keepsForm_of_joined hstanding hjoin) fun x hx hxp => ?_
  refine hchange.kind_eq x (Nat.lt_of_lt_of_le (hf.lt_size x hx) ?_) hxp
  exact Nat.le_trans hsize h₀.changes.size_le

/-! ### Nodes that no list refers to any more -/

section Confined

variable {S : List NodeId} {f g : TemplateFile}

/-- A change to one node keeps the set closed if the node's new children are in it. -/
theorem Closed.of_change (h : Closed S f) {id : NodeId} (hchange : ChangesOnly [id] f g)
    (hid : g.children id ⊆ S) : Closed S g := by
  intro x hx
  refine ⟨Nat.lt_of_lt_of_le (h x hx).1 hchange.size_le, ?_⟩
  rcases Nat.decEq x id with hne | rfl
  · rw [children, hchange.kind_eq x (h x hx).1 fun he => hne (List.mem_singleton.mp he)]
    exact (h x hx).2
  · exact hid

/-- The step for one node changes that node alone, and what takes its place comes from below it. -/
private theorem simplifyNode_confined (h : Closed S f) {id : NodeId} (hid : id ∈ S) :
    ChangesOnly S f (f.simplifyNode id).1 ∧ Closed S (f.simplifyNode id).1 ∧
      ∀ nodes, (f.simplifyNode id).2 = .spliced nodes → nodes ⊆ S := by
  obtain ⟨hchange, hspec⟩ := simplifyNode_spec (h id hid).1
  have hS : ChangesOnly S f (f.simplifyNode id).1 := hchange.mono fun x hx =>
    List.mem_singleton.mp hx ▸ hid
  -- the lists that take its place are some of its own
  have hlive : ((f.kind id).live (f.kind id).bodies).flatten ⊆ S := fun x hx =>
    (h id hid).2 (((f.kind id).live_sublist _).flatten.subset hx)
  refine ⟨hS, ?_⟩
  -- the children after the step are none, the live ones, or those from before
  cases hv : (f.kind id).verdict with
  | text s =>
    rw [hv] at hspec
    refine ⟨h.of_change hchange ?_, fun nodes hn => absurd (hspec.1.symm.trans hn) (by simp)⟩
    rw [children, hspec.2]
    exact List.nil_subset S
  | kept k =>
    rw [hv] at hspec
    refine ⟨h.of_change hchange ?_, fun nodes hn => absurd (hspec.1.symm.trans hn) (by simp)⟩
    rw [children, hspec.2, NodeKind.bodies_of_kept hv]
    exact hlive
  | dropped =>
    rw [hv] at hspec
    dsimp only at hspec
    rw [hspec]
    exact ⟨h, fun nodes hn => absurd hn (by simp)⟩
  | spliced =>
    rw [hv] at hspec
    dsimp only at hspec
    rw [hspec]
    exact ⟨h, fun nodes hn => Simplified.spliced.inj hn ▸ hlive⟩

/-- The edit of a whole list stays among the nodes that the list can reach. -/
private theorem simplifyNodes_confined (h : Closed S f) (fuel : Nat) {ids : List NodeId}
    (hids : ids ⊆ S) :
    ChangesOnly S f (simplifyNodes fuel f ids).1 ∧ Closed S (simplifyNodes fuel f ids).1 ∧
      (simplifyNodes fuel f ids).2 ⊆ S := by
  induction fuel generalizing f ids with
  | zero =>
    cases ids with
    | nil => exact ⟨ChangesOnly.refl _ _, h, hids⟩
    | cons id ids => exact ⟨ChangesOnly.refl _ _, h, hids⟩
  | succ fuel ih =>
    cases ids with
    | nil => exact ⟨ChangesOnly.refl _ _, h, hids⟩
    | cons id ids =>
      have hid := hids List.mem_cons_self
      have hrest : ids ⊆ S := fun x hx => hids (List.mem_cons_of_mem _ hx)
      obtain ⟨hchange, hclosed, hnodes⟩ := simplifyNode_confined h hid
      rcases hstep : f.simplifyNode id with ⟨g, v⟩
      rw [hstep] at hchange hclosed hnodes
      cases v with
      | kept =>
        obtain ⟨hchange', hclosed', hout⟩ := ih hclosed hrest
        rw [simplifyNodes, hstep]
        -- the node stays in the list, the rest by induction
        refine ⟨hchange.trans_self hchange', hclosed', fun x hx => ?_⟩
        rcases List.mem_cons.mp hx with rfl | hx
        · exact hid
        · exact hout hx
      | dropped =>
        obtain ⟨hchange', hclosed', hout⟩ := ih hclosed hrest
        rw [simplifyNodes, hstep]
        exact ⟨hchange.trans_self hchange', hclosed', hout⟩
      -- the nodes that take the place are walked next, so they have to be in the set as well
      | spliced nodes =>
        obtain ⟨hchange', hclosed', hout⟩ :=
          ih hclosed (List.append_subset.mpr ⟨hnodes nodes rfl, hrest⟩)
        rw [simplifyNodes, hstep]
        exact ⟨hchange.trans_self hchange', hclosed', hout⟩

/-- The edit of a list is confined to the nodes that the list can reach. -/
theorem simplifyBody_confined : Confined simplifyBody := by
  intro S f ids h hids
  obtain ⟨hchange, hclosed, hout⟩ := simplifyNodes_confined h f.nodes.size hids
  obtain ⟨hchange', hclosed', hout'⟩ := joinTexts_confined S _ _ hclosed hout
  exact ⟨hchange.trans_self hchange', hclosed', hout'⟩

end Confined

/-! ### The visits of the nodes of a list -/

/-- A list that was edited for the first time: the texts had their own text before they were
joined. -/
def Edited (b : Forest) (g : TemplateFile) : Prop :=
  (∃ g₀ : TemplateFile, (∀ i s again, Piece.text i s again ∈ simplified b → g₀.kind i = .text s) ∧
    g₀.Standing false (simplified b) ∧ g₀.Joined g false (simplified b)) ∧
  Prepared false g b

/-- A list that was edited again since `f`. -/
def EditedAgain (f : TemplateFile) (b : Forest) (g : TemplateFile) : Prop :=
  f.Joined g false (simplified b) ∧ Prepared false g b

section Visits

variable {f g : TemplateFile} {id : NodeId} {k k' : NodeKind} {bs : List Forest} {b ts : Forest}

/-- Only the kinds of the nodes in the list matter for whether it was edited. -/
private theorem Edited.congr {g' : TemplateFile} (hlab : Labelled b) (h : Edited b g)
    (hkind : ∀ x ∈ ids b, g'.kind x = g.kind x) : Edited b g' := by
  obtain ⟨⟨g₀, hown, hst, hjoin⟩, hprep⟩ := h
  refine ⟨⟨g₀, hown, hst, hjoin.congr fun p hp => hkind p.id ?_⟩, hprep.congr hkind⟩
  exact mem_ids_of_piece hlab (List.mem_map_of_mem hp)

/-- Only the kinds of the nodes in the list matter for whether it was edited again. -/
private theorem EditedAgain.congr {g' : TemplateFile} (hlab : Labelled b) (h : EditedAgain f b g)
    (hkind : ∀ x ∈ ids b, g'.kind x = g.kind x) : EditedAgain f b g' :=
  ⟨h.1.congr fun _ hp => hkind _ (mem_ids_of_piece hlab (List.mem_map_of_mem hp)),
    h.2.congr hkind⟩

/-- What the visits of the nodes of a list lead to; stated as the hypothesis of the induction. -/
def VisitsSettle (f : TemplateFile) (b : Forest) : Prop :=
  ∀ g after, f.nodes.size ≤ g.nodes.size → Prepared false g b → g.Standing after (simplified b) →
    (∀ p ∈ simplified b, p.Settles g (g.visit simplifyBody (ids b))) ∧
      ChangesOnly (ids b) g (g.visit simplifyBody (ids b))

/-- The first edit of a list and the visits of its nodes leave the simplified list. -/
private theorem VisitsSettle.shows (hv : VisitsSettle f b) (hsize : f.nodes.size ≤ g.nodes.size)
    (h : Edited b g) :
    (g.visit simplifyBody (ids b)).Shows (simplify b) ∧
      ChangesOnly (ids b) g (g.visit simplifyBody (ids b)) := by
  obtain ⟨⟨g₀, hown, hst, hjoin⟩, hprep⟩ := h
  obtain ⟨hsettle, hchange⟩ := hv g false hsize hprep (hjoin.standing hst)
  exact ⟨Piece.shows_finishAfter hown hjoin hsettle, hchange⟩

/-- The edit of a spliced list and the visits of its nodes, seen from before the edit. -/
private theorem VisitsSettle.echo {g₀ : TemplateFile} (hv : VisitsSettle f b)
    (hsize : f.nodes.size ≤ g.nodes.size) (hst : g₀.Standing false (simplified b))
    (h : EditedAgain g₀ b g) :
    (∀ p ∈ Piece.echoAfter false (simplified b),
        p.Settles g₀ (g.visit simplifyBody (ids b))) ∧
      ChangesOnly (ids b) g (g.visit simplifyBody (ids b)) := by
  obtain ⟨hsettle, hchange⟩ := hv g false hsize h.2 (h.1.standing hst)
  exact ⟨Piece.settles_echoAfter hst h.1 hsettle, hchange⟩

/-- The edits of the live lists of a node that is kept. -/
private theorem editsApart_kept (hf : f.Holds (.node id k bs :: ts)) (hsize : f.nodes.size ≤ g.nodes.size)
    (hv : k.verdict = .kept k') (hk : g.kind id = k') (hshows : ∀ b ∈ bs, g.Shows b) :
    EditsApart simplifyBody g id (k.live bs) fun b g out => Edited b g ∧ out = roots (simplify b) where
  bodies_eq := by rw [hk, NodeKind.bodies_of_kept hv, hf.bodies_eq, k.live_map]
  nodup := (((k.live_sublist bs).flatMap ids).cons_cons id).nodup
    (List.nodup_cons.mpr ⟨hf.root_notMem_inside, hf.nodup_inside⟩)
  lt := fun x hx => Nat.lt_of_lt_of_le
    (hf.lt_size_head x ((((k.live_sublist bs).flatMap ids).cons_cons id).subset hx)) hsize
  edit := by
    intro b hb S g' hS hdisj
    have hb' := (k.live_sublist bs).subset hb
    -- the edits of the other lists have not touched this one
    have hshowsb : g'.Shows b := (hshows b hb').congr fun x hx => by
      refine hS.kind_eq x (Nat.lt_of_lt_of_le ((hf.body hb').lt_size x hx) hsize) fun hxS => ?_
      exact hdisj hxS hx
    obtain ⟨g₀, h₀, hst, hjoin, hprep, hlist, hch⟩ := simplifyBody_spec (hf.body hb')
      (Nat.le_trans hsize hS.size_le) (Prepared.of_shows hshowsb) (Or.inl hshowsb)
    exact ⟨⟨⟨⟨g₀, h₀.own hshowsb, hst, hjoin⟩, hprep⟩, hlist⟩, hch⟩
  -- an edited list stays so whatever happens outside of it
  keep := by
    intro b hb out
    have hfb := hf.body ((k.live_sublist bs).subset hb)
    exact LocalTo.of_kinds (fun x hx => Nat.lt_of_lt_of_le (hfb.lt_size x hx) hsize) fun g g' h hkinds _ =>
      ⟨h.1.congr hfb.labelled hkinds, h.2⟩

/-- The visits of a node that is kept and of everything below it. -/
private theorem visit_kept (hf : f.Holds (.node id k bs :: ts)) (hsize : f.nodes.size ≤ g.nodes.size)
    (hv : k.verdict = .kept k') (hk : g.kind id = k') (hshows : ∀ b ∈ bs, g.Shows b)
    (ih : ∀ b ∈ bs, VisitsSettle f b) :
    (∀ p ∈ k.pieces id (bs.map simplified),
        p.Settles g ((g.editNode simplifyBody id).visit simplifyBody (bs.flatMap ids))) ∧
      ChangesOnly (id :: bs.flatMap ids) g
        ((g.editNode simplifyBody id).visit simplifyBody (bs.flatMap ids)) := by
  have hsub : ∀ {b}, b ∈ k.live bs → b ∈ bs := fun hb => (k.live_sublist bs).subset hb
  have hlive : ((k.live bs).flatMap ids).Sublist (bs.flatMap ids) := (k.live_sublist bs).flatMap ids
  obtain ⟨outs, hkind, houts, hchange⟩ := editNode_spec (editsApart_kept hf hsize hv hk hshows)
  obtain ⟨g₁, hg₁⟩ : ∃ g₁, g₁ = g.editNode simplifyBody id := ⟨_, rfl⟩
  rw [← hg₁] at hkind houts hchange ⊢
  have hedited : ∀ b ∈ k.live bs, Edited b g₁ := fun b hb =>
    (exists_of_forall₂ houts b hb).choose_spec.1
  -- the node names the roots of its simplified lists
  rw [eq_map_of_forall₂ houts] at hkind
  have hsize₁ : f.nodes.size ≤ g₁.nodes.size := Nat.le_trans hsize hchange.size_le
  -- the others are as they were
  have hclosed : ∀ b ∈ bs, b ∉ k.live bs → Closed (ids b) g₁ := by
    intro b hb hd
    refine ((hf.body hb).of_shows hsize₁ ((hshows b hb).congr fun x hx => ?_)).closed
    refine hchange.kind_eq x (Nat.lt_of_lt_of_le ((hf.body hb).lt_size x hx) hsize) fun hxl => ?_
    rcases List.mem_cons.mp hxl with rfl | hxl
    · exact hf.root_notMem_body hb hx
    · obtain ⟨c, hc, hxc⟩ := List.mem_flatMap.mp hxl
      exact hf.disjoint_bodies hb (hsub hc) (fun he => hd (he ▸ hc)) hx hxc
  obtain ⟨hdone, hchange₂⟩ := visit_bodies (n := f.nodes.size) simplifyBody g₁ bs
    (fun b g => (b ∈ k.live bs → Edited b g) ∧ (b ∉ k.live bs → Closed (ids b) g))
    (fun b g => b ∈ k.live bs → g.Shows (simplify b))
    hf.nodup_inside
    (fun x hx => hf.lt_size x (by
      rw [ids_cons]
      exact List.mem_cons_of_mem _ (List.mem_append_left _ hx)))
    hsize₁ (fun b hb => ⟨hedited b, hclosed b hb⟩)
    (fun b hb g ⟨hlive, hdead⟩ hg => by
      -- an edited list settles by the induction hypothesis, and a list that is not live has no effect
      -- outside itself
      by_cases hl : b ∈ k.live bs
      · obtain ⟨hs, hc⟩ := (ih b hb).shows hg (hlive hl)
        exact ⟨fun _ => hs, hc⟩
      · exact ⟨fun h => absurd h hl,
          (simplifyBody_confined.visit (hdead hl) (List.Subset.refl _)).1⟩)
    (fun b hb => LocalTo.of_kinds (hf.body hb).lt_size fun g g' h hkinds hle =>
      ⟨fun hl => (h.1 hl).congr (hf.body hb).labelled hkinds,
        fun hd => (h.2 hd).congr hkinds hle⟩)
    (fun b hb => LocalTo.of_kinds (hf.body hb).lt_size fun g g' h hkinds _ hl =>
      (h hl).congr fun x hx => hkinds x ((ids_simplify (hf.body hb).labelled).subset hx))
  refine ⟨?_, (hchange.trans hchange₂).mono fun x hx => ?_⟩
  · rw [pieces_of_kept hv, List.forall_mem_singleton, Piece.Settles, shows_cons]
    refine ⟨?_, fun b' hb' => ?_, shows_nil⟩
    · rw [hchange₂.kind_eq id (Nat.lt_of_lt_of_le hf.root_lt hsize₁) hf.root_notMem_inside, hkind,
        hk, List.map_map]
      rfl
    · obtain ⟨b, hb, rfl⟩ := List.mem_map.mp hb'
      exact hdone b (hsub hb) hb
  · rcases List.mem_append.mp hx with hx | hx
    · exact (hlive.cons_cons id).subset hx
    · exact List.mem_cons_of_mem _ hx

/-- The edits of the lists of a node that made way for a list inside it. -/
private theorem editsApart_spliced (hf : f.Holds (.node id k bs :: ts)) (hsize : f.nodes.size ≤ g.nodes.size)
    (hk : g.kind id = k) (hlive : ∀ b ∈ k.live bs, Prepared false g b)
    (hdead : ∀ b ∈ bs, b ∉ k.live bs → g.Shows b) (hst : ∀ b ∈ k.live bs, g.Standing false (simplified b)) :
    EditsApart simplifyBody g id bs fun b g' _ =>
      (b ∈ k.live bs → EditedAgain g b g') ∧ (b ∉ k.live bs → Closed (ids b) g') where
  bodies_eq := by rw [hk, hf.bodies_eq]
  nodup := List.nodup_cons.mpr ⟨hf.root_notMem_inside, hf.nodup_inside⟩
  lt := fun x hx => Nat.lt_of_lt_of_le (hf.lt_size_head x hx) hsize
  edit := by
    intro b hb S g' hS hdisj
    have hkinds : ∀ x ∈ ids b, g'.kind x = g.kind x := fun x hx =>
      hS.kind_eq x (Nat.lt_of_lt_of_le ((hf.body hb).lt_size x hx) hsize) fun hxS => hdisj hxS hx
    have hsize' : f.nodes.size ≤ g'.nodes.size := Nat.le_trans hsize hS.size_le
    -- the list that took the place was edited before, as part of the list around it; the others are only
    -- walked
    by_cases hl : b ∈ k.live bs
    · have hmem : ∀ p ∈ simplified b, p.id ∈ ids b := fun p hp =>
        mem_ids_of_piece (hf.body hb).labelled (List.mem_map_of_mem hp)
      have hst' : g'.Standing false (simplified b) :=
        (hst b hl).congr fun p hp => hkinds p.id (hmem p hp)
      obtain ⟨g₀, h₀, -, hjoin, hprep, -, hch⟩ := simplifyBody_spec (hf.body hb) hsize'
        ((hlive b hl).congr hkinds) (Or.inr ⟨rfl, hst'⟩)
      refine ⟨⟨fun _ => ⟨hjoin.congr_left fun p hp => ?_, hprep⟩, fun hd => absurd hl hd⟩, hch⟩
      rw [h₀.again rfl p.id (hmem p hp), hkinds p.id (hmem p hp)]
    · have hcl : Closed (ids b) g' :=
        ((hf.body hb).of_shows hsize' ((hdead b hb hl).congr hkinds)).closed
      obtain ⟨hch, hcl', -⟩ := simplifyBody_confined (ids b) g' (roots b) hcl
        (roots_subset_ids b)
      exact ⟨⟨fun h => absurd h hl, fun _ => hcl'⟩, hch⟩
  keep := fun b hb out => LocalTo.of_kinds
    (fun x hx => Nat.lt_of_lt_of_le ((hf.body hb).lt_size x hx) hsize)
    fun g g' h hkinds hle => ⟨fun hl => (h.1 hl).congr (hf.body hb).labelled hkinds,
      fun hd => (h.2 hd).congr hkinds hle⟩

/-- The visits of a node that made way for a list inside it, and of everything below it. -/
private theorem visit_spliced (hf : f.Holds (.node id k bs :: ts))
    (hsize : f.nodes.size ≤ g.nodes.size) (hv : k.verdict = .spliced) (hk : g.kind id = k)
    (hlive : ∀ b ∈ k.live bs, Prepared false g b) (hdead : ∀ b ∈ bs, b ∉ k.live bs → g.Shows b)
    {after : Bool} (hst : g.Standing after (k.pieces id (bs.map simplified)))
    (ih : ∀ b ∈ bs, VisitsSettle f b) :
    (∀ p ∈ k.pieces id (bs.map simplified),
        p.Settles g ((g.editNode simplifyBody id).visit simplifyBody (bs.flatMap ids))) ∧
      ChangesOnly (id :: bs.flatMap ids) g
        ((g.editNode simplifyBody id).visit simplifyBody (bs.flatMap ids)) := by
  have hlen : bs.length = k.bodies.length := by rw [hf.bodies_eq, List.length_map]
  -- its pieces are those of the list that takes its place, if there is one
  have hpieces := pieces_of_spliced id hv hlen
  -- the pieces of the live list stand as pieces of the list around it
  have hstanding : ∀ b ∈ k.live bs, g.Standing false (simplified b) := by
    intro b hb
    rcases hpieces with ⟨hnone, -⟩ | ⟨c, -, hsome, hp⟩
    · rw [hnone] at hb
      exact absurd hb List.not_mem_nil
    · rw [hsome, List.mem_singleton] at hb
      rw [hp] at hst
      exact hb ▸ (standing_echoAfter.mp hst).start
  obtain ⟨outs, -, houts, hchange⟩ := editNode_spec (editsApart_spliced hf hsize hk hlive hdead hstanding)
  obtain ⟨g₁, hg₁⟩ : ∃ g₁, g₁ = g.editNode simplifyBody id := ⟨_, rfl⟩
  rw [← hg₁] at houts hchange ⊢
  have hsize₁ : f.nodes.size ≤ g₁.nodes.size := Nat.le_trans hsize hchange.size_le
  obtain ⟨hdone, hchange₂⟩ := visit_bodies (n := f.nodes.size) simplifyBody g₁ bs
    (fun b g' => (b ∈ k.live bs → EditedAgain g b g') ∧ (b ∉ k.live bs → Closed (ids b) g'))
    (fun b g' => b ∈ k.live bs →
      ∀ p ∈ Piece.echoAfter false (simplified b), p.Settles g g')
    hf.nodup_inside
    (fun x hx => hf.lt_size x (by
      rw [ids_cons]
      exact List.mem_cons_of_mem _ (List.mem_append_left _ hx)))
    hsize₁ (fun b hb => (exists_of_forall₂ houts b hb).choose_spec)
    (fun b hb g' ⟨hagain, hcl⟩ hg => by
      -- as for a node that is kept, only that the live list is edited a second time
      by_cases hl : b ∈ k.live bs
      · obtain ⟨hs, hc⟩ := (ih b hb).echo hg (hstanding b hl) (hagain hl)
        exact ⟨fun _ => hs, hc⟩
      · exact ⟨fun h => absurd h hl,
          (simplifyBody_confined.visit (hcl hl) (List.Subset.refl _)).1⟩)
    (fun b hb => LocalTo.of_kinds (hf.body hb).lt_size fun g g' h hkinds hle =>
      ⟨fun hl => (h.1 hl).congr (hf.body hb).labelled hkinds,
        fun hd => (h.2 hd).congr hkinds hle⟩)
    (fun b hb => LocalTo.of_kinds (hf.body hb).lt_size fun g' g'' h hkinds _ hl p hp => by
      refine (h hl p hp).congr rfl fun x hx => hkinds x ?_
      refine (ids_simplified (hf.body hb).labelled).subset ?_
      rw [← Piece.flatMap_ids_echoAfter false]
      exact List.mem_flatMap.mpr ⟨p, hp, hx⟩)
  refine ⟨?_, (hchange.trans hchange₂).mono fun x hx => ?_⟩
  · rcases hpieces with ⟨-, hp⟩ | ⟨b, hb, hsome, hp⟩
    · rw [hp]
      exact fun _ hm => absurd hm List.not_mem_nil
    · rw [hp]
      exact hdone b hb (hsome ▸ List.mem_singleton.mpr rfl)
  · rcases List.mem_append.mp hx with hx | hx
    · exact hx
    · exact List.mem_cons_of_mem _ hx

/-- **The visits of the nodes of a list.** Every text ends with what later visits append to it, and
every other node as the simplified forest has it. -/
theorem visit_simplified (hf : f.Holds ts) : VisitsSettle f ts := by
  induction ts using Forest.induct with
  | nil =>
    exact fun g _ _ _ _ => ⟨fun _ hp => absurd hp List.not_mem_nil, ChangesOnly.refl _ _⟩
  | cons id k bs ts ihb iht =>
    intro g after hsize hprep hst
    have hbodies : ∀ b ∈ bs, VisitsSettle f b := fun b hb => ihb b hb (hf.body hb)
    rw [simplified_cons] at hst ⊢
    -- the node itself
    have hhead : (∀ p ∈ k.pieces id (bs.map simplified),
          p.Settles g ((g.editNode simplifyBody id).visit simplifyBody (bs.flatMap ids))) ∧
        ChangesOnly (id :: bs.flatMap ids) g
          ((g.editNode simplifyBody id).visit simplifyBody (bs.flatMap ids)) := by
      cases hv : k.verdict with
      | text s =>
        obtain ⟨u, hu⟩ := (hprep.of_text hv).resolve_right fun h => Bool.false_ne_true h.1
        obtain rfl := hf.bodies_eq_nil (NodeKind.bodies_of_text hv)
        rw [pieces_of_text hv, editNode_of_leaf (by rw [hu]; rfl)]
        refine ⟨List.forall_mem_singleton.mpr ⟨u, hu, ?_⟩, ChangesOnly.refl _ _⟩
        rw [String.append_empty]
        exact hu
      | kept k' =>
        obtain ⟨hk, hshows⟩ := hprep.of_kept hv
        exact visit_kept hf hsize hv (hk.resolve_right fun h => Bool.false_ne_true h.1) hshows
          hbodies
      | dropped =>
        have hleaf := NodeKind.bodies_of_dropped hv
        obtain rfl := hf.bodies_eq_nil hleaf
        rw [pieces_of_dropped hv, editNode_of_leaf (by rw [hprep.of_dropped hv]; exact hleaf)]
        exact ⟨fun _ hp => absurd hp List.not_mem_nil, ChangesOnly.refl _ _⟩
      | spliced =>
        obtain ⟨hk, hlive, hdead⟩ := hprep.of_spliced hv
        exact visit_spliced hf hsize hv hk hlive hdead hst.left hbodies
    obtain ⟨g₁, hg₁⟩ : ∃ g₁,
        g₁ = (g.editNode simplifyBody id).visit simplifyBody (bs.flatMap ids) := ⟨_, rfl⟩
    rw [← hg₁] at hhead
    obtain ⟨hsettle, hchange⟩ := hhead
    -- the rest of the list is as it was, and its visits leave the node alone
    have htail : ∀ x ∈ ids ts, g₁.kind x = g.kind x := by
      intro x hx
      exact hchange.kind_eq x (Nat.lt_of_lt_of_le (hf.tail.lt_size x hx) hsize) fun hxh =>
        hf.disjoint_head_tail hxh hx
    obtain ⟨after', hst'⟩ := hst.right
    -- every piece of the rest is a node of it
    have hmem : ∀ p ∈ simplified ts, p.id ∈ ids ts := fun p hp =>
      mem_ids_of_piece hf.tail.labelled (List.mem_map_of_mem hp)
    obtain ⟨hsettle', hchange'⟩ := iht hf.tail g₁ after' (Nat.le_trans hsize hchange.size_le)
      (hprep.tail.congr htail) (hst'.congr fun p hp => htail p.id (hmem p hp))
    rw [ids_cons, visit_cons, visit_append, ← hg₁]
    refine ⟨fun p hp => ?_, hchange.trans hchange'⟩
    rcases List.mem_append.mp hp with hp | hp
    · refine (hsettle p hp).congr rfl fun x hx => ?_
      have hxh : x ∈ id :: bs.flatMap ids :=
        (ids_pieces hf.labelled).subset (List.mem_flatMap.mpr ⟨p, hp, hx⟩)
      exact hchange'.kind_eq x
        (Nat.lt_of_lt_of_le (hf.lt_size_head x hxh) (Nat.le_trans hsize hchange.size_le))
        fun hxt => hf.disjoint_head_tail hxh hxt
    · refine (hsettle' p hp).congr (htail p.id (hmem p hp)).symm fun _ _ => rfl

end Visits

/-! ### The pass -/

section Pass

variable {f : TemplateFile} {ts : Forest}

/-- Templates are in no list, so that their own list counts as edited before the first visit. -/
private theorem prepared_templates (hshows : f.Shows ts) (htemplates : AreTemplates ts) :
    Prepared false f ts ∧ f.Standing false (simplified ts) ∧
      f.Joined f false (simplified ts) ∧
      ∀ i s again, Piece.text i s again ∉ simplified ts := by
  induction ts with
  | nil => exact ⟨.nil, trivial, trivial, fun _ _ _ => List.not_mem_nil⟩
  | cons t ts ih =>
    obtain ⟨x, hx⟩ := htemplates t List.mem_cons_self
    obtain ⟨id, k, bs⟩ := t
    -- a template is kept, and is no text, so that there is nothing to join at this level
    obtain rfl : k = .template x := hx
    obtain ⟨hk, hbs, hts⟩ := shows_cons.mp hshows
    obtain ⟨hprep, hst, hjoin, hnone⟩ := ih hts fun t ht => htemplates t (List.mem_cons_of_mem _ ht)
    rw [simplified_cons, pieces_of_kept (NodeKind.verdict_template x), List.singleton_append]
    refine ⟨.kept rfl (Or.inl hk) hbs hprep, ⟨fun s => ?_, hst⟩, ⟨rfl, hjoin⟩, fun i s again hm => ?_⟩
    · rw [NodeTree.id_node, hk]
      simp
    · exact hnone i s again ((List.mem_cons.mp hm).resolve_left (by simp))

/-- **Simplification of the reachable lists.** The table holds the simplified forest after it. -/
theorem Holds.editBodies_simplifyBody (h : f.Holds ts) (hroots : roots ts = f.templates)
    (htemplates : AreTemplates ts) :
    (f.editBodies simplifyBody).Holds (simplify ts) ∧
      (f.editBodies simplifyBody).templates = f.templates := by
  obtain ⟨hprep, hst, hjoin, hnone⟩ := prepared_templates h.shows_nodes htemplates
  obtain ⟨hsettle, hchange⟩ := visit_simplified h f false (Nat.le_refl _) hprep hst
  rw [editBodies_eq_visit, h.reachable hroots]
  have hsub := ids_simplify h.labelled
  refine ⟨⟨?_, labelled_simplify h.labelled, hsub.nodup h.nodup, fun x hx => ?_⟩,
    hchange.templates_eq⟩
  · exact Piece.shows_finishAfter (fun i s again hm => absurd hm (hnone i s again)) hjoin hsettle
  · exact Nat.lt_of_lt_of_le (h.lt_size x (hsub.subset hx)) hchange.size_le

/-- Mapping the expressions leaves templates templates. -/
theorem areTemplates_mapExprs (e : Expr → Expr) (h : AreTemplates ts) :
    AreTemplates (mapKinds (NodeKind.mapExprs e) ts) := by
  induction ts with
  | nil => exact h
  | cons t ts ih =>
    obtain ⟨x, hx⟩ := h t List.mem_cons_self
    obtain ⟨id, k, bs⟩ := t
    obtain rfl : k = .template x := hx
    rw [mapKinds_cons]
    exact List.forall_mem_cons.mpr ⟨⟨_, rfl⟩, ih fun t ht => h t (List.mem_cons_of_mem _ ht)⟩

/-- **The whole pass.** Constants are folded, and the forest is simplified. -/
theorem Holds.optimize (h : f.Holds ts) (hroots : roots ts = f.templates)
    (htemplates : AreTemplates ts) :
    f.optimize.Holds (simplify (mapKinds (NodeKind.mapExprs Expr.fold) ts)) ∧
      f.optimize.templates = f.templates := by
  obtain ⟨hfold, htempl⟩ := h.mapExprs hroots Expr.fold
  obtain ⟨hsimp, htempl'⟩ := hfold.editBodies_simplifyBody
    (by rw [roots_mapKinds, htempl, hroots]) (areTemplates_mapExprs Expr.fold htemplates)
  exact ⟨hsimp, htempl'.trans htempl⟩

end Pass

end TemplateFrontend.TemplateFile
