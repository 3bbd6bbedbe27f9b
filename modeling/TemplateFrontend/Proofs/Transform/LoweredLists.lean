import TemplateFrontend.Proofs.Transform.Lowered
import TemplateFrontend.Transform.Lowering
/-!
# The lowering of one list

Lowering edits a list before the nodes in it are visited. The pieces of the list are then known up to
what is below its nodes: which of them are texts, which texts these are, and what their numbers are.

* `Forest.Outlined` — the pieces of a list as far as they are known;
* `TemplateFile.Ready` — the state of a list between its edit and the visits of its nodes;
* `TemplateFile.lowerTags_spec` — the tags of a list written as texts;
* `TemplateFile.lowerBody_spec` — the edit of a list that was not touched before;
* `TemplateFile.lowerBody_value` — the edit of an attribute value, whose nodes were spliced into the
  list of the tag.
-/

namespace TemplateFrontend

open Forest

/-! ### Pieces before the visits -/

/-- A node of a list without tags as a piece; what is below it does not matter. -/
def NodeTree.own : NodeTree → Piece
  | .node id k bs =>
    match k with
    | .text s => .text id s ""
    | _ => .other (.node id k bs) false

namespace Forest

/-- The pieces of a list without tags, before its nodes are visited. -/
def own (ts : Forest) : List Piece := ts.map NodeTree.own

/-- The pieces of a list before its nodes are visited. -/
def Outlined (n : NodeId) : Forest → List Piece → Prop
  | [], ps => ps = []
  | .node id k bs :: ts, ps =>
    ∃ p q, k.LowersTo n id (bs.map own) p ∧ Outlined n ts q ∧ ps = p ++ q

/-- The nodes of a list that are put into it: those of attribute values instead of their tags. -/
def level : Forest → List NodeId
  | [] => []
  | .node id k bs :: ts =>
    match k with
    | .openTag _ _ _ => bs.flatMap roots ++ level ts
    | _ => id :: level ts

section Own

variable {n : NodeId} {ts v : Forest} {ps : List Piece}

/-- The pieces of a list are its nodes. -/
theorem map_id_own (ts : Forest) : (own ts).map Piece.id = roots ts := by
  rw [own, List.map_map]
  refine List.map_congr_left fun t _ => ?_
  obtain ⟨id, k, bs⟩ := t
  cases k <;> rfl

/-- A list without tags is outlined by its own pieces, up to what is put behind its texts. -/
theorem exists_outlined_own (n : NodeId) (hfit : FitsValue v) :
    ∃ ps, Outlined n v ps ∧ ps.map Piece.shape = (own v).map Piece.shape := by
  induction v with
  | nil => exact ⟨[], rfl, rfl⟩
  | cons t v ih =>
    obtain ⟨id, k, bs⟩ := t
    obtain ⟨hk, hv⟩ := List.forall_mem_cons.mp hfit
    obtain ⟨q, hq, hshape⟩ := ih hv
    -- a text of a value is joined to the tag, and every other node stays as it is
    cases k with
    | text s =>
      exact ⟨_, ⟨[.text id s ""], q, rfl, hq, rfl⟩, congrArg ((id, some s) :: ·) hshape⟩
    | openTag | closeTag => exact absurd hk (by simp [NodeKind.fitsValue])
    | _ => exact ⟨_, ⟨[_], q, rfl, hq, rfl⟩, congrArg ((id, none) :: ·) hshape⟩

/-- Without tags nothing is put into a list but its own nodes. -/
theorem level_eq_roots (hfit : FitsValue v) : level v = roots v := by
  induction v with
  | nil => rfl
  | cons t v ih =>
    obtain ⟨id, k, bs⟩ := t
    obtain ⟨hk, hv⟩ := List.forall_mem_cons.mp hfit
    cases k with
    | openTag | closeTag => exact absurd hk (by simp [NodeKind.fitsValue])
    | _ => exact congrArg (id :: ·) (ih hv)

/-- What is put into a list was somewhere below it. -/
theorem level_subset_ids (ts : Forest) : level ts ⊆ ids ts := by
  induction ts with
  | nil => exact List.Subset.refl _
  | cons t ts ih =>
    obtain ⟨id, k, bs⟩ := t
    rw [ids_cons]
    -- behind the first node by induction
    have hrest : ∀ x ∈ level ts, x ∈ id :: (bs.flatMap ids ++ ids ts) := fun x hx =>
      List.mem_cons_of_mem _ (List.mem_append_right _ (ih hx))
    intro x hx
    -- a tag makes way for the roots of its values
    cases k with
    | openTag name as closed =>
      rcases List.mem_append.mp hx with hx | hx
      · obtain ⟨b, hb, hxb⟩ := List.mem_flatMap.mp hx
        refine List.mem_cons_of_mem _ (List.mem_append_left _ ?_)
        exact List.mem_flatMap.mpr ⟨b, hb, roots_subset_ids b hxb⟩
      · exact hrest x hx
    | _ =>
      rcases List.mem_cons.mp hx with rfl | hx
      · exact List.mem_cons_self
      · exact hrest x hx

/-- The numbers of the pieces. -/
theorem Outlined.mem_level (h : Outlined n ts ps) {x : NodeId} (hx : x ∈ ps.map Piece.id) :
    x ∈ level ts ∨ n ≤ x := by
  induction ts generalizing ps with
  | nil =>
    obtain rfl : ps = [] := h
    exact absurd hx List.not_mem_nil
  | cons t ts ih =>
    obtain ⟨id, k, bs⟩ := t
    obtain ⟨p, q, hp, hq, rfl⟩ := h
    rw [List.map_append, List.mem_append] at hx
    -- the texts of a tag are new nodes, and the nodes between them come from its values
    cases k with
    | text s =>
      obtain rfl : p = [.text id s ""] := hp
      rcases hx with hx | hx
      · exact Or.inl (List.mem_singleton.mp hx ▸ List.mem_cons_self)
      · exact (ih hq hx).imp_left (List.mem_cons_of_mem _)
    | closeTag name =>
      obtain ⟨i, hi, rfl⟩ := hp
      rcases hx with hx | hx
      · exact Or.inr (List.mem_singleton.mp hx ▸ hi)
      · exact (ih hq hx).imp_left (List.mem_cons_of_mem _)
    | openTag name as closed =>
      rcases hx with hx | hx
      · obtain ⟨r, hr, rfl⟩ := List.mem_map.mp hx
        -- a text of the tag, or a node of one of its values
        rcases TagPieces.mem hp hr with ⟨i, s, hi, rfl⟩ | ⟨w, hw, hrw⟩
        · exact Or.inr hi
        · obtain ⟨b, hb, rfl⟩ := List.mem_map.mp hw
          have hroot : r.id ∈ roots b := by
            rw [← map_id_own, ← Piece.map_id_echoAfter false]
            exact List.mem_map_of_mem hrw
          exact Or.inl (List.mem_append_left _ (List.mem_flatMap.mpr ⟨b, hb, hroot⟩))
      · exact (ih hq hx).imp_left (List.mem_append_right _)
    | _ =>
      obtain rfl : p = [_] := hp
      rcases hx with hx | hx
      · exact Or.inl (List.mem_singleton.mp hx ▸ List.mem_cons_self)
      · exact (ih hq hx).imp_left (List.mem_cons_of_mem _)

/-- A piece of a list is a node below it, or a new one. -/
theorem Outlined.mem_ids (h : Outlined n ts ps) : ∀ x ∈ ps.map Piece.id, x ∈ ids ts ∨ n ≤ x :=
  fun _ hx => (h.mem_level hx).imp_left fun hl => level_subset_ids ts hl

end Own

end Forest

namespace TemplateFile

/-! ### Tags written as texts -/

/-- The table shows the pieces with nothing but their own text. -/
structure ShowsOwn (f : TemplateFile) (ps : List Piece) : Prop where
  texts : ∀ i s again, Piece.text i s again ∈ ps → f.kind i = .text s
  others : ∀ t r, Piece.other t r ∈ ps → ∀ s, f.kind t.id ≠ .text s

/-- Numbers of nodes in `T` and of nodes that were added between the sizes `m` and `m'`, none twice. -/
structure Placed (T : List NodeId) (m m' : NodeId) (xs : List NodeId) : Prop where
  nodup : xs.Nodup
  mem : ∀ x ∈ xs, x ∈ T ∨ (m ≤ x ∧ x < m')

section Placed

variable {T T' : List NodeId} {m m' m'' : NodeId} {xs ys : List NodeId} {f g : TemplateFile}
  {ps qs : List Piece}

/-- What is placed first and what is placed next do not meet: their nodes differ, and the new ones were
added one after the other. -/
theorem Placed.append (h : Placed T m m' xs) (h' : Placed T' m' m'' ys) (hdisj : T.Disjoint T')
    (hT : ∀ x ∈ T, x < m) (hT' : ∀ x ∈ T', x < m) (hm : m ≤ m') (hm' : m' ≤ m'') :
    Placed (T ++ T') m m'' (xs ++ ys) where
  nodup := by
    refine List.nodup_append'.mpr ⟨h.nodup, h'.nodup, fun x hx hy => ?_⟩
    -- old nodes are apart, and new ones come from ranges that follow each other
    rcases h.mem x hx with hxT | ⟨hle, hlt⟩
    · rcases h'.mem x hy with hyT | ⟨hle', -⟩
      · exact hdisj hxT hyT
      · exact Nat.not_lt.mpr (Nat.le_trans hm hle') (hT x hxT)
    · rcases h'.mem x hy with hyT | ⟨hle', -⟩
      · exact Nat.not_lt.mpr hle (hT' x hyT)
      · exact Nat.not_lt.mpr hle' hlt
  mem := by
    intro x hx
    rcases List.mem_append.mp hx with hx | hx
    · exact (h.mem x hx).imp (List.mem_append_left _) fun ⟨hle, hlt⟩ =>
        ⟨hle, Nat.lt_of_lt_of_le hlt hm'⟩
    · exact (h'.mem x hx).imp (List.mem_append_right _) fun ⟨hle, hlt⟩ =>
        ⟨Nat.le_trans hm hle, hlt⟩

/-- Nodes that were there before are placed without a new one. -/
theorem Placed.of_sublist (h : T.Nodup) (hs : xs.Sublist T) (m : Nat) : Placed T m m xs :=
  ⟨h.sublist hs, fun _ hx => Or.inl (hs.subset hx)⟩

/-- They may come from more nodes. -/
theorem Placed.mono (h : Placed T m m' xs) (hs : T ⊆ T') : Placed T' m m' xs :=
  ⟨h.nodup, fun x hx => (h.mem x hx).imp_left fun hxT => hs hxT⟩

/-- All of them are in the table by then. -/
theorem Placed.lt (h : Placed T m m' xs) (hT : ∀ x ∈ T, x < m) (hm : m ≤ m') {x : NodeId}
    (hx : x ∈ xs) : x < m' :=
  (h.mem x hx).elim (fun hxT => Nat.lt_of_lt_of_le (hT x hxT) hm) And.right

/-- Pieces and then other pieces. -/
theorem ShowsOwn.append (h : f.ShowsOwn ps) (h' : f.ShowsOwn qs) : f.ShowsOwn (ps ++ qs) where
  texts := fun i s again hm =>
    (List.mem_append.mp hm).elim (h.texts i s again) (h'.texts i s again)
  others := fun t r hm => (List.mem_append.mp hm).elim (h.others t r) (h'.others t r)

/-- Only the kinds of the pieces matter. -/
theorem ShowsOwn.congr (h : f.ShowsOwn ps) (hkind : ∀ x ∈ ps.map Piece.id, g.kind x = f.kind x) :
    g.ShowsOwn ps where
  texts := fun i s again hm => (hkind i (List.mem_map_of_mem hm)).trans (h.texts i s again hm)
  others := fun t r hm => by
    have hid : t.id ∈ ps.map Piece.id := List.mem_map_of_mem (f := Piece.id) hm
    rw [hkind t.id hid]
    exact h.others t r hm

/-- A second visit changes nothing of what the pieces have of their own. -/
theorem ShowsOwn.echoAfter (h : f.ShowsOwn ps) (after : Bool) :
    f.ShowsOwn (Piece.echoAfter after ps) where
  texts := fun i s again hm => by
    obtain ⟨again', hm'⟩ := Piece.mem_of_text_mem_echoAfter hm
    exact h.texts i s again' hm'
  others := fun t r hm => h.others t r (Piece.mem_of_other_mem_echoAfter hm)

/-- What may be put behind a text does not matter. -/
theorem ShowsOwn.of_shape (h : f.ShowsOwn ps) (hshape : ps.map Piece.shape = qs.map Piece.shape) :
    f.ShowsOwn qs := by
  have hmem : ∀ q ∈ qs, ∃ p ∈ ps, p.shape = q.shape := fun q hq => by
    rw [← List.mem_map, hshape]
    exact List.mem_map_of_mem hq
  refine ⟨fun i s again hm => ?_, fun t r hm => ?_⟩
  · obtain ⟨p, hp, hps⟩ := hmem _ hm
    obtain ⟨again', rfl⟩ := Piece.shape_text hps
    exact h.texts i s again' hp
  · obtain ⟨p, hp, hps⟩ := hmem _ hm
    obtain ⟨t', r', rfl, hid⟩ := Piece.shape_other hps
    exact hid ▸ h.others t' r' hp

/-- The nodes of a list without tags. -/
theorem showsOwn_own {v : Forest} (h : f.Shows v) : f.ShowsOwn (own v) where
  texts := fun i s again hm => by
    obtain ⟨t, ht, he⟩ := List.mem_map.mp hm
    have hkind := h t (mem_subtrees_self ht)
    obtain ⟨id, k, bs⟩ := t
    cases k with
    | text u =>
      obtain ⟨rfl, rfl, -⟩ := Piece.text.inj he
      exact hkind
    | _ => exact absurd he (by simp [NodeTree.own])
  others := fun t r hm s => by
    obtain ⟨u, hu, he⟩ := List.mem_map.mp hm
    have hkind := h u (mem_subtrees_self hu)
    obtain ⟨id, k, bs⟩ := u
    cases k with
    | text => exact absurd he (by simp [NodeTree.own])
    | _ =>
      obtain ⟨rfl, -⟩ := Piece.other.inj he
      rw [hkind]
      simp

/-- A text is shown with its own text. -/
theorem showsOwn_text {i : NodeId} {s again : String} (h : f.kind i = .text s) : f.ShowsOwn [.text i s again] where
  texts := fun j u again' hm => by
    obtain ⟨rfl, rfl, -⟩ := Piece.text.inj (List.mem_singleton.mp hm)
    exact h
  others := fun t r hm => absurd (List.mem_singleton.mp hm) (by simp)

/-- A node that is no text has none. -/
theorem showsOwn_other {t : NodeTree} {r : Bool} (h : ∀ s, f.kind t.id ≠ .text s) : f.ShowsOwn [.other t r] where
  texts := fun i s again hm => absurd (List.mem_singleton.mp hm) (by simp)
  others := fun u r' hm s => by
    obtain ⟨rfl, -⟩ := Piece.other.inj (List.mem_singleton.mp hm)
    exact h s

/-- From `f` to `g` texts were added. The pieces are nodes of `T` and these texts, with nothing but their own text. -/
structure Puts (T : List NodeId) (f g : TemplateFile) (ps : List Piece) : Prop where
  placed : Placed T f.nodes.size g.nodes.size (ps.map Piece.id)
  own : g.ShowsOwn ps
  changes : ChangesOnly [] f g

/-- The pieces may come from more nodes. -/
theorem Puts.mono (h : Puts T f g ps) (hs : T ⊆ T') : Puts T' f g ps := ⟨h.placed.mono hs, h.own, h.changes⟩

/-- Pieces that are put in one after the other. -/
theorem Puts.append {h : TemplateFile} (hp : Puts T f g ps) (hq : Puts T' g h qs) (hdisj : T.Disjoint T')
    (hT : ∀ x ∈ T, x < f.nodes.size) (hT' : ∀ x ∈ T', x < f.nodes.size) : Puts (T ++ T') f h (ps ++ qs) where
  placed := by
    rw [List.map_append]
    exact hp.placed.append hq.placed hdisj hT hT' hp.changes.size_le hq.changes.size_le
  own := by
    refine (hp.own.congr fun x hx => hq.changes.kind_eq x ?_ List.not_mem_nil).append hq.own
    exact hp.placed.lt hT hp.changes.size_le hx
  changes := hp.changes.trans hq.changes

/-- Nodes of the table that stay as they are. -/
theorem Puts.kept (hids : ps.map Piece.id = T) (hnodup : T.Nodup) (hown : f.ShowsOwn ps) : Puts T f f ps where
  placed := hids ▸ .of_sublist hnodup (List.Sublist.refl _) _
  own := hown
  changes := ChangesOnly.refl _ _

/-- A text that is added. -/
theorem Puts.added (f : TemplateFile) (s : String) (place : Span) :
    Puts [] f (f.add (.text s) place).1 [.text f.nodes.size s ""] where
  placed := by
    refine ⟨List.nodup_singleton _, fun x hx => .inr ?_⟩
    rw [List.mem_singleton.mp hx, size_add]
    exact ⟨Nat.le_refl _, Nat.lt_succ_self _⟩
  own := showsOwn_text (kind_add_self f _ place)
  changes := ChangesOnly.add f _ place

end Placed

section Tags

variable {f g : TemplateFile}

/-- **The texts of a tag.** They are new nodes, and the nodes of the values stand between them. -/
theorem addPieces_spec (f : TemplateFile) (place : Span) (n : NodeId) (hn : n ≤ f.nodes.size)
    (closed : Bool) (text : String) (as : List Attribute) (bs : List Forest)
    (hbs : as.filterMap (·.value) = bs.map roots) (hnodup : (bs.flatMap ids).Nodup)
    (hlt : ∀ x ∈ bs.flatMap ids, x < f.nodes.size) (hshows : ∀ b ∈ bs, f.Shows b) :
    ∃ p, TagPieces n closed text as (bs.map own) p ∧
      (f.addPieces place (tagPieces text closed as)).2 = p.map Piece.id ∧
      Puts (bs.flatMap roots) f (f.addPieces place (tagPieces text closed as)).1 p := by
  induction as generalizing f text bs with
  | nil =>
    obtain rfl : bs = [] := List.map_eq_nil_iff.mp hbs.symm
    exact ⟨_, ⟨f.nodes.size, hn, rfl⟩, rfl, .added f (text ++ tagEnd closed) place⟩
  | cons a as ih =>
    obtain ⟨name, value, span⟩ := a
    cases value with
    | none => exact ih f hn (text ++ " " ++ name) bs hbs hnodup hlt hshows
    | some v =>
      cases bs with
      | nil => exact absurd hbs (by simp)
      | cons b bs =>
        obtain ⟨hv, hbs⟩ : v = roots b ∧ as.filterMap (·.value) = bs.map roots := by
          simpa using hbs
        rw [List.flatMap_cons] at hnodup hlt ⊢
        obtain ⟨hnb, hnbs, hdisj⟩ := List.nodup_append'.mp hnodup
        obtain ⟨hltb, hltbs⟩ := List.forall_mem_append.mp hlt
        obtain ⟨hshowsb, hshowsbs⟩ := List.forall_mem_cons.mp hshows
        -- the text before the value is one more node, and the values are as they were
        have htext := Puts.added f (text ++ " " ++ name ++ "=\"") place
        obtain ⟨f', hf'⟩ : ∃ f', f' = (f.add (.text (text ++ " " ++ name ++ "=\"")) place).1 := ⟨_, rfl⟩
        rw [← hf'] at htext
        have hsize := htext.changes.size_le
        -- its nodes are put where they are, and nothing is added for them
        have hvalue : Puts (roots b) f' f' (Piece.echoAfter false (own b)) := by
          refine .kept ?_ (hnb.sublist (roots_sublist_ids b)) (ShowsOwn.echoAfter ?_ false)
          · rw [Piece.map_id_echoAfter, map_id_own]
          · exact showsOwn_own (htext.changes.shows hshowsb hltb (List.disjoint_nil_left _))
        obtain ⟨qs, hqs, hids, hrest⟩ := ih f' (Nat.le_trans hn hsize) "\"" bs hbs hnbs
          (fun x hx => Nat.lt_of_lt_of_le (hltbs x hx) hsize)
          (fun c hc => htext.changes.shows (hshowsbs c hc)
            (fun x hx => hltbs x (List.mem_flatMap.mpr ⟨c, hc, hx⟩)) (List.disjoint_nil_left _))
        -- so a value takes one new node, then its own nodes, and then what is made of the other attributes
        have hrun : f.addPieces place (tagPieces text closed (⟨name, some v, span⟩ :: as))
            = ((f'.addPieces place (tagPieces "\"" closed as)).1,
              f.nodes.size :: (roots b ++ qs.map Piece.id)) := by
          rw [← hv, ← hids, hf']
          rfl
        rw [hrun]
        refine ⟨_, ⟨f.nodes.size, qs, hn, hqs, rfl⟩, ?_, ?_⟩
        · rw [List.map_cons, List.map_append, Piece.map_id_echoAfter, map_id_own]
          rfl
        · have hsub : bs.flatMap roots ⊆ bs.flatMap ids := fun x hx => by
            obtain ⟨c, hc, hxc⟩ := List.mem_flatMap.mp hx
            exact List.mem_flatMap.mpr ⟨c, hc, roots_subset_ids c hxc⟩
          have hltroots : ∀ x ∈ roots b ++ bs.flatMap roots, x < f.nodes.size :=
            List.forall_mem_append.mpr ⟨fun x hx => hltb x (roots_subset_ids b hx), fun x hx => hltbs x (hsub hx)⟩
          have hdisj' : (roots b).Disjoint (bs.flatMap roots) := fun x hx hxs =>
            hdisj (roots_subset_ids b hx) (hsub hxs)
          obtain ⟨hltb', hltbs'⟩ := List.forall_mem_append.mp fun x hx => Nat.lt_of_lt_of_le (hltroots x hx) hsize
          have hmore := hvalue.append hrest hdisj' hltb' hltbs'
          exact htext.append hmore (List.disjoint_nil_left _) (fun x hx => absurd hx List.not_mem_nil) hltroots

/-- One node of a list, with whatever follows it. -/
private theorem lowerTags_cons_spec {id : NodeId} {k : NodeKind} {bs : List Forest} {ts : Forest}
    (hf : f.Holds (.node id k bs :: ts)) {n : NodeId} (hn : n ≤ f.nodes.size)
    (rest : List NodeId) :
    ∃ p f', k.LowersTo n id (bs.map own) p ∧
      f.lowerTags (id :: rest)
        = ((f'.lowerTags rest).1, p.map Piece.id ++ (f'.lowerTags rest).2) ∧
      Puts (level [.node id k bs]) f f' p := by
  have hk := hf.kind_eq
  -- only tags are written out; any other node is a piece by itself
  cases k with
  | text s =>
    exact ⟨[.text id s ""], f, rfl, by simp only [lowerTags, hk]; rfl,
      .kept rfl (List.nodup_singleton id) (showsOwn_text hk)⟩
  | closeTag name =>
    -- a closing tag is one text
    obtain ⟨p, hp, hids, hputs⟩ := addPieces_spec f (f.span id) n hn false
      ("</" ++ name) [] [] rfl List.nodup_nil (fun x hx => absurd hx List.not_mem_nil)
      (fun b hb => absurd hb List.not_mem_nil)
    refine ⟨p, _, hp, ?_, hputs.mono (List.nil_subset _)⟩
    rw [← hids]
    simp only [lowerTags, hk]
    rfl
  | openTag name as closed =>
    obtain ⟨p, hp, hids, hputs⟩ := addPieces_spec f (f.span id) n hn closed
      ("<" ++ name) as bs hf.bodies_eq hf.nodup_inside
      (fun x hx => hf.inside.lt_size x (by rwa [ids_flatten]))
      (fun b hb => (hf.body hb).shows_nodes)
    refine ⟨p, _, hp, ?_, hputs.mono fun x hx => List.mem_append_left _ hx⟩
    rw [← hids]
    simp only [lowerTags, hk]
  | _ =>
    refine ⟨[_], f, rfl, by simp only [lowerTags, hk]; rfl,
      .kept rfl (List.nodup_singleton id) (showsOwn_other fun s => ?_)⟩
    rw [NodeTree.id_node, hk]
    simp

/-- **The tags of a list.** They are written out, and the nodes of the list that are no tags stay in
their places. -/
theorem lowerTags_spec {ts : Forest} (hf : f.Holds ts) {n : NodeId} (hn : n ≤ f.nodes.size) :
    ∃ ps, Outlined n ts ps ∧ (f.lowerTags (roots ts)).2 = ps.map Piece.id ∧
      Puts (level ts) f (f.lowerTags (roots ts)).1 ps := by
  induction ts generalizing f with
  | nil =>
    refine ⟨[], rfl, rfl, .kept rfl List.nodup_nil ⟨?_, ?_⟩⟩
    · exact fun _ _ _ hm => absurd hm List.not_mem_nil
    · exact fun _ _ hm => absurd hm List.not_mem_nil
  | cons t ts ih =>
    obtain ⟨id, k, bs⟩ := t
    obtain ⟨p, f', hp, hrun, hputs⟩ := lowerTags_cons_spec hf hn (roots ts)
    have hchange := hputs.changes
    -- the rest of the list is as it was
    have hf' : f'.Holds ts := hf.tail.of_shows hchange.size_le
      (hchange.shows hf.tail.shows_nodes hf.tail.lt_size (List.disjoint_nil_left _))
    obtain ⟨q, hq, hids, hputs'⟩ := ih hf' (Nat.le_trans hn hchange.size_le)
    have hlevel : level (.node id k bs :: ts) = level [.node id k bs] ++ level ts := by
      cases k <;> simp [level]
    -- what the first node puts is in it, so the rest is apart from it
    have hsub : level [.node id k bs] ⊆ id :: bs.flatMap ids := fun x hx => by
      have hxi := level_subset_ids _ hx
      rwa [ids_cons, ids_nil, List.append_nil] at hxi
    have hhead : ∀ x ∈ level [.node id k bs], x < f.nodes.size := fun x hx => by
      refine hf.lt_size x ?_
      rw [ids_cons, ← List.cons_append]
      exact List.mem_append_left _ (hsub hx)
    rw [roots_cons, NodeTree.id_node, hrun, hids, hlevel]
    refine ⟨p ++ q, ⟨p, q, hp, hq, rfl⟩, (List.map_append).symm, hputs.append hputs' (fun x hx hxt => ?_) hhead
      (fun x hx => hf.tail.lt_size x (level_subset_ids ts hx))⟩
    exact hf.disjoint_head_tail (hsub hx) (level_subset_ids ts hxt)

/-- A list without tags stays as it is. -/
theorem lowerTags_of_fitsValue {xs : List NodeId} (h : ∀ x ∈ xs, (f.kind x).fitsValue = true) :
    f.lowerTags xs = (f, xs) := by
  induction xs with
  | nil => rfl
  | cons x xs ih =>
    obtain ⟨hx, hxs⟩ := List.forall_mem_cons.mp h
    cases hk : f.kind x with
    | openTag | closeTag => exact absurd hx (by simp [hk, NodeKind.fitsValue])
    | _ => simp only [lowerTags, hk, ih hxs]; rfl

end Tags

/-! ### The edit of one list -/

/-- **The state of a list between its edit and the visits of its nodes.** The texts of the list may
have been joined to others; everything else is as it was. -/
def Ready (g : TemplateFile) (b : Forest) : Prop :=
  ∀ t ∈ subtrees b, g.kind t.id = t.kind ∨
    (t.id ∈ level b ∧ (∃ s, t.kind = .text s) ∧ ∃ u, g.kind t.id = .text u)

namespace Ready

variable {f g g' : TemplateFile} {id : NodeId} {k : NodeKind} {bs : List Forest} {b ts : Forest}
  {ps : List Piece}

/-- A list that nothing was done to is ready. -/
theorem of_shows (h : g.Shows b) : g.Ready b := fun t ht => Or.inl (h t ht)

/-- Only the kinds below the list matter. -/
theorem congr (h : g.Ready b) (hkind : ∀ x ∈ ids b, g'.kind x = g.kind x) : g'.Ready b := by
  intro t ht
  rw [hkind t.id (List.mem_map_of_mem ht)]
  exact h t ht

/-- What holds of a list holds of a part of it whose texts are no others. -/
private theorem of_part (h : g.Ready b) (hsub : subtrees ts ⊆ subtrees b)
    (hlevel : ∀ x ∈ ids ts, x ∈ level b → x ∈ level ts) : g.Ready ts := fun t ht =>
  (h t (hsub ht)).imp_right fun ⟨hl, hrest⟩ => ⟨hlevel t.id (List.mem_map_of_mem ht) hl, hrest⟩

/-- What stands behind a node is ready as well. -/
theorem tail (h : g.Ready (.node id k bs :: ts)) (hf : f.Holds (.node id k bs :: ts)) :
    g.Ready ts := by
  refine h.of_part (fun t ht => ?_) fun x hx hl => ?_
  · rw [subtrees_cons]
    exact List.mem_cons_of_mem _ (List.mem_append_right _ ht)
  -- a text that was joined stands in the list itself, so it is no node of the first tag
  · cases k with
    | openTag name as closed =>
      refine (List.mem_append.mp hl).resolve_left fun hroot => ?_
      obtain ⟨b, hb, hxb⟩ := List.mem_flatMap.mp hroot
      exact hf.disjoint_body_tail hb (roots_subset_ids b hxb) hx
    | _ =>
      refine (List.mem_cons.mp hl).resolve_left fun he => ?_
      exact hf.root_notMem_tail (he ▸ hx)

/-- The value of an attribute stands in the list of the tag. -/
theorem value {name : String} {as : List Attribute} {closed : Bool}
    (h : g.Ready (.node id (.openTag name as closed) bs :: ts))
    (hf : f.Holds (.node id (.openTag name as closed) bs :: ts)) (hb : b ∈ bs)
    (hfit : FitsValue b) : g.Ready b := by
  refine h.of_part (fun t ht => ?_) fun x hx hl => ?_
  · rw [subtrees_cons]
    exact List.mem_cons_of_mem _ (List.mem_append_left _ (List.mem_flatMap.mpr ⟨b, hb, ht⟩))
  · rw [level_eq_roots hfit]
    rcases List.mem_append.mp hl with hl | hl
    · obtain ⟨c, hc, hxc⟩ := List.mem_flatMap.mp hl
      -- no node stands in two values, so the list it is in is this one
      have hcb : c = b := by
        by_contra hne
        exact hf.disjoint_bodies hc hb hne (roots_subset_ids c hxc) hx
      exact hcb ▸ hxc
    · exact absurd (level_subset_ids ts hl) fun hxt => hf.disjoint_body_tail hb hx hxt

/-- A text is one still, with whatever was joined to it. -/
theorem head_text {s : String} (h : g.Ready (.node id (.text s) bs :: ts)) :
    ∃ u, g.kind id = .text u := by
  rcases h _ (mem_subtrees_self List.mem_cons_self) with hk | ⟨-, -, htext⟩
  · exact ⟨s, hk⟩
  · exact htext

/-- Any other node is as it was. -/
theorem head (h : g.Ready (.node id k bs :: ts)) (hk : ∀ s, k ≠ .text s) : g.kind id = k := by
  rcases h _ (mem_subtrees_self List.mem_cons_self) with hkind | ⟨_, ⟨s, hs⟩, _⟩
  · exact hkind
  · exact absurd hs (hk s)

/-- The lists inside a node are as they were, unless the node is a tag. -/
theorem body (h : g.Ready (.node id k bs :: ts)) (hf : f.Holds (.node id k bs :: ts))
    (hk : ∀ name as closed, k ≠ .openTag name as closed) (hb : b ∈ bs) : g.Shows b := by
  intro t ht
  have htf : t ∈ subtrees (.node id k bs :: ts) := by
    rw [subtrees_cons]
    exact List.mem_cons_of_mem _ (List.mem_append_left _ (List.mem_flatMap.mpr ⟨b, hb, ht⟩))
  have hid : t.id ∈ ids b := List.mem_map_of_mem ht
  refine (h t htf).resolve_right fun ⟨hl, _⟩ => ?_
  -- what was joined stands in the list, not inside of a node that is no tag
  have hout : t.id = id ∨ t.id ∈ level ts := by
    cases k with
    | openTag name as closed => exact absurd rfl (hk name as closed)
    | _ => exact List.mem_cons.mp hl
  rcases hout with he | hl
  · exact hf.root_notMem_body hb (he ▸ hid)
  · exact hf.disjoint_body_tail hb hid (level_subset_ids ts hl)

/-- Joining the texts of a list leaves it ready. -/
theorem join (h : g.Ready b) {after : Bool} (hst : g.Standing after ps)
    (hjoin : g.Joined g' after ps) (hchange : ChangesOnly (ps.map Piece.id) g g')
    (hlt : ∀ x ∈ ids b, x < g.nodes.size)
    (hlevel : ∀ x ∈ ids b, x ∈ ps.map Piece.id → x ∈ level b) : g'.Ready b := by
  intro t ht
  have hid : t.id ∈ ids b := List.mem_map_of_mem ht
  -- a text among the pieces has become longer, and nothing else has changed
  by_cases hx : t.id ∈ ps.map Piece.id
  · obtain ⟨p, hp, hpid⟩ := List.mem_map.mp hx
    have hkeep := Piece.keepsForm_of_joined hst hjoin p hp
    cases p with
    | text i s again =>
      obtain rfl : i = t.id := hpid
      obtain ⟨u, hu⟩ := hst.kind_text hp
      refine Or.inr ⟨hlevel t.id hid hx, ?_, hkeep⟩
      rcases h t ht with hk | ⟨-, htext, -⟩
      · exact ⟨u, hk.symm.trans hu⟩
      · exact htext
    | other t' r =>
      have hsame : g'.kind t.id = g.kind t.id := by
        rw [← hpid]
        exact hkeep
      rw [hsame]
      exact h t ht
  -- no piece, so nothing was done to it
  · rw [hchange.kind_eq t.id (hlt t.id hid) hx]
    exact h t ht

end Ready

/-- A list after its first edit: the texts among the pieces had no text but their own before they were
joined. -/
structure Written (n : NodeId) (b : Forest) (ps : List Piece) (g : TemplateFile) : Prop where
  outlined : Outlined n b ps
  joined : ∃ g₀ : TemplateFile, g₀.ShowsOwn ps ∧ g₀.Joined g false ps
  ready : g.Ready b
  ids_lt : ∀ x ∈ ids b, x < g.nodes.size
  lt_size : ∀ x ∈ ps.map Piece.id, x < g.nodes.size

section Edit

variable {f g : TemplateFile} {b : Forest}

/-- **The first edit of a list.** -/
theorem lowerBody_spec (hf : f.Holds b) (hsize : f.nodes.size ≤ g.nodes.size) (hshows : g.Shows b) :
    ∃ ps, Written f.nodes.size b ps (g.lowerBody (roots b)).1 ∧
      (∀ x ∈ ps.map Piece.id, x ∈ ids b ∨ g.nodes.size ≤ x) ∧
      (g.lowerBody (roots b)).2 = roots (Piece.finishAfter false ps) ∧
      ChangesOnly (ids b) g (g.lowerBody (roots b)).1 := by
  obtain ⟨ps, hps, hids, hplaced, hown, hchange⟩ := lowerTags_spec (hf.of_shows hsize hshows) hsize
  obtain ⟨g₀, hg₀⟩ : ∃ g₀, g₀ = (g.lowerTags (roots b)).1 := ⟨_, rfl⟩
  rw [← hg₀] at hplaced hown hchange
  have hedit : g.lowerBody (roots b) = g₀.joinTextsAfter none (ps.map Piece.id) := by
    rw [← hids, hg₀]
    rfl
  have hlevel : ∀ x ∈ level b, x < g.nodes.size := fun x hx =>
    Nat.lt_of_lt_of_le (hf.lt_size x (level_subset_ids b hx)) hsize
  have hlt : ∀ x ∈ ps.map Piece.id, x < g₀.nodes.size := fun x hx =>
    hplaced.lt hlevel hchange.size_le hx
  -- the pieces are in the table, each as it is outlined
  have hst : g₀.Standing false ps := standing_of_own hown.texts hown.others
  obtain ⟨hlist, hjoin, -, hjoined⟩ := joinTextsAfter_spec g₀ none hplaced.nodup hlt
    (fun i hi => absurd hi (Option.not_mem_none i)) hst
  rw [← hedit] at hlist hjoin hjoined
  rw [Option.toList_none, List.nil_append] at hjoined
  have hltb : ∀ x ∈ ids b, x < g₀.nodes.size := fun x hx =>
    Nat.lt_of_lt_of_le (hf.lt_size x hx) (Nat.le_trans hsize hchange.size_le)
  -- writing the tags out only adds nodes, so that the list is as it was until its texts are joined
  have hready : g₀.Ready b := Ready.of_shows (hchange.shows hshows
    (fun x hx => Nat.lt_of_lt_of_le (hf.lt_size x hx) hsize) (List.disjoint_nil_left _))
  have hmem : ∀ x ∈ ps.map Piece.id, x ∈ ids b ∨ g.nodes.size ≤ x := fun x hx =>
    (hplaced.mem x hx).imp (fun hl => level_subset_ids b hl) And.left
  refine ⟨ps, ⟨hps, ⟨g₀, hown, hjoin⟩, ?_, fun x hx => ?_, fun x hx => ?_⟩, hmem, hlist, ?_⟩
  · refine hready.join hst hjoin hjoined hltb fun x hx hxp => ?_
    -- the new texts are no nodes of the list
    exact (hps.mem_level hxp).resolve_right fun hle => Nat.not_lt.mpr hle (hf.lt_size x hx)
  · exact Nat.lt_of_lt_of_le (hltb x hx) hjoined.size_le
  · exact Nat.lt_of_lt_of_le (hlt x hx) hjoined.size_le
  · refine ⟨Nat.le_trans hchange.size_le hjoined.size_le, fun x hx hxb => ?_,
      (hchange.trans hjoined).rest_eq⟩
    refine (hjoined.kind_eq x (Nat.lt_of_lt_of_le hx hchange.size_le) fun hxp => ?_).trans
      (hchange.kind_eq x hx List.not_mem_nil)
    rcases hmem x hxp with hxl | hle
    · exact hxb hxl
    · exact Nat.not_lt.mpr hle hx

/-- **The edit of an attribute value** whose nodes were put into the list of the tag before: the texts
are joined once more. -/
theorem lowerBody_value (hf : f.Holds b) (hsize : f.nodes.size ≤ g.nodes.size) (hfit : FitsValue b)
    (hready : g.Ready b) (hst : g.Standing false (own b)) :
    g.Joined (g.lowerBody (roots b)).1 false (own b) ∧ (g.lowerBody (roots b)).1.Ready b ∧
      ChangesOnly (ids b) g (g.lowerBody (roots b)).1 := by
  -- a text that was joined to is still a text
  have hkinds : ∀ x ∈ roots b, (g.kind x).fitsValue = true := by
    intro x hx
    obtain ⟨t, ht, rfl⟩ := List.mem_map.mp hx
    rcases hready t (mem_subtrees_self ht) with hk | ⟨-, -, u, hu⟩
    · rw [hk]
      exact hfit t ht
    · rw [hu]
      rfl
  -- there are no tags in a value, so this edit only joins texts
  have hedit : g.lowerBody (roots b) = g.joinTextsAfter none ((own b).map Piece.id) := by
    rw [lowerBody, lowerTags_of_fitsValue hkinds, map_id_own]
    rfl
  have hlt : ∀ x ∈ ids b, x < g.nodes.size := fun x hx => Nat.lt_of_lt_of_le (hf.lt_size x hx) hsize
  have hroots : (own b).map Piece.id ⊆ ids b := by
    rw [map_id_own]
    exact roots_subset_ids b
  obtain ⟨-, hjoin, -, hjoined⟩ := joinTextsAfter_spec g none
    (by rw [map_id_own]; exact hf.nodup.sublist (roots_sublist_ids b))
    (fun x hx => hlt x (hroots hx)) (fun i hi => absurd hi (Option.not_mem_none i)) hst
  rw [← hedit] at hjoin hjoined
  rw [Option.toList_none, List.nil_append] at hjoined
  refine ⟨hjoin, hready.join hst hjoin hjoined hlt fun x _ hx => ?_, hjoined.mono hroots⟩
  rwa [level_eq_roots hfit, ← map_id_own]

end Edit

end TemplateFile

end TemplateFrontend
