import TemplateFrontend.Proofs.Transform.Pieces
import TemplateFrontend.Transform.Simplify
import Mathlib.Data.List.Flatten
/-!
# Simplified forests

What simplification makes of a forest, as a recursion over the forest:

* `NodeKind.verdict` — what becomes of a node: a text, a node that is kept, nothing, or the nodes of
  the one list that constants leave;
* `NodeKind.live` — of the lists of a node, those that constants leave;
* `Forest.simplified` — the pieces that simplification makes of a list of nodes;
* `Forest.ids_simplified` — they are nodes of the list, in order;
* `TemplateFile.simplifyNode_spec` — a step of the simplification in the table follows the verdict.
-/

namespace TemplateFrontend

/-- What simplification makes of a node. -/
inductive Verdict where
  /-- A text with these characters. -/
  | text (s : String)
  /-- A node of this kind, with the lists inside it simplified in turn. -/
  | kept (k : NodeKind)
  /-- No node. -/
  | dropped
  /-- The nodes of a list inside it. -/
  | spliced

/-- Whether the condition of a branch holds, if that is constant. -/
def Branch.constant? (b : Branch) : Option Bool := b.cond.literal?.map Literal.isTrue

/-- Of the lists of a branching command, one for each branch and perhaps one more for what happens
otherwise, those that constant conditions leave. -/
def liveLists {α : Type} : List Branch → List α → List α
  | b :: bs, l :: ls =>
    match b.constant? with
    | some true => [l]
    | some false => liveLists bs ls
    | none => l :: liveLists bs ls
  | _, ls => ls

/-! ### Branches without constant conditions -/

/-- A branch with a constant condition is the last one, or is left out. -/
theorem prune_cons (b : Branch) (bs : List Branch) (o : Option (List NodeId)) :
    prune (b :: bs) o =
      match b.constant? with
      | some true => ([], some b.body)
      | some false => prune bs o
      | none => (b :: (prune bs o).1, (prune bs o).2) := by
  unfold Branch.constant?
  cases hb : b.cond.literal? with
  | none => simp [prune, hb]
  | some v => cases hv : v.isTrue <;> simp [prune, hb, hv]

/-- The branches that are left come in their order. -/
theorem prune_fst_sublist (bs : List Branch) (o : Option (List NodeId)) :
    (prune bs o).1.Sublist bs := by
  induction bs with
  | nil => exact .refl _
  | cons b bs ih =>
    rw [prune]
    split
    · split
      · exact List.nil_sublist _
      · exact ih.cons b
    · exact ih.cons_cons b

/-- Without constant conditions all branches are left. -/
theorem prune_of_no_constants {bs : List Branch} (h : ∀ b ∈ bs, b.cond.literal? = none)
    (o : Option (List NodeId)) : prune bs o = (bs, o) := by
  induction bs with
  | nil => rfl
  | cons b bs ih =>
    rw [prune, h b List.mem_cons_self, ih fun c hc => h c (List.mem_cons_of_mem _ hc)]

/-- After pruning there is nothing to prune. -/
theorem prune_prune (bs : List Branch) (o : Option (List NodeId)) :
    prune (prune bs o).1 (prune bs o).2 = prune bs o :=
  prune_of_no_constants (fun _ hb => (prune_cond hb).2) _

/-- Pruning leaves the live lists. -/
theorem bodies_prune (bs : List Branch) (o : Option (List NodeId)) :
    (prune bs o).1.map (·.body) ++ (prune bs o).2.toList
      = liveLists bs (bs.map (·.body) ++ o.toList) := by
  induction bs with
  | nil => rfl
  | cons b bs ih =>
    rw [List.map_cons, List.cons_append, prune_cons, liveLists]
    cases b.constant? with
    | none => rw [List.map_cons, List.cons_append, ih]
    | some v =>
      cases v with
      | true => rfl
      | false => exact ih

/-- Which lists are live does not depend on what is in them. -/
theorem liveLists_map {α β : Type} (g : α → β) (bs : List Branch) (ls : List α) :
    liveLists bs (ls.map g) = (liveLists bs ls).map g := by
  induction bs generalizing ls with
  | nil => cases ls <;> rfl
  | cons b bs ih =>
    cases ls with
    | nil => rfl
    | cons l ls =>
      rw [List.map_cons, liveLists, liveLists]
      -- an open condition keeps its list, a true one ends the search, a false one drops its list
      cases b.constant? with
      | none => rw [List.map_cons, ih]
      | some v =>
        cases v with
        | true => rfl
        | false => exact ih ls

/-- The live lists come in their order. -/
theorem liveLists_sublist {α : Type} (bs : List Branch) (ls : List α) :
    (liveLists bs ls).Sublist ls := by
  induction bs generalizing ls with
  | nil => cases ls <;> exact List.Sublist.refl _
  | cons b bs ih =>
    cases ls with
    | nil => exact List.Sublist.refl _
    | cons l ls =>
      rw [liveLists]
      -- kept, kept as the last one, or dropped
      cases b.constant? with
      | none => exact (ih ls).cons_cons l
      | some v =>
        cases v with
        | true => exact (List.nil_sublist ls).cons_cons l
        | false => exact (ih ls).cons l

/-- As many lists are live as in any other lists of this number. -/
theorem length_liveLists {α β : Type} (bs : List Branch) {ls : List α} {ms : List β}
    (h : ls.length = ms.length) : (liveLists bs ls).length = (liveLists bs ms).length := by
  -- both lists are images of the places in them
  have hplaces : ∀ {γ : Type} (xs : List γ),
      (liveLists bs xs).length = (liveLists bs (List.replicate xs.length ())).length := by
    intro γ xs
    rw [← List.map_const', liveLists_map, List.length_map]
  rw [hplaces ls, hplaces ms, h]

namespace NodeKind

/-- Of the lists of a node, those that constants leave. -/
def live {α : Type} (k : NodeKind) (ls : List α) : List α :=
  match k with
  | .conditional branches _ => liveLists branches ls
  | _ => ls

/-- What simplification makes of a node of this kind. -/
def verdict : NodeKind → Verdict
  | .text s => .text s
  | .conditional branches otherwise =>
    match prune branches otherwise with
    | ([], _) => .spliced
    | (branches, otherwise) => .kept (.conditional branches otherwise)
  | .print e [] =>
    match e.literal? with
    | none => .kept (.print e [])
    | some v =>
      if needsEscaping v.output then .kept (.print e [])
      else if v.output = "" then .dropped else .text v.output
  | k => .kept k

section Live

variable {α β : Type} (k : NodeKind)

/-- Which lists of a node are live does not depend on what is in them. -/
theorem live_map (g : α → β) (ls : List α) : k.live (ls.map g) = (k.live ls).map g := by
  unfold live
  split
  · exact liveLists_map g _ ls
  · rfl

/-- The live lists of a node come in their order. -/
theorem live_sublist (ls : List α) : (k.live ls).Sublist ls := by
  unfold live
  split
  · exact liveLists_sublist _ ls
  · exact List.Sublist.refl _

/-- As many lists of a node are live as in any other lists of this number. -/
theorem length_live {ls : List α} {ms : List β} (h : ls.length = ms.length) :
    (k.live ls).length = (k.live ms).length := by
  unfold live
  split
  · exact length_liveLists _ h
  · exact h

end Live

/-! ### Verdicts -/

/-- A node that becomes a text is a text or the print of a constant. -/
theorem verdict_eq_text {k : NodeKind} {s : String} (h : k.verdict = .text s) :
    k = .text s ∨ ∃ e v, k = .print e [] ∧ e.literal? = some v ∧ v.output = s := by
  unfold verdict at h
  split at h
  · exact Or.inl (congrArg NodeKind.text (Verdict.text.inj h))
  · split at h <;> exact absurd h (by simp)
  -- the print of a constant that is neither kept for its characters nor empty
  · next e =>
    split at h
    · exact absurd h (by simp)
    · next v hv =>
      split at h
      · exact absurd h (by simp)
      · split at h
        · exact absurd h (by simp)
        · exact Or.inr ⟨e, v, rfl, hv, Verdict.text.inj h⟩
  · exact absurd h (by simp)

/-- A node that is dropped is the print of a constant without characters. -/
theorem verdict_eq_dropped {k : NodeKind} (h : k.verdict = .dropped) :
    ∃ e v, k = .print e [] ∧ e.literal? = some v ∧ v.output = "" := by
  unfold verdict at h
  split at h
  · exact absurd h (by simp)
  · split at h <;> exact absurd h (by simp)
  · next e =>
    split at h
    · exact absurd h (by simp)
    -- a constant is dropped if its output is empty
    · next v hv =>
      split at h
      · exact absurd h (by simp)
      · split at h
        · next he => exact ⟨e, v, rfl, hv, he⟩
        · exact absurd h (by simp)
  · exact absurd h (by simp)

/-- A node that makes way for the nodes inside it is a branching command without conditions that are
left. -/
theorem verdict_eq_spliced {k : NodeKind} (h : k.verdict = .spliced) :
    ∃ bs o, k = .conditional bs o ∧ (prune bs o).1 = [] := by
  unfold verdict at h
  split at h
  · exact absurd h (by simp)
  · next bs o =>
    split at h
    -- only a conditional without branches is spliced
    · next hp => exact ⟨bs, o, rfl, congrArg Prod.fst hp⟩
    · exact absurd h (by simp)
  · split at h
    · exact absurd h (by simp)
    · split at h
      · exact absurd h (by simp)
      · split at h <;> exact absurd h (by simp)
  · exact absurd h (by simp)

/-- A node that is kept stays as it is, unless it is a branching command. -/
theorem verdict_eq_kept {k k' : NodeKind} (h : k.verdict = .kept k') :
    (k' = k ∧ (∀ s, k ≠ .text s) ∧ ∀ bs o, k ≠ .conditional bs o) ∨
      ∃ bs o, k = .conditional bs o ∧ k' = .conditional (prune bs o).1 (prune bs o).2 := by
  unfold verdict at h
  split at h
  · exact absurd h (by simp)
  -- a conditional that is kept has the branches that are left
  · next bs o =>
    split at h
    · exact absurd h (by simp)
    · next hp =>
      refine Or.inr ⟨bs, o, rfl, ?_⟩
      rw [hp]
      exact (Verdict.kept.inj h).symm
  -- a print that is kept is kept as it is
  · have hk : ∀ {e : Expr}, k' = .print e [] → k' = .print e [] ∧
        (∀ s, NodeKind.print e [] ≠ .text s) ∧ ∀ bs o, NodeKind.print e [] ≠ .conditional bs o :=
      fun he => ⟨he, fun _ => by simp, fun _ _ => by simp⟩
    split at h
    · exact Or.inl (hk (Verdict.kept.inj h).symm)
    · split at h
      · exact Or.inl (hk (Verdict.kept.inj h).symm)
      · split at h <;> exact absurd h (by simp)
  · next htext hcond _ =>
    exact Or.inl ⟨(Verdict.kept.inj h).symm, htext, hcond⟩

@[simp] theorem verdict_template (t : Template) : (template t).verdict = .kept (.template t) := rfl

@[simp] theorem verdict_text (s : String) : (text s).verdict = .text s := rfl

/-- What is kept would be kept as it is. -/
theorem verdict_of_kept {k k' : NodeKind} (h : k.verdict = .kept k') : k'.verdict = .kept k' := by
  rcases verdict_eq_kept h with ⟨rfl, -, -⟩ | ⟨bs, o, rfl, rfl⟩
  · exact h
  · rw [verdict] at h ⊢
    rw [prune_prune]
    split at h
    · exact absurd h (by simp)
    · next hp => rw [hp]

/-- What is kept as something else is no text. -/
theorem ne_text_of_kept {k k' : NodeKind} (h : k.verdict = .kept k') (s : String) : k' ≠ .text s := by
  rintro rfl
  exact absurd (verdict_of_kept h) (by simp)

theorem bodies_of_text {k : NodeKind} {s : String} (h : k.verdict = .text s) : k.bodies = [] := by
  rcases verdict_eq_text h with rfl | ⟨e, v, rfl, -, -⟩ <;> rfl

/-- What is dropped has no lists. -/
theorem bodies_of_dropped {k : NodeKind} (h : k.verdict = .dropped) : k.bodies = [] := by
  obtain ⟨e, v, rfl, -, -⟩ := verdict_eq_dropped h
  rfl

/-- The lists of a node that is kept are the live ones. -/
theorem bodies_of_kept {k k' : NodeKind} (h : k.verdict = .kept k') :
    k'.bodies = k.live k.bodies := by
  rcases verdict_eq_kept h with ⟨rfl, -, hcond⟩ | ⟨bs, o, rfl, rfl⟩
  · unfold live
    split
    · next bs o => exact absurd rfl (hcond bs o)
    · rfl
  · exact bodies_prune bs o

/-- A node that makes way for the nodes inside it has one live list at most. -/
theorem length_live_of_spliced {α : Type} {k : NodeKind} (h : k.verdict = .spliced) {ls : List α}
    (hlen : ls.length = k.bodies.length) : (k.live ls).length ≤ 1 := by
  rw [k.length_live hlen]
  obtain ⟨bs, o, rfl, hp⟩ := verdict_eq_spliced h
  change (liveLists bs (bs.map (·.body) ++ o.toList)).length ≤ 1
  rw [← bodies_prune, hp]
  cases (prune bs o).2 <;> simp

/-- What takes the place of a branching command is the content of its live list. -/
theorem flatten_live_of_spliced {k : NodeKind} {bs : List Branch} {o : Option (List NodeId)}
    (hk : k = .conditional bs o) (hp : (prune bs o).1 = []) :
    (prune bs o).2.getD [] = (k.live k.bodies).flatten := by
  subst hk
  change _ = (liveLists bs (bs.map (·.body) ++ o.toList)).flatten
  rw [← bodies_prune, hp]
  cases (prune bs o).2 <;> simp

end NodeKind

/-! ### Simplified lists -/

/-- The pieces that simplification makes of a node, given the pieces that it makes of the lists
inside it. A list that takes the place of its node is visited again after that. -/
def NodeKind.pieces (id : NodeId) (k : NodeKind) (inner : List (List Piece)) : List Piece :=
  match k.verdict with
  | .text s => [.text id s ""]
  | .kept k' =>
    let bodies := (k.live inner).map (Piece.finishAfter false)
    [.other (.node id (k'.withBodies (bodies.map Forest.roots)) bodies)
      ((k.live inner).any (Piece.repeatsAfter false))]
  | .dropped => []
  | .spliced => Piece.echoAfter false (k.live inner).flatten

mutual

/-- The pieces that simplification makes of a node. -/
def NodeTree.simplified : NodeTree → List Piece
  | .node id k bodies => k.pieces id (Forest.simplifiedAll bodies)

/-- The pieces that simplification makes of a list of nodes. -/
def Forest.simplified : Forest → List Piece
  | [] => []
  | t :: ts => t.simplified ++ Forest.simplified ts

/-- The pieces that simplification makes of several lists. -/
def Forest.simplifiedAll : List Forest → List (List Piece)
  | [] => []
  | b :: bs => Forest.simplified b :: Forest.simplifiedAll bs

end

namespace Forest

/-- Several lists are simplified one by one. -/
theorem simplifiedAll_eq_map (bs : List Forest) : simplifiedAll bs = bs.map simplified := by
  induction bs with
  | nil => rfl
  | cons b bs ih => rw [simplifiedAll, ih, List.map_cons]

@[simp] theorem simplified_nil : simplified [] = [] := rfl

/-- The pieces of the first node, and then those of the others. -/
@[simp] theorem simplified_cons (id : NodeId) (k : NodeKind) (bs : List Forest) (ts : Forest) :
    simplified (.node id k bs :: ts) = k.pieces id (bs.map simplified) ++ simplified ts := by
  rw [simplified, NodeTree.simplified, simplifiedAll_eq_map]

/-- The pieces of a node by itself. -/
theorem simplified_singleton (id : NodeId) (k : NodeKind) (bs : List Forest) :
    simplified [.node id k bs] = k.pieces id (bs.map simplified) := by
  rw [simplified_cons, simplified_nil, List.append_nil]

/-- The simplified list as it is in the end. -/
def simplify (ts : Forest) : Forest := Piece.finishAfter false (simplified ts)

/-- Whether simplification repeats text that stays. -/
def repeatsText (ts : Forest) : Bool := Piece.repeatsAfter false (simplified ts)

section Pieces

variable {id : NodeId} {k k' : NodeKind} {s : String}

/-- A text is a piece by itself. -/
theorem pieces_of_text (h : k.verdict = .text s) (inner : List (List Piece)) :
    k.pieces id inner = [.text id s ""] := by
  rw [NodeKind.pieces, h]

/-- What is dropped leaves no piece. -/
theorem pieces_of_dropped (h : k.verdict = .dropped) (inner : List (List Piece)) :
    k.pieces id inner = [] := by
  rw [NodeKind.pieces, h]

/-- A node that is kept is a piece with its live lists simplified. -/
theorem pieces_of_kept (h : k.verdict = .kept k') (bs : List Forest) :
    k.pieces id (bs.map simplified) =
      [.other (.node id (k'.withBodies (((k.live bs).map simplify).map roots))
        ((k.live bs).map simplify)) ((k.live bs).any repeatsText)] := by
  have hbodies : (k.live (bs.map simplified)).map (Piece.finishAfter false)
      = (k.live bs).map simplify := by
    rw [k.live_map, List.map_map]
    rfl
  have hrepeats : (k.live (bs.map simplified)).any (Piece.repeatsAfter false)
      = (k.live bs).any repeatsText := by
    rw [k.live_map, List.any_map]
    rfl
  rw [NodeKind.pieces, h, ← hbodies, ← hrepeats]

/-- A node that makes way leaves nothing, or the pieces of its one live list, which is visited again. -/
theorem pieces_of_spliced (id : NodeId) (h : k.verdict = .spliced) {bs : List Forest}
    (hlen : bs.length = k.bodies.length) :
    k.live bs = [] ∧ k.pieces id (bs.map simplified) = [] ∨
      ∃ b ∈ bs, k.live bs = [b] ∧
        k.pieces id (bs.map simplified) = Piece.echoAfter false (simplified b) := by
  have hpieces : k.pieces id (bs.map simplified)
      = Piece.echoAfter false ((k.live bs).map simplified).flatten := by
    rw [NodeKind.pieces, h, k.live_map]
  have hle := k.length_live_of_spliced h hlen
  -- two live lists would be more than there are
  rcases hlive : k.live bs with _ | ⟨b, _ | ⟨c, cs⟩⟩
  · rw [hpieces, hlive]
    exact Or.inl ⟨rfl, Piece.echoAfter_nil _⟩
  · refine Or.inr ⟨b, (k.live_sublist bs).subset (hlive ▸ List.mem_singleton.mpr rfl), rfl, ?_⟩
    rw [hpieces, hlive]
    simp
  · rw [hlive] at hle
    simp at hle

/-- A piece for a node is the node itself if that is kept, or else the node makes way for it. -/
theorem cases_of_other_mem {t : NodeTree} {r : Bool} {bs : List Forest}
    (hm : Piece.other t r ∈ k.pieces id (bs.map simplified)) :
    (∃ k', k.verdict = .kept k' ∧
      t = .node id (k'.withBodies (((k.live bs).map simplify).map roots)) ((k.live bs).map simplify)) ∨
      k.verdict = .spliced := by
  cases hv : k.verdict with
  -- texts and dropped nodes leave no other node behind
  | text s =>
    rw [pieces_of_text hv, List.mem_singleton] at hm
    exact absurd hm (by simp)
  | dropped =>
    rw [pieces_of_dropped hv] at hm
    exact absurd hm List.not_mem_nil
  | kept k' =>
    rw [pieces_of_kept hv, List.mem_singleton] at hm
    exact .inl ⟨k', rfl, (Piece.other.inj hm).1⟩
  | spliced => exact .inr rfl

/-- What a node makes way for is a piece of the one list that is live. -/
theorem exists_of_other_mem_spliced {t : NodeTree} {r : Bool} {bs : List Forest}
    (hv : k.verdict = .spliced) (hlen : bs.length = k.bodies.length)
    (hm : Piece.other t r ∈ k.pieces id (bs.map simplified)) :
    ∃ b ∈ bs, k.live bs = [b] ∧ Piece.other t r ∈ simplified b := by
  rcases pieces_of_spliced id hv hlen with ⟨-, hp⟩ | ⟨b, hb, hone, hp⟩
  · rw [hp] at hm
    exact absurd hm List.not_mem_nil
  · rw [hp] at hm
    exact ⟨b, hb, hone, Piece.mem_of_other_mem_echoAfter hm⟩

end Pieces

/-- **No node is new, and none is moved.** The nodes of the pieces are nodes of the list, in the same
order. -/
theorem ids_simplified {ts : Forest} (h : Labelled ts) :
    ((simplified ts).flatMap Piece.ids).Sublist (ids ts) := by
  induction ts using Forest.induct with
  | nil => exact List.Sublist.refl _
  | cons id k bs ts ihb iht =>
    obtain ⟨hk, hbs, hts⟩ := labelled_cons.mp h
    rw [simplified_cons, List.flatMap_append, ids_cons, ← List.cons_append]
    refine List.Sublist.append ?_ (iht hts)
    cases hv : k.verdict with
    | text s =>
      rw [pieces_of_text hv]
      exact (List.nil_sublist _).cons_cons id
    | dropped =>
      rw [pieces_of_dropped hv]
      exact List.nil_sublist _
    | kept k' =>
      rw [pieces_of_kept hv, List.flatMap_singleton, Piece.ids_other, ids_cons, ids_nil,
        List.append_nil]
      -- the node itself, and below it what is left of each list
      refine List.Sublist.cons_cons id ?_
      rw [List.flatMap_map]
      refine (List.Sublist.flatMap_right _ fun b hb => ?_).trans ((k.live_sublist bs).flatMap ids)
      have hbmem := (k.live_sublist bs).subset hb
      exact (Piece.ids_finishAfter false _).trans (ihb b hbmem (hbs b hbmem))
    | spliced =>
      have hlen : bs.length = k.bodies.length := by rw [hk, List.length_map]
      -- the node itself is gone
      refine List.Sublist.cons id ?_
      rcases pieces_of_spliced id hv hlen with ⟨-, hp⟩ | ⟨b, hb, -, hp⟩
      · rw [hp]
        exact List.nil_sublist _
      · rw [hp, Piece.flatMap_ids_echoAfter]
        exact (ihb b hb (hbs b hb)).trans (sublist_flatMap ids hb)

/-- The nodes of the pieces of one node. -/
theorem ids_pieces {id : NodeId} {k : NodeKind} {bs : List Forest} {ts : Forest}
    (h : Labelled (.node id k bs :: ts)) :
    ((k.pieces id (bs.map simplified)).flatMap Piece.ids).Sublist (id :: bs.flatMap ids) := by
  have hsub := ids_simplified h.head
  rwa [simplified_singleton, ids_singleton] at hsub

/-- No node of the simplified list is new, and none is moved. -/
theorem ids_simplify {ts : Forest} (h : Labelled ts) : (ids (simplify ts)).Sublist (ids ts) :=
  (Piece.ids_finishAfter false _).trans (ids_simplified h)

/-- **The nodes that are kept.** What holds of a kept node once it holds of the nodes kept in its live
lists, holds of every node that simplification keeps. -/
theorem forall_other_simplified {P : NodeTree → Prop} {ts : Forest} (h : Labelled ts)
    (hkept : ∀ id k k' bs, .node id k bs ∈ subtrees ts → k.verdict = .kept k' →
      (∀ b ∈ k.live bs, ∀ t r, Piece.other t r ∈ simplified b → P t) →
      P (.node id (k'.withBodies (((k.live bs).map simplify).map roots)) ((k.live bs).map simplify))) :
    ∀ t r, Piece.other t r ∈ simplified ts → P t := by
  induction ts using Forest.induct with
  | nil => exact fun _ _ hm => absurd hm List.not_mem_nil
  | cons id k bs ts ihb iht =>
    obtain ⟨hk, hbs, hts⟩ := labelled_cons.mp h
    -- in the lists inside the node and in the rest by induction, each with the hypothesis for its own nodes
    have hbody : ∀ b ∈ bs, ∀ t r, Piece.other t r ∈ simplified b → P t := by
      refine fun b hb => ihb b hb (hbs b hb) fun id' k₁ k₂ bs' hm => hkept id' k₁ k₂ bs' ?_
      rw [subtrees_cons]
      exact List.mem_cons_of_mem _ (List.mem_append_left _ (List.mem_flatMap.mpr ⟨b, hb, hm⟩))
    have hrest : ∀ t r, Piece.other t r ∈ simplified ts → P t := by
      refine iht hts fun id' k₁ k₂ bs' hm => hkept id' k₁ k₂ bs' ?_
      rw [subtrees_cons]
      exact List.mem_cons_of_mem _ (List.mem_append_right _ hm)
    intro t r hm
    rw [simplified_cons, List.mem_append] at hm
    rcases hm with hm | hm
    · obtain ⟨k', hv, rfl⟩ | hv := cases_of_other_mem hm
      · refine hkept id k k' bs (by rw [subtrees_cons]; exact List.mem_cons_self) hv fun b hb => ?_
        exact hbody b ((k.live_sublist bs).subset hb)
      · have hlen : bs.length = k.bodies.length := by rw [hk, List.length_map]
        obtain ⟨b, hb, -, hm⟩ := exists_of_other_mem_spliced hv hlen hm
        exact hbody b hb t r hm
    · exact hrest t r hm

/-- The kinds in a simplified forest name the nodes that stand in it. -/
theorem labelled_simplified {ts : Forest} (h : Labelled ts) :
    ∀ t r, Piece.other t r ∈ simplified ts → Labelled [t] := by
  refine forall_other_simplified h fun id k k' bs hm hv hbs => ?_
  have hk : k.bodies = bs.map roots := h _ hm
  rw [labelled_cons]
  refine ⟨NodeKind.bodies_withBodies _ _ ?_, fun b' hb' => ?_, labelled_nil⟩
  · rw [NodeKind.bodies_of_kept hv, hk, k.live_map]
    simp
  · obtain ⟨b, hb, rfl⟩ := List.mem_map.mp hb'
    exact Piece.labelled_finishAfter _ _ (hbs b hb)

/-- The same once texts are joined. -/
theorem labelled_simplify {ts : Forest} (h : Labelled ts) : Labelled (simplify ts) :=
  Piece.labelled_finishAfter _ _ (labelled_simplified h)

/-- Templates are kept. -/
theorem simplify_cons_template (id : NodeId) (x : Template) (bs : List Forest) (ts : Forest) :
    simplify (.node id (.template x) bs :: ts) =
      .node id ((NodeKind.template x).withBodies ((bs.map simplify).map roots)) (bs.map simplify) ::
        simplify ts := by
  rw [simplify, simplified_cons, pieces_of_kept (NodeKind.verdict_template x), List.singleton_append,
    Piece.finishAfter_other]
  rfl

/-- The roots of a list of templates stay. -/
theorem roots_simplify {ts : Forest} (h : AreTemplates ts) : roots (simplify ts) = roots ts := by
  induction ts with
  | nil => rfl
  | cons t ts ih =>
    obtain ⟨x, hx⟩ := h t List.mem_cons_self
    obtain ⟨id, k, bs⟩ := t
    obtain rfl : k = .template x := hx
    rw [simplify_cons_template, roots_cons, roots_cons, ih fun t ht => h t (List.mem_cons_of_mem _ ht)]
    rfl

/-- Simplified templates are templates. -/
theorem areTemplates_simplify {ts : Forest} (h : AreTemplates ts) : AreTemplates (simplify ts) := by
  induction ts with
  | nil => exact h
  | cons t ts ih =>
    obtain ⟨x, hx⟩ := h t List.mem_cons_self
    obtain ⟨id, k, bs⟩ := t
    obtain rfl : k = .template x := hx
    rw [simplify_cons_template]
    exact List.forall_mem_cons.mpr ⟨⟨_, rfl⟩, ih fun t ht => h t (List.mem_cons_of_mem _ ht)⟩

end Forest

/-! ### One node in the table -/

namespace TemplateFile

/-- **The step of the simplification.** -/
theorem simplifyNode_spec {f : TemplateFile} {id : NodeId} (hid : id < f.nodes.size) :
    ChangesOnly [id] f (f.simplifyNode id).1 ∧
      match (f.kind id).verdict with
      | .text s => (f.simplifyNode id).2 = .kept ∧ (f.simplifyNode id).1.kind id = .text s
      | .kept k => (f.simplifyNode id).2 = .kept ∧ (f.simplifyNode id).1.kind id = k
      | .dropped => f.simplifyNode id = (f, .dropped)
      | .spliced =>
        f.simplifyNode id = (f, .spliced ((f.kind id).live (f.kind id).bodies).flatten) := by
  unfold simplifyNode
  -- only branching commands and prints are looked at any closer
  cases hk : f.kind id with
  | conditional branches otherwise =>
    dsimp only [NodeKind.verdict]
    rcases hp : prune branches otherwise with ⟨_ | ⟨b, bs⟩, o⟩
    · refine ⟨ChangesOnly.refl _ _, ?_⟩
      have hflat := NodeKind.flatten_live_of_spliced (k := .conditional branches otherwise) rfl
        (congrArg Prod.fst hp)
      rw [hp] at hflat
      exact congrArg (fun l => (f, Simplified.spliced l)) hflat
    · exact ⟨ChangesOnly.setKind (List.mem_singleton.mpr rfl) _, rfl, kind_setKind_self f _ hid⟩
  | print e directives =>
    cases directives with
    -- with directives a print is left alone
    | cons d ds => exact ⟨ChangesOnly.refl _ _, rfl, hk⟩
    | nil =>
      dsimp only [NodeKind.verdict]
      cases he : e.literal? with
      | none => exact ⟨ChangesOnly.refl _ _, rfl, hk⟩
      | some v =>
        dsimp only
        split
        · exact ⟨ChangesOnly.refl _ _, rfl, hk⟩
        · split
          · exact ⟨ChangesOnly.refl _ _, rfl⟩
          · exact ⟨ChangesOnly.setKind (List.mem_singleton.mpr rfl) _, rfl,
              kind_setKind_self f _ hid⟩
  | _ => exact ⟨ChangesOnly.refl _ _, rfl, hk⟩

end TemplateFile

end TemplateFrontend
