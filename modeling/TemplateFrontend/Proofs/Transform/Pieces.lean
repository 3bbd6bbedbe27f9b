import TemplateFrontend.Proofs.Tree.Editing
/-!
# Lists of nodes whose texts are joined

An edit that joins adjacent texts visits a list more than once when the list was spliced into another
one: the joined texts of the outer list are joined a second time in the list that they came from, and
the first of them then holds some text twice. `Piece` describes what an edit makes of one node of a
list together with what later visits append to it:

* `finishAfter` — the nodes that a list of pieces ends as;
* `echoAfter` — the pieces of a list that is visited again after its nodes were spliced;
* `repeatsAfter` — whether a text that stays in the list ends with text that is repeated;
* `Piece.shape` — what of a piece is known before the nodes below it are visited;
* `TemplateFile.joinTextsAfter_spec` — what joining the texts of a list does to the table;
* `Piece.shows_finishAfter`, `Piece.settles_echoAfter` — what the visits of the nodes of a list leave
  behind, seen from the list and from the list that it was spliced into.
-/

namespace TemplateFrontend

open Forest

/-- What an edit makes of a node of a list. -/
inductive Piece where
  /-- A text, with what later visits append to it. -/
  | text (id : NodeId) (s again : String)
  /-- A node that is no text, with everything below it as it is in the end, and whether a text
  below it holds repeated text then. -/
  | other (t : NodeTree) (repeats : Bool)

namespace Piece

/-- The number of the node. -/
def id : Piece → NodeId
  | text id _ _ => id
  | other t _ => t.id

/-- The numbers of the node and of the nodes below it. -/
def ids : Piece → List NodeId
  | text id _ _ => [id]
  | other t _ => Forest.ids [t]

@[simp] theorem id_text (i : NodeId) (s again : String) : (text i s again).id = i := rfl

@[simp] theorem id_other (t : NodeTree) (r : Bool) : (other t r).id = t.id := rfl

@[simp] theorem ids_text (i : NodeId) (s again : String) : (text i s again).ids = [i] := rfl

@[simp] theorem ids_other (t : NodeTree) (r : Bool) : (other t r).ids = Forest.ids [t] := rfl

/-- The node of a piece is one of the nodes of it. -/
theorem id_mem_ids (p : Piece) : p.id ∈ p.ids := by
  cases p with
  | text i s again => exact List.mem_singleton.mpr rfl
  | other t r => exact roots_subset_ids [t] List.mem_cons_self

/-! ### What a list ends as -/

/-- The text of the texts that a list starts with. -/
def lead : List Piece → String
  | [] => ""
  | text _ s _ :: ps => s ++ lead ps
  | other _ _ :: _ => ""

/-- The nodes that a list of pieces ends as; `after` tells that the list follows a text, which
absorbs the texts at its start. -/
def finishAfter : (after : Bool) → List Piece → Forest
  | _, [] => []
  | true, text _ _ _ :: ps => finishAfter true ps
  | false, text i s again :: ps =>
    .node i (.text (s ++ lead ps ++ again)) [] :: finishAfter true ps
  | _, other t _ :: ps => t :: finishAfter false ps

/-- The pieces of a list that is visited again after its nodes were spliced into another list: each
text that stays is joined to the texts after it once more. -/
def echoAfter : (after : Bool) → List Piece → List Piece
  | _, [] => []
  | true, text i s again :: ps => text i s again :: echoAfter true ps
  | false, text i s again :: ps => text i s (lead ps ++ again) :: echoAfter true ps
  | _, other t r :: ps => other t r :: echoAfter false ps

/-- Whether a list of pieces ends with repeated text in it. -/
def repeatsAfter : (after : Bool) → List Piece → Bool
  | _, [] => false
  | true, text _ _ _ :: ps => repeatsAfter true ps
  | false, text _ _ again :: ps => again != "" || repeatsAfter true ps
  | _, other _ r :: ps => r || repeatsAfter false ps

@[simp] theorem finishAfter_nil (after : Bool) : finishAfter after [] = [] := by cases after <;> rfl

@[simp] theorem finishAfter_other (after : Bool) (t : NodeTree) (r : Bool) (ps : List Piece) :
    finishAfter after (other t r :: ps) = t :: finishAfter false ps := by cases after <;> rfl

@[simp] theorem echoAfter_nil (after : Bool) : echoAfter after [] = [] := by cases after <;> rfl

@[simp] theorem echoAfter_other (after : Bool) (t : NodeTree) (r : Bool) (ps : List Piece) :
    echoAfter after (other t r :: ps) = other t r :: echoAfter false ps := by cases after <;> rfl

@[simp] theorem repeatsAfter_nil (after : Bool) : repeatsAfter after [] = false := by
  cases after <;> rfl

@[simp] theorem repeatsAfter_other (after : Bool) (t : NodeTree) (r : Bool) (ps : List Piece) :
    repeatsAfter after (other t r :: ps) = (r || repeatsAfter false ps) := by cases after <;> rfl

/-- A second visit changes neither the nodes nor what is below them. -/
theorem map_ids_echoAfter (after : Bool) (ps : List Piece) :
    (echoAfter after ps).map ids = ps.map ids := by
  induction ps generalizing after with
  | nil => rw [echoAfter_nil]
  | cons p ps ih =>
    cases p with
    | other t r => rw [echoAfter_other, List.map_cons, List.map_cons, ih]
    | text i s again => cases after <;> simp [echoAfter, ih]

/-- A second visit keeps the nodes of the list. -/
theorem map_id_echoAfter (after : Bool) (ps : List Piece) :
    (echoAfter after ps).map id = ps.map id := by
  induction ps generalizing after with
  | nil => rw [echoAfter_nil]
  | cons p ps ih =>
    cases p with
    | other t r => rw [echoAfter_other, List.map_cons, List.map_cons, ih]
    | text i s again => cases after <;> simp [echoAfter, ih]

/-- It keeps everything below them, too. -/
theorem flatMap_ids_echoAfter (after : Bool) (ps : List Piece) :
    (echoAfter after ps).flatMap ids = ps.flatMap ids := by
  rw [List.flatMap_def, List.flatMap_def, map_ids_echoAfter]

/-- Only texts are other than before a second visit. -/
theorem mem_of_other_mem_echoAfter {after : Bool} {ps : List Piece} {t : NodeTree} {r : Bool}
    (h : other t r ∈ echoAfter after ps) : other t r ∈ ps := by
  induction ps generalizing after with
  | nil => simp at h
  | cons p ps ih =>
    cases p with
    | other t' r' =>
      rw [echoAfter_other, List.mem_cons] at h
      exact List.mem_cons.mpr (h.imp_right ih)
    | text i s again =>
      -- the text in front is another piece, whether it is joined or not
      refine List.mem_cons_of_mem _ ?_
      cases after with
      | true => exact ih ((List.mem_cons.mp h).resolve_left (by simp))
      | false => exact ih ((List.mem_cons.mp h).resolve_left (by simp))

/-- A text after a second visit was one before it, with the same text of its own. -/
theorem mem_of_text_mem_echoAfter {after : Bool} {ps : List Piece} {i : NodeId} {s again : String}
    (h : text i s again ∈ echoAfter after ps) : ∃ again', text i s again' ∈ ps := by
  induction ps generalizing after with
  | nil => simp at h
  | cons p ps ih =>
    cases p with
    -- the text is behind the node
    | other t r =>
      rw [echoAfter_other, List.mem_cons] at h
      obtain ⟨again', hm⟩ := ih (h.resolve_left (by simp))
      exact ⟨again', List.mem_cons_of_mem _ hm⟩
    | text j t old =>
      -- whether it follows a text or not, the first one is kept and the rest follows a text
      have hcases : (i = j ∧ s = t) ∨ text i s again ∈ echoAfter true ps := by
        cases after with
        | true => exact (List.mem_cons.mp h).imp_left fun he => by simp_all
        | false => exact (List.mem_cons.mp h).imp_left fun he => by simp_all
      rcases hcases with ⟨rfl, rfl⟩ | hm
      · exact ⟨old, List.mem_cons_self⟩
      · obtain ⟨again', hm⟩ := ih hm
        exact ⟨again', List.mem_cons_of_mem _ hm⟩

/-- The nodes that a list ends as are nodes of its pieces, in order. -/
theorem ids_finishAfter (after : Bool) (ps : List Piece) :
    (Forest.ids (finishAfter after ps)).Sublist (ps.flatMap ids) := by
  induction ps generalizing after with
  | nil => rw [finishAfter_nil]; exact List.Sublist.refl _
  | cons p ps ih =>
    rw [List.flatMap_cons]
    cases p with
    | other t r =>
      rw [finishAfter_other, ← List.singleton_append, Forest.ids_append]
      exact (List.Sublist.refl _).append (ih false)
    | text i s again =>
      cases after with
      -- a text that follows another one is not in the list any more
      | true => exact (ih true).cons i
      | false =>
        rw [finishAfter, Forest.ids_cons]
        exact (ih true).cons_cons i

/-- The nodes of a list are among the nodes of its pieces. -/
theorem map_id_sublist (ps : List Piece) : (ps.map id).Sublist (ps.flatMap ids) := by
  induction ps with
  | nil => exact List.Sublist.refl _
  | cons p ps ih =>
    rw [List.map_cons, List.flatMap_cons, ← List.singleton_append]
    exact (List.singleton_sublist.mpr p.id_mem_ids).append ih

/-- The nodes that a list of pieces ends as are texts and the other nodes of the pieces. -/
theorem mem_finishAfter {after : Bool} {ps : List Piece} {u : NodeTree} (hu : u ∈ finishAfter after ps) :
    (∃ i s, u = .node i (.text s) []) ∨ ∃ r, other u r ∈ ps := by
  induction ps generalizing after with
  | nil =>
    rw [finishAfter_nil] at hu
    exact absurd hu List.not_mem_nil
  | cons p ps ih =>
    -- found in the rest, wherever that starts
    have hrest : ∀ after, u ∈ finishAfter after ps →
        (∃ i s, u = .node i (.text s) []) ∨ ∃ r, other u r ∈ p :: ps := fun _ hm =>
      (ih hm).imp_right fun ⟨r, hr⟩ => ⟨r, List.mem_cons_of_mem _ hr⟩
    cases p with
    | other t r =>
      rw [finishAfter_other] at hu
      rcases List.mem_cons.mp hu with rfl | hu
      · exact Or.inr ⟨r, List.mem_cons_self⟩
      · exact hrest false hu
    | text i s again =>
      cases after with
      | true => exact hrest true hu
      | false =>
        -- the joined text, or a node of the rest
        rcases List.mem_cons.mp hu with rfl | hu
        · exact Or.inl ⟨i, _, rfl⟩
        · exact hrest true hu

/-- What holds of a text, and of every node below the other pieces, holds of every node of the list that the
pieces end as. -/
theorem forall_subtrees_finishAfter {P : NodeTree → Prop} {ps : List Piece}
    (htext : ∀ i s, P (.node i (.text s) []))
    (h : ∀ t r, other t r ∈ ps → ∀ u ∈ subtrees [t], P u) (after : Bool) :
    ∀ u ∈ subtrees (finishAfter after ps), P u := by
  refine forall_subtrees_iff.mpr fun t ht => ?_
  obtain ⟨i, s, rfl⟩ | ⟨r, hr⟩ := mem_finishAfter ht
  · exact List.forall_mem_singleton.mpr (htext i s)
  · exact h t r hr

/-- The list that pieces end as is labelled if the nodes that are no texts are; a text has no lists. -/
theorem labelled_finishAfter (after : Bool) (ps : List Piece)
    (h : ∀ t r, other t r ∈ ps → Labelled [t]) : Labelled (finishAfter after ps) :=
  forall_subtrees_finishAfter (fun _ _ => rfl) h after

end Piece

/-! ### Shapes -/

namespace Piece

/-- What a table shows of a piece at first: the number of the node and its text, if it is one. -/
def shape : Piece → NodeId × Option String
  | text i s _ => (i, some s)
  | other t _ => (t.id, none)

section Shape

variable {after : Bool} {ps qs : List Piece}

/-- A second visit does not change the shape. -/
theorem shape_echoAfter (after : Bool) (ps : List Piece) :
    (echoAfter after ps).map shape = ps.map shape := by
  induction ps generalizing after with
  | nil => rw [echoAfter_nil]
  | cons p ps ih =>
    cases p with
    | other t r => rw [echoAfter_other, List.map_cons, List.map_cons, ih]
    -- a second visit appends to texts, and shapes leave out what is appended
    | text i s again =>
      cases after with
      | true => rw [echoAfter, List.map_cons, List.map_cons, ih]
      | false =>
        rw [echoAfter, List.map_cons, List.map_cons, ih]
        rfl

/-- Of one shape with a text is the same text, which may repeat something else. -/
theorem shape_text {i : NodeId} {s again : String} {p : Piece}
    (h : p.shape = (text i s again).shape) : ∃ again', p = text i s again' := by
  cases p with
  | other t r => exact absurd (congrArg Prod.snd h) (by simp [shape])
  | text j u again' =>
    obtain ⟨rfl, hu⟩ := Prod.mk.inj h
    exact ⟨again', by rw [Option.some.inj hu]⟩

/-- Of one shape with another node is a node of the same number. -/
theorem shape_other {t : NodeTree} {r : Bool} {p : Piece} (h : p.shape = (other t r).shape) :
    ∃ t' r', p = other t' r' ∧ t'.id = t.id := by
  cases p with
  | other t' r' => exact ⟨t', r', rfl, congrArg Prod.fst h⟩
  | text => exact absurd (congrArg Prod.snd h) (by simp [shape])

/-- Lists of one shape have the same nodes. -/
theorem map_id_of_shape (h : ps.map shape = qs.map shape) : ps.map id = qs.map id := by
  have hid : ∀ p : Piece, p.shape.1 = p.id := fun p => by cases p <;> rfl
  have hmap : ∀ ps : List Piece, ps.map id = (ps.map shape).map Prod.fst := fun ps => by
    rw [List.map_map]
    exact List.map_congr_left fun p _ => (hid p).symm
  rw [hmap, hmap, h]

/-- Two lists of the same shape, the nodes one by one. -/
theorem shapes_cons {p : Piece} (h : (p :: ps).map shape = qs.map shape) :
    ∃ q qs', qs = q :: qs' ∧ q.shape = p.shape ∧ ps.map shape = qs'.map shape := by
  obtain ⟨q, qs', hqs, hq, hrest⟩ := List.map_eq_cons_iff.mp h.symm
  exact ⟨q, qs', hqs, hq, hrest.symm⟩

/-- Lists of one shape start with the same texts. -/
theorem lead_of_shape (h : ps.map shape = qs.map shape) : lead ps = lead qs := by
  induction ps generalizing qs with
  | nil =>
    obtain rfl : qs = [] := List.map_eq_nil_iff.mp h.symm
    rfl
  | cons p ps ih =>
    obtain ⟨q, qs, rfl, hq, hrest⟩ := shapes_cons h
    cases p with
    | text i s again =>
      -- the texts at the start are the same, and both lists stop at the same place
      obtain ⟨again', rfl⟩ := shape_text hq
      exact congrArg (s ++ ·) (ih hrest)
    | other t r =>
      obtain ⟨t', r', rfl, -⟩ := shape_other hq
      rfl

/-- Lists of one shape end with the same roots. -/
theorem roots_finishAfter_of_shape (h : ps.map shape = qs.map shape) :
    roots (finishAfter after ps) = roots (finishAfter after qs) := by
  induction ps generalizing qs after with
  | nil =>
    obtain rfl : qs = [] := List.map_eq_nil_iff.mp h.symm
    rfl
  | cons p ps ih =>
    obtain ⟨q, qs, rfl, hq, hrest⟩ := shapes_cons h
    cases p with
    | text i s again =>
      obtain ⟨again', rfl⟩ := shape_text hq
      -- whether a text stays depends on what stands before it only
      have hroots : roots (finishAfter true ps) = roots (finishAfter true qs) := ih hrest
      cases after with
      | true => exact hroots
      | false => exact congrArg (i :: ·) hroots
    | other t r =>
      obtain ⟨t', r', rfl, hid⟩ := shape_other hq
      rw [finishAfter_other, finishAfter_other, roots_cons, roots_cons, ih hrest, hid]

end Shape

end Piece

/-! ### Pieces in the table -/

namespace TemplateFile

/-- The pieces as they stand before their texts are joined: the texts among them are texts in the
table, and those that follow a text have no text but their own. -/
def Standing (f : TemplateFile) : (after : Bool) → List Piece → Prop
  | _, [] => True
  | after, .text i s _ :: ps =>
    (∃ u, f.kind i = .text u ∧ (after = true → u = s)) ∧ f.Standing true ps
  | _, .other t _ :: ps => (∀ s, f.kind t.id ≠ .text s) ∧ f.Standing false ps

/-- From `f` to `g` the texts among the pieces were joined. -/
def Joined (f g : TemplateFile) : (after : Bool) → List Piece → Prop
  | _, [] => True
  | after, .text i _ _ :: ps =>
    (∀ u, f.kind i = .text u → g.kind i = .text (if after then u else u ++ Piece.lead ps)) ∧
      f.Joined g true ps
  | _, .other t _ :: ps => g.kind t.id = f.kind t.id ∧ f.Joined g false ps

/-- A list that follows a text asks for no less than the same list at a start. -/
theorem Standing.start {f : TemplateFile} {after : Bool} {ps : List Piece}
    (h : f.Standing after ps) : f.Standing false ps := by
  cases ps with
  | nil => trivial
  | cons p ps =>
    cases p with
    | other t r => exact h
    | text i s again =>
      obtain ⟨⟨u, hu, -⟩, hps⟩ := h
      exact ⟨⟨u, hu, fun hf => absurd hf Bool.false_ne_true⟩, hps⟩

/-- Whether pieces stand depends on their own nodes only. -/
theorem Standing.congr {f g : TemplateFile} {after : Bool} {ps : List Piece}
    (h : f.Standing after ps) (hfg : ∀ p ∈ ps, g.kind p.id = f.kind p.id) :
    g.Standing after ps := by
  induction ps generalizing after with
  | nil => trivial
  | cons p ps ih =>
    have hp := hfg p List.mem_cons_self
    have hps := fun p hp => hfg p (List.mem_cons_of_mem _ hp)
    cases p with
    | other t r =>
      rw [Piece.id_other] at hp
      exact ⟨fun s hs => h.1 s (hp.symm.trans hs), ih h.2 hps⟩
    | text i s again =>
      -- the text a node has now is read off its kind
      obtain ⟨⟨u, hu, hus⟩, hrest⟩ := h
      exact ⟨⟨u, hp.trans hu, hus⟩, ih hrest hps⟩

/-- The front of a list stands as the list does. -/
theorem Standing.left {f : TemplateFile} {after : Bool} {ps qs : List Piece}
    (h : f.Standing after (ps ++ qs)) : f.Standing after ps := by
  induction ps generalizing after with
  | nil => trivial
  | cons p ps ih =>
    cases p with
    | other t r => exact ⟨h.1, ih h.2⟩
    | text i s again => exact ⟨h.1, ih h.2⟩

/-- The rest of it stands as well, after a text or not. -/
theorem Standing.right {f : TemplateFile} {after : Bool} {ps qs : List Piece}
    (h : f.Standing after (ps ++ qs)) : ∃ after', f.Standing after' qs := by
  induction ps generalizing after with
  | nil => exact ⟨after, h⟩
  | cons p ps ih =>
    cases p with
    | other t r => exact ih h.2
    | text i s again => exact ih h.2

/-- What stands is a matter of the shape. -/
theorem Standing.of_shape {f : TemplateFile} {after : Bool} {ps qs : List Piece}
    (h : f.Standing after ps) (hshape : ps.map Piece.shape = qs.map Piece.shape) :
    f.Standing after qs := by
  induction ps generalizing qs after with
  | nil =>
    obtain rfl : qs = [] := List.map_eq_nil_iff.mp hshape.symm
    trivial
  | cons p ps ih =>
    obtain ⟨q, qs, rfl, hq, hrest⟩ := Piece.shapes_cons hshape
    cases p with
    | text i s again =>
      -- what is appended does not count here
      obtain ⟨again', rfl⟩ := Piece.shape_text hq
      exact ⟨h.1, ih h.2 hrest⟩
    | other t r =>
      obtain ⟨t', r', rfl, hid⟩ := Piece.shape_other hq
      exact ⟨hid ▸ h.1, ih h.2 hrest⟩

/-- A text among pieces that stand is a text in the table. -/
theorem Standing.kind_text {f : TemplateFile} {after : Bool} {ps : List Piece}
    (h : f.Standing after ps) {i : NodeId} {s again : String} (hm : .text i s again ∈ ps) :
    ∃ u, f.kind i = .text u := by
  induction ps generalizing after with
  | nil => exact absurd hm List.not_mem_nil
  | cons p ps ih =>
    cases p with
    | other t r => exact ih h.2 ((List.mem_cons.mp hm).resolve_left (by simp))
    | text j u again' =>
      rcases List.mem_cons.mp hm with heq | hm
      · obtain ⟨rfl, -, -⟩ := Piece.text.inj heq
        exact ⟨h.1.choose, h.1.choose_spec.1⟩
      · exact ih h.2 hm

/-- A second visit asks for no more. -/
theorem standing_echoAfter {f : TemplateFile} {after after' : Bool} {ps : List Piece} :
    f.Standing after (Piece.echoAfter after' ps) ↔ f.Standing after ps := by
  induction ps generalizing after after' with
  | nil => rw [Piece.echoAfter_nil]
  | cons p ps ih =>
    cases p with
    | other t r =>
      rw [Piece.echoAfter_other]
      exact and_congr_right fun _ => ih
    | text i s again => cases after' <;> exact and_congr_right fun _ => ih

/-- Texts with nothing but their own text stand in any place. -/
theorem standing_of_own {f : TemplateFile} {after : Bool} {ps : List Piece}
    (hown : ∀ i s again, Piece.text i s again ∈ ps → f.kind i = .text s)
    (hother : ∀ t r, Piece.other t r ∈ ps → ∀ s, f.kind t.id ≠ .text s) :
    f.Standing after ps := by
  induction ps generalizing after with
  | nil => trivial
  | cons p ps ih =>
    have hps : ∀ after, f.Standing after ps := fun _ => ih
      (fun i s again hm => hown i s again (List.mem_cons_of_mem p hm))
      (fun t r hm => hother t r (List.mem_cons_of_mem p hm))
    cases p with
    | other t r => exact ⟨hother t r List.mem_cons_self, hps false⟩
    | text i s again => exact ⟨⟨s, hown i s again List.mem_cons_self, fun _ => rfl⟩, hps true⟩

/-- Of the table after joining only the kinds of the pieces matter. -/
theorem Joined.congr {f g h : TemplateFile} {after : Bool} {ps : List Piece}
    (hj : f.Joined g after ps) (hgh : ∀ p ∈ ps, h.kind p.id = g.kind p.id) :
    f.Joined h after ps := by
  induction ps generalizing after with
  | nil => trivial
  | cons p ps ih =>
    have hp := hgh p List.mem_cons_self
    have hps := fun p hp => hgh p (List.mem_cons_of_mem _ hp)
    cases p with
    | other t r => exact ⟨hp.trans hj.1, ih hj.2 hps⟩
    | text i s again => exact ⟨fun u hu => hp.trans (hj.1 u hu), ih hj.2 hps⟩

/-- Of the table before joining only the kinds of the pieces matter. -/
theorem Joined.congr_left {f f' g : TemplateFile} {after : Bool} {ps : List Piece}
    (hj : f.Joined g after ps) (hff : ∀ p ∈ ps, f'.kind p.id = f.kind p.id) :
    f'.Joined g after ps := by
  induction ps generalizing after with
  | nil => trivial
  | cons p ps ih =>
    have hp := hff p List.mem_cons_self
    have hps := fun p hp => hff p (List.mem_cons_of_mem _ hp)
    cases p with
    | other t r => exact ⟨hj.1.trans hp.symm, ih hj.2 hps⟩
    | text i s again => exact ⟨fun u hu => hj.1 u (hp.symm.trans hu), ih hj.2 hps⟩

/-- What is joined is a matter of the shape. -/
theorem Joined.of_shape {f g : TemplateFile} {after : Bool} {ps qs : List Piece}
    (h : f.Joined g after ps) (hshape : ps.map Piece.shape = qs.map Piece.shape) :
    f.Joined g after qs := by
  induction ps generalizing qs after with
  | nil =>
    obtain rfl : qs = [] := List.map_eq_nil_iff.mp hshape.symm
    trivial
  | cons p ps ih =>
    obtain ⟨q, qs, rfl, hq, hrest⟩ := Piece.shapes_cons hshape
    cases p with
    | text i s again =>
      obtain ⟨again', rfl⟩ := Piece.shape_text hq
      refine ⟨fun u hu => ?_, ih h.2 hrest⟩
      -- the texts behind that are joined to this one are the same too
      rw [← Piece.lead_of_shape hrest]
      exact h.1 u hu
    | other t r =>
      obtain ⟨t', r', rfl, hid⟩ := Piece.shape_other hq
      exact ⟨hid ▸ h.1, ih h.2 hrest⟩

/-- After their texts were joined, the pieces stand as before. -/
theorem Joined.standing {f g : TemplateFile} {after : Bool} {ps : List Piece}
    (hj : f.Joined g after ps) (hst : f.Standing after ps) : g.Standing after ps := by
  induction ps generalizing after with
  | nil => trivial
  | cons p ps ih =>
    cases p with
    | other t r => exact ⟨fun s hs => hst.1 s (hj.1.symm.trans hs), ih hj.2 hst.2⟩
    | text i s again =>
      obtain ⟨⟨u, hu, hus⟩, hrest⟩ := hst
      refine ⟨⟨_, hj.1 u hu, fun hafter => ?_⟩, ih hj.2 hrest⟩
      rw [if_pos hafter]
      exact hus hafter

/-- What joining the texts of a list does, the text `last` standing before it. -/
structure JoinsTexts (f : TemplateFile) (last : Option NodeId) (ps : List Piece) : Prop where
  /-- The list that is left holds the nodes that the pieces end as. -/
  list_eq : (f.joinTextsAfter last (ps.map Piece.id)).2 = roots (Piece.finishAfter last.isSome ps)
  joined : f.Joined (f.joinTextsAfter last (ps.map Piece.id)).1 last.isSome ps
  /-- The text before the list takes in the texts at its start. -/
  last_text : ∀ i ∈ last, ∀ u, f.kind i = .text u →
    (f.joinTextsAfter last (ps.map Piece.id)).1.kind i = .text (u ++ Piece.lead ps)
  changes : ChangesOnly (last.toList ++ ps.map Piece.id) f (f.joinTextsAfter last (ps.map Piece.id)).1

namespace JoinsTexts

variable {f : TemplateFile} {last : Option NodeId} {ps : List Piece} {i first : NodeId} {t u : String}

/-- Behind a node that is no text the list starts anew. -/
theorem other {v : NodeTree} {r : Bool} (hne : ∀ s, f.kind v.id ≠ .text s)
    (hnodup : (last.toList ++ v.id :: ps.map Piece.id).Nodup)
    (hlt : ∀ x ∈ last.toList ++ v.id :: ps.map Piece.id, x < f.nodes.size) (h : f.JoinsTexts none ps) :
    f.JoinsTexts last (.other v r :: ps) := by
  obtain ⟨hlist, hjoin, -, hchange⟩ := h
  rw [Option.toList_none, List.nil_append] at hchange
  -- the text before the node and the node itself are not touched by what follows
  have hsame : ∀ x ∈ last.toList ++ [v.id], (f.joinTextsAfter none (ps.map Piece.id)).1.kind x = f.kind x := by
    intro x hx
    rw [List.append_cons] at hnodup hlt
    exact hchange.kind_eq x (hlt x (List.mem_append_left _ hx)) ((List.nodup_append'.mp hnodup).2.2 hx)
  constructor <;> rw [List.map_cons, Piece.id_other, joinTextsAfter_other hne]
  · rw [Piece.finishAfter_other, roots_cons]
    exact congrArg _ hlist
  · exact ⟨hsame v.id (List.mem_append_right _ (List.mem_singleton_self _)), hjoin⟩
  · intro i hi u hu
    rw [Piece.lead, String.append_empty]
    exact (hsame i (List.mem_append_left _ (Option.mem_toList.mpr hi))).trans hu
  · refine hchange.mono fun x hx => ?_
    exact List.mem_append_right _ (List.mem_cons_of_mem _ hx)

/-- A text that follows none stays, and the list goes on behind it. -/
theorem text_first {s again : String} (hu : f.kind i = .text u) (h : f.JoinsTexts (some i) ps) :
    f.JoinsTexts none (.text i s again :: ps) := by
  obtain ⟨hlist, hjoin, hfirst, hchange⟩ := h
  have hnone {P : NodeId → Prop} : ∀ j ∈ (none : Option NodeId), P j := fun j hj => absurd hj (Option.not_mem_none j)
  constructor <;> rw [List.map_cons, Piece.id_text, joinTextsAfter_first hu hnone]
  · exact congrArg (i :: ·) hlist
  · exact ⟨fun v hv => hfirst i rfl v hv, hjoin⟩
  · exact hnone
  · exact hchange

/-- A text that follows another one goes to that one. -/
theorem text_after {again : String} {f' : TemplateFile} (ht : f.kind first = .text t) (hu : f.kind i = .text u)
    (hf' : f' = f.setNode first ⟨.text (t ++ u), (f.span first).union (f.span i)⟩)
    (hnodup : (first :: i :: ps.map Piece.id).Nodup)
    (hlt : ∀ x ∈ first :: i :: ps.map Piece.id, x < f.nodes.size) (h : f'.JoinsTexts (some first) ps) :
    f.JoinsTexts (some first) (.text i u again :: ps) := by
  obtain ⟨hlist, hjoin, hfirst, hchange⟩ := h
  obtain ⟨hfirst_notMem, hnodup⟩ := List.nodup_cons.mp hnodup
  obtain ⟨hlt_first, hlt⟩ := List.forall_mem_cons.mp hlt
  -- only the text before it changes, by the text that is added
  have hset : ChangesOnly [first] f f' := hf' ▸ ChangesOnly.setNode (List.mem_singleton_self _) _
  have hkind : ∀ x ∈ i :: ps.map Piece.id, f'.kind x = f.kind x := fun x hx =>
    hf' ▸ kind_setNode_of_ne f _ fun he => hfirst_notMem (he ▸ hx)
  rw [Option.toList_some, List.singleton_append] at hchange
  constructor <;> rw [List.map_cons, Piece.id_text, joinTextsAfter_text hu ht, ← hf']
  · exact hlist
  · refine ⟨fun v hv => ?_, hjoin.congr_left fun p hp => ?_⟩
    · -- the text itself is left behind as it was
      have hleft := hchange.kind_eq i (Nat.lt_of_lt_of_le (hlt i List.mem_cons_self) hset.size_le) fun hm => by
        obtain rfl | hm := List.mem_cons.mp hm
        · exact hfirst_notMem List.mem_cons_self
        · exact (List.nodup_cons.mp hnodup).1 hm
      rw [hleft, hkind i List.mem_cons_self, hv]
      rfl
    · exact (hkind p.id (List.mem_cons_of_mem _ (List.mem_map_of_mem hp))).symm
  · intro j hj v hv
    obtain rfl := Option.some.inj hj
    -- it gets this text and then those behind it
    have htv : t = v := NodeKind.text.inj (ht.symm.trans hv)
    have hjoined : f'.kind first = .text (t ++ u) := by rw [hf', kind_setNode_self _ _ hlt_first]
    rw [hfirst first rfl _ hjoined, htv, Piece.lead, String.append_assoc]
  · refine (hset.trans hchange).mono fun x hx => ?_
    simp only [Option.toList_some, List.mem_append, List.mem_cons, List.not_mem_nil, or_false] at hx ⊢
    tauto

end JoinsTexts

/-- **Joining the texts of a list.** -/
theorem joinTextsAfter_spec (f : TemplateFile) (last : Option NodeId) {ps : List Piece}
    (hnodup : (last.toList ++ ps.map Piece.id).Nodup)
    (hlt : ∀ x ∈ last.toList ++ ps.map Piece.id, x < f.nodes.size)
    (hlast : ∀ i ∈ last, ∃ u, f.kind i = .text u) (hst : f.Standing last.isSome ps) : f.JoinsTexts last ps := by
  induction ps generalizing f last with
  | nil =>
    refine ⟨by rw [Piece.finishAfter_nil]; rfl, trivial, fun i _ u hu => ?_, ChangesOnly.refl _ _⟩
    change f.kind i = _
    rw [hu, Piece.lead, String.append_empty]
  | cons p ps ih =>
    rw [List.map_cons] at hnodup hlt
    -- the rest of the list stands after the first node when that is a text, and after none otherwise
    have hnodup' : (p.id :: ps.map Piece.id).Nodup := (List.nodup_append'.mp hnodup).2.1
    have hlt' : ∀ x ∈ p.id :: ps.map Piece.id, x < f.nodes.size := fun x hx =>
      hlt x (List.mem_append_right _ hx)
    cases p with
    | other t r =>
      refine .other hst.1 hnodup hlt (ih f none (List.nodup_cons.mp hnodup').2 ?_ ?_ hst.2)
      · exact fun x hx => hlt' x (List.mem_cons_of_mem _ hx)
      · exact fun i hi => absurd hi (Option.not_mem_none i)
    | text i s again =>
      obtain ⟨⟨u, hu, hus⟩, hps⟩ := hst
      cases last with
      -- the first text of a run takes in those behind it
      | none =>
        refine .text_first hu (ih f (some i) hnodup' hlt' (fun j hj => ⟨u, ?_⟩) hps)
        rw [← Option.some.inj hj]
        exact hu
      | some first =>
        obtain ⟨t, ht⟩ := hlast first rfl
        -- behind a text the piece has its own text only, so that nothing is appended twice
        obtain rfl : u = s := hus rfl
        obtain ⟨f', hf'⟩ : ∃ f', f' = f.setNode first ⟨.text (t ++ u), (f.span first).union (f.span i)⟩ := ⟨_, rfl⟩
        have hsublist : (first :: ps.map Piece.id).Sublist (first :: i :: ps.map Piece.id) := by simp
        refine .text_after ht hu hf' hnodup hlt (ih f' (some first) (hnodup.sublist hsublist) ?_ ?_ (hps.congr ?_))
        · intro x hx
          rw [hf', size_setNode]
          exact hlt x (hsublist.subset hx)
        · intro j hj
          rw [← Option.some.inj hj, hf', kind_setNode_self _ _ (hlt first List.mem_cons_self)]
          exact ⟨_, rfl⟩
        · intro p hp
          have hmem : p.id ∈ i :: ps.map Piece.id := List.mem_cons_of_mem _ (List.mem_map_of_mem hp)
          exact hf' ▸ kind_setNode_of_ne f _ fun he => (List.nodup_cons.mp hnodup).1 (he ▸ hmem)

end TemplateFile

/-! ### Pieces after all visits -/

namespace Piece

/-- From `f` to `g` a text stayed a text, and another node stayed as it was. -/
def KeepsForm (f g : TemplateFile) : Piece → Prop
  | text i _ _ => ∃ u, g.kind i = .text u
  | other t _ => g.kind t.id = f.kind t.id

/-- Joining texts keeps the form of every piece. -/
theorem keepsForm_of_joined {f g : TemplateFile} {after : Bool} {ps : List Piece}
    (hst : f.Standing after ps) (hj : f.Joined g after ps) : ∀ p ∈ ps, p.KeepsForm f g := by
  induction ps generalizing after with
  | nil => exact fun _ hp => absurd hp List.not_mem_nil
  | cons p ps ih =>
    rw [List.forall_mem_cons]
    cases p with
    | other t r => exact ⟨hj.1, ih hst.2 hj.2⟩
    | text i s again =>
      obtain ⟨⟨u, hu, -⟩, hrest⟩ := hst
      exact ⟨⟨_, hj.1 u hu⟩, ih hrest hj.2⟩

/-- What a second visit keeps the form of, is kept in form by both. -/
theorem keepsForm_of_echoAfter {f g : TemplateFile} (after : Bool) {ps : List Piece}
    (h : ∀ p ∈ echoAfter after ps, p.KeepsForm f g) : ∀ p ∈ ps, p.KeepsForm f g := by
  induction ps generalizing after with
  | nil => exact fun _ hp => absurd hp List.not_mem_nil
  | cons p ps ih =>
    rw [List.forall_mem_cons]
    cases p with
    | other t r =>
      rw [echoAfter_other, List.forall_mem_cons] at h
      exact ⟨h.1, ih false h.2⟩
    -- pieces keep their nodes, so each fact about a node carries over
    | text i s again =>
      cases after with
      | true =>
        rw [echoAfter, List.forall_mem_cons] at h
        exact ⟨h.1, ih true h.2⟩
      | false =>
        rw [echoAfter, List.forall_mem_cons] at h
        exact ⟨h.1, ih true h.2⟩

/-- Between `f` and `g` the nodes of a list were visited: the text was appended to, and another node
is as it is in the end. -/
def Settles (f g : TemplateFile) : Piece → Prop
  | text i _ again => ∃ u, f.kind i = .text u ∧ g.kind i = .text (u ++ again)
  | other t _ => g.Shows [t]

/-- Whether a piece settles depends on its own nodes only. -/
theorem Settles.congr {f f' g g' : TemplateFile} {p : Piece} (h : p.Settles f g)
    (hf : f'.kind p.id = f.kind p.id) (hg : ∀ x ∈ p.ids, g'.kind x = g.kind x) :
    p.Settles f' g' := by
  cases p with
  | other t r => exact TemplateFile.Shows.congr h hg
  | text i s again =>
    obtain ⟨u, hu, hend⟩ := h
    exact ⟨u, hf.trans hu, (hg i (List.mem_singleton.mpr rfl)).trans hend⟩

/-- **A list at its own node.** If the texts of a list had no text but their own before they were
joined, the table holds what the list ends as after the visits of its nodes. -/
theorem shows_finishAfter {f g h : TemplateFile} {after : Bool} {ps : List Piece}
    (hown : ∀ i s again, text i s again ∈ ps → f.kind i = .text s) (hjoin : f.Joined g after ps)
    (hsettle : ∀ p ∈ ps, p.Settles g h) : h.Shows (finishAfter after ps) := by
  induction ps generalizing after with
  | nil => rw [finishAfter_nil]; exact TemplateFile.shows_nil
  | cons p ps ih =>
    have hown' := fun i s again hm => hown i s again (List.mem_cons_of_mem p hm)
    have hsettle' := fun p hp => hsettle p (List.mem_cons_of_mem _ hp)
    cases p with
    | other t r =>
      have ht := hsettle _ List.mem_cons_self
      obtain ⟨i, k, bs⟩ := t
      rw [Settles, TemplateFile.shows_cons] at ht
      rw [finishAfter_other, TemplateFile.shows_cons]
      exact ⟨ht.1, ht.2.1, ih hown' hjoin.2 hsettle'⟩
    | text i s again =>
      have hrest : h.Shows (finishAfter true ps) := ih hown' hjoin.2 hsettle'
      cases after with
      -- the text is part of the one before it
      | true => exact hrest
      | false =>
        obtain ⟨u, hu, hend⟩ := hsettle _ List.mem_cons_self
        -- the text was joined to what it leads, and that is what it ends with
        have hgi := hjoin.1 s (hown i s again List.mem_cons_self)
        have hus : u = s ++ lead ps := NodeKind.text.inj (hu.symm.trans hgi)
        rw [finishAfter, TemplateFile.shows_cons]
        exact ⟨by rw [hend, hus], fun _ hb => absurd hb List.not_mem_nil, hrest⟩

/-- **A list seen from where it was spliced.** Joining the texts of a list and visiting its nodes does
to the nodes what `echoAfter` says, from before the texts were joined. -/
theorem settles_echoAfter {f g h : TemplateFile} {after : Bool} {ps : List Piece}
    (hst : f.Standing after ps) (hjoin : f.Joined g after ps)
    (hsettle : ∀ p ∈ ps, p.Settles g h) : ∀ p ∈ echoAfter after ps, p.Settles f h := by
  induction ps generalizing after with
  | nil => rw [echoAfter_nil]; exact fun _ hp => absurd hp List.not_mem_nil
  | cons p ps ih =>
    have hsettle' := fun p hp => hsettle p (List.mem_cons_of_mem _ hp)
    cases p with
    | other t r =>
      rw [echoAfter_other, List.forall_mem_cons]
      exact ⟨hsettle _ List.mem_cons_self, ih hst.2 hjoin.2 hsettle'⟩
    | text i s again =>
      obtain ⟨⟨u, hu, -⟩, hst'⟩ := hst
      obtain ⟨v, hv, hend⟩ := hsettle _ List.mem_cons_self
      have hrest := ih hst' hjoin.2 hsettle'
      have hgi := hjoin.1 u hu
      cases after with
      | true =>
        -- behind a text it keeps what it had
        have hvu : v = u := NodeKind.text.inj (hv.symm.trans hgi)
        rw [echoAfter, List.forall_mem_cons]
        exact ⟨⟨u, hu, by rw [hend, hvu]⟩, hrest⟩
      | false =>
        -- a text at the start takes up those behind it once more
        have hvu : v = u ++ lead ps := NodeKind.text.inj (hv.symm.trans hgi)
        rw [echoAfter, List.forall_mem_cons]
        exact ⟨⟨u, hu, by rw [hend, hvu, String.append_assoc]⟩, hrest⟩

end Piece

end TemplateFrontend
