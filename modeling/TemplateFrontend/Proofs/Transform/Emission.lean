import TemplateFrontend.Proofs.Tree.Mapping
import TemplateFrontend.Proofs.Expr.Parts
import TemplateFrontend.Proofs.Transform.Pieces
import Mathlib.Data.List.Flatten
/-!
# What a template emits

A template emits characters, from its texts and from prints of constants, and whatever its other nodes
stand for, in order. Which branch of a condition is taken and how often a loop runs is open; `Choices`
fixes it, for every node and for every round of the loops around it. An edit that joins adjacent texts
may repeat text; `Grows` compares what is emitted before and after.

* `Emitted` — what is emitted: a list of characters and of nodes that are not text;
* `Grows` — one emission is part of another, and the same unless text is repeated;
* `Piece.grows_finishAfter`, `Piece.length_finishAfter_lt` — pieces, and what a list of them ends as;
* `Choices` — what is emitted depends on them;
* `Forest.emit` — what a forest emits;
* `Forest.emit_congr` — choices for other nodes do not matter;
* `Forest.emit_mapKinds_fold` — folding constants changes nothing of what is emitted.
-/

namespace TemplateFrontend

open Forest

/-- One thing that a template emits. -/
inductive Emitted where
  | char (c : Char)
  /-- A node that stays, without the lists inside it. What its lists emit follows. -/
  | enter (id : NodeId) (kind : NodeKind)
  /-- The end of a list inside such a node. -/
  | leave

/-- The characters of a text. -/
def Emitted.chars (s : String) : List Emitted := s.toList.map Emitted.char

/-- Texts that are emitted one after the other. -/
theorem Emitted.chars_append (s t : String) : chars (s ++ t) = chars s ++ chars t := by
  simp [chars]

@[simp] theorem Emitted.chars_empty : chars "" = [] := rfl

/-- A text that is not empty emits something. -/
theorem Emitted.length_chars_pos {s : String} (h : s ≠ "") : 0 < (chars s).length := by
  rw [chars, List.length_map, List.length_pos_iff]
  exact fun hs => h (String.toList_eq_nil_iff.mp hs)

/-- A node by itself, without the lists inside it. -/
def NodeKind.bare (k : NodeKind) : NodeKind := k.withBodies (k.bodies.map fun _ => [])

/-- Nothing of a node by itself depends on its lists. -/
theorem NodeKind.bare_withBodies {k : NodeKind} {ls : List (List NodeId)}
    (h : ls.length = k.bodies.length) : (k.withBodies ls).bare = k.bare := by
  rw [bare, bodies_withBodies k ls h, withBodies_withBodies, bare]
  · congr 1
    rw [List.map_const', List.map_const', h]
  · exact h
  · rw [List.length_map, h]

/-! ### Emissions that grow -/

/-- What `x` emits is emitted in `y` too, in the same order, and `y` emits nothing else unless text is
repeated. -/
structure Grows (repeats : Bool) (x y : List Emitted) : Prop where
  sublist : x.Sublist y
  eq_of_not : repeats = false → y = x

namespace Grows

variable {r r' : Bool} {x y z x' y' : List Emitted}

/-- What is emitted stays the same. -/
theorem refl (r : Bool) (x : List Emitted) : Grows r x x := ⟨List.Sublist.refl x, fun _ => rfl⟩

/-- It may be said that text was repeated. -/
theorem mono (h : Grows r x y) (hr : r = true → r' = true) : Grows r' x y where
  sublist := h.sublist
  eq_of_not := fun hr' => h.eq_of_not (Bool.eq_false_iff.mpr fun ht => by simp [hr ht] at hr')

/-- Emissions may grow twice. -/
theorem trans (h : Grows r x y) (h' : Grows r y z) : Grows r x z where
  sublist := h.sublist.trans h'.sublist
  eq_of_not := fun hr => (h'.eq_of_not hr).trans (h.eq_of_not hr)

/-- Emissions grow part by part. -/
theorem append (h : Grows r x y) (h' : Grows r x' y') : Grows r (x ++ x') (y ++ y') where
  sublist := h.sublist.append h'.sublist
  eq_of_not := fun hr => by rw [h.eq_of_not hr, h'.eq_of_not hr]

/-- What has grown is not shorter. -/
theorem length_le (h : Grows r x y) : x.length ≤ y.length := h.sublist.length_le

/-- The emissions of many parts grow part by part. -/
theorem flatMap {α : Type} {as : List α} {f g : α → List Emitted}
    (h : ∀ a ∈ as, Grows r (f a) (g a)) : Grows r (as.flatMap f) (as.flatMap g) where
  sublist := List.Sublist.flatMap_right _ fun a ha => (h a ha).sublist
  eq_of_not := fun hr => List.flatMap_congr fun a ha => (h a ha).eq_of_not hr

end Grows

/-! ### Pieces -/

namespace Piece

/-- Whether a text below a piece holds repeated text. -/
def repeatsBelow : Piece → Bool
  | text _ _ _ => false
  | other _ r => r

/-- What a piece emits, given what nodes emit: of a text only its own characters. -/
def emit (m : NodeTree → List Emitted) : Piece → List Emitted
  | text _ s _ => Emitted.chars s
  | other t _ => m t

section Lists

variable (m : NodeTree → List Emitted) (after : Bool) (ps : List Piece)

/-- A second visit makes no difference to what the nodes have of their own. -/
theorem flatMap_emit_echoAfter :
    (echoAfter after ps).flatMap (emit m) = ps.flatMap (emit m) := by
  induction ps generalizing after with
  | nil => rw [echoAfter_nil]
  | cons p ps ih =>
    cases p with
    | other t r => rw [echoAfter_other, List.flatMap_cons, List.flatMap_cons, ih]
    -- a text may have more appended to it, but emits only its own characters here
    | text i s again =>
      cases after with
      | true => rw [echoAfter, List.flatMap_cons, List.flatMap_cons, ih]
      | false =>
        rw [echoAfter, List.flatMap_cons, List.flatMap_cons, ih]
        rfl

/-- A second visit of a list does not change what is below its nodes. -/
theorem any_repeatsBelow_echoAfter :
    (echoAfter after ps).any repeatsBelow = ps.any repeatsBelow := by
  induction ps generalizing after with
  | nil => rw [echoAfter_nil]
  | cons p ps ih =>
    cases p with
    | other t r => rw [echoAfter_other, List.any_cons, List.any_cons, ih]
    | text i s again =>
      have hps := ih true
      cases after with
      | true => rw [echoAfter, List.any_cons, List.any_cons, hps]
      | false => exact congrArg (false || ·) hps

/-- Text that is repeated below a node is repeated in the list. -/
theorem repeatsAfter_of_any (h : ps.any repeatsBelow = true) : repeatsAfter after ps = true := by
  induction ps generalizing after with
  | nil => exact absurd h (by simp)
  | cons p ps ih =>
    rw [List.any_cons, Bool.or_eq_true] at h
    cases p with
    | other t r =>
      rw [repeatsAfter_other, Bool.or_eq_true]
      exact h.imp_right (ih false)
    | text i s again =>
      -- a text has nothing below it, so the repetition is further on
      have hps := ih true (h.resolve_left (by simp [repeatsBelow]))
      cases after with
      | true => exact hps
      | false => rw [repeatsAfter, hps, Bool.or_true]

/-- **Joined texts.** A list ends as nodes that emit what its pieces have of their own, and what is
repeated. -/
theorem grows_finishAfter (hm : ∀ i s, m (.node i (.text s) []) = Emitted.chars s) :
    Grows (repeatsAfter after ps) (ps.flatMap (emit m))
      (Emitted.chars (if after then lead ps else "") ++
        (finishAfter after ps).flatMap m) := by
  induction ps generalizing after with
  | nil =>
    rw [finishAfter_nil, lead, ite_self]
    exact Grows.refl _ _
  | cons p ps ih =>
    rw [List.flatMap_cons]
    cases p with
    | other t r =>
      have hlead : (if after then lead (other t r :: ps) else "") = "" := ite_self _
      rw [hlead, Emitted.chars_empty, List.nil_append, finishAfter_other, repeatsAfter_other,
        List.flatMap_cons]
      refine (Grows.refl _ _).append ?_
      exact (ih false).mono fun hr => by rw [hr, Bool.or_true]
    | text i s again =>
      have hps := ih true
      rw [if_pos rfl] at hps
      cases after with
      -- the text goes on with the one before it,
      | true =>
        rw [if_pos rfl, lead, Emitted.chars_append, List.append_assoc]
        exact (Grows.refl _ _).append hps
      -- or it is the first of its run, and takes up those behind it
      | false =>
        rw [if_neg Bool.false_ne_true, Emitted.chars_empty, List.nil_append, finishAfter,
          List.flatMap_cons, hm, repeatsAfter]
        simp only [Emitted.chars_append, List.append_assoc]
        refine (Grows.refl _ _).append ?_
        refine (hps.mono fun hr => by rw [hr, Bool.or_true]).trans ?_
        refine (Grows.refl _ _).append ⟨List.sublist_append_right _ _, fun hr => ?_⟩
        -- nothing is repeated by this text
        have hagain : again = "" := by simpa using (Bool.or_eq_false_iff.mp hr).1
        rw [hagain, Emitted.chars_empty, List.nil_append]

/-- Text that is repeated by a text of the list itself shows. -/
theorem length_finishAfter_lt (hm : ∀ i s, m (.node i (.text s) []) = Emitted.chars s)
    (h : repeatsAfter after ps = true)
    (hbelow : ps.any repeatsBelow = false) :
    (ps.flatMap (emit m)).length
      < (Emitted.chars (if after then lead ps else "") ++
          (finishAfter after ps).flatMap m).length := by
  induction ps generalizing after with
  | nil => simp at h
  | cons p ps ih =>
    rw [List.any_cons, Bool.or_eq_false_iff] at hbelow
    obtain ⟨hp, hps⟩ := hbelow
    rw [List.flatMap_cons]
    cases p with
    | other t r =>
      obtain rfl : r = false := hp
      have hlead : (if after then lead (other t false :: ps) else "") = "" := ite_self _
      have hlt := ih false (by simpa using h) hps
      rw [hlead, finishAfter_other, List.flatMap_cons]
      simp only [if_neg Bool.false_ne_true, Emitted.chars_empty, List.nil_append,
        List.length_append] at hlt ⊢
      exact Nat.add_lt_add_left hlt _
    | text i s again =>
      cases after with
      -- the text was put to the one before, and is read from there
      | true =>
        have hlt := ih true h hps
        simp only [if_pos, lead, Emitted.chars_append, List.length_append] at hlt ⊢
        rw [Nat.add_assoc]
        exact Nat.add_lt_add_left hlt _
      | false =>
        rw [repeatsAfter, Bool.or_eq_true] at h
        -- what comes behind is at least emitted once
        have hle := (grows_finishAfter m true ps hm).length_le
        rw [finishAfter, List.flatMap_cons, hm]
        simp only [if_pos, if_neg Bool.false_ne_true, Emitted.chars_append,
          Emitted.chars_empty, List.length_append, List.length_nil, emit] at hle ⊢
        rcases h with hagain | hrest
        -- this text is the one that is repeated,
        · have hpos := Emitted.length_chars_pos (s := again) (by simpa using hagain)
          omega
        -- or one behind it is
        · have hlt := ih true hrest hps
          simp only [if_pos, List.length_append] at hlt
          omega

end Lists

end Piece

/-! ### Choices -/

/-- How the conditions that are no constants turn out, and how often loops run. The rounds are those
of the loops around the node, the innermost first. -/
structure Choices where
  /-- Whether a condition of a branching command holds; those that are no constants are counted. -/
  holds : NodeId → (rounds : List Nat) → Nat → Bool
  /-- How often a loop runs. -/
  times : NodeId → (rounds : List Nat) → Nat

/-- Whether the condition of a branch holds, if it is constant once folded. -/
def Branch.decided? (b : Branch) : Option Bool := b.cond.fold.literal?.map Literal.isTrue

/-- Of the lists of a branching command the one that is taken, if one is; `n` conditions that are no
constants came before. -/
def taken {α : Type} (holds : Nat → Bool) : (n : Nat) → List Branch → List α → Option α
  | n, b :: bs, l :: ls =>
    match b.decided? with
    | some true => some l
    | some false => taken holds n bs ls
    | none => if holds n then some l else taken holds (n + 1) bs ls
  | _, [], ls => ls.head?
  | _, _ :: _, [] => none

namespace NodeKind

/-- A node by itself: without the lists inside it and with its constants folded. -/
def shell (k : NodeKind) : NodeKind := (k.mapExprs Expr.fold).bare

/-- What a node emits, given what the lists inside it emit. -/
def emission (c : Choices) (id : NodeId) (k : NodeKind)
    (inner : List (List Nat → List Emitted)) (rounds : List Nat) : List Emitted :=
  match k with
  | .text s => Emitted.chars s
  | .special x => Emitted.chars x.text
  | .print e [] =>
    match e.fold.literal? with
    | some v => Emitted.chars v.output
    | none => [.enter id k.shell]
  | .conditional branches _ =>
    match taken (c.holds id rounds) 0 branches inner with
    | some body => body rounds
    | none => []
  | .loop _ _ _ =>
    .enter id k.shell :: (List.range (c.times id rounds)).flatMap fun i =>
      inner.flatMap fun body => body (i :: rounds) ++ [.leave]
  | k => .enter id k.shell :: inner.flatMap fun body => body rounds ++ [.leave]

end NodeKind

mutual

/-- What a node emits. -/
def NodeTree.emit (c : Choices) : NodeTree → List Nat → List Emitted
  | .node id k bodies => k.emission c id (Forest.emitAll c bodies)

/-- What a forest emits. -/
def Forest.emit (c : Choices) : Forest → List Nat → List Emitted
  | [], _ => []
  | t :: ts, rounds => t.emit c rounds ++ Forest.emit c ts rounds

/-- What each of several forests emits. -/
def Forest.emitAll (c : Choices) : List Forest → List (List Nat → List Emitted)
  | [] => []
  | b :: bs => Forest.emit c b :: Forest.emitAll c bs

end

namespace Forest

/-- Several forests emit one by one. -/
theorem emitAll_eq_map (c : Choices) (bs : List Forest) : emitAll c bs = bs.map (emit c) := by
  induction bs with
  | nil => rfl
  | cons b bs ih => rw [emitAll, ih, List.map_cons]

section Emit

variable (c : Choices) (rounds : List Nat)

@[simp] theorem emit_nil : emit c [] rounds = [] := rfl

/-- A node emits first, then what follows it. -/
@[simp] theorem emit_cons (id : NodeId) (k : NodeKind) (bs : List Forest) (ts : Forest) :
    emit c (.node id k bs :: ts) rounds
      = k.emission c id (bs.map (emit c)) rounds ++ emit c ts rounds := by
  rw [emit, NodeTree.emit, emitAll_eq_map]

/-- A forest emits what its nodes emit. -/
theorem emit_eq_flatMap (ts : Forest) :
    emit c ts rounds = ts.flatMap fun t => t.emit c rounds := by
  induction ts with
  | nil => rfl
  | cons t ts ih => rw [emit, ih, List.flatMap_cons]

end Emit

/-- **Choices elsewhere.** What a forest emits depends on the choices for its own nodes only. -/
theorem emit_congr {c c' : Choices} {ts : Forest}
    (h : ∀ x ∈ ids ts, c'.holds x = c.holds x ∧ c'.times x = c.times x) :
    emit c' ts = emit c ts := by
  induction ts using Forest.induct with
  | nil => rfl
  | cons id k bs ts ihb iht =>
    rw [ids_cons] at h
    obtain ⟨hholds, htimes⟩ := h id List.mem_cons_self
    -- neither do the lists inside the node see the other choices
    have hbodies : bs.map (emit c') = bs.map (emit c) :=
      List.map_congr_left fun b hb => ihb b hb fun x hx => h x (List.mem_cons_of_mem _
        (List.mem_append_left _ (List.mem_flatMap.mpr ⟨b, hb, hx⟩)))
    have hts := iht fun x hx => h x (List.mem_cons_of_mem _ (List.mem_append_right _ hx))
    funext rounds
    rw [emit_cons, emit_cons, hbodies, hts]
    congr 1
    cases k <;> simp only [NodeKind.emission, hholds, htimes]

end Forest

/-! ### Folding -/

section Folding

variable {α : Type} {holds : Nat → Bool} {n : Nat}

/-- Only the conditions of the branches matter, folded. -/
theorem taken_congr {bs bs' : List Branch}
    (h : bs'.map Branch.decided? = bs.map Branch.decided?) (ls : List α) :
    taken holds n bs' ls = taken holds n bs ls := by
  induction bs generalizing bs' n ls with
  | nil =>
    obtain rfl : bs' = [] := List.map_eq_nil_iff.mp h
    rfl
  | cons b bs ih =>
    obtain ⟨b', rest, rfl, hb, hrest⟩ := List.map_eq_cons_iff.mp h
    cases ls with
    | nil => rfl
    | cons l ls => simp only [taken, hb, ih hrest]

namespace NodeKind

/-- Other lists in the branches change no condition. -/
theorem decided?_fillBranches (bs : List Branch) (ls : List (List NodeId)) :
    (fillBranches bs ls).1.map Branch.decided? = bs.map Branch.decided? := by
  induction bs generalizing ls with
  | nil => cases ls <;> rfl
  | cons b bs ih =>
    cases ls with
    | nil => rfl
    | cons l ls =>
      simp only [fillBranches, List.map_cons, ih ls]
      rfl

/-- A node with its constants folded is the same by itself. -/
theorem shell_mapExprs_fold (k : NodeKind) : (k.mapExprs Expr.fold).shell = k.shell := by
  rw [shell, mapExprs_fold_fold, shell]

/-- Nor does a node emit anything else once its constants are folded. -/
theorem emission_mapExprs_fold (c : Choices) (id : NodeId) (k : NodeKind)
    (inner : List (List Nat → List Emitted)) (rounds : List Nat) :
    (k.mapExprs Expr.fold).emission c id inner rounds = k.emission c id inner rounds := by
  have hshell := shell_mapExprs_fold k
  cases k with
  | conditional branches otherwise =>
    -- conditions that were folded are decided as before
    have hdecided : (branches.map fun b => { b with cond := b.cond.fold }).map Branch.decided?
        = branches.map Branch.decided? := by
      rw [List.map_map]
      refine List.map_congr_left fun b _ => ?_
      simp only [Branch.decided?, Function.comp_apply, Expr.fold_fold]
    simp only [mapExprs, emission, taken_congr hdecided]
  -- a print without directives may become text, any other one keeps its number
  | print e directives =>
    cases directives with
    | nil =>
      simp only [mapExprs, List.map_nil] at hshell ⊢
      simp only [emission, Expr.fold_fold, hshell]
    | cons d ds =>
      simp only [mapExprs, List.map_cons] at hshell ⊢
      simp only [emission, hshell]
  | binding x b =>
    cases b with
    | value e =>
      simp only [mapExprs, Bound.mapExpr, emission] at hshell ⊢
      rw [hshell]
    | content kind body => rfl
  | template | loop | call =>
    simp only [mapExprs, emission] at hshell ⊢
    rw [hshell]
  | message | visualElement | openTag | closeTag | text | special => rfl

end NodeKind

/-- **Folding constants** changes nothing of what is emitted. -/
theorem Forest.emit_mapKinds_fold (c : Choices) (ts : Forest) :
    emit c (mapKinds (NodeKind.mapExprs Expr.fold) ts) = emit c ts := by
  induction ts using Forest.induct with
  | nil => rfl
  | cons id k bs ts ihb iht =>
    funext rounds
    rw [mapKinds_cons, emit_cons, emit_cons, iht, NodeKind.emission_mapExprs_fold, List.map_map]
    have hbodies : bs.map (emit c ∘ mapKinds (NodeKind.mapExprs Expr.fold)) = bs.map (emit c) :=
      List.map_congr_left fun b hb => ihb b hb
    rw [hbodies]

end Folding

end TemplateFrontend
