import TemplateFrontend.Proofs.Transform.Emission
/-!
# What a template spells

A list of nodes spells characters, from its texts and from the HTML tags among its nodes, and the
nodes that are neither, in order. An open tag is spelled with its attributes, and the values of those
in quotes.

* `NodeKind.spelling`, `Forest.spell` — what is spelled;
* `GrowsStrictly` — one list of items is part of another, and equal if and only if nothing is repeated;
* `Forest.repeatsValues` — whether attribute values have texts that follow each other behind a node
  that is no text.
-/

namespace TemplateFrontend

/-- What the attributes of a tag spell, given what their values spell. -/
def spellAttributes : List Attribute → List (List Emitted) → List Emitted
  | [], _ => []
  | a :: as, inner =>
    match a.value, inner with
    | some _, value :: inner =>
      Emitted.chars (" " ++ a.name ++ "=\"") ++ value ++ Emitted.chars "\"" ++
        spellAttributes as inner
    | _, inner => Emitted.chars (" " ++ a.name) ++ spellAttributes as inner

theorem spellAttributes_none (name : String) (span : Span) (as : List Attribute)
    (inner : List (List Emitted)) :
    spellAttributes (⟨name, none, span⟩ :: as) inner
      = Emitted.chars (" " ++ name) ++ spellAttributes as inner := rfl

theorem spellAttributes_some (name : String) (old : List NodeId) (span : Span)
    (as : List Attribute) (value : List Emitted) (inner : List (List Emitted)) :
    spellAttributes (⟨name, some old, span⟩ :: as) (value :: inner)
      = Emitted.chars (" " ++ name ++ "=\"") ++ value ++ Emitted.chars "\"" ++
          spellAttributes as inner := rfl

/-- The end of an open tag. -/
def tagEnd (selfClosing : Bool) : String := if selfClosing then "/>" else ">"

/-- What a node spells, given what the lists inside it spell. -/
def NodeKind.spelling (id : NodeId) (k : NodeKind) (inner : List (List Emitted)) : List Emitted :=
  match k with
  | .text s => Emitted.chars s
  | .special x => Emitted.chars x.text
  | .openTag name attributes closed =>
    Emitted.chars ("<" ++ name) ++ spellAttributes attributes inner ++ Emitted.chars (tagEnd closed)
  | .closeTag name => Emitted.chars ("</" ++ name ++ ">")
  | k => .enter id k.bare :: inner.flatMap (· ++ [.leave])

theorem spellAttributes_fillAttributes (as : List Attribute) (ls : List (List NodeId))
    (inner : List (List Emitted)) :
    spellAttributes (NodeKind.fillAttributes as ls) inner = spellAttributes as inner := by
  induction as generalizing ls inner with
  | nil => rfl
  | cons a as ih =>
    obtain ⟨name, value, span⟩ := a
    cases value with
    | none => exact congrArg (Emitted.chars (" " ++ name) ++ ·) (ih ls inner)
    | some old =>
      cases ls with
      | nil => cases inner <;> simp only [NodeKind.fillAttributes, spellAttributes, ih]
      | cons l ls => cases inner <;> simp only [NodeKind.fillAttributes, spellAttributes, ih]

/-- What a node spells follows from what its lists spell, not from the lists. -/
theorem NodeKind.spelling_withBodies (id : NodeId) {k : NodeKind} {ls : List (List NodeId)}
    (h : ls.length = k.bodies.length) (inner : List (List Emitted)) :
    (k.withBodies ls).spelling id inner = k.spelling id inner := by
  have hbare := bare_withBodies h
  cases k with
  | openTag name as closed =>
    simp only [withBodies, spelling, spellAttributes_fillAttributes]
  | text | special | closeTag | print => rfl
  -- what a kind spells around its lists does not depend on which lists they are
  | binding x b =>
    cases b with
    | value e => rfl
    | content kind body => exact congrArg (Emitted.enter id · :: _) hbare
  | template | conditional | loop | call | message | visualElement =>
    exact congrArg (Emitted.enter id · :: _) hbare

mutual

/-- What a node spells. -/
def NodeTree.spell : NodeTree → List Emitted
  | .node id k bodies => k.spelling id (Forest.spellAll bodies)

/-- What a forest spells. -/
def Forest.spell : Forest → List Emitted
  | [] => []
  | t :: ts => t.spell ++ Forest.spell ts

/-- What each of several forests spells. -/
def Forest.spellAll : List Forest → List (List Emitted)
  | [] => []
  | b :: bs => Forest.spell b :: Forest.spellAll bs

end

namespace Forest

theorem spellAll_eq_map (bs : List Forest) : spellAll bs = bs.map spell := by
  induction bs with
  | nil => rfl
  | cons b bs ih => rw [spellAll, ih, List.map_cons]

@[simp] theorem spell_nil : spell [] = [] := rfl

@[simp] theorem spell_cons (id : NodeId) (k : NodeKind) (bs : List Forest) (ts : Forest) :
    spell (.node id k bs :: ts) = k.spelling id (bs.map spell) ++ spell ts := by
  rw [spell, NodeTree.spell, spellAll_eq_map]

theorem spell_eq_flatMap (ts : Forest) : spell ts = ts.flatMap NodeTree.spell := by
  induction ts with
  | nil => rfl
  | cons t ts ih => rw [spell, ih, List.flatMap_cons]

theorem spell_append (ts us : Forest) : spell (ts ++ us) = spell ts ++ spell us := by
  rw [spell_eq_flatMap, List.flatMap_append, ← spell_eq_flatMap, ← spell_eq_flatMap]

/-! ### Values with texts that follow each other -/

/-- The text of the texts that a list starts with. -/
def lead : Forest → String
  | [] => ""
  | .node _ k _ :: ts =>
    match k with
    | .text s => s ++ lead ts
    | _ => ""

/-- Whether behind a node that is no text a text is followed by more text; `after` tells that the list
itself follows a text. -/
def runsOn : (after : Bool) → Forest → Bool
  | _, [] => false
  | after, .node _ k _ :: ts =>
    match k with
    | .text _ => (!after && lead ts != "") || runsOn true ts
    | _ => runsOn false ts

end Forest

/-- Whether the value of an attribute runs on. The quote before the value is a text. -/
def NodeTree.runsOn : NodeTree → Bool
  | .node _ (.openTag _ _ _) values => values.any (Forest.runsOn true)
  | _ => false

theorem NodeTree.runsOn_eq_false {id : NodeId} {k : NodeKind} {bs : List Forest}
    (h : bs.any (Forest.runsOn true) = false) : (NodeTree.node id k bs).runsOn = false := by
  cases k with
  | openTag => exact h
  | _ => rfl

/-- Whether the value of an attribute anywhere in the forest runs on. -/
def Forest.repeatsValues (ts : Forest) : Bool := (subtrees ts).any NodeTree.runsOn

namespace Forest

@[simp] theorem repeatsValues_nil : repeatsValues [] = false := rfl

@[simp] theorem repeatsValues_cons (id : NodeId) (k : NodeKind) (bs : List Forest) (ts : Forest) :
    repeatsValues (.node id k bs :: ts)
      = ((NodeTree.node id k bs).runsOn || bs.any repeatsValues || repeatsValues ts) := by
  rw [repeatsValues, subtrees_cons, List.any_cons, List.any_append, List.any_flatMap,
    Bool.or_assoc]
  rfl

end Forest

/-! ### Lists that are equal unless something is repeated -/

/-- `y` is `x`, or longer than `x` if something is repeated. -/
structure GrowsStrictly (repeats : Bool) (x y : List Emitted) : Prop extends Grows repeats x y where
  length_lt : repeats = true → x.length < y.length

namespace GrowsStrictly

variable {r r' : Bool} {x y x' y' : List Emitted}

theorem refl (x : List Emitted) : GrowsStrictly false x x :=
  ⟨Grows.refl false x, fun h => absurd h Bool.false_ne_true⟩

theorem eq_iff (h : GrowsStrictly r x y) : y = x ↔ r = false := by
  refine ⟨fun he => ?_, h.eq_of_not⟩
  rw [← Bool.not_eq_true]
  intro hr
  have hlt := h.length_lt hr
  rw [he] at hlt
  exact Nat.lt_irrefl _ hlt

theorem append (h : GrowsStrictly r x y) (h' : GrowsStrictly r' x' y') :
    GrowsStrictly (r || r') (x ++ x') (y ++ y') where
  toGrows := (h.toGrows.mono fun hr => by rw [hr, Bool.true_or]).append
    (h'.toGrows.mono fun hr => by rw [hr, Bool.or_true])
  length_lt := by
    intro hr
    have hle := h.length_le
    have hle' := h'.length_le
    rw [List.length_append, List.length_append]
    rcases (Bool.or_eq_true _ _).mp hr with hr | hr
    · have := h.length_lt hr
      omega
    · have := h'.length_lt hr
      omega

/-- What stands before both lists makes no difference. -/
theorem prepend (h : GrowsStrictly r x y) (z : List Emitted) : GrowsStrictly r (z ++ x) (z ++ y) :=
  (refl z).append h

/-- What stands behind both lists makes no difference. -/
theorem append_right (h : GrowsStrictly r x y) (z : List Emitted) :
    GrowsStrictly r (x ++ z) (y ++ z) :=
  Bool.or_false r ▸ h.append (refl z)

theorem flatMap {α β : Type} {R : α → β → Prop} {as : List α} {bs : List β}
    (hab : List.Forall₂ R as bs) {f : α → List Emitted} {g : β → List Emitted} {r : β → Bool}
    (h : ∀ a b, R a b → GrowsStrictly (r b) (f a) (g b)) :
    GrowsStrictly (bs.any r) (as.flatMap f) (bs.flatMap g) := by
  induction hab with
  | nil => exact refl []
  | cons hab _ ih =>
    rw [List.any_cons, List.flatMap_cons, List.flatMap_cons]
    exact (h _ _ hab).append ih

end GrowsStrictly

end TemplateFrontend
