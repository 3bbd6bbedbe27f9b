import TemplateFrontend.Proofs.Transform.Spelling
import TemplateFrontend.Proofs.Transform.WrittenOut
/-!
# Lowered forests

Lowering writes the HTML tags of a list as texts, which are joined to the texts around them, with the
nodes of attribute values between them. The texts are new nodes; which numbers they get depends on what
was lowered before. So what becomes of a forest is a relation to lists of pieces.

* `TagPieces`, `NodeKind.LowersTo`, `Forest.LowersTo` — the pieces that lowering makes of a forest;
* `Forest.LowersTo.repeatsAfter_eq` — they repeat text if and only if an attribute value runs on;
* `Forest.LowersTo.spells` — they spell what the forest spells, and what is repeated.
-/

namespace TemplateFrontend

open Forest

/-- The pieces of an open tag, from the text that was written since the last value: new texts, whose
numbers are no less than `n`, and between them the pieces of the values, which are visited again in the
tag. -/
def TagPieces (n : NodeId) (closed : Bool) :
    (text : String) → List Attribute → List (List Piece) → List Piece → Prop
  | text, [], _, ps => ∃ i, n ≤ i ∧ ps = [.text i (text ++ tagEnd closed) ""]
  | text, a :: as, inner, ps =>
    match a.value, inner with
    | some _, value :: inner =>
      ∃ i qs, n ≤ i ∧ TagPieces n closed "\"" as inner qs ∧
        ps = .text i (text ++ " " ++ a.name ++ "=\"") "" :: (Piece.echoAfter false value ++ qs)
    | _, inner => TagPieces n closed (text ++ " " ++ a.name) as inner ps

/-- The pieces that lowering makes of a node, given the pieces that it makes of the lists inside it. -/
def NodeKind.LowersTo (n : NodeId) (id : NodeId) (k : NodeKind) (inner : List (List Piece))
    (ps : List Piece) : Prop :=
  match k with
  | .text s => ps = [.text id s ""]
  | .openTag name attributes closed => TagPieces n closed ("<" ++ name) attributes inner ps
  | .closeTag name => ∃ i, n ≤ i ∧ ps = [.text i ("</" ++ name ++ ">") ""]
  | k =>
    ps = [.other (.node id
      (k.withBodies ((inner.map (Piece.finishAfter false)).map roots))
      (inner.map (Piece.finishAfter false))) (inner.any (Piece.repeatsAfter false))]

mutual

/-- The pieces that lowering makes of a node. -/
def NodeTree.LowersTo (n : NodeId) : NodeTree → List Piece → Prop
  | .node id k bodies, ps => ∃ inner, Forest.LowerTo n bodies inner ∧ k.LowersTo n id inner ps

/-- The pieces that lowering makes of a list of nodes. -/
def Forest.LowersTo (n : NodeId) : Forest → List Piece → Prop
  | [], ps => ps = []
  | t :: ts, ps => ∃ p q, t.LowersTo n p ∧ Forest.LowersTo n ts q ∧ ps = p ++ q

/-- The pieces that lowering makes of several lists. -/
def Forest.LowerTo (n : NodeId) : List Forest → List (List Piece) → Prop
  | [], inner => inner = []
  | b :: bs, inner => ∃ p rest, Forest.LowersTo n b p ∧ Forest.LowerTo n bs rest ∧ inner = p :: rest

end

namespace Forest

variable {n : NodeId} {id : NodeId} {k : NodeKind} {bs : List Forest} {ts : Forest}
  {ps : List Piece}

/-- Several lists are lowered one by one. -/
theorem lowerTo_iff_forall₂ {inner : List (List Piece)} :
    LowerTo n bs inner ↔ List.Forall₂ (LowersTo n) bs inner := by
  induction bs generalizing inner with
  | nil => rw [LowerTo, List.forall₂_nil_left_iff]
  | cons b bs ih =>
    rw [LowerTo, List.forall₂_cons_left_iff]
    simp only [ih]

/-- Nothing is made of the empty list. -/
@[simp] theorem lowersTo_nil : LowersTo n [] ps ↔ ps = [] := by rw [LowersTo]

/-- Of the first node pieces are made, given those of its lists, and then of the others. -/
theorem lowersTo_cons : LowersTo n (.node id k bs :: ts) ps ↔
    ∃ inner p q, List.Forall₂ (LowersTo n) bs inner ∧ k.LowersTo n id inner p ∧
      LowersTo n ts q ∧ ps = p ++ q := by
  rw [LowersTo]
  simp only [NodeTree.LowersTo, lowerTo_iff_forall₂]
  constructor
  · rintro ⟨p, q, ⟨inner, hinner, hp⟩, hq, hps⟩
    exact ⟨inner, p, q, hinner, hp, hq, hps⟩
  · rintro ⟨inner, p, q, hinner, hp, hq, hps⟩
    exact ⟨p, q, ⟨inner, hinner, hp⟩, hq, hps⟩

end Forest

/-! ### Repeated text -/

namespace Piece

/-- Pieces that repeat the same behind a text and elsewhere may be put behind others. -/
theorem repeatsAfter_append {p q : List Piece} {r : Bool} (hq : ∀ after, repeatsAfter after q = r)
    (after : Bool) : repeatsAfter after (p ++ q) = (repeatsAfter after p || r) := by
  induction p generalizing after with
  | nil => rw [List.nil_append, hq, repeatsAfter_nil, Bool.false_or]
  | cons a p ih =>
    rw [List.cons_append]
    cases a with
    | other t r' => rw [repeatsAfter_other, repeatsAfter_other, ih, Bool.or_assoc]
    | text i s again =>
      cases after with
      | true => exact ih true
      | false => rw [repeatsAfter, repeatsAfter, ih, Bool.or_assoc]

/-- A text to which nothing is appended makes the texts behind it count as its own. -/
theorem repeatsAfter_text (after : Bool) (i : NodeId) (s : String) (ps : List Piece) :
    repeatsAfter after (text i s "" :: ps) = repeatsAfter true ps := by
  cases after with
  | true => rfl
  | false => exact Bool.false_or _

end Piece

/-- The texts of a tag take in what the values start with. -/
theorem TagPieces.repeatsAfter_eq {n : NodeId} {closed : Bool} {text : String} {as : List Attribute}
    {inner : List (List Piece)} {ps : List Piece} (h : TagPieces n closed text as inner ps)
    (hlen : inner.length = (as.filterMap (·.value)).length) (after : Bool) :
    Piece.repeatsAfter after ps
      = inner.any fun v => Piece.repeatsAfter true (Piece.echoAfter false v) := by
  induction as generalizing text inner ps after with
  | nil =>
    obtain ⟨i, -, rfl⟩ := h
    obtain rfl : inner = [] := List.length_eq_zero_iff.mp hlen
    rw [Piece.repeatsAfter_text]
    rfl
  | cons a as ih =>
    obtain ⟨name, value, span⟩ := a
    -- an attribute without a value is part of the text before the next one
    cases value with
    | none => exact ih h hlen after
    | some v =>
      cases inner with
      | nil => exact absurd hlen (by simp)
      | cons v inner =>
        obtain ⟨i, qs, -, hqs, rfl⟩ := h
        have hrest := ih hqs (by simpa using hlen)
        rw [Piece.repeatsAfter_text, Piece.repeatsAfter_append hrest, List.any_cons]

namespace Forest

/-- What may stand in the value of an attribute: no node of it is a tag. -/
def FitsValue (ts : Forest) : Prop := ∀ u ∈ ts, u.kind.fitsValue = true

section Values

variable {n : NodeId} {v : Forest} {ps : List Piece}

/-- A value starts with a text, or with a node at which no text runs on. -/
theorem LowersTo.of_value {t : NodeTree} (h : LowersTo n (t :: v) ps) (hfit : FitsValue (t :: v)) :
    FitsValue v ∧ ∃ q, LowersTo n v q ∧
      ((∃ id s bs, t = .node id (.text s) bs ∧ ps = .text id s "" :: q) ∨
        ∃ u r, ps = .other u r :: q ∧ lead (t :: v) = "" ∧
          ∀ after, runsOn after (t :: v) = runsOn false v) := by
  obtain ⟨id, k, bs⟩ := t
  obtain ⟨hk, hv⟩ := List.forall_mem_cons.mp hfit
  obtain ⟨inner, p, q, -, hp, hq, rfl⟩ := lowersTo_cons.mp h
  refine ⟨hv, q, hq, ?_⟩
  cases k with
  | text s =>
    obtain rfl : p = [.text id s ""] := hp
    exact .inl ⟨id, s, bs, rfl, rfl⟩
  -- no tag stands in a value
  | openTag | closeTag => exact absurd hk (by simp [NodeKind.fitsValue])
  | _ =>
    obtain rfl : p = [_] := hp
    exact .inr ⟨_, _, rfl, rfl, fun _ => rfl⟩

/-- The pieces of a value lead with the text that the value leads with. -/
theorem LowersTo.lead_eq (h : LowersTo n v ps) (hfit : FitsValue v) : Piece.lead ps = lead v := by
  induction v generalizing ps with
  | nil =>
    obtain rfl := lowersTo_nil.mp h
    rfl
  | cons t v ih =>
    obtain ⟨hv, q, hq, ⟨id, s, bs, rfl, rfl⟩ | ⟨u, r, rfl, hlead, -⟩⟩ := h.of_value hfit
    · exact congrArg (s ++ ·) (ih hq hv)
    · exact hlead.symm

/-- A value by itself repeats only what is repeated below its nodes. -/
theorem LowersTo.repeatsAfter_value (h : LowersTo n v ps) (hfit : FitsValue v) (after : Bool) :
    Piece.repeatsAfter after ps = ps.any Piece.repeatsBelow := by
  induction v generalizing ps after with
  | nil =>
    obtain rfl := lowersTo_nil.mp h
    exact Piece.repeatsAfter_nil after
  | cons t v ih =>
    obtain ⟨hv, q, hq, ⟨id, s, bs, rfl, rfl⟩ | ⟨u, r, rfl, -, -⟩⟩ := h.of_value hfit
    · exact (Piece.repeatsAfter_text after id s q).trans (ih hq hv true)
    · rw [Piece.repeatsAfter_other, List.any_cons, ih hq hv false]
      rfl

/-- **A value that is visited again** repeats in its tag what runs on in it, besides what is repeated
below its nodes. -/
theorem LowersTo.repeatsAfter_echo (h : LowersTo n v ps) (hfit : FitsValue v) {after again : Bool}
    (hagain : after = false → again = false) :
    Piece.repeatsAfter after (Piece.echoAfter again ps)
      = (runsOn after v || ps.any Piece.repeatsBelow) := by
  induction v generalizing ps after again with
  | nil =>
    obtain rfl := lowersTo_nil.mp h
    rw [Piece.echoAfter_nil, Piece.repeatsAfter_nil]
    rfl
  | cons t v ih =>
    obtain ⟨hv, q, hq, ⟨id, s, bs, rfl, rfl⟩ | ⟨u, r, rfl, -, hruns⟩⟩ := h.of_value hfit
    · have hrest : Piece.repeatsAfter true (Piece.echoAfter true q) = _ :=
        ih hq hv fun hf => absurd hf.symm Bool.false_ne_true
      cases after with
      | true =>
        -- the text before the value takes this one in
        cases again with
        | true => exact hrest
        | false => exact hrest
      | false =>
        -- the first text of a run is the one that would take in the others
        obtain rfl := hagain rfl
        change ((Piece.lead q ++ "" != "") || Piece.repeatsAfter true (Piece.echoAfter true q))
          = ((!false && lead v != "") || runsOn true v || q.any Piece.repeatsBelow)
        rw [hrest, String.append_empty, hq.lead_eq hv, Bool.or_assoc]
        rfl
    · rw [Piece.echoAfter_other, Piece.repeatsAfter_other, ih hq hv fun _ => rfl, List.any_cons, hruns,
        Bool.or_left_comm]
      rfl

end Values

/-- Of two tests one passes somewhere if the first does or the second does. -/
theorem any_or {α : Type} (l : List α) (p q : α → Bool) :
    (l.any fun a => p a || q a) = (l.any p || l.any q) := by
  induction l with
  | nil => rfl
  | cons a l ih =>
    rw [List.any_cons, List.any_cons, List.any_cons, ih]
    cases p a <;> cases q a <;> simp

/-- **Repeated text.** Lowering repeats text if and only if an attribute value runs on. -/
theorem LowersTo.repeatsAfter_eq {n : NodeId} {ts : Forest} {ps : List Piece} (h : LowersTo n ts ps)
    (hl : Labelled ts) (hfit : ValuesFit ts) (after : Bool) :
    Piece.repeatsAfter after ps = repeatsValues ts := by
  induction ts using Forest.induct generalizing ps after with
  | nil =>
    obtain rfl := lowersTo_nil.mp h
    exact Piece.repeatsAfter_nil after
  | cons id k bs ts ihb iht =>
    obtain ⟨hkb, hlbs, hlts⟩ := labelled_cons.mp hl
    obtain ⟨hkf, hfbs, hfts⟩ := valuesFit_cons.mp hfit
    obtain ⟨inner, p, q, hinner, hp, hq, rfl⟩ := lowersTo_cons.mp h
    -- of the lists inside the node, each repeats what its own values do
    have hbodies : ∀ {r : List Piece → Bool} {r' : Forest → Bool},
        (∀ b ∈ bs, ∀ ps, LowersTo n b ps → r ps = r' b) → inner.any r = bs.any r' := by
      intro r r' hr
      clear ihb hp hkb hkf hlbs hfbs h hl hfit
      induction hinner with
      | nil => rfl
      | cons hb _ ih =>
        rw [List.any_cons, List.any_cons, hr _ List.mem_cons_self _ hb,
          ih fun b hb => hr b (List.mem_cons_of_mem _ hb)]
    have hinside : inner.any (Piece.repeatsAfter false) = bs.any repeatsValues :=
      hbodies fun b hb ps hps => ihb b hb hps (hlbs b hb) (hfbs b hb) false
    rw [repeatsValues_cons, Piece.repeatsAfter_append fun after => iht hq hlts hfts after]
    congr 1
    -- only a tag has values; each may run on in the tag, and may repeat text by itself
    cases k with
    | text s =>
      obtain rfl : p = [.text id s ""] := hp
      obtain rfl : bs = [] := List.map_eq_nil_iff.mp hkb.symm
      exact Piece.repeatsAfter_text after id s []
    | closeTag name =>
      obtain ⟨i, -, rfl⟩ := hp
      obtain rfl : bs = [] := List.map_eq_nil_iff.mp hkb.symm
      exact Piece.repeatsAfter_text after i _ []
    | openTag name as closed =>
      -- the lists of a tag are its values
      have hlen : inner.length = (as.filterMap (·.value)).length := by
        have hcount := congrArg List.length hkb
        rw [List.length_map] at hcount
        exact hinner.length_eq.symm.trans hcount.symm
      rw [TagPieces.repeatsAfter_eq hp hlen]
      have hvalues : inner.any (fun v => Piece.repeatsAfter true (Piece.echoAfter false v))
          = bs.any fun b => runsOn true b || repeatsValues b := by
        refine hbodies fun b hb ps hps => ?_
        have hfitb := hkf name as closed rfl b hb
        rw [hps.repeatsAfter_echo hfitb fun _ => rfl, ← hps.repeatsAfter_value hfitb false,
          ihb b hb hps (hlbs b hb) (hfbs b hb) false]
      rw [hvalues]
      exact any_or bs _ _
    | _ =>
      obtain rfl : p = [_] := hp
      rw [Piece.repeatsAfter_other, Piece.repeatsAfter_nil, Bool.or_false, hinside]
      rfl

end Forest

/-! ### What pieces spell -/

/-- The pieces of a tag spell the tag. -/
theorem TagPieces.spells {n : NodeId} {closed : Bool} {text : String} {as : List Attribute}
    {inner : List (List Piece)} {ps : List Piece} (h : TagPieces n closed text as inner ps)
    (hlen : inner.length = (as.filterMap (·.value)).length) :
    ps.flatMap (Piece.emit NodeTree.spell)
      = Emitted.chars text ++
          spellAttributes as (inner.map fun v => v.flatMap (Piece.emit NodeTree.spell)) ++
          Emitted.chars (tagEnd closed) := by
  induction as generalizing text inner ps with
  | nil =>
    obtain ⟨i, -, rfl⟩ := h
    rw [List.flatMap_singleton, Piece.emit, Emitted.chars_append, spellAttributes, List.append_nil]
  | cons a as ih =>
    obtain ⟨name, value, span⟩ := a
    cases value with
    | none =>
      -- the name alone goes on the text
      rw [ih h hlen, spellAttributes_none, Emitted.chars_append, Emitted.chars_append,
        Emitted.chars_append]
      simp only [List.append_assoc]
    | some v =>
      cases inner with
      | nil => exact absurd hlen (by simp)
      | cons v inner =>
        obtain ⟨i, qs, -, hqs, rfl⟩ := h
        -- the text up to the quote, the value, and what follows from the quote on
        rw [List.flatMap_cons, List.flatMap_append, Piece.flatMap_emit_echoAfter,
          ih hqs (by simpa using hlen), List.map_cons, spellAttributes_some, Piece.emit]
        simp only [Emitted.chars_append, List.append_assoc]

/-- The texts of a tag have nothing below them, so that what is repeated below is repeated in the values. -/
theorem TagPieces.any_repeatsBelow_eq {n : NodeId} {closed : Bool} {text : String}
    {as : List Attribute} {inner : List (List Piece)} {ps : List Piece}
    (h : TagPieces n closed text as inner ps)
    (hlen : inner.length = (as.filterMap (·.value)).length) :
    ps.any Piece.repeatsBelow = inner.any fun v => v.any Piece.repeatsBelow := by
  induction as generalizing text inner ps with
  | nil =>
    obtain ⟨i, -, rfl⟩ := h
    obtain rfl : inner = [] := List.length_eq_zero_iff.mp hlen
    rfl
  | cons a as ih =>
    obtain ⟨name, value, span⟩ := a
    cases value with
    | none => exact ih h hlen
    | some v =>
      cases inner with
      | nil => exact absurd hlen (by simp)
      | cons v inner =>
        obtain ⟨i, qs, -, hqs, rfl⟩ := h
        -- the text before the value has nothing below it
        rw [List.any_cons, List.any_append, Piece.any_repeatsBelow_echoAfter,
          ih hqs (by simpa using hlen), List.any_cons, Piece.repeatsBelow, Bool.false_or]

/-- What attributes spell grows with what their values spell. -/
theorem grows_spellAttributes {α β : Type} {R : α → β → Prop} {as : List Attribute} {xs : List α}
    {ys : List β} (hxy : List.Forall₂ R xs ys)
    (hlen : xs.length = (as.filterMap (·.value)).length) {f : α → List Emitted}
    {g : β → List Emitted} {r : β → Bool} (hR : ∀ x y, R x y → GrowsStrictly (r y) (f x) (g y)) :
    GrowsStrictly (ys.any r) (spellAttributes as (xs.map f)) (spellAttributes as (ys.map g)) := by
  induction as generalizing xs ys with
  | nil =>
    obtain rfl : xs = [] := List.length_eq_zero_iff.mp hlen
    obtain rfl := List.forall₂_nil_left_iff.mp hxy
    exact GrowsStrictly.refl _
  | cons a as ih =>
    obtain ⟨name, value, span⟩ := a
    cases value with
    | none => exact (ih hxy hlen).prepend _
    -- names and quotes are the same on both sides, so only the values grow
    | some v =>
      cases hxy with
      | nil => exact absurd hlen (by simp)
      | cons hx hrest =>
        have htail := ih hrest (by simpa using hlen)
        rw [List.map_cons, List.map_cons, List.any_cons, spellAttributes_some,
          spellAttributes_some]
        simp only [List.append_assoc]
        exact ((hR _ _ hx).append (htail.prepend _)).prepend _

namespace Forest

section Spelled

variable {n : NodeId} {ts : Forest} {ps : List Piece}

/-- What a list of pieces spells and what it ends as. -/
theorem grows_spell_finish {x : List Emitted}
    (h : GrowsStrictly (ps.any Piece.repeatsBelow) x (ps.flatMap (Piece.emit NodeTree.spell))) :
    GrowsStrictly (Piece.repeatsAfter false ps) x (spell (Piece.finishAfter false ps)) := by
  have hgrows := Piece.grows_finishAfter NodeTree.spell false ps fun _ _ => rfl
  have hlonger := Piece.length_finishAfter_lt NodeTree.spell false ps fun _ _ => rfl
  rw [if_neg Bool.false_ne_true, Emitted.chars_empty, List.nil_append, ← spell_eq_flatMap]
    at hgrows hlonger
  refine ⟨(h.mono (Piece.repeatsAfter_of_any false ps)).trans hgrows, fun hr => ?_⟩
  cases hany : ps.any Piece.repeatsBelow with
  | true => exact Nat.lt_of_lt_of_le (h.length_lt hany) hgrows.length_le
  | false => exact Nat.lt_of_le_of_lt h.length_le (hlonger hr hany)

/-- The pieces spell what the forest spells, and what is repeated below them. -/
theorem LowersTo.spells_pieces (h : LowersTo n ts ps) (hl : Labelled ts) :
    GrowsStrictly (ps.any Piece.repeatsBelow) (spell ts)
      (ps.flatMap (Piece.emit NodeTree.spell)) := by
  induction ts using Forest.induct generalizing ps with
  | nil =>
    obtain rfl := lowersTo_nil.mp h
    exact GrowsStrictly.refl []
  | cons id k bs ts ihb iht =>
    obtain ⟨hkb, hlbs, hlts⟩ := labelled_cons.mp hl
    obtain ⟨inner, p, q, hinner, hp, hq, rfl⟩ := lowersTo_cons.mp h
    rw [spell_cons, List.any_append, List.flatMap_append]
    refine GrowsStrictly.append ?_ (iht hq hlts)
    have hinner' : List.Forall₂ (fun b ps => b ∈ bs ∧ LowersTo n b ps) bs inner :=
      (List.forall₂_and_left (p := (· ∈ bs)) _ _).mpr ⟨fun _ hb => hb, hinner⟩
    have hbody : ∀ b ps, b ∈ bs ∧ LowersTo n b ps →
        GrowsStrictly (ps.any Piece.repeatsBelow) (spell b)
          (ps.flatMap (Piece.emit NodeTree.spell)) := fun b ps hb =>
      ihb b hb.1 hb.2 (hlbs b hb.1)
    -- each list is entered and left, so that what grows stays inside of it
    have hlists := GrowsStrictly.flatMap hinner' fun b ps hb =>
      GrowsStrictly.append (grows_spell_finish (hbody b ps hb)) (GrowsStrictly.refl [.leave])
    simp only [Bool.or_false] at hlists
    have hlen : bs.length = k.bodies.length := by rw [hkb, List.length_map]
    -- the node names as many lists as before
    have hfinish : ((inner.map (Piece.finishAfter false)).map roots).length = k.bodies.length := by
      rw [List.length_map, List.length_map, ← hinner.length_eq, hlen]
    -- a tag spells its text with its values inside, and any other node what its lists spell
    cases k with
    | text s =>
      obtain rfl : p = [.text id s ""] := hp
      rw [List.flatMap_singleton]
      exact GrowsStrictly.refl _
    | special x =>
      obtain rfl : p = [_] := hp
      obtain rfl : bs = [] := List.map_eq_nil_iff.mp hkb.symm
      obtain rfl := List.forall₂_nil_left_iff.mp hinner
      rw [List.flatMap_singleton]
      exact GrowsStrictly.refl _
    | closeTag name =>
      obtain ⟨i, -, rfl⟩ := hp
      rw [List.flatMap_singleton]
      exact GrowsStrictly.refl _
    | openTag name as closed =>
      have hvalues : inner.length = (as.filterMap (·.value)).length := hinner.length_eq.symm.trans hlen
      rw [TagPieces.spells hp hvalues, TagPieces.any_repeatsBelow_eq hp hvalues, NodeKind.spelling]
      exact ((grows_spellAttributes hinner' hlen hbody).prepend _).append_right _
    | _ =>
      obtain rfl : p = [_] := hp
      rw [List.any_cons, List.any_nil, Bool.or_false, List.flatMap_singleton, Piece.emit,
        NodeTree.spell, NodeKind.spelling_withBodies id hfinish, spellAll_eq_map, List.map_map]
      simp only [NodeKind.spelling, List.flatMap_map]
      exact hlists.prepend [_]

/-- **Spelling.** A lowered forest spells what the forest spells, and what is repeated. -/
theorem LowersTo.spells (h : LowersTo n ts ps) (hl : Labelled ts) (hfit : ValuesFit ts) :
    GrowsStrictly (repeatsValues ts) (spell ts) (spell (Piece.finishAfter false ps)) := by
  rw [← h.repeatsAfter_eq hl hfit false]
  exact grows_spell_finish (h.spells_pieces hl)

end Spelled

end Forest

/-! ### Numbers, lists and levels -/

/-- A piece of a tag is a new text or comes from a value. -/
theorem TagPieces.mem {n : NodeId} {closed : Bool} {text : String} {as : List Attribute}
    {inner : List (List Piece)} {ps : List Piece} (h : TagPieces n closed text as inner ps)
    {p : Piece} (hp : p ∈ ps) :
    (∃ i s, n ≤ i ∧ p = .text i s "") ∨ ∃ v ∈ inner, p ∈ Piece.echoAfter false v := by
  induction as generalizing text inner ps with
  | nil =>
    obtain ⟨i, hi, rfl⟩ := h
    exact Or.inl ⟨i, _, hi, List.mem_singleton.mp hp⟩
  | cons a as ih =>
    obtain ⟨name, value, span⟩ := a
    cases value with
    -- without a value no piece is put between
    | none => exact ih h hp
    | some v =>
      cases inner with
      | nil => exact ih h hp
      | cons v inner =>
        obtain ⟨i, qs, hi, hqs, rfl⟩ := h
        -- a text of the tag itself, a piece of the first value, or later
        rcases List.mem_cons.mp hp with rfl | hp
        · exact Or.inl ⟨i, _, hi, rfl⟩
        · rcases List.mem_append.mp hp with hp | hp
          · exact Or.inr ⟨v, List.mem_cons_self, hp⟩
          · exact (ih hqs hp).imp_right fun ⟨w, hw, hpw⟩ => ⟨w, List.mem_cons_of_mem _ hw, hpw⟩

namespace Forest

section Facts

variable {n : NodeId} {ts : Forest} {ps : List Piece}

/-- To every element of the second list belongs one of the first. -/
theorem exists_of_mem_forall₂ {α β : Type} {R : α → β → Prop} {as : List α} {bs : List β}
    (h : List.Forall₂ R as bs) {b : β} (hb : b ∈ bs) : ∃ a ∈ as, R a b := by
  induction h with
  | nil => exact absurd hb List.not_mem_nil
  | cons hab _ ih =>
    rcases List.mem_cons.mp hb with rfl | hb
    · exact ⟨_, List.mem_cons_self, hab⟩
    · obtain ⟨a, ha, hR⟩ := ih hb
      exact ⟨a, List.mem_cons_of_mem _ ha, hR⟩

/-- The nodes of a lowered forest are nodes of the forest and new ones. -/
theorem LowersTo.mem_ids (h : LowersTo n ts ps) {x : NodeId} (hx : x ∈ ps.flatMap Piece.ids) :
    x ∈ ids ts ∨ n ≤ x := by
  induction ts using Forest.induct generalizing ps with
  | nil =>
    obtain rfl := lowersTo_nil.mp h
    exact absurd hx List.not_mem_nil
  | cons id k bs ts ihb iht =>
    obtain ⟨inner, p, q, hinner, hp, hq, rfl⟩ := lowersTo_cons.mp h
    rw [ids_cons]
    rw [List.flatMap_append, List.mem_append] at hx
    -- what is found inside comes from one of the lists
    have hbody : ∀ v ∈ inner, x ∈ v.flatMap Piece.ids → x ∈ id :: (bs.flatMap ids ++ ids ts) ∨ n ≤ x := by
      intro v hv hxv
      obtain ⟨b, hb, hbv⟩ := exists_of_mem_forall₂ hinner hv
      refine (ihb b hb hbv hxv).imp_left fun hm => ?_
      exact List.mem_cons_of_mem _ (List.mem_append_left _ (List.mem_flatMap.mpr ⟨b, hb, hm⟩))
    rcases hx with hx | hx
    -- the texts of tags are new, everything else was there
    · cases k with
      | text s =>
        obtain rfl : p = [.text id s ""] := hp
        rw [List.flatMap_singleton, Piece.ids_text, List.mem_singleton] at hx
        exact Or.inl (hx ▸ List.mem_cons_self)
      | closeTag name =>
        obtain ⟨i, hi, rfl⟩ := hp
        rw [List.flatMap_singleton, Piece.ids_text, List.mem_singleton] at hx
        exact Or.inr (hx ▸ hi)
      | openTag name as closed =>
        obtain ⟨r, hr, hxr⟩ := List.mem_flatMap.mp hx
        rcases TagPieces.mem hp hr with ⟨i, s, hi, rfl⟩ | ⟨v, hv, hrv⟩
        · rw [Piece.ids_text, List.mem_singleton] at hxr
          exact Or.inr (hxr ▸ hi)
        · refine hbody v hv ?_
          rw [← Piece.flatMap_ids_echoAfter false]
          exact List.mem_flatMap.mpr ⟨r, hrv, hxr⟩
      | _ =>
        obtain rfl : p = [_] := hp
        rw [List.flatMap_singleton, Piece.ids_other, ids_cons, ids_nil, List.append_nil,
          List.mem_cons] at hx
        rcases hx with rfl | hx
        · exact Or.inl List.mem_cons_self
        · rw [List.flatMap_map] at hx
          obtain ⟨v, hv, hxv⟩ := List.mem_flatMap.mp hx
          exact hbody v hv ((Piece.ids_finishAfter false v).subset hxv)
    · refine (iht hq hx).imp_left fun hm => ?_
      exact List.mem_cons_of_mem _ (List.mem_append_right _ hm)

/-- The kinds in a lowered forest name the nodes that stand in it. -/
theorem LowersTo.labelled (h : LowersTo n ts ps) (hl : Labelled ts) :
    ∀ t r, Piece.other t r ∈ ps → Labelled [t] := by
  induction ts using Forest.induct generalizing ps with
  | nil =>
    obtain rfl := lowersTo_nil.mp h
    exact fun _ _ hm => absurd hm List.not_mem_nil
  | cons id k bs ts ihb iht =>
    obtain ⟨hkb, hlbs, hlts⟩ := labelled_cons.mp hl
    obtain ⟨inner, p, q, hinner, hp, hq, rfl⟩ := lowersTo_cons.mp h
    have hbody : ∀ v ∈ inner, ∀ t r, Piece.other t r ∈ v → Labelled [t] := by
      intro v hv
      obtain ⟨b, hb, hbv⟩ := exists_of_mem_forall₂ hinner hv
      exact ihb b hb hbv (hlbs b hb)
    -- as many lists as the node had
    have hfinish : ((inner.map (Piece.finishAfter false)).map roots).length = k.bodies.length := by
      rw [List.length_map, List.length_map, ← hinner.length_eq, hkb, List.length_map]
    intro t r hm
    rcases List.mem_append.mp hm with hm | hm
    -- only a node that is no tag is kept with its lists, which it names anew
    · cases k with
      | text s =>
        obtain rfl : p = [.text id s ""] := hp
        exact absurd (List.mem_singleton.mp hm) (by simp)
      | closeTag name =>
        obtain ⟨i, -, rfl⟩ := hp
        exact absurd (List.mem_singleton.mp hm) (by simp)
      | openTag name as closed =>
        rcases TagPieces.mem hp hm with ⟨i, s, -, he⟩ | ⟨v, hv, hmv⟩
        · exact absurd he (by simp)
        · exact hbody v hv t r (Piece.mem_of_other_mem_echoAfter hmv)
      | _ =>
        obtain rfl : p = [_] := hp
        obtain ⟨rfl, -⟩ := Piece.other.inj (List.mem_singleton.mp hm)
        rw [labelled_cons]
        refine ⟨NodeKind.bodies_withBodies _ _ hfinish, fun b' hb' => ?_, labelled_nil⟩
        obtain ⟨v, hv, rfl⟩ := List.mem_map.mp hb'
        exact Piece.labelled_finishAfter _ _ (hbody v hv)
    · exact iht hq hlts t r hm

/-- Joining texts adds no levels. -/
theorem within_finishAfter {d : Nat} (after : Bool) {ps : List Piece}
    (h : ∀ t r, Piece.other t r ∈ ps → ∀ b ∈ t.bodies, b.Within d) :
    (Piece.finishAfter after ps).Within (d + 1) := by
  induction ps generalizing after with
  | nil => rw [Piece.finishAfter_nil]; exact fun _ ht => absurd ht List.not_mem_nil
  | cons p ps ih =>
    -- texts have no bodies, so the rest decides whatever stands before it
    have hrest := fun after => ih after fun t r hm => h t r (List.mem_cons_of_mem _ hm)
    cases p with
    | other t r =>
      rw [Piece.finishAfter_other]
      exact List.forall_mem_cons.mpr ⟨h t r List.mem_cons_self, hrest false⟩
    | text i s again =>
      cases after with
      | true => exact hrest true
      | false =>
        exact List.forall_mem_cons.mpr ⟨fun _ hb => absurd hb List.not_mem_nil, hrest true⟩

/-- Lowering adds no levels. -/
theorem LowersTo.within {d : Nat} (h : LowersTo n ts ps) (hd : ts.Within (d + 1)) :
    ∀ t r, Piece.other t r ∈ ps → ∀ b ∈ t.bodies, b.Within d := by
  induction ts using Forest.induct generalizing ps d with
  | nil =>
    obtain rfl := lowersTo_nil.mp h
    exact fun _ _ hm => absurd hm List.not_mem_nil
  | cons id k bs ts ihb iht =>
    obtain ⟨hdk, hdts⟩ := List.forall_mem_cons.mp hd
    rw [NodeTree.bodies_node] at hdk
    obtain ⟨inner, p, q, hinner, hp, hq, rfl⟩ := lowersTo_cons.mp h
    intro t r hm
    -- a kept node, or a node in the value of a tag, which is one level up now
    rcases List.mem_append.mp hm with hm | hm
    · cases k with
      | text s =>
        obtain rfl : p = [.text id s ""] := hp
        exact absurd (List.mem_singleton.mp hm) (by simp)
      | closeTag name =>
        obtain ⟨i, -, rfl⟩ := hp
        exact absurd (List.mem_singleton.mp hm) (by simp)
      | openTag name as closed =>
        rcases TagPieces.mem hp hm with ⟨i, s, -, he⟩ | ⟨v, hv, hmv⟩
        · exact absurd he (by simp)
        · obtain ⟨b, hb, hbv⟩ := exists_of_mem_forall₂ hinner hv
          exact ihb b hb hbv (hdk b hb).succ t r (Piece.mem_of_other_mem_echoAfter hmv)
      | _ =>
        obtain rfl : p = [_] := hp
        obtain ⟨rfl, -⟩ := Piece.other.inj (List.mem_singleton.mp hm)
        intro b' hb'
        obtain ⟨v, hv, rfl⟩ := List.mem_map.mp hb'
        obtain ⟨b, hb, hbv⟩ := exists_of_mem_forall₂ hinner hv
        -- without levels left the list is empty, and so is what is made of it
        cases d with
        | zero =>
          obtain rfl : b = [] := hdk b hb
          obtain rfl := lowersTo_nil.mp hbv
          rfl
        | succ d => exact within_finishAfter false (ihb b hb hbv (hdk b hb))
    · exact iht hq hdts t r hm

end Facts

end Forest

end TemplateFrontend
