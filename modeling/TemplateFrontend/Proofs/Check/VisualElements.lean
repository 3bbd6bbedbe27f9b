import TemplateFrontend.Check.Conformance
import TemplateFrontend.Markup.Reader
import TemplateFrontend.Proofs.Readers
/-!
# Elements in a list of nodes

A block that logs a visual element wraps one HTML element. What an element is, a grammar says: an open tag, a list in
which every element is closed, and a close tag. `TemplateFile.rootElements` knows the grammar by a number only, that
of the elements that are open. Here the number is related to the names of these elements, the last one opened first:
`Finishes opened n ids` says that the list closes them one by one and has `n` elements after that, and it is followed
through the list from its end (`finishes_of_rootElements`).

Which names an open and a close tag may have is a parameter of the grammar. The count does not look at names, so it
accepts what the grammar accepts whatever the names are; `ClosesInOrder` is what is missing for elements whose tags
are named alike.

* `TemplateFile.Balanced`, `TemplateFile.Elements` — the grammar;
* `TemplateFile.ClosesInOrder` — every close tag is named like the element that it closes;
* `TemplateFile.elements_iff` — the grammar, as the count together with the names;
* `rootElements_counts_elements` — what the count and the check of visual elements accept.
-/

namespace TemplateFrontend

namespace TemplateFile

section Grammar

variable (f : TemplateFile) (closes : String → String → Prop)

/-- What may stand inside an element: anything, as long as each element in it is closed. `closes` relates the name of
an open tag to that of its close tag. -/
inductive Balanced : List NodeId → Prop
  | nil : Balanced []
  | other {id : NodeId} {rest : List NodeId} (hopen : ∀ name as, f.kind id ≠ .openTag name as false)
      (hclose : ∀ name, f.kind id ≠ .closeTag name) (hrest : Balanced rest) : Balanced (id :: rest)
  | element {start stop : NodeId} {inside rest : List NodeId} {name name' : String} {as : List Attribute}
      (hstart : f.kind start = .openTag name as false) (hinside : Balanced inside)
      (hstop : f.kind stop = .closeTag name') (hcloses : closes name name') (hrest : Balanced rest) :
      Balanced (start :: (inside ++ stop :: rest))

/-- So many elements, with nothing but blank text between them. -/
inductive Elements : Nat → List NodeId → Prop
  | nil : Elements 0 []
  | blank {n : Nat} {id : NodeId} {rest : List NodeId} {s : String} (hkind : f.kind id = .text s)
      (hblank : Text.allBlank s.toList = true) (hrest : Elements n rest) : Elements n (id :: rest)
  | selfClosing {n : Nat} {id : NodeId} {rest : List NodeId} {name : String} {as : List Attribute}
      (hkind : f.kind id = .openTag name as true) (hrest : Elements n rest) : Elements (n + 1) (id :: rest)
  | element {n : Nat} {start stop : NodeId} {inside rest : List NodeId} {name name' : String} {as : List Attribute}
      (hstart : f.kind start = .openTag name as false) (hinside : f.Balanced closes inside)
      (hstop : f.kind stop = .closeTag name') (hcloses : closes name name') (hrest : Elements n rest) :
      Elements (n + 1) (start :: (inside ++ stop :: rest))

/-- Every close tag has a name that closes the element opened last, `opened` being the open ones before the list. -/
def ClosesInOrder : (opened : List String) → List NodeId → Prop
  | _, [] => True
  | opened, id :: ids =>
    match f.kind id with
    | .openTag name _ selfClosing => ClosesInOrder (if selfClosing then opened else name :: opened) ids
    | .closeTag name' =>
      match opened with
      | name :: below => closes name name' ∧ ClosesInOrder below ids
      | [] => False
    | _ => ClosesInOrder opened ids

/-- The list closes the open elements in turn, and so many elements follow. -/
def Finishes : (opened : List String) → Nat → List NodeId → Prop
  | [], n, ids => f.Elements closes n ids
  | name :: below, n, ids =>
    ∃ inside stop rest name', ids = inside ++ stop :: rest ∧ f.Balanced closes inside ∧
      f.kind stop = .closeTag name' ∧ closes name name' ∧ Finishes below n rest

end Grammar

variable {f : TemplateFile} {closes : String → String → Prop} {id : NodeId} {ids : List NodeId} {n : Nat}
  {name name' : String} {as : List Attribute}

/-! ### One node -/

/-- An open tag is one more element at the top level, and what follows is inside it unless it closes itself.
-/
theorem rootElements_openTag {selfClosing : Bool} (h : f.kind id = .openTag name as selfClosing) (d : Nat) :
    f.rootElements d (id :: ids) =
      (f.rootElements (if selfClosing then d else d + 1) ids).map ((if d = 0 then 1 else 0) + ·) := by
  rw [rootElements, h]

/-- A close tag ends the element opened last. -/
theorem rootElements_closeTag (h : f.kind id = .closeTag name) (d : Nat) :
    f.rootElements (d + 1) (id :: ids) = f.rootElements d ids := by
  rw [rootElements, h]
  rfl

/-- What is inside an element does not matter, tags apart. -/
theorem rootElements_other (hopen : ∀ name as, f.kind id ≠ .openTag name as false)
    (hclose : ∀ name, f.kind id ≠ .closeTag name) (d : Nat) :
    f.rootElements (d + 1) (id :: ids) = f.rootElements (d + 1) ids := by
  cases hkind : f.kind id with
  | openTag name as selfClosing =>
    cases selfClosing with
    | false => exact absurd hkind (hopen name as)
    -- a tag that closes itself leaves the depth as it is
    | true =>
      rw [rootElements_openTag hkind]
      simp
  | closeTag name => exact absurd hkind (hclose name)
  | _ =>
    rw [rootElements, hkind]
    simp

/-- At the top level only blank text is passed over. -/
theorem rootElements_top (hopen : ∀ name as selfClosing, f.kind id ≠ .openTag name as selfClosing)
    (hclose : ∀ name, f.kind id ≠ .closeTag name) : f.rootElements 0 (id :: ids) = some n ↔
      ∃ s, f.kind id = .text s ∧ Text.allBlank s.toList = true ∧ f.rootElements 0 ids = some n := by
  cases hkind : f.kind id with
  | openTag name as selfClosing => exact absurd hkind (hopen name as selfClosing)
  | closeTag name => exact absurd hkind (hclose name)
  | text s =>
    rw [rootElements, hkind]
    simp
  | _ =>
    rw [rootElements, hkind]
    simp

/-- The name of an open tag has to be closed first. -/
theorem closesInOrder_openTag {selfClosing : Bool} (h : f.kind id = .openTag name as selfClosing)
    (opened : List String) : f.ClosesInOrder closes opened (id :: ids) ↔
      f.ClosesInOrder closes (if selfClosing then opened else name :: opened) ids := by
  rw [ClosesInOrder, h]

/-- A close tag has to close the name that was opened last. -/
theorem closesInOrder_closeTag (h : f.kind id = .closeTag name') (opened : List String) :
    f.ClosesInOrder closes opened (id :: ids) ↔
      ∃ name below, opened = name :: below ∧ closes name name' ∧ f.ClosesInOrder closes below ids := by
  rw [ClosesInOrder, h]
  cases opened with
  | nil => simp
  | cons name below => simp

/-- Nodes that are no tags do not matter for the names. -/
theorem closesInOrder_other (hopen : ∀ name as, f.kind id ≠ .openTag name as false)
    (hclose : ∀ name, f.kind id ≠ .closeTag name) (opened : List String) :
    f.ClosesInOrder closes opened (id :: ids) ↔ f.ClosesInOrder closes opened ids := by
  cases hkind : f.kind id with
  | openTag name as selfClosing =>
    cases selfClosing with
    | false => exact absurd hkind (hopen name as)
    | true => exact closesInOrder_openTag hkind opened
  | closeTag name => exact absurd hkind (hclose name)
  | _ => rw [ClosesInOrder, hkind]

/-! ### From the grammar to the count -/

/-- What is balanced inside an element adds nothing to the count. -/
theorem Balanced.rootElements_append {inside : List NodeId} (h : f.Balanced closes inside) (d : Nat)
    (rest : List NodeId) : f.rootElements (d + 1) (inside ++ rest) = f.rootElements (d + 1) rest := by
  induction h generalizing d rest with
  | nil => rfl
  | other hopen hclose _ ih =>
    rw [List.cons_append, rootElements_other hopen hclose, ih]
  | element hstart _ hstop _ _ ihinside ihrest =>
    -- one level deeper up to the close tag, which leads back to this level
    rw [List.cons_append, rootElements_openTag hstart, List.append_assoc, List.cons_append]
    show (f.rootElements (d + 1 + 1) _).map _ = _
    rw [ihinside, rootElements_closeTag hstop, ihrest]
    simp

/-- What is balanced leaves the open names as they are. -/
theorem Balanced.closesInOrder_append {inside : List NodeId} (h : f.Balanced closes inside)
    (opened : List String) (rest : List NodeId) :
    f.ClosesInOrder closes opened (inside ++ rest) ↔ f.ClosesInOrder closes opened rest := by
  induction h generalizing opened rest with
  | nil => rfl
  | other hopen hclose _ ih =>
    rw [List.cons_append, closesInOrder_other hopen hclose, ih]
  | element hstart _ hstop hcloses _ ihinside ihrest =>
    rw [List.cons_append, closesInOrder_openTag hstart, List.append_assoc, List.cons_append, ihinside,
      closesInOrder_closeTag hstop, ← ihrest]
    -- the close tag meets the name its own open tag has put on top
    constructor
    · rintro ⟨name, below, hopened, -, h⟩
      obtain ⟨-, rfl⟩ := List.cons.inj hopened
      exact h
    · intro h
      exact ⟨_, _, rfl, hcloses, h⟩

/-- So many elements are counted as so many. -/
theorem Elements.rootElements_eq (h : f.Elements closes n ids) : f.rootElements 0 ids = some n := by
  induction h with
  | nil => rfl
  | blank hkind hblank _ ih =>
    rw [rootElements, hkind]
    simp [hblank, ih]
  | selfClosing hkind _ ih =>
    rw [rootElements_openTag hkind, if_pos rfl, if_pos rfl, ih, Option.map_some, Nat.add_comm]
  | element hstart hinside hstop _ _ ih =>
    rw [rootElements_openTag hstart]
    -- the inside is counted one level down and the close tag comes back up
    show (f.rootElements (0 + 1) _).map _ = _
    rw [hinside.rootElements_append, rootElements_closeTag hstop, ih, if_pos rfl, Option.map_some, Nat.add_comm]

/-- In elements all tags are closed in order. -/
theorem Elements.closesInOrder (h : f.Elements closes n ids) : f.ClosesInOrder closes [] ids := by
  induction h with
  | nil => exact trivial
  | blank hkind _ _ ih => exact (closesInOrder_other (by simp [hkind]) (by simp [hkind]) []).mpr ih
  | selfClosing hkind _ ih => exact (closesInOrder_openTag hkind []).mpr ih
  | element hstart hinside hstop hcloses _ ih =>
    refine (closesInOrder_openTag hstart []).mpr ((hinside.closesInOrder_append _ _).mpr ?_)
    exact (closesInOrder_closeTag hstop _).mpr ⟨_, _, rfl, hcloses, ih⟩

/-! ### From the count to the grammar -/

namespace Finishes

/-- What stands inside of the element opened last. -/
theorem other {below : List String} (hopen : ∀ name as, f.kind id ≠ .openTag name as false)
    (hclose : ∀ name, f.kind id ≠ .closeTag name) (h : f.Finishes closes (name :: below) n ids) :
    f.Finishes closes (name :: below) n (id :: ids) := by
  obtain ⟨inside, stop, rest, name', rfl, hinside, hstop, hcloses, hrest⟩ := h
  exact ⟨id :: inside, stop, rest, name', rfl, .other hopen hclose hinside, hstop, hcloses, hrest⟩

/-- An element is opened: at the top level it is one more, elsewhere it stands inside of the one opened before. -/
theorem openTag {opened : List String} (hkind : f.kind id = .openTag name as false)
    (h : f.Finishes closes (name :: opened) n ids) :
    f.Finishes closes opened ((if opened.length = 0 then 1 else 0) + n) (id :: ids) := by
  obtain ⟨inside, stop, rest, name', rfl, hinside, hstop, hcloses, hrest⟩ := h
  cases opened with
  | nil =>
    rw [List.length_nil, if_pos rfl, Nat.add_comm]
    exact Elements.element hkind hinside hstop hcloses hrest
  | cons outer below =>
    obtain ⟨inside', stop', rest', name'', rfl, hinside', hstop', hcloses', hrest'⟩ := hrest
    rw [List.length_cons, if_neg (Nat.succ_ne_zero _), Nat.zero_add]
    refine ⟨id :: (inside ++ stop :: inside'), stop', rest', name'', by simp, ?_, hstop', hcloses', hrest'⟩
    exact .element hkind hinside hstop hcloses hinside'

end Finishes

/-- **Following the count.** The number of open elements is that of the names, and a list that is accepted with it
finishes them, if its close tags have the right names. -/
theorem finishes_of_rootElements {opened : List String} (h : f.rootElements opened.length ids = some n)
    (hcloses : f.ClosesInOrder closes opened ids) : f.Finishes closes opened n ids := by
  induction ids generalizing opened n with
  -- at the end nothing is open, or the count fails
  | nil =>
    cases opened with
    | nil =>
      obtain rfl := Option.some.inj h
      exact Elements.nil
    | cons name below => cases h
  | cons id ids ih =>
    cases hkind : f.kind id with
    | openTag name as selfClosing =>
      rw [rootElements_openTag hkind] at h
      rw [closesInOrder_openTag hkind] at hcloses
      obtain ⟨m, hm, rfl⟩ := Option.map_eq_some_iff.mp h
      cases selfClosing with
      -- what follows is inside the new element,
      | false =>
        have hm : f.rootElements (name :: opened).length ids = some m := hm
        exact (ih hm hcloses).openTag hkind
      -- or beside it, if it has no inside
      | true =>
        have hrest := ih hm hcloses
        cases opened with
        | nil =>
          show f.Elements closes (1 + m) _
          rw [Nat.add_comm]
          exact .selfClosing hkind hrest
        | cons outer below =>
          rw [List.length_cons, if_neg (Nat.succ_ne_zero _), Nat.zero_add]
          exact hrest.other (by simp [hkind]) (by simp [hkind])
    | closeTag name' =>
      -- the element opened last ends here, and its list is the empty one so far
      obtain ⟨name, below, rfl, hname, hbelow⟩ := (closesInOrder_closeTag hkind opened).mp hcloses
      rw [List.length_cons, rootElements_closeTag hkind] at h
      exact ⟨[], id, ids, name', rfl, .nil, hkind, hname, ih h hbelow⟩
    -- any other node is inside of what is open, or blank text between elements
    | _ =>
      have hopen : ∀ name as selfClosing, f.kind id ≠ .openTag name as selfClosing := by simp [hkind]
      have hclose : ∀ name, f.kind id ≠ .closeTag name := by simp [hkind]
      rw [closesInOrder_other (fun name as => hopen name as false) hclose] at hcloses
      cases opened with
      | nil =>
        obtain ⟨s, htext, hblank, hrest⟩ := (rootElements_top hopen hclose).mp h
        have hrest : f.rootElements ([] : List String).length ids = some n := hrest
        exact .blank htext hblank (ih hrest hcloses)
      | cons outer below =>
        rw [List.length_cons, rootElements_other (fun name as => hopen name as false) hclose] at h
        have h : f.rootElements (outer :: below).length ids = some n := h
        exact (ih h hcloses).other (fun name as => hopen name as false) hclose

/-- **The grammar as a count.** A list has so many elements if the count says so and the names of the tags agree. -/
theorem elements_iff : f.Elements closes n ids ↔
    f.rootElements 0 ids = some n ∧ f.ClosesInOrder closes [] ids :=
  ⟨fun h => ⟨h.rootElements_eq, h.closesInOrder⟩, fun h => finishes_of_rootElements h.1 h.2⟩

/-- If names do not matter, the count is all. -/
theorem closesInOrder_of_rootElements {opened : List String} (h : f.rootElements opened.length ids = some n) :
    f.ClosesInOrder (fun _ _ => True) opened ids := by
  induction ids generalizing opened n with
  | nil => exact trivial
  | cons id ids ih =>
    cases hkind : f.kind id with
    | openTag name as selfClosing =>
      rw [rootElements_openTag hkind] at h
      obtain ⟨m, hm, -⟩ := Option.map_eq_some_iff.mp h
      rw [closesInOrder_openTag hkind]
      cases selfClosing with
      | false =>
        have hm : f.rootElements (name :: opened).length ids = some m := hm
        exact ih hm
      | true => exact ih hm
    | closeTag name' =>
      cases opened with
      | nil =>
        -- with nothing open a close tag is not accepted
        rw [rootElements, hkind] at h
        cases h
      | cons name below =>
        rw [List.length_cons, rootElements_closeTag hkind] at h
        exact (closesInOrder_closeTag hkind _).mpr ⟨name, below, rfl, trivial, ih h⟩
    -- other nodes open and close nothing
    | _ =>
      have hopen : ∀ name as selfClosing, f.kind id ≠ .openTag name as selfClosing := by simp [hkind]
      have hclose : ∀ name, f.kind id ≠ .closeTag name := by simp [hkind]
      rw [closesInOrder_other (fun name as => hopen name as false) hclose]
      cases opened with
      | nil =>
        obtain ⟨s, -, -, hrest⟩ := (rootElements_top hopen hclose).mp h
        have hrest : f.rootElements ([] : List String).length ids = some n := hrest
        exact ih hrest
      | cons outer below =>
        rw [List.length_cons, rootElements_other (fun name as => hopen name as false) hclose] at h
        have h : f.rootElements (outer :: below).length ids = some n := h
        exact ih h

/-! ### The check -/

/-- The count is that of the elements, whatever the names of their tags. -/
theorem rootElements_eq_some_iff :
    f.rootElements 0 ids = some n ↔ f.Elements (fun _ _ => True) n ids := by
  rw [elements_iff]
  constructor
  · intro h
    have hcount : f.rootElements ([] : List String).length ids = some n := h
    exact ⟨h, closesInOrder_of_rootElements hcount⟩
  · intro h
    exact h.1

/-- A block has no problem if its visual element is known and it wraps one element. -/
theorem visualElementProblems_eq_nil_iff {known : VisualElements} :
    f.visualElementProblems known id = [] ↔ ∀ name body, f.kind id = .visualElement name body →
      (known.find? name).isSome = true ∧ f.rootElements 0 body = some 1 := by
  cases hkind : f.kind id with
  | visualElement name body =>
    rw [visualElementProblems, hkind]
    simp [Option.isSome_iff_ne_none]
  | _ =>
    rw [visualElementProblems, hkind]
    simp

/-- A file has none if no block that can be reached has one. -/
theorem checkVisualElements_eq_nil_iff {s : Settings} :
    f.checkVisualElements s = [] ↔ ∀ id ∈ f.reachable, ∀ name body, f.kind id = .visualElement name body →
      (s.visualElements.find? name).isSome = true ∧ f.rootElements 0 body = some 1 := by
  rw [checkVisualElements, List.flatMap_eq_nil_iff]
  refine forall₂_congr fun id _ => ?_
  rw [List.map_eq_nil_iff, visualElementProblems_eq_nil_iff]

/-- **What the count counts.** A list has so many top-level elements for it exactly if it is made of so many elements
and blank text, whatever the names of their tags are; it is made of elements whose tags are named alike exactly if,
besides, its tags close in order. The check of visual elements is silent exactly if every block of the file is about
a known element and wraps one element in the first sense. -/
theorem rootElements_counts_elements (f : TemplateFile) :
    (∀ n ids, f.rootElements 0 ids = some n ↔ f.Elements (fun _ _ => True) n ids) ∧
      (∀ n ids, f.Elements (· = ·) n ids ↔ f.rootElements 0 ids = some n ∧ f.ClosesInOrder (· = ·) [] ids) ∧
      ∀ s, f.checkVisualElements s = [] ↔ ∀ id ∈ f.reachable, ∀ name body, f.kind id = .visualElement name body →
        (s.visualElements.find? name).isSome = true ∧ f.Elements (fun _ _ => True) 1 body := by
  refine ⟨fun _ _ => rootElements_eq_some_iff, fun _ _ => elements_iff, ?_⟩
  intro s
  simp only [checkVisualElements_eq_nil_iff, rootElements_eq_some_iff]

end TemplateFile

/-! ### Tags with different names -/

/-- A block around a tag that is closed under another name. -/
def mismatchedTags : SourceText :=
  ⟨"a.st", "\x7bnamespace a\x7d\x7btemplate .t\x7d\x7bvelog Clickable\x7d<b></i>\x7b/velog\x7d\x7b/template\x7d"⟩

/-- Settings in which one visual element is known. -/
def clickable : Settings := { Settings.default default with visualElements := [⟨"Clickable", 7⟩] }

/-- A block that logs a visual element, as the name of the element and what the block wraps. -/
def NodeKind.logged? : NodeKind → Option (String × List NodeId)
  | .visualElement name body => some (name, body)
  | _ => none

/-- A node that logs a visual element is such a block. -/
theorem NodeKind.eq_of_logged? {k : NodeKind} {name : String} {body : List NodeId} (h : k.logged? = some (name, body)) :
    k = .visualElement name body := by
  cases k with
  | visualElement name' body' =>
    obtain ⟨rfl, rfl⟩ := Prod.mk.inj (Option.some.inj h)
    rfl
  | _ => cases h

/-- The name of a tag that opens an element, and whether it closes one. -/
def NodeKind.tagName? : NodeKind → Option (String × Bool)
  | .openTag name _ false => some (name, false)
  | .closeTag name => some (name, true)
  | _ => none

/-- A node with the name of a tag is a close tag, or an open one that does not close itself. -/
theorem NodeKind.exists_of_tagName? {k : NodeKind} {name : String} {closes : Bool}
    (h : k.tagName? = some (name, closes)) :
    if closes then k = .closeTag name else ∃ as, k = .openTag name as false := by
  cases k with
  | openTag name' as selfClosing =>
    cases selfClosing with
    | true => cases h
    | false =>
      obtain ⟨rfl, rfl⟩ := Prod.mk.inj (Option.some.inj h)
      exact ⟨as, rfl⟩
  | closeTag name' =>
    obtain ⟨rfl, rfl⟩ := Prod.mk.inj (Option.some.inj h)
    rfl
  | _ => cases h

/-- What the source is read to: a block around two tags, and no problem in it. -/
theorem parse_mismatchedTags : ∃ f, parse mismatchedTags = .ok f ∧ f.checkVisualElements clickable = [] ∧
    f.reachable.filterMap (fun id => (f.kind id).logged?) = [("Clickable", [0, 1])] ∧
    (f.kind 0).tagName? = some ("b", false) ∧ (f.kind 1).tagName? = some ("i", true) := by
  have hrun : (parse mismatchedTags).toOption.map (fun f => decide (f.checkVisualElements clickable = [] ∧
      f.reachable.filterMap (fun id => (f.kind id).logged?) = [("Clickable", [0, 1])] ∧
      (f.kind 0).tagName? = some ("b", false) ∧ (f.kind 1).tagName? = some ("i", true))) = some true := by
    decide +kernel
  obtain ⟨f, hp, hf⟩ := exists_of_toOption_map hrun
  exact ⟨f, hp, of_decide_eq_true hf⟩

/-- Nothing is said of a block around two tags with different names, which make up no element. -/
theorem checkVisualElements_misses_mismatchedTags : ∃ f, parse mismatchedTags = .ok f ∧
    f.checkVisualElements clickable = [] ∧ ∃ id ∈ f.reachable, ∃ body, f.kind id = .visualElement "Clickable" body ∧
      f.rootElements 0 body = some 1 ∧ ∀ n, ¬ f.Elements (· = ·) n body := by
  obtain ⟨f, hp, hcheck, hlogged, hopen, hclose⟩ := parse_mismatchedTags
  have hmem : ("Clickable", [0, 1]) ∈ f.reachable.filterMap fun id => (f.kind id).logged? := by
    rw [hlogged]
    exact List.mem_singleton_self _
  obtain ⟨id, hid, hkind⟩ := List.mem_filterMap.mp hmem
  have hblock := NodeKind.eq_of_logged? hkind
  obtain ⟨as, hstart⟩ := NodeKind.exists_of_tagName? hopen
  have hstop : f.kind 1 = .closeTag "i" := NodeKind.exists_of_tagName? hclose
  have hcounted := TemplateFile.checkVisualElements_eq_nil_iff.mp hcheck id hid _ _ hblock
  refine ⟨f, hp, hcheck, id, hid, [0, 1], hblock, hcounted.2, ?_⟩
  intro n hn
  -- the close tag would have to be named like the open one
  have horder := (TemplateFile.closesInOrder_openTag hstart []).mp hn.closesInOrder
  obtain ⟨name, below, hopened, rfl, -⟩ := (TemplateFile.closesInOrder_closeTag hstop _).mp horder
  obtain ⟨hname, -⟩ := List.cons.inj hopened
  exact absurd hname (by decide)

end TemplateFrontend
