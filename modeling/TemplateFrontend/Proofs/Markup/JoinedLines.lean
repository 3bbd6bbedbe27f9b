import TemplateFrontend.Proofs.Markup.NestedFiles
import Mathlib.Data.List.Forall2
/-!
# What joining lines keeps

Raw text loses its line breaks before it becomes a node. Joining may only take blanks away, or put one in for a
line break: the words of a text, and the tags in it, are what they were.

The lines are taken one after the other. `Joined source text` says how the text made so far stands to the lines that
were taken, and it holds again after one more line (`Joined.addLine`). The one thing that two lines can form where
they meet is a pair of characters that stand side by side without having done so before, and then the first is a `>`
or the second a `<`: everywhere else a space is put between.

* `solid` — the characters of a text that are not blank;
* `FoundIn` — two characters side by side, known by the solid characters before and after them;
* `Joined` — the invariant over the lines;
* `joinLines_dropsBlanks` — what joining keeps, and when it leaves nothing.
-/

namespace TemplateFrontend.Markup

open Text

/-! ### Solid characters -/

/-- The characters of a text that are not blank, in order. -/
def solid (cs : List Char) : List Char := cs.filter (! isBlank ·)

/-- The solid characters of two texts stand one after the other. -/
@[simp] theorem solid_append (as bs : List Char) : solid (as ++ bs) = solid as ++ solid bs :=
  List.filter_append ..

/-- A blank text has none. -/
theorem solid_eq_nil_iff {cs : List Char} : solid cs = [] ↔ allBlank cs = true := by
  simp [solid, allBlank, List.filter_eq_nil_iff]

/-- A blank character in front is none. -/
theorem solid_cons_of_blank {c : Char} (hc : isBlank c = true) (cs : List Char) : solid (c :: cs) = solid cs := by
  simp [solid, hc]

/-- Two characters stand side by side in a text, after the solid characters `before` and before the solid characters
`after`. -/
def FoundIn (cs before : List Char) (a b : Char) (after : List Char) : Prop :=
  ∃ front rest, cs = front ++ a :: b :: rest ∧ solid front = before ∧ solid rest = after

/-- Where a pair stands in a text of two parts: in the first one, where they meet, or in the second one. -/
theorem pair_append_cases {as bs front rest : List Char} {a b : Char}
    (h : as ++ bs = front ++ a :: b :: rest) :
    (∃ middle, as = front ++ a :: b :: middle ∧ rest = middle ++ bs) ∨
      (as = front ++ [a] ∧ bs = b :: rest) ∨
      ∃ middle, front = as ++ middle ∧ bs = middle ++ a :: b :: rest := by
  obtain ⟨middle, hfront, hbs⟩ | ⟨middle, has, hpair⟩ := List.append_eq_append_iff.mp h
  · exact .inr (.inr ⟨middle, hfront, hbs⟩)
  -- how much of the pair stands in the first list: nothing, its first character, or both
  · match middle, hpair with
    | [], hpair => exact .inr (.inr ⟨[], by simpa using has.symm, hpair.symm⟩)
    | [c], hpair =>
      obtain ⟨rfl, hbs⟩ := List.cons.inj hpair
      exact .inr (.inl ⟨has, hbs.symm⟩)
    | c :: d :: middle, hpair =>
      simp only [List.cons_append, List.cons.injEq] at hpair
      obtain ⟨rfl, rfl, hrest⟩ := hpair
      exact .inl ⟨middle, has, hrest⟩

/-! ### Trimmed lines -/

/-- The line is the text with blanks before and after it. -/
def Trimmed (line text : List Char) : Prop :=
  ∃ front rest, line = front ++ text ++ rest ∧ allBlank front = true ∧ allBlank rest = true

namespace Trimmed

variable {line text : List Char}

/-- A line that is left as it is. -/
theorem refl (line : List Char) : Trimmed line line := ⟨[], [], by simp, rfl, rfl⟩

/-- A line may be trimmed twice. -/
theorem trans {text' : List Char} (h : Trimmed line text) (h' : Trimmed text text') : Trimmed line text' := by
  obtain ⟨front, rest, rfl, hfront, hrest⟩ := h
  obtain ⟨front', rest', rfl, hfront', hrest'⟩ := h'
  refine ⟨front ++ front', rest' ++ rest, by simp, ?_, ?_⟩
  · rw [allBlank, List.all_append, Bool.and_eq_true]
    exact ⟨hfront, hfront'⟩
  · rw [allBlank, List.all_append, Bool.and_eq_true]
    exact ⟨hrest', hrest⟩

/-- The blanks at the start are trimmed. -/
theorem trimStart (line : List Char) : Trimmed line (trimStart line) := by
  refine ⟨line.takeWhile isBlank, [], ?_, List.all_takeWhile, rfl⟩
  rw [List.append_nil]
  exact List.takeWhile_append_dropWhile.symm

/-- The blanks at the end are trimmed. -/
theorem trimEnd (line : List Char) : Trimmed line (trimEnd line) := by
  refine ⟨[], (line.reverse.takeWhile isBlank).reverse, ?_, rfl, ?_⟩
  · rw [List.nil_append, Text.trimEnd, ← List.reverse_append, List.takeWhile_append_dropWhile, List.reverse_reverse]
  · rw [allBlank, List.all_reverse]
    exact List.all_takeWhile

/-- Trimming a line drops blanks only. -/
theorem solid_eq (h : Trimmed line text) : solid text = solid line := by
  obtain ⟨front, rest, rfl, hfront, hrest⟩ := h
  rw [solid_append, solid_append, solid_eq_nil_iff.mpr hfront, solid_eq_nil_iff.mpr hrest, List.nil_append,
    List.append_nil]

/-- What is left are characters of the line. -/
theorem subset (h : Trimmed line text) : text ⊆ line := by
  obtain ⟨front, rest, rfl, -, -⟩ := h
  intro c hc
  exact List.mem_append_left _ (List.mem_append_right _ hc)

end Trimmed

/-- Each line is trimmed by itself. -/
theorem forall₂_trimmedLines (lines : List (List Char)) : List.Forall₂ Trimmed lines (trimmedLines lines) := by
  have hfst : lines.zipIdx.map Prod.fst = lines := List.zipIdx_map_fst 0 lines
  conv => arg 2; rw [← hfst]
  rw [trimmedLines, List.forall₂_map_left_iff, List.forall₂_map_right_iff, List.forall₂_same]
  rintro ⟨line, i⟩ -
  dsimp only
  -- the first line keeps the blanks at its start, and the last one those at its end
  have hstart : Trimmed line (if i = 0 then line else trimStart line) := by
    split
    · exact .refl line
    · exact .trimStart line
  split
  · exact hstart
  · exact hstart.trans (.trimEnd _)

/-- Of several blank lines nothing is left: each is trimmed at one end at least. -/
theorem trimmedLines_of_blank {lines : List (List Char)} (hlen : 2 ≤ lines.length)
    (hblank : ∀ line ∈ lines, allBlank line = true) : ∀ line ∈ trimmedLines lines, line = [] := by
  intro text htext
  obtain ⟨⟨line, i⟩, hmem, rfl⟩ := List.mem_map.mp htext
  have hline : ∀ c ∈ line, isBlank c = true :=
    List.all_eq_true.mp (hblank line (List.fst_mem_of_mem_zipIdx hmem))
  have hstart : trimStart line = [] := trimStart_eq_nil_iff.mpr hline
  have hend : trimEnd line = [] := by
    rw [trimEnd, List.reverse_eq_nil_iff]
    exact trimStart_eq_nil_iff.mpr fun c hc => hline c (List.mem_reverse.mp hc)
  dsimp only
  -- each line is cut on one side at least, as there are two or more
  by_cases hfirst : i = 0
  · have hlast : i + 1 ≠ lines.length := by omega
    rw [if_neg hlast, if_pos hfirst, hend]
  · rw [if_neg hfirst, hstart]
    split <;> rfl

/-! ### One line after the other -/

/-- How the text that was made of some lines stands to these lines with the breaks between them. -/
structure Joined (source text : List Char) : Prop where
  /-- Only blanks went, and only blanks came. -/
  solid_eq : solid text = solid source
  break_notMem : '\n' ∉ text
  /-- Two characters that are side by side were so before, unless the first ends a tag or the second starts one. -/
  found : ∀ {before : List Char} {a b : Char} {after : List Char}, isBlank a = false → isBlank b = false →
    a ≠ '>' → b ≠ '<' → FoundIn text before a b after → FoundIn source before a b after

namespace Joined

variable {source text line : List Char}

/-- The first line stands by itself. -/
theorem of_trimmed (h : Trimmed line text) (hbreak : '\n' ∉ line) : Joined line text where
  solid_eq := h.solid_eq
  break_notMem hmem := hbreak (h.subset hmem)
  found := by
    rintro before a b after - - - - ⟨front, rest, rfl, rfl, rfl⟩
    obtain ⟨blanks, blanks', rfl, hblanks, hblanks'⟩ := h
    refine ⟨blanks ++ front, rest ++ blanks', by simp, ?_, ?_⟩
    · rw [solid_append, solid_eq_nil_iff.mpr hblanks, List.nil_append]
    · rw [solid_append, solid_eq_nil_iff.mpr hblanks', List.append_nil]

/-- What is put between a text and the next line is blank; it is nothing only where a tag ends or starts, or where
one of the two is empty. -/
theorem exists_addLine (text line : List Char) :
    ∃ gap, addLine text line = text ++ gap ++ line ∧ allBlank gap = true ∧ '\n' ∉ gap ∧
      (gap = [] → text = [] ∨ line = [] ∨ text.getLast? = some '>' ∨ line.head? = some '<') := by
  unfold addLine
  split
  · next hline =>
    obtain rfl := List.isEmpty_iff.mp hline
    exact ⟨[], by simp, rfl, by simp, fun _ => .inr (.inl rfl)⟩
  · split
    · next hmeet =>
      simp only [Bool.or_eq_true, List.isEmpty_iff, beq_iff_eq, or_assoc] at hmeet
      exact ⟨[], by simp, rfl, by simp, fun _ => hmeet.imp_right .inr⟩
    · exact ⟨[' '], by simp, rfl, by decide, fun h => absurd h (by simp)⟩

/-- **One more line.** -/
theorem addLine {shown : List Char} (h : Joined source text) (hline : Joined line shown) :
    Joined (source ++ '\n' :: line) (addLine text shown) := by
  obtain ⟨gap, hadd, hgap, hgapbreak, hmeet⟩ := exists_addLine text shown
  rw [hadd]
  refine ⟨?_, ?_, ?_⟩
  -- neither the break nor what is put in its place is solid
  · rw [solid_append, solid_append, solid_append, solid_eq_nil_iff.mpr hgap, solid_cons_of_blank rfl, List.append_nil,
      h.solid_eq, hline.solid_eq]
  · intro hmem
    rw [List.append_assoc, List.mem_append, List.mem_append] at hmem
    obtain hmem | hmem | hmem := hmem
    · exact h.break_notMem hmem
    · exact hgapbreak hmem
    · exact hline.break_notMem hmem
  · rintro before a b after ha hb hgt hlt ⟨front, rest, hpair, rfl, rfl⟩
    have hblank : ∀ c ∈ gap, isBlank c = true := List.all_eq_true.mp hgap
    rw [List.append_assoc] at hpair
    obtain ⟨middle, htext, rfl⟩ | ⟨htext, hrest⟩ | ⟨middle, rfl, hshown⟩ := pair_append_cases hpair
    · -- the pair was in the text before
      obtain ⟨front', rest', rfl, hfront', hrest'⟩ := h.found ha hb hgt hlt ⟨front, middle, htext, rfl, rfl⟩
      refine ⟨front', rest' ++ '\n' :: line, by simp, hfront', ?_⟩
      rw [solid_append, solid_append, solid_append, solid_eq_nil_iff.mpr hgap, solid_cons_of_blank rfl, hrest',
        hline.solid_eq, List.nil_append]
    · -- the text ends with the first character, and nothing was put behind it
      exfalso
      cases gap with
      | cons c gap =>
        obtain ⟨rfl, -⟩ := List.cons.inj hrest
        rw [hblank c List.mem_cons_self] at hb
        cases hb
      | nil =>
        rw [List.nil_append] at hrest
        obtain hnil | hnil | hlast | hhead := hmeet rfl
        · rw [htext] at hnil
          simp at hnil
        · rw [hrest] at hnil
          cases hnil
        · rw [htext, List.getLast?_append] at hlast
          exact hgt (Option.some.inj hlast)
        · rw [hrest] at hhead
          exact hlt (Option.some.inj hhead)
    · -- the pair is in the line, as no character of the gap is solid
      obtain ⟨front₁, hgap₁, hshown₁⟩ : ∃ front₁, middle = gap ++ front₁ ∧ shown = front₁ ++ a :: b :: rest := by
        obtain ⟨c, hin, -⟩ | ⟨hmid, -⟩ | hin := pair_append_cases hshown
        · rw [hblank a (by simp [hin])] at ha
          cases ha
        · rw [hblank a (by simp [hmid])] at ha
          cases ha
        · exact hin
      obtain ⟨front', rest', rfl, hfront', hrest'⟩ := hline.found ha hb hgt hlt ⟨front₁, rest, hshown₁, rfl, rfl⟩
      refine ⟨source ++ '\n' :: front', rest', by simp, ?_, hrest'⟩
      rw [hgap₁, solid_append, solid_append, solid_append, solid_eq_nil_iff.mpr hgap, solid_cons_of_blank rfl,
        h.solid_eq, hfront', List.nil_append]

/-- **All lines.** -/
theorem foldl {lines shown : List (List Char)} (h : Joined source text) (hlines : List.Forall₂ Trimmed lines shown)
    (hbreak : ∀ line ∈ lines, '\n' ∉ line) :
    Joined (source ++ lines.flatMap ('\n' :: ·)) (shown.foldl Markup.addLine text) := by
  induction hlines generalizing source text with
  | nil =>
    rw [List.flatMap_nil, List.append_nil]
    exact h
  | cons hline _ ih =>
    obtain ⟨hfirst, hrest⟩ := List.forall_mem_cons.mp hbreak
    rw [List.flatMap_cons, ← List.append_assoc, List.foldl_cons]
    exact ih (h.addLine (.of_trimmed hline hfirst)) hrest

end Joined

/-! ### Joined texts -/

/-- The parts of a text hold characters of the text, and none that separates them. -/
theorem of_mem_pieces {sep : Char} {cs p : List Char} (h : p ∈ Text.pieces sep cs) : sep ∉ p ∧ p ⊆ cs := by
  induction cs generalizing p with
  | nil =>
    obtain rfl := List.mem_singleton.mp h
    exact ⟨List.not_mem_nil, List.nil_subset _⟩
  | cons c cs ih =>
    unfold Text.pieces at h
    split at h
    -- at a separator a new part starts, which is empty so far
    · obtain rfl | h := List.mem_cons.mp h
      · exact ⟨List.not_mem_nil, List.nil_subset _⟩
      · exact ⟨(ih h).1, List.subset_cons_of_subset c (ih h).2⟩
    · next hc =>
      split at h
      · next hnil => exact absurd hnil (pieces_ne_nil sep cs)
      -- the character belongs to the first of the parts
      · next q qs hcons =>
        rw [hcons] at ih
        obtain rfl | h := List.mem_cons.mp h
        · obtain ⟨hsep, hsub⟩ := ih List.mem_cons_self
          refine ⟨?_, List.cons_subset_cons c hsub⟩
          intro hmem
          obtain rfl | hmem := List.mem_cons.mp hmem
          · exact hc rfl
          · exact hsep hmem
        · obtain ⟨hsep, hsub⟩ := ih (List.mem_cons_of_mem _ h)
          exact ⟨hsep, List.subset_cons_of_subset c hsub⟩

/-- A text with a break has two lines at least. -/
theorem two_le_length_pieces {sep : Char} {cs : List Char} (h : sep ∈ cs) : 2 ≤ (Text.pieces sep cs).length := by
  match hpieces : Text.pieces sep cs with
  | [] => exact absurd hpieces (pieces_ne_nil sep cs)
  | [p] =>
    -- the only part would be the whole text
    have hp : p = cs := by
      have hjoin := intercalate_pieces sep cs
      rw [hpieces] at hjoin
      simpa using hjoin
    have hself : p ∈ Text.pieces sep cs := by rw [hpieces]; exact List.mem_cons_self
    exact absurd (hp ▸ h) (of_mem_pieces hself).1
  | _ :: _ :: _ => simp

/-- Each line but the first has a break before it. -/
theorem intercalate_break (line : List Char) (lines : List (List Char)) :
    ['\n'].intercalate (line :: lines) = line ++ lines.flatMap ('\n' :: ·) := by
  induction lines generalizing line with
  | nil => simp
  | cons next lines ih => rw [List.intercalate_cons_cons, ih, List.flatMap_cons, List.append_assoc]; rfl

/-- Of empty lines nothing is put together. -/
theorem foldl_addLine_nil {lines : List (List Char)} (h : ∀ line ∈ lines, line = []) :
    lines.foldl addLine [] = [] := by
  induction lines with
  | nil => rfl
  | cons line lines ih =>
    obtain ⟨rfl, hlines⟩ := List.forall_mem_cons.mp h
    exact ih hlines

/-- A text with its lines joined. -/
theorem joined_pieces (text : List Char) :
    Joined text ((trimmedLines (Text.pieces '\n' text)).foldl addLine []) := by
  have htext := intercalate_pieces '\n' text
  have hbreak : ∀ line ∈ Text.pieces '\n' text, '\n' ∉ line := fun _ h => (of_mem_pieces h).1
  have htrimmed := forall₂_trimmedLines (Text.pieces '\n' text)
  cases hpieces : Text.pieces '\n' text with
  | nil => exact absurd hpieces (pieces_ne_nil '\n' text)
  | cons line lines =>
    rw [hpieces] at htext hbreak htrimmed
    obtain ⟨hfirst, hrest⟩ := List.forall_mem_cons.mp hbreak
    cases hshown : trimmedLines (line :: lines) with
    | nil =>
      rw [hshown] at htrimmed
      cases htrimmed
    | cons first shown =>
      rw [hshown] at htrimmed
      obtain ⟨hline, hlines⟩ := List.forall₂_cons.mp htrimmed
      -- nothing is put before the first line
      have hstart : addLine [] first = first := by
        unfold addLine
        split
        · next h => exact (List.isEmpty_iff.mp h).symm
        · rfl
      rw [List.foldl_cons, hstart, ← htext, intercalate_break]
      exact (Joined.of_trimmed hline hfirst).foldl hlines hrest

/-- Text without a break is kept, and of text with a break the joined lines are. -/
theorem joinLines_eq_some_iff {text joined : List Char} :
    joinLines text = some joined ↔ joined ≠ [] ∧
      joined = if '\n' ∈ text then (trimmedLines (Text.pieces '\n' text)).foldl addLine [] else text := by
  simp only [joinLines, List.contains_iff_mem, List.isEmpty_iff, Option.ite_none_left_eq_some, Option.some.injEq]
  constructor
  · rintro ⟨hne, rfl⟩
    exact ⟨hne, rfl⟩
  · rintro ⟨hne, rfl⟩
    exact ⟨hne, rfl⟩

/-- A text without a break stays as it is. -/
theorem joinLines_of_notMem {text : List Char} (hbreak : '\n' ∉ text) (hne : text ≠ []) :
    joinLines text = some text := by
  rw [joinLines_eq_some_iff, if_neg hbreak]
  exact ⟨hne, rfl⟩

/-- What is left is the text with its lines joined. -/
theorem joined_of_joinLines {text joined : List Char} (h : joinLines text = some joined) : Joined text joined := by
  obtain ⟨-, rfl⟩ := joinLines_eq_some_iff.mp h
  split
  · exact joined_pieces text
  · next hbreak => exact .of_trimmed (.refl text) hbreak

/-- Nothing is left of the empty text, and of blank text with a break in it. -/
theorem joinLines_eq_none_iff {text : List Char} :
    joinLines text = none ↔ text = [] ∨ ('\n' ∈ text ∧ allBlank text = true) := by
  constructor
  · intro h
    by_cases hbreak : '\n' ∈ text
    · exact .inr ⟨hbreak, allBlank_of_joinLines h⟩
    · left
      by_contra hne
      rw [joinLines_of_notMem hbreak hne] at h
      cases h
  -- back: if something were left, the fold over the lines would not be empty
  · rintro (rfl | ⟨hbreak, hblank⟩)
    · rfl
    · by_contra hsome
      obtain ⟨joined, hjoined⟩ := Option.ne_none_iff_exists'.mp hsome
      obtain ⟨hne, hfold⟩ := joinLines_eq_some_iff.mp hjoined
      rw [if_pos hbreak] at hfold
      -- the lines of a blank text are blank
      have hlines : ∀ line ∈ Text.pieces '\n' text, allBlank line = true := by
        intro line hline
        rw [allBlank, List.all_eq_true] at hblank ⊢
        exact fun c hc => hblank c ((of_mem_pieces hline).2 hc)
      refine hne (hfold.trans ?_)
      exact foldl_addLine_nil (trimmedLines_of_blank (two_le_length_pieces hbreak) hlines)

/-- **Joining drops blanks only.** The solid characters stay, in order; no break is left; nothing is left exactly of
an empty text and of blanks with a break; a text without a break is kept, so that joining again changes nothing;
and what stands right behind a `<`, be it a letter or a slash, stood there before. -/
theorem joinLines_dropsBlanks (text : List Char) :
    solid ((joinLines text).getD []) = solid text ∧
      (joinLines text = none ↔ text = [] ∨ ('\n' ∈ text ∧ allBlank text = true)) ∧
      ('\n' ∉ text → text ≠ [] → joinLines text = some text) ∧
      ∀ joined, joinLines text = some joined →
        '\n' ∉ joined ∧ joinLines joined = some joined ∧
        ∀ before c after, isBlank c = false → c ≠ '<' →
          FoundIn joined before '<' c after → FoundIn text before '<' c after := by
  refine ⟨?_, joinLines_eq_none_iff, joinLines_of_notMem, ?_⟩
  · cases h : joinLines text with
    | none =>
      -- nothing is left exactly if there was nothing but blanks
      have hblank : solid text = [] := solid_eq_nil_iff.mpr (allBlank_of_joinLines h)
      rw [hblank]
      rfl
    | some joined => exact (joined_of_joinLines h).solid_eq
  · intro joined h
    have hjoined := joined_of_joinLines h
    refine ⟨hjoined.break_notMem, joinLines_of_notMem hjoined.break_notMem (joinLines_eq_some_iff.mp h).1, ?_⟩
    intro before c after hc hne hfound
    exact hjoined.found rfl hc (by decide) hne hfound

/-- A less-than sign at the end of a line does not become the start of a tag. -/
example : joinLines "x <\n  b".toList = some "x < b".toList := by decide

end TemplateFrontend.Markup
