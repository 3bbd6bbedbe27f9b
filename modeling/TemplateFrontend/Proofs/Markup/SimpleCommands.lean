import TemplateFrontend.Proofs.Markup.ValueTags
import TemplateFrontend.Proofs.Markup.StepCases
import TemplateFrontend.Proofs.Text.Runs
/-!
# Commands that take a word or nothing

A namespace, a package and a visual element take one word, an alias takes one or two, and what ends a block or
a part of it takes nothing. Which tags of these commands are read is said here of every text and every state.
Only an alias looks at what follows its words: of the others the word is taken from the front and the rest is
not looked at, and the tags that take nothing are known by their names alone.

* `StartsWithWord` — the word at the front of a text;
* `SaysAlias` — the texts that an alias may have, where `as` need not be a word of its own;
* `Markup.TakesSimple`, `Markup.step_eq_ok_iff_takesSimple` — every simple command that is read, and what is
  made of it.
-/

namespace TemplateFrontend

open Text

/-! ### Words -/

/-- The characters of a whole word, with a dollar sign before them or without one. -/
def Input.IsWholeWord (w : List Char) : Prop :=
  w ≠ [] ∧ ∃ run, (w = run ∨ w = '$' :: run) ∧ ∀ c ∈ run, isWordChar c = true

/-- The text starts with a word, blanks before it aside, and goes on behind the last character of it. -/
structure StartsWithWord (cs : List Char) (word : String) (more : List Char) : Prop where
  isWord : Input.IsWholeWord word.toList
  ends : ∀ c ∈ more.head?, Input.isWordChar c = false
  exists_blanks : ∃ bs, allBlank bs = true ∧ cs = bs ++ (word.toList ++ more)

namespace Input

variable {i j : Input} {cs more bs w mark : List Char} {expected word : String}

/-- What is skipped are blanks. -/
theorem exists_rest_skipBlanks (i : Input) : ∃ bs, allBlank bs = true ∧ i.rest = bs ++ i.skipBlanks.rest := by
  obtain ⟨n, hskip, hblank⟩ := i.exists_skipBlanks
  exact ⟨_, hblank, by rw [hskip]; exact (List.take_append_drop n i.rest).symm⟩

/-- The characters of words are no blanks. -/
theorem isBlank_of_isWordChar {c : Char} (h : isWordChar c = true) : Text.isBlank c = false := by
  unfold isWordChar at h
  rw [Bool.or_eq_true, Bool.or_eq_true, beq_iff_eq, beq_iff_eq] at h
  obtain (h | rfl) | rfl := h
  · exact isBlank_of_isNameChar h
  · rfl
  · rfl

/-- So a word does not start with one. -/
theorem IsWholeWord.isBlank_head (h : IsWholeWord w) : ∀ c ∈ (w ++ more).head?, Text.isBlank c = false := by
  obtain ⟨hne, run, rfl | rfl, hrun⟩ := h
  · obtain ⟨c, run, rfl⟩ := List.exists_cons_of_ne_nil hne
    rintro d hd
    obtain rfl := Option.some.inj hd
    exact isBlank_of_isWordChar (hrun _ List.mem_cons_self)
  · rintro d hd
    obtain rfl := Option.some.inj hd
    rfl

/-- Without a dollar sign a word is as long as its characters go. -/
theorem wordLength_of_ne_dollar (h : cs.head? ≠ some '$') :
    wordLength cs = (cs.takeWhile isWordChar).length := by
  unfold wordLength
  split
  · exact absurd rfl h
  · rfl

/-- A whole word that goes on with another character is as long as the reader takes it to be. -/
theorem wordLength_append (h : IsWholeWord w) (hmore : ∀ c ∈ more.head?, isWordChar c = false) :
    wordLength (w ++ more) = w.length := by
  obtain ⟨hne, run, rfl | rfl, hrun⟩ := h
  · have hhead : (w ++ more).head? ≠ some '$' := by
      obtain ⟨c, w, rfl⟩ := List.exists_cons_of_ne_nil hne
      intro hc
      obtain rfl := Option.some.inj hc
      exact absurd (hrun '$' List.mem_cons_self) (by decide)
    rw [wordLength_of_ne_dollar hhead, (takeWhile_run hrun hmore).1]
  · change ((run ++ more).takeWhile isWordChar).length + 1 = _
    rw [(takeWhile_run hrun hmore).1, List.length_cons]

/-- What the reader takes for a word is a whole one. -/
theorem isWholeWord_take (h : wordLength cs ≠ 0) : IsWholeWord (cs.take (wordLength cs)) ∧
    ∀ c ∈ (cs.drop (wordLength cs)).head?, isWordChar c = false := by
  -- the word ends at the first character that is none of a word
  have hends : ∀ (cs : List Char), ∀ c ∈ (cs.drop (cs.takeWhile isWordChar).length).head?,
      isWordChar c = false := by
    intro cs c hc
    change c ∈ ((⟨0, cs⟩ : Input).takeWhile isWordChar).2.rest.head? at hc
    rw [rest_takeWhile] at hc
    have hhead := List.head?_dropWhile_not isWordChar cs
    rwa [Option.mem_def.mp hc] at hhead
  -- a dollar sign counts only at the front
  by_cases hdollar : cs.head? = some '$'
  · obtain ⟨cs, rfl⟩ := List.head?_eq_some_iff.mp hdollar
    refine ⟨⟨List.cons_ne_nil _ _, cs.takeWhile isWordChar, .inr ?_, fun c hc => mem_takeWhile_imp hc⟩,
      hends cs⟩
    exact congrArg ('$' :: ·) (take_length_takeWhile isWordChar cs)
  · rw [wordLength_of_ne_dollar hdollar] at h ⊢
    refine ⟨⟨fun hnil => h ?_, _, .inl rfl, fun c hc => ?_⟩, hends cs⟩
    · rw [take_length_takeWhile] at hnil
      rw [hnil, List.length_nil]
    · exact mem_takeWhile_imp (take_length_takeWhile isWordChar cs ▸ hc)

/-- The word that is read is at the front of the text. -/
theorem startsWithWord_of_word {s : Span} (h : i.word expected = .ok ((word, s), j)) :
    StartsWithWord i.rest word j.rest := by
  obtain ⟨bs, hbs, hrest⟩ := i.exists_rest_skipBlanks
  unfold Input.word at h
  dsimp only at h
  split at h
  · cases h
  -- the word is not empty and ends where its characters do
  · next hlength =>
    obtain ⟨hw, rfl⟩ := Prod.mk.inj (Except.ok.inj h)
    obtain ⟨rfl, -⟩ := Prod.mk.inj hw
    obtain ⟨hword, hends⟩ := isWholeWord_take hlength
    rw [← String.toList_ofList (l := List.take _ _)] at hword
    refine ⟨hword, hends, bs, hbs, ?_⟩
    rw [String.toList_ofList]
    exact hrest.trans (congrArg (bs ++ ·) (List.take_append_drop _ _).symm)

/-- The word at the front of a text is read. -/
theorem exists_word_of_startsWithWord (expected : String) (h : StartsWithWord i.rest word more) :
    ∃ s j, i.word expected = .ok ((word, s), j) ∧ j.rest = more := by
  obtain ⟨hword, hends, bs, hbs, hrest⟩ := h
  -- skipping blanks comes to the word, and its length is the word's
  have hskip := congrArg Input.rest (skipBlanks_of_blanks bs hrest hbs hword.isBlank_head)
  have hlength := wordLength_append hword hends
  unfold Input.word
  dsimp only
  split
  · next hzero =>
    rw [hskip, hlength] at hzero
    exact absurd (List.length_eq_zero_iff.mp hzero) hword.1
  · refine ⟨_, _, congrArg Except.ok (Prod.ext (Prod.ext ?_ rfl) rfl), ?_⟩
    · rw [hskip, hlength, List.take_left, String.ofList_toList]
    · rw [drop, hskip, hlength]
      exact List.drop_left

/-- A mark is found behind blanks. -/
theorem exists_of_mark? (h : i.mark? mark = some j) :
    ∃ bs, allBlank bs = true ∧ i.rest = bs ++ (mark ++ j.rest) := by
  obtain ⟨bs, hbs, hrest⟩ := i.exists_rest_skipBlanks
  unfold Input.mark? at h
  dsimp only at h
  split at h
  · next hmark =>
    obtain rfl := Option.some.inj h
    obtain ⟨more, hmore⟩ := List.isPrefixOf_iff_prefix.mp hmark
    refine ⟨bs, hbs, hrest.trans (congrArg (bs ++ ·) ?_)⟩
    rw [drop, ← hmore, List.drop_left]
  · cases h

/-- A mark behind blanks is found, if it does not start with a blank itself. -/
theorem exists_mark? (hbs : allBlank bs = true) (hi : i.rest = bs ++ (mark ++ more))
    (hmark : ∀ c ∈ (mark ++ more).head?, Text.isBlank c = false) : ∃ j, i.mark? mark = some j ∧ j.rest = more := by
  have hskip := congrArg Input.rest (skipBlanks_of_blanks bs hi hbs hmark)
  refine ⟨i.skipBlanks.drop mark.length, ?_, ?_⟩
  · unfold Input.mark?
    dsimp only
    rw [hskip]
    exact if_pos (List.isPrefixOf_iff_prefix.mpr (List.prefix_append mark more))
  · rw [drop, hskip]
    exact List.drop_left

end Input

/-! ### Aliases -/

/-- The text makes a name stand for another one: for the name that is written behind the letters `as`, or for
the last part of its own. The letters need not be a word of their own. -/
inductive SaysAlias (cs : List Char) (target : String) : String → Prop
  | lastPart {more : List Char} (htarget : StartsWithWord cs target more) (hend : allBlank more = true) :
    SaysAlias cs target (String.ofList (lastPiece '.' target.toList))
  | renamed {name : String} {bs rest left : List Char} (htarget : StartsWithWord cs target (bs ++ ('a' :: 's' :: rest)))
    (hblank : allBlank bs = true) (hname : StartsWithWord rest name left) (hend : allBlank left = true) :
    SaysAlias cs target name

/-- The tag is that of a command that takes words or nothing, or it closes something. -/
def Tag.IsSimple (tag : Tag) : Prop :=
  tag.name ∈ ["namespace", "alias", "delpackage", "velog", "else"] ∨ tag.isClosing = true

namespace Tag

variable {tag : Tag}

/-- A name with a slash before it closes something. -/
theorem isClosing_of_name {name : String} (h : tag.name = "/" ++ name) : tag.isClosing = true := by
  rw [isClosing, h, String.toList_append]
  rfl

/-- A name without a slash closes nothing. -/
theorem isClosing_eq_false_of_mem {names : List String} (h : tag.name ∈ names)
    (hnames : names.all (fun name => name.toList.head? != some '/') = true) : tag.isClosing = false := by
  have hname := List.all_eq_true.mp hnames _ h
  rw [bne_iff_ne] at hname
  exact beq_eq_false_iff_ne.mpr hname

/-- A simple command has none of the names of others. -/
theorem IsSimple.name_notMem (h : tag.IsSimple) (names : List String)
    (hnames : names.all (fun name => name.toList.head? != some '/') = true)
    (hothers : names.all (fun name => ! ["namespace", "alias", "delpackage", "velog", "else"].contains name) = true) :
    tag.name ∉ names := by
  intro hmem
  obtain hname | hclosing := h
  · have hother := List.all_eq_true.mp hothers _ hmem
    rw [List.contains_iff_mem.mpr hname] at hother
    cases hother
  · rw [isClosing_eq_false_of_mem hmem hnames] at hclosing
    cases hclosing

/-- The text of a simple command is no special character. -/
theorem IsSimple.special_eq_none (h : tag.IsSimple) {i rest : Input} (hread : Tag.read i = .ok (tag, rest)) :
    SpecialChar.ofCommand? (String.ofList tag.content.rest) = none := by
  cases hspecial : SpecialChar.ofCommand? (String.ofList tag.content.rest) with
  | none => rfl
  | some c =>
    -- the whole text of the tag is its name then
    have hcommand : c.command = String.ofList tag.content.rest := by
      simpa using List.find?_some hspecial
    have hname := Markup.name_of_read hread
    rw [← String.toList_ofList (l := tag.content.rest), ← hcommand] at hname
    refine absurd ?_ (h.name_notMem (SpecialChar.all.map (·.command)) (by decide) (by decide))
    rw [hname]
    cases c <;> decide

end Tag

namespace Markup

section Declarations

variable {f g : TemplateFile} {tag : Tag}

/-- A namespace is named once, before the templates. What stands behind its name is dropped. -/
theorem declareNamespace_eq_ok_iff : declareNamespace f tag = .ok g ↔
    f.namespaceName = none ∧ f.templates = [] ∧
      ∃ name more, StartsWithWord tag.args.rest name more ∧ g = { f with namespaceName := some name } := by
  unfold declareNamespace
  -- the checks are the two conditions, and the rest of the tag is never looked at
  constructor
  · intro h
    split at h
    · cases h
    · next hnone =>
      split at h
      · cases h
      · next hempty =>
        obtain ⟨⟨⟨name, s⟩, j⟩, hword, h⟩ := exists_of_bind_ok h
        obtain rfl := Except.ok.inj h
        refine ⟨by simpa using hnone, by simpa using hempty, name, j.rest, ?_, rfl⟩
        exact Input.startsWithWord_of_word hword
  · rintro ⟨hnone, hempty, name, more, hname, rfl⟩
    obtain ⟨s, j, hword, -⟩ := Input.exists_word_of_startsWithWord "a namespace" hname
    rw [hnone, hempty, hword]
    rfl

/-- A delegate package may be named again, and what stands behind its name is dropped, too. -/
theorem declarePackage_eq_ok_iff : declarePackage f tag = .ok g ↔
    ∃ name more, StartsWithWord tag.args.rest name more ∧ g = { f with delegatePackage := some name } := by
  unfold declarePackage
  constructor
  · intro h
    obtain ⟨⟨⟨name, s⟩, j⟩, hword, h⟩ := exists_of_bind_ok h
    obtain rfl := Except.ok.inj h
    exact ⟨name, j.rest, Input.startsWithWord_of_word hword, rfl⟩
  · rintro ⟨name, more, hname, rfl⟩
    obtain ⟨s, j, hword, -⟩ := Input.exists_word_of_startsWithWord "a package name" hname
    rw [hword]
    rfl

/-- An alias is added if its text is at its end and its name is new. -/
theorem endOfAlias_eq_ok_iff {target name : String} {i : Input} {e₁ e₂ : SyntaxError} :
    (if (!i.isBlank) = true then .error e₁
      else if (f.aliases.lookup name).isSome = true then .error e₂
      else .ok { f with aliases := f.aliases ++ [(name, target)] }) = Except.ok g ↔
    allBlank i.rest = true ∧ f.aliases.lookup name = none ∧
      g = { f with aliases := f.aliases ++ [(name, target)] } := by
  have hblank : i.isBlank = allBlank i.rest := rfl
  rw [hblank]
  cases allBlank i.rest with
  | false => exact ⟨(nomatch ·), fun h => nomatch h.1⟩
  | true =>
    cases f.aliases.lookup name with
    | some old => exact ⟨(nomatch ·), fun h => nomatch h.2.1⟩
    | none => exact ⟨fun h => ⟨rfl, rfl, (Except.ok.inj h).symm⟩, fun h => congrArg Except.ok h.2.2.symm⟩

/-- The text of an alias is read to its end. -/
theorem declareAlias_eq_ok_iff : declareAlias f tag = .ok g ↔
    ∃ target name, SaysAlias tag.args.rest target name ∧ f.aliases.lookup name = none ∧
      g = { f with aliases := f.aliases ++ [(name, target)] } := by
  unfold declareAlias
  constructor
  · intro h
    obtain ⟨⟨⟨target, s⟩, i⟩, htarget, h⟩ := exists_of_bind_ok h
    have hword := Input.startsWithWord_of_word htarget
    dsimp only at h
    split at h
    · next k hmark =>
      obtain ⟨⟨⟨name, s'⟩, j⟩, hname, h⟩ := exists_of_bind_ok h
      obtain ⟨hend, hnew, rfl⟩ := endOfAlias_eq_ok_iff.mp h
      obtain ⟨bs, hbs, hrest⟩ := Input.exists_of_mark? hmark
      exact ⟨target, name, .renamed (hrest ▸ hword) hbs (Input.startsWithWord_of_word hname) hend, hnew, rfl⟩
    -- without an "as" the alias is the last part of the name
    · obtain ⟨hend, hnew, rfl⟩ := endOfAlias_eq_ok_iff.mp h
      exact ⟨target, _, .lastPart hword hend, hnew, rfl⟩
  · rintro ⟨target, name, hspelled, hnew, rfl⟩
    cases hspelled with
    | lastPart htarget hend =>
      obtain ⟨s, i, hword, rfl⟩ := Input.exists_word_of_startsWithWord "a namespace to alias" htarget
      have hmark : i.mark? ['a', 's'] = none := by
        -- only blanks are left
        cases hmark : i.mark? ['a', 's'] with
        | none => rfl
        | some j =>
          obtain ⟨bs, -, hrest⟩ := Input.exists_of_mark? hmark
          rw [hrest] at hend
          have ha := List.all_eq_true.mp hend 'a' (List.mem_append_right bs List.mem_cons_self)
          exact absurd ha (by decide)
      rw [hword, ok_bind]
      dsimp only
      rw [hmark]
      exact endOfAlias_eq_ok_iff.mpr ⟨hend, hnew, rfl⟩
    | @renamed _ bs rest _ htarget hblank hname hend =>
      obtain ⟨s, i, hword, hi⟩ := Input.exists_word_of_startsWithWord "a namespace to alias" htarget
      obtain ⟨k, hmark, rfl⟩ : ∃ k, i.mark? ['a', 's'] = some k ∧ k.rest = rest :=
        Input.exists_mark? hblank hi (by rintro c ⟨⟩; decide)
      obtain ⟨s', j, hword', rfl⟩ := Input.exists_word_of_startsWithWord "an alias name" hname
      -- the letters are found even if a longer word starts with them
      rw [hword, ok_bind]
      dsimp only
      rw [hmark]
      dsimp only
      rw [hword', ok_bind]
      exact endOfAlias_eq_ok_iff.mpr ⟨hend, hnew, rfl⟩

end Declarations

/-! ### Tags that are next -/

/-- The tag that is next in the text of a state, where tags are read, and what follows it. Blanks before it are
skipped where there is no text. -/
inductive Reading.NextTag (r : Reading) (tag : Tag) (rest : Input) : Prop
  | top {cs : List Char} (hfr : r.frames = []) (hrest : r.input.skipBlanks.rest = '\x7b' :: cs)
    (hread : Tag.read r.input.skipBlanks = .ok (tag, rest))
  | block {opener : Tag} {html : Bool} {block : Block} {nodes : List NodeId} {below : List Frame} {cs : List Char}
    (hfr : r.frames = .block opener html block nodes :: below) (hrest : r.input.rest = '\x7b' :: cs)
    (hread : Tag.read r.input = .ok (tag, rest))
  | call {opener : Tag} {call : Call} {below : List Frame} {cs : List Char}
    (hfr : r.frames = .call opener call :: below) (hrest : r.input.skipBlanks.rest = '\x7b' :: cs)
    (hread : Tag.read r.input.skipBlanks = .ok (tag, rest))
  | value {name : String} {start : Nat} {quote : Char} {nodes : List NodeId} {below : List Frame} {cs : List Char}
    (hfr : r.frames = .attributeValue name start quote nodes :: below) (hquote : quote ≠ '\x7b')
    (hrest : r.input.rest = '\x7b' :: cs) (hread : Tag.read r.input = .ok (tag, rest))

namespace Reading.NextTag

variable {r : Reading} {tag opener : Tag} {rest : Input} {below : List Frame}

/-- The next tag is read, from the text or from behind the blanks. -/
theorem exists_read (h : r.NextTag tag rest) : ∃ i, Tag.read i = .ok (tag, rest) := by
  cases h with
  | top _ _ hread => exact ⟨_, hread⟩
  | block _ _ hread => exact ⟨_, hread⟩
  | call _ _ hread => exact ⟨_, hread⟩
  | value _ _ _ hread => exact ⟨_, hread⟩

/-- At the top of a file the next tag is a declaration. -/
theorem step_top (h : r.NextTag tag rest) (hfr : r.frames = []) :
    step r = startDeclaration { r with input := rest } tag := by
  cases h with
  | top _ hrest hread =>
    unfold step atTop
    rw [hfr]
    dsimp only
    rw [hrest, hread]
    rfl
  | block hfr' => cases hfr.symm.trans hfr'
  | call hfr' => cases hfr.symm.trans hfr'
  | value hfr' => cases hfr.symm.trans hfr'

/-- In a block it ends the block, declares something or starts a command. -/
theorem step_block {html : Bool} {block : Block} {nodes : List NodeId} (h : r.NextTag tag rest)
    (hfr : r.frames = .block opener html block nodes :: below) :
    step r = tagInBlock { r with input := rest } opener html block nodes tag := by
  cases h with
  | block _ hrest hread =>
    unfold step inBlock
    rw [hfr]
    dsimp only
    rw [hrest, hread]
    rfl
  -- the other places have other frames on top
  | top hfr' => cases hfr.symm.trans hfr'
  | call hfr' => cases hfr.symm.trans hfr'
  | value hfr' => cases hfr.symm.trans hfr'

/-- In a call it ends the call or starts a parameter. -/
theorem step_call {call : Call} (h : r.NextTag tag rest) (hfr : r.frames = .call opener call :: below) :
    step r = if tag.name = opener.closing then
        .ok (({ r with input := rest } : Reading).pop.emit (.call call) (opener.span.union tag.span))
      else if tag.name = "param" then startParam { r with input := rest } tag
      else .error ⟨.misplaced tag.name "inside a call", tag.span⟩ := by
  cases h with
  | call _ hrest hread =>
    unfold step inCall
    rw [hfr]
    dsimp only
    rw [hrest, hread]
    rfl
  | top hfr' => cases hfr.symm.trans hfr'
  | block hfr' => cases hfr.symm.trans hfr'
  | value hfr' => cases hfr.symm.trans hfr'

/-- In a value of an attribute it starts a command, if it looks like a print. -/
theorem step_value {name : String} {start : Nat} {quote : Char} {nodes : List NodeId} (h : r.NextTag tag rest)
    (hfr : r.frames = .attributeValue name start quote nodes :: below) :
    step r = if !isPrintTag tag || ["if", "for", "call"].contains tag.name then
        .error ⟨.misplaced tag.name "inside an attribute value", tag.span⟩
      else startCommand { r with input := rest } tag false := by
  cases h with
  | value hfr' hquote hrest hread =>
    obtain ⟨heq, -⟩ := List.cons.inj (hfr.symm.trans hfr')
    -- the quote of the frame is the one that the value does not end with here
    obtain ⟨-, -, rfl, -⟩ := Frame.attributeValue.inj heq
    unfold step inAttributeValue
    rw [hfr]
    dsimp only
    rw [hrest]
    dsimp only
    rw [if_neg hquote.symm, if_pos rfl, hread]
    rfl
  | top hfr' => cases hfr.symm.trans hfr'
  | block hfr' => cases hfr.symm.trans hfr'
  | call hfr' => cases hfr.symm.trans hfr'

end Reading.NextTag

/-! ### What ends a block -/

/-- The node that a block becomes with the tag that closes it. Content that is passed by a call becomes none. -/
def Block.node? (body : List NodeId) : Block → Option NodeKind
  | .template t header => some (.template { t with params := header.params, state := header.state, body })
  | .branch before cond => some (.conditional (before ++ [⟨cond, body⟩]) none)
  | .otherwise branches => some (.conditional branches (some body))
  | .loop var list => some (.loop var list body)
  | .binding var kind => some (.binding var (.content kind body))
  | .message desc meaning => some (.message desc meaning body)
  | .visualElement name => some (.visualElement name body)
  | .param _ _ => none

section Blocks

variable {r r' : Reading} {tag opener : Tag} {html : Bool} {block : Block} {nodes body : List NodeId}
  {name : String}

/-- A tag that ends a block or a part of it closes something, or it is one of two between branches. -/
theorem isClosing_of_mem_terminators (h : tag.name ∈ block.terminators opener) :
    tag.isClosing = true ∨ tag.name ∈ ["elseif", "else"] ∧ ∃ before cond, block = .branch before cond := by
  cases block with
  | template t header => exact .inl (Tag.isClosing_of_name (List.mem_singleton.mp h))
  | branch before cond =>
    obtain h | h := List.mem_append.mp (show tag.name ∈ ["elseif", "else"] ++ ["/if"] from h)
    · exact .inr ⟨h, before, cond, rfl⟩
    · exact .inl (by rw [Tag.isClosing, List.mem_singleton.mp h]; rfl)
  | _ => exact .inl (by rw [Tag.isClosing, List.mem_singleton.mp h]; rfl)

/-- The tag that closes a block is known by its name alone. -/
theorem endBlock_of_isClosing (h : tag.isClosing = true) {kind : NodeKind} (hnode : block.node? body = some kind) :
    endBlock r opener html block body tag = .ok (r.pop.emit kind (opener.span.union tag.span)) := by
  cases block with
  | branch before cond =>
    -- a closing tag is neither of the two that go on with another branch
    have hname : tag.name ≠ "elseif" ∧ tag.name ≠ "else" := by
      constructor <;> intro heq <;> rw [Tag.isClosing, heq] at h <;> cases h
    obtain rfl := Option.some.inj hnode
    unfold endBlock
    dsimp only
    rw [if_neg hname.1, if_neg hname.2]
  | param name kind => cases hnode
  | _ =>
    obtain rfl := Option.some.inj hnode
    rfl

/-- The content of a parameter is the only block that becomes no node. -/
theorem exists_param_of_node? (h : block.node? body = none) : ∃ name kind, block = .param name kind := by
  cases block with
  | param name kind => exact ⟨name, kind, rfl⟩
  | _ => cases h

end Blocks

/-! ### Simple commands -/

/-- What is made of the tag of a simple command. Whatever is not listed here is an error. -/
inductive TakesSimple (r : Reading) (tag : Tag) (rest : Input) : Reading → Prop
  /-- Anything may follow the name. -/
  | namespaceName {name : String} {more : List Char} (hfr : r.frames = []) (hname : tag.name = "namespace")
    (hnone : r.file.namespaceName = none) (hempty : r.file.templates = [])
    (hword : StartsWithWord tag.args.rest name more) :
    TakesSimple r tag rest
      { r with input := rest, doc := none, file := { r.file with namespaceName := some name } }
  /-- Anything may follow the name. -/
  | package {name : String} {more : List Char} (hfr : r.frames = []) (hname : tag.name = "delpackage")
    (hword : StartsWithWord tag.args.rest name more) :
    TakesSimple r tag rest
      { r with input := rest, doc := none, file := { r.file with delegatePackage := some name } }
  /-- Nothing may follow the names. -/
  | aliasName {target name : String} (hfr : r.frames = []) (hname : tag.name = "alias")
    (hspelled : SaysAlias tag.args.rest target name) (hnew : r.file.aliases.lookup name = none) :
    TakesSimple r tag rest
      { r with input := rest, doc := none, file := { r.file with aliases := r.file.aliases ++ [(name, target)] } }
  /-- Anything may follow the name. -/
  | visualElement {opener : Tag} {html : Bool} {block : Block} {nodes : List NodeId} {below : List Frame}
    {name : String} {more : List Char} (hfr : r.frames = .block opener html block nodes :: below)
    (hname : tag.name = "velog") (hword : StartsWithWord tag.args.rest name more) :
    TakesSimple r tag rest
      ((startBody { r with input := rest }).push (.block tag html (.visualElement name) []))
  /-- In the value of an attribute it is taken for a print if the name starts like the rest of one. -/
  | visualElementInValue {owner : String} {start : Nat} {quote : Char} {nodes : List NodeId}
    {below : List Frame} {name : String} {more : List Char}
    (hfr : r.frames = .attributeValue owner start quote nodes :: below) (hname : tag.name = "velog")
    (hslips : tag.SlipsIn) (hword : StartsWithWord tag.args.rest name more) :
    TakesSimple r tag rest (({ r with input := rest } : Reading).push (.block tag false (.visualElement name) []))
  /-- Anything may follow the word. -/
  | otherwise {opener : Tag} {html : Bool} {before : List Branch} {cond : Expr} {nodes : List NodeId}
    {below : List Frame} (hfr : r.frames = .block opener html (.branch before cond) nodes :: below)
    (hname : tag.name = "else") :
    TakesSimple r tag rest (({ r with input := rest } : Reading).replace
      (.block opener html (.otherwise (before ++ [⟨cond, nodes.reverse⟩])) []))
  /-- Anything may follow the name of a closing tag. -/
  | closesBlock {opener : Tag} {html : Bool} {block : Block} {nodes : List NodeId} {below : List Frame}
    {kind : NodeKind} (hfr : r.frames = .block opener html block nodes :: below)
    (hclosing : tag.isClosing = true) (hname : tag.name ∈ block.terminators opener)
    (hnode : block.node? nodes.reverse = some kind) :
    TakesSimple r tag rest (({ r with input := rest } : Reading).pop.emit kind (opener.span.union tag.span))
  | closesParam {opener : Tag} {html : Bool} {name : String} {kind : ContentKind} {nodes : List NodeId}
    {below : List Frame} {r' : Reading} (hfr : r.frames = .block opener html (.param name kind) nodes :: below)
    (hname : tag.name = "/param")
    (hpass : passParam ({ r with input := rest } : Reading).pop
      ⟨name, .content kind nodes.reverse, opener.span.union tag.span⟩ opener.span = .ok r') :
    TakesSimple r tag rest r'
  | closesCall {opener : Tag} {call : Call} {below : List Frame} (hfr : r.frames = .call opener call :: below)
    (hname : tag.name = opener.closing) :
    TakesSimple r tag rest
      (({ r with input := rest } : Reading).pop.emit (.call call) (opener.span.union tag.span))

section Steps

variable {r r' : Reading} {tag opener : Tag} {rest : Input} {below : List Frame} {nodes : List NodeId}
  {html : Bool} {block : Block}

/-- A visual element takes one word, and what stands behind it is dropped. -/
theorem startVisualElement_eq_ok_iff : startVisualElement r tag html = .ok r' ↔
    ∃ name more, StartsWithWord tag.args.rest name more ∧
      r' = r.push (.block tag html (.visualElement name) []) := by
  unfold startVisualElement
  constructor
  · intro h
    obtain ⟨⟨⟨name, s⟩, j⟩, hword, h⟩ := exists_of_bind_ok h
    exact ⟨name, j.rest, Input.startsWithWord_of_word hword, (Except.ok.inj h).symm⟩
  · rintro ⟨name, more, hname, rfl⟩
    obtain ⟨s, j, hword, -⟩ := Input.exists_word_of_startsWithWord "a visual element name" hname
    rw [hword]
    rfl

/-- Of the simple commands only a visual element is started inside of a template. -/
theorem startCommand_of_isSimple (hsimple : tag.IsSimple)
    (hspecial : SpecialChar.ofCommand? (String.ofList tag.content.rest) = none) :
    startCommand r tag html = .ok r' ↔ tag.name = "velog" ∧ ∃ name more, StartsWithWord tag.args.rest name more ∧
      r' = r.push (.block tag html (.visualElement name) []) := by
  have hvelog (hname : tag.name = "velog") : startCommand r tag html = startVisualElement r tag html := by
    unfold startCommand
    rw [hspecial, hname]
    rfl
  rw [← startVisualElement_eq_ok_iff]
  constructor
  · intro h
    -- the simple commands have none of these names
    have hother := hsimple.name_notMem ["print", "if", "for", "let", "call", "delcall", "msg"]
      (by decide) (by decide)
    -- every other command that can start has another name, or is an expression
    have hname : tag.name = "velog" := by
      cases begins_of_startCommand h with
      | special hc => exact nomatch hspecial.symm.trans hc
      | print hi =>
        obtain ⟨-, hname⟩ | ⟨-, hexpr⟩ := hi
        · exact absurd (by rw [hname]; decide) hother
        · -- a simple command is no expression
          obtain hmem | hclosing := hsimple
          · simp only [List.mem_cons, List.not_mem_nil, or_false] at hmem
            obtain hname | hname | hname | hname | hname := hmem
            · exact absurd (by rw [hname]; decide) hexpr.not_file
            · exact absurd (by rw [hname]; decide) hexpr.not_file
            · exact absurd (by rw [hname]; decide) hexpr.not_file
            · exact hname
            · exact absurd (by rw [hname]; decide) hexpr.not_part
          · exact nomatch hclosing.symm.trans hexpr.not_closing
      | visualElement hname => exact hname
      | condition hname | loop hname | value hname | content hname | message hname =>
        exact absurd (by rw [hname]; decide) hother
      | call hname | openCall hname =>
        obtain hname | hname := hname <;> exact absurd (by rw [hname]; decide) hother
    exact ⟨hname, hvelog hname ▸ h⟩
  · rintro ⟨hname, h⟩
    rw [hvelog hname, h]

/-! #### In each place -/

/-- At the top of a file: a namespace, an alias or a delegate package. -/
theorem startDeclaration_eq_ok_iff (hsimple : tag.IsSimple) (hfr : r.frames = []) :
    startDeclaration { r with input := rest } tag = .ok r' ↔ TakesSimple r tag rest r' := by
  -- templates are no simple commands
  have hkind : TemplateKind.ofCommand? tag.name = none := by
    refine List.find?_eq_none.mpr fun kind hkind heq => ?_
    exact hsimple.name_notMem (TemplateKind.all.map (·.command)) (by decide) (by decide)
      (beq_iff_eq.mp heq ▸ List.mem_map_of_mem hkind)
  -- a declaration notes something in the file and drops the documentation that waits
  have hdeclared {file : Except SyntaxError TemplateFile} : declared { r with input := rest } file = .ok r' ↔
      ∃ f, file = .ok f ∧ r' = { r with input := rest, file := f, doc := none } := by
    unfold declared
    cases file with
    | error e => exact ⟨(nomatch ·), fun ⟨f, h, _⟩ => nomatch h⟩
    | ok f => exact ⟨fun h => ⟨f, rfl, (Except.ok.inj h).symm⟩, fun ⟨g, hg, h⟩ => by
        obtain rfl := Except.ok.inj hg
        rw [h]
        rfl⟩
  unfold startDeclaration
  rw [hkind]
  dsimp only
  constructor
  · intro h
    split at h
    -- one command after the other, each by its own lemma
    · next hname =>
      obtain ⟨f, hf, rfl⟩ := hdeclared.mp h
      obtain ⟨hnone, hempty, name, more, hword, rfl⟩ := declareNamespace_eq_ok_iff.mp hf
      exact .namespaceName hfr hname hnone hempty hword
    · next hname =>
      obtain ⟨f, hf, rfl⟩ := hdeclared.mp h
      obtain ⟨target, name, hspelled, hnew, rfl⟩ := declareAlias_eq_ok_iff.mp hf
      exact .aliasName hfr hname hspelled hnew
    · next hname =>
      obtain ⟨f, hf, rfl⟩ := hdeclared.mp h
      obtain ⟨name, more, hword, rfl⟩ := declarePackage_eq_ok_iff.mp hf
      exact .package hfr hname hword
    · split at h <;> cases h
  · intro h
    cases h with
    | namespaceName _ hname hnone hempty hword =>
      rw [hname]
      exact hdeclared.mpr ⟨_, declareNamespace_eq_ok_iff.mpr ⟨hnone, hempty, _, _, hword, rfl⟩, rfl⟩
    | package _ hname hword =>
      rw [hname]
      exact hdeclared.mpr ⟨_, declarePackage_eq_ok_iff.mpr ⟨_, _, hword, rfl⟩, rfl⟩
    | aliasName _ hname hspelled hnew =>
      rw [hname]
      exact hdeclared.mpr ⟨_, declareAlias_eq_ok_iff.mpr ⟨_, _, hspelled, hnew, rfl⟩, rfl⟩
    | visualElement hfr' | visualElementInValue hfr' | otherwise hfr' | closesBlock hfr' | closesParam hfr'
    | closesCall hfr' => cases hfr.symm.trans hfr'

/-- In a block: what ends it, `{else}` between two branches, and a visual element. -/
theorem tagInBlock_eq_ok_iff (hsimple : tag.IsSimple)
    (hspecial : SpecialChar.ofCommand? (String.ofList tag.content.rest) = none)
    (hfr : r.frames = .block opener html block nodes :: below) :
    tagInBlock { r with input := rest } opener html block nodes tag = .ok r' ↔ TakesSimple r tag rest r' := by
  have hheader : headerCommands.contains tag.name = false := by
    have hnotMem := hsimple.name_notMem headerCommands (by decide) (by decide)
    exact Bool.eq_false_iff.mpr fun h => hnotMem (List.contains_iff_mem.mp h)
  unfold tagInBlock
  constructor
  · intro h
    split at h
    · next hends =>
      have hname := List.contains_iff_mem.mp hends
      -- a tag that ends a block either closes it or starts the next branch
      by_cases hclosing : tag.isClosing = true
      · cases hnode : block.node? nodes.reverse with
        | some kind =>
          rw [endBlock_of_isClosing hclosing hnode] at h
          obtain rfl := Except.ok.inj h
          exact .closesBlock hfr hclosing hname hnode
        | none =>
          obtain ⟨name, kind, rfl⟩ := exists_param_of_node? hnode
          exact .closesParam hfr (List.mem_singleton.mp hname) h
      · -- between two branches
        obtain hclosing' | ⟨hpart, before, cond, rfl⟩ := isClosing_of_mem_terminators hname
        · exact absurd hclosing' hclosing
        · have helse : tag.name = "else" := by
            have hnotMem := hsimple.name_notMem ["elseif"] (by decide) (by decide)
            simp only [List.mem_cons, List.not_mem_nil, or_false] at hpart hnotMem
            exact hpart.resolve_left hnotMem
          -- only a branch goes on behind an `else`
          unfold endBlock at h
          dsimp only at h
          rw [helse, if_neg (by decide), if_pos rfl] at h
          obtain rfl := Except.ok.inj h
          exact .otherwise hfr helse
    · split at h
      · cases h
      -- neither the end of the block nor a declaration, so it starts something
      · rw [hheader, if_neg Bool.false_ne_true] at h
        obtain ⟨hname, name, more, hword, rfl⟩ := (startCommand_of_isSimple hsimple hspecial).mp h
        exact .visualElement hfr hname hword
  · intro h
    have hends {opener : Tag} {block : Block} (h : tag.name ∈ block.terminators opener) :
        (block.terminators opener).contains tag.name = true := List.contains_iff_mem.mpr h
    cases h with
    | visualElement hfr' hname hword =>
      obtain ⟨rfl, rfl, rfl, rfl⟩ := Frame.block.inj (List.cons.inj (hfr.symm.trans hfr')).1
      -- a visual element ends no block, so it is started
      have hopen : ¬ tag.isClosing = true := by rw [Tag.isClosing, hname]; decide
      have hgoesOn : ¬ (block.terminators opener).contains tag.name = true := by
        intro hcontains
        obtain hclosing | ⟨hpart, -⟩ := isClosing_of_mem_terminators (List.contains_iff_mem.mp hcontains)
        · exact hopen hclosing
        · exact absurd hpart (by rw [hname]; decide)
      rw [if_neg hgoesOn, if_neg hopen, hheader, if_neg Bool.false_ne_true]
      exact (startCommand_of_isSimple hsimple hspecial).mpr ⟨hname, _, _, hword, rfl⟩
    | otherwise hfr' hname =>
      obtain ⟨rfl, rfl, rfl, rfl⟩ := Frame.block.inj (List.cons.inj (hfr.symm.trans hfr')).1
      rw [if_pos (hends (by rw [hname]; exact List.mem_cons_of_mem _ List.mem_cons_self))]
      unfold endBlock
      dsimp only
      rw [hname, if_neg (by decide), if_pos rfl]
    | closesBlock hfr' hclosing hname hnode =>
      obtain ⟨rfl, rfl, rfl, rfl⟩ := Frame.block.inj (List.cons.inj (hfr.symm.trans hfr')).1
      rw [if_pos (hends hname)]
      exact endBlock_of_isClosing hclosing hnode
    | closesParam hfr' hname hpass =>
      obtain ⟨rfl, rfl, rfl, rfl⟩ := Frame.block.inj (List.cons.inj (hfr.symm.trans hfr')).1
      refine (if_pos (hends ?_)).trans hpass
      exact List.mem_singleton.mpr hname
    | namespaceName hfr' | package hfr' | aliasName hfr' | visualElementInValue hfr' | closesCall hfr' =>
      cases hfr.symm.trans hfr'

/-- In a call: only the tag that closes it. -/
theorem tagInCall_eq_ok_iff (hsimple : tag.IsSimple) {call : Call} (hnext : r.NextTag tag rest)
    (hfr : r.frames = .call opener call :: below) : step r = .ok r' ↔ TakesSimple r tag rest r' := by
  -- a parameter is no simple tag
  have hparam : tag.name ≠ "param" := fun hname =>
    hsimple.name_notMem ["param"] (by decide) (by decide) (by rw [hname]; decide)
  rw [hnext.step_call hfr, if_neg hparam]
  constructor
  · intro h
    split at h
    · next hname =>
      obtain rfl := Except.ok.inj h
      exact .closesCall hfr hname
    · cases h
  · intro h
    cases h with
    -- of the rules only this one has a call on top of the stack
    | closesCall hfr' hname =>
      obtain ⟨rfl, rfl⟩ := Frame.call.inj (List.cons.inj (hfr.symm.trans hfr')).1
      exact if_pos hname
    | namespaceName hfr' | package hfr' | aliasName hfr' | visualElement hfr' | visualElementInValue hfr'
    | otherwise hfr' | closesBlock hfr' | closesParam hfr' => cases hfr.symm.trans hfr'

/-- A visual element gets into the value of an attribute where its name looks like the rest of an expression. -/
theorem isPrintTag_iff_slipsIn (hname : tag.name = "velog")
    (hspecial : SpecialChar.ofCommand? (String.ofList tag.content.rest) = none)
    (hword : ∃ name more, StartsWithWord tag.args.rest name more) : isPrintTag tag = true ↔ tag.SlipsIn := by
  have hplain : tag.name.toList.all Char.isAlpha = true := by rw [hname]; decide
  constructor
  · intro h
    obtain ⟨name, more, hword⟩ := hword
    obtain ⟨s, j, hread, -⟩ := Input.exists_word_of_startsWithWord "" hword
    -- behind a plain word an operator makes the guard take the tag for an expression; of these only a dot
    -- and a minus sign start a word
    obtain hnil | ⟨c, cs, hargs, hc⟩ := args_of_isPrintTag h hspecial (by rw [hname]; decide) hplain
    · exact absurd hnil (Input.rest_ne_nil_of_word hread)
    · exact ⟨.inr hname, c, cs, hargs, (Input.word_of_operator hargs hc hread).1⟩
  · rintro ⟨-, c, cs, hargs, hc⟩
    have hoperator : (tag.args.rest.head?.any ("|(.+-*/%<>=!".toList.contains ·)) = true := by
      rw [hargs]
      obtain rfl | rfl := hc
      · show "|(.+-*/%<>=!".toList.contains '.' = true
        decide
      · show "|(.+-*/%<>=!".toList.contains '-' = true
        decide
    unfold isPrintTag
    dsimp only
    rw [hoperator, hname, Tag.isClosing, hname]
    simp

/-- In a value: only a visual element that looks like an expression. -/
theorem tagInValue_eq_ok_iff (hsimple : tag.IsSimple)
    (hspecial : SpecialChar.ofCommand? (String.ofList tag.content.rest) = none) {owner : String} {start : Nat}
    {quote : Char} (hnext : r.NextTag tag rest) (hfr : r.frames = .attributeValue owner start quote nodes :: below) :
    step r = .ok r' ↔ TakesSimple r tag rest r' := by
  rw [hnext.step_value hfr]
  constructor
  · intro h
    split at h
    · cases h
    -- the guard lets the tag pass and it is no block
    · next hallowed =>
      rw [Bool.or_eq_true, not_or, Bool.not_eq_true', Bool.not_eq_false] at hallowed
      obtain ⟨hname, name, more, hword, rfl⟩ := (startCommand_of_isSimple hsimple hspecial).mp h
      have hslips := (isPrintTag_iff_slipsIn hname hspecial ⟨name, more, hword⟩).mp hallowed.1
      exact .visualElementInValue hfr hname hslips hword
  · intro h
    cases h with
    | visualElementInValue hfr' hname hslips hword =>
      -- back: the guard asks for nothing but what it takes for a print
      have hprint := (isPrintTag_iff_slipsIn hname hspecial ⟨_, _, hword⟩).mpr hslips
      rw [hprint, hname, if_neg (by decide)]
      exact (startCommand_of_isSimple hsimple hspecial).mpr ⟨hname, _, _, hword, rfl⟩
    | namespaceName hfr' | package hfr' | aliasName hfr' | visualElement hfr' | otherwise hfr' | closesBlock hfr'
    | closesParam hfr' | closesCall hfr' => cases hfr.symm.trans hfr'

/-- **Simple commands.** Where the tag of one is next, a step reads it if and only if it is listed, and goes on as
it says there. -/
theorem step_eq_ok_iff_takesSimple (hnext : r.NextTag tag rest) (hsimple : tag.IsSimple) :
    step r = .ok r' ↔ TakesSimple r tag rest r' := by
  obtain ⟨i, hread⟩ := hnext.exists_read
  have hspecial := hsimple.special_eq_none hread
  -- one lemma above for each place a tag can stand in
  cases hnext with
  | top hfr hrest hread =>
    rw [(Reading.NextTag.top hfr hrest hread).step_top hfr]
    exact startDeclaration_eq_ok_iff hsimple hfr
  | block hfr hrest hread =>
    rw [(Reading.NextTag.block hfr hrest hread).step_block hfr]
    exact tagInBlock_eq_ok_iff hsimple hspecial hfr
  | call hfr hrest hread => exact tagInCall_eq_ok_iff hsimple (.call hfr hrest hread) hfr
  | value hfr hquote hrest hread => exact tagInValue_eq_ok_iff hsimple hspecial (.value hfr hquote hrest hread) hfr

end Steps

/-- An alias whose second word starts with `as`. -/
def joinedAlias : List Char := "\x7balias b.c asd\x7d".toList

/-- The word is taken for `as` and a name behind it. -/
theorem step_eq_ok_iff_takesSimple_joinedAlias : ∃ tag rest r',
    (Reading.start "a.st" joinedAlias).NextTag tag rest ∧ tag.IsSimple ∧
      step (.start "a.st" joinedAlias) = .ok r' ∧ TakesSimple (.start "a.st" joinedAlias) tag rest r' ∧
      r'.file.aliases = [("d", "b.c")] := by
  have hread : (Tag.read (Reading.start "a.st" joinedAlias).input.skipBlanks).toOption.map (fun p => p.1.name) =
      some "alias" := by decide +kernel
  obtain ⟨⟨tag, rest⟩, htag, hname⟩ := exists_of_toOption_map hread
  have hnext : (Reading.start "a.st" joinedAlias).NextTag tag rest :=
    .top rfl (show _ = '\x7b' :: "alias b.c asd\x7d".toList by decide +kernel) htag
  have hsimple : tag.IsSimple := .inl (by rw [show tag.name = "alias" from hname]; decide)
  have hstep : (step (.start "a.st" joinedAlias)).toOption.map (·.file.aliases) = some [("d", "b.c")] := by
    decide +kernel
  obtain ⟨r', hr', haliases⟩ := exists_of_toOption_map hstep
  exact ⟨tag, rest, r', hnext, hsimple, hr', (step_eq_ok_iff_takesSimple hnext hsimple).mp hr', haliases⟩

/-- Text behind the words of every simple command, and an alias whose second word starts with `as`. -/
def textBehindWords : SourceText :=
  ⟨"a.st", "\x7bnamespace a junk\x7d\x7bdelpackage p junk\x7d\x7balias b.c asd\x7d\x7btemplate .t\x7d" ++
    "\x7bvelog v junk\x7d\x7bif true\x7d1\x7belse if false\x7d2\x7b/if junk\x7d\x7b/velog junk\x7d" ++
    "\x7b/template junk\x7d"⟩

/-- None of it is an error. What is behind the words is dropped, so that the condition has two branches, and the
name of the alias is what is left of its word. -/
theorem parse_accepts_textBehindWords : ∃ f, parse textBehindWords = .ok f ∧ f.namespaceName = some "a" ∧
    f.delegatePackage = some "p" ∧ f.aliases = [("d", "b.c")] ∧
    f.reachable.map (fun id => (f.kind id).bodies.length) = [1, 1, 2, 0, 0] := by
  have hrun : (parse textBehindWords).toOption.map (fun f => (f.namespaceName, f.delegatePackage, f.aliases,
      f.reachable.map fun id => (f.kind id).bodies.length)) =
      some (some "a", some "p", [("d", "b.c")], [1, 1, 2, 0, 0]) := by
    decide +kernel
  obtain ⟨f, hp, hf⟩ := exists_of_toOption_map hrun
  obtain ⟨hnamespace, hf⟩ := Prod.mk.inj hf
  obtain ⟨hpackage, hf⟩ := Prod.mk.inj hf
  obtain ⟨haliases, hbodies⟩ := Prod.mk.inj hf
  exact ⟨f, hp, hnamespace, hpackage, haliases, hbodies⟩

end Markup

end TemplateFrontend
