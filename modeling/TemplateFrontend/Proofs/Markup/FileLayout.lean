import TemplateFrontend.Proofs.Markup.CommandLayout
/-!
# The ranges of a source

Every step of reading a file keeps what was read laid out in the text up to where the input starts, or
fails with an error that points at a range of the text. So the ranges of a source that parses are sound,
and an error of another source has a location.

* `Markup.inBlock_yields`, `Markup.inCall_yields`, `Markup.inOpenTag_yields`,
  `Markup.inAttributeValue_yields`, `Markup.atTop_yields` — the steps in each kind of frame;
* `Markup.step_yields`, `Markup.run_yields` — one step and all of them;
* `parse_yields`, `parse_laidOut` — every source.
-/

namespace TemplateFrontend

open Text
open Extent (ofNodes)

namespace Markup

variable {content : List Char} {r r' : Reading} {tag : Tag} {html : Bool} {i : Input}
  {below : List Frame}

/-! ### Moving on -/

namespace Reading.LaidOut

/-- The input moves on and nothing else changes. -/
theorem moved (h : r.LaidOut content) (hafter : r.input.After r'.input)
    (hnodes : r'.file.nodes = r.file.nodes) (htemplates : r'.file.templates = r.file.templates)
    (hframes : r'.frames = r.frames) : r'.LaidOut content :=
  ⟨h.input.after hafter, (h.laidOut.congr hnodes htemplates hframes).mono hafter.offset_le⟩

/-- A tag is taken off the input, and reading goes on from there. -/
theorem readTag {g : Tag × Input → Except SyntaxError Reading} (h : r.LaidOut content)
    (hi : r.input.After i)
    (hg : ∀ tag rest, Reading.Took content { r with input := rest } tag →
      ReadsIn content (Reading.LaidOut content) (g (tag, rest))) :
    ReadsIn content (Reading.LaidOut content) (Tag.read i >>= g) := by
  have hpart := h.input.after hi
  refine (Tag.read_yields hpart).bind ?_
  rintro ⟨tag, rest⟩ - ⟨htag, hspan, hrest⟩
  refine hg tag rest ?_
  dsimp only at htag hspan hrest
  refine ⟨hpart.after hrest, htag, ?_, ?_⟩
  · rw [hspan]
  · rw [hspan]
    exact (h.laidOut.mono hi.offset_le).withInput rest

end Reading.LaidOut

/-- An error in a tag points at the next character, or at the end of the text. -/
theorem unexpectedInTag_fits (hi : i.PartOf content) (expected : String) :
    (unexpectedInTag i expected).span.Fits content := by
  unfold unexpectedInTag
  split
  · exact hi.fits_spanOf 1
  · exact hi.fits_offset

/-- A comment is taken off the input, and an error in it points at the text. -/
theorem skipComment_yields (hi : r.input.PartOf content) :
    ReadsIn content (fun r' => r.input.After r'.input ∧ r'.file = r.file ∧ r'.frames = r.frames)
      (skipComment r) := by
  have herror : ReadsIn content (fun _ => True) (skipComment r) := by
    unfold skipComment
    split
    · exact hi.fits_spanOf 2
    · trivial
  exact herror.mono fun r' h _ => ⟨skipComment_after h, skipComment_keeps h⟩

/-- After a comment everything is laid out as before. -/
theorem Reading.LaidOut.skipComment (h : r.LaidOut content) :
    ReadsIn content (Reading.LaidOut content) (skipComment r) := by
  refine (skipComment_yields h.input).mono ?_
  rintro r' - ⟨hafter, hfile, hframes⟩
  exact h.moved hafter (by rw [hfile]) (by rw [hfile]) hframes

/-! ### Steps inside of blocks -/

section Blocks

variable {opener : Tag} {block : Block} {nodes : List NodeId}

/-- Documentation changes no range of a declaration. -/
theorem extents_attachDoc (t : Template) (header : Header) (rest : Input) (doc : Option String) :
    (Block.template t (attachDoc header rest doc).1).extents = (Block.template t header).extents := by
  unfold attachDoc
  split
  · next after p _ hlast =>
    dsimp only
    split
    · rfl
    · -- the last parameter is replaced by one with the same range
      obtain ⟨front, hfront⟩ := List.getLast?_eq_some_iff.mp hlast
      simp [Block.extents, hfront, ParamDecl.extent]
  · rfl

/-- A comment in a block leaves everything laid out. -/
theorem commentInBlock_yields (hfr : r.frames = .block opener html block nodes :: below)
    (h : r.LaidOut content) :
    ReadsIn content (Reading.LaidOut content) (commentInBlock r opener html block nodes) := by
  unfold commentInBlock
  refine (skipComment_yields h.input).bind ?_
  rintro after - ⟨hafter, hfile, hframes⟩
  have hmoved : after.LaidOut content := h.moved hafter (by rw [hfile]) (by rw [hfile]) hframes
  have hfr' := hframes.trans hfr
  cases block with
  | template t header =>
    -- a comment in a header may document the declaration before it
    have hheader := (hmoved.laidOut.pop hfr').1.header
    have hattached (header' : Header) (doc : Option String)
        (hextents : (Block.template t header').extents = (Block.template t header).extents)
        (hclosed : header'.closed = header.closed) :
        (Reading.replace { after with doc } (.block opener html (.template t header') nodes)).LaidOut
          content := by
      have hnoted : Reading.LaidOutTo content after.input.offset { after with doc } :=
        hmoved.laidOut.congr rfl rfl rfl
      refine ⟨hmoved.input, hnoted.reframe hfr' rfl ?_ ?_⟩
      · exact congrArg (List.map (· ++ ofNodes nodes.reverse)) hextents
      · change (!header'.closed) = true → nodes = []
        rw [hclosed]
        exact hheader
    exact hattached _ _ (extents_attachDoc t header r.input after.doc)
      (closed_attachDoc header r.input after.doc)
  | branch | otherwise | loop | binding | message | visualElement | param =>
    exact hmoved.moved (.refl _) rfl rfl rfl

/-- A declaration in a block stands where its tag does. -/
theorem declareInBlock_yields (hfr : r.frames = .block opener html block nodes :: below)
    (h : r.Took content tag) :
    ReadsIn content (Reading.LaidOut content) (declareInBlock r opener html block nodes tag) := by
  obtain ⟨hframe, -, -⟩ := h.laidOut.pop hfr
  unfold declareInBlock
  cases block with
  | template t header =>
    dsimp only
    split
    · exact h.within.fits
    · next hclosed =>
      -- no nodes are put into a template before its body
      obtain rfl : nodes = [] := hframe.header (by simpa [Frame.inHeader, Block.inHeader] using hclosed)
      have hextents := hframe.extents
      rw [Frame.extents_block_nil] at hextents
      refine (declare_yields h.within hextents).bind fun header' _ hheader' => ?_
      have hnoted : Reading.LaidOutTo content tag.span.start { r with doc := none } :=
        h.laidOut.congr rfl rfl rfl
      refine ⟨h.input, hnoted.replace hfr ⟨hframe.fits, ?_, fun xs hxs => ?_, fun _ => rfl⟩ rfl⟩
      · exact Nat.le_trans hframe.stop_le h.le
      · rw [Frame.extents_block_nil] at hxs
        exact (hheader' xs hxs).mono (Nat.le_refl _) (Nat.le_of_eq h.stop_eq)
  | branch | otherwise | loop | binding | message | visualElement | param => exact h.within.fits

/-- **A tag inside a block.** -/
theorem tagInBlock_yields (hfr : r.frames = .block opener html block nodes :: below)
    (h : r.Took content tag) :
    ReadsIn content (Reading.LaidOut content) (tagInBlock r opener html block nodes tag) := by
  unfold tagInBlock
  split
  · exact endBlock_yields hfr h
  · split
    · exact (h.laidOut.pop hfr).1.fits
    · split
      · exact declareInBlock_yields hfr h
      · exact startCommand_yields h.startBody (inBody_startBody r)

/-- Text takes up the range that is taken for it, also where its blanks are not kept. -/
theorem textInBlock_laidOut (h : r.LaidOut content) (html : Bool) (block : Block) :
    (textInBlock r html block).LaidOut content := by
  have hmoved (n : Nat) : Reading.LaidOut content { r with input := r.input.drop n } :=
    h.moved (.drop _ n) rfl rfl rfl
  rw [textInBlock_eq]
  dsimp only
  split
  -- blanks are skipped before the body, and elsewhere if nothing is left of them
  · exact hmoved _
  · split
    · exact hmoved _
    · refine Reading.LaidOutTo.emit_leaf (h.laidOut.withInput _).startBody (inBody_startBody _) rfl ?_
        (h.input.fits_until (.drop _ _)) ?_
      · rw [input_startBody]
        exact (hmoved _).input
      · rw [input_startBody]

/-- An HTML tag stands where it is read. -/
theorem startHtmlTag_yields (h : r.LaidOut content) (hbody : InBody r.frames) :
    ReadsIn content (Reading.LaidOut content) (startHtmlTag r) := by
  have hname (n : Nat) : r.input.After ((r.input.drop n).takeWhile isTagNameChar).2 :=
    (Input.After.drop _ n).trans (.takeWhile _ _)
  unfold startHtmlTag
  dsimp only
  split
  · -- a closing tag is complete at once
    have hend := (hname 2).trans (.skipBlanks _)
    split
    · have hafter := hend.trans (.drop _ 1)
      exact Reading.LaidOutTo.emit_leaf (h.laidOut.withInput _) hbody rfl (h.input.after hafter)
        (h.input.fits_until hafter) rfl
    · exact unexpectedInTag_fits (h.input.after hend) _
  · -- an opening tag is open until its last attribute
    refine ⟨h.input.after (hname 1), (h.laidOut.withInput _).push hbody ?_ (Nat.le_refl _)⟩
    exact .opens h.input.fits_offset (hname 1).offset_le rfl (List.forall_mem_singleton.mpr (Nat.le_refl _))

/-- **One step inside a block.** -/
theorem inBlock_yields (hfr : r.frames = .block opener html block nodes :: below)
    (h : r.LaidOut content) :
    ReadsIn content (Reading.LaidOut content) (inBlock r opener html block nodes) := by
  unfold inBlock
  split
  -- a block that is not closed is an error at the tag that opened it
  · exact (h.laidOut.pop hfr).1.fits
  · exact commentInBlock_yields hfr h
  · exact h.readTag (.refl _) fun tag rest htook => tagInBlock_yields hfr htook
  · split
    · have hinput := input_startBody r
      refine startHtmlTag_yields ⟨?_, ?_⟩ (inBody_startBody r)
      · rw [hinput]
        exact h.input
      · rw [hinput]
        exact h.laidOut.startBody
    · exact textInBlock_laidOut h html block

end Blocks

/-! ### Steps inside of calls and tags -/

/-- **One step inside a call.** -/
theorem inCall_yields {opener : Tag} {c : Call} (hfr : r.frames = .call opener c :: below)
    (h : r.LaidOut content) : ReadsIn content (Reading.LaidOut content) (inCall r opener c) := by
  have hblanks : Reading.LaidOut content { r with input := r.input.skipBlanks } :=
    h.moved (.skipBlanks _) rfl rfl rfl
  have hbody : InBody r.frames := .of_frames hfr rfl
  unfold inCall
  dsimp only
  split
  · exact hblanks.skipComment
  -- so is a call that is not closed
  · exact (h.laidOut.pop hfr).1.fits
  · refine hblanks.readTag (.refl _) fun tag rest htook => ?_
    dsimp only
    split
    · exact htook.complete hfr rfl
    · split
      · exact startParam_yields htook hbody
      · exact htook.within.fits
  · exact hblanks.input.fits_spanOf _

/-- An attribute is put after those that the tag has already. -/
theorem addAttribute_laidOut {name : String} {start : Nat} {value : Option (List NodeId)} {lo : Nat}
    (h : r.LaidOutTo content lo) (hi : i.PartOf content) (hstart : IsBoundary content start)
    (hvalue : Extent.InOrder r.file.nodes content start i.offset (ofNodes (value.getD [])))
    (hlo : lo ≤ start) : (addAttribute r name start value i).LaidOut content := by
  have hle : lo ≤ i.offset := Nat.le_trans hlo hvalue.le
  have hfits : Span.Fits content ⟨start, i.offset⟩ := ⟨hvalue.le, hstart, hi.fits_offset.start⟩
  have hnew : (Attribute.extent ⟨name, value, ⟨start, i.offset⟩⟩).Covers r.file.nodes content
      ⟨start, i.offset⟩ := ⟨rfl, hvalue⟩
  unfold addAttribute
  split
  · next tagStart tag attributes below hfr =>
    obtain ⟨hframe, -, -⟩ := h.pop hfr
    have hafter := Nat.le_trans hframe.stop_le hle
    refine ⟨hi, (h.withInput i).replace hfr ⟨hframe.fits, hafter, fun xs hxs => ?_, nofun⟩ rfl⟩
    obtain rfl := List.mem_singleton.mp hxs
    -- attributes are kept newest first, so the new one comes last in the text
    have hattributes := hframe.extents _ List.mem_cons_self
    rw [List.reverse_cons, List.map_append]
    exact hattributes.concat hnew hfits hlo (Nat.le_refl _)
  · exact ⟨hi, (h.withInput i).mono hle⟩

/-- A value without quotes is one new text. -/
theorem addText_laidOut {name text : String} {start lo : Nat} {j after : Input}
    (h : r.LaidOutTo content lo) (hj : j.PartOf content) (hafter : j.After after)
    (hstart : IsBoundary content start) (hlo : lo ≤ start) (hle : start ≤ j.offset) :
    (addAttribute { r with file := (r.file.add (.text text) ⟨j.offset, after.offset⟩).1 } name start
      (some [r.file.nodes.size]) after).LaidOut content := by
  have hfits := hj.fits_until hafter
  have hnew : Reading.LaidOutTo content lo
      { r with file := (r.file.add (.text text) ⟨j.offset, after.offset⟩).1 } := h.add hfits nofun
  have hcovers := Extent.covers_push_self content r.file.nodes
    ⟨.text text, ⟨j.offset, after.offset⟩⟩
  refine addAttribute_laidOut hnew (hj.after hafter) hstart ?_ hlo
  exact (Extent.InOrder.one hcovers hfits).mono hle (Nat.le_refl _)

/-- An attribute stands where it is read, its value with it. -/
theorem readAttribute_yields (h : r.LaidOut content) (hbody : InBody r.frames) (hi : r.input.After i) :
    ReadsIn content (Reading.LaidOut content) (readAttribute r i) := by
  have hpart := h.input.after hi
  have hstart := hpart.fits_offset.start
  -- nothing of the file reaches into the attribute yet
  have hto := h.laidOut.mono hi.offset_le
  have hname := (Input.After.takeWhile i (! endsAttributeName ·)).trans (.skipBlanks _)
  unfold readAttribute
  dsimp only
  split
  · exact unexpectedInTag_fits hpart _
  · split
    -- an attribute without a value ends with its name
    · exact addAttribute_laidOut hto (hpart.after hname) hstart hname.offset_le (Nat.le_refl _)
    · have hvalue := (hname.trans (.drop _ 1)).trans (.skipBlanks _)
      split
      · exact (hpart.after hvalue).fits_offset
      · split
        · -- the value is opened where the attribute starts, not at its quote
          have hquote := hvalue.trans (.drop _ 1)
          refine ⟨hpart.after hquote, (hto.withInput _).push hbody ?_ (Nat.le_refl _)⟩
          exact .opens hpart.fits_offset hquote.offset_le rfl
            (List.forall_mem_singleton.mpr (Nat.le_refl _))
        · exact addText_laidOut hto (hpart.after hvalue) (.takeWhile _ _) hstart (Nat.le_refl _)
            hvalue.offset_le

/-- **One step between the attributes of a tag.** -/
theorem inOpenTag_yields {start : Nat} {name : String} {attributes : List Attribute}
    (hfr : r.frames = .openTag start name attributes :: below) (h : r.LaidOut content) :
    ReadsIn content (Reading.LaidOut content) (inOpenTag r start name attributes) := by
  have hblanks := h.input.after (.skipBlanks _)
  have hbody : InBody r.frames := .of_frames hfr rfl
  -- the tag takes up the range from its first character to its end
  have hfinish (n : Nat) (closed : Bool) : Reading.LaidOut content
      (({ r with input := r.input.skipBlanks.drop n } : Reading).pop.emit
        (.openTag name attributes.reverse closed) ⟨start, (r.input.skipBlanks.drop n).offset⟩) := by
    have hafter := (Input.After.skipBlanks r.input).trans (.drop _ n)
    have hinput := h.input.after hafter
    have hto := h.laidOut.withInput (r.input.skipBlanks.drop n)
    refine .of_emit hinput (hto.complete hfr ?_ hinput.fits_offset.start hafter.offset_le)
    rfl
  unfold inOpenTag
  dsimp only
  split
  · exact hfinish 2 true
  · exact hfinish 1 false
  · exact hblanks.fits_offset
  · exact hblanks.fits_spanOf 1
  · exact readAttribute_yields h hbody (.skipBlanks _)

/-- **One step inside the value of an attribute.** -/
theorem inAttributeValue_yields {name : String} {start : Nat} {quote : Char} {nodes : List NodeId}
    (hfr : r.frames = .attributeValue name start quote nodes :: below) (h : r.LaidOut content) :
    ReadsIn content (Reading.LaidOut content) (inAttributeValue r name start quote nodes) := by
  have hbody : InBody r.frames := .of_frames hfr rfl
  unfold inAttributeValue
  split
  · exact h.input.fits_offset
  · split
    · obtain ⟨hframe, -, hbelow⟩ := h.laidOut.pop hfr
      -- the nodes of the value stand between the start of the attribute and its quote
      have hvalue := hframe.extents _ List.mem_cons_self
      exact addAttribute_laidOut hbelow (h.input.drop 1) hframe.fits.start
        (hvalue.mono (Nat.le_refl _) (Input.offset_le_drop _ 1)) (Nat.le_refl _)
    · split
      -- a command, which lies within the tag that was read
      · refine h.readTag (.refl _) fun tag rest htook => ?_
        dsimp only
        split
        · exact htook.within.fits
        · exact startCommand_yields htook hbody
      · have hafter := Input.After.takeWhile r.input fun c => !(c == quote || c == '\x7b')
        exact Reading.LaidOutTo.emit_leaf (h.laidOut.withInput _) hbody rfl (h.input.after hafter)
          (h.input.fits_until hafter) rfl

/-! ### Steps at the top of a file -/

/-- An error in the namespace points at its tag. -/
theorem declareNamespace_yields {f : TemplateFile} (ht : tag.Within content) :
    ReadsIn content (fun _ => True) (declareNamespace f tag) := by
  unfold declareNamespace
  split
  · exact ht.fits
  · split
    · exact ht.fits
    · exact (tag.args.word_yields ht.args _).bind fun _ _ _ => trivial

/-- An error in an alias points at its tag, or at what follows in it. -/
theorem declareAlias_yields {f : TemplateFile} (ht : tag.Within content) :
    ReadsIn content (fun _ => True) (declareAlias f tag) := by
  -- whichever name the alias has, the rest is checked and the alias noted
  have hend (name : String) (target : String) {i : Input} (hi : tag.args.After i) :
      ReadsIn content (fun _ => True)
        (if !i.isBlank then
          .error ⟨.unexpected (String.ofList i.skipBlanks.rest) "end of alias",
            i.skipBlanks.spanOf i.skipBlanks.rest.length⟩
        else if (f.aliases.lookup name).isSome then .error ⟨.invalid (.duplicateAlias name), tag.span⟩
        else .ok { f with aliases := f.aliases ++ [(name, target)] }) := by
    split
    · exact ((ht.args.after hi).after (.skipBlanks _)).fits_spanOf _
    · split
      · exact ht.fits
      · trivial
  unfold declareAlias
  refine (tag.args.word_yields ht.args _).bind ?_
  rintro ⟨⟨target, s⟩, i⟩ - ⟨-, -, hi⟩
  dsimp only at hi ⊢
  split
  · next j hmark =>
    have hj := hi.trans (.mark? hmark)
    refine (j.word_yields (ht.args.after hj) _).bind ?_
    rintro ⟨⟨name, _⟩, k⟩ - ⟨-, -, hk⟩
    exact hend name target (hj.trans hk)
  · exact hend _ target hi

/-- An error in the delegate package points at its tag. -/
theorem declarePackage_yields {f : TemplateFile} (ht : tag.Within content) :
    ReadsIn content (fun _ => True) (declarePackage f tag) := by
  unfold declarePackage
  exact (tag.args.word_yields ht.args _).bind fun _ _ _ => trivial

/-- An error in the tag of a template points at the tag, or at one of its settings. -/
theorem openTemplate_yields {f : TemplateFile} {kind : TemplateKind} {doc : Option String}
    (ht : tag.Within content) : ReadsIn content (fun _ => True) (openTemplate f kind doc tag) := by
  unfold openTemplate
  refine (tag.args.word_yields ht.args _).bind ?_
  rintro ⟨⟨written, s⟩, i⟩ - ⟨hs, -, hi⟩
  -- an error of the name stands at the word, one of a setting at the setting
  refine Yields.bind (P := fun _ => True) ?_ fun name _ _ => ?_
  · unfold templateName
    split
    · split
      · exact hs
      · split
        · trivial
        · exact hs
    · trivial
  · refine (Input.settings_yields (ht.args.after hi)).bind fun ss _ hss => ?_
    refine Yields.bind (P := fun _ => True) ?_ fun t _ _ => trivial
    exact Yields.foldlM (fun t s hs _ => templateSetting_yields (hss s hs)) trivial

/-- A declaration of the file changes neither its nodes nor what is open. -/
theorem declared_yields {file : Except SyntaxError TemplateFile} (h : r.LaidOut content)
    (hfile : ReadsIn content (fun _ => True) file)
    (hkeeps : ∀ f, file = .ok f → KeepsTree r.file f) :
    ReadsIn content (Reading.LaidOut content) (declared r file) := by
  unfold declared
  refine hfile.bind fun f hf _ => ?_
  obtain ⟨hnodes, htemplates, -, -⟩ := hkeeps f hf
  exact h.moved (.refl _) hnodes htemplates rfl

/-- Where a template is opened, nothing of its header is read. -/
theorem openedTemplate_laidOut {t : Template} {doc : Option String} {strict : Bool}
    (hfr : r.frames = []) (h : r.Took content tag) :
    (({ r with doc := doc, strict := strict } : Reading).push
      (.block tag strict (.template t ⟨[], [], false, none⟩) [])).LaidOut content := by
  have htook : Reading.Took content { r with doc := doc, strict := strict } tag :=
    ⟨h.input, h.within, h.stop_eq, h.laidOut.congr rfl rfl rfl⟩
  have hbody : InBody r.frames := by
    rw [hfr]
    rintro frame ⟨⟩
  refine htook.push hbody rfl rfl fun xs hxs => ?_
  have hnil : xs = [] := by simpa [Frame.extents, Block.extents, ofNodes] using hxs
  rw [hnil]
  exact h.none

/-- A declaration of the file stands where its tag does. -/
theorem startDeclaration_yields (hfr : r.frames = []) (h : r.Took content tag) :
    ReadsIn content (Reading.LaidOut content) (startDeclaration r tag) := by
  unfold startDeclaration
  split
  · exact (openTemplate_yields h.within).bind fun t _ _ => openedTemplate_laidOut hfr h
  · split
    · exact declared_yields h.skipped (declareNamespace_yields h.within) fun _ => declareNamespace_keeps
    · exact declared_yields h.skipped (declareAlias_yields h.within) fun _ => declareAlias_keeps
    · exact declared_yields h.skipped (declarePackage_yields h.within) fun _ => declarePackage_keeps
    · split
      · exact h.within.fits
      · exact h.within.fits

/-- **One step at the top of a file.** -/
theorem atTop_yields (hfr : r.frames = []) (h : r.LaidOut content) :
    ReadsIn content (Reading.LaidOut content) (atTop r) := by
  have hblanks : Reading.LaidOut content { r with input := r.input.skipBlanks } :=
    h.moved (.skipBlanks _) rfl rfl rfl
  unfold atTop
  dsimp only
  split
  · exact hblanks
  · exact hblanks.skipComment
  · exact hblanks.moved (.takeWhile _ _) rfl rfl rfl
  · exact hblanks.readTag (.refl _) fun tag rest htook => startDeclaration_yields hfr htook
  · exact hblanks.input.fits_spanOf _

/-! ### All steps -/

/-- **One step** keeps what was read laid out, or fails at a range of the text. -/
theorem step_yields (h : r.LaidOut content) : ReadsIn content (Reading.LaidOut content) (step r) := by
  unfold step
  split
  · next hfr => exact atTop_yields hfr h
  · next hfr => exact inBlock_yields hfr h
  · next hfr => exact inCall_yields hfr h
  · next hfr => exact inOpenTag_yields hfr h
  · next hfr => exact inAttributeValue_yields hfr h

/-- **All steps.** At the end nothing is open, and the templates stand in the text. -/
theorem run_yields (fuel : Nat) (h : r.LaidOut content) :
    ReadsIn content (TemplateFile.LaidOut content) (run fuel r) := by
  -- the invariant goes from step to step, and says what is claimed once nothing is open
  induction fuel generalizing r with
  | zero => exact h.input.fits_offset
  | succ fuel ih =>
    unfold run
    split
    · next hdone =>
      have hnil : r.frames = [] := by
        rw [Reading.isDone, Bool.and_eq_true] at hdone
        exact List.isEmpty_iff.mp hdone.2
      have htemplates := h.laidOut.frames
      rw [hnil] at htemplates
      exact ⟨h.laidOut.nodes, Extent.InOrder.mono htemplates (Nat.le_refl 0) h.input.fits_offset.stop_le⟩
    · exact (step_yields h).bind fun r' _ hr' => ih hr'

end Markup

/-- A source is laid out in its text, or its error points at a range of the text. -/
theorem parse_yields (source : SourceText) :
    ReadsIn source.content.toList (TemplateFile.LaidOut source.content.toList) (parse source) := by
  have hstart : (Markup.Reading.start source.path source.content.toList).LaidOut source.content.toList :=
    ⟨.whole _, fun _ hn => absurd hn (Array.not_mem_empty _), Nat.le_refl 0⟩
  exact Markup.run_yields (source.content.toList.length + 1) hstart

/-- **The ranges of a source are sound.** If the source parses, every node takes up a range of the text, and
what is inside it, nodes, expressions, declarations, directives, parameters and attributes, stands in that
range one after the other, each with its own parts in its own range. If it does not, the error points at a
range of the text, and its location goes from the line and column where that range starts to those where
it stops. -/
theorem parse_laidOut (source : SourceText) :
    match parse source with
    | .ok f => f.LaidOut source.content.toList
    | .error e => e.span.start + e.span.length ≤ byteLength source.content.toList ∧
      ∃ before range after, source.content.toList = before ++ range ++ after ∧
        e.span = ⟨byteLength before, byteLength (before ++ range)⟩ ∧
        source.location e.span =
          ⟨source.path, .after before, .after (before ++ range), some e.span⟩ := by
  have hrun := parse_yields source
  cases hparse : parse source with
  | ok f =>
    rw [hparse] at hrun
    exact hrun
  | error e =>
    rw [hparse] at hrun
    have hfits : e.span.Fits source.content.toList := hrun
    -- the range ends inside the text, and both of its ends are places in it
    refine ⟨?_, hfits.exists_location⟩
    rw [Span.length, Nat.add_sub_cancel' hfits.start_le_stop]
    exact hfits.stop_le

end TemplateFrontend
