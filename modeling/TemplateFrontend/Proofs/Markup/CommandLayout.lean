import TemplateFrontend.Proofs.Markup.FrameLayout
/-!
# Commands stand in the ranges of their tags

What is read of a command comes from its tag. So a node that is complete with its tag takes up the range
of the tag, a frame that the tag opens holds what the tag says, and an error points into the tag or at the
frame that it ends.

* `Markup.Reading.Took` — the state right after a tag was taken off the input;
* `Markup.startCommand_yields` — starting a command;
* `Markup.declare_yields` — declarations of a header;
* `Markup.endBlock_yields` — the end of a block.
-/

namespace TemplateFrontend

open Text
open Extent (ofNodes)

namespace Markup

variable {content : List Char} {r r' : Reading} {tag : Tag} {html : Bool} {i : Input}

/-- A tag was taken off the input, and what was read before stands up to it. -/
structure Reading.Took (content : List Char) (r : Reading) (tag : Tag) : Prop where
  input : r.input.PartOf content
  within : tag.Within content
  stop_eq : tag.span.stop = r.input.offset
  laidOut : r.LaidOutTo content tag.span.start

namespace Reading.Took

/-- The tag starts before the input that is left. -/
theorem le (h : r.Took content tag) : tag.span.start ≤ r.input.offset := by
  rw [← h.stop_eq]
  exact h.within.fits.start_le_stop

/-- The tag is left out. -/
theorem skipped (h : r.Took content tag) : r.LaidOut content := ⟨h.input, h.laidOut.mono h.le⟩

/-- With the tag the body of a template starts. -/
theorem startBody (h : r.Took content tag) : (startBody r).Took content tag := by
  have hinput := input_startBody r
  refine ⟨?_, h.within, ?_, h.laidOut.startBody⟩
  · rw [hinput]
    exact h.input
  · rw [hinput]
    exact h.stop_eq

/-- A node that is complete with its tag. -/
theorem emit {k : NodeKind} (h : r.Took content tag) (hbody : InBody r.frames)
    (hk : ∀ xs ∈ k.extents, Extent.InOrder r.file.nodes content tag.span.start tag.span.stop xs) :
    (r.emit k tag.span).LaidOut content :=
  .of_emit h.input
    (h.laidOut.emit hbody h.within.fits hk (Nat.le_refl _) (Nat.le_of_eq h.stop_eq))

/-- A frame that the tag opens. -/
theorem push {frame : Frame} (h : r.Took content tag) (hbody : InBody r.frames)
    (hopened : frame.opened = tag.span) (hnodes : frame.nodes = [])
    (hframe : ∀ xs ∈ frame.extents, Extent.InOrder r.file.nodes content tag.span.start tag.span.stop xs) :
    (r.push frame).LaidOut content := by
  rw [← hopened] at hframe
  refine ⟨h.input, h.laidOut.push hbody (.opens ?_ ?_ hnodes hframe) ?_⟩
  · rw [hopened]
    exact h.within.fits
  · rw [hopened]
    exact Nat.le_of_eq h.stop_eq
  · rw [hopened]

/-- A node with one list of parts, read from the tag. -/
theorem emit_one {k : NodeKind} {xs : List Extent} (h : r.Took content tag) (hbody : InBody r.frames)
    (hk : k.extents = [xs])
    (hxs : Extent.InOrder r.file.nodes content tag.span.start tag.span.stop xs) :
    (r.emit k tag.span).LaidOut content := by
  refine h.emit hbody ?_
  rw [hk]
  exact List.forall_mem_singleton.mpr hxs

/-- A frame with one list of parts, read from the tag. -/
theorem push_one {frame : Frame} {xs : List Extent} (h : r.Took content tag) (hbody : InBody r.frames)
    (hopened : frame.opened = tag.span) (hnodes : frame.nodes = []) (hframe : frame.extents = [xs])
    (hxs : Extent.InOrder r.file.nodes content tag.span.start tag.span.stop xs) :
    (r.push frame).LaidOut content := by
  refine h.push hbody hopened hnodes ?_
  rw [hframe]
  exact List.forall_mem_singleton.mpr hxs

/-- The range from where a frame was opened to the end of the tag. -/
theorem union_eq {frame : Frame} {below : List Frame} (h : r.Took content tag)
    (hfr : r.frames = frame :: below) :
    frame.opened.union tag.span = ⟨frame.opened.start, r.input.offset⟩ := by
  have hframe := (h.laidOut.pop hfr).1
  have hopened := hframe.fits.start_le_stop
  have hbefore := hframe.stop_le
  have htag := h.within.fits.start_le_stop
  rw [Span.union_eq (by omega) (by omega), h.stop_eq]

/-- A frame that the tag ends, and that is a node with it. -/
theorem complete {k : NodeKind} {frame : Frame} {below : List Frame} (h : r.Took content tag)
    (hfr : r.frames = frame :: below) (hk : k.extents = frame.extents) :
    (r.pop.emit k (frame.opened.union tag.span)).LaidOut content := by
  rw [h.union_eq hfr]
  exact .of_emit h.input (h.laidOut.complete hfr hk h.input.fits_offset.start h.le)

/-- Nothing of the frame was read besides its tag. -/
theorem none (h : r.Took content tag) :
    Extent.InOrder r.file.nodes content tag.span.start tag.span.stop [] :=
  h.within.fits.start_le_stop

end Reading.Took

/-! ### Settings of commands -/

/-- A wrong content kind is an error at its setting. -/
theorem contentKind_yields {s : Setting} (hs : s.span.Fits content) :
    ReadsIn content (fun _ => True) (contentKind s) := by
  unfold contentKind
  split
  · trivial
  · exact hs

/-- A block without a content kind is an error in its arguments. -/
theorem blockKind_yields (hi : i.PartOf content) : ReadsIn content (fun _ => True) (blockKind i) := by
  unfold blockKind
  refine (Input.settings_yields hi).bind fun ss _ hss => ?_
  refine Yields.foldlM (fun kind s hs _ => ?_) trivial
  split
  · exact contentKind_yields (hss s hs)
  · exact hss s hs

/-- A wrong setting of a template is an error at the setting. -/
theorem templateSetting_yields {t : Template} {s : Setting} (hs : s.span.Fits content) :
    ReadsIn content (fun _ => True) (templateSetting t s) := by
  unfold templateSetting
  -- one branch for each setting; an error of its value stands at the setting
  split
  · split
    · trivial
    · exact hs
  · exact (contentKind_yields hs).bind fun _ _ _ => trivial
  · split
    · trivial
    · trivial
    · exact hs
  · split
    · trivial
    · exact hs

/-- Settings pass no parameters. -/
theorem callSetting_yields (tag : Tag) {c : Call} {s : Setting} (hs : s.span.Fits content)
    (hc : c.passed = []) : ReadsIn content (fun c => c.passed = []) (callSetting tag c s) := by
  have herror : ReadsIn content (fun _ => True) (callSetting tag c s) := by
    unfold callSetting
    split
    · split
      · trivial
      · exact hs
    · split
      · trivial
      · exact hs
  exact herror.mono fun c' hread _ => (callSetting_passed hread).trans hc

/-! ### Starting a command -/

/-- A print stands where its tag does, and its expression inside of it. -/
theorem startPrint_yields (h : r.Took content tag) (hbody : InBody r.frames) (hi : i.PartOf content)
    (hbetween : i.Between tag.span.start tag.span.stop) :
    ReadsIn content (Reading.LaidOut content) (startPrint r i tag) := by
  unfold startPrint
  refine (Tag.Within.parsePrint r.file.nodes hi hbetween).bind ?_
  rintro ⟨e, ds⟩ - horder
  exact h.emit_one hbody rfl horder

/-- An `if` opens a branch, whose condition stands in the tag. -/
theorem startIf_yields (h : r.Took content tag) (hbody : InBody r.frames) :
    ReadsIn content (Reading.LaidOut content) (startIf r tag html) := by
  unfold startIf
  refine (h.within.parse r.file.nodes (.refl _)).bind fun cond _ horder => ?_
  exact h.push_one hbody rfl rfl rfl horder

/-- A loop opens its body, and its list stands in the tag. -/
theorem startFor_yields (h : r.Took content tag) (hbody : InBody r.frames) :
    ReadsIn content (Reading.LaidOut content) (startFor r tag html) := by
  unfold startFor
  refine (h.within.parseLoop r.file.nodes).bind ?_
  rintro ⟨x, list⟩ - horder
  exact h.push_one hbody rfl rfl rfl horder

/-- A `let` is complete with its tag, or opens its content. -/
theorem startLet_yields (h : r.Took content tag) (hbody : InBody r.frames) :
    ReadsIn content (Reading.LaidOut content) (startLet r tag html) := by
  unfold startLet
  refine (tag.args.word_yields h.within.args _).bind ?_
  rintro ⟨⟨w, s⟩, i⟩ - ⟨hs, -, hi⟩
  dsimp only at hs hi ⊢
  split
  -- with a colon the value is read, which has to end with the tag
  · split
    · next j hmark =>
      split
      · refine (h.within.parse r.file.nodes (hi.trans (.mark? hmark))).bind fun e _ horder => ?_
        exact h.emit_one hbody rfl horder
      · exact h.within.fits
    · refine (blockKind_yields (h.within.args.after hi)).bind fun kind _ _ => ?_
      split
      · exact h.within.fits
      · exact h.push_one hbody rfl rfl rfl h.none
  · exact hs

/-- A call is complete with its tag, or opens its parameters. -/
theorem startCall_yields (h : r.Took content tag) (hbody : InBody r.frames) :
    ReadsIn content (Reading.LaidOut content) (startCall r tag) := by
  unfold startCall
  refine (tag.args.word_yields h.within.args _).bind ?_
  rintro ⟨⟨callee, s⟩, i⟩ - ⟨-, -, hi⟩
  refine (Input.settings_yields (h.within.args.after hi)).bind fun ss _ hss => ?_
  -- parameters come in tags of their own, so the call passes none yet
  have hfold := Yields.foldlM (fun c s hs hc => callSetting_yields tag (hss s hs) hc)
    (rfl : (⟨callee, tag.name = "delcall", none, false, []⟩ : Call).passed = [])
  refine hfold.bind fun c _ hc => ?_
  have hextents : Extent.InOrder r.file.nodes content tag.span.start tag.span.stop
      (c.passed.map Passed.extent) := by
    rw [hc]
    exact h.none
  split
  · exact h.emit_one hbody rfl hextents
  · exact h.push_one hbody rfl rfl rfl hextents

/-- A message opens its body. -/
theorem startMessage_yields (h : r.Took content tag) (hbody : InBody r.frames) :
    ReadsIn content (Reading.LaidOut content) (startMessage r tag html) := by
  unfold startMessage
  refine (Input.settings_yields h.within.args).bind fun ss _ hss => ?_
  -- the settings place nothing, so only errors have a span here
  refine Yields.bind (P := fun _ => True) ?_ fun settings _ _ => ?_
  · refine Yields.foldlM (fun a s hs _ => ?_) trivial
    dsimp only
    split
    · trivial
    · split
      · trivial
      · exact hss s hs
  · dsimp only
    split
    · exact h.push_one hbody rfl rfl rfl h.none
    · exact h.within.fits

/-- A visual element opens its body. -/
theorem startVisualElement_yields (h : r.Took content tag) (hbody : InBody r.frames) :
    ReadsIn content (Reading.LaidOut content) (startVisualElement r tag html) := by
  unfold startVisualElement
  refine (tag.args.word_yields h.within.args _).bind ?_
  rintro ⟨⟨name, s⟩, i⟩ - -
  exact h.push_one hbody rfl rfl rfl h.none

/-- **A command is started** in the range of its tag. -/
theorem startCommand_yields (h : r.Took content tag) (hbody : InBody r.frames) :
    ReadsIn content (Reading.LaidOut content) (startCommand r tag html) := by
  unfold startCommand
  split
  -- a special character is a node by itself
  · exact h.emit hbody nofun
  · split
    -- a print is read from the arguments of its command or, without one, from the whole tag
    · exact startPrint_yields h hbody h.within.args h.within.between.args
    · exact startIf_yields h hbody
    · exact startFor_yields h hbody
    · exact startLet_yields h hbody
    · exact startCall_yields h hbody
    · exact startCall_yields h hbody
    · exact startMessage_yields h hbody
    · exact startVisualElement_yields h hbody
    · split
      · exact h.within.fits
      · split
        · exact h.within.fits
        · split
          · exact h.within.fits
          · split
            · exact h.within.fits
            · exact startPrint_yields h hbody h.within.whole h.within.between.content

/-! ### Parameters of calls -/

/-- A parameter is put after those that the call passes already. -/
theorem passParam_yields {lo : Nat} {p : Passed} {opener : Span} (hinput : r.input.PartOf content)
    (h : r.LaidOutTo content lo)
    (hp : Extent.InOrder r.file.nodes content p.span.start p.span.stop p.bound.extents)
    (hfits : p.span.Fits content) (hlo : lo ≤ p.span.start) (hstop : p.span.stop = r.input.offset)
    (hopener : opener.Fits content) : ReadsIn content (Reading.LaidOut content) (passParam r p opener) := by
  have hle : lo ≤ r.input.offset := by
    rw [← hstop]
    exact Nat.le_trans hlo hfits.start_le_stop
  unfold passParam
  split
  · next tag c below hfr =>
    split
    · exact hopener
    · obtain ⟨hframe, -, -⟩ := h.pop hfr
      -- the call ends before the parameter starts, and now goes on to its end
      have hafter := Nat.le_trans hframe.stop_le hle
      refine ⟨hinput, h.replace hfr ⟨hframe.fits, hafter, fun xs hxs => ?_, nofun⟩ rfl⟩
      obtain rfl := List.mem_singleton.mp hxs
      -- the call had one list, to which the parameter is added
      have hpassed := hframe.extents _ List.mem_cons_self
      dsimp only
      rw [List.map_append]
      exact hpassed.concat (x := p.extent) ⟨rfl, hp⟩ hfits hlo (Nat.le_of_eq hstop)
  · exact ⟨hinput, h.mono hle⟩

/-- A parameter is passed with its value, or opens its content. -/
theorem startParam_yields (h : r.Took content tag) (hbody : InBody r.frames) :
    ReadsIn content (Reading.LaidOut content) (startParam r tag) := by
  unfold startParam
  refine (tag.args.word_yields h.within.args _).bind ?_
  rintro ⟨⟨name, s⟩, i⟩ - ⟨-, -, hi⟩
  dsimp only at hi ⊢
  split
  · next j hmark =>
    -- a tag that closes itself has its value in the tag, else a block follows
    split
    · refine (h.within.parse r.file.nodes (hi.trans (.mark? hmark))).bind fun e _ horder => ?_
      exact passParam_yields h.input h.laidOut horder h.within.fits (Nat.le_refl _) h.stop_eq h.within.fits
    · exact h.within.fits
  · refine (blockKind_yields (h.within.args.after hi)).bind fun kind _ _ => ?_
    split
    · exact h.within.fits
    · exact h.push_one hbody rfl rfl rfl h.none

/-! ### Declarations of a header -/

/-- Where a declaration fails, in its tag. -/
theorem declareState_yields {header : Header} {name : String} (ht : tag.Within content)
    (hi : tag.args.After i) : ReadsIn content (fun _ => True) (declareState header name i tag) := by
  -- the type, if one is written, ends where the default starts
  have hread {j : Input} (hj : tag.args.After j) (f : Expr → Header) : ReadsIn content (fun _ => True)
      (Expr.parse j.offset j.rest >>= fun e => pure (f e)) :=
    (Expr.parse_yields (ht.args.after hj)).bind fun _ _ _ => trivial
  unfold declareState
  cases hcolon : i.mark? [':'] with
  | none =>
    dsimp only
    split
    · next k hmark => exact hread (hi.trans (.mark? hmark)) _
    · exact ht.fits
  | some j =>
    dsimp only
    split
    · next k hmark =>
      exact hread (((hi.trans (.mark? hcolon)).trans (.takeWhile _ _)).trans (.mark? hmark)) _
    · exact ht.fits

/-- A wrong declaration of a parameter is an error in its tag. -/
theorem declareParam_yields {header : Header} {name : String} {doc : Option String}
    (ht : tag.Within content) :
    ReadsIn content (fun _ => True) (declareParam header name i doc tag) := by
  unfold declareParam
  split
  · dsimp only
    split
    · exact ht.fits
    · split
      · exact ht.fits
      · trivial
  · exact ht.fits

/-- **A declaration** is put after those of its kind that the header has already. -/
theorem declare_yields {nodes : Array Node} {t : Template} {header : Header} {doc : Option String}
    {rest : Input} {lo : Nat} (ht : tag.Within content)
    (h : ∀ xs ∈ (Block.template t header).extents, Extent.InOrder nodes content lo tag.span.start xs) :
    ReadsIn content
      (fun header' => ∀ xs ∈ (Block.template t header').extents,
        Extent.InOrder nodes content lo tag.span.stop xs)
      (declare header doc tag rest) := by
  -- whichever declaration it is, an error in it is one in the tag
  have herror : ReadsIn content (fun _ => True) (declare header doc tag rest) := by
    unfold declare
    refine (tag.args.word_yields ht.args _).bind ?_
    rintro ⟨⟨name, s⟩, i⟩ - ⟨-, -, hi⟩
    dsimp only at hi ⊢
    split
    · exact (declareState_yields ht hi).bind fun _ _ _ => trivial
    · exact (declareParam_yields ht).bind fun _ _ _ => trivial
  refine herror.mono fun header' hread _ => ?_
  -- a header has two lists, its parameters and its state
  obtain ⟨hparams, hstate⟩ := List.forall_mem_cons.mp h
  rw [List.forall_mem_singleton] at hstate
  -- what the header had goes on to the end of the tag
  have hstop := ht.fits.start_le_stop
  obtain ⟨decl, rfl, hspan, -⟩ | ⟨decl, j, rfl, hspan, -, hj, he⟩ := declare_cases hread
  · -- one more parameter
    have hsame := hstate.mono (Nat.le_refl _) hstop
    refine List.forall_mem_cons.mpr ⟨?_, List.forall_mem_singleton.mpr hsame⟩
    dsimp only
    rw [List.map_append]
    exact hparams.concat (x := decl.extent) ⟨hspan, hstop⟩ ht.fits (Nat.le_refl _) (Nat.le_refl _)
  · -- one more state variable, whose default stands in the tag
    have horder := ht.parse nodes hj
    rw [he] at horder
    have hsame := hparams.mono (Nat.le_refl _) hstop
    refine List.forall_mem_cons.mpr ⟨hsame, List.forall_mem_singleton.mpr ?_⟩
    dsimp only
    rw [List.map_append]
    exact hstate.concat (x := decl.extent) ⟨hspan, horder⟩ ht.fits (Nat.le_refl _) (Nat.le_refl _)

/-! ### The end of a block -/

/-- **The end of a block.** The node that is complete goes from the tag that opened the block to the one
that ends it. -/
theorem endBlock_yields {opener : Tag} {block : Block} {nodes : List NodeId} {below : List Frame}
    {last : Tag} (hfr : r.frames = .block opener html block nodes :: below) (h : r.Took content last) :
    ReadsIn content (Reading.LaidOut content) (endBlock r opener html block nodes.reverse last) := by
  obtain ⟨hframe, -, hbelow⟩ := h.laidOut.pop hfr
  cases block with
  -- complete: the node goes from the tag that opened it to the one that ends it
  | template t header => exact h.complete hfr rfl
  | branch before cond =>
    -- the branch that ends goes behind those before it
    have hbranches : (before ++ [⟨cond, nodes.reverse⟩] : List Branch).flatMap Branch.extents =
        before.flatMap Branch.extents ++ [cond.extent] ++ ofNodes nodes.reverse := by
      simp [Branch.extents]
    unfold endBlock
    dsimp only
    split
    · -- one more condition, in the tag that starts the next branch
      refine (h.within.parse r.file.nodes (.refl _)).bind fun cond' _ horder => ?_
      refine ⟨h.input, h.laidOut.replace hfr ⟨hframe.fits, ?_, ?_, fun _ => rfl⟩ rfl⟩
      · exact Nat.le_trans hframe.stop_le h.le
      · rw [Frame.extents_block_nil]
        refine List.forall_mem_singleton.mpr ?_
        rw [hbranches]
        have hall := hframe.extents _ List.mem_cons_self
        exact (hall.append horder).mono (Nat.le_refl _) (Nat.le_of_eq h.stop_eq)
    · split
      · -- what is left has no condition: the branches before it are all there are
        have hextents :
            (Frame.block opener html (.otherwise (before ++ [⟨cond, nodes.reverse⟩])) []).extents =
              (Frame.block opener html (.branch before cond) nodes).extents := by
          rw [Frame.extents_block_nil]
          simp only [Frame.extents, Block.extents, hbranches, List.map_cons, List.map_nil]
        refine ⟨h.input, (h.laidOut.reframe hfr ?_ hextents fun _ => rfl).mono h.le⟩
        rfl
      · refine h.complete hfr ?_
        simp [Frame.extents, Block.extents, NodeKind.extents, hbranches, ofNodes]
  | otherwise | loop | binding | message | visualElement => exact h.complete hfr rfl
  | param name kind =>
    -- a parameter becomes no node: it goes to the call below it, with its own range
    unfold endBlock
    dsimp only
    have hcontent := hframe.extents _ List.mem_cons_self
    -- from the tag that opened it up to the one that ends it
    have hwhole : Span.Fits content ⟨opener.span.start, r.input.offset⟩ :=
      hframe.fits.through h.input.fits_offset (Nat.le_trans (Nat.le_trans hframe.fits.start_le_stop
        hframe.stop_le) h.le)
    rw [show opener.span.union last.span = ⟨opener.span.start, r.input.offset⟩ from h.union_eq hfr]
    exact passParam_yields h.input hbelow (hcontent.mono (Nat.le_refl _) h.le) hwhole (Nat.le_refl _) rfl
      hframe.fits

end Markup

end TemplateFrontend
