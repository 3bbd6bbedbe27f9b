import TemplateFrontend.Proofs.Markup.Steps
import TemplateFrontend.Proofs.Markup.TagRanges
/-!
# Where open frames stand in the text

A frame is opened at a place of the text, and what it holds stands from there on, up to where the text is
still to be read. The frame below it stands up to the place where the frame was opened. So what is open
takes up the text that was read from outside in, and a frame that is complete becomes one range, from
where it was opened to where reading has come.

* `Markup.Frame.opened`, `Markup.Frame.extents` — where a frame was opened and what stands from there on;
* `Markup.InBody` — no header is being read, so nodes may be put into the innermost frame;
* `Markup.StackLaidOut` — frames on each other, and below them the templates of the file;
* `Markup.Reading.LaidOutTo` — the state up to an offset, with one lemma for each move: `emit`, `push`,
  `pop`, `complete`;
* `Markup.Reading.LaidOut` — **the invariant** between the steps.
-/

namespace TemplateFrontend

open Text
open Extent (ofNodes)

namespace Markup

/-! ### Frames -/

/-- Where a frame was opened. A tag of HTML and the value of an attribute are opened at a place. -/
def Frame.opened : Frame → Span
  | .block opener _ _ _ | .call opener _ => opener.span
  | .openTag start _ _ | .attributeValue _ start _ _ => ⟨start, start⟩

/-- What was read of a block besides the nodes that are in it now. -/
def Block.extents : Block → List (List Extent)
  | .template _ header =>
    [header.params.map ParamDecl.extent, header.state.map StateDecl.extent]
  | .branch before cond => [before.flatMap Branch.extents ++ [cond.extent]]
  | .otherwise branches => [branches.flatMap Branch.extents]
  | .loop _ list => [[list.extent]]
  | .binding _ _ | .message _ _ | .visualElement _ | .param _ _ => [[]]

/-- What was read of a frame, in source order. -/
def Frame.extents : Frame → List (List Extent)
  | .block _ _ inner nodes => inner.extents.map (· ++ ofNodes nodes.reverse)
  | .call _ c => [c.passed.map Passed.extent]
  | .openTag _ _ attributes => [attributes.reverse.map Attribute.extent]
  | .attributeValue _ _ _ nodes => [ofNodes nodes.reverse]

/-- Whether a frame is a template whose body has not started. -/
def Frame.inHeader : Frame → Bool
  | .block _ _ inner _ => inner.inHeader
  | _ => false

/-- The nodes that were put into a frame. -/
def Frame.nodes : Frame → List NodeId
  | .block _ _ _ nodes | .attributeValue _ _ _ nodes => nodes
  | .call _ _ | .openTag _ _ _ => []

/-- What is innermost is not the header of a template. -/
def InBody (frames : List Frame) : Prop := ∀ frame ∈ frames.head?, frame.inHeader = false

/-- The frame stands in the text from where it was opened up to an offset. Before the body of a template
there are no nodes. -/
structure Frame.LaidOut (nodes : Array Node) (content : List Char) (hi : Nat) (frame : Frame) : Prop where
  fits : frame.opened.Fits content
  stop_le : frame.opened.stop ≤ hi
  extents : ∀ xs ∈ frame.extents, Extent.InOrder nodes content frame.opened.start hi xs
  header : frame.inHeader = true → frame.nodes = []

/-- The frames stand in the text up to an offset, each from where the one below it ends. A header has no
frame on it. -/
def StackLaidOut (content : List Char) (f : TemplateFile) (hi : Nat) : List Frame → Prop
  | [] => Extent.InOrder f.nodes content 0 hi (ofNodes f.templates)
  | frame :: below =>
    frame.LaidOut f.nodes content hi ∧ InBody below ∧ StackLaidOut content f frame.opened.start below

/-- The nodes of the state take up ranges of the text, and what is open stands up to an offset. -/
structure Reading.LaidOutTo (content : List Char) (hi : Nat) (r : Reading) : Prop where
  nodes : ∀ n ∈ r.file.nodes, n.LaidOut r.file.nodes content
  frames : StackLaidOut content r.file hi r.frames

/-- **The invariant of reading**: what was read stands in the text up to where the input starts. -/
structure Reading.LaidOut (content : List Char) (r : Reading) : Prop where
  input : r.input.PartOf content
  laidOut : r.LaidOutTo content r.input.offset

/-! ### Moves -/

section Moves

variable {content : List Char} {f : TemplateFile} {nodes : Array Node} {lo hi hi' : Nat} {frame : Frame}
  {below frames : List Frame} {r : Reading} {k : NodeKind} {s : Span} {id : NodeId}

theorem InBody.of_frames (hfr : r.frames = frame :: below) (h : frame.inHeader = false) :
    InBody r.frames := by
  rw [hfr]
  rintro frame ⟨⟩
  exact h

/-- A frame that holds nothing but what it is opened with. -/
theorem Frame.LaidOut.opens (hfits : frame.opened.Fits content) (hstop : frame.opened.stop ≤ hi)
    (hnodes : frame.nodes = [])
    (hextents : ∀ xs ∈ frame.extents,
      Extent.InOrder nodes content frame.opened.start frame.opened.stop xs) :
    frame.LaidOut nodes content hi :=
  ⟨hfits, hstop, fun xs hxs => (hextents xs hxs).mono (Nat.le_refl _) hstop, fun _ => hnodes⟩

theorem Frame.LaidOut.mono (h : frame.LaidOut nodes content hi) (hhi : hi ≤ hi') :
    frame.LaidOut nodes content hi' where
  fits := h.fits
  stop_le := Nat.le_trans h.stop_le hhi
  extents xs hxs := (h.extents xs hxs).mono (Nat.le_refl _) hhi
  header := h.header

theorem Frame.LaidOut.push (h : frame.LaidOut nodes content hi) (n : Node) :
    frame.LaidOut (nodes.push n) content hi :=
  ⟨h.fits, h.stop_le, fun xs hxs => (h.extents xs hxs).push n, h.header⟩

theorem StackLaidOut.mono (h : StackLaidOut content f hi frames) (hhi : hi ≤ hi') :
    StackLaidOut content f hi' frames := by
  cases frames with
  | nil => exact Extent.InOrder.mono h (Nat.le_refl 0) hhi
  | cons frame below => exact ⟨h.1.mono hhi, h.2⟩

theorem StackLaidOut.add (h : StackLaidOut content f hi frames) (k : NodeKind) (s : Span) :
    StackLaidOut content (f.add k s).1 hi frames := by
  induction frames generalizing hi with
  | nil => exact Extent.InOrder.push ⟨k, s⟩ h
  | cons frame below ih => exact ⟨h.1.push ⟨k, s⟩, h.2.1, ih h.2.2⟩

theorem Frame.extents_block_nil (opener : Tag) (html : Bool) (block : Block) :
    (Frame.block opener html block []).extents = block.extents := by
  simp [extents, ofNodes]

/-- A node is put after what a block holds. -/
theorem Frame.extents_block_cons (opener : Tag) (html : Bool) (block : Block) (nodes : List NodeId) :
    (Frame.block opener html block (id :: nodes)).extents =
      (Frame.block opener html block nodes).extents.map (· ++ [.node id]) := by
  simp only [extents, ofNodes, List.reverse_cons, List.map_append, List.map_map]
  exact List.map_congr_left fun xs _ => (List.append_assoc ..).symm

namespace Reading.LaidOutTo

theorem mono (h : r.LaidOutTo content hi) (hhi : hi ≤ hi') : r.LaidOutTo content hi' :=
  ⟨h.nodes, h.frames.mono hhi⟩

/-- Another state with the same nodes and frames. -/
theorem congr {r' : Reading} (h : r.LaidOutTo content hi) (hnodes : r'.file.nodes = r.file.nodes)
    (htemplates : r'.file.templates = r.file.templates) (hframes : r'.frames = r.frames) :
    r'.LaidOutTo content hi := by
  -- the layout of the stack reads the nodes and the list of templates only
  have hstack : ∀ {hi : Nat} (frames : List Frame), StackLaidOut content r.file hi frames →
      StackLaidOut content r'.file hi frames := by
    intro hi frames
    induction frames generalizing hi with
    | nil =>
      intro h
      unfold StackLaidOut
      rwa [hnodes, htemplates]
    | cons frame below ih => exact fun h => ⟨hnodes ▸ h.1, h.2.1, ih h.2.2⟩
  refine ⟨?_, ?_⟩
  · rw [hnodes]
    exact h.nodes
  · rw [hframes]
    exact hstack _ h.frames

theorem withInput (h : r.LaidOutTo content hi) (i : Input) :
    Reading.LaidOutTo content hi { r with input := i } :=
  h.congr rfl rfl rfl

/-- A new node is laid out like the others if its parts are. -/
theorem add (h : r.LaidOutTo content hi) (hs : s.Fits content)
    (hk : ∀ xs ∈ k.extents, Extent.InOrder r.file.nodes content s.start s.stop xs) :
    Reading.LaidOutTo content hi { r with file := (r.file.add k s).1 } := by
  refine ⟨fun n hn => ?_, h.frames.add k s⟩
  -- no part is the new node itself, so the parts stand where they did before it was there
  obtain hn | rfl := Array.mem_push.mp hn
  · obtain ⟨hfits, hextents⟩ := h.nodes n hn
    exact ⟨hfits, fun xs hxs => (hextents xs hxs).push ⟨k, s⟩⟩
  · exact ⟨hs, fun xs hxs => (hk xs hxs).push ⟨k, s⟩⟩

/-- A node of the table that stands after all else is put where it belongs. -/
theorem place (h : r.LaidOutTo content hi) (hbody : InBody r.frames)
    (hid : (Extent.node id).Covers r.file.nodes content s) (hs : s.Fits content)
    (hlo : hi ≤ s.start) (hhi : s.stop ≤ hi') : (r.place id).LaidOutTo content hi' := by
  have hle : hi ≤ hi' := Nat.le_trans hlo (Nat.le_trans hs.start_le_stop hhi)
  obtain ⟨hnodes, hframes⟩ := h
  unfold Reading.place
  split
  · -- nothing is open: one more template
    next hfr =>
    rw [hfr] at hframes
    refine ⟨hnodes, ?_⟩
    dsimp only
    rw [hfr]
    have hlast := Extent.InOrder.concat hframes hid hs hlo hhi
    unfold StackLaidOut ofNodes
    rw [List.map_append]
    exact hlast
  · next opener html block nodes below hfr =>
    rw [hfr] at hframes hbody
    obtain ⟨hframe, hbelow⟩ := hframes
    have hopen : ¬ block.inHeader = true := by
      rw [Bool.not_eq_true]
      exact hbody _ rfl
    refine ⟨hnodes, ⟨hframe.fits, Nat.le_trans hframe.stop_le hle, fun xs hxs => ?_,
      fun hheader => absurd hheader hopen⟩, hbelow⟩
    rw [Frame.extents_block_cons] at hxs
    obtain ⟨ys, hys, rfl⟩ := List.mem_map.mp hxs
    -- the node comes last in each list of parts of the block
    exact (hframe.extents ys hys).concat hid hs hlo hhi
  · -- a value has one list of parts, its nodes
    next name start quote nodes below hfr =>
    rw [hfr] at hframes
    obtain ⟨hframe, hbelow⟩ := hframes
    refine ⟨hnodes, ⟨hframe.fits, Nat.le_trans hframe.stop_le hle, fun xs hxs => ?_, nofun⟩, hbelow⟩
    obtain rfl := List.mem_singleton.mp hxs
    have hlast := (hframe.extents _ List.mem_cons_self).concat hid hs hlo hhi
    unfold ofNodes
    rw [List.reverse_cons, List.map_append]
    exact hlast
  -- calls and tags have no nodes of their own
  · exact ⟨hnodes, hframes.mono hle⟩
  · exact ⟨hnodes, hframes.mono hle⟩

/-- **A new node** after all that was read, with its parts in its range. -/
theorem emit (h : r.LaidOutTo content hi) (hbody : InBody r.frames) (hs : s.Fits content)
    (hk : ∀ xs ∈ k.extents, Extent.InOrder r.file.nodes content s.start s.stop xs)
    (hlo : hi ≤ s.start) (hhi : s.stop ≤ hi') : (r.emit k s).LaidOutTo content hi' :=
  (h.add hs hk).place hbody (Extent.covers_push_self content r.file.nodes ⟨k, s⟩) hs hlo hhi

/-- **A new frame** that is opened after all that was read. -/
theorem push (h : r.LaidOutTo content hi) (hbody : InBody r.frames)
    (hframe : frame.LaidOut r.file.nodes content hi') (hlo : hi ≤ frame.opened.start) :
    (r.push frame).LaidOutTo content hi' :=
  ⟨h.nodes, hframe, hbody, h.frames.mono hlo⟩

/-- The innermost frame and what is below it. -/
theorem pop (h : r.LaidOutTo content hi) (hfr : r.frames = frame :: below) :
    frame.LaidOut r.file.nodes content hi ∧ InBody r.pop.frames ∧
      r.pop.LaidOutTo content frame.opened.start := by
  obtain ⟨hnodes, hframes⟩ := h
  rw [hfr] at hframes
  obtain ⟨hframe, hbody, hbelow⟩ := hframes
  rw [← Reading.frames_pop hfr] at hbody hbelow
  exact ⟨hframe, hbody, hnodes, hbelow⟩

/-- The innermost frame in another form. -/
theorem replace {frame' : Frame} (h : r.LaidOutTo content hi) (hfr : r.frames = frame :: below)
    (hframe : frame'.LaidOut r.file.nodes content hi') (hopened : frame'.opened = frame.opened) :
    (r.replace frame').LaidOutTo content hi' := by
  obtain ⟨-, hbody, hbelow⟩ := h.pop hfr
  exact hbelow.push hbody hframe (by rw [hopened])

/-- The innermost frame in another form that takes up the same. -/
theorem reframe {frame' : Frame} (h : r.LaidOutTo content hi) (hfr : r.frames = frame :: below)
    (hopened : frame'.opened = frame.opened) (hextents : frame'.extents = frame.extents)
    (hheader : frame'.inHeader = true → frame'.nodes = []) :
    (r.replace frame').LaidOutTo content hi := by
  obtain ⟨hfits, hstop, hxs, -⟩ := (h.pop hfr).1
  refine h.replace hfr ⟨?_, ?_, ?_, hheader⟩ hopened
  · rwa [hopened]
  · rwa [hopened]
  · rwa [hopened, hextents]

/-- **A frame is complete**: it becomes a node from where it was opened up to where reading has come. -/
theorem complete (h : r.LaidOutTo content hi) (hfr : r.frames = frame :: below)
    (hk : k.extents = frame.extents) (hstop : IsBoundary content hi') (hhi : hi ≤ hi') :
    (r.pop.emit k ⟨frame.opened.start, hi'⟩).LaidOutTo content hi' := by
  obtain ⟨⟨hfits, hle, hextents, -⟩, hbody, hbelow⟩ := h.pop hfr
  have hwhole : Span.Fits content ⟨frame.opened.start, hi'⟩ :=
    ⟨Nat.le_trans hfits.start_le_stop (Nat.le_trans hle hhi), hfits.start, hstop⟩
  refine hbelow.emit hbody hwhole (fun xs hxs => ?_) (Nat.le_refl _) (Nat.le_refl _)
  rw [hk] at hxs
  exact (hextents xs hxs).mono (Nat.le_refl _) hhi

end Reading.LaidOutTo

/-- A new node up to where the input starts. -/
theorem Reading.LaidOut.of_emit (hi : r.input.PartOf content)
    (h : (r.emit k s).LaidOutTo content r.input.offset) : (r.emit k s).LaidOut content := by
  refine ⟨?_, ?_⟩
  · rwa [input_emit]
  · rwa [input_emit]

/-- A new node without parts, after all that was read and up to where the input starts. -/
theorem Reading.LaidOutTo.emit_leaf (h : r.LaidOutTo content s.start) (hbody : InBody r.frames)
    (hk : k.extents = []) (hi : r.input.PartOf content) (hs : s.Fits content)
    (hstop : s.stop = r.input.offset) : (r.emit k s).LaidOut content := by
  refine .of_emit hi (h.emit hbody hs ?_ (Nat.le_refl _) (Nat.le_of_eq hstop))
  rw [hk]
  exact nofun

/-- Starting the body of a block changes nothing that stands in the text. -/
theorem Reading.LaidOutTo.startBody (h : r.LaidOutTo content hi) :
    (startBody r).LaidOutTo content hi := by
  unfold Markup.startBody
  split
  · next opener html block nodes below hfr =>
    refine h.reframe hfr rfl ?_ ?_
    · cases block <;> rfl
    · cases block <;> exact nofun
  · exact h

/-- After that no header is being read. -/
theorem inBody_startBody (r : Reading) : InBody (startBody r).frames := by
  unfold Markup.startBody
  intro frame hframe
  split at hframe
  · next opener html block nodes below hfr =>
    obtain rfl := Option.some.inj hframe
    -- a header that was open is closed now, and every other block has a body anyway
    cases block <;> rfl
  · next hno =>
    cases frame with
    | block opener html block nodes =>
      obtain ⟨below, hfr⟩ : ∃ below, r.frames = .block opener html block nodes :: below := by
        cases hfr : r.frames with
        | nil => rw [hfr] at hframe; cases hframe
        | cons frame below =>
          rw [hfr] at hframe
          exact ⟨below, by rw [Option.some.inj hframe]⟩
      exact absurd hfr (hno opener html block nodes below)
    | call | openTag | attributeValue => rfl

end Moves

end Markup

end TemplateFrontend
