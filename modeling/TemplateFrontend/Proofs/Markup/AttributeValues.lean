import Mathlib.Data.List.Chain
import TemplateFrontend.Proofs.Markup.Returns
import TemplateFrontend.Proofs.Markup.ValueTags
/-!
# What the values of attributes hold

The value of an attribute holds text, special characters and prints, and what was made of tags that slipped
in. A tag that is neither meant to be there nor slips in ends the reading of the source with an error.

The invariant speaks of the nodes that open tags and open values hold, and of what is open on a value: while a
value is not the innermost frame, the frame on it was opened by a tag that slipped in, so the node that takes
its place when it is closed may stand in the value.

* `TemplateFile.Fills`, `Markup.Frame.Filled` — nodes in values, and frames that hold them;
* `Markup.Filled` — the invariant, with one lemma for each move;
* `Markup.Filled.step`, `Markup.Reaches.filled` — one step, and all of them;
* `parse_attributeValues` — every source that parses.
-/

namespace TemplateFrontend

open Text

/-- The node may be found in the value of an attribute. -/
def TemplateFile.Fills (f : TemplateFile) (id : NodeId) : Prop :=
  id < f.nodes.size ∧ (f.kind id).StandsInValue

/-- The nodes in the values of the attributes of a node, if it is an open tag. -/
def NodeKind.valueNodes : NodeKind → List NodeId
  | .openTag _ attributes _ => (attributes.filterMap (·.value)).flatten
  | _ => []

/-- The attributes of the node hold what they may. -/
def TemplateFile.ValuesFilled (f : TemplateFile) (k : NodeKind) : Prop := ∀ id ∈ k.valueNodes, f.Fills id

namespace Markup

/-- The frame is the value of an attribute. -/
def Frame.IsValue : Frame → Prop
  | .attributeValue _ _ _ _ => True
  | _ => False

/-- The frame holds for values of attributes what may stand there. -/
def Frame.Filled (f : TemplateFile) : Frame → Prop
  | .openTag _ _ attributes => ∀ id ∈ (attributes.filterMap (·.value)).flatten, f.Fills id
  | .attributeValue _ _ quote nodes => (quote = '"' ∨ quote = '\'') ∧ ∀ id ∈ nodes, f.Fills id
  | _ => True

/-- If a frame stands on the value of an attribute, a tag that slipped in opened it. -/
def Frame.Above (frame below : Frame) : Prop := below.IsValue → frame.StandsOnValue

/-- Whether a block may stand on a value does not depend on the nodes in it. -/
theorem Frame.StandsOnValue.withNodes {opener : Tag} {html : Bool} {block : Block} {nodes : List NodeId}
    (h : (Frame.block opener html block nodes).StandsOnValue) (nodes' : List NodeId) :
    (Frame.block opener html block nodes').StandsOnValue := by
  cases block with
  | visualElement => exact h
  | template | branch | otherwise | loop | binding | message | param => exact h.elim

/-- **The invariant**: values hold what may stand in them, and what is open on a value slipped in. -/
structure Filled (f : TemplateFile) (frames : List Frame) : Prop where
  nodes : ∀ id < f.nodes.size, f.ValuesFilled (f.kind id)
  each : ∀ frame ∈ frames, frame.Filled f
  stacked : frames.IsChain Frame.Above

/-! ### Moves -/

namespace Filled

variable {f : TemplateFile} {frame frame' : Frame} {frames below : List Frame} {k : NodeKind} {s : Span}
  {r r' : Reading}

/-- At the start there is nothing to fill. -/
theorem start (path : String) (content : List Char) :
    Filled (Reading.start path content).file (Reading.start path content).frames :=
  ⟨fun _ hid => absurd hid (Nat.not_lt_zero _), List.forall_mem_nil _, .nil⟩

/-- The innermost frame holds what it may. -/
theorem innermost (h : Filled r.file r.frames) (hfr : r.frames = frame :: below) : frame.Filled r.file :=
  h.each frame (hfr ▸ List.mem_cons_self)

/-- The frames below the innermost one hold what they may. -/
theorem tail (h : Filled f (frame :: frames)) : Filled f frames :=
  ⟨h.nodes, fun fr hfr => h.each fr (List.mem_cons_of_mem _ hfr), h.stacked.tail⟩

/-- Only the table of nodes matters. -/
theorem congr {g : TemplateFile} (h : Filled f frames) (hnodes : g.nodes = f.nodes) : Filled g frames := by
  -- everything said here is about nodes, and those are the same
  have hkind : ∀ id, g.kind id = f.kind id := fun id => by
    rw [TemplateFile.kind, TemplateFile.kind, hnodes]
  have hfills : ∀ id, f.Fills id → g.Fills id := fun id hid => by
    rw [TemplateFile.Fills, hnodes, hkind]
    exact hid
  refine ⟨fun id hid => ?_, fun fr hfr => ?_, h.stacked⟩
  · intro x hx
    rw [hnodes] at hid
    rw [hkind] at hx
    exact hfills x (h.nodes id hid x hx)
  · have hfilled := h.each fr hfr
    cases fr with
    | openTag => exact fun id hid => hfills id (hfilled id hid)
    | attributeValue => exact ⟨hfilled.1, fun id hid => hfills id (hfilled.2 id hid)⟩
    | block | call => trivial

/-- A node that stands in a value is no open tag. -/
theorem valuesFilled_of_stands (h : k.StandsInValue) : f.ValuesFilled k := by
  cases k with
  | openTag => exact h.elim
  | _ => exact List.forall_mem_nil _

/-- What fills a value goes on to do so when a node is added. -/
theorem fills_add {id : NodeId} (h : f.Fills id) (k : NodeKind) (s : Span) : (f.add k s).1.Fills id := by
  have hsize : (f.add k s).1.nodes.size = f.nodes.size + 1 := Array.size_push _
  refine ⟨by rw [hsize]; exact Nat.lt_succ_of_lt h.1, ?_⟩
  rw [TemplateFile.kind_add_of_lt f k s h.1]
  exact h.2

/-- A new node that may stand in a value fills it. -/
theorem fills_add_self (f : TemplateFile) (h : k.StandsInValue) (s : Span) :
    (f.add k s).1.Fills f.nodes.size := by
  have hsize : (f.add k s).1.nodes.size = f.nodes.size + 1 := Array.size_push _
  refine ⟨by rw [hsize]; exact Nat.lt_succ_self _, ?_⟩
  have hself : (f.add k s).1.kind f.nodes.size = k := TemplateFile.kind_add_self f k s
  rw [hself]
  exact h

/-- A new node, not yet where it belongs. -/
theorem add (h : Filled f frames) (hk : f.ValuesFilled k) (s : Span) : Filled (f.add k s).1 frames := by
  have hsize : (f.add k s).1.nodes.size = f.nodes.size + 1 := Array.size_push _
  refine ⟨fun id hid => ?_, fun fr hfr => ?_, h.stacked⟩
  · intro x hx
    rw [hsize] at hid
    refine fills_add ?_ k s
    -- an older node has its values as before, the new one those that it was given
    rcases Nat.lt_succ_iff_lt_or_eq.mp hid with hlt | rfl
    · rw [TemplateFile.kind_add_of_lt f k s hlt] at hx
      exact h.nodes id hlt x hx
    · have hself : (f.add k s).1.kind f.nodes.size = k := TemplateFile.kind_add_self f k s
      rw [hself] at hx
      exact hk x hx
  · have hfilled := h.each fr hfr
    cases fr with
    | openTag => exact fun id hid => fills_add (hfilled id hid) k s
    | attributeValue => exact ⟨hfilled.1, fun id hid => fills_add (hfilled.2 id hid) k s⟩
    | block | call => trivial

/-- What is above the next frame depends on that frame only. -/
theorem replace_top (h : Filled f (frame :: frames)) (hfilled : frame'.Filled f)
    (hstands : frame.StandsOnValue → frame'.StandsOnValue) : Filled f (frame' :: frames) := by
  refine ⟨h.nodes, List.forall_mem_cons.mpr ⟨hfilled, h.tail.each⟩, ?_⟩
  have hstacked := h.stacked
  rw [List.isChain_cons] at hstacked ⊢
  exact ⟨fun y hy hvalue => hstands (hstacked.1 y hy hvalue), hstacked.2⟩

/-- **A new node.** If a value is innermost, the node may stand in it. -/
theorem emit (h : Filled r.file r.frames) (hk : r.file.ValuesFilled k)
    (hstands : ∀ frame below, r.frames = frame :: below → frame.IsValue → k.StandsInValue) :
    Filled (r.emit k s).file (r.emit k s).frames := by
  have hadd := h.add hk s
  unfold Reading.emit Reading.place
  dsimp only
  -- the node goes to the top, into a block or into a value; calls and tags take none
  split
  · exact hadd.congr rfl
  · next hfr =>
    rw [hfr] at hadd
    exact hadd.replace_top trivial fun hs => hs.withNodes _
  · next name start quote nodes below hfr =>
    have hnew := fills_add_self r.file (hstands _ _ hfr trivial) s
    rw [hfr] at hadd
    obtain ⟨hquote, hnodes⟩ := hadd.each _ List.mem_cons_self
    exact hadd.replace_top ⟨hquote, List.forall_mem_cons.mpr ⟨hnew, hnodes⟩⟩ False.elim
  · exact hadd
  · exact hadd

/-- A new node inside a block or at the top, which no value is. -/
theorem emit_off_value (h : Filled r.file r.frames) (hk : r.file.ValuesFilled k)
    (hoff : ∀ frame below, r.frames = frame :: below → ¬ frame.IsValue) :
    Filled (r.emit k s).file (r.emit k s).frames :=
  h.emit hk fun frame below hfr hvalue => absurd hvalue (hoff frame below hfr)

/-- A new node for the innermost frame, which is closed. -/
theorem complete (h : Filled r.file r.frames) (hfr : r.frames = frame :: below)
    (hk : r.file.ValuesFilled k) (hstands : frame.StandsOnValue → k.StandsInValue) :
    Filled (r.pop.emit k s).file (r.pop.emit k s).frames := by
  have hpop := Reading.frames_pop hfr
  rw [hfr] at h
  refine emit (r := r.pop) (by rw [hpop]; exact h.tail) hk fun next rest hnext hvalue => hstands ?_
  rw [hpop] at hnext
  rw [hnext] at h
  exact (List.isChain_cons.mp h.stacked).1 next rfl hvalue

/-- A new innermost frame. -/
theorem push (h : Filled r.file r.frames) (hfilled : frame.Filled r.file)
    (hstands : ∀ next below, r.frames = next :: below → next.IsValue → frame.StandsOnValue) :
    Filled (r.push frame).file (r.push frame).frames := by
  refine ⟨h.nodes, List.forall_mem_cons.mpr ⟨hfilled, h.each⟩, ?_⟩
  refine List.isChain_cons.mpr ⟨fun next hnext => ?_, h.stacked⟩
  obtain ⟨below, hbelow⟩ := List.head?_eq_some_iff.mp hnext
  exact hstands next below hbelow

/-- The innermost frame in another form. -/
theorem replace (h : Filled r.file r.frames) (hfr : r.frames = frame :: below)
    (hfilled : frame'.Filled r.file) (hstands : frame.StandsOnValue → frame'.StandsOnValue) :
    Filled (r.replace frame').file (r.replace frame').frames := by
  rw [Reading.frames_replace hfr]
  rw [hfr] at h
  exact h.replace_top hfilled hstands

/-! ### The steps inside each kind of frame -/

variable {tag opener last : Tag} {html : Bool} {block : Block} {nodes body : List NodeId} {i : Input}

/-- A block is no value, and neither is a call. -/
theorem off_value_of_block (hfr : r.frames = .block opener html block nodes :: below) :
    ∀ frame fs, r.frames = frame :: fs → ¬ frame.IsValue := by
  intro frame fs hfs hvalue
  obtain ⟨rfl, -⟩ := List.cons.inj (hfr.symm.trans hfs)
  exact hvalue

/-- **A command is started** in a block. -/
theorem startCommand (hr : Filled r.file r.frames)
    (hoff : ∀ frame fs, r.frames = frame :: fs → ¬ frame.IsValue)
    (h : startCommand r tag html = .ok r') : Filled r'.file r'.frames := by
  have hpush : ∀ frame : Frame, frame.Filled r.file →
      Filled (r.push frame).file (r.push frame).frames :=
    fun frame hframe => hr.push hframe fun next fs hfs hvalue => absurd hvalue (hoff next fs hfs)
  cases begins_of_startCommand h with
  | special | print | value | call => exact hr.emit_off_value (List.forall_mem_nil _) hoff
  | condition | loop | content | message | visualElement | openCall => exact hpush _ trivial

/-- Starting the body of a block changes no value. -/
theorem startBody (hr : Filled r.file r.frames) :
    Filled (startBody r).file (startBody r).frames := by
  unfold Markup.startBody
  split
  · next hfr =>
    refine hr.replace hfr trivial fun hs => ?_
    cases ‹Block› <;> exact hs
  · exact hr

/-- One more parameter: a call is what it was. -/
theorem passParam {p : Passed} (hr : Filled r.file r.frames) (h : passParam r p s = .ok r') :
    Filled r'.file r'.frames := by
  obtain ⟨tag, c, fs, hfr, rfl⟩ | rfl := passParam_cases h
  · exact hr.replace hfr trivial fun hs => hs
  · exact hr

/-- **The end of a block.** On a value only a visual element is open. -/
theorem endBlock (hfr : r.frames = .block opener html block nodes :: below)
    (hr : Filled r.file r.frames) (h : endBlock r opener html block body last = .ok r') :
    Filled r'.file r'.frames := by
  cases block with
  | template | loop | binding | otherwise | message =>
    obtain rfl := Except.ok.inj h
    exact hr.complete hfr (List.forall_mem_nil _) False.elim
  | visualElement =>
    obtain rfl := Except.ok.inj h
    exact hr.complete hfr (List.forall_mem_nil _) fun hs => hs
  -- the next branch takes the place of this one, or the command is complete
  | branch before cond =>
    unfold Markup.endBlock at h
    dsimp only at h
    split at h
    · obtain ⟨cond', -, h⟩ := exists_of_bind_ok h
      obtain rfl := Except.ok.inj h
      exact hr.replace hfr trivial False.elim
    · split at h
      · obtain rfl := Except.ok.inj h
        exact hr.replace hfr trivial False.elim
      · obtain rfl := Except.ok.inj h
        exact hr.complete hfr (List.forall_mem_nil _) False.elim
  -- a parameter goes to the call below, which stands on no value
  | param x kind =>
    have hpop := Reading.frames_pop hfr
    rw [hfr] at hr
    exact passParam (r := r.pop) (by rw [hpop]; exact hr.tail) h

/-- A comment in a block fills no value. -/
theorem commentInBlock (hfr : r.frames = .block opener html block nodes :: below)
    (hr : Filled r.file r.frames) (h : commentInBlock r opener html block nodes = .ok r') :
    Filled r'.file r'.frames := by
  obtain ⟨after, hafter, h⟩ := exists_of_bind_ok h
  obtain ⟨hfile, hframes⟩ := skipComment_keeps hafter
  have hkept : Filled after.file after.frames := by rwa [hfile, hframes]
  cases block with
  | template t header =>
    obtain rfl := Except.ok.inj h
    exact replace (r := { after with doc := _ }) hkept (hframes.trans hfr) trivial fun hs => hs
  | branch | otherwise | loop | binding | message | visualElement | param =>
    obtain rfl := Except.ok.inj h
    exact hkept

/-- Nor does a declaration in one. -/
theorem declareInBlock (hfr : r.frames = .block opener html block nodes :: below)
    (hr : Filled r.file r.frames) (h : declareInBlock r opener html block nodes tag = .ok r') :
    Filled r'.file r'.frames := by
  cases block with
  | template t header =>
    unfold Markup.declareInBlock at h
    dsimp only at h
    split at h
    · cases h
    · obtain ⟨header', -, h⟩ := exists_of_bind_ok h
      obtain rfl := Except.ok.inj h
      exact replace (r := { r with doc := none }) hr hfr trivial fun hs => hs
  | branch | otherwise | loop | binding | message | visualElement | param => cases h

/-- **A tag inside a block.** -/
theorem tagInBlock (hfr : r.frames = .block opener html block nodes :: below)
    (hr : Filled r.file r.frames) (h : tagInBlock r opener html block nodes tag = .ok r') :
    Filled r'.file r'.frames := by
  unfold Markup.tagInBlock at h
  split at h
  · exact hr.endBlock hfr h
  · split at h
    · cases h
    · split at h
      · exact hr.declareInBlock hfr h
      · exact hr.startBody.startCommand (off_value_of_block (startBody_frames hfr)) h

/-- **One step inside a block.** -/
theorem inBlock (hfr : r.frames = .block opener html block nodes :: below)
    (hr : Filled r.file r.frames) (h : inBlock r opener html block nodes = .ok r') :
    Filled r'.file r'.frames := by
  cases inBlock_eq_ok_iff.mp h with
  | comment _ h => exact hr.commentInBlock hfr h
  | @tag _ _ rest _ _ _ h => exact tagInBlock (r := { r with input := rest }) hfr hr h
  | htmlTag _ _ _ _ h =>
    -- the block is innermost, so nothing here goes into a value
    have hoff := off_value_of_block (startBody_frames hfr)
    cases startHtmlTag_eq_ok_iff.mp h with
    | closeTag =>
      exact emit_off_value (r := { Markup.startBody r with input := _ }) hr.startBody
        (List.forall_mem_nil _) hoff
    | openTag =>
      exact push (r := { Markup.startBody r with input := _ }) hr.startBody (List.forall_mem_nil _)
        fun next fs hfs hvalue => absurd hvalue (hoff next fs hfs)
  | text =>
    -- blanks in a header are dropped, all else becomes a text
    obtain ⟨n, htext⟩ | ⟨n, text, place, htext⟩ := textInBlock_cases r html block
    · rw [htext]
      exact hr
    · have hframes := startBody_frames (r := { r with input := r.input.drop n }) hfr
      rw [htext]
      exact (startBody (r := { r with input := r.input.drop n }) hr).emit_off_value
        (valuesFilled_of_stands trivial) (off_value_of_block hframes)

/-- **One step inside a call.** -/
theorem inCall {c : Call} (hfr : r.frames = .call opener c :: below) (hr : Filled r.file r.frames)
    (h : inCall r opener c = .ok r') : Filled r'.file r'.frames := by
  -- a comment adds nothing; a close tag ends the call; a parameter has its value or opens a frame for it
  cases inCall_eq_ok_iff.mp h with
  | comment _ h =>
    obtain ⟨hfile, hframes⟩ := skipComment_keeps h
    rw [hfile, hframes]
    exact hr
  | @ends _ rest => exact complete (r := { r with input := rest }) hr hfr (List.forall_mem_nil _) fun hs => hs
  | @param _ _ rest _ _ _ _ _ h =>
    obtain ⟨w, i, -, ⟨j, e, -, -, h⟩ | ⟨kind, -, rfl⟩⟩ := startParam_cases h
    · exact passParam (r := { r with input := rest }) hr h
    · refine push (r := { r with input := rest }) hr trivial fun next fs hfs hvalue => ?_
      obtain ⟨rfl, -⟩ := List.cons.inj (hfr.symm.trans hfs)
      exact hvalue.elim

/-- One more attribute of an open tag, with a value that holds what it may. -/
theorem addAttribute {name : String} {start : Nat} {value : Option (List NodeId)}
    (hr : Filled r.file r.frames) (hvalue : ∀ id ∈ value.getD [], r.file.Fills id) :
    Filled (addAttribute r name start value i).file (addAttribute r name start value i).frames := by
  unfold Markup.addAttribute
  split
  · next tagStart tag as fs hfr =>
    refine replace (r := { r with input := i }) hr hfr (fun id hid => ?_) False.elim
    have hold : ∀ id ∈ (as.filterMap (·.value)).flatten, r.file.Fills id := hr.innermost hfr
    cases value with
    | none => exact hold id hid
    | some ids =>
      -- a node is in the new value or in an older one
      obtain hid | hid := List.mem_append.mp hid
      · exact hvalue id hid
      · exact hold id hid
  · exact hr

/-- **One step between the attributes of a tag.** -/
theorem inOpenTag {start : Nat} {name : String} {attributes : List Attribute}
    (hfr : r.frames = .openTag start name attributes :: below) (hr : Filled r.file r.frames)
    (h : inOpenTag r start name attributes = .ok r') : Filled r'.file r'.frames := by
  have hattributes : ∀ id ∈ (attributes.filterMap (·.value)).flatten, r.file.Fills id := hr.innermost hfr
  -- the tag is complete
  have hfinish : ∀ closed i s, Filled
      (({ r with input := i } : Reading).pop.emit (.openTag name attributes.reverse closed) s).file
      (({ r with input := i } : Reading).pop.emit (.openTag name attributes.reverse closed) s).frames := by
    intro closed i s
    refine complete (r := { r with input := i }) hr hfr ?_ False.elim
    intro id hid
    refine hattributes id ?_
    exact (((List.reverse_perm attributes).filterMap _).flatten).mem_iff.mp hid
  cases inOpenTag_eq_ok_iff.mp h with
  | ends closed => exact hfinish _ _ _
  | goesOn _ _ h =>
    cases h with
    | plain => exact hr.addAttribute fun _ hid => absurd hid List.not_mem_nil
    -- the value that is opened is empty, and stands on the tag that it belongs to
    | quoted _ _ _ hquote =>
      refine push (r := { r with input := _ }) hr ⟨hquote, List.forall_mem_nil _⟩ ?_
      intro next fs hfs hvalue
      obtain ⟨rfl, -⟩ := List.cons.inj (hfr.symm.trans hfs)
      exact hvalue.elim
    | unquoted =>
      refine addAttribute (r := { r with file := _ })
        (hr.add (k := .text _) (valuesFilled_of_stands trivial) _) fun id hid => ?_
      obtain rfl := List.mem_singleton.mp hid
      exact fills_add_self r.file (k := .text _) trivial _

/-- **A tag in a value** is read, and it is one that may stand there or one that slips in. -/
theorem tag_inValue {name : String} {start : Nat} {quote : Char}
    (hfr : r.frames = .attributeValue name start quote nodes :: below) (hr : Filled r.file r.frames)
    (hbrace : r.input.rest.head? = some '\x7b') (h : inAttributeValue r name start quote nodes = .ok r') :
    ∃ tag rest, Tag.read r.input = .ok (tag, rest) ∧ (tag.Prints ∨ tag.SlipsIn) ∧
      ((∃ k, r' = ({ r with input := rest } : Reading).emit k tag.span ∧ k.StandsInValue) ∨
        ∃ frame, r' = ({ r with input := rest } : Reading).push frame ∧ frame.StandsOnValue) := by
  obtain ⟨hquote, -⟩ : (quote = '"' ∨ quote = '\'') ∧ _ := hr.innermost hfr
  cases inAttributeValue_eq_ok_iff.mp h with
  | ends hends =>
    -- the quote is no brace
    obtain rfl := Option.some.inj (hbrace.symm.trans hends)
    exact absurd hquote (by decide)
  | command _ _ hread hprint hname h =>
    refine ⟨_, _, hread, startCommand_inValue hprint ?_ h⟩
    rwa [← Bool.not_eq_true, List.contains_iff_mem]
  | text _ _ hnot => exact absurd hbrace hnot

/-- **One step inside the value of an attribute.** -/
theorem inAttributeValue {name : String} {start : Nat} {quote : Char}
    (hfr : r.frames = .attributeValue name start quote nodes :: below) (hr : Filled r.file r.frames)
    (h : inAttributeValue r name start quote nodes = .ok r') : Filled r'.file r'.frames := by
  obtain ⟨hquote, hnodes⟩ : (quote = '"' ∨ quote = '\'') ∧ ∀ id ∈ nodes, r.file.Fills id :=
    hr.innermost hfr
  -- what may stand in a value may be put into this one
  have hemit : ∀ i k s, k.StandsInValue → Filled (({ r with input := i } : Reading).emit k s).file
      (({ r with input := i } : Reading).emit k s).frames := fun i k s hk =>
    emit (r := { r with input := i }) hr (valuesFilled_of_stands hk) fun _ _ _ _ => hk
  -- a brace starts a command; otherwise the value ends or goes on with text
  by_cases hbrace : r.input.rest.head? = some '\x7b'
  · obtain ⟨tag, rest, -, -, ⟨k, rfl, hk⟩ | ⟨frame, rfl, hframe⟩⟩ := hr.tag_inValue hfr hbrace h
    · exact hemit _ _ _ hk
    · refine push (r := { r with input := rest }) hr ?_ fun _ _ _ _ => hframe
      cases frame with
      | block | call => trivial
      | openTag | attributeValue => exact hframe.elim
  · cases inAttributeValue_eq_ok_iff.mp h with
    | ends =>
      have hpop := Reading.frames_pop hfr
      rw [hfr] at hr
      exact addAttribute (r := r.pop) (by rw [hpop]; exact hr.tail) fun id hid =>
        hnodes id (List.mem_reverse.mp hid)
    | command _ hbrace' => exact absurd hbrace' hbrace
    | text => exact hemit _ _ _ trivial

/-- **One step at the top of a file.** -/
theorem atTop (hfr : r.frames = []) (hr : Filled r.file r.frames) (h : atTop r = .ok r') :
    Filled r'.file r'.frames := by
  cases atTop_eq_ok_iff.mp h with
  | blank => exact hr
  | comment _ h =>
    obtain ⟨hfile, hframes⟩ := skipComment_keeps h
    rw [hfile, hframes]
    exact hr
  | lineComment => exact hr
  | @declaration _ _ rest _ _ _ h =>
    cases declares_of_startDeclaration h with
    -- a template opens the first frame; the other declarations are noted in the file
    | @template _ t =>
      refine push (r := { r with input := rest, doc := none, strict := t.strictHtml }) hr trivial ?_
      intro next fs hfs
      exact absurd (hfr.symm.trans hfs) (List.cons_ne_nil _ _).symm
    | noted _ hf => exact hr.congr hf.nodes_eq

/-- **One step.** -/
theorem step (hr : Filled r.file r.frames) (h : step r = .ok r') : Filled r'.file r'.frames := by
  unfold Markup.step at h
  split at h
  · next hfr => exact hr.atTop hfr h
  · next hfr => exact hr.inBlock hfr h
  · next hfr => exact hr.inCall hfr h
  · next hfr => exact hr.inOpenTag hfr h
  · next hfr => exact hr.inAttributeValue hfr h

end Filled

/-! ### All steps -/

section Reaches

variable {source : SourceText} {r : Reading}

/-- **All steps.** -/
theorem Reaches.filled (h : Reaches source r) : Filled r.file r.frames := by
  induction h with
  | start => exact .start source.path source.content.toList
  | step _ _ hstep ih => exact ih.step hstep

/-- From every state that steps come to, steps lead to the answer. -/
theorem Reaches.returns (h : Reaches source r) : Returns r (parse source) := by
  induction h with
  | start => exact returns_run (Nat.lt_succ_self _)
  | step _ hdone hstep ih =>
    -- a reading that steps on returns what the next one returns
    generalize parse source = a at ih ⊢
    cases ih with
    | done hnot =>
      rw [hdone] at hnot
      cases hnot
    | fails _ hfails =>
      rw [hstep] at hfails
      cases hfails
    | goes _ hgoes h =>
      obtain rfl := Except.ok.inj (hstep.symm.trans hgoes)
      exact h

/-- The file of a source that parses is that of a state that steps come to, with nothing left. -/
theorem Returns.exists_reaches {f : TemplateFile} (hr : Reaches source r)
    (h : Returns r (.ok f)) : ∃ r', Reaches source r' ∧ r'.isDone = true ∧ r'.file = f := by
  generalize ha : Except.ok (ε := SyntaxError) f = a at h
  induction h with
  | done hdone => exact ⟨_, hr, hdone, (Except.ok.inj ha).symm⟩
  | fails => cases ha
  | goes hdone hstep _ ih => exact ih (hr.step hdone hstep) ha

/-- No step of a source that parses fails. -/
theorem Reaches.exists_step {f : TemplateFile} (hr : Reaches source r) (hparse : parse source = .ok f)
    (hdone : r.isDone = false) : ∃ r', Markup.step r = .ok r' := by
  have hreturns := hr.returns
  rw [hparse] at hreturns
  cases hreturns with
  | done hnot =>
    rw [hdone] at hnot
    cases hnot
  | goes _ hstep => exact ⟨_, hstep⟩

end Reaches

end Markup

/-! ### Sources -/

section Sources

variable {source : SourceText} {f : TemplateFile}

open Markup

/-- **Values of attributes** of a source that parses. Every node in one is text, a special character or a
print, a call of a delegate whose name starts like an operator, or a visual element whose name does. And
wherever a command starts in a quoted value, it is a special character or a print, or one of these two with
arguments that start with a dot or a dash. -/
theorem parse_attributeValues (h : parse source = .ok f) :
    (∀ id, ∀ x ∈ (f.kind id).valueNodes, x < f.nodes.size ∧ (f.kind x).StandsInValue) ∧
    ∀ r name start quote nodes below, Reaches source r →
      r.frames = .attributeValue name start quote nodes :: below → r.input.rest.head? = some '\x7b' →
        ∃ tag rest, Tag.read r.input = .ok (tag, rest) ∧ (tag.Prints ∨ tag.SlipsIn) := by
  constructor
  · intro id x hx
    have hreturns : Returns _ (parse source) := returns_run (Nat.lt_succ_self _)
    rw [h] at hreturns
    -- the file is that of the last state, where the invariant holds
    obtain ⟨r, hr, -, rfl⟩ := hreturns.exists_reaches .start
    have hlt : id < r.file.nodes.size := by
      by_contra hge
      rw [TemplateFile.kind, Array.getElem?_eq_none (Nat.le_of_not_lt hge)] at hx
      cases hx
    exact hr.filled.nodes id hlt x hx
  · intro r name start quote nodes below hr hfr hbrace
    -- a value is open, so a next step is made, and it does not fail
    have hdone : r.isDone = false := by
      rw [Reading.isDone, hfr]
      exact Bool.and_false _
    obtain ⟨r', hstep⟩ := hr.exists_step h hdone
    unfold Markup.step at hstep
    rw [hfr] at hstep
    obtain ⟨tag, rest, hread, hlet, -⟩ := hr.filled.tag_inValue hfr hbrace hstep
    exact ⟨tag, rest, hread, hlet⟩

/-- The delegate that a node calls. -/
def NodeKind.delegate? : NodeKind → Option String
  | .call c => if c.delegate then some c.callee else none
  | _ => none

/-- A call of a delegate in the value of an attribute, after text and a print. -/
def delegateInValue : SourceText :=
  ⟨"a.st", "\x7bnamespace a\x7d\x7btemplate .t\x7d<a href=\"x\x7b1\x7d\x7bdelcall .y /\x7d\"></a>\x7b/template\x7d"⟩

/-- The value has the text, the print and the call in it. -/
theorem parse_delegateInValue : ∃ f, parse delegateInValue = .ok f ∧ (f.kind 3).valueNodes = [0, 1, 2] ∧
    (f.kind 2).delegate? = some ".y" := by
  have hrun : (parse delegateInValue).toOption.map (fun f =>
      ((f.kind 3).valueNodes, (f.kind 2).delegate?)) = some ([0, 1, 2], some ".y") := by decide +kernel
  obtain ⟨f, hp, hf⟩ := exists_of_toOption_map hrun
  obtain ⟨hnodes, hcall⟩ := Prod.mk.inj hf
  exact ⟨f, hp, hnodes, hcall⟩

/-- The name of the delegate starts with a dot. -/
theorem parse_attributeValues_delegateInValue : ∃ f, parse delegateInValue = .ok f ∧
    ∀ x ∈ [0, 1, 2], x < f.nodes.size ∧ (f.kind x).StandsInValue := by
  obtain ⟨f, hp, hnodes, -⟩ := parse_delegateInValue
  obtain ⟨hvalues, -⟩ := parse_attributeValues hp
  exact ⟨f, hp, hnodes ▸ hvalues 3⟩

/-- A source parses although a call stands in the value of an attribute. -/
theorem parse_accepts_delegateInValue : ∃ f, parse delegateInValue = .ok f ∧
    ∃ id, ∃ x ∈ (f.kind id).valueNodes, ∃ c, f.kind x = .call c ∧ c.delegate = true ∧ c.callee = ".y" := by
  obtain ⟨f, hp, hnodes, hcall⟩ := parse_delegateInValue
  refine ⟨f, hp, 3, 2, by rw [hnodes]; decide, ?_⟩
  cases hkind : f.kind 2 with
  | call c =>
    rw [hkind, NodeKind.delegate?, Option.ite_none_right_eq_some] at hcall
    exact ⟨c, rfl, hcall.1, Option.some.inj hcall.2⟩
  | _ =>
    rw [hkind] at hcall
    cases hcall

end Sources

end TemplateFrontend
