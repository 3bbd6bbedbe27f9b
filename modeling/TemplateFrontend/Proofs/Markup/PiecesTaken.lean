import TemplateFrontend.Proofs.Markup.Inputs
import TemplateFrontend.Proofs.Markup.Nesting
import TemplateFrontend.Proofs.Markup.Steps
/-!
# The pieces that steps take

Each step of reading a file takes a piece off the front of the text. The open frames, without what was
read for them, are a stack of what is pending, on which the step makes the move of its piece.

* `Reading.piece`, `Reading.taken` — the piece of a step and its text;
* `Takes` — what a step does;
* `startCommand_started` — the move of a command in content.
-/

namespace TemplateFrontend

open Text

namespace Markup

/-! ### The piece of a step -/

/-- What is pending while a block opened by a tag is open. -/
def Block.pending (opener : Tag) : Block → Pending
  | .template _ header => if header.closed then .block opener.closing else .template opener.closing
  | .branch _ _ => .branch
  | .otherwise _ => .block "/if"
  | .loop _ _ => .block "/for"
  | .binding _ _ => .block "/let"
  | .message _ _ => .block "/msg"
  | .visualElement _ => .block "/velog"
  | .param _ _ => .block "/param"

/-- What is pending while a frame is open. -/
def Frame.pending : Frame → Pending
  | .block opener _ inner _ => inner.pending opener
  | .call opener _ => .call opener.closing
  | .openTag _ _ _ => .htmlTag
  | .attributeValue _ _ _ _ => .value

/-- The command that is read at the front of an input. -/
def Piece.commandAt (i : Input) : Piece :=
  match Tag.read i with
  | .ok (tag, _) => .command tag
  | .error _ => .blank

namespace Reading

/-- What is pending, the innermost first. -/
def pending (r : Reading) : List Pending := r.frames.map Frame.pending

/-- The text between two states. -/
def taken (r r' : Reading) : List Char :=
  r.input.rest.take (r.input.rest.length - r'.input.rest.length)

/-- The piece that the step from `r` to `r'` takes. -/
def piece (r r' : Reading) : Piece :=
  match r.frames with
  | [] =>
    match r.input.skipBlanks.rest with
    | [] => .blank
    | '/' :: _ => .comment
    | _ => .commandAt r.input.skipBlanks
  | .call _ _ :: _ =>
    match r.input.skipBlanks.rest with
    | '/' :: _ => .comment
    | _ => .commandAt r.input.skipBlanks
  | .block _ html _ _ :: _ =>
    match r.input.rest with
    | '/' :: '*' :: _ => .comment
    | '\x7b' :: _ => .commandAt r.input
    | cs =>
      if html && startsTag cs then if cs.tail.head? == some '/' then .closeTag else .tagStart
      else if allBlank (r.taken r') then .blank
      else .text
  | .openTag _ _ _ :: _ =>
    match r.input.skipBlanks.rest with
    | '/' :: '>' :: _ | '>' :: _ => .tagEnd
    | _ =>
      match r'.frames with
      | .attributeValue _ _ _ _ :: _ => .valueStart
      | _ => .attribute
  | .attributeValue _ _ quote _ :: _ =>
    if r.input.rest.head? = some quote then .valueEnd
    else if r.input.rest.head? = some '\x7b' then .commandAt r.input
    else .text

/-! ### What is pending after a move -/

section Moves

variable {r : Reading} {frame frame' : Frame} {below : List Frame}

@[simp] theorem pending_emit (r : Reading) (k : NodeKind) (s : Span) :
    (r.emit k s).pending = r.pending := by
  unfold emit place pending
  dsimp only
  split
  · rfl
  · next hfr => rw [hfr]; rfl
  · next hfr => rw [hfr]; rfl
  · rfl
  · rfl

@[simp] theorem pending_push (r : Reading) (frame : Frame) :
    (r.push frame).pending = frame.pending :: r.pending := rfl

/-- Only the frames say what is pending. -/
theorem pending_congr {r' : Reading} (h : r'.frames = r.frames) : r'.pending = r.pending :=
  congrArg (List.map Frame.pending) h

theorem pending_of_frames (hfr : r.frames = frame :: below) :
    r.pending = frame.pending :: r.pop.pending := by
  rw [pending, hfr, pending, frames_pop hfr]
  rfl

theorem pending_replace (hfr : r.frames = frame :: below) (h : frame'.pending = frame.pending) :
    (r.replace frame').pending = r.pending := by
  rw [pending_of_frames hfr, ← h]
  rfl

end Moves

end Reading

/-! ### Texts of pieces -/

/-- How a piece is written: a command between braces, blanks before them skipped, and text without the
brace that opens a command. -/
def Piece.Spells (cs : List Char) : Piece → Prop
  | .command tag => ∃ blanks body offset span, cs = blanks ++ '\x7b' :: (body ++ ['\x7d']) ∧
      allBlank blanks = true ∧ tag = Tag.ofBody ⟨offset, body⟩ span
  | .blank => allBlank cs = true
  | .text => '\x7b' ∉ cs
  | _ => True

theorem Reading.taken_eq {r r' : Reading} {n : Nat} (h : r'.input = r.input.drop n) :
    r.taken r' = r.input.rest.take n := by
  rw [taken, h]
  simp only [Input.drop, List.length_drop]
  by_cases hn : n ≤ r.input.rest.length
  · rw [Nat.sub_sub_self hn]
  · rw [Nat.sub_eq_zero_of_le (Nat.le_of_not_le hn), Nat.sub_zero, List.take_length,
      List.take_of_length_le (Nat.le_of_not_le hn)]

theorem Reading.taken_append {r r' : Reading} (h : r.input.After r'.input) :
    r.taken r' ++ r'.input.rest = r.input.rest := by
  obtain ⟨n, h⟩ := h
  rw [taken_eq h, h]
  exact List.take_append_drop n _

/-- What a step does: it takes its piece off the front of the text and makes the move of the piece. -/
structure Takes (r r' : Reading) : Prop where
  after : r.input.After r'.input
  spells : (r.piece r').Spells (r.taken r')
  moves : Moves r.pending (r.piece r') r'.pending

section Pieces

variable {r r' : Reading} {tag : Tag} {i rest : Input}

/-- A command is written as its tag is. -/
theorem spells_commandAt {n : Nat} (hi : i = r.input.drop n)
    (hblank : allBlank (r.input.rest.take n) = true) (hbrace : i.rest.head? = some '\x7b')
    (hread : Tag.read i = .ok (tag, rest)) (hinput : r'.input = rest) :
    (Piece.command tag).Spells (r.taken r') := by
  obtain ⟨body, rfl, rfl, more, hmore⟩ := exists_of_read hread
  obtain ⟨cs, hcs⟩ : ∃ cs, i.rest = '\x7b' :: cs := by
    cases hrest : i.rest with
    | nil => rw [hrest] at hbrace; cases hbrace
    | cons c cs =>
      rw [hrest] at hbrace
      exact ⟨cs, by rw [Option.some.inj hbrace]⟩
  refine ⟨r.input.rest.take n, body, _, _, ?_, hblank, rfl⟩
  have hdrop : r'.input = r.input.drop (n + (body.length + 2)) := by
    rw [hinput, hi, Input.drop_drop]
  -- after the blanks stands the whole tag, and then what is left
  have htail : r.input.rest.drop n = '\x7b' :: (body ++ '\x7d' :: more) := by
    have hrest : r.input.rest.drop n = i.rest := by rw [hi]; rfl
    rw [hrest, hcs, ← hmore, hcs, List.tail_cons]
  rw [Reading.taken_eq hdrop, List.take_add, htail]
  congr 1
  simp [List.take_append, List.take_of_length_le]

/-- A step takes a command, blanks before it skipped. -/
theorem Takes.command {n : Nat} (hi : i = r.input.drop n)
    (hblank : allBlank (r.input.rest.take n) = true) (hbrace : i.rest.head? = some '\x7b')
    (hread : Tag.read i = .ok (tag, rest)) (hpiece : r.piece r' = .commandAt i)
    (hinput : r'.input = rest) (hmoves : Moves r.pending (.command tag) r'.pending) : Takes r r' := by
  have hcommand : r.piece r' = .command tag := by rw [hpiece, Piece.commandAt, hread]
  obtain ⟨body, -, hdrop, -⟩ := exists_of_read hread
  refine ⟨?_, ?_, by rwa [hcommand]⟩
  · rw [hinput, hdrop, hi]
    exact (Input.After.drop _ _).trans (.drop _ _)
  · rw [hcommand]
    exact spells_commandAt hi hblank hbrace hread hinput

/-- A step takes a piece that changes nothing of what is open. -/
theorem Takes.stays {w : Piece} (hpiece : r.piece r' = w) (hafter : r.input.After r'.input)
    (hspells : w.Spells (r.taken r')) (hpending : r'.pending = r.pending)
    (hstands : w.StandsIn (placeOf r.pending)) : Takes r r' := by
  subst hpiece
  refine ⟨hafter, hspells, ?_⟩
  rw [hpending]
  exact .stays hstands

/-- A step takes a piece that closes what was opened last. -/
theorem Takes.closes {w : Piece} {o : Pending} (hpiece : r.piece r' = w)
    (hafter : r.input.After r'.input) (hspells : w.Spells (r.taken r'))
    (hpending : r.pending = o :: r'.pending) (hclose : w.Closes o) : Takes r r' := by
  subst hpiece
  refine ⟨hafter, hspells, ?_⟩
  rw [hpending]
  exact .closes hclose

end Pieces

section Commands

variable {r r' : Reading} {tag : Tag}

/-! ### Starting commands -/

theorem hasValue_of_word {expected : String} {w : String × Span} {i : Input}
    (h : tag.args.word expected = .ok (w, i)) : tag.hasValue = (i.mark? [':']).isSome := by
  unfold Input.word at h
  dsimp only at h
  split at h
  · cases h
  · next n hn =>
    obtain ⟨-, rfl⟩ := Prod.mk.inj (Except.ok.inj h)
    rfl

/-- A command leaves the input, and either stands for itself or opens something. -/
def Started (p : Place) (tag : Tag) (r r' : Reading) : Prop :=
  r'.input = r.input ∧ ((Piece.command tag).StandsIn p ∧ r'.pending = r.pending ∨
    ∃ o, (Piece.command tag).Opens p o ∧ r'.pending = o :: r.pending)

theorem Started.moves {p : Place} (h : Started p tag r r') (hp : placeOf r.pending = p) :
    Moves r.pending (.command tag) r'.pending := by
  subst hp
  obtain ⟨-, ⟨hstands, hpending⟩ | ⟨o, hopens, hpending⟩⟩ := h
  · rw [hpending]
    exact .stays hstands
  · rw [hpending]
    exact .opens hopens

/-- A plain command that adds a node. -/
theorem started_emit {p : Place} (hp : p.isContent = true) (h : tag.IsPlain) (k : NodeKind) (s : Span) :
    Started p tag r (r.emit k s) := by
  refine ⟨Reading.input_emit r k s, .inl ⟨?_, Reading.pending_emit r k s⟩⟩
  cases p with
  | body | value => exact h
  | file | header | params | attributes => cases hp

/-- A command is plain if its name says so. -/
theorem isPlain_of_name {name : String} (hname : tag.name = name)
    (hfree : name.toList.head? ≠ some '/' ∧ name ∉ reservedNames)
    (hlet : name ≠ "let" ∨ tag.hasValue = true)
    (hcall : name ≠ "call" ∧ name ≠ "delcall" ∨ tag.selfClosing = true) : tag.IsPlain := by
  subst hname
  refine ⟨beq_eq_false_iff_ne.mpr hfree.1, hfree.2, fun h => ?_, fun h => ?_⟩
  · exact hlet.resolve_left fun hne => hne h
  · exact hcall.resolve_left fun hne => h.elim hne.1 hne.2

/-- The commands for special characters are plain. -/
theorem isPlain_of_special {c : SpecialChar}
    (hname : tag.name = String.ofList (tag.content.rest.takeWhile (! isBlank ·)))
    (h : SpecialChar.ofCommand? (String.ofList tag.content.rest) = some c) : tag.IsPlain := by
  have hfound := List.find?_some h
  have hcommand : c.command = String.ofList tag.content.rest := eq_of_beq hfound
  have hlist : tag.content.rest = c.command.toList := by rw [hcommand, String.toList_ofList]
  have hsame : tag.name = c.command := by
    rw [hname, hlist]
    cases c <;> decide
  cases c <;>
    exact isPlain_of_name hsame (by decide) (.inl (by decide)) (.inl (by decide))

/-- So is a tag whose text is an expression. -/
theorem isPlain_of_isExpression (h : tag.IsExpression) : tag.IsPlain := by
  have hcontent := h.not_content
  have hpart := h.not_part
  simp only [List.mem_cons, List.not_mem_nil, or_false, not_or] at hcontent hpart
  -- no command of a header but has an `@`
  have hheader : tag.name ∉ headerCommands := fun hmem => by
    have hhead : ∀ n ∈ headerCommands, (n.toList.head? == some '@') = true := by decide
    exact Bool.false_ne_true (h.not_header.symm.trans (hhead _ hmem))
  have hfree : tag.name.toList.head? ≠ some '/' := beq_eq_false_iff_ne.mp h.not_closing
  -- what is left is to read off that the name is none of the reserved ones
  refine isPlain_of_name rfl ⟨hfree, ?_⟩ (.inl hcontent.2.2.2.1)
    (.inl ⟨hcontent.2.2.2.2.1, hcontent.2.2.2.2.2.1⟩)
  simp only [reservedNames, List.mem_append, List.mem_cons, List.not_mem_nil, or_false]
  have hfile := h.not_file
  tauto

/-- A command opens a block that its own name closes. -/
theorem started_push {p : Place} {frame : Frame} {name : String} (hname : tag.name = name)
    (hopens : (Piece.command tag).Opens p (.block tag.closing))
    (hframe : frame.pending = .block ("/" ++ name)) : Started p tag r (r.push frame) := by
  refine ⟨rfl, .inr ⟨_, hopens, ?_⟩⟩
  rw [Reading.pending_push, hframe, Tag.closing, hname]

/-- **Starting a command.** -/
theorem startCommand_started {p : Place} {html : Bool} (hp : p.isContent = true)
    (hname : tag.name = String.ofList (tag.content.rest.takeWhile (! isBlank ·)))
    (hif : tag.name = "if" → p = .body) (h : startCommand r tag html = .ok r') :
    Started p tag r r' := by
  cases begins_of_startCommand h with
  | special hspecial => exact started_emit hp (isPlain_of_special hname hspecial) _ _
  | print hi he =>
    obtain ⟨-, hprint⟩ | ⟨-, hexpression⟩ := hi
    · exact started_emit hp
        (isPlain_of_name hprint (by decide) (.inl (by decide)) (.inl (by decide))) _ _
    · exact started_emit hp (isPlain_of_isExpression hexpression) _ _
  | condition hcond =>
    rw [hif hcond]
    exact ⟨rfl, .inr ⟨_, .condition hcond, rfl⟩⟩
  -- with a colon the binding has its value in the tag
  | value hlet hword hcolon =>
    have hvalue : tag.hasValue = true := by rw [hasValue_of_word hword, hcolon]; rfl
    exact started_emit hp (isPlain_of_name hlet (by decide) (.inr hvalue) (.inl (by decide))) _ _
  -- without one its value is the content up to its end tag
  | content hlet hword hcolon =>
    have hvalue : tag.hasValue = false := by rw [hasValue_of_word hword, hcolon]; rfl
    exact started_push hlet (.binding hp hlet hvalue) rfl
  | call hcall _ hclosed =>
    -- a call that closes itself stands for itself
    obtain hcall | hcall := hcall <;>
      exact started_emit hp (isPlain_of_name hcall (by decide) (.inl (by decide)) (.inr hclosed)) _ _
  | openCall hcall _ hopen => exact ⟨rfl, .inr ⟨_, .call hp hcall hopen, rfl⟩⟩
  | loop hword | message hword | visualElement hword =>
    exact started_push hword (.block hp (by rw [hword]; decide)) rfl

end Commands

end Markup

end TemplateFrontend
