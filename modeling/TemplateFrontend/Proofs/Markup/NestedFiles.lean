import TemplateFrontend.Proofs.Markup.PiecesTaken
import TemplateFrontend.Proofs.Markup.Progress
import TemplateFrontend.Markup.RawText
/-!
# Sources that parse are well nested

Every step makes the move of its piece on the stack of what is pending, whatever the frame in which it
starts. At the end nothing is open, so the pieces of the whole run are nested. Raw text goes up to the next
command; it is joined into one line before it becomes a node, and nothing is left of it only if it holds
nothing but blanks.

* `notMem_take_textLength` — raw text holds no brace that opens a command;
* `allBlank_of_joinLines` — texts of which nothing is left;
* `atTop_takes`, `inBlock_takes`, `inCall_takes`, `inOpenTag_takes`, `inAttributeValue_takes` — the steps
  in each kind of frame;
* `step_takes`, `run_takes` — one step and all of them;
* `nested_of_parse` — the pieces of a source that parses.
-/

namespace TemplateFrontend

open Text

namespace Markup

/-! ### Raw texts -/

/-- Raw text goes up to the next brace. -/
theorem notMem_take_textLength (html : Bool) (cs : List Char) :
    '\x7b' ∉ cs.take (textLength html cs) := by
  induction cs with
  | nil => exact List.not_mem_nil
  | cons c cs ih =>
    rw [textLength]
    split
    · exact List.not_mem_nil
    -- the run went on past this character, so it was no brace
    · next hgoes =>
      rw [List.take_succ_cons, List.mem_cons]
      rintro (rfl | h)
      · exact hgoes rfl
      · exact ih h

/-- The characters of a text are in its pieces or separate them. -/
theorem eq_or_exists_of_mem_pieces (sep : Char) {cs : List Char} {c : Char} (h : c ∈ cs) :
    c = sep ∨ ∃ p ∈ pieces sep cs, c ∈ p := by
  induction cs with
  | nil => cases h
  | cons d cs ih =>
    rw [pieces]
    split
    · next hsep =>
      obtain rfl | h := List.mem_cons.mp h
      · exact .inl hsep
      -- behind a separator the pieces are those of the rest
      · obtain hsep' | ⟨p, hp, hc⟩ := ih h
        · exact .inl hsep'
        · exact .inr ⟨p, List.mem_cons_of_mem _ hp, hc⟩
    · split
      · next hnil => exact absurd hnil (pieces_ne_nil sep cs)
      · -- the first piece is longer by one character
        next p ps hcons =>
        obtain rfl | h := List.mem_cons.mp h
        · exact .inr ⟨c :: p, List.mem_cons_self, List.mem_cons_self⟩
        · obtain hsep | ⟨q, hq, hc⟩ := ih h
          · exact .inl hsep
          · rw [hcons] at hq
            obtain rfl | hq := List.mem_cons.mp hq
            · exact .inr ⟨d :: q, List.mem_cons_self, List.mem_cons_of_mem _ hc⟩
            · exact .inr ⟨q, List.mem_cons_of_mem _ hq, hc⟩

/-- Lines that join to nothing are empty, all of them. -/
theorem eq_nil_of_foldl_addLine {lines : List (List Char)} {text : List Char}
    (h : lines.foldl addLine text = []) : text = [] ∧ ∀ line ∈ lines, line = [] := by
  induction lines generalizing text with
  | nil => exact ⟨h, nofun⟩
  | cons line lines ih =>
    obtain ⟨htext, hlines⟩ := ih h
    have hline : line = [] := by
      cases line with
      | nil => rfl
      | cons c cs =>
        -- a line with something in it would be there in the result
        unfold addLine at htext
        rw [if_neg (by simp)] at htext
        split at htext <;> simp at htext
    subst hline
    exact ⟨htext, List.forall_mem_cons.mpr ⟨rfl, hlines⟩⟩

/-- What is empty without the blanks at its start is blank. -/
theorem allBlank_of_trimStart {cs : List Char} (h : trimStart cs = []) : allBlank cs = true :=
  List.all_eq_true.mpr (trimStart_eq_nil_iff.mp h)

/-- What is blank without the blanks at its start is blank. -/
theorem allBlank_of_allBlank_trimStart {cs : List Char} (h : allBlank (trimStart cs) = true) :
    allBlank cs = true := by
  have hsplit : cs.takeWhile isBlank ++ trimStart cs = cs := List.takeWhile_append_dropWhile
  rw [← hsplit, allBlank, List.all_append, Bool.and_eq_true]
  exact ⟨List.all_takeWhile, h⟩

/-- What is empty without the blanks at its end is blank. -/
theorem allBlank_of_trimEnd {cs : List Char} (h : trimEnd cs = []) : allBlank cs = true := by
  have hreverse : allBlank cs.reverse = true := allBlank_of_trimStart (List.reverse_eq_nil_iff.mp h)
  rwa [allBlank, List.all_reverse] at hreverse

/-- Lines that are trimmed to nothing are blank, whichever end of theirs was trimmed. -/
theorem allBlank_of_trimmedLines {lines : List (List Char)}
    (h : ∀ line ∈ trimmedLines lines, line = []) {line : List Char} (hline : line ∈ lines) :
    allBlank line = true := by
  obtain ⟨n, hn, rfl⟩ := List.getElem_of_mem hline
  have htrimmed := h _ (List.mem_map_of_mem (List.mk_mem_zipIdx_iff_getElem?.mpr
    (List.getElem?_eq_getElem hn)))
  dsimp only at htrimmed
  -- the first line keeps the blanks at its start, and the last one those at its end
  have hstart : (if n = 0 then lines[n] else trimStart lines[n]) = [] → allBlank lines[n] = true := by
    split
    · intro hnil
      rw [hnil]
      rfl
    · exact allBlank_of_trimStart
  split at htrimmed
  · exact hstart htrimmed
  · have hall := allBlank_of_trimEnd htrimmed
    split at hall
    · exact hall
    · exact allBlank_of_allBlank_trimStart hall

/-- Texts with something other than blanks are kept. -/
theorem allBlank_of_joinLines {text : List Char} (h : joinLines text = none) : allBlank text = true := by
  unfold joinLines at h
  by_cases hbreak : text.contains '\n' = true
  · rw [if_pos hbreak] at h
    -- the lines come to nothing only if each is cut to nothing
    have hempty : (trimmedLines (pieces '\n' text)).foldl addLine [] = [] := by
      cases hfold : (trimmedLines (pieces '\n' text)).foldl addLine [] with
      | nil => rfl
      | cons c cs =>
        rw [hfold] at h
        cases h
    obtain ⟨-, hlines⟩ := eq_nil_of_foldl_addLine hempty
    refine List.all_eq_true.mpr fun c hc => ?_
    obtain rfl | ⟨p, hp, hc⟩ := eq_or_exists_of_mem_pieces '\n' hc
    · rfl
    · exact List.all_eq_true.mp (allBlank_of_trimmedLines hlines hp) c hc
  · rw [if_neg hbreak] at h
    cases text with
    | nil => rfl
    | cons c cs => cases h

/-! ### Steps outside of templates -/

section Steps

variable {r r' : Reading} {tag : Tag} {below : List Frame}

/-- A declaration opens a template, or leaves the file as open as it was. -/
theorem startDeclaration_moves (hfr : r.frames = []) (h : startDeclaration r tag = .ok r') :
    r'.input = r.input ∧ Moves [] (.command tag) r'.pending := by
  have hpending {s : Reading} (hs : s.frames = r.frames) : s.pending = [] := by
    rw [Reading.pending, hs, hfr]
    rfl
  cases declares_of_startDeclaration h with
  | @template kind t hkind =>
    -- the kind was found by the name of the command
    have hname : tag.name ∈ ["template", "deltemplate", "element"] := by
      have hcommand := List.find?_some hkind
      rw [← eq_of_beq hcommand]
      cases kind <;> decide
    have hnone : Reading.pending { r with doc := none, strict := t.strictHtml } = [] := hpending rfl
    refine ⟨rfl, ?_⟩
    rw [Reading.pending_push, hnone]
    exact .opens (.template hname)
  -- any other declaration is noted in the file and opens nothing
  | @noted f hname =>
    have hnone : Reading.pending { r with file := f, doc := none } = [] := hpending rfl
    refine ⟨rfl, ?_⟩
    rw [hnone]
    exact .stays hname

/-- **One step at the top of a file.** -/
theorem atTop_takes (hfr : r.frames = []) (h : atTop r = .ok r') : Takes r r' := by
  obtain ⟨n, hskip, hblank⟩ := Input.exists_skipBlanks r.input
  have hskipped := Input.After.skipBlanks r.input
  have hpending : r.pending = [] := by rw [Reading.pending, hfr]; rfl
  -- nothing is open, so what stands here stands in the file
  have hstands {w : Piece} (hw : w.StandsIn .file) : w.StandsIn (placeOf r.pending) := by
    rw [hpending]
    exact hw
  cases atTop_eq_ok_iff.mp h with
  | blank hrest =>
    refine .stays (w := .blank) ?_ hskipped ?_ rfl (hstands (by simp [Piece.StandsIn]))
    · simp only [Reading.piece, hfr, hrest]
    · rw [Piece.Spells, Reading.taken_eq hskip]
      exact hblank
  | comment hrest h =>
    obtain ⟨-, hframes⟩ := skipComment_keeps h
    refine .stays (w := .comment) ?_ (hskipped.trans (skipComment_after h)) trivial
      (Reading.pending_congr hframes) (hstands (by simp [Piece.StandsIn]))
    simp only [Reading.piece, hfr, hrest]
  -- a comment up to the end of the line
  | lineComment hrest =>
    refine .stays (w := .comment) ?_ (hskipped.trans (.takeWhile _ _)) trivial rfl
      (hstands (by simp [Piece.StandsIn]))
    simp only [Reading.piece, hfr, hrest]
  | @declaration _ _ rest _ hrest hread h =>
    obtain ⟨hinput, hmoves⟩ := startDeclaration_moves (r := { r with input := rest }) hfr h
    refine .command hskip hblank (by rw [hrest]; rfl) hread ?_ hinput (hpending ▸ hmoves)
    simp only [Reading.piece, hfr, hrest]
    rfl

/-! ### Steps inside of blocks -/

section Blocks

variable {opener : Tag} {html : Bool} {block : Block} {nodes : List NodeId}

/-- What is pending when the body of the innermost block has started. -/
theorem moves_of_startBody {w : Piece} {stack : List Pending}
    (hfr : r.frames = .block opener html block nodes :: below)
    (h : placeOf (startBody r).pending = .body → Moves (startBody r).pending w stack) :
    Moves r.pending w stack := by
  have hstarted : (startBody r).pending = block.closeHeader.pending opener :: r.pop.pending := by
    rw [Reading.pending, startBody_frames hfr, Reading.pending, Reading.frames_pop hfr]
    rfl
  rw [hstarted] at h
  rw [Reading.pending_of_frames hfr, Frame.pending]
  cases block with
  | template t header =>
    have h := h rfl
    rw [Block.pending]
    split
    · exact h
    -- in a header, the piece is where the body starts
    · exact .starts h
  | branch | otherwise | loop | binding | message | visualElement | param => exact h rfl

/-- A comment in a block changes nothing that is pending. -/
theorem commentInBlock_keeps (hfr : r.frames = .block opener html block nodes :: below)
    (h : commentInBlock r opener html block nodes = .ok r') :
    r.input.After r'.input ∧ r'.pending = r.pending := by
  obtain ⟨after, hafter, h⟩ := exists_of_bind_ok h
  obtain ⟨-, hframes⟩ := skipComment_keeps hafter
  have hinput := skipComment_after hafter
  have hpending : after.pending = r.pending := Reading.pending_congr hframes
  cases block with
  | template t header =>
    -- a comment may change the documentation of a parameter, but it does not end the header
    have hattached (header' : Header) (doc : Option String) (hclosed : header'.closed = header.closed) :
        (Reading.replace { after with doc } (.block opener html (.template t header') nodes)).pending =
          r.pending := by
      rw [← hpending]
      refine Reading.pending_replace (r := { after with doc }) (hframes.trans hfr) ?_
      rw [Frame.pending, Frame.pending, Block.pending, Block.pending, hclosed]
    obtain rfl := Except.ok.inj h
    exact ⟨hinput, hattached _ _ (closed_attachDoc header r.input after.doc)⟩
  | branch | otherwise | loop | binding | message | visualElement | param =>
    obtain rfl := Except.ok.inj h
    exact ⟨hinput, hpending⟩

/-- Comments stand before the body of a block and in it. -/
theorem commentInBlock_takes (hfr : r.frames = .block opener html block nodes :: below)
    (hpiece : r.piece r' = .comment) (h : commentInBlock r opener html block nodes = .ok r') :
    Takes r r' := by
  obtain ⟨hafter, hpending⟩ := commentInBlock_keeps hfr h
  refine .stays hpiece hafter trivial hpending ?_
  rw [Reading.pending_of_frames hfr, Frame.pending]
  cases block with
  | template t header =>
    rw [Block.pending]
    split <;> simp [placeOf, Pending.place, Piece.StandsIn]
  | _ => simp [Block.pending, placeOf, Pending.place, Piece.StandsIn]

/-- A declaration does not end the header. -/
theorem closed_declare {header header' : Header} {doc : Option String} {rest : Input}
    (h : declare header doc tag rest = .ok header') : header'.closed = header.closed := by
  obtain ⟨decl, rfl, -⟩ | ⟨decl, j, rfl, -⟩ := declare_cases h <;> rfl

/-- A declaration stands before the body of a template. -/
theorem declareInBlock_moves (hfr : r.frames = .block opener html block nodes :: below)
    (hname : tag.name ∈ headerCommands)
    (h : declareInBlock r opener html block nodes tag = .ok r') :
    r'.input = r.input ∧ Moves r.pending (.command tag) r'.pending := by
  cases block with
  | template t header =>
    unfold declareInBlock at h
    dsimp only at h
    split at h
    · cases h
    -- only an open header takes declarations, and it stays open
    · next hopen =>
      obtain ⟨header', hheader, h⟩ := exists_of_bind_ok h
      obtain rfl := Except.ok.inj h
      refine ⟨rfl, ?_⟩
      rw [Reading.pending_replace (r := { r with doc := none }) hfr (by
        rw [Frame.pending, Frame.pending, Block.pending, Block.pending, closed_declare hheader])]
      refine .stays ?_
      rw [Reading.pending_of_frames hfr, Frame.pending, Block.pending, if_neg hopen]
      exact hname
  | branch | otherwise | loop | binding | message | visualElement | param => cases h

/-- The call that is given a parameter goes on as before. -/
theorem passParam_keeps {p : Passed} {s : Span} (h : passParam r p s = .ok r') :
    r'.input = r.input ∧ r'.pending = r.pending := by
  obtain ⟨opener, c, below, hfr, rfl⟩ | rfl := passParam_cases h
  · exact ⟨rfl, Reading.pending_replace hfr rfl⟩
  · exact ⟨rfl, rfl⟩

/-- **The end of a block**, or of one part of it. -/
theorem endBlock_moves {body : List NodeId} (hfr : r.frames = .block opener html block nodes :: below)
    (hname : tag.name ∈ block.terminators opener)
    (h : endBlock r opener html block body tag = .ok r') :
    r'.input = r.input ∧ Moves r.pending (.command tag) r'.pending := by
  -- the block is complete, and its node goes into what is open around it
  have hcompletes {k : NodeKind} {s : Span} (hclose : (Piece.command tag).Closes (block.pending opener)) :
      (r.pop.emit k s).input = r.input ∧ Moves r.pending (.command tag) (r.pop.emit k s).pending := by
    rw [Reading.pending_emit, Reading.input_emit, Reading.pending_of_frames hfr]
    exact ⟨rfl, .closes hclose⟩
  cases block with
  | template t header =>
    obtain rfl := Except.ok.inj h
    have hname := List.mem_singleton.mp hname
    rw [Reading.pending_emit, Reading.input_emit, Reading.pending_of_frames hfr, Frame.pending,
      Block.pending]
    split
    · exact ⟨rfl, .closes hname⟩
    -- a template may end without a body
    · exact ⟨rfl, .starts (.closes hname)⟩
  | branch before cond =>
    unfold endBlock at h
    dsimp only at h
    rw [Reading.pending_of_frames hfr]
    -- a branch is followed by another one, by the last one, or by nothing
    split at h
    · next helseif =>
      obtain ⟨cond', -, h⟩ := exists_of_bind_ok h
      obtain rfl := Except.ok.inj h
      exact ⟨rfl, .elseif helseif⟩
    · split at h
      · next helse =>
        obtain rfl := Except.ok.inj h
        exact ⟨rfl, .otherwise helse⟩
      · -- of the three names that end a branch only one is left
        next helseif helse =>
        obtain rfl := Except.ok.inj h
        have hif : tag.name = "/if" := by
          simpa [Block.terminators, helseif, helse] using hname
        rw [← Reading.pending_of_frames hfr]
        exact hcompletes hif
  | param name kind =>
    obtain ⟨hinput, hpending⟩ := passParam_keeps h
    rw [hpending, Reading.pending_of_frames hfr]
    exact ⟨hinput, .closes (List.mem_singleton.mp hname)⟩
  | otherwise | loop | binding | message | visualElement =>
    obtain rfl := Except.ok.inj h
    exact hcompletes (List.mem_singleton.mp hname)

/-- **A tag in a block.** -/
theorem tagInBlock_moves (hfr : r.frames = .block opener html block nodes :: below)
    (hname : tag.name = String.ofList (tag.content.rest.takeWhile (! isBlank ·)))
    (h : tagInBlock r opener html block nodes tag = .ok r') :
    r'.input = r.input ∧ Moves r.pending (.command tag) r'.pending := by
  unfold tagInBlock at h
  split at h
  · next hends => exact endBlock_moves hfr (List.contains_iff_mem.mp hends) h
  · split at h
    · cases h
    · split at h
      · next hheader => exact declareInBlock_moves hfr (List.contains_iff_mem.mp hheader) h
      · have hstarted := startCommand_started (p := .body) rfl hname (fun _ => rfl) h
        exact ⟨hstarted.1.trans (input_startBody r), moves_of_startBody hfr hstarted.moves⟩

/-- Text in a block stands in its body, and blanks may also stand before it. -/
theorem textInBlock_moves {w : Piece} {text : List Char}
    (hfr : r.frames = .block opener html block nodes :: below)
    (htext : text = r.input.rest.take (textLength html r.input.rest))
    (hw : w = if allBlank text then .blank else .text) :
    (textInBlock r html block).input = r.input.drop text.length ∧
      Moves r.pending w (textInBlock r html block).pending := by
  -- blanks and text alike may stand in a body
  have hbody : w.StandsIn .body := by
    rw [hw]
    split <;> simp [Piece.StandsIn, Place.isContent]
  have hpending := Reading.pending_of_frames hfr
  rw [Frame.pending] at hpending
  rw [textInBlock_eq]
  dsimp only
  rw [← htext]
  by_cases hskip : (block.inHeader && allBlank text) = true
  · -- the body has not started
    rw [if_pos hskip]
    refine ⟨rfl, ?_⟩
    change Moves r.pending w r.pending
    rw [Bool.and_eq_true] at hskip
    cases block with
    | template t header =>
      have hopen : ¬ header.closed = true := by simpa [Block.inHeader] using hskip.1
      rw [hw, if_pos hskip.2, hpending, Block.pending, if_neg hopen]
      exact .stays (by simp [placeOf, Pending.place, Piece.StandsIn])
    | branch | otherwise | loop | binding | message | visualElement | param => cases hskip.1
  · rw [if_neg hskip]
    cases hjoin : joinLines text with
    | none =>
      -- nothing is left of blanks with a line break in them, in whatever body they stand
      have hall := allBlank_of_joinLines hjoin
      refine ⟨rfl, ?_⟩
      change Moves r.pending w r.pending
      rw [hpending]
      cases block with
      | template t header =>
        have hclosed : header.closed = true := by simpa [hall, Block.inHeader] using hskip
        rw [Block.pending, if_pos hclosed]
        exact .stays hbody
      | branch | otherwise | loop | binding | message | visualElement | param => exact .stays hbody
    | some joined =>
      -- a text node, with which the body starts if it has not
      dsimp only
      rw [Reading.input_emit, Reading.pending_emit, input_startBody]
      refine ⟨rfl, moves_of_startBody (r := { r with input := r.input.drop text.length }) hfr
        fun hplace => .stays ?_⟩
      rw [hplace]
      exact hbody

/-- A step over text takes what it reads of it. -/
theorem textInBlock_takes (hfr : r.frames = .block opener html block nodes :: below)
    (hpiece : r.piece (textInBlock r html block) =
      if allBlank (r.taken (textInBlock r html block)) then .blank else .text) :
    Takes r (textInBlock r html block) := by
  have hlength : r.input.rest.take (textLength html r.input.rest) = r.input.rest.take
      (r.input.rest.take (textLength html r.input.rest)).length := by
    rw [List.length_take, ← List.take_eq_take_min]
  obtain ⟨hinput, hmoves⟩ := textInBlock_moves hfr rfl rfl
  rw [Reading.taken_eq hinput, ← hlength] at hpiece
  refine ⟨⟨_, hinput⟩, ?_, by rwa [hpiece]⟩
  rw [hpiece, Reading.taken_eq hinput, ← hlength]
  split
  · next hall => exact hall
  · exact notMem_take_textLength html r.input.rest

/-- An HTML tag stands in the body of a block. -/
theorem startHtmlTag_takes (hfr : r.frames = .block opener html block nodes :: below)
    (hpiece : r.piece r' = if r.input.rest.tail.head? == some '/' then .closeTag else .tagStart)
    (h : startHtmlTag (startBody r) = .ok r') : Takes r r' := by
  have hstarts := startHtmlTag_eq_ok_iff.mp h
  -- a closing tag is a node of the body, an opening one is open from here on
  cases hstarts with
  | closeTag hslash =>
    rw [input_startBody] at hslash hpiece ⊢
    rw [if_pos (beq_iff_eq.mpr hslash)] at hpiece
    refine ⟨?_, by rw [hpiece]; trivial, ?_⟩
    -- the name, blanks and the angle bracket are passed
    · rw [Reading.input_emit]
      exact ((after_htmlTagName r.input 2).trans (.skipBlanks _)).trans (.drop _ 1)
    · rw [hpiece, Reading.pending_emit]
      refine moves_of_startBody hfr fun hplace => .stays ?_
      rw [hplace]
      rfl
  | openTag hslash =>
    rw [input_startBody] at hslash hpiece ⊢
    rw [if_neg fun heq => hslash (beq_iff_eq.mp heq)] at hpiece
    refine ⟨after_htmlTagName r.input 1, by rw [hpiece]; trivial, ?_⟩
    rw [hpiece, Reading.pending_push]
    refine moves_of_startBody hfr fun hplace => .opens ?_
    rw [hplace]
    exact .htmlTag

/-- **One step in a block.** -/
theorem inBlock_takes (hfr : r.frames = .block opener html block nodes :: below)
    (h : inBlock r opener html block nodes = .ok r') : Takes r r' := by
  -- what is neither a comment nor a command is part of an HTML tag, or text
  have hplain (hcomment : ∀ cs, r.input.rest ≠ '/' :: '*' :: cs)
      (hbrace : ∀ cs, r.input.rest ≠ '\x7b' :: cs) : r.piece r' =
        if html && startsTag r.input.rest then
          if r.input.rest.tail.head? == some '/' then .closeTag else .tagStart
        else if allBlank (r.taken r') then .blank
        else .text := by
    unfold Reading.piece
    rw [hfr]
    dsimp only
    split
    · next heq => exact absurd heq (hcomment _)
    · next heq => exact absurd heq (hbrace _)
    · rfl
  cases inBlock_eq_ok_iff.mp h with
  | comment hrest h => exact commentInBlock_takes hfr (by simp only [Reading.piece, hfr, hrest]) h
  -- the command decides what is open afterwards
  | @tag _ _ rest _ hrest hread h =>
    obtain ⟨hinput, hmoves⟩ :=
      tagInBlock_moves (r := { r with input := rest }) hfr (name_of_read hread) h
    refine .command (n := 0) rfl rfl (by rw [Input.drop_zero, hrest]; rfl) hread ?_ hinput hmoves
    simp only [Reading.piece, hfr, hrest]
    rfl
  | htmlTag _ hcomment hbrace hstarts h =>
    have hpiece := hplain hcomment hbrace
    rw [if_pos hstarts] at hpiece
    exact startHtmlTag_takes hfr hpiece h
  | text _ hcomment hbrace hstarts =>
    have hpiece := hplain hcomment hbrace
    rw [if_neg hstarts] at hpiece
    exact textInBlock_takes hfr hpiece

/-! ### Steps inside of calls and HTML tags -/

/-- A parameter of a call is passed with a value, or its content is opened. -/
theorem startParam_started (h : startParam r tag = .ok r') (hname : tag.name = "param") :
    Started .params tag r r' := by
  obtain ⟨w, i, hword, ⟨j, e, hcolon, -, h⟩ | ⟨kind, hcolon, rfl⟩⟩ := startParam_cases h
  · have hvalue : tag.hasValue = true := by rw [hasValue_of_word hword, hcolon]; rfl
    obtain ⟨hinput, hpending⟩ := passParam_keeps h
    exact ⟨hinput, .inl ⟨⟨hname, hvalue⟩, hpending⟩⟩
  · have hvalue : tag.hasValue = false := by rw [hasValue_of_word hword, hcolon]; rfl
    exact started_push hname (.param hname hvalue) rfl

/-- **One step in a call.** -/
theorem inCall_takes {call : Call} (hfr : r.frames = .call opener call :: below)
    (h : inCall r opener call = .ok r') : Takes r r' := by
  obtain ⟨n, hskip, hblank⟩ := Input.exists_skipBlanks r.input
  have hpending := Reading.pending_of_frames hfr
  -- behind the blanks a brace starts a command, also in a call
  have hcommand {cs : List Char} (hrest : r.input.skipBlanks.rest = '\x7b' :: cs) :
      r.piece r' = .commandAt r.input.skipBlanks := by
    simp only [Reading.piece, hfr, hrest]
    rfl
  cases inCall_eq_ok_iff.mp h with
  | comment hrest h =>
    obtain ⟨-, hframes⟩ := skipComment_keeps h
    have hpiece : r.piece r' = .comment := by simp only [Reading.piece, hfr, hrest]
    refine .stays hpiece ((Input.After.skipBlanks _).trans (skipComment_after h)) trivial
      (Reading.pending_congr hframes) ?_
    rw [hpending]
    simp [placeOf, Frame.pending, Pending.place, Piece.StandsIn]
  | ends hrest hread hname =>
    refine .command hskip hblank (by rw [hrest]; rfl) hread (hcommand hrest) (Reading.input_emit _ _ _) ?_
    rw [Reading.pending_emit, hpending]
    exact .closes hname
  | param hrest hread _ hname h =>
    -- in a call only a parameter can start
    have hstarted := startParam_started h hname
    refine .command hskip hblank (by rw [hrest]; rfl) hread (hcommand hrest) hstarted.1 ?_
    refine hstarted.moves ?_
    change placeOf r.pending = .params
    rw [hpending]
    rfl

end Blocks

/-- The attribute that is read is one more of the tag that is open. -/
theorem addAttribute_keeps (r : Reading) (name : String) (start : Nat) (value : Option (List NodeId))
    (i : Input) : (addAttribute r name start value i).input = i ∧
      (addAttribute r name start value i).pending = r.pending := by
  unfold addAttribute
  split
  · next hfr => exact ⟨rfl, Reading.pending_replace (r := { r with input := i }) hfr rfl⟩
  · exact ⟨rfl, rfl⟩

/-- The tag goes on with one more attribute. -/
theorem frames_addAttribute {start : Nat} {tag : String} {attributes : List Attribute}
    (hfr : r.frames = .openTag start tag attributes :: below) (name : String) (stop : Nat)
    (value : Option (List NodeId)) (i : Input) :
    ∃ more, (addAttribute r name stop value i).frames = .openTag start tag more :: below := by
  refine ⟨⟨name, value, ⟨stop, i.offset⟩⟩ :: attributes, ?_⟩
  rw [addAttribute, hfr]
  rfl

/-- An attribute stands in an HTML tag, and a quoted value is open in it. -/
theorem readAttribute_takes {start : Nat} {name : String} {attributes : List Attribute}
    (hfr : r.frames = .openTag start name attributes :: below)
    (hpiece : r.piece r' = match r'.frames with
      | .attributeValue _ _ _ _ :: _ => .valueStart
      | _ => .attribute)
    (h : TakesAttribute r r.input.skipBlanks r') : Takes r r' := by
  have hpending := Reading.pending_of_frames hfr
  -- the attribute is complete
  have hadds {file : TemplateFile} {name : String} {start : Nat} {value : Option (List NodeId)}
      {i : Input} (hi : r.input.After i) (heq : addAttribute { r with file } name start value i = r') :
      Takes r r' := by
    obtain ⟨hinput, hkeeps⟩ := addAttribute_keeps { r with file } name start value i
    obtain ⟨more, hframes⟩ :=
      frames_addAttribute (r := { r with file }) hfr name start value i
    rw [heq] at hinput hkeeps hframes
    rw [hframes] at hpiece
    refine .stays hpiece (by rwa [hinput]) trivial hkeeps ?_
    rw [hpending]
    rfl
  have hvalue := (Input.After.skipBlanks r.input).trans (after_fromAttributeValue _)
  cases h with
  | plain => exact hadds ((Input.After.skipBlanks r.input).trans (after_afterAttributeName _)) rfl
  -- the value is open until its quote
  | quoted =>
    refine ⟨hvalue.trans (.drop _ 1), by rw [hpiece]; trivial, ?_⟩
    rw [hpiece]
    refine .opens ?_
    rw [hpending]
    exact .value
  | unquoted => exact hadds (hvalue.trans (.takeWhile _ _)) rfl

/-- **One step in an HTML tag.** -/
theorem inOpenTag_takes {start : Nat} {name : String} {attributes : List Attribute}
    (hfr : r.frames = .openTag start name attributes :: below)
    (h : inOpenTag r start name attributes = .ok r') : Takes r r' := by
  have hpending := Reading.pending_of_frames hfr
  have hskipped := Input.After.skipBlanks r.input
  -- the tag ends
  have hfinish {k : NodeKind} {s : Span} {i : Input} (hafter : r.input.skipBlanks.After i)
      (hpiece : r.piece (({ r with input := i } : Reading).pop.emit k s) = .tagEnd) :
      Takes r (({ r with input := i } : Reading).pop.emit k s) := by
    refine .closes (o := .htmlTag) hpiece ?_ trivial ?_ trivial
    · rw [Reading.input_emit]
      exact hskipped.trans hafter
    · rw [Reading.pending_emit, hpending]
      rfl
  cases inOpenTag_eq_ok_iff.mp h with
  | ends closed hrest =>
    refine hfinish (.drop _ _) ?_
    cases closed <;> simp only [Reading.piece, hfr, hrest, tagEnd, List.cons_append]
  | goesOn hends _ h =>
    -- the tag does not end here, so an attribute or its value is read
    refine readAttribute_takes hfr ?_ h
    unfold Reading.piece
    rw [hfr]
    dsimp only
    split
    · next heq => exact absurd heq (hends true _)
    · next heq => exact absurd heq (hends false _)
    · rfl

/-- **One step in the value of an attribute.** -/
theorem inAttributeValue_takes {name : String} {start : Nat} {quote : Char} {nodes : List NodeId}
    (hfr : r.frames = .attributeValue name start quote nodes :: below)
    (h : inAttributeValue r name start quote nodes = .ok r') : Takes r r' := by
  have hpending := Reading.pending_of_frames hfr
  cases inAttributeValue_eq_ok_iff.mp h with
  -- the quote ends the value, which was the last thing opened
  | ends hquote =>
    obtain ⟨hinput, hkeeps⟩ :=
      addAttribute_keeps r.pop name start (some nodes.reverse) (r.input.drop 1)
    have hpiece : r.piece (addAttribute r.pop name start (some nodes.reverse) (r.input.drop 1)) =
        .valueEnd := by
      simp only [Reading.piece, hfr, if_pos hquote]
    refine .closes (o := .value) hpiece ⟨1, hinput⟩ trivial ?_ trivial
    rw [hkeeps, hpending]
    rfl
  | command hquote hbrace hread _ hname h =>
    have hpiece : r.piece r' = .commandAt r.input := by
      simp only [Reading.piece, hfr, if_neg hquote, if_pos hbrace]
    -- some commands are not allowed here, conditions among them
    have hstarted := startCommand_started (p := .value) rfl (name_of_read hread)
      (fun hif => absurd (hif ▸ List.mem_cons_self) hname) h
    refine .command (n := 0) rfl rfl hbrace hread hpiece hstarted.1 (hstarted.moves ?_)
    change placeOf r.pending = .value
    rw [hpending]
    rfl
  | text _ hquote hbrace =>
    refine .stays (w := .text) ?_ ?_ ?_ ?_ ?_
    · simp only [Reading.piece, hfr, if_neg hquote, if_neg hbrace]
    · rw [Reading.input_emit]
      exact .takeWhile _ _
    · -- the text stops before the next brace
      rw [Reading.taken_eq (Reading.input_emit _ _ _)]
      intro hmem
      have hrun := List.mem_takeWhile_imp (Input.take_length_takeWhile _ _ ▸ hmem)
      simp at hrun
    · rw [Reading.pending_emit]
      exact Reading.pending_congr rfl
    · rw [hpending]
      rfl

/-- **One step** takes its piece. -/
theorem step_takes (h : step r = .ok r') : Takes r r' := by
  unfold step at h
  split at h
  · next hfr => exact atTop_takes hfr h
  · next hfr => exact inBlock_takes hfr h
  · next hfr => exact inCall_takes hfr h
  · next hfr => exact inOpenTag_takes hfr h
  · next hfr => exact inAttributeValue_takes hfr h

end Steps

/-! ### Whole runs -/

/-- The pieces of the steps that are left, each with its text. -/
def pieces : (fuel : Nat) → Reading → List (Piece × List Char)
  | 0, _ => []
  | fuel + 1, r =>
    if r.isDone then []
    else match step r with
      | .ok r' => (r.piece r', r.taken r') :: pieces fuel r'
      | .error _ => []

/-- **All steps.** The pieces finish what is pending, and their texts are what was left of the file. -/
theorem run_takes {fuel : Nat} {r : Reading} {f : TemplateFile} (h : run fuel r = .ok f) :
    Finishes r.pending ((pieces fuel r).map (·.1)) ∧
      (pieces fuel r).flatMap (·.2) = r.input.rest ∧ ∀ x ∈ pieces fuel r, x.1.Spells x.2 := by
  induction fuel generalizing r with
  | zero => cases h
  | succ fuel ih =>
    unfold run at h
    rw [pieces]
    split at h
    · -- nothing is left of the text, and nothing is open
      next hdone =>
      rw [if_pos hdone]
      obtain ⟨hrest, hframes⟩ := Bool.and_eq_true_iff.mp hdone
      rw [Reading.pending, List.isEmpty_iff.mp hframes, List.isEmpty_iff.mp hrest]
      exact ⟨.nil, rfl, List.forall_mem_nil _⟩
    -- one step takes the first piece, and the others come from the run after it
    · next hdone =>
      obtain ⟨r', hstep, h⟩ := exists_of_bind_ok h
      obtain ⟨hafter, hspells, hmoves⟩ := step_takes hstep
      obtain ⟨hfinishes, htexts, hall⟩ := ih h
      rw [if_neg hdone, hstep]
      refine ⟨hmoves.finishes hfinishes, ?_, List.forall_mem_cons.mpr ⟨hspells, hall⟩⟩
      rw [List.flatMap_cons, htexts]
      exact Reading.taken_append hafter

/-- The command of a piece, if it is one. -/
def Piece.command? : Piece → Option Tag
  | .command tag => some tag
  | _ => none

end Markup

open Markup

/-- The pieces of a source, each with its text. -/
def SourceText.pieces (source : SourceText) : List (Markup.Piece × List Char) :=
  let content := source.content.toList
  Markup.pieces (content.length + 1) (.start source.path content)

/-- **Files that are accepted are well nested.** The pieces that are read of a source that parses make up
its text, and they are nested: what a tag opens is closed by its own tag, in the place where it was
opened, and what is no part of anything else stands where it may. -/
theorem nested_of_parse {source : SourceText} {f : TemplateFile} (h : parse source = .ok f) :
    Nested .file (source.pieces.map (·.1)) ∧
      source.pieces.flatMap (·.2) = source.content.toList ∧
      ∀ x ∈ source.pieces, x.1.Spells x.2 :=
  run_takes h

/-- Blocks inside of each other, of all sorts. -/
def nestedBlocks : SourceText :=
  ⟨"a.st", "\x7bnamespace a\x7d\x7btemplate .t\x7d\x7b@param x: bool\x7d<a b=\"\x7b$x\x7d\">\x7bif $x\x7d1\x7belseif true\x7d2\x7belse\x7d3\x7b/if\x7d</a>\x7bcall .t\x7d\x7bparam x\x7d\x7bvelog v\x7d\x7b/velog\x7d\x7b/param\x7d\x7b/call\x7d\x7b/template\x7d"⟩

/-- The source parses. -/
theorem parse_nestedBlocks : (parse nestedBlocks).toOption.map (·.nodes.size) = some 10 := by
  decide +kernel

/-- The commands that are read of it. -/
theorem commands_nestedBlocks : (nestedBlocks.pieces.filterMap (·.1.command?)).map (·.name) =
    ["namespace", "template", "@param", "$x", "if", "elseif", "else", "/if", "call", "param", "velog",
      "/velog", "/param", "/call", "/template"] := by
  decide +kernel

/-- So the commands are well nested. -/
theorem nested_of_parse_nestedBlocks :
    (nestedBlocks.pieces.filterMap (·.1.command?)).map (·.name) =
        ["namespace", "template", "@param", "$x", "if", "elseif", "else", "/if", "call", "param",
          "velog", "/velog", "/param", "/call", "/template"] ∧
      Nested .file (nestedBlocks.pieces.map (·.1)) := by
  obtain ⟨f, hparse, -⟩ := exists_of_toOption_map parse_nestedBlocks
  exact ⟨commands_nestedBlocks, (nested_of_parse hparse).1⟩

end TemplateFrontend
