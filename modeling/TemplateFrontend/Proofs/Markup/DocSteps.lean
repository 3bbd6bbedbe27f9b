import TemplateFrontend.Proofs.Markup.Returns
/-!
# What steps do to documentation

While a file is read, one documentation comment at most waits for what it documents. Where a template is
opened it becomes the documentation of the template, where a parameter is declared it becomes that of the
parameter, and other declarations drop it. A comment that stands at the top of the file or in a call waits, and
so does one directly in a template, unless it follows a parameter on its line; comments in other blocks drop
what waits. All other steps leave documentation alone, in particular the one that closes a template.

* `Markup.Root`, `Markup.Reading.docs` — the open template, and the documentation of all templates so far;
* `Markup.Quiet` — steps that leave documentation alone, with one lemma for each move;
* `Markup.Taking`, `Markup.Effect` — what is known of a step, and what that says of documentation;
* `Markup.DocStep`, `Markup.step_docs` — every step.
-/

namespace TemplateFrontend

open Text

/-- The documentation of the templates, in the order of declaration. -/
def TemplateFile.docs (f : TemplateFile) : List (Option String) := f.declared.map (·.2.doc)

/-- A node that is added is no template yet. -/
theorem TemplateFile.docs_add {f : TemplateFile} (h : ∀ id ∈ f.templates, id < f.nodes.size) (k : NodeKind)
    (s : Span) : (f.add k s).1.docs = f.docs := by
  have hdeclared : (f.add k s).1.declared = f.declared := by
    refine List.filterMap_congr fun id hid => ?_
    rw [template?, template?, kind_add_of_lt f k s (h id hid)]
  rw [docs, docs, hdeclared]

/-- A template that is added last is declared last. -/
theorem TemplateFile.docs_declare {f : TemplateFile} (h : ∀ id ∈ f.templates, id < f.nodes.size) (t : Template)
    (s : Span) : docs { (f.add (.template t) s).1 with templates := f.templates ++ [f.nodes.size] } =
      f.docs ++ [t.doc] := by
  have hnew : (f.add (.template t) s).1.template? f.nodes.size = some t := by
    rw [template?, show (f.add (.template t) s).1.kind f.nodes.size = .template t from kind_add_self f _ s]
  have hlast : [f.nodes.size].filterMap (fun id => ((f.add (.template t) s).1.template? id).map (id, ·)) =
      [(f.nodes.size, t)] := by
    rw [List.filterMap_cons_some (by rw [hnew]; rfl)]
    rfl
  have hdocs := docs_add h (.template t) s
  rw [docs, docs, declared, declared] at hdocs
  rw [docs, declared, List.filterMap_append, List.map_append, docs, declared, ← hdocs]
  exact congrArg (fun last => _ ++ last.map (·.2.doc)) hlast

namespace Markup

/-! ### The open template -/

/-- What is kept of an open template for documentation. -/
structure Root where
  doc : Option String
  params : List ParamDecl
  /-- What follows the last declaration. -/
  afterLast : Option Input

/-- The template that a frame is, if it is one. -/
def Frame.root? : Frame → Option Root
  | .block _ _ (.template t header) _ => some ⟨t.doc, header.params, header.afterLast⟩
  | _ => none

/-- The template on which frames stand. -/
def rootOf (frames : List Frame) : Option Root := frames.getLast?.bind Frame.root?

namespace Reading

/-- The template that is open. -/
def root? (r : Reading) : Option Root := rootOf r.frames

/-- The documentation of the templates so far, the open one included. -/
def docs (r : Reading) : List (Option String) := r.file.docs ++ r.root?.toList.map (·.doc)

end Reading

section Roots

variable {frame frame' : Frame} {below frames : List Frame}

/-- The template stands at the bottom of the stack. -/
theorem rootOf_cons_of_ne (h : below ≠ []) : rootOf (frame :: below) = rootOf below := by
  obtain ⟨next, rest, rfl⟩ := List.exists_cons_of_ne_nil h
  rw [rootOf, List.getLast?_cons_cons, rootOf]

/-- Of the frame on top only what it keeps as a template matters. -/
theorem rootOf_cons_congr (h : frame'.root? = frame.root?) :
    rootOf (frame' :: below) = rootOf (frame :: below) := by
  cases below with
  | nil => exact h
  | cons next rest => rw [rootOf_cons_of_ne (List.cons_ne_nil _ _), rootOf_cons_of_ne (List.cons_ne_nil _ _)]

/-- Whatever is open stands on a template. -/
theorem isSome_rootOf (h : Stacked frames) (hne : frames ≠ []) : (rootOf frames).isSome = true := by
  induction frames with
  | nil => exact absurd rfl hne
  | cons frame below ih =>
    obtain ⟨hfits, hbelow⟩ := h
    cases below with
    | cons next rest =>
      -- the root is the frame at the bottom
      rw [rootOf_cons_of_ne (List.cons_ne_nil _ _)]
      exact ih hbelow (List.cons_ne_nil _ _)
    | nil =>
      -- only a template stands on nothing
      cases frame with
      | block opener html inner nodes =>
        cases inner with
        | template => rfl
        | branch | otherwise =>
          obtain ⟨_, _, _, _, _, hnil⟩ := hfits
          cases hnil
        | loop | binding | message | visualElement | param => exact absurd rfl hfits
      | call | attributeValue => exact absurd rfl hfits
      | openTag =>
        obtain ⟨_, _, _, _, _, hnil⟩ := hfits
        cases hnil

/-- A frame that is no template stands on something. -/
theorem below_ne_nil (h : Stacked (frame :: below)) (hroot : frame.root? = none) : below ≠ [] := by
  rintro rfl
  have hsome := isSome_rootOf h (List.cons_ne_nil _ _)
  rw [show rootOf [frame] = frame.root? from rfl, hroot] at hsome
  cases hsome

end Roots

/-! ### Steps that leave documentation alone -/

/-- Documentation, the open template and the complete ones are the same before and after. -/
structure Quiet (r r' : Reading) : Prop where
  doc_eq : r'.doc = r.doc
  root_eq : r'.root? = r.root?
  docs_eq : r'.file.docs = r.file.docs

namespace Quiet

variable {r r' r'' : Reading} {frame frame' : Frame} {below : List Frame} {k : NodeKind} {s : Span}

theorem refl (r : Reading) : Quiet r r := ⟨rfl, rfl, rfl⟩

/-- Quiet steps one after the other are quiet. -/
theorem trans (h : Quiet r r') (h' : Quiet r' r'') : Quiet r r'' :=
  ⟨h'.doc_eq.trans h.doc_eq, h'.root_eq.trans h.root_eq, h'.docs_eq.trans h.docs_eq⟩

/-- Where the input stands does not matter. -/
theorem of_moved {i : Input} (h : Quiet { r with input := i } r') : Quiet r r' :=
  ⟨h.doc_eq, h.root_eq, h.docs_eq⟩

/-- A new node inside of a template. -/
theorem emit (hsize : ∀ id ∈ r.file.templates, id < r.file.nodes.size) (hne : r.frames ≠ []) (k : NodeKind)
    (s : Span) : Quiet r (r.emit k s) := by
  have hdocs := TemplateFile.docs_add hsize k s
  -- the node goes to the table and into the frame on top, which stays the template that it was
  unfold Reading.emit Reading.place
  dsimp only
  split
  · next hfr => exact absurd hfr hne
  · next hfr =>
    refine ⟨rfl, ?_, hdocs⟩
    rw [Reading.root?, Reading.root?, hfr]
    refine rootOf_cons_congr ?_
    cases ‹Block› <;> rfl
  · next hfr =>
    refine ⟨rfl, ?_, hdocs⟩
    rw [Reading.root?, Reading.root?, hfr]
    exact rootOf_cons_congr rfl
  · exact ⟨rfl, rfl, hdocs⟩
  · exact ⟨rfl, rfl, hdocs⟩

/-- A frame that is opened inside of a template. -/
theorem push (hne : r.frames ≠ []) (frame : Frame) : Quiet r (r.push frame) :=
  ⟨rfl, rootOf_cons_of_ne hne, rfl⟩

/-- A frame that is closed, but for the template itself. -/
theorem pop (hfr : r.frames = frame :: below) (hne : below ≠ []) : Quiet r r.pop := by
  refine ⟨rfl, ?_, rfl⟩
  rw [Reading.root?, Reading.root?, Reading.frames_pop hfr, hfr, rootOf_cons_of_ne hne]

/-- A frame that is changed in what is not documentation. -/
theorem replace (hfr : r.frames = frame :: below) (h : frame'.root? = frame.root?) :
    Quiet r (r.replace frame') := by
  refine ⟨rfl, ?_, rfl⟩
  rw [Reading.root?, Reading.root?, Reading.frames_replace hfr, hfr]
  exact rootOf_cons_congr h

/-- A frame is closed and its node put into the next one. -/
theorem complete (hsize : ∀ id ∈ r.file.templates, id < r.file.nodes.size) (hfr : r.frames = frame :: below)
    (hne : below ≠ []) (k : NodeKind) (s : Span) : Quiet r (r.pop.emit k s) := by
  refine (Quiet.pop hfr hne).trans (emit (r := r.pop) hsize ?_ k s)
  rwa [Reading.frames_pop hfr]

/-- The body of a template starts: what its header declared stays. -/
theorem startBody (r : Reading) : Quiet r (startBody r) := by
  unfold Markup.startBody
  split
  · next hfr =>
    refine replace hfr ?_
    cases ‹Block› <;> rfl
  · exact refl r

theorem file_startBody (r : Reading) : (Markup.startBody r).file = r.file := by
  unfold Markup.startBody
  split <;> rfl

theorem frames_startBody_ne (hne : r.frames ≠ []) : (Markup.startBody r).frames ≠ [] := by
  unfold Markup.startBody
  split
  · exact List.cons_ne_nil _ _
  · exact hne

/-! ### Steps inside of each kind of frame -/

variable {tag opener : Tag} {html : Bool} {block : Block} {nodes body : List NodeId}

/-- A command makes a node or opens a frame. -/
theorem startCommand (hsize : ∀ id ∈ r.file.templates, id < r.file.nodes.size) (hne : r.frames ≠ [])
    (h : startCommand r tag html = .ok r') : Quiet r r' := by
  cases begins_of_startCommand h with
  | special | print | value | call => exact emit hsize hne _ _
  | condition | loop | content | message | visualElement | openCall => exact push hne _

/-- A parameter goes to the call on top. -/
theorem passParam {p : Passed} (h : passParam r p s = .ok r') : Quiet r r' := by
  obtain ⟨opener, c, fs, hfr, rfl⟩ | rfl := passParam_cases h
  · exact replace hfr rfl
  · exact refl _

/-- A parameter that starts in a call. -/
theorem startParam (hne : r.frames ≠ []) (h : startParam r tag = .ok r') : Quiet r r' := by
  obtain ⟨w, i, -, ⟨j, e, -, -, h⟩ | ⟨kind, -, rfl⟩⟩ := startParam_cases h
  · exact passParam h
  · exact push hne _

/-- The end of a block that is no template. -/
theorem endBlock (hsize : ∀ id ∈ r.file.templates, id < r.file.nodes.size)
    (hfr : r.frames = .block opener html block nodes :: below) (hne : below ≠ [])
    (hroot : (Frame.block opener html block nodes).root? = none)
    (h : endBlock r opener html block body tag = .ok r') : Quiet r r' := by
  cases block with
  -- a template would be the root
  | template => cases hroot
  | branch before cond =>
    unfold Markup.endBlock at h
    dsimp only at h
    split at h
    -- one more branch, in the frame of the condition
    · obtain ⟨cond', -, h⟩ := exists_of_bind_ok h
      obtain rfl := Except.ok.inj h
      exact replace hfr rfl
    · split at h
      · obtain rfl := Except.ok.inj h
        exact replace hfr rfl
      · obtain rfl := Except.ok.inj h
        exact complete hsize hfr hne _ _
  | param x kind => exact (pop hfr hne).trans (passParam h)
  | otherwise | loop | binding | message | visualElement =>
    obtain rfl := Except.ok.inj h
    exact complete hsize hfr hne _ _

/-- Text in a block. -/
theorem textInBlock (hsize : ∀ id ∈ r.file.templates, id < r.file.nodes.size) (hne : r.frames ≠ [])
    (html : Bool) (block : Block) : Quiet r (textInBlock r html block) := by
  obtain ⟨n, htext⟩ | ⟨n, text, s, htext⟩ := textInBlock_cases r html block
  · rw [htext]
    exact ⟨rfl, rfl, rfl⟩
  · rw [htext]
    refine of_moved (i := r.input.drop n) ((startBody _).trans (emit ?_ ?_ _ _))
    · rw [file_startBody]
      exact hsize
    · exact frames_startBody_ne (r := { r with input := r.input.drop n }) hne

/-- An HTML tag in a block. -/
theorem startHtmlTag (hsize : ∀ id ∈ r.file.templates, id < r.file.nodes.size) (hne : r.frames ≠ [])
    (h : startHtmlTag r = .ok r') : Quiet r r' := by
  cases startHtmlTag_eq_ok_iff.mp h with
  | closeTag => exact of_moved (emit (by exact hsize) (by exact hne) _ _)
  | openTag => exact of_moved (push (by exact hne) _)

/-- An attribute of a tag that is open. -/
theorem addAttribute {name : String} {start : Nat} {value : Option (List NodeId)} {i : Input} :
    Quiet r (addAttribute r name start value i) := by
  unfold Markup.addAttribute
  split
  · next hfr => exact of_moved (i := i) (replace hfr rfl)
  · exact ⟨rfl, rfl, rfl⟩

/-- What stands between the attributes of a tag. -/
theorem inOpenTag {start : Nat} {name : String} {attributes : List Attribute}
    (hsize : ∀ id ∈ r.file.templates, id < r.file.nodes.size)
    (hfr : r.frames = .openTag start name attributes :: below) (hne : below ≠ [])
    (h : inOpenTag r start name attributes = .ok r') : Quiet r r' := by
  have hframes : r.frames ≠ [] := hfr ▸ List.cons_ne_nil _ _
  cases inOpenTag_eq_ok_iff.mp h with
  | ends => exact of_moved (complete (by exact hsize) (by exact hfr) hne _ _)
  | goesOn _ _ h =>
    cases h with
    | plain => exact addAttribute
    | quoted => exact of_moved (push (by exact hframes) _)
    | unquoted =>
      refine Quiet.trans ?_ addAttribute
      -- the value without quotes is a text of its own
      exact ⟨rfl, rfl, TemplateFile.docs_add hsize _ _⟩

/-- What stands in a quoted value. -/
theorem inAttributeValue {name : String} {start : Nat} {quote : Char}
    (hsize : ∀ id ∈ r.file.templates, id < r.file.nodes.size)
    (hfr : r.frames = .attributeValue name start quote nodes :: below) (hne : below ≠ [])
    (h : inAttributeValue r name start quote nodes = .ok r') : Quiet r r' := by
  have hframes : r.frames ≠ [] := hfr ▸ List.cons_ne_nil _ _
  cases inAttributeValue_eq_ok_iff.mp h with
  | ends => exact (pop hfr hne).trans addAttribute
  | @command _ _ rest _ _ _ _ _ h =>
    exact of_moved (startCommand (r := { r with input := rest }) hsize hframes h)
  | text => exact of_moved (emit (by exact hsize) (by exact hframes) _ _)

end Quiet

/-! ### What steps are known by -/

/-- What is known of a step from outside: its piece with the text of it, and what was open before and after. -/
structure Taking where
  opened : List Pending
  piece : Piece
  text : List Char
  left : List Pending

/-- What a piece means for documentation. -/
inductive Effect where
  /-- A comment that waits for what it documents. -/
  | waits
  /-- A comment in a template, which documents a parameter that it follows on its line. -/
  | attaches
  /-- A comment in another block. -/
  | drops
  /-- A declaration of the file, or the opening of a template. -/
  | declares
  | param
  | state
  | none
  deriving DecidableEq

namespace Taking

/-- The documentation that the piece is, if it is a documentation comment. -/
def doc? (x : Taking) : Option String :=
  match x.piece with
  | .comment => docOf? (trimStart x.text)
  | _ => none

/-- What the piece means where it stands. -/
def effect (x : Taking) : Effect :=
  match x.piece, x.opened with
  | .comment, [] | .comment, .call _ :: _ => .waits
  | .comment, [_] => .attaches
  | .comment, _ => .drops
  | .command _, [] => .declares
  | .command tag, .template _ :: _ =>
    if tag.name = "@state" then .state else if headerCommands.contains tag.name then .param else .none
  | _, _ => .none

/-- Inside of what is open, only comments and the declarations of a header mean something. -/
theorem effect_of_ne_comment {x : Taking} {o : Pending} {below : List Pending} (hpiece : x.piece ≠ .comment)
    (hopened : x.opened = o :: below)
    (hheader : o.place = .header → ∀ tag, x.piece = .command tag → tag.name ∉ headerCommands) :
    x.effect = .none := by
  obtain ⟨opened, piece, text, left⟩ := x
  obtain rfl : opened = _ := hopened
  cases piece with
  | comment => exact absurd rfl hpiece
  | command tag =>
    cases o with
    | template close =>
      have hnot := hheader rfl tag rfl
      -- in a header only its own commands mean something, and this is none of them
      have hstate : tag.name ≠ "@state" := fun heq => hnot (heq ▸ by decide)
      have hcontains : headerCommands.contains tag.name = false := by
        rwa [← Bool.not_eq_true, List.contains_iff_mem]
      unfold effect
      dsimp only
      rw [if_neg hstate, hcontains]
      rfl
    | block | branch | call | htmlTag | value => rfl
  | _ => rfl

end Taking

/-- What is known of the step from `r` to `r'`. -/
def Reading.taking (r r' : Reading) : Taking := ⟨r.pending, r.piece r', r.taken r', r'.pending⟩

/-! ### Steps -/

/-- What a step does to documentation, by what its piece means. -/
inductive DocStep (r r' : Reading) : Prop
  | quiet (heffect : (r.taking r').effect = .none) (h : Quiet r r')
  | waits (heffect : (r.taking r').effect = .waits) (hdoc : r'.doc = (r.taking r').doc?.or r.doc)
    (hroot : r'.root? = r.root?) (hdocs : r'.file.docs = r.file.docs)
  | attaches {t : Template} {header : Header} {doc : Option String}
    (heffect : (r.taking r').effect = .attaches) (hwaits : doc = (r.taking r').doc?.or r.doc)
    (hroot : r.root? = some ⟨t.doc, header.params, header.afterLast⟩)
    (hroot' : r'.root? = some ⟨t.doc, (attachDoc header r.input doc).1.params, header.afterLast⟩)
    (hdoc : r'.doc = (attachDoc header r.input doc).2) (hdocs : r'.file.docs = r.file.docs)
  | drops (heffect : (r.taking r').effect = .drops) (hdoc : r'.doc = none) (hroot : r'.root? = r.root?)
    (hdocs : r'.file.docs = r.file.docs)
  | declares (heffect : (r.taking r').effect = .declares) (hdoc : r'.doc = none) (hroot : r.root? = none)
    (hroot' : r'.root? = none) (hdocs : r'.file.docs = r.file.docs)
  | opens (heffect : (r.taking r').effect = .declares) (hdoc : r'.doc = none) (hroot : r.root? = none)
    (hroot' : r'.root? = some ⟨r.doc, [], none⟩) (hdocs : r'.file.docs = r.file.docs)
  | param {root : Root} {decl : ParamDecl} (heffect : (r.taking r').effect = .param) (hdoc : r'.doc = none)
    (hroot : r.root? = some root)
    (hroot' : r'.root? = some ⟨root.doc, root.params ++ [decl], some r'.input⟩)
    (hspan : decl.span.stop = r'.input.offset) (hdecl : decl.doc = r.doc)
    (hdocs : r'.file.docs = r.file.docs)
  | state {root : Root} (heffect : (r.taking r').effect = .state) (hdoc : r'.doc = none)
    (hroot : r.root? = some root) (hroot' : r'.root? = some ⟨root.doc, root.params, some r'.input⟩)
    (hdocs : r'.file.docs = r.file.docs)
  | closes {root : Root} (heffect : (r.taking r').effect = .none) (hdoc : r'.doc = r.doc)
    (hroot : r.root? = some root) (hroot' : r'.root? = none)
    (hdocs : r'.file.docs = r.file.docs ++ [root.doc])

section Steps

variable {r r' : Reading} {tag opener : Tag} {below : List Frame} {i rest : Input} {cs : List Char}

/-! ### Pieces of steps -/

/-- A command is no comment. -/
theorem commandAt_ne_comment (i : Input) : Piece.commandAt i ≠ .comment := by
  unfold Piece.commandAt
  split <;> exact Piece.noConfusion

/-- The command of a step is the tag that is read. -/
theorem commandAt_of_read (h : Tag.read i = .ok (tag, rest)) : Piece.commandAt i = .command tag := by
  rw [Piece.commandAt, h]

/-- Between attributes there are no comments. -/
theorem piece_ne_comment_of_openTag {start : Nat} {name : String} {attributes : List Attribute}
    (hfr : r.frames = .openTag start name attributes :: below) : r.piece r' ≠ .comment := by
  unfold Reading.piece
  rw [hfr]
  dsimp only
  split
  · exact Piece.noConfusion
  · exact Piece.noConfusion
  · split <;> exact Piece.noConfusion

/-- Nor are there any in a value. -/
theorem piece_ne_comment_of_value {name : String} {start : Nat} {quote : Char} {nodes : List NodeId}
    (hfr : r.frames = .attributeValue name start quote nodes :: below) : r.piece r' ≠ .comment := by
  unfold Reading.piece
  rw [hfr]
  dsimp only
  split
  · exact Piece.noConfusion
  · split
    · exact commandAt_ne_comment _
    · exact Piece.noConfusion

/-- A step inside of what is open that reads neither a comment nor a declaration. -/
theorem DocStep.inside {frame : Frame} (hfr : r.frames = frame :: below) (hpiece : r.piece r' ≠ .comment)
    (hheader : frame.pending.place = .header → ∀ tag, r.piece r' = .command tag → tag.name ∉ headerCommands)
    (h : Quiet r r') : DocStep r r' :=
  .quiet (Taking.effect_of_ne_comment hpiece (Reading.pending_of_frames hfr) hheader) h

/-! ### Comments -/

/-- What is cut out of the text for a comment, blanks before it skipped. -/
theorem skipComment_doc (hskip : i = r.input ∨ i = r.input.skipBlanks) (hi : i.rest = '/' :: '*' :: cs)
    (hpiece : r.piece r' = .comment) (h : skipComment { r with input := i } = .ok r') :
    r'.doc = (r.taking r').doc?.or r.doc := by
  have htext : (r.taking r').doc? = docOf? (trimStart (r.taken r')) := by
    rw [Taking.doc?, Reading.taking, hpiece]
  rw [htext]
  unfold skipComment at h
  split at h
  · cases h
  · next n hn =>
    obtain rfl := Except.ok.inj h
    obtain ⟨htwo, -⟩ := le_of_commentLength? hn
    -- at the top of a file and in calls, blanks are skipped first and belong to the piece
    obtain ⟨m, hm, hblank⟩ : ∃ m, i = r.input.drop m ∧ allBlank (r.input.rest.take m) = true := by
      obtain rfl | rfl := hskip
      · exact ⟨0, rfl, rfl⟩
      · exact Input.exists_skipBlanks r.input
    have htaken : r.taken { r with input := i.drop n, doc := (docOf? (i.rest.take n)).or r.doc } =
        r.input.rest.take m ++ i.rest.take n := by
      rw [Reading.taken_eq (n := m + n) (by rw [hm, Input.drop_drop]), List.take_add]
      congr 2
      rw [hm]
      rfl
    -- the comment starts with a slash, so exactly these blanks are trimmed
    have htrim : trimStart (r.input.rest.take m ++ i.rest.take n) = i.rest.take n := by
      obtain ⟨k, rfl⟩ : ∃ k, n = k + 1 := ⟨n - 1, by omega⟩
      rw [hi, List.take_succ_cons, trimStart, List.dropWhile_append_of_pos (List.all_eq_true.mp hblank)]
      exact List.dropWhile_cons_of_neg (by decide)
    rw [htaken, htrim]

/-- A comment up to the end of its line is no documentation. -/
theorem lineComment_doc (hi : r.input.skipBlanks.rest = '/' :: '/' :: cs) (hpiece : r.piece r' = .comment)
    (hinput : r'.input = (r.input.skipBlanks.takeWhile (· != '\n')).2) : (r.taking r').doc? = none := by
  obtain ⟨m, hm, hblank⟩ := Input.exists_skipBlanks r.input
  have hline : r.input.skipBlanks.rest.takeWhile (· != '\n') = '/' :: '/' :: cs.takeWhile (· != '\n') := by
    rw [hi]
    rfl
  have hdrop : r.input.rest.drop m = r.input.skipBlanks.rest := by
    rw [hm]
    rfl
  have htaken : r.taken r' = r.input.rest.take m ++ '/' :: '/' :: cs.takeWhile (· != '\n') := by
    rw [Reading.taken_eq (n := m + (r.input.skipBlanks.rest.takeWhile (· != '\n')).length)
      (by rw [hinput, Input.takeWhile, hm, Input.drop_drop]), List.take_add, hdrop,
      Input.take_length_takeWhile, hline]
  -- a documentation comment has a star where this one has its second slash
  rw [Taking.doc?, Reading.taking, hpiece, htaken, trimStart,
    List.dropWhile_append_of_pos (List.all_eq_true.mp hblank)]
  rfl

/-! ### Steps at the top of a file -/

/-- Settings leave the documentation of a template alone. -/
theorem doc_templateSetting {t t' : Template} {s : Setting} (h : templateSetting t s = .ok t') :
    t'.doc = t.doc := by
  -- a setting writes one field of the template, and none writes the documentation
  unfold templateSetting at h
  split at h
  · split at h
    · rw [← Except.ok.inj h]
    · cases h
  · obtain ⟨kind, -, h⟩ := exists_of_bind_ok h
    rw [← Except.ok.inj h]
  · split at h
    · rw [← Except.ok.inj h]
    · rw [← Except.ok.inj h]
    · cases h
  · split at h
    · rw [← Except.ok.inj h]
    · cases h

/-- The documentation that waits becomes that of the template that is opened. -/
theorem doc_openTemplate {f : TemplateFile} {kind : TemplateKind} {doc : Option String} {t : Template}
    (h : openTemplate f kind doc tag = .ok t) : t.doc = doc := by
  obtain ⟨⟨⟨written, span⟩, i⟩, -, h⟩ := exists_of_bind_ok h
  obtain ⟨name, -, h⟩ := exists_of_bind_ok h
  obtain ⟨settings, -, h⟩ := exists_of_bind_ok h
  obtain ⟨t', hfold, h⟩ := exists_of_bind_ok h
  obtain rfl := Except.ok.inj h
  exact foldlM_keeps (P := fun t => t.doc = doc) (fun _ _ _ hb hp => (doc_templateSetting hb).trans hp)
    hfold rfl

/-- Files with the same nodes and templates have the same documentation. -/
theorem KeepsTree.docs_eq {f g : TemplateFile} (h : KeepsTree f g) : g.docs = f.docs := by
  have hkind (id : NodeId) : g.kind id = f.kind id := by
    unfold TemplateFile.kind
    rw [h.nodes_eq]
  have hdeclared : g.declared = f.declared := by
    unfold TemplateFile.declared
    rw [h.templates_eq]
    refine List.filterMap_congr fun id _ => ?_
    rw [TemplateFile.template?, TemplateFile.template?, hkind]
  rw [TemplateFile.docs, TemplateFile.docs, hdeclared]

/-- A declaration takes the documentation that waits, and a template keeps it. -/
theorem startDeclaration_docs (hfr : r.frames = []) (h : startDeclaration r tag = .ok r') :
    r'.doc = none ∧ r'.file.docs = r.file.docs ∧
      (r'.root? = none ∨ r'.root? = some ⟨r.doc, [], none⟩) := by
  cases declares_of_startDeclaration h with
  | @template _ t _ ht =>
    refine ⟨rfl, rfl, .inr ?_⟩
    have hframes : (Reading.push { r with doc := none, strict := t.strictHtml }
        (.block tag t.strictHtml (.template t ⟨[], [], false, none⟩) [])).frames =
          [.block tag t.strictHtml (.template t ⟨[], [], false, none⟩) []] := congrArg _ hfr
    rw [Reading.root?, hframes, ← doc_openTemplate ht]
    rfl
  | noted _ hf =>
    -- a namespace, an alias or a delegate package opens nothing
    refine ⟨rfl, hf.docs_eq, .inl ?_⟩
    rw [Reading.root?]
    change rootOf r.frames = none
    rw [hfr]
    rfl

/-- **One step at the top of a file.** -/
theorem atTop_docs (hfr : r.frames = []) (h : atTop r = .ok r') : DocStep r r' := by
  have hpending : r.pending = [] := by rw [Reading.pending, hfr]; rfl
  have heffect {w : Piece} (hpiece : r.piece r' = w) :
      (r.taking r').effect = Taking.effect ⟨[], w, r.taken r', r'.pending⟩ := by
    rw [Reading.taking, hpiece, hpending]
  cases atTop_eq_ok_iff.mp h with
  | blank hrest =>
    exact .quiet (heffect (w := .blank) (by simp only [Reading.piece, hfr, hrest])) ⟨rfl, rfl, rfl⟩
  | comment hrest h =>
    obtain ⟨hfile, hframes⟩ := skipComment_keeps h
    have hpiece : r.piece r' = .comment := by simp only [Reading.piece, hfr, hrest]
    exact .waits (heffect hpiece) (skipComment_doc (.inr rfl) hrest hpiece h) (congrArg rootOf hframes)
      (congrArg TemplateFile.docs hfile)
  | lineComment hrest =>
    have hpiece : r.piece { r with input := (r.input.skipBlanks.takeWhile (· != '\n')).2 } = .comment := by
      simp only [Reading.piece, hfr, hrest]
    -- such a comment counts as one, but holds no documentation
    refine .waits (heffect hpiece) ?_ rfl rfl
    rw [lineComment_doc hrest hpiece rfl]
    rfl
  | @declaration _ tag rest _ hrest hread h =>
    have hpiece : r.piece r' = .command tag := by
      rw [← commandAt_of_read hread]
      simp only [Reading.piece, hfr, hrest]
      rfl
    -- no template is open before a declaration
    have hroot : r.root? = none := by rw [Reading.root?, hfr]; rfl
    -- a declaration of the file, or the start of a template
    obtain ⟨hdoc, hdocs, hroot' | hroot'⟩ := startDeclaration_docs (r := { r with input := rest }) hfr h
    · exact .declares (heffect hpiece) hdoc hroot hroot' hdocs
    · exact .opens (heffect hpiece) hdoc hroot hroot' hdocs

/-! ### Steps inside of blocks -/

variable {html : Bool} {block : Block} {nodes : List NodeId}

/-- **A comment in a block.** -/
theorem commentInBlock_docs (hstacked : Stacked r.frames) (hfr : r.frames = .block opener html block nodes :: below)
    (hrest : r.input.rest = '/' :: '*' :: cs) (h : commentInBlock r opener html block nodes = .ok r') :
    DocStep r r' := by
  have hpiece : r.piece r' = .comment := by simp only [Reading.piece, hfr, hrest]
  obtain ⟨after, hafter, h⟩ := exists_of_bind_ok h
  obtain ⟨hfile, hframes⟩ := skipComment_keeps hafter
  -- the last documentation comment is the one that waits
  have hdoc (hinput : r'.input = after.input) : after.doc = (r.taking r').doc?.or r.doc := by
    have htaken : r.taken after = r.taken r' := by rw [Reading.taken, Reading.taken, hinput]
    have hcomment : r.piece after = .comment := by simp only [Reading.piece, hfr, hrest]
    rw [skipComment_doc (.inl rfl) hrest hcomment hafter, Taking.doc?, Taking.doc?, Reading.taking,
      Reading.taking, hcomment, hpiece, htaken]
  rw [hfr] at hstacked
  have hpending := Reading.pending_of_frames hfr
  cases block with
  | template t header =>
    obtain rfl : below = [] := hstacked.1
    -- in a template it may document the declaration before it, so the header may be another one
    have hattached (header' : Header) (doc : Option String) (hlast : header'.afterLast = header.afterLast) :
        (Reading.replace { after with doc } (.block opener html (.template t header') nodes)).root? =
          some ⟨t.doc, header'.params, header.afterLast⟩ := by
      rw [Reading.root?, Reading.frames_replace (r := { after with doc }) (hframes.trans hfr), ← hlast]
      rfl
    obtain rfl := Except.ok.inj h
    refine .attaches ?_ (hdoc rfl) (by rw [Reading.root?, hfr]; rfl)
      (hattached _ _ (afterLast_attachDoc header r.input after.doc)) rfl
      (congrArg TemplateFile.docs hfile)
    rw [Reading.taking, hpiece, hpending, Reading.pending, Reading.frames_pop hfr, Frame.pending,
      Block.pending]
    split <;> rfl
  | branch | otherwise | loop | binding | message | visualElement | param =>
    -- any other block clears what waits
    obtain ⟨next, rest, rfl⟩ := List.exists_cons_of_ne_nil (below_ne_nil hstacked rfl)
    obtain rfl := Except.ok.inj h
    refine .drops ?_ rfl (congrArg rootOf hframes) (congrArg TemplateFile.docs hfile)
    rw [Reading.taking, hpiece, hpending, Reading.pending, Reading.frames_pop hfr]
    rfl

/-- What a declaration adds to a header. -/
theorem declare_docs {header header' : Header} {doc : Option String}
    (h : declare header doc tag rest = .ok header') : header'.afterLast = some rest ∧
      if tag.name = "@state" then header'.params = header.params
      else ∃ decl : ParamDecl, header'.params = header.params ++ [decl] ∧ decl.span = tag.span ∧
        decl.doc = doc := by
  obtain ⟨⟨⟨name, s⟩, i⟩, -, h⟩ := exists_of_bind_ok h
  dsimp only at h
  split at h
  · next hstate =>
    obtain ⟨header₁, hheader, h⟩ := exists_of_bind_ok h
    obtain rfl := Except.ok.inj h
    obtain ⟨decl, j, rfl, -⟩ := exists_of_declareState hheader
    exact ⟨rfl, if_pos hstate ▸ rfl⟩
  · next hstate =>
    obtain ⟨header₁, hheader, h⟩ := exists_of_bind_ok h
    obtain rfl := Except.ok.inj h
    refine ⟨rfl, ?_⟩
    rw [if_neg hstate]
    -- a parameter takes what waits; state has no documentation
    unfold declareParam at hheader
    split at hheader
    · dsimp only at hheader
      split at hheader
      · cases hheader
      · split at hheader
        · cases hheader
        · obtain rfl := Except.ok.inj hheader
          exact ⟨_, rfl, rfl, rfl⟩
    · cases hheader

/-- **A declaration in a header.** -/
theorem declareInBlock_docs (hstacked : Stacked r.frames)
    (hfr : r.frames = .block opener html block nodes :: below) (hread : Tag.read r.input = .ok (tag, rest))
    (hpiece : r.piece r' = .command tag) (hname : tag.name ∈ headerCommands)
    (h : declareInBlock { r with input := rest } opener html block nodes tag = .ok r') : DocStep r r' := by
  cases block with
  | template t header =>
    rw [hfr] at hstacked
    -- a template is the lowest frame
    obtain rfl : below = [] := hstacked.1
    unfold declareInBlock at h
    dsimp only at h
    split at h
    · cases h
    · next hopen =>
      obtain ⟨header', hheader, h⟩ := exists_of_bind_ok h
      obtain rfl := Except.ok.inj h
      obtain ⟨hlast, hparams⟩ := declare_docs hheader
      -- declarations are read only while the header is open
      have hpending : r.pending = [.template opener.closing] := by
        rw [Reading.pending_of_frames hfr, Reading.pending, Reading.frames_pop hfr, Frame.pending,
          Block.pending, if_neg hopen]
        rfl
      have hroot : r.root? = some ⟨t.doc, header.params, header.afterLast⟩ := by
        rw [Reading.root?, hfr]
        rfl
      have hroot' : (Reading.replace { r with input := rest, doc := none }
          (.block opener html (.template t header') nodes)).root? =
            some ⟨t.doc, header'.params, header'.afterLast⟩ := by
        rw [Reading.root?, Reading.frames_replace (r := { r with input := rest, doc := none }) hfr]
        rfl
      have heffect : (Reading.taking r (Reading.replace { r with input := rest, doc := none }
          (.block opener html (.template t header') nodes))).effect =
            if tag.name = "@state" then .state else .param := by
        rw [Reading.taking, hpiece, hpending]
        unfold Taking.effect
        dsimp only
        rw [if_pos (List.contains_iff_mem.mpr hname)]
      by_cases hstate : tag.name = "@state"
      · rw [if_pos hstate] at hparams heffect
        refine .state heffect rfl hroot (hroot'.trans ?_) rfl
        rw [hparams, hlast]
        rfl
      · rw [if_neg hstate] at hparams heffect
        obtain ⟨decl, hparams, hspan, hdoc⟩ := hparams
        -- a comment behind the declaration is told apart by where the declaration ends
        have hspan' : decl.span.stop = rest.offset := by
          obtain ⟨body, rfl, rfl, -⟩ := exists_of_read hread
          rw [hspan]
          rfl
        refine .param heffect rfl hroot (hroot'.trans ?_) hspan' hdoc rfl
        rw [hparams, hlast]
        rfl
  | branch | otherwise | loop | binding | message | visualElement | param => cases h

/-- What is put in place outside of templates becomes one. -/
theorem emit_of_nil {k : NodeKind} {s : Span} (hfr : r.frames = []) : r.emit k s =
    { r with file := { (r.file.add k s).1 with templates := r.file.templates ++ [r.file.nodes.size] } } := by
  unfold Reading.emit Reading.place
  dsimp only
  rw [hfr]
  rfl

/-- A tag that closes something declares nothing. -/
theorem closing_notMem_headerCommands (opener : Tag) : opener.closing ∉ headerCommands := by
  intro hmem
  have hhead : ∀ name ∈ headerCommands, name.toList.head? = some '@' := by decide
  have hslash := hhead _ hmem
  rw [Tag.closing, String.toList_append] at hslash
  cases hslash

/-- **The end of a template.** -/
theorem endTemplate_docs {t : Template} {header : Header} {body : List NodeId}
    (hsize : ∀ id ∈ r.file.templates, id < r.file.nodes.size)
    (hfr : r.frames = [.block opener html (.template t header) nodes]) (hpiece : r.piece r' = .command tag)
    (hname : tag.name = opener.closing)
    (h : endBlock { r with input := rest } opener html (.template t header) body tag = .ok r') :
    DocStep r r' := by
  -- the frame of a template is the last one
  have hpop : (Reading.pop { r with input := rest }).frames = [] :=
    Reading.frames_pop (r := { r with input := rest }) hfr
  have hroot : r.root? = some ⟨t.doc, header.params, header.afterLast⟩ := by
    rw [Reading.root?, hfr]
    rfl
  obtain rfl := Except.ok.inj h
  rw [emit_of_nil hpop] at hpiece ⊢
  refine .closes ?_ rfl hroot (congrArg rootOf hpop) (TemplateFile.docs_declare hsize _ _)
  -- what was read is the close tag, so no comment is noted at this step
  refine Taking.effect_of_ne_comment ?_ (Reading.pending_of_frames hfr) fun _ tag' htag => ?_
  · rw [Reading.taking, hpiece]
    exact Piece.noConfusion
  · rw [Reading.taking, hpiece] at htag
    rw [← Piece.command.inj htag, hname]
    exact closing_notMem_headerCommands opener

/-- **A tag in a block.** -/
theorem tagInBlock_docs (hr : Sound r.file r.frames) (hfr : r.frames = .block opener html block nodes :: below)
    (hread : Tag.read r.input = .ok (tag, rest)) (hpiece : r.piece r' = .command tag)
    (h : tagInBlock { r with input := rest } opener html block nodes tag = .ok r') : DocStep r r' := by
  have hsize : ∀ id ∈ r.file.templates, id < r.file.nodes.size := fun id hid => (hr.shaped.templates id hid).1
  have hne : r.frames ≠ [] := hfr ▸ List.cons_ne_nil _ _
  -- a command is not a comment, so nothing can be left waiting by it
  have hcomment : r.piece r' ≠ .comment := by
    rw [hpiece]
    exact Piece.noConfusion
  have hstacked := hr.shaped.stacked
  unfold tagInBlock at h
  split at h
  -- the tag ends the block: a template is complete, or a node of its body is
  · next hends =>
    have hends := List.contains_iff_mem.mp hends
    cases block with
    | template t header =>
      rw [hfr] at hstacked
      obtain rfl : below = [] := hstacked.1
      exact endTemplate_docs hsize hfr hpiece (List.mem_singleton.mp hends) h
    | branch | otherwise | loop | binding | message | visualElement | param =>
      refine .inside hfr hcomment (fun hplace => Place.noConfusion hplace) (.of_moved (i := rest) ?_)
      exact .endBlock (by exact hsize) (by exact hfr) (below_ne_nil (hfr ▸ hstacked) rfl) rfl h
  · split at h
    · cases h
    · split at h
      · next hheader => exact declareInBlock_docs hstacked hfr hread hpiece (List.contains_iff_mem.mp hheader) h
      · next hheader =>
        -- a command starts the body, if the header was open until here
        refine .inside hfr hcomment (fun _ tag' htag => ?_) (.of_moved (i := rest) ?_)
        · rw [hpiece] at htag
          rw [← Piece.command.inj htag, ← List.contains_iff_mem]
          exact hheader
        · refine (Quiet.startBody _).trans (.startCommand ?_ ?_ h)
          · rw [Quiet.file_startBody]
            exact hsize
          · exact Quiet.frames_startBody_ne (r := { r with input := rest }) hne

/-- **One step in a block.** -/
theorem inBlock_docs (hr : Sound r.file r.frames) (hfr : r.frames = .block opener html block nodes :: below)
    (h : inBlock r opener html block nodes = .ok r') : DocStep r r' := by
  have hsize : ∀ id ∈ r.file.templates, id < r.file.nodes.size := fun id hid => (hr.shaped.templates id hid).1
  have hne : r.frames ≠ [] := hfr ▸ List.cons_ne_nil _ _
  -- HTML tags and text are neither comments nor commands
  have hsilent (hslash : ∀ cs, r.input.rest ≠ '/' :: '*' :: cs)
      (hbrace : ∀ cs, r.input.rest ≠ '\x7b' :: cs) : r.piece r' ≠ .comment ∧ (r.piece r').command? = none := by
    unfold Reading.piece
    rw [hfr]
    dsimp only
    split
    · next heq => exact absurd heq (hslash _)
    · next heq => exact absurd heq (hbrace _)
    · split
      · split <;> exact ⟨Piece.noConfusion, rfl⟩
      · split <;> exact ⟨Piece.noConfusion, rfl⟩
  -- a piece without a command does nothing to documentation
  have hinside (hpiece : r.piece r' ≠ .comment ∧ (r.piece r').command? = none) (hquiet : Quiet r r') :
      DocStep r r' := by
    refine .inside hfr hpiece.1 (fun _ tag htag => ?_) hquiet
    rw [htag] at hpiece
    cases hpiece.2
  cases inBlock_eq_ok_iff.mp h with
  | comment hrest h => exact commentInBlock_docs hr.shaped.stacked hfr hrest h
  | tag hrest hread h =>
    refine tagInBlock_docs hr hfr hread ?_ h
    rw [← commandAt_of_read hread]
    simp only [Reading.piece, hfr, hrest]
  | htmlTag _ hslash hbrace _ h =>
    refine hinside (hsilent hslash hbrace) ?_
    refine (Quiet.startBody r).trans (.startHtmlTag ?_ (Quiet.frames_startBody_ne hne) h)
    rw [Quiet.file_startBody]
    exact hsize
  | text _ hslash hbrace => exact hinside (hsilent hslash hbrace) (.textInBlock hsize hne html block)

/-! ### Steps inside of calls, tags and values -/

/-- **One step in a call.** -/
theorem inCall_docs {c : Call} (hr : Sound r.file r.frames) (hfr : r.frames = .call opener c :: below)
    (h : inCall r opener c = .ok r') : DocStep r r' := by
  have hsize : ∀ id ∈ r.file.templates, id < r.file.nodes.size := fun id hid => (hr.shaped.templates id hid).1
  have hne : r.frames ≠ [] := hfr ▸ List.cons_ne_nil _ _
  have hstacked := hr.shaped.stacked
  -- a command in a call is no declaration
  have hcommand {cs : List Char} (hrest : r.input.skipBlanks.rest = '\x7b' :: cs) (hquiet : Quiet r r') :
      DocStep r r' := by
    refine .inside hfr ?_ (fun hplace => Place.noConfusion hplace) hquiet
    simp only [Reading.piece, hfr, hrest]
    exact commandAt_ne_comment _
  cases inCall_eq_ok_iff.mp h with
  -- comments between the parameters of a call wait like any other
  | comment hrest h =>
    have hpiece : r.piece r' = .comment := by simp only [Reading.piece, hfr, hrest]
    obtain ⟨hfile, hframes⟩ := skipComment_keeps h
    refine .waits ?_ (skipComment_doc (.inr rfl) hrest hpiece h) (congrArg rootOf hframes)
      (congrArg TemplateFile.docs hfile)
    rw [Reading.taking, hpiece, Reading.pending_of_frames hfr]
    rfl
  | @ends _ rest _ hrest =>
    refine hcommand hrest (.of_moved (i := rest) ?_)
    exact .complete (by exact hsize) (by exact hfr) (below_ne_nil (hfr ▸ hstacked) rfl) _ _
  | @param _ _ rest _ hrest _ _ _ h =>
    exact hcommand hrest (.of_moved (i := rest) (.startParam (by exact hne) h))

/-- **One step**, by what its piece means. -/
theorem step_docs (hr : Sound r.file r.frames) (h : step r = .ok r') : DocStep r r' := by
  have hsize : ∀ id ∈ r.file.templates, id < r.file.nodes.size := fun id hid => (hr.shaped.templates id hid).1
  -- tags and values never stand alone on the stack, so a block is open below them
  have hstacked := hr.shaped.stacked
  unfold step at h
  split at h
  · next hfr => exact atTop_docs hfr h
  · next hfr => exact inBlock_docs hr hfr h
  · next hfr => exact inCall_docs hr hfr h
  · next hfr =>
    exact .inside hfr (piece_ne_comment_of_openTag hfr) (fun hplace => Place.noConfusion hplace)
      (.inOpenTag hsize hfr (below_ne_nil (hfr ▸ hstacked) rfl) h)
  · next hfr =>
    exact .inside hfr (piece_ne_comment_of_value hfr) (fun hplace => Place.noConfusion hplace)
      (.inAttributeValue hsize hfr (below_ne_nil (hfr ▸ hstacked) rfl) h)

end Steps

end Markup

end TemplateFrontend
