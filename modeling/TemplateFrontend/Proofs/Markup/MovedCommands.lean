import TemplateFrontend.Markup.Reader
import TemplateFrontend.Proofs.Markup.MovedTags
/-!
# Commands in a text that is changed elsewhere

A `Move` is a change of a text away from where it is being read: what is read stands some bytes further on, and
the text ends with something else. The state of reading the changed text is the state of reading the text, moved.
Here this is shown for what is done with a tag once it was taken off the text, which is not looked at any more.

* `Markup.Move`, `Markup.Reading.moved` — a change of a text, and the state of reading the changed text;
* `Markup.Reading.moved_emit` — complete nodes;
* `Markup.startCommand_moved`, `Markup.endBlock_moved`, `Markup.startParam_moved` — commands;
* `Markup.startDeclaration_moved`, `Markup.declare_moved`, `Markup.attachDoc_moved` — declarations.
-/

namespace TemplateFrontend

open Text

namespace Markup

/-- A change of a text that leaves alone what is read of it. -/
structure Move where
  /-- How many bytes further on the text is read. -/
  dist : Nat
  /-- The end of the text. -/
  old : List Char
  /-- The end of the changed text. -/
  new : List Char
  /-- The nodes of the changed text up to where the two are read alike. -/
  before : List Node
  /-- The lines of the changed text. -/
  lines : LineTable

variable {m : Move}

end Markup

namespace Input

open Markup

variable (m : Move)

/-- What is left of the changed text. -/
def moved (i : Input) : Input := ⟨i.offset + m.dist, i.rest.take (i.rest.length - m.old.length) ++ m.new⟩

end Input

/-- What was read of a changed text. -/
def TemplateFile.moved (m : Markup.Move) (f : TemplateFile) : TemplateFile :=
  { f with
    nodes := (m.before ++ (f.nodes.toList.drop m.before.length).map (Node.shift m.dist)).toArray
    lines := m.lines }

namespace Markup

variable (m : Move)

/-- The declarations of a template in the changed text. -/
def Header.moved (h : Header) : Header :=
  ⟨h.params.map (ParamDecl.shift m.dist), h.state.map (StateDecl.shift m.dist), h.closed,
    h.afterLast.map (Input.moved m)⟩

/-- A block of the changed text. -/
def Block.moved : Block → Block
  | .template t header => .template (t.shift m.dist) (header.moved m)
  | .branch before cond => .branch (before.map (Branch.shift m.dist)) (cond.shift m.dist)
  | .otherwise branches => .otherwise (branches.map (Branch.shift m.dist))
  | .loop x list => .loop x (list.shift m.dist)
  | b => b

/-- What is open in the changed text. -/
def Frame.moved : Frame → Frame
  | .block opener html inner nodes => .block (opener.shift m.dist) html (inner.moved m) nodes
  | .call opener c => .call (opener.shift m.dist) (c.shift m.dist)
  | .openTag start name attributes =>
    .openTag (start + m.dist) name (attributes.map (Attribute.shift m.dist))
  | .attributeValue name start quote nodes => .attributeValue name (start + m.dist) quote nodes

/-- The state of reading the changed text. -/
def Reading.moved (r : Reading) : Reading :=
  ⟨r.input.moved m, r.file.moved m, r.doc, r.strict, r.frames.map (Frame.moved m)⟩

/-! ### Nodes -/

section Nodes

variable {m : Move} {r : Reading}

/-- A changed text has as many nodes. -/
theorem size_moved {f : TemplateFile} (h : m.before.length ≤ f.nodes.size) :
    (f.moved m).nodes.size = f.nodes.size := by
  simp only [TemplateFile.moved, List.size_toArray, List.length_append, List.length_map, List.length_drop,
    Array.length_toList]
  omega

/-- A node is added to the changed file as to the file. -/
theorem add_moved {f : TemplateFile} (h : m.before.length ≤ f.nodes.size) (k : NodeKind) (s : Span) :
    (f.moved m).add (k.shift m.dist) (s.shift m.dist) = Prod.map (TemplateFile.moved m) id (f.add k s) := by
  have hlength : m.before.length ≤ f.nodes.toList.length := h
  refine Prod.ext ?_ (size_moved h)
  simp only [TemplateFile.add, TemplateFile.moved, Prod.map_fst, List.push_toArray, Array.toList_push,
    List.drop_append_of_le_length hlength, List.map_append, List.map_cons, List.map_nil, List.append_assoc,
    Node.shift]

/-- A complete node is put where it belongs. -/
theorem Reading.moved_emit (h : m.before.length ≤ r.file.nodes.size) (k : NodeKind) (s : Span) :
    (r.emit k s).moved m = (r.moved m).emit (k.shift m.dist) (s.shift m.dist) := by
  obtain ⟨input, file, doc, strict, frames⟩ := r
  unfold emit
  have hadd := add_moved h k s
  dsimp only [moved] at hadd ⊢
  rw [hadd]
  cases frames with
  | nil => rfl
  | cons frame below => cases frame <;> rfl

theorem Reading.moved_push (r : Reading) (frame : Frame) :
    (r.push frame).moved m = (r.moved m).push (frame.moved m) := rfl

/-- What was opened last is closed in the changed text too. -/
theorem Reading.moved_pop (r : Reading) : r.pop.moved m = (r.moved m).pop := by
  obtain ⟨input, file, doc, strict, frames⟩ := r
  cases frames <;> rfl

/-- So it is when the last frame is replaced. -/
theorem Reading.moved_replace (r : Reading) (frame : Frame) :
    (r.replace frame).moved m = (r.moved m).replace (frame.moved m) := by
  rw [replace, moved_push, moved_pop]
  rfl

/-- A node that closes its frame is put where the frame was. -/
theorem Reading.moved_complete (h : m.before.length ≤ r.file.nodes.size) (k : NodeKind) (s : Span) :
    (r.pop.emit k s).moved m = (r.moved m).pop.emit (k.shift m.dist) (s.shift m.dist) := by
  rw [Reading.moved_emit (r := r.pop) h, moved_pop]

end Nodes

/-! ### Commands -/

section Commands

variable {m : Move} {r : Reading} {tag : Tag} {html : Bool}

/-- A print tag is read alike in both texts. -/
theorem startPrint_moved (h : m.before.length ≤ r.file.nodes.size) (i : Input) (tag : Tag) :
    Maps (Reading.moved m) (startPrint r i tag) (startPrint (r.moved m) (i.shift m.dist) (tag.shift m.dist)) :=
  (Expr.parsePrint_along m.dist i.offset i.rest).bind fun _ _ => .ok (Reading.moved_emit h _ _)

/-- An `if` opens its first branch in both. -/
theorem startIf_moved (r : Reading) (tag : Tag) (html : Bool) :
    Maps (Reading.moved m) (startIf r tag html) (startIf (r.moved m) (tag.shift m.dist) html) :=
  (Expr.parse_along m.dist tag.args.offset tag.args.rest).bind fun _ _ => .ok rfl

/-- A loop opens its body in both. -/
theorem startFor_moved (r : Reading) (tag : Tag) (html : Bool) :
    Maps (Reading.moved m) (startFor r tag html) (startFor (r.moved m) (tag.shift m.dist) html) :=
  (Expr.parseLoop_along m.dist tag.args.offset tag.args.rest).bind fun _ _ => .ok rfl

/-- A `let` binds a value, or opens its content, in both. -/
theorem startLet_moved (h : m.before.length ≤ r.file.nodes.size) (tag : Tag) (html : Bool) :
    Maps (Reading.moved m) (startLet r tag html) (startLet (r.moved m) (tag.shift m.dist) html) := by
  refine (tag.args.word_along "a '$' variable").bind ?_
  rintro ⟨⟨word, s⟩, i⟩ -
  dsimp only [Prod.map_apply, id_eq]
  split
  · next var hword =>
    rw [i.mark?_shift]
    cases i.mark? [':'] with
    | some j =>
      refine .ite (fun _ => ?_) fun _ => .error _ _
      exact (Expr.parse_along m.dist j.offset j.rest).bind fun _ _ => .ok (Reading.moved_emit h _ _)
    -- without a colon the content follows
    | none => exact (blockKind_along i).bind fun kind _ => .ite (fun _ => .error _ _) fun _ => .ok rfl
  · exact .error _ _

/-- A setting of a call is stored alike. -/
theorem callSetting_moved (tag : Tag) (c : Call) (s : Setting) :
    Maps (Call.shift m.dist) (callSetting tag c s)
      (callSetting (tag.shift m.dist) (c.shift m.dist) (s.shift m.dist)) :=
  .ite (fun _ => .ite (fun _ => .ok rfl) fun _ => .error _ _)
    fun _ => .ite (fun _ => .ok rfl) fun _ => .error _ _

/-- A call opens its parameters in both texts. -/
theorem startCall_moved (h : m.before.length ≤ r.file.nodes.size) (tag : Tag) :
    Maps (Reading.moved m) (startCall r tag) (startCall (r.moved m) (tag.shift m.dist)) := by
  refine (tag.args.word_along "a template name").bind ?_
  rintro ⟨⟨callee, s⟩, i⟩ -
  refine i.settings_along.bind fun settings _ => ?_
  refine (Maps.foldlM (callSetting_moved tag) settings _).bind fun c _ => ?_
  exact .ite (fun _ => .ok (Reading.moved_emit h _ _)) fun _ => .ok rfl

/-- A message opens its body in both texts. -/
theorem startMessage_moved (r : Reading) (tag : Tag) (html : Bool) :
    Maps (Reading.moved m) (startMessage r tag html) (startMessage (r.moved m) (tag.shift m.dist) html) := by
  refine tag.args.settings_along.bind fun settings _ => ?_
  refine (Maps.foldlM (h := id) (fun read s => ?_) settings _).bind ?_
  · exact .ite (fun _ => .ok rfl) fun _ => .ite (fun _ => .ok rfl) fun _ => .error _ _
  · rintro ⟨desc, meaning⟩ -
    cases desc with
    | none => exact .error _ _
    | some desc => exact .ok rfl

/-- So does a visual element. -/
theorem startVisualElement_moved (r : Reading) (tag : Tag) (html : Bool) :
    Maps (Reading.moved m) (startVisualElement r tag html)
      (startVisualElement (r.moved m) (tag.shift m.dist) html) :=
  (tag.args.word_along "a visual element name").bind fun _ _ => .ok rfl

/-- **A command is started** in the changed text as it is in the text. -/
theorem startCommand_moved (h : m.before.length ≤ r.file.nodes.size) (tag : Tag) (html : Bool) :
    Maps (Reading.moved m) (startCommand r tag html) (startCommand (r.moved m) (tag.shift m.dist) html) := by
  unfold startCommand
  rw [show (tag.shift m.dist).content.rest = tag.content.rest from rfl]
  cases SpecialChar.ofCommand? (String.ofList tag.content.rest) with
  | some c => exact .ok (Reading.moved_emit h _ _)
  | none =>
    dsimp only [Tag.shift]
    split
    · exact startPrint_moved h tag.args tag
    · exact startIf_moved r tag html
    · exact startFor_moved r tag html
    · exact startLet_moved h tag html
    · exact startCall_moved h tag
    · exact startCall_moved h tag
    · exact startMessage_moved r tag html
    · exact startVisualElement_moved r tag html
    -- any other name is an error, or the start of an expression to print
    · refine .ite (fun _ => .error _ _) fun _ => .ite (fun _ => .error _ _) fun _ => ?_
      refine .ite (fun _ => .error _ _) fun _ => .ite (fun _ => .error _ _) fun _ => ?_
      exact startPrint_moved h tag.content tag

/-! ### Parameters and ends of blocks -/

/-- A parameter is passed to the call that is open in both texts. -/
theorem passParam_moved (r : Reading) (p : Passed) (s : Span) :
    Maps (Reading.moved m) (passParam r p s) (passParam (r.moved m) (p.shift m.dist) (s.shift m.dist)) := by
  obtain ⟨input, file, doc, strict, frames⟩ := r
  cases frames with
  | nil => exact .ok rfl
  | cons frame below =>
    cases frame with
    -- only a call takes parameters
    | block | openTag | attributeValue => exact .ok rfl
    | call opener c =>
      -- it is a second one of its name in both or in neither
      have hany : (c.passed.map (Passed.shift m.dist)).any (·.name == p.name) =
          c.passed.any (·.name == p.name) := by
        rw [List.any_map]
        rfl
      change Maps _ (if c.passed.any (·.name == p.name) then _ else _)
        (if (c.passed.map (Passed.shift m.dist)).any (·.name == p.name) then _ else _)
      rw [hany]
      refine .ite (fun _ => .error _ _) fun _ => .ok ?_
      rw [Reading.moved_replace]
      simp only [Frame.moved, Call.shift, List.map_append, List.map_cons, List.map_nil]

/-- A parameter is passed with its value, or opens its content, in both texts. -/
theorem startParam_moved (r : Reading) (tag : Tag) :
    Maps (Reading.moved m) (startParam r tag) (startParam (r.moved m) (tag.shift m.dist)) := by
  refine (tag.args.word_along "a param name").bind ?_
  rintro ⟨⟨name, s⟩, i⟩ -
  dsimp only [Prod.map_apply, id_eq]
  rw [i.mark?_shift]
  cases i.mark? [':'] with
  | some j =>
    refine .ite (fun _ => ?_) fun _ => .error _ _
    exact (Expr.parse_along m.dist j.offset j.rest).bind fun e _ =>
      passParam_moved r ⟨name, .value e, tag.span⟩ tag.span
  | none => exact (blockKind_along i).bind fun kind _ => .ite (fun _ => .error _ _) fun _ => .ok rfl

/-- **A block ends** in the changed text as it does in the text. -/
theorem endBlock_moved (h : m.before.length ≤ r.file.nodes.size) (opener : Tag) (html : Bool) (block : Block)
    (body : List NodeId) (last : Tag) :
    Maps (Reading.moved m) (endBlock r opener html block body last)
      (endBlock (r.moved m) (opener.shift m.dist) html (block.moved m) body (last.shift m.dist)) := by
  -- most blocks are complete nodes now
  have hcomplete (k : NodeKind) :
      Maps (Reading.moved m) (.ok (r.pop.emit k (opener.span.union last.span)) : Except SyntaxError Reading)
        (.ok ((r.moved m).pop.emit (k.shift m.dist)
          ((opener.span.shift m.dist).union (last.span.shift m.dist)))) := by
    rw [← Span.shift_union, ← Reading.moved_complete h]
    exact .ok rfl
  cases block with
  | template t header => exact hcomplete (.template { t with params := header.params, state := header.state, body })
  | branch before cond =>
    -- the branch that ends is added to those before it
    have hbranches : before.map (Branch.shift m.dist) ++ [(⟨cond.shift m.dist, body⟩ : Branch)] =
        (before ++ [(⟨cond, body⟩ : Branch)]).map (Branch.shift m.dist) := by
      rw [List.map_append]
      rfl
    unfold endBlock
    dsimp only [Block.moved]
    rw [hbranches]
    refine .ite (fun _ => ?_) fun _ => .ite (fun _ => ?_) fun _ => ?_
    · refine (Expr.parse_along m.dist last.args.offset last.args.rest).bind fun cond' _ => .ok ?_
      rw [Reading.moved_replace]
      rfl
    · refine .ok ?_
      rw [Reading.moved_replace]
      rfl
    · exact hcomplete (.conditional (before ++ [⟨cond, body⟩]) none)
  | otherwise branches => exact hcomplete (.conditional branches (some body))
  | loop x list => exact hcomplete (.loop x list body)
  | binding x kind => exact hcomplete (.binding x (.content kind body))
  | message desc meaning => exact hcomplete (.message desc meaning body)
  | visualElement name => exact hcomplete (.visualElement name body)
  | param name kind =>
    have hpass := passParam_moved (m := m) r.pop ⟨name, .content kind body, opener.span.union last.span⟩
      opener.span
    rwa [Reading.moved_pop, Passed.shift, Span.shift_union] at hpass

end Commands

/-! ### Declarations of a file -/

section Declarations

variable {m : Move}

/-- A declaration changes the file alike in both texts. -/
theorem declared_moved (r : Reading) {x y : Except SyntaxError TemplateFile}
    (h : Maps (TemplateFile.moved m) x y) : Maps (Reading.moved m) (declared r x) (declared (r.moved m) y) :=
  h.bind fun _ _ => .ok rfl

/-- The namespace is declared alike. -/
theorem declareNamespace_moved (f : TemplateFile) (tag : Tag) :
    Maps (TemplateFile.moved m) (declareNamespace f tag) (declareNamespace (f.moved m) (tag.shift m.dist)) :=
  .ite (fun _ => .error _ _) fun _ => .ite (fun _ => .error _ _) fun _ =>
    (tag.args.word_along "a namespace").bind fun _ _ => .ok rfl

/-- An alias is declared alike. -/
theorem declareAlias_moved (f : TemplateFile) (tag : Tag) :
    Maps (TemplateFile.moved m) (declareAlias f tag) (declareAlias (f.moved m) (tag.shift m.dist)) := by
  refine (tag.args.word_along "a namespace to alias").bind ?_
  rintro ⟨⟨target, s⟩, i⟩ -
  dsimp only [Prod.map_apply, id_eq]
  rw [i.mark?_shift]
  cases i.mark? ['a', 's'] with
  | some j =>
    refine (j.word_along "an alias name").bind ?_
    rintro ⟨⟨name, s'⟩, k⟩ -
    exact .ite (fun _ => .error _ _) fun _ => .ite (fun _ => .error _ _) fun _ => .ok rfl
  | none => exact .ite (fun _ => .error _ _) fun _ => .ite (fun _ => .error _ _) fun _ => .ok rfl

/-- The delegate package is declared alike. -/
theorem declarePackage_moved (f : TemplateFile) (tag : Tag) :
    Maps (TemplateFile.moved m) (declarePackage f tag) (declarePackage (f.moved m) (tag.shift m.dist)) :=
  (tag.args.word_along "a package name").bind fun _ _ => .ok rfl

/-- A template gets its full name from the namespace, which is the same. -/
theorem templateName_moved (f : TemplateFile) (kind : TemplateKind) (written : String) (s : Span) :
    Maps id (templateName f kind written s) (templateName (f.moved m) kind written (s.shift m.dist)) := by
  unfold templateName
  split
  · refine .ite (fun _ => .error _ _) fun _ => ?_
    dsimp only [TemplateFile.moved]
    cases f.namespaceName with
    | none => exact .error _ _
    | some ns => exact .ok rfl
  · exact .ok rfl

/-- A setting of a template is stored alike. -/
theorem templateSetting_moved (t : Template) (s : Setting) :
    Maps (Template.shift m.dist) (templateSetting t s)
      (templateSetting (t.shift m.dist) (s.shift m.dist)) := by
  unfold templateSetting
  dsimp only [Setting.shift]
  -- values of settings are words, which have no place of their own
  split
  · cases Visibility.ofWord? s.value with
    | none => exact .error _ _
    | some v => exact .ok rfl
  · exact (contentKind_along s).bind fun _ _ => .ok rfl
  · split
    · exact .ok rfl
    · exact .ok rfl
    · exact .error _ _
  · exact .ite (fun _ => .ok rfl) fun _ => .error _ _

/-- A template is opened with the same name and settings. -/
theorem openTemplate_moved (f : TemplateFile) (kind : TemplateKind) (doc : Option String) (tag : Tag) :
    Maps (Template.shift m.dist) (openTemplate f kind doc tag)
      (openTemplate (f.moved m) kind doc (tag.shift m.dist)) := by
  refine (tag.args.word_along "a template name").bind ?_
  rintro ⟨⟨written, s⟩, i⟩ -
  refine (templateName_moved f kind written s).bind fun name _ => ?_
  refine i.settings_along.bind fun settings _ => ?_
  exact (Maps.foldlM templateSetting_moved settings _).bind fun t _ => .ok rfl

/-- **A declaration of the file** in the changed text. -/
theorem startDeclaration_moved (r : Reading) (tag : Tag) :
    Maps (Reading.moved m) (startDeclaration r tag) (startDeclaration (r.moved m) (tag.shift m.dist)) := by
  unfold startDeclaration
  dsimp only [Tag.shift]
  -- the name of the tag chooses the branch and does not move
  cases TemplateKind.ofCommand? tag.name with
  | some kind => exact (openTemplate_moved r.file kind r.doc tag).bind fun t _ => .ok rfl
  | none =>
    dsimp only
    split
    · exact declared_moved r (declareNamespace_moved r.file tag)
    · exact declared_moved r (declareAlias_moved r.file tag)
    · exact declared_moved r (declarePackage_moved r.file tag)
    · exact .ite (fun _ => .error _ _) fun _ => .error _ _

/-! ### Declarations of headers -/

/-- A state variable is declared alike, with a type and without one. -/
theorem declareState_moved (header : Header) (name : String) (i : Input) (tag : Tag) :
    Maps (Header.moved m) (declareState header name i tag)
      (declareState (header.moved m) name (i.shift m.dist) (tag.shift m.dist)) := by
  -- whatever the type is, the default follows it
  have hread (type : Option String) (j : Input) :
      Maps (Header.moved m)
        (Expr.parse j.offset j.rest >>= fun e => (pure { header with
          state := header.state ++ [⟨name, type, none, e, tag.span⟩] } : Except SyntaxError Header))
        (Expr.parse (j.offset + m.dist) j.rest >>= fun e => (pure { header.moved m with
          state := (header.moved m).state ++ [⟨name, type, none, e, tag.span.shift m.dist⟩] } :
            Except SyntaxError Header)) := by
    refine (Expr.parse_along m.dist j.offset j.rest).bind fun e _ => .ok ?_
    simp only [Header.moved, List.map_append, List.map_cons, List.map_nil, StateDecl.shift]
  unfold declareState
  rw [i.mark?_shift]
  cases i.mark? [':'] with
  | some j =>
    dsimp only [Option.map_some]
    rw [j.takeWhile_shift, Prod.map_snd, Input.mark?_shift]
    cases (j.takeWhile (· != '=')).2.mark? ['='] with
    | none => exact .error _ _
    | some k => exact hread _ k
  | none =>
    dsimp only [Option.map_none]
    rw [i.mark?_shift]
    cases i.mark? ['='] with
    | none => exact .error _ _
    | some k => exact hread _ k

/-- A parameter is declared alike. -/
theorem declareParam_moved (header : Header) (name : String) (i : Input) (doc : Option String) (tag : Tag) :
    Maps (Header.moved m) (declareParam header name i doc tag)
      (declareParam (header.moved m) name (i.shift m.dist) doc (tag.shift m.dist)) := by
  -- a name that is taken in one text is taken in the other
  have hany : (header.params.map (ParamDecl.shift m.dist)).any (·.name == name) =
      header.params.any (·.name == name) := by
    rw [List.any_map]
    rfl
  unfold declareParam
  rw [i.mark?_shift]
  cases i.mark? [':'] with
  | none => exact .error _ _
  | some j =>
    refine .ite (fun _ => .error _ _) fun _ => ?_
    by_cases hnew : header.params.any (·.name == name) = true
    · rw [if_pos hnew]
      exact .error _ _
    · have hnew' : ¬ (header.moved m).params.any (·.name == name) = true := hany ▸ hnew
      rw [if_neg hnew, if_neg hnew']
      refine .ok ?_
      simp only [Header.moved, List.map_append, List.map_cons, List.map_nil]
      rfl

/-- **A declaration of a header** in the changed text. -/
theorem declare_moved (header : Header) (doc : Option String) (tag : Tag) (rest : Input) :
    Maps (Header.moved m) (declare header doc tag rest)
      (declare (header.moved m) doc (tag.shift m.dist) (rest.moved m)) := by
  refine (tag.args.word_along "a declaration name").bind ?_
  rintro ⟨⟨name, s⟩, i⟩ -
  exact .ite (fun _ => (declareState_moved header name i tag).bind fun _ _ => .ok rfl)
    fun _ => (declareParam_moved header name i doc tag).bind fun _ _ => .ok rfl

/-- A comment documents the parameter in front of it in the changed text if it does so in the text: what stands
between the two is left alone. -/
theorem attachDoc_moved (header : Header) {rest : Input} (hrest : m.old.length ≤ rest.rest.length)
    (doc : Option String) : attachDoc (header.moved m) (rest.moved m) doc =
      Prod.map (Header.moved m) id (attachDoc header rest doc) := by
  unfold attachDoc
  rw [show (header.moved m).afterLast = header.afterLast.map (Input.moved m) from rfl,
    show (header.moved m).params = header.params.map (ParamDecl.shift m.dist) from rfl, List.getLast?_map]
  cases header.afterLast with
  | none => rfl
  | some after =>
    cases header.params.getLast? with
    | none => rfl
    | some p =>
      -- the change is further on, so the same text stands between them
      have hbetween : (after.moved m).rest.take ((after.moved m).rest.length - (rest.moved m).rest.length) =
          after.rest.take (after.rest.length - rest.rest.length) := by
        have hlength : (after.moved m).rest.length - (rest.moved m).rest.length =
            after.rest.length - rest.rest.length := by
          simp only [Input.moved, List.length_append, List.length_take]
          omega
        rw [hlength, Input.moved, List.take_append_of_le_length (by rw [List.length_take]; omega),
          List.take_take, Nat.min_eq_left (by omega)]
      -- and the parameter ends where it did, moved like everything
      have hstop : ((p.shift m.dist).span.stop != (after.moved m).offset) = (p.span.stop != after.offset) := by
        change (p.span.stop + m.dist != after.offset + m.dist) = _
        rw [Bool.eq_iff_iff, bne_iff_ne, bne_iff_ne, ne_eq, Nat.add_right_cancel_iff]
      dsimp only [Option.map_some]
      rw [hbetween, hstop, show (p.shift m.dist).doc = p.doc from rfl, ← List.map_dropLast]
      split
      · rfl
      · simp only [Prod.map_apply, Header.moved, List.map_append, List.map_cons, List.map_nil, id_eq,
          Option.map_some]
        rfl

end Declarations

end Markup

end TemplateFrontend
