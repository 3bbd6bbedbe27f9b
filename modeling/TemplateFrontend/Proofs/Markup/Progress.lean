import TemplateFrontend.Proofs.Expr.Extents
import TemplateFrontend.Proofs.Markup.Inputs
import TemplateFrontend.Proofs.Markup.Names
import TemplateFrontend.Proofs.Markup.Steps
/-!
# Where the expressions of a file were read

Every step of reading a file goes on in the text, and the expressions that it adds are read from the
piece of text that it takes. So no expression of a file is held twice: two of them stand in different
places.

* `Input.Between` — a piece of the text, of which all smaller pieces are pieces too;
* `Markup.Goes` — what a step does: it adds expressions that stand in order in the text it takes, and the
  names it adds are words;
* `Markup.step_goes`, `Markup.run_goes` — one step and all of them;
* `exprs_of_parse`, `named_of_parse` — the expressions and the names of a source that parses.
-/

namespace TemplateFrontend

open Text

/-! ### Pieces of the text -/

/-- Fewer characters have no more bytes. -/
theorem Text.byteLength_le_of_sublist {as bs : List Char} (h : as.Sublist bs) :
    byteLength as ≤ byteLength bs := by
  induction h with
  | slnil => exact Nat.le_refl 0
  | cons c _ ih => exact Nat.le_trans ih (Nat.le_add_left _ _)
  | cons_cons c _ ih => exact Nat.add_le_add_left ih c.utf8Size

/-- What is left without the blanks at the end was there before. -/
theorem Text.trimEnd_sublist (cs : List Char) : (trimEnd cs).Sublist cs := by
  have h := (List.dropWhile_sublist isBlank (l := cs.reverse)).reverse
  rwa [List.reverse_reverse] at h

namespace Input

variable {lo hi : Nat} {i j : Input}

/-- Dropping characters goes on in the text. -/
theorem offset_le_drop (i : Input) (n : Nat) : i.offset ≤ (i.drop n).offset := Nat.le_add_right _ _

/-- What comes after stands no further back. -/
theorem After.offset_le (h : i.After j) : i.offset ≤ j.offset := by
  obtain ⟨n, rfl⟩ := h
  exact offset_le_drop i n

/-- The input is a piece of the text between two offsets. -/
structure Between (lo hi : Nat) (i : Input) : Prop where
  le_offset : lo ≤ i.offset
  stop_le : i.stop ≤ hi

namespace Between

/-- The first of the two offsets comes first. -/
theorem le (h : i.Between lo hi) : lo ≤ hi :=
  Nat.le_trans h.le_offset (Nat.le_trans (Nat.le_add_right _ _) h.stop_le)

/-- A later input is a piece up to the same end. -/
theorem after (h : i.Between lo hi) (hj : i.After j) : j.Between lo hi := by
  obtain ⟨n, rfl⟩ := hj
  exact ⟨Nat.le_trans h.le_offset (offset_le_drop i n), by rw [offset_drop_add]; exact h.stop_le⟩

/-- Characters at the end left out. -/
theorem shorten (h : i.Between lo hi) {cs : List Char} (hcs : cs.Sublist i.rest) :
    Input.Between lo hi { i with rest := cs } :=
  ⟨h.le_offset, Nat.le_trans (Nat.add_le_add_left (byteLength_le_of_sublist hcs) _) h.stop_le⟩

/-- Without blanks around it, it is a piece still. -/
theorem trim (h : i.Between lo hi) : i.trim.Between lo hi :=
  (h.after (.skipBlanks i)).shorten (Text.trimEnd_sublist _)

end Between

end Input

/-- The texts of a tag are pieces of the text between two offsets. -/
structure Tag.Between (lo hi : Nat) (t : Tag) : Prop where
  args : t.args.Between lo hi
  content : t.content.Between lo hi

/-- What is made of a piece of the text is made of pieces of it. -/
theorem Tag.between_ofBody {lo hi : Nat} {body : Input} (h : body.Between lo hi) (s : Span) :
    (Tag.ofBody body s).Between lo hi := by
  have hcontent : (Tag.ofBody body s).content.Between lo hi := by
    unfold Tag.ofBody
    dsimp only
    split
    · exact h.trim.shorten ((trimEnd_sublist _).trans (List.dropLast_sublist _))
    · exact h.trim
  exact ⟨(hcontent.after (.takeWhile _ _)).trim, hcontent⟩

/-- A tag is read from the text that is taken for it. -/
theorem Tag.between_of_read {i rest : Input} {tag : Tag} (h : Tag.read i = .ok (tag, rest)) :
    tag.Between i.offset rest.offset := by
  obtain ⟨body, rfl, rfl, more, hmore⟩ := Markup.exists_of_read h
  refine @Tag.between_ofBody _ _ ⟨(i.drop 1).offset, body⟩ ⟨Input.offset_le_drop i 1, ?_⟩ _
  cases hrest : i.rest with
  | nil =>
    rw [hrest] at hmore
    simp at hmore
  | cons c cs =>
    rw [hrest, List.tail_cons] at hmore
    -- what is taken is the body between its two braces
    have htake : (c :: cs).take (body.length + 2) = c :: (body ++ ['\x7d']) := by
      rw [hmore]
      simp [List.take_append, List.take_of_length_le]
    simp only [Input.stop, Input.drop, hrest, htake]
    simp only [List.take_succ_cons, List.take_zero, byteLength_cons, byteLength_append, byteLength_nil]
    omega

/-- The expressions of all nodes of the table. -/
def TemplateFile.exprs (f : TemplateFile) : List Expr := f.nodes.toList.flatMap (·.kind.exprs)

/-- A new node adds its expressions. -/
theorem TemplateFile.exprs_add (f : TemplateFile) (k : NodeKind) (s : Span) :
    (f.add k s).1.exprs = f.exprs ++ k.exprs := by
  simp [exprs, add]

namespace Markup

/-! ### Expressions of a state -/

/-- The expressions that were read for a block. -/
def Block.exprs : Block → List Expr
  | .template _ header => header.state.map (·.initial)
  | .branch before cond => before.map (·.cond) ++ [cond]
  | .otherwise branches => branches.map (·.cond)
  | .loop _ list => [list]
  | .binding _ _ | .message _ _ | .visualElement _ | .param _ _ => []

/-- The expressions that were read for what is open. -/
def Frame.exprs : Frame → List Expr
  | .block _ _ inner _ => inner.exprs
  | .call _ c => c.passed.filterMap (·.bound.expr?)
  | .openTag _ _ _ | .attributeValue _ _ _ _ => []

/-- The expressions of all nodes and of all that is open. -/
def Reading.exprs (r : Reading) : List Expr := r.file.exprs ++ r.frames.flatMap Frame.exprs

section Moves

variable {r : Reading} {frame : Frame} {below : List Frame}

/-- A node that is complete adds its expressions, wherever it goes. -/
theorem Reading.exprs_emit (r : Reading) (k : NodeKind) (s : Span) :
    (r.emit k s).exprs.Perm (k.exprs ++ r.exprs) := by
  have hadd : ({ r with file := (r.file.add k s).1 } : Reading).exprs.Perm (k.exprs ++ r.exprs) := by
    rw [exprs, exprs, TemplateFile.exprs_add, List.append_assoc, ← List.append_assoc k.exprs]
    exact (List.perm_append_comm_assoc ..).trans (List.Perm.of_eq (List.append_assoc ..).symm)
  refine List.Perm.trans (List.Perm.of_eq ?_) hadd
  unfold emit place
  dsimp only
  -- the node is noted in what is open, by its number only
  split
  · rfl
  · next hfr => rw [exprs, exprs, hfr]; rfl
  · next hfr => rw [exprs, exprs, hfr]; rfl
  · rfl
  · rfl

/-- What is opened adds its expressions. -/
theorem Reading.exprs_push (r : Reading) (frame : Frame) :
    (r.push frame).exprs.Perm (frame.exprs ++ r.exprs) :=
  List.perm_append_comm_assoc ..

/-- What is dropped takes its expressions with it. -/
theorem Reading.exprs_pop (hfr : r.frames = frame :: below) :
    r.exprs.Perm (frame.exprs ++ r.pop.exprs) := by
  rw [exprs, exprs, frames_pop hfr, hfr]
  exact List.perm_append_comm_assoc ..

/-- The file stays the same one. -/
theorem Reading.path_emit (r : Reading) (k : NodeKind) (s : Span) :
    (r.emit k s).file.path = r.file.path := by
  unfold emit place
  dsimp only
  split <;> rfl

end Moves

/-! ### Going on -/

/-- The second state goes on from the first one, past the offset `lo`: of the same file, it holds the
expressions of the first one, or some of them, and others that stand in order in the text from there
on. Names that it declares besides are words. -/
structure Goes (lo : Nat) (r r' : Reading) : Prop where
  path_eq : r'.file.path = r.file.path
  exprs : ∃ new, r'.exprs.Subperm (new ++ r.exprs) ∧ Expr.InOrder lo r'.input.offset new
  named : Named r.file r.frames → Named r'.file r'.frames

namespace Goes

variable {lo : Nat} {r r' r'' : Reading} {frame frame' : Frame} {below : List Frame}
  {new : List Expr}

/-- It may be asked to go past an earlier offset. -/
theorem mono {lo' : Nat} (h : Goes lo r r') (hlo : lo' ≤ lo) : Goes lo' r r' := by
  obtain ⟨new, hexprs, hnew⟩ := h.exprs
  exact ⟨h.path_eq, ⟨new, hexprs, hnew.mono hlo (Nat.le_refl _)⟩, h.named⟩

/-- Going on twice. -/
theorem trans (h : Goes lo r r') (h' : Goes r'.input.offset r' r'') : Goes lo r r'' := by
  obtain ⟨new, hexprs, hnew⟩ := h.exprs
  obtain ⟨more, hexprs', hmore⟩ := h'.exprs
  refine ⟨h'.path_eq.trans h.path_eq, ⟨new ++ more, ?_, hnew.append hmore⟩,
    fun hr => h'.named (h.named hr)⟩
  refine hexprs'.trans (((List.Subperm.refl more).append hexprs).trans ?_)
  rw [List.append_assoc]
  exact (List.perm_append_comm_assoc ..).subperm

/-- What goes on from a state that holds nothing more goes on from the state. -/
theorem of_subperm {r₁ : Reading} (h : Goes lo r₁ r') (hpath : r₁.file.path = r.file.path)
    (hexprs : r₁.exprs.Subperm r.exprs) (hnamed : Named r.file r.frames → Named r₁.file r₁.frames) :
    Goes lo r r' := by
  obtain ⟨new, hsub, hnew⟩ := h.exprs
  exact ⟨h.path_eq.trans hpath, ⟨new, hsub.trans ((List.Subperm.refl new).append hexprs), hnew⟩,
    fun hr => h.named (hnamed hr)⟩

/-- Where the input stood before does not matter. -/
theorem of_moved {i : Input} (h : Goes lo { r with input := i } r') : Goes lo r r' :=
  ⟨h.path_eq, h.exprs, h.named⟩

/-- Nothing was added. -/
theorem of_eq (hfile : r'.file = r.file) (hframes : r'.frames = r.frames)
    (hle : lo ≤ r'.input.offset) : Goes lo r r' := by
  refine ⟨congrArg TemplateFile.path hfile, ⟨[], (List.Perm.of_eq ?_).subperm, hle⟩, fun hr => ?_⟩
  · rw [Reading.exprs, hfile, hframes]
    rfl
  · rwa [hfile, hframes]

/-- A new node that is no template. -/
theorem emit {k : NodeKind} (h : Expr.InOrder lo r.input.offset k.exprs) (hnames : k.names = [])
    (s : Span) : Goes lo r (r.emit k s) := by
  refine ⟨r.path_emit k s, ⟨k.exprs, (r.exprs_emit k s).subperm, ?_⟩,
    fun hr => hr.emit (by rw [hnames]; exact nofun) s⟩
  rwa [Reading.input_emit]

/-- A new node without expressions. -/
theorem emit_plain {k : NodeKind} (hk : k.exprs = []) (hnames : k.names = [])
    (hle : lo ≤ r.input.offset) (s : Span) : Goes lo r (r.emit k s) :=
  emit (by rw [hk]; exact hle) hnames s

/-- A new frame, of a template with a word as name or of something else. -/
theorem push_named (h : Expr.InOrder lo r.input.offset frame.exprs)
    (hnames : Named r.file r.frames → ∀ s ∈ frame.names, Input.IsWord s) : Goes lo r (r.push frame) :=
  ⟨rfl, ⟨frame.exprs, (r.exprs_push frame).subperm, h⟩, fun hr => hr.push (hnames hr)⟩

/-- A new frame that is no template. -/
theorem push (h : Expr.InOrder lo r.input.offset frame.exprs) (hnames : frame.names = []) :
    Goes lo r (r.push frame) :=
  push_named h fun _ => by rw [hnames]; exact nofun

/-- The innermost frame is dropped. -/
theorem pop (hle : lo ≤ r.input.offset) : Goes lo r r.pop := by
  refine ⟨rfl, ⟨[], ?_, hle⟩, Named.pop⟩
  rw [List.nil_append, Reading.exprs, Reading.exprs, Reading.pop]
  dsimp only
  cases r.frames with
  | nil => exact List.Subperm.refl _
  | cons frame below => exact ((List.Sublist.refl _).append (List.sublist_append_right _ _)).subperm

/-- The innermost frame is replaced by one that holds its expressions and new ones. -/
theorem replace (hfr : r.frames = frame :: below)
    (hframe : frame'.exprs.Subperm (new ++ frame.exprs)) (hnames : frame'.names = frame.names)
    (h : Expr.InOrder lo r.input.offset new) : Goes lo r (r.replace frame') := by
  refine ⟨rfl, ⟨new, ?_, h⟩, fun hr => hr.pop.push (hnames ▸ hr.names_of_frames hfr)⟩
  refine ((r.pop.exprs_push frame').subperm.trans (hframe.append (List.Subperm.refl _))).trans ?_
  rw [List.append_assoc]
  exact ((Reading.exprs_pop hfr).symm.append_left new).subperm

/-- The innermost frame may drop expressions. -/
theorem reframe (hfr : r.frames = frame :: below) (hframe : frame'.exprs.Subperm frame.exprs)
    (hnames : frame'.names = frame.names) (hle : lo ≤ r.input.offset) : Goes lo r (r.replace frame') :=
  have hnone : Expr.InOrder lo r.input.offset [] := hle
  replace hfr hframe hnames hnone

/-- The innermost frame is complete: its expressions, or some of them, are those of a node. -/
theorem complete {k : NodeKind} (hfr : r.frames = frame :: below) (hk : k.exprs.Subperm frame.exprs)
    (hnames : k.names = frame.names) (hle : lo ≤ r.input.offset) (s : Span) :
    Goes lo r (r.pop.emit k s) := by
  refine ⟨r.pop.path_emit k s, ⟨[], ?_, by rwa [Reading.input_emit]⟩,
    fun hr => hr.pop.emit (hnames ▸ hr.names_of_frames hfr) s⟩
  refine ((r.pop.exprs_emit k s).subperm.trans (hk.append (List.Subperm.refl _))).trans ?_
  exact (Reading.exprs_pop hfr).symm.subperm

end Goes

/-! ### Starting commands -/

section Commands

variable {lo : Nat} {r r' : Reading} {tag : Tag} {html : Bool}

/-- An expression that is read from a piece of the text. -/
theorem inOrder_of_between {i : Input} {e : Expr} (h : Expr.parse i.offset i.rest = .ok e)
    (hi : i.Between lo r.input.offset) : Expr.InOrder lo r.input.offset [e] :=
  (Expr.inOrder_of_parse h).mono hi.le_offset hi.stop_le

/-- **A command is started** with expressions that are read from its tag. -/
theorem startCommand_goes (h : startCommand r tag html = .ok r')
    (ht : tag.Between lo r.input.offset) : Goes lo r r' := by
  have hle := ht.args.le
  cases begins_of_startCommand h with
  | special => exact .emit_plain rfl rfl hle _
  | print hi he =>
    -- the expression is the arguments, or all of the tag
    obtain ⟨rfl, -⟩ | ⟨rfl, -⟩ := hi
    · exact .emit ((Expr.inOrder_of_parsePrint he).mono ht.args.le_offset ht.args.stop_le) rfl _
    · exact .emit ((Expr.inOrder_of_parsePrint he).mono ht.content.le_offset ht.content.stop_le) rfl _
  | condition _ hcond => exact .push (inOrder_of_between hcond ht.args) rfl
  | loop _ hlist =>
    exact .push ((Expr.inOrder_of_parseLoop hlist).mono ht.args.le_offset ht.args.stop_le) rfl
  -- the value is what is left of the arguments behind the name and the colon
  | value _ hword hcolon he =>
    have hbetween := (ht.args.after (.word hword)).after (.mark? hcolon)
    exact .emit (inOrder_of_between he hbetween) rfl _
  | content | message | visualElement => exact .push hle rfl
  | call _ hpassed =>
    refine .emit ?_ rfl _
    rw [NodeKind.exprs, hpassed]
    exact hle
  | openCall _ hpassed =>
    refine .push ?_ rfl
    rw [Frame.exprs, hpassed]
    exact hle

end Commands

/-! ### The steps inside each kind of frame -/

section Steps

variable {lo : Nat} {r r' : Reading} {below : List Frame}

/-- A parameter that is passed adds its value, if it has one. -/
theorem passParam_goes {p : Passed} {s : Span} (h : passParam r p s = .ok r')
    (hp : Expr.InOrder lo r.input.offset p.bound.expr?.toList) : Goes lo r r' := by
  obtain ⟨tag, c, fs, hfs, rfl⟩ | rfl := passParam_cases h
  · refine .replace hfs ?_ rfl hp
    have hlast : [p].filterMap (·.bound.expr?) = p.bound.expr?.toList := by
      cases hb : p.bound.expr? <;> simp [hb]
    rw [Frame.exprs, Frame.exprs, List.filterMap_append, hlast]
    exact List.perm_append_comm.subperm
  · exact .of_eq rfl rfl hp.le

/-- The same when it is started, for a value or for content. -/
theorem startParam_goes {tag : Tag} (h : startParam r tag = .ok r')
    (ht : tag.Between lo r.input.offset) : Goes lo r r' := by
  obtain ⟨w, i, hword, ⟨j, e, hcolon, he, h⟩ | ⟨kind, -, rfl⟩⟩ := startParam_cases h
  · have hbetween := (ht.args.after (.word hword)).after (.mark? hcolon)
    exact passParam_goes h (inOrder_of_between he hbetween)
  · exact .push ht.args.le rfl

/-- **The end of a block.** The node that is complete holds the expressions of the block. -/
theorem endBlock_goes {opener last : Tag} {html : Bool} {block : Block} {nodes body : List NodeId}
    (hfr : r.frames = .block opener html block nodes :: below)
    (ht : last.Between lo r.input.offset) (h : endBlock r opener html block body last = .ok r') :
    Goes lo r r' := by
  have hle := ht.args.le
  cases block with
  | template t header =>
    obtain rfl := Except.ok.inj h
    exact .complete hfr (List.Subperm.refl _) rfl hle _
  | branch before cond =>
    have hbranches : (before ++ [⟨cond, body⟩] : List Branch).map (·.cond) =
        before.map (·.cond) ++ [cond] := by rw [List.map_append]; rfl
    unfold endBlock at h
    dsimp only at h
    -- the branch takes its condition along, and the next one, if there is one, adds its own
    split at h
    · obtain ⟨cond', hcond', h⟩ := exists_of_bind_ok h
      obtain rfl := Except.ok.inj h
      refine .replace hfr ?_ rfl (inOrder_of_between hcond' ht.args)
      rw [Frame.exprs, Frame.exprs, Block.exprs, Block.exprs, hbranches]
      exact List.perm_append_comm.subperm
    · split at h
      · obtain rfl := Except.ok.inj h
        refine .reframe hfr ?_ rfl hle
        rw [Frame.exprs, Frame.exprs, Block.exprs, Block.exprs, hbranches]
      -- the last branch has no condition of its own
      · obtain rfl := Except.ok.inj h
        refine .complete hfr ?_ rfl hle _
        rw [NodeKind.exprs, Frame.exprs, Block.exprs, hbranches]
  | otherwise | loop | binding | message | visualElement =>
    obtain rfl := Except.ok.inj h
    exact .complete hfr (List.Subperm.refl _) rfl hle _
  | param x kind =>
    exact (Goes.pop hle).trans (passParam_goes h (Nat.le_refl _))

/-- Starting a body takes nothing from the text. -/
theorem input_startBody (r : Reading) : (startBody r).input = r.input := by
  unfold startBody
  split <;> rfl

/-- Starting a body adds nothing, so what goes on from there goes on from the state before. -/
theorem Goes.of_startBody (h : Goes lo (startBody r) r') : Goes lo r r' := by
  unfold startBody at h
  split at h
  · next opener html block nodes fs hfs =>
    have hstart : Goes r.input.offset r (r.replace (.block opener html block.closeHeader nodes)) :=
      .reframe hfs (by cases block <;> exact List.Subperm.refl _) (by cases block <;> rfl) (Nat.le_refl _)
    -- closing a header drops no expression of it
    have hexprs : (Frame.block opener html block.closeHeader nodes).exprs =
        (Frame.block opener html block nodes).exprs := by
      cases block <;> rfl
    refine h.of_subperm rfl ?_ hstart.named
    refine ((r.pop.exprs_push _).trans ?_).subperm
    rw [hexprs]
    exact (Reading.exprs_pop hfs).symm
  · exact h

/-- A comment adds nothing. -/
theorem skipComment_goes (h : skipComment r = .ok r') : Goes r.input.offset r r' := by
  obtain ⟨hfile, hframes⟩ := skipComment_keeps h
  exact .of_eq hfile hframes (skipComment_after h).offset_le

/-- Documentation changes no declaration of state. -/
theorem state_attachDoc (h : Header) (rest : Input) (doc : Option String) :
    (attachDoc h rest doc).1.state = h.state := by
  unfold attachDoc
  split
  · dsimp only
    split <;> rfl
  · rfl

/-- Nor does it start the body. -/
theorem closed_attachDoc (header : Header) (rest : Input) (doc : Option String) :
    (attachDoc header rest doc).1.closed = header.closed := by
  unfold attachDoc
  split
  · dsimp only
    split <;> rfl
  · rfl

/-- Nor does a comment in a block, which may document a parameter. -/
theorem commentInBlock_goes {opener : Tag} {html : Bool} {block : Block} {nodes : List NodeId}
    (hfr : r.frames = .block opener html block nodes :: below)
    (h : commentInBlock r opener html block nodes = .ok r') : Goes r.input.offset r r' := by
  obtain ⟨after, hafter, h⟩ := exists_of_bind_ok h
  have hgoes := skipComment_goes hafter
  obtain ⟨hfile, hframes⟩ := skipComment_keeps hafter
  cases block with
  | template t header =>
    -- documentation is put to parameters, and expressions stand in state variables only
    have hattached : ∀ (header' : Header) (doc : Option String), header'.state = header.state →
        Goes r.input.offset r
          (Reading.replace { after with doc } (.block opener html (.template t header') nodes)) := by
      intro header' doc hstate
      have hnoted : Goes after.input.offset after { after with doc } := .of_eq rfl rfl (Nat.le_refl _)
      refine hgoes.trans (hnoted.trans (.reframe (hframes.trans hfr) ?_ rfl (Nat.le_refl _)))
      rw [Frame.exprs, Frame.exprs, Block.exprs, Block.exprs, hstate]
    obtain rfl := Except.ok.inj h
    exact hattached _ _ (state_attachDoc header r.input after.doc)
  | branch | otherwise | loop | binding | message | visualElement | param =>
    obtain rfl := Except.ok.inj h
    exact hgoes.trans (.of_eq rfl rfl (Nat.le_refl _))

/-- A declaration of state adds its expression to the header, others add none. -/
theorem declare_goes {header header' : Header} {doc : Option String} {tag : Tag} {hi : Nat}
    {rest : Input} (h : declare header doc tag rest = .ok header') (ht : tag.Between lo hi) :
    ∃ new, header'.state.map (·.initial) = header.state.map (·.initial) ++ new ∧
      Expr.InOrder lo hi new := by
  obtain ⟨decl, rfl, -⟩ | ⟨decl, j, rfl, -, -, hj, he⟩ := declare_cases h
  · exact ⟨[], (List.append_nil _).symm, ht.args.le⟩
  · have hbetween := ht.args.after hj
    refine ⟨[decl.initial], List.map_append, ?_⟩
    exact (Expr.inOrder_of_parse he).mono hbetween.le_offset hbetween.stop_le

/-- A declaration in a block adds what it adds to the header. -/
theorem declareInBlock_goes {opener tag : Tag} {html : Bool} {block : Block} {nodes : List NodeId}
    (hfr : r.frames = .block opener html block nodes :: below)
    (ht : tag.Between lo r.input.offset)
    (h : declareInBlock r opener html block nodes tag = .ok r') : Goes lo r r' := by
  cases block with
  | template t header =>
    unfold declareInBlock at h
    dsimp only at h
    split at h
    · cases h
    · obtain ⟨header', hheader, h⟩ := exists_of_bind_ok h
      obtain rfl := Except.ok.inj h
      obtain ⟨new, hnew, horder⟩ := declare_goes hheader ht
      -- the header gains expressions behind those it has, and no name of a frame changes
      have hnames : (Frame.block opener html (.template t header') nodes).names =
          (Frame.block opener html (.template t header) nodes).names := rfl
      refine (Goes.replace (r := { r with doc := none }) hfr ?_ hnames horder).of_subperm rfl
        (List.Subperm.refl _) id
      rw [Frame.exprs, Frame.exprs, Block.exprs, Block.exprs, hnew]
      exact List.perm_append_comm.subperm
  | branch | otherwise | loop | binding | message | visualElement | param => cases h

/-- **A tag inside a block.** -/
theorem tagInBlock_goes {opener tag : Tag} {html : Bool} {block : Block} {nodes : List NodeId}
    (hfr : r.frames = .block opener html block nodes :: below)
    (ht : tag.Between lo r.input.offset)
    (h : tagInBlock r opener html block nodes tag = .ok r') : Goes lo r r' := by
  unfold tagInBlock at h
  split at h
  · exact endBlock_goes hfr ht h
  · split at h
    · cases h
    · split at h
      · exact declareInBlock_goes hfr ht h
      · exact .of_startBody (startCommand_goes h (by rwa [input_startBody]))

/-- Text adds no expressions. -/
theorem textInBlock_goes {html : Bool} {block : Block} :
    Goes r.input.offset r (textInBlock r html block) := by
  rcases textInBlock_cases r html block with ⟨n, h⟩ | ⟨n, text, s, h⟩
  · rw [h]
    exact .of_eq rfl rfl (Input.offset_le_drop _ _)
  · have hemit : Goes r.input.offset (startBody { r with input := r.input.drop n })
        ((startBody { r with input := r.input.drop n }).emit (.text text) s) :=
      .emit_plain rfl rfl (by rw [input_startBody]; exact Input.offset_le_drop _ _) s
    rw [h]
    exact .of_moved hemit.of_startBody

/-- The start of an HTML tag adds no expressions. -/
theorem startHtmlTag_goes (h : startHtmlTag r = .ok r') : Goes r.input.offset r r' := by
  cases startHtmlTag_eq_ok_iff.mp h with
  | closeTag =>
    have hafter := ((after_htmlTagName r.input 2).trans (.skipBlanks _)).trans (.drop _ 1)
    exact .of_moved (.emit_plain rfl rfl hafter.offset_le _)
  | openTag => exact .of_moved (.push (after_htmlTagName r.input 1).offset_le rfl)

/-- **One step inside a block.** -/
theorem inBlock_goes {opener : Tag} {html : Bool} {block : Block} {nodes : List NodeId}
    (hfr : r.frames = .block opener html block nodes :: below)
    (h : inBlock r opener html block nodes = .ok r') : Goes r.input.offset r r' := by
  cases inBlock_eq_ok_iff.mp h with
  | comment _ h => exact commentInBlock_goes hfr h
  | @tag _ _ rest _ _ hread h =>
    exact .of_moved (tagInBlock_goes (r := { r with input := rest }) hfr (Tag.between_of_read hread) h)
  | htmlTag _ _ _ _ h =>
    have htag := startHtmlTag_goes h
    rw [input_startBody] at htag
    exact htag.of_startBody
  | text => exact textInBlock_goes

/-- **One step inside a call.** -/
theorem inCall_goes {opener : Tag} {c : Call} (hfr : r.frames = .call opener c :: below)
    (h : inCall r opener c = .ok r') : Goes r.input.offset r r' := by
  have hblanks := (Input.After.skipBlanks r.input).offset_le
  cases inCall_eq_ok_iff.mp h with
  | comment _ h => exact ((skipComment_goes h).mono hblanks).of_moved
  | @ends _ rest _ _ hread =>
    have ht := Tag.between_of_read hread
    refine .mono (.of_moved (i := rest) ?_) hblanks
    exact .complete (r := { r with input := rest }) hfr (List.Subperm.refl _) rfl ht.args.le _
  | param _ hread _ _ h =>
    exact .mono (.of_moved (startParam_goes h (Tag.between_of_read hread))) hblanks

/-- Attributes hold no expressions. -/
theorem addAttribute_goes {name : String} {start : Nat} {value : Option (List NodeId)} {i : Input}
    (hle : lo ≤ i.offset) : Goes lo r (addAttribute r name start value i) := by
  unfold addAttribute
  split
  · next tagStart tag as fs hfs =>
    exact .of_moved (.reframe (r := { r with input := i }) hfs (List.Subperm.refl _) rfl hle)
  · exact .of_eq rfl rfl hle

/-- **One step between the attributes of a tag.** -/
theorem inOpenTag_goes {start : Nat} {name : String} {attributes : List Attribute}
    (hfr : r.frames = .openTag start name attributes :: below)
    (h : inOpenTag r start name attributes = .ok r') : Goes r.input.offset r r' := by
  have hblanks := Input.After.skipBlanks r.input
  -- an end of the tag adds no expression: those of its values are in their nodes
  have hfinish (n : Nat) (closed : Bool) (s : Span) : Goes r.input.offset r
      (({ r with input := r.input.skipBlanks.drop n } : Reading).pop.emit
        (.openTag name attributes.reverse closed) s) :=
    .of_moved (.complete (r := { r with input := r.input.skipBlanks.drop n }) hfr
      (List.Subperm.refl _) rfl (hblanks.trans (.drop _ n)).offset_le s)
  cases inOpenTag_eq_ok_iff.mp h with
  | ends closed => exact hfinish _ _ _
  | goesOn _ _ h =>
    have hvalue := hblanks.trans (after_fromAttributeValue _)
    cases h with
    | plain => exact addAttribute_goes (hblanks.trans (after_afterAttributeName _)).offset_le
    | quoted => exact .of_moved (.push (hvalue.trans (.drop _ 1)).offset_le rfl)
    | unquoted =>
      -- the text of a value is a node without expressions
      have htext : ∀ (text : String) (s : Span),
          Reading.exprs { r with file := (r.file.add (.text text) s).1 } = r.exprs := by
        intro text s
        rw [Reading.exprs, Reading.exprs, TemplateFile.exprs_add]
        exact congrArg (· ++ _) (List.append_nil _)
      refine (addAttribute_goes (hvalue.trans (.takeWhile _ _)).offset_le).of_subperm rfl ?_ fun hr =>
        hr.add (fun _ hs => (List.not_mem_nil hs).elim) _
      rw [htext]

/-- **One step inside the value of an attribute.** -/
theorem inAttributeValue_goes {name : String} {start : Nat} {quote : Char} {nodes : List NodeId}
    (h : inAttributeValue r name start quote nodes = .ok r') : Goes r.input.offset r r' := by
  cases inAttributeValue_eq_ok_iff.mp h with
  | ends => exact (Goes.pop (Nat.le_refl _)).trans (addAttribute_goes (Input.offset_le_drop _ _))
  | command _ _ hread _ _ h => exact .of_moved (startCommand_goes h (Tag.between_of_read hread))
  | text => exact .of_moved (.emit_plain rfl rfl (Input.After.takeWhile r.input _).offset_le _)

/-- A declaration at the top of a file adds no expressions, and the names in it are words. -/
theorem startDeclaration_goes {tag : Tag} (h : startDeclaration r tag = .ok r') :
    Goes r.input.offset r r' := by
  cases declares_of_startDeclaration h with
  | @template _ t _ ht =>
    have hnoted : Goes r.input.offset r { r with doc := none, strict := t.strictHtml } :=
      .of_eq rfl rfl (Nat.le_refl _)
    refine hnoted.trans (.push_named (Nat.le_refl _) fun hr s hs => ?_)
    obtain rfl := List.mem_singleton.mp hs
    exact isWord_of_openTemplate hr.own ht
  | noted _ hf =>
    -- a declaration of the file adds a name at most
    obtain ⟨hnodes, -, hpath, hnames⟩ := hf
    refine ⟨hpath, ⟨[], ?_, Nat.le_refl _⟩, fun hr => ⟨hnames hr.own, ?_, hr.frames⟩⟩
    · rw [Reading.exprs, Reading.exprs, TemplateFile.exprs, TemplateFile.exprs, hnodes]
      exact List.Subperm.refl _
    · rw [hnodes]
      exact hr.nodes

/-- **One step at the top of a file.** -/
theorem atTop_goes (h : atTop r = .ok r') : Goes r.input.offset r r' := by
  have hblanks := (Input.After.skipBlanks r.input).offset_le
  cases atTop_eq_ok_iff.mp h with
  | blank => exact .of_eq rfl rfl hblanks
  | comment _ h => exact ((skipComment_goes h).mono hblanks).of_moved
  | lineComment => exact .of_eq rfl rfl ((Input.After.skipBlanks r.input).trans (.takeWhile _ _)).offset_le
  | declaration _ hread h =>
    have ht := Tag.between_of_read hread
    exact .of_moved ((startDeclaration_goes h).mono (Nat.le_trans hblanks ht.args.le))

/-- **One step** goes on in the text. -/
theorem step_goes (h : step r = .ok r') : Goes r.input.offset r r' := by
  unfold step at h
  split at h
  · exact atTop_goes h
  · next hfr => exact inBlock_goes hfr h
  · next hfr => exact inCall_goes hfr h
  · next hfr => exact inOpenTag_goes hfr h
  · exact inAttributeValue_goes h

/-- **All steps** go on in the text. -/
theorem run_goes {fuel : Nat} {f : TemplateFile} (h : run fuel r = .ok f) :
    ∃ r', r'.file = f ∧ Goes r.input.offset r r' := by
  induction fuel generalizing r with
  | zero => cases h
  | succ fuel ih =>
    unfold run at h
    split at h
    · obtain rfl := Except.ok.inj h
      exact ⟨r, rfl, .of_eq rfl rfl (Nat.le_refl _)⟩
    · obtain ⟨r₁, hstep, h⟩ := exists_of_bind_ok h
      obtain ⟨r', hfile, hgoes⟩ := ih h
      exact ⟨r', hfile, (step_goes hstep).trans hgoes⟩

end Steps

end Markup

/-- A file keeps the path of its source. -/
theorem path_of_parse {source : SourceText} {f : TemplateFile} (h : parse source = .ok f) :
    f.path = source.path := by
  obtain ⟨r', rfl, hgoes⟩ := Markup.run_goes h
  exact hgoes.path_eq

/-- **The names of a source** are words: those that the file has and those of its templates. -/
theorem named_of_parse {source : SourceText} {f : TemplateFile} (h : parse source = .ok f) :
    (∀ s ∈ f.ownNames, Input.IsWord s) ∧ ∀ id, ∀ s ∈ (f.kind id).names, Input.IsWord s := by
  obtain ⟨r', rfl, hgoes⟩ := Markup.run_goes h
  have hnamed := hgoes.named (Markup.Named.start source.path source.content.toList)
  exact ⟨hnamed.own, hnamed.kind⟩

/-- **The expressions of a source** were read one after the other, each once. -/
theorem exprs_of_parse {source : SourceText} {f : TemplateFile} (h : parse source = .ok f) :
    ∃ es stop, f.exprs.Subperm es ∧ Expr.InOrder 0 stop es := by
  obtain ⟨r', rfl, hgoes⟩ := Markup.run_goes h
  obtain ⟨new, hsub, hnew⟩ := hgoes.exprs
  refine ⟨new, _, ?_, hnew⟩
  have hstart : (Markup.Reading.start source.path source.content.toList).exprs = [] := rfl
  rw [hstart, List.append_nil] at hsub
  exact (List.sublist_append_left _ _).subperm.trans hsub

end TemplateFrontend
