import TemplateFrontend.Proofs.Markup.AttributeValues
/-!
# What open tags keep

The attributes of an open tag are read in order, and none that was read is changed or dropped: where the tag is
complete, it starts with those that it had before. A tag that is open in a source that parses is completed.

* `Markup.Frame.HasTaken`, `NodeKind.HasTaken` — an open tag, not yet complete or complete, that took attributes first;
* `Markup.KeepsTags` — all that was taken is kept, with one lemma for each move;
* `Markup.keepsTags_of_step`, `Markup.Returns.exists_took` — one step, and all of them.
-/

namespace TemplateFrontend

namespace TemplateFile

/-- The nodes of the first file are found in the second one. -/
def KeepsNodes (f g : TemplateFile) : Prop :=
  ∀ (id : NodeId) (n : Node), f.nodes[id]? = some n → g.nodes[id]? = some n

theorem keepsNodes_add (f : TemplateFile) (k : NodeKind) (s : Span) : f.KeepsNodes (f.add k s).1 := by
  intro id n h
  obtain ⟨hlt, -⟩ := Array.getElem?_eq_some_iff.mp h
  rwa [TemplateFile.add, Array.getElem?_push_lt hlt, ← Array.getElem?_eq_getElem hlt]

end TemplateFile

/-- The node is an open tag whose attributes start with these, the newest of which is the first. -/
def NodeKind.HasTaken (as : List Attribute) : NodeKind → Prop
  | .openTag _ attributes _ => as.reverse <+: attributes
  | _ => False

namespace Markup

/-- The frame is an open tag whose attributes start with these. Of both lists the newest is the first. -/
def Frame.HasTaken (as : List Attribute) : Frame → Prop
  | .openTag _ _ attributes => as <:+ attributes
  | _ => False

/-- An open tag took these attributes first. -/
def Reading.HasTaken (as : List Attribute) (r : Reading) : Prop :=
  (∃ frame ∈ r.frames, frame.HasTaken as) ∨ ∃ n ∈ r.file.nodes, n.kind.HasTaken as

theorem Reading.nodes_emit (r : Reading) (k : NodeKind) (s : Span) :
    (r.emit k s).file.nodes = r.file.nodes.push ⟨k, s⟩ := by
  unfold emit place
  dsimp only
  split <;> rfl

/-- What open tags took in the first state they still have in the second one, and so do all nodes. -/
structure KeepsTags (r r' : Reading) : Prop where
  nodes : r.file.KeepsNodes r'.file
  took : ∀ as, r.HasTaken as → r'.HasTaken as

variable {r r' r'' : Reading} {frame frame' : Frame} {below : List Frame} {k : NodeKind} {s : Span} {tag : Tag}
  {html : Bool} {opener : Tag} {block : Block} {nodes : List NodeId}

/-! ### Moves -/

namespace KeepsTags

theorem refl (r : Reading) : KeepsTags r r := ⟨fun _ _ h => h, fun _ h => h⟩

theorem trans (h : KeepsTags r r') (h' : KeepsTags r' r'') : KeepsTags r r'' :=
  ⟨fun id n hn => h'.nodes id n (h.nodes id n hn), fun as has => h'.took as (h.took as has)⟩

/-- Neither the input nor documentation matters. -/
theorem of_eq (hnodes : r'.file.nodes = r.file.nodes) (hframes : r'.frames = r.frames) : KeepsTags r r' := by
  refine ⟨fun id n h => hnodes ▸ h, fun as h => ?_⟩
  rwa [Reading.HasTaken, hnodes, hframes]

/-- Only the file and the frames matter. -/
theorem of_moved {i : Input} {doc : Option String} {strict : Bool}
    (h : KeepsTags ⟨i, r.file, doc, strict, r.frames⟩ r') : KeepsTags r r' :=
  ⟨h.nodes, h.took⟩

/-- A frame takes the place of another one, with all that it took. -/
theorem reframe (hnodes : r'.file.nodes = r.file.nodes) (hfr : r.frames = frame :: below)
    (hfr' : r'.frames = frame' :: below) (h : ∀ as, frame.HasTaken as → frame'.HasTaken as) : KeepsTags r r' := by
  refine ⟨fun id n h => hnodes ▸ h, ?_⟩
  rintro as (⟨fr, hmem, htook⟩ | hnode)
  · left
    rw [hfr] at hmem
    rw [hfr']
    obtain rfl | hmem := List.mem_cons.mp hmem
    · exact ⟨frame', List.mem_cons_self, h as htook⟩
    · exact ⟨fr, List.mem_cons_of_mem _ hmem, htook⟩
  · exact .inr (hnodes ▸ hnode)

theorem replace (hfr : r.frames = frame :: below) (h : ∀ as, frame.HasTaken as → frame'.HasTaken as) :
    KeepsTags r (r.replace frame') :=
  reframe rfl hfr (Reading.frames_replace hfr frame') h

theorem push (frame : Frame) : KeepsTags r (r.push frame) := by
  refine ⟨fun _ _ h => h, ?_⟩
  rintro as (⟨fr, hmem, htook⟩ | hnode)
  · exact .inl ⟨fr, List.mem_cons_of_mem _ hmem, htook⟩
  · exact .inr hnode

/-- A frame that is no open tag is closed. -/
theorem pop (hfr : r.frames = frame :: below) (h : ∀ as, ¬ frame.HasTaken as) : KeepsTags r r.pop := by
  refine ⟨fun _ _ h => h, ?_⟩
  rintro as (⟨fr, hmem, htook⟩ | hnode)
  · left
    rw [Reading.frames_pop hfr]
    rw [hfr] at hmem
    obtain rfl | hmem := List.mem_cons.mp hmem
    · exact absurd htook (h as)
    · exact ⟨fr, hmem, htook⟩
  · exact .inr hnode

theorem add (k : NodeKind) (s : Span) : KeepsTags r { r with file := (r.file.add k s).1 } := by
  refine ⟨r.file.keepsNodes_add k s, ?_⟩
  rintro as (hframe | ⟨n, hn, htook⟩)
  · exact .inl hframe
  · exact .inr ⟨n, Array.mem_push_of_mem _ hn, htook⟩

/-- A node takes its place in a frame, which is no open tag where that changes it. -/
theorem emit (k : NodeKind) (s : Span) : KeepsTags r (r.emit k s) := by
  refine (add k s).trans ?_
  unfold Reading.emit Reading.place
  dsimp only
  split
  · exact of_eq rfl rfl
  · next hfr => exact reframe rfl hfr rfl fun _ h => h
  · next hfr => exact reframe rfl hfr rfl fun _ h => h
  · exact refl _
  · exact refl _

/-- A frame is closed and becomes a node, with all that it took. -/
theorem complete (hfr : r.frames = frame :: below) (h : ∀ as, frame.HasTaken as → k.HasTaken as) (s : Span) :
    KeepsTags r (r.pop.emit k s) := by
  have hemit : KeepsTags r.pop (r.pop.emit k s) := emit k s
  refine ⟨hemit.nodes, ?_⟩
  rintro as (⟨fr, hmem, htook⟩ | hnode)
  · rw [hfr] at hmem
    obtain rfl | hmem := List.mem_cons.mp hmem
    · exact .inr ⟨⟨k, s⟩, by rw [Reading.nodes_emit]; exact Array.mem_push_self, h as htook⟩
    · refine hemit.took as (.inl ⟨fr, ?_, htook⟩)
      rwa [Reading.frames_pop hfr]
  · exact hemit.took as (.inr hnode)

/-! ### Steps -/

theorem startBody (r : Reading) : KeepsTags r (startBody r) := by
  unfold Markup.startBody
  split
  · next hfr => exact replace hfr fun _ h => h
  · exact refl r

theorem startCommand (h : startCommand r tag html = .ok r') : KeepsTags r r' := by
  cases begins_of_startCommand h with
  | special | print | value | call => exact emit _ _
  | condition | loop | content | message | visualElement | openCall => exact push _

theorem passParam {p : Passed} (h : passParam r p s = .ok r') : KeepsTags r r' := by
  obtain ⟨call, c, below, hfr, rfl⟩ | rfl := passParam_cases h
  · exact replace hfr fun _ h => h
  · exact refl _

theorem startParam (h : startParam r tag = .ok r') : KeepsTags r r' := by
  obtain ⟨w, i, -, ⟨j, e, -, -, h⟩ | ⟨kind, -, rfl⟩⟩ := startParam_cases h
  · exact passParam h
  · exact push _

theorem endBlock {body : List NodeId} {last : Tag} (hfr : r.frames = .block opener html block nodes :: below)
    (h : endBlock r opener html block body last = .ok r') : KeepsTags r r' := by
  cases block with
  | template | loop | binding | otherwise | message | visualElement =>
    obtain rfl := Except.ok.inj h
    exact complete hfr (fun _ h => h.elim) _
  -- a branch makes room for the next one, or its command is complete
  | branch before cond =>
    unfold Markup.endBlock at h
    dsimp only at h
    split at h
    · obtain ⟨cond', -, h⟩ := exists_of_bind_ok h
      obtain rfl := Except.ok.inj h
      exact replace hfr fun _ h => h
    · split at h
      · obtain rfl := Except.ok.inj h
        exact replace hfr fun _ h => h
      · obtain rfl := Except.ok.inj h
        exact complete hfr (fun _ h => h.elim) _
  | param => exact (pop hfr fun _ h => h).trans (passParam h)

theorem skipComment (h : skipComment r = .ok r') : KeepsTags r r' := by
  obtain ⟨hfile, hframes⟩ := skipComment_keeps h
  exact of_eq (congrArg TemplateFile.nodes hfile) hframes

theorem commentInBlock (hfr : r.frames = .block opener html block nodes :: below)
    (h : commentInBlock r opener html block nodes = .ok r') : KeepsTags r r' := by
  obtain ⟨after, hafter, h⟩ := exists_of_bind_ok h
  refine (skipComment hafter).trans ?_
  cases block with
  | template =>
    obtain rfl := Except.ok.inj h
    have hfr' := (skipComment_keeps hafter).2.trans hfr
    exact reframe rfl hfr' (Reading.frames_replace hfr' _) fun _ h => h
  | branch | otherwise | loop | binding | message | visualElement | param =>
    obtain rfl := Except.ok.inj h
    exact of_eq rfl rfl

theorem declareInBlock (hfr : r.frames = .block opener html block nodes :: below)
    (h : declareInBlock r opener html block nodes tag = .ok r') : KeepsTags r r' := by
  cases block with
  | template t header =>
    unfold Markup.declareInBlock at h
    dsimp only at h
    split at h
    · cases h
    · obtain ⟨header', -, h⟩ := exists_of_bind_ok h
      obtain rfl := Except.ok.inj h
      exact reframe rfl hfr (Reading.frames_replace (r := { r with doc := none }) hfr _) fun _ h => h
  | branch | otherwise | loop | binding | message | visualElement | param => cases h

theorem tagInBlock (hfr : r.frames = .block opener html block nodes :: below)
    (h : tagInBlock r opener html block nodes tag = .ok r') : KeepsTags r r' := by
  unfold Markup.tagInBlock at h
  split at h
  · exact endBlock hfr h
  · split at h
    · cases h
    · split at h
      · exact declareInBlock hfr h
      · exact (startBody r).trans (startCommand h)

theorem startHtmlTag (h : startHtmlTag r = .ok r') : KeepsTags r r' := by
  cases startHtmlTag_eq_ok_iff.mp h with
  | closeTag => exact of_moved (emit _ _)
  | openTag => exact of_moved (push _)

theorem inBlock (hfr : r.frames = .block opener html block nodes :: below)
    (h : inBlock r opener html block nodes = .ok r') : KeepsTags r r' := by
  cases inBlock_eq_ok_iff.mp h with
  | comment _ h => exact commentInBlock hfr h
  | tag _ _ h => exact of_moved (tagInBlock (by exact hfr) h)
  | htmlTag _ _ _ _ h => exact (startBody r).trans (startHtmlTag h)
  | text =>
    obtain ⟨n, htext⟩ | ⟨n, text, s, htext⟩ := textInBlock_cases r html block
    · rw [htext]
      exact of_eq rfl rfl
    · rw [htext]
      exact of_moved ((startBody _).trans (emit _ _))

theorem inCall {c : Call} (hfr : r.frames = .call opener c :: below) (h : inCall r opener c = .ok r') :
    KeepsTags r r' := by
  cases inCall_eq_ok_iff.mp h with
  | comment _ h => exact of_moved (skipComment h)
  | ends => exact (pop hfr fun _ h => h).trans (of_moved (emit _ _))
  | param _ _ _ _ h => exact of_moved (startParam h)

/-- An attribute comes after those that were taken. -/
theorem addAttribute (r : Reading) (name : String) (start : Nat) (value : Option (List NodeId)) (i : Input) :
    KeepsTags r (addAttribute r name start value i) := by
  unfold Markup.addAttribute
  split
  · next hfr =>
    refine of_moved (replace (by exact hfr) fun as has => ?_)
    exact List.IsSuffix.trans has (List.suffix_cons _ _)
  · exact of_eq rfl rfl

theorem inOpenTag {start : Nat} {name : String} {as : List Attribute}
    (hfr : r.frames = .openTag start name as :: below) (h : inOpenTag r start name as = .ok r') :
    KeepsTags r r' := by
  cases inOpenTag_eq_ok_iff.mp h with
  | ends closed =>
    -- moving the input touches no frame
    have hmoved : ({ r with input := r.input.skipBlanks.drop (tagEnd closed).length } : Reading).frames =
      .openTag start name as :: below := hfr
    refine of_moved (complete hmoved (fun taken htook => ?_) _)
    exact List.reverse_prefix.mpr htook
  | goesOn _ _ h =>
    cases h with
    | plain => exact addAttribute _ _ _ _ _
    | quoted => exact of_moved (push _)
    | unquoted =>
      exact (add _ _).trans (addAttribute _ _ _ _ _)

theorem inAttributeValue {name : String} {start : Nat} {quote : Char}
    (hfr : r.frames = .attributeValue name start quote nodes :: below)
    (h : inAttributeValue r name start quote nodes = .ok r') : KeepsTags r r' := by
  cases inAttributeValue_eq_ok_iff.mp h with
  | ends => exact (pop hfr fun _ h => h).trans (addAttribute _ _ _ _ _)
  | command _ _ _ _ _ h => exact of_moved (startCommand h)
  | text => exact of_moved (emit _ _)

theorem startDeclaration (h : startDeclaration r tag = .ok r') : KeepsTags r r' := by
  cases declares_of_startDeclaration h with
  | template => exact of_moved (push _)
  | noted _ hf => exact of_eq hf.nodes_eq rfl

theorem atTop (h : atTop r = .ok r') : KeepsTags r r' := by
  cases atTop_eq_ok_iff.mp h with
  | blank | lineComment => exact of_eq rfl rfl
  | comment _ h => exact of_moved (skipComment h)
  | declaration _ _ h => exact of_moved (startDeclaration h)

/-- **One step.** -/
theorem step (h : step r = .ok r') : KeepsTags r r' := by
  unfold Markup.step at h
  split at h
  · exact atTop h
  · next hfr => exact inBlock hfr h
  · next hfr => exact inCall hfr h
  · next hfr => exact inOpenTag hfr h
  · next hfr => exact inAttributeValue hfr h

end KeepsTags

/-- **All steps.** In the end nothing is open, so the tag is complete. -/
theorem Returns.exists_took {a : Except SyntaxError TemplateFile} {f : TemplateFile} {as : List Attribute}
    (h : Returns r a) (ha : a = .ok f) (htook : r.HasTaken as) :
    r.file.KeepsNodes f ∧ ∃ n ∈ f.nodes, n.kind.HasTaken as := by
  induction h with
  | done hdone =>
    obtain rfl := Except.ok.inj ha
    refine ⟨fun _ _ h => h, ?_⟩
    -- at the end no frame is open, so the tag is a node of the file
    obtain ⟨frame, hmem, -⟩ | hnode := htook
    · rw [Reading.isDone, Bool.and_eq_true, List.isEmpty_iff, List.isEmpty_iff] at hdone
      rw [hdone.2] at hmem
      cases hmem
    · exact hnode
  | fails => cases ha
  | goes _ hstep _ ih =>
    have hkeeps := KeepsTags.step hstep
    obtain ⟨hnodes, hnode⟩ := ih ha (hkeeps.took as htook)
    exact ⟨fun id n h => hnodes id n (hkeeps.nodes id n h), hnode⟩

end Markup

end TemplateFrontend
