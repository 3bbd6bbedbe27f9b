import TemplateFrontend.Proofs.Markup.Progress
/-!
# What reading keeps of nodes and open blocks

Reading makes nodes and opens blocks in few ways, and few of them read a name: a header, a loop, a `{let}` and
an HTML tag do. So a property of single nodes, open blocks and open tags is kept by all steps if it is by those.

* `NodeKind.BindsNothing`, `Markup.Block.BindsNothing` — nodes and blocks for which no name is read;
* `Markup.Tracks` — properties of nodes, of open blocks and of open tags that reading keeps, with one field for
  each way in which one is made that reads a name;
* `Markup.Kept` — they hold in a state, with one lemma for each move;
* `Markup.Kept.step`, `Markup.Kept.run` — one step and all of them.
-/

namespace TemplateFrontend

/-- The node binds no name, nor has it any of an HTML tag. -/
def NodeKind.BindsNothing : NodeKind → Prop
  | .template _ | .loop _ _ _ | .binding _ _ | .openTag _ _ _ => False
  | _ => True

namespace Markup

/-- The block is the beginning of a node that binds no name. -/
def Block.BindsNothing : Block → Prop
  | .template _ _ | .loop _ _ | .binding _ _ => False
  | _ => True

/-- Properties of the input, of nodes, of open blocks where the input stands, and of open tags with their
attributes, the newest first, that reading keeps: they hold of what is started and of what is complete, and
headers and attributes keep them. -/
structure Tracks (I : Input → Prop) (P : NodeKind → Prop) (Q : Input → Block → Prop)
    (T : String → List Attribute → Prop) : Prop where
  input : ∀ {i j : Input}, i.After j → I i → I j
  node : ∀ {k : NodeKind}, k.BindsNothing → P k
  block : ∀ {i : Input} {b : Block}, b.BindsNothing → Q i b
  after : ∀ {i j : Input} {b : Block}, i.After j → Q i b → Q j b
  /-- A template is opened with an empty header. -/
  header : ∀ {i : Input} {t : Template}, Q i (.template t ⟨[], [], false, none⟩)
  closeHeader : ∀ {i : Input} {b : Block}, Q i b → Q i b.closeHeader
  declare : ∀ {i : Input} {t : Template} {header header' : Header} {doc : Option String} {tag : Tag},
    I i → Q i (.template t header) → declare header doc tag i = .ok header' → Q i (.template t header')
  attachDoc : ∀ {i rest : Input} {t : Template} {header : Header} {doc : Option String},
    Q i (.template t header) → Q i (.template t (attachDoc header rest doc).1)
  template : ∀ {i : Input} {t : Template} {header : Header} {body : List NodeId},
    Q i (.template t header) →
      P (.template { t with params := header.params, state := header.state, body })
  startLoop : ∀ {i : Input} {offset : Nat} {cs : List Char} {x : String} {list : Expr},
    Expr.parseLoop offset cs = .ok (x, list) → Q i (.loop x list)
  loop : ∀ {i : Input} {x : String} {list : Expr} {body : List NodeId},
    Q i (.loop x list) → P (.loop x list body)
  startValue : ∀ {i j : Input} {expected x : String} {w : String × Span} {e : Expr},
    i.word expected = .ok (w, j) → w.1.toList = '$' :: x.toList → P (.binding x (.value e))
  startContent : ∀ {l i j : Input} {expected x : String} {w : String × Span} {kind : ContentKind},
    i.word expected = .ok (w, j) → w.1.toList = '$' :: x.toList → Q l (.binding x kind)
  content : ∀ {i : Input} {x : String} {kind : ContentKind} {body : List NodeId},
    Q i (.binding x kind) → P (.binding x (.content kind body))
  startTag : ∀ {i : Input}, startsTag i.rest = true → i.rest.tail.head? ≠ some '/' →
    T (String.ofList (htmlTagName i 1).1) []
  takeAttribute : ∀ {i : Input} {name : String} {as : List Attribute} {value : Option (List NodeId)} {s : Span},
    attributeName i ≠ [] → T name as → T name (⟨String.ofList (attributeName i), value, s⟩ :: as)
  tag : ∀ {name : String} {as : List Attribute} {closed : Bool}, T name as → P (.openTag name as.reverse closed)

/-- The properties of open blocks and of open tags, for frames. The name of a value that is open was read as one
of an attribute. -/
def Frame.Keeps (Q : Input → Block → Prop) (T : String → List Attribute → Prop) (i : Input) : Frame → Prop
  | .block _ _ inner _ => Q i inner
  | .openTag _ name as => T name as
  | .attributeValue name _ _ _ => ∃ j, attributeName j ≠ [] ∧ name = String.ofList (attributeName j)
  | .call _ _ => True

/-- The properties hold of the input, of all nodes and of all that is open in a state. -/
structure Kept (I : Input → Prop) (P : NodeKind → Prop) (Q : Input → Block → Prop)
    (T : String → List Attribute → Prop) (r : Reading) : Prop where
  input : I r.input
  nodes : ∀ n ∈ r.file.nodes, P n.kind
  frames : ∀ frame ∈ r.frames, frame.Keeps Q T r.input

/-! ### Moves -/

namespace Kept

variable {I : Input → Prop} {P : NodeKind → Prop} {Q : Input → Block → Prop}
  {T : String → List Attribute → Prop} {r r' : Reading}
  {frame : Frame} {below : List Frame} {k : NodeKind} {i : Input} {doc : Option String} {strict : Bool}
  {s : Span}

/-- At the first character nothing is known of yet but the input. -/
theorem start (path : String) {content : List Char} (h : I ⟨0, content⟩) :
    Kept I P Q T (.start path content) :=
  ⟨h, fun _ hn => absurd hn (Array.not_mem_empty _), fun _ hframe => absurd hframe List.not_mem_nil⟩

/-- The input moves on. Documentation and strictness do not matter. -/
theorem moved (hT : Tracks I P Q T) (h : Kept I P Q T r) (hi : r.input.After i) :
    Kept I P Q T ⟨i, r.file, doc, strict, r.frames⟩ := by
  refine ⟨hT.input hi h.input, h.nodes, fun frame hframe => ?_⟩
  have hkept := h.frames frame hframe
  cases frame with
  | block => exact hT.after hi hkept
  | call | openTag | attributeValue => exact hkept

/-- A state with the same nodes and frames, further on in the input. -/
theorem congr (hT : Tracks I P Q T) (h : Kept I P Q T r) (hi : r.input.After r'.input)
    (hnodes : r'.file.nodes = r.file.nodes) (hframes : r'.frames = r.frames) : Kept I P Q T r' := by
  have hmoved : Kept I P Q T ⟨r'.input, r.file, none, false, r.frames⟩ := h.moved hT hi
  exact ⟨hmoved.input, hnodes ▸ hmoved.nodes, hframes ▸ hmoved.frames⟩

/-- The properties hold of the frame opened last. -/
theorem innermost (h : Kept I P Q T r) (hfr : r.frames = frame :: below) : frame.Keeps Q T r.input :=
  h.frames frame (hfr ▸ List.mem_cons_self)

/-- A new node has the property. -/
theorem add (h : Kept I P Q T r) (hk : P k) : Kept I P Q T { r with file := (r.file.add k s).1 } := by
  refine ⟨h.input, fun n hn => ?_, h.frames⟩
  obtain hn | rfl := Array.mem_push.mp hn
  · exact h.nodes n hn
  · exact hk

/-- A node is put where it belongs, and nothing else changes. -/
theorem emit (h : Kept I P Q T r) (hk : P k) : Kept I P Q T (r.emit k s) := by
  obtain ⟨hinput, hnodes, hframes⟩ := h.add (s := s) hk
  unfold Reading.emit Reading.place
  dsimp only
  split
  · exact ⟨hinput, hnodes, hframes⟩
  -- the node goes to a block, of which only the nodes change
  · next hfr =>
    rw [hfr, List.forall_mem_cons] at hframes
    exact ⟨hinput, hnodes, List.forall_mem_cons.mpr hframes⟩
  · next hfr =>
    rw [hfr, List.forall_mem_cons] at hframes
    exact ⟨hinput, hnodes, List.forall_mem_cons.mpr hframes⟩
  · exact ⟨hinput, hnodes, hframes⟩
  · exact ⟨hinput, hnodes, hframes⟩

/-- A frame is opened with the property. -/
theorem push (h : Kept I P Q T r) (hframe : frame.Keeps Q T r.input) : Kept I P Q T (r.push frame) :=
  ⟨h.input, h.nodes, List.forall_mem_cons.mpr ⟨hframe, h.frames⟩⟩

/-- A frame is closed. -/
theorem pop (h : Kept I P Q T r) : Kept I P Q T r.pop :=
  ⟨h.input, h.nodes, fun frame hframe => h.frames frame (List.mem_of_mem_tail hframe)⟩

/-- A frame is put in place of the last one. -/
theorem replace (h : Kept I P Q T r) (hframe : frame.Keeps Q T r.input) : Kept I P Q T (r.replace frame) :=
  h.pop.push hframe

/-- The header of a template ends. -/
theorem startBody (hT : Tracks I P Q T) (h : Kept I P Q T r) : Kept I P Q T (startBody r) := by
  unfold Markup.startBody
  split
  · next opener html block nodes fs hfr =>
    have hblock : Q r.input block := h.innermost hfr
    exact h.replace (hT.closeHeader hblock)
  · exact h

/-! ### The steps inside each kind of frame -/

variable {tag : Tag} {html : Bool}

/-- **A command is started**: a loop or a `{let}` reads a name, other commands read none. -/
theorem startCommand (hT : Tracks I P Q T) (hr : Kept I P Q T r) (h : startCommand r tag html = .ok r') :
    Kept I P Q T r' := by
  cases begins_of_startCommand h with
  | special | print | call => exact hr.emit (hT.node trivial)
  | condition | message | visualElement => exact hr.push (hT.block trivial)
  | openCall => exact hr.push trivial
  | loop _ hlist => exact hr.push (hT.startLoop hlist)
  | value _ hword _ _ hdollar => exact hr.emit (hT.startValue hword hdollar)
  | content _ hword _ hdollar => exact hr.push (hT.startContent hword hdollar)

/-- A parameter goes to its call. -/
theorem passParam {p : Passed} (hr : Kept I P Q T r) (h : passParam r p s = .ok r') : Kept I P Q T r' := by
  obtain ⟨tag, c, fs, -, rfl⟩ | rfl := passParam_cases h
  · exact hr.replace trivial
  · exact hr

/-- A parameter is passed, or its content is opened. -/
theorem startParam (hT : Tracks I P Q T) (hr : Kept I P Q T r) (h : startParam r tag = .ok r') :
    Kept I P Q T r' := by
  obtain ⟨w, i, -, ⟨j, e, -, -, h⟩ | ⟨kind, -, rfl⟩⟩ := startParam_cases h
  · exact hr.passParam h
  · exact hr.push (hT.block trivial)

/-- **The end of a block.** What is known of the block is known of the node that is complete. -/
theorem endBlock {opener last : Tag} {block : Block} {nodes body : List NodeId} (hT : Tracks I P Q T)
    (hfr : r.frames = .block opener html block nodes :: below) (hr : Kept I P Q T r)
    (h : endBlock r opener html block body last = .ok r') : Kept I P Q T r' := by
  -- the innermost frame is the block that ends
  have hblock : Q r.input block := hr.innermost hfr
  cases block with
  | template =>
    obtain rfl := Except.ok.inj h
    exact hr.pop.emit (hT.template hblock)
  | loop =>
    obtain rfl := Except.ok.inj h
    exact hr.pop.emit (hT.loop hblock)
  | binding =>
    obtain rfl := Except.ok.inj h
    exact hr.pop.emit (hT.content hblock)
  | otherwise | message | visualElement =>
    obtain rfl := Except.ok.inj h
    exact hr.pop.emit (hT.node trivial)
  | branch before cond =>
    unfold Markup.endBlock at h
    dsimp only at h
    -- a branch ends with another condition, without one, or for good
    split at h
    · obtain ⟨cond', -, h⟩ := exists_of_bind_ok h
      obtain rfl := Except.ok.inj h
      exact hr.replace (hT.block trivial)
    · split at h
      · obtain rfl := Except.ok.inj h
        exact hr.replace (hT.block trivial)
      · obtain rfl := Except.ok.inj h
        exact hr.pop.emit (hT.node trivial)
  | param x kind => exact hr.pop.passParam h

/-- A comment is skipped. -/
theorem skipComment (hT : Tracks I P Q T) (hr : Kept I P Q T r) (h : skipComment r = .ok r') :
    Kept I P Q T r' := by
  obtain ⟨hfile, hframes⟩ := skipComment_keeps h
  exact hr.congr hT (skipComment_after h) (congrArg TemplateFile.nodes hfile) hframes

/-- A comment inside a block may be documentation. -/
theorem commentInBlock {opener : Tag} {block : Block} {nodes : List NodeId} (hT : Tracks I P Q T)
    (hfr : r.frames = .block opener html block nodes :: below) (hr : Kept I P Q T r)
    (h : commentInBlock r opener html block nodes = .ok r') : Kept I P Q T r' := by
  obtain ⟨after, hafter, h⟩ := exists_of_bind_ok h
  have hkept := hr.skipComment hT hafter
  cases block with
  | template t header =>
    have hfr' := (skipComment_keeps hafter).2.trans hfr
    -- only the header of a template takes it
    have hheader : Q after.input (.template t header) := hkept.innermost hfr'
    obtain rfl := Except.ok.inj h
    exact (hkept.moved hT (.refl _)).replace (hT.attachDoc hheader)
  | branch | otherwise | loop | binding | message | visualElement | param =>
    obtain rfl := Except.ok.inj h
    exact hkept.moved hT (.refl _)

/-- A declaration goes to its header. -/
theorem declareInBlock {opener : Tag} {block : Block} {nodes : List NodeId} (hT : Tracks I P Q T)
    (hfr : r.frames = .block opener html block nodes :: below) (hr : Kept I P Q T r)
    (h : declareInBlock r opener html block nodes tag = .ok r') : Kept I P Q T r' := by
  cases block with
  | template t header =>
    -- only a template has a header to declare in
    have hheader : Q r.input (.template t header) := hr.innermost hfr
    unfold Markup.declareInBlock at h
    dsimp only at h
    split at h
    · cases h
    · obtain ⟨header', hread, h⟩ := exists_of_bind_ok h
      obtain rfl := Except.ok.inj h
      exact (hr.moved hT (.refl _)).replace (hT.declare hr.input hheader hread)
  | branch | otherwise | loop | binding | message | visualElement | param => cases h

/-- **A tag inside a block.** -/
theorem tagInBlock {opener : Tag} {block : Block} {nodes : List NodeId} (hT : Tracks I P Q T)
    (hfr : r.frames = .block opener html block nodes :: below) (hr : Kept I P Q T r)
    (h : tagInBlock r opener html block nodes tag = .ok r') : Kept I P Q T r' := by
  unfold Markup.tagInBlock at h
  split at h
  · exact hr.endBlock hT hfr h
  · split at h
    · cases h
    · split at h
      · exact hr.declareInBlock hT hfr h
      · exact (hr.startBody hT).startCommand hT h

/-- An HTML tag is opened, or it is a closing one. -/
theorem startHtmlTag (hT : Tracks I P Q T) (hr : Kept I P Q T r) (hstarts : startsTag r.input.rest = true)
    (h : startHtmlTag r = .ok r') : Kept I P Q T r' := by
  cases startHtmlTag_eq_ok_iff.mp h with
  | closeTag =>
    have hafter := ((after_htmlTagName r.input 2).trans (.skipBlanks _)).trans (.drop _ 1)
    exact (hr.moved hT hafter).emit (hT.node trivial)
  | openTag hslash => exact (hr.moved hT (after_htmlTagName r.input 1)).push (hT.startTag hstarts hslash)

/-- **One step inside a block.** -/
theorem inBlock {opener : Tag} {block : Block} {nodes : List NodeId} (hT : Tracks I P Q T)
    (hfr : r.frames = .block opener html block nodes :: below) (hr : Kept I P Q T r)
    (h : inBlock r opener html block nodes = .ok r') : Kept I P Q T r' := by
  cases inBlock_eq_ok_iff.mp h with
  | comment _ h => exact hr.commentInBlock hT hfr h
  | tag _ hread h =>
    obtain ⟨body, -, rfl, -⟩ := exists_of_read hread
    exact tagInBlock (r := { r with input := r.input.drop (body.length + 2) }) hT hfr
      (hr.moved hT (.drop _ _)) h
  | htmlTag _ _ _ hstarts h =>
    rw [Bool.and_eq_true, ← input_startBody r] at hstarts
    exact (hr.startBody hT).startHtmlTag hT hstarts.2 h
  -- of text nothing may be left once its lines are joined
  | text =>
    obtain ⟨n, htext⟩ | ⟨n, text, s, htext⟩ := textInBlock_cases r html block
    · rw [htext]
      exact hr.moved hT (.drop _ n)
    · rw [htext]
      exact ((hr.moved hT (.drop _ n)).startBody hT).emit (hT.node trivial)

/-- **One step inside a call.** -/
theorem inCall {opener : Tag} {c : Call} (hT : Tracks I P Q T) (hr : Kept I P Q T r)
    (h : inCall r opener c = .ok r') : Kept I P Q T r' := by
  have hskipped := Input.After.skipBlanks r.input
  have hmoved {tag : Tag} {rest : Input} (hread : Tag.read r.input.skipBlanks = .ok (tag, rest)) :
      Kept I P Q T { r with input := rest } := by
    obtain ⟨body, -, rfl, -⟩ := exists_of_read hread
    exact hr.moved hT (hskipped.trans (.drop _ _))
  cases inCall_eq_ok_iff.mp h with
  | comment _ h => exact (hr.moved hT hskipped).skipComment hT h
  | ends _ hread => exact (hmoved hread).pop.emit (hT.node trivial)
  | param _ hread _ _ h => exact (hmoved hread).startParam hT h

/-- An attribute goes to its tag. -/
theorem addAttribute {name : String} {start : Nat} {value : Option (List NodeId)} (hT : Tracks I P Q T)
    (hr : Kept I P Q T r) (hi : r.input.After i)
    (hname : ∃ j, attributeName j ≠ [] ∧ name = String.ofList (attributeName j)) :
    Kept I P Q T (addAttribute r name start value i) := by
  unfold Markup.addAttribute
  split
  · next hfr =>
    obtain ⟨j, hne, rfl⟩ := hname
    exact (hr.moved hT hi).replace (hT.takeAttribute hne (hr.innermost hfr))
  · exact hr.moved hT hi

/-- **One step between the attributes of a tag.** -/
theorem inOpenTag {start : Nat} {name : String} {attributes : List Attribute} (hT : Tracks I P Q T)
    (hfr : r.frames = .openTag start name attributes :: below) (hr : Kept I P Q T r)
    (h : inOpenTag r start name attributes = .ok r') : Kept I P Q T r' := by
  have hskipped := Input.After.skipBlanks r.input
  have htag : T name attributes := hr.innermost hfr
  cases inOpenTag_eq_ok_iff.mp h with
  | ends closed => exact (hr.moved hT (hskipped.trans (.drop _ _))).pop.emit (hT.tag htag)
  | goesOn _ _ h =>
    have hvalue := hskipped.trans (after_fromAttributeValue _)
    cases h with
    -- an attribute without a value, one with a quote, and one with neither
    | plain hname => exact hr.addAttribute hT (hskipped.trans (after_afterAttributeName _)) ⟨_, hname, rfl⟩
    | quoted hname => exact (hr.moved hT (hvalue.trans (.drop _ 1))).push ⟨_, hname, rfl⟩
    | unquoted hname =>
      refine addAttribute hT (hr.add (hT.node ?_)) (hvalue.trans (.takeWhile _ _)) ⟨_, hname, rfl⟩
      trivial

/-- **One step inside the value of an attribute.** -/
theorem inAttributeValue {name : String} {start : Nat} {quote : Char} {nodes : List NodeId}
    (hT : Tracks I P Q T) (hfr : r.frames = .attributeValue name start quote nodes :: below)
    (hr : Kept I P Q T r) (h : inAttributeValue r name start quote nodes = .ok r') : Kept I P Q T r' := by
  cases inAttributeValue_eq_ok_iff.mp h with
  | ends => exact hr.pop.addAttribute hT (.drop _ 1) (hr.innermost hfr)
  | command _ _ hread _ _ h =>
    obtain ⟨body, -, rfl, -⟩ := exists_of_read hread
    exact (hr.moved hT (.drop _ _)).startCommand hT h
  | text => exact (hr.moved hT (.takeWhile _ _)).emit (hT.node trivial)

/-- A declaration of the file is no node, unless it opens a template. -/
theorem startDeclaration (hT : Tracks I P Q T) (hr : Kept I P Q T r) (h : startDeclaration r tag = .ok r') :
    Kept I P Q T r' := by
  cases declares_of_startDeclaration h with
  | template => exact (hr.moved hT (.refl _)).push hT.header
  | noted _ hf => exact hr.congr hT (.refl _) hf.nodes_eq rfl

/-- **One step at the top of a file.** -/
theorem atTop (hT : Tracks I P Q T) (hr : Kept I P Q T r) (h : atTop r = .ok r') : Kept I P Q T r' := by
  have hskipped := Input.After.skipBlanks r.input
  cases atTop_eq_ok_iff.mp h with
  | blank => exact hr.moved hT hskipped
  | comment _ h => exact (hr.moved hT hskipped).skipComment hT h
  | lineComment => exact hr.moved hT (hskipped.trans (.takeWhile _ _))
  | declaration _ hread h =>
    obtain ⟨body, -, rfl, -⟩ := exists_of_read hread
    exact (hr.moved hT (hskipped.trans (.drop _ _))).startDeclaration hT h

/-- **One step** keeps the properties. -/
theorem step (hT : Tracks I P Q T) (hr : Kept I P Q T r) (h : step r = .ok r') : Kept I P Q T r' := by
  unfold Markup.step at h
  split at h
  · exact hr.atTop hT h
  · next hfr => exact hr.inBlock hT hfr h
  · exact hr.inCall hT h
  · next hfr => exact hr.inOpenTag hT hfr h
  · next hfr => exact hr.inAttributeValue hT hfr h

/-- **All steps** keep the properties. -/
theorem run {fuel : Nat} {f : TemplateFile} (hT : Tracks I P Q T) (hr : Kept I P Q T r)
    (h : run fuel r = .ok f) : ∀ n ∈ f.nodes, P n.kind := by
  induction fuel generalizing r with
  | zero => cases h
  | succ fuel ih =>
    unfold Markup.run at h
    split at h
    · obtain rfl := Except.ok.inj h
      exact hr.nodes
    · obtain ⟨r', hstep, h⟩ := exists_of_bind_ok h
      exact ih (hr.step hT hstep) h

end Kept

/-- What is kept of nodes holds of every node of a source that parses. -/
theorem Tracks.of_parse {I : Input → Prop} {P : NodeKind → Prop} {Q : Input → Block → Prop}
    {T : String → List Attribute → Prop}
    (hT : Tracks I P Q T) {source : SourceText} {f : TemplateFile} (h : parse source = .ok f)
    (hinput : I ⟨0, source.content.toList⟩) (id : NodeId) : P (f.kind id) := by
  have hnodes := Kept.run hT (.start source.path hinput) h
  unfold TemplateFile.kind
  cases hget : f.nodes[id]? with
  | none => exact hT.node trivial
  | some node => exact hnodes node (Array.mem_of_getElem? hget)

end Markup

end TemplateFrontend
