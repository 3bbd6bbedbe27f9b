import TemplateFrontend.Proofs.Markup.Commands
import TemplateFrontend.Proofs.Markup.Names
import TemplateFrontend.Proofs.Markup.OpenFrames
import TemplateFrontend.Proofs.Markup.StepCases
import TemplateFrontend.Proofs.Readers
/-!
# Every source that parses gives a forest

Each step of reading a file keeps the invariant `Sound`, and at the end, with nothing open, it says
that the table holds a forest whose roots are the templates.

* `Starts` — what starting a command does: a new node without lists or a new frame;
* `endBlock_sound`, `inBlock_sound`, `inCall_sound`, `inOpenTag_sound`, `inAttributeValue_sound` — the
  steps inside each kind of frame;
* `step_sound`, `run_sound` — one step and all of them;
* `parse_forest` — the forest of a source that parses.
-/

namespace TemplateFrontend

namespace Markup

open TemplateFile

/-! ### Starting commands -/

/-- A command was started: it is complete and has no lists, or it is open and holds nothing yet. -/
inductive Starts (r : Reading) : Reading → Prop
  | leaf {k : NodeKind} (s : Span) (hk : k.bodies = []) (hfits : k.fitsValue = true) :
    Starts r (r.emit k s)
  | frame {frame : Frame} (hheld : frame.held = []) (hvalues : frame.values = [])
    (hfits : ∀ below, below ≠ [] → frame.Fits below) : Starts r (r.push frame)

/-- What a command starts with holds no nodes yet, so nothing moves. -/
theorem Starts.sound {r r' : Reading} (hs : Starts r r') (h : Sound r.file r.frames)
    (hne : r.frames ≠ []) : Sound r'.file r'.frames := by
  cases hs with
  | leaf s hk hfits =>
    refine h.emit_leaf hk ?_
    unfold FitsOn
    split
    · next hnil => exact absurd hnil hne
    · exact hfits
    · trivial
  | frame hheld hvalues hfits => exact h.push hheld hvalues (hfits _ hne)

section Commands

variable {r r' : Reading} {tag : Tag} {html : Bool}

/-- A command that starts is as above, or it is a condition, which is put on the stack by itself. -/
theorem startCommand_cases (h : startCommand r tag html = .ok r') :
    Starts r r' ∨
      tag.name = "if" ∧ ∃ cond, r' = r.push (.block tag html (.branch [] cond) []) := by
  cases begins_of_startCommand h with
  | special | print | value => exact .inl (.leaf _ rfl rfl)
  | condition hname => exact .inr ⟨hname, _, rfl⟩
  | loop | content | message | visualElement => exact .inl (.frame rfl rfl fun _ hb => hb)
  | call _ hpassed =>
    refine .inl (.leaf _ ?_ rfl)
    rw [NodeKind.bodies, hpassed]
    rfl
  -- a call holds what it passes, and it passes nothing yet
  | openCall _ hpassed =>
    refine .inl (.frame ?_ rfl fun _ hb => hb)
    rw [Frame.held, hpassed]
    rfl

end Commands

/-! ### The steps inside each kind of frame -/

section Steps

variable {r r' : Reading} {below : List Frame}

/-- The parameter that a call is given holds what the frame before it held. -/
theorem passParam_sound {p : Passed} {s : Span} (h : passParam r p s = .ok r')
    (hr : Sound r.file r.frames)
    (hheld : r.file.HoldsBelow
      ((p.bound.body?.getD []) ++ (r.frames.flatMap Frame.held ++ r.file.templates))) :
    Sound r'.file r'.frames := by
  obtain ⟨tag, c, fs, hfs, rfl⟩ | rfl := passParam_cases h
  -- what the call holds is what it held and the body of the parameter
  · rw [Reading.frames_replace hfs]
    rw [hfs] at hr hheld
    refine ⟨hheld.perm ?_, hr.shaped.templates, ⟨?_, hr.shaped.stacked.2⟩, ?_, hr.shaped.tags⟩
    · rw [List.flatMap_cons, List.flatMap_cons, Frame.held, Frame.held]
      have hlast : (([p].filterMap (·.bound.body?)).flatten) = p.bound.body?.getD [] := by
        cases hb : p.bound.body? <;> simp [hb]
      rw [List.filterMap_append, List.flatten_append, hlast]
      simp only [List.append_assoc]
      exact List.perm_append_comm_assoc _ _ _
    · exact hr.shaped.stacked.1
    · exact List.forall_mem_cons.mpr (List.forall_mem_cons.mp hr.shaped.values)
  · exact hr

/-- A parameter that starts has no nodes, whether it is complete at once or has a body to come. -/
theorem startParam_sound {tag : Tag} (h : startParam r tag = .ok r')
    (hr : Sound r.file r.frames) (hne : r.frames ≠ []) : Sound r'.file r'.frames := by
  obtain ⟨w, i, -, ⟨j, e, -, -, h⟩ | ⟨kind, -, rfl⟩⟩ := startParam_cases h
  · exact passParam_sound h hr hr.held
  · exact hr.push rfl rfl hne

/-- **The end of a block.** The node that is complete takes in what the block held. -/
theorem endBlock_sound {opener last : Tag} {html : Bool} {block : Block} {nodes : List NodeId}
    (hfr : r.frames = .block opener html block nodes :: below) (hr : Sound r.file r.frames)
    (h : endBlock r opener html block nodes.reverse last = .ok r') :
    Sound r'.file r'.frames := by
  rw [hfr] at hr
  have hfit := hr.shaped.stacked.1
  -- a block that is no template and no condition stands on something
  have hon : below ≠ [] → ∀ k : NodeKind, k.fitsValue = true → FitsOn k below := by
    intro hne k hk
    unfold FitsOn
    split
    · exact absurd rfl hne
    · exact hk
    · trivial
  -- a condition stands on a block
  have honBlock : (∃ opener html block nodes rest, below = .block opener html block nodes :: rest) →
      ∀ k, FitsOn k below := by
    rintro ⟨_, _, _, _, _, rfl⟩ k
    trivial
  have hnodes : nodes.reverse.Perm nodes := List.reverse_perm _
  cases block with
  -- each kind of block becomes a node of its own, or hands over what it held
  | template t header =>
    obtain rfl := Except.ok.inj h
    refine hr.complete hfr ?_ ?_ (valuesFit_of_ne fun _ _ _ => by simp)
    · simp [NodeKind.bodies, Frame.held, Block.held]
    · have hnil : below = [] := hfit
      rw [hnil]
      exact ⟨_, rfl⟩
  | branch before cond =>
    have hheld : (before ++ [⟨cond, nodes.reverse⟩] : List Branch).flatMap (·.body)
        = before.flatMap (·.body) ++ nodes.reverse := by simp
    have hperm : (before.flatMap (·.body) ++ nodes.reverse).Perm
        (Frame.held (.block opener html (.branch before cond) nodes)) :=
      (hnodes.append_left _).trans List.perm_append_comm
    unfold endBlock at h
    dsimp only at h
    split at h
    -- `{elseif}`: the branch stays in the frame, with what it held
    · obtain ⟨cond', -, h⟩ := exists_of_bind_ok h
      obtain rfl := Except.ok.inj h
      rw [Reading.frames_replace hfr]
      refine hr.replace ?_ (List.Subset.refl _) fun hf => hf
      refine hperm.symm.trans (List.Perm.of_eq ?_)
      rw [Frame.held, Block.held, hheld, List.nil_append]
    · split at h
      · obtain rfl := Except.ok.inj h
        rw [Reading.frames_replace hfr]
        refine hr.replace ?_ (List.Subset.refl _) fun hf => hf
        refine hperm.symm.trans (List.Perm.of_eq ?_)
        rw [Frame.held, Block.held, hheld, List.nil_append]
      · obtain rfl := Except.ok.inj h
        refine hr.complete hfr ?_ (honBlock hfit _) (valuesFit_of_ne fun _ _ _ => by simp)
        refine (List.Perm.of_eq ?_).trans hperm
        rw [← hheld]
        simp [NodeKind.bodies, List.flatMap_def]
  | otherwise branches =>
    obtain rfl := Except.ok.inj h
    -- `{/if}`: the condition is complete
    refine hr.complete hfr ?_ (honBlock hfit _) (valuesFit_of_ne fun _ _ _ => by simp)
    refine (List.Perm.of_eq ?_).trans ((hnodes.append_left _).trans List.perm_append_comm)
    simp [NodeKind.bodies, Block.held, List.flatMap_def]
  | loop | binding | message | visualElement =>
    obtain rfl := Except.ok.inj h
    refine hr.complete hfr ?_ (hon hfit _ rfl) (valuesFit_of_ne fun _ _ _ => by simp)
    simp [NodeKind.bodies, Frame.held, Block.held]
  | param x kind =>
    -- the parameter goes to the call below, which takes over what the block held
    have hpop := Reading.frames_pop hfr
    refine passParam_sound h (by rw [hpop]; exact hr.drop) ?_
    rw [hpop]
    refine hr.held.perm ?_
    rw [List.flatMap_cons, List.append_assoc]
    refine List.Perm.append_right _ ?_
    simp [Frame.held, Block.held]

/-- Starting the body of a template changes no frame's nodes. -/
theorem startBody_sound (hr : Sound r.file r.frames) :
    Sound (startBody r).file (startBody r).frames := by
  unfold startBody
  split
  · next opener html block nodes fs hfs =>
    refine hr.reframe hfs ?_ (List.Subset.refl _) fun hf => ?_
    · cases block <;> exact List.Perm.refl _
    · cases block <;> exact hf
  · exact hr

/-- A block is still a block when its body has started. -/
theorem startBody_frames {opener : Tag} {html : Bool} {block : Block} {nodes : List NodeId}
    (hfr : r.frames = .block opener html block nodes :: below) :
    (startBody r).frames = .block opener html block.closeHeader nodes :: below := by
  rw [startBody, hfr]
  exact Reading.frames_replace hfr _

/-- Comments change neither the table nor the frames. -/
theorem skipComment_keeps (h : skipComment r = .ok r') :
    r'.file = r.file ∧ r'.frames = r.frames := by
  unfold skipComment at h
  split at h
  · cases h
  · obtain rfl := Except.ok.inj h
    exact ⟨rfl, rfl⟩

/-- A comment inside a block may document a declaration, but makes no node. -/
theorem commentInBlock_sound {opener : Tag} {html : Bool} {block : Block} {nodes : List NodeId}
    (hfr : r.frames = .block opener html block nodes :: below) (hr : Sound r.file r.frames)
    (h : commentInBlock r opener html block nodes = .ok r') : Sound r'.file r'.frames := by
  obtain ⟨after, hafter, h⟩ := exists_of_bind_ok h
  obtain ⟨hfile, hframes⟩ := skipComment_keeps hafter
  have hsound : Sound after.file after.frames := by rwa [hfile, hframes]
  cases block with
  | template t header =>
    -- only the header of a template can change, and what waits to be documented
    have hkeeps (header' : Header) (doc : Option String) :
        Sound after.file
          (Reading.replace { after with doc } (.block opener html (.template t header') nodes)).frames :=
      Sound.reframe (r := { after with doc }) hsound (hframes.trans hfr) (List.Perm.refl _)
        (List.Subset.refl _) fun hf => hf
    obtain rfl := Except.ok.inj h
    exact hkeeps _ _
  | branch | otherwise | loop | binding | message | visualElement | param =>
    obtain rfl := Except.ok.inj h
    exact hsound

/-- A declaration changes the header of a template and no nodes. -/
theorem declareInBlock_sound {opener tag : Tag} {html : Bool} {block : Block} {nodes : List NodeId}
    (hfr : r.frames = .block opener html block nodes :: below) (hr : Sound r.file r.frames)
    (h : declareInBlock r opener html block nodes tag = .ok r') : Sound r'.file r'.frames := by
  cases block with
  | template t header =>
    unfold declareInBlock at h
    dsimp only at h
    split at h
    · cases h
    · obtain ⟨header', -, h⟩ := exists_of_bind_ok h
      obtain rfl := Except.ok.inj h
      exact Sound.reframe (r := { r with doc := none }) hr hfr (List.Perm.refl _)
        (List.Subset.refl _) fun hf => hf
  -- no other block has a header
  | branch | otherwise | loop | binding | message | visualElement | param =>
    cases h

/-- **A tag inside a block.** -/
theorem tagInBlock_sound {opener tag : Tag} {html : Bool} {block : Block} {nodes : List NodeId}
    (hfr : r.frames = .block opener html block nodes :: below) (hr : Sound r.file r.frames)
    (h : tagInBlock r opener html block nodes tag = .ok r') : Sound r'.file r'.frames := by
  unfold tagInBlock at h
  split at h
  · exact endBlock_sound hfr hr h
  · split at h
    · cases h
    · split at h
      · exact declareInBlock_sound hfr hr h
      -- a command ends the header of a template, if one was read until then
      · have hbody := startBody_sound hr
        have hframes := startBody_frames hfr
        rcases startCommand_cases h with hs | ⟨-, cond, rfl⟩
        · exact hs.sound hbody (by rw [hframes]; exact List.cons_ne_nil _ _)
        · exact hbody.push rfl rfl ⟨_, _, _, _, _, hframes⟩

/-- Whether a block is a template whose body has not started. -/
def Block.inHeader : Block → Bool
  | .template _ header => !header.closed
  | _ => false

/-- What text in a block does, without a case for the headers of templates. -/
theorem textInBlock_eq (r : Reading) (html : Bool) (block : Block) :
    textInBlock r html block =
      let text := r.input.rest.take (textLength html r.input.rest)
      let r' := { r with input := r.input.drop text.length }
      if block.inHeader && Text.allBlank text then r'
      else match joinLines text with
        | none => r'
        | some joined => (startBody r').emit (.text (String.ofList joined))
            ⟨r.input.offset, (r.input.drop text.length).offset⟩ := by
  cases block <;> rfl

/-- Text in a block is passed over, or one node is made of it. -/
theorem textInBlock_cases (r : Reading) (html : Bool) (block : Block) :
    (∃ n, textInBlock r html block = { r with input := r.input.drop n }) ∨
      ∃ n text s, textInBlock r html block
        = (startBody { r with input := r.input.drop n }).emit (.text text) s := by
  unfold textInBlock
  cases block with
  | template t header =>
    dsimp only
    split
    · exact Or.inl ⟨_, rfl⟩
    · split
      · exact Or.inl ⟨_, rfl⟩
      · exact Or.inr ⟨_, _, _, rfl⟩
  | branch | otherwise | loop | binding | message | visualElement | param =>
    dsimp only
    -- only in a header of a template are blanks passed over
    rw [if_neg (by simp)]
    split
    · exact Or.inl ⟨_, rfl⟩
    · exact Or.inr ⟨_, _, _, rfl⟩

/-- Text in a block is at most one more node in it. -/
theorem textInBlock_sound {opener : Tag} {html html' : Bool} {block block' : Block}
    {nodes : List NodeId} (hfr : r.frames = .block opener html' block' nodes :: below)
    (hr : Sound r.file r.frames) :
    Sound (textInBlock r html block).file (textInBlock r html block).frames := by
  rcases textInBlock_cases r html block with ⟨n, h⟩ | ⟨n, text, s, h⟩
  · rw [h]
    exact hr
  · have hframes := startBody_frames (r := { r with input := r.input.drop n }) hfr
    rw [h]
    refine Sound.emit_leaf (startBody_sound (r := { r with input := r.input.drop n }) hr) rfl ?_
    rw [hframes]
    trivial

/-- **One step inside a block.** -/
theorem inBlock_sound {opener : Tag} {html : Bool} {block : Block} {nodes : List NodeId}
    (hfr : r.frames = .block opener html block nodes :: below) (hr : Sound r.file r.frames)
    (h : inBlock r opener html block nodes = .ok r') : Sound r'.file r'.frames := by
  cases inBlock_eq_ok_iff.mp h with
  | comment _ h => exact commentInBlock_sound hfr hr h
  | @tag _ _ rest _ _ _ h => exact tagInBlock_sound (r := { r with input := rest }) hfr hr h
  | htmlTag _ _ _ _ h =>
    -- an open tag stands on the block, a close tag goes into it
    have hbody := startBody_sound hr
    have hframes := startBody_frames hfr
    cases startHtmlTag_eq_ok_iff.mp h with
    | closeTag =>
      refine Sound.emit_leaf hbody rfl ?_
      rw [hframes]
      trivial
    | openTag => exact hbody.push rfl rfl ⟨_, _, _, _, _, hframes⟩
  | text => exact textInBlock_sound hfr hr

/-- **One step inside a call.** -/
theorem inCall_sound {opener : Tag} {c : Call} (hfr : r.frames = .call opener c :: below)
    (hr : Sound r.file r.frames) (h : inCall r opener c = .ok r') : Sound r'.file r'.frames := by
  cases inCall_eq_ok_iff.mp h with
  | comment _ h =>
    obtain ⟨hfile, hframes⟩ := skipComment_keeps h
    rw [hfile, hframes]
    exact hr
  | ends =>
    rw [hfr] at hr
    refine Sound.complete hr hfr (List.Perm.refl _) ?_ (valuesFit_of_ne fun _ _ _ => by simp)
    -- a call stands in a block or in a value of an attribute, and it fits both
    have hne : below ≠ [] := hr.shaped.stacked.1
    unfold FitsOn
    split
    · exact absurd rfl hne
    · rfl
    · trivial
  | param _ _ _ _ h =>
    refine startParam_sound h hr ?_
    change r.frames ≠ []
    rw [hfr]
    exact List.cons_ne_nil _ _

/-- One more attribute holds what the frame before it held. -/
theorem addAttribute_sound {name : String} {start : Nat} {value : Option (List NodeId)} {i : Input}
    (hr : Sound r.file r.frames)
    (hheld : r.file.HoldsBelow
      (value.getD [] ++ (r.frames.flatMap Frame.held ++ r.file.templates)))
    (hvalue : ∀ x ∈ value.getD [], x < r.file.nodes.size ∧ (r.file.kind x).fitsValue = true) :
    Sound (addAttribute r name start value i).file (addAttribute r name start value i).frames := by
  unfold addAttribute
  split
  · next tagStart tag as fs hfs =>
    dsimp only
    rw [Reading.frames_replace (r := { r with input := i }) hfs]
    rw [hfs] at hr hheld
    -- the frame of the tag holds the values of its attributes, the last one first
    have hnew : ∀ s, ((⟨name, value, s⟩ :: as : List Attribute).filterMap (·.value)).flatten
        = value.getD [] ++ (as.filterMap (·.value)).flatten := fun s => by
      cases value <;> simp
    refine ⟨hheld.perm ?_, hr.shaped.templates, hr.shaped.stacked, ?_, hr.shaped.tags⟩
    -- the same nodes are held, the new values before the others
    · rw [List.flatMap_cons, List.flatMap_cons, Frame.held, Frame.held, hnew]
      simp only [List.append_assoc]
      exact List.Perm.refl _
    · obtain ⟨hold, hrest⟩ := List.forall_mem_cons.mp hr.shaped.values
      refine List.forall_mem_cons.mpr ⟨fun x hx => ?_, hrest⟩
      rw [Frame.values, hnew] at hx
      rcases List.mem_append.mp hx with hx | hx
      · exact hvalue x hx
      · exact hold x hx
  · exact hr

/-- **One step between the attributes of a tag.** -/
theorem inOpenTag_sound {start : Nat} {name : String} {attributes : List Attribute}
    (hfr : r.frames = .openTag start name attributes :: below) (hr : Sound r.file r.frames)
    (h : inOpenTag r start name attributes = .ok r') : Sound r'.file r'.frames := by
  have hperm : ((attributes.reverse.filterMap (·.value)).flatten).Perm
      ((attributes.filterMap (·.value)).flatten) :=
    ((List.reverse_perm attributes).filterMap _).flatten
  -- the tag is complete
  have hfinish : ∀ closed i s, Sound
      (({ r with input := i } : Reading).pop.emit (.openTag name attributes.reverse closed) s).file
      (({ r with input := i } : Reading).pop.emit (.openTag name attributes.reverse closed) s).frames := by
    intro closed i s
    rw [hfr] at hr
    refine Sound.complete (r := { r with input := i }) hr hfr hperm ?_ ?_
    · obtain ⟨_, _, _, _, _, rfl⟩ := hr.shaped.stacked.1
      trivial
    · intro x as c hk y hy
      obtain ⟨rfl, rfl, rfl⟩ := NodeKind.openTag.inj hk
      exact hr.shaped.values _ List.mem_cons_self y (hperm.mem_iff.mp hy)
  cases inOpenTag_eq_ok_iff.mp h with
  | ends closed => exact hfinish _ _ _
  | goesOn _ _ h =>
    cases h with
    | plain => exact addAttribute_sound hr hr.held fun _ hx => absurd hx List.not_mem_nil
    -- the value is a frame of its own, without nodes so far
    | quoted =>
      refine hr.push rfl rfl ?_
      change r.frames ≠ []
      rw [hfr]
      exact List.cons_ne_nil _ _
    | unquoted =>
      -- the value is a text of its own, which is a node from here on
      have hadd : ∀ text s, (r.file.add (.text text) s).1.HoldsBelow
          (r.file.nodes.size :: (r.frames.flatMap Frame.held ++ r.file.templates)) :=
        fun text s => HoldsBelow.add (k := .text text) hr.held s
      have hself : ∀ text s, (r.file.add (.text text) s).1.kind r.file.nodes.size = .text text :=
        fun text s => kind_add_self r.file (.text text) s
      refine addAttribute_sound
        ⟨(hadd _ _).of_sublist (List.sublist_cons_self _ _),
          hr.shaped.add (valuesFit_of_ne fun _ _ _ => by simp)⟩ (hadd _ _) fun x hx => ?_
      obtain rfl := List.mem_singleton.mp hx
      exact ⟨(hadd _ _).lt_size List.mem_cons_self, congrArg NodeKind.fitsValue (hself _ _)⟩

/-- **One step inside the value of an attribute.** -/
theorem inAttributeValue_sound {name : String} {start : Nat} {quote : Char} {nodes : List NodeId}
    (hfr : r.frames = .attributeValue name start quote nodes :: below)
    (hr : Sound r.file r.frames) (h : inAttributeValue r name start quote nodes = .ok r') :
    Sound r'.file r'.frames := by
  cases inAttributeValue_eq_ok_iff.mp h with
  | ends =>
    -- the nodes of the value go from the frame to the attribute, in order
    have hpop := Reading.frames_pop hfr
    rw [hfr] at hr
    refine addAttribute_sound (by rw [hpop]; exact hr.drop) ?_ fun x hx => ?_
    · rw [hpop]
      refine hr.held.perm ?_
      rw [List.flatMap_cons, List.append_assoc]
      exact (List.reverse_perm nodes).symm.append_right _
    · exact hr.shaped.values _ List.mem_cons_self x (List.mem_reverse.mp hx)
  | command _ _ _ _ hname h =>
    have hne : r.frames ≠ [] := by
      rw [hfr]
      exact List.cons_ne_nil _ _
    -- an `if` would begin otherwise than the other commands, and it may not stand here
    rcases startCommand_cases h with hs | ⟨hif, -⟩
    · exact hs.sound hr hne
    · rw [hif] at hname
      exact absurd List.mem_cons_self hname
  | text =>
    refine Sound.emit_leaf hr rfl ?_
    change FitsOn _ r.frames
    rw [hfr]
    rfl

/-- Another file with the same nodes and templates and the same path. What it is named otherwise is a
word. -/
structure KeepsTree (f g : TemplateFile) : Prop where
  nodes_eq : g.nodes = f.nodes
  templates_eq : g.templates = f.templates
  path_eq : g.path = f.path
  ownNames : (∀ s ∈ f.ownNames, Input.IsWord s) → ∀ s ∈ g.ownNames, Input.IsWord s

theorem declareNamespace_keeps {f g : TemplateFile} {tag : Tag}
    (h : declareNamespace f tag = .ok g) : KeepsTree f g := by
  unfold declareNamespace at h
  split at h
  · cases h
  · split at h
    · cases h
    · obtain ⟨_, hword, h⟩ := exists_of_bind_ok h
      obtain rfl := Except.ok.inj h
      refine ⟨rfl, rfl, rfl, fun hf s hs => ?_⟩
      -- the new name is the word that was read
      obtain hs | hs := mem_ownNames.mp hs
      · exact Option.some.inj hs ▸ Input.isWord_of_word hword
      · exact hf s (mem_ownNames.mpr (.inr hs))

theorem declareAlias_keeps {f g : TemplateFile} {tag : Tag}
    (h : declareAlias f tag = .ok g) : KeepsTree f g := by
  obtain ⟨⟨⟨target, s⟩, i⟩, -, h⟩ := exists_of_bind_ok h
  -- whichever name the alias has, the rest is checked and the alias noted
  have hend : ∀ (name : String) (i : Input) (e₁ e₂ : SyntaxError),
      (if !i.isBlank then .error e₁
        else if (f.aliases.lookup name).isSome then .error e₂
        else .ok { f with aliases := f.aliases ++ [(name, target)] }) = Except.ok g →
      KeepsTree f g := by
    intro name i e₁ e₂ h
    split at h
    · cases h
    · split at h
      · cases h
      · obtain rfl := Except.ok.inj h
        exact ⟨rfl, rfl, rfl, id⟩
  dsimp only at h
  split at h
  · obtain ⟨⟨⟨name, _⟩, i⟩, -, h⟩ := exists_of_bind_ok h
    exact hend _ _ _ _ h
  · exact hend _ _ _ _ h

/-- Noting the package of delegates leaves the nodes alone. -/
theorem declarePackage_keeps {f g : TemplateFile} {tag : Tag}
    (h : declarePackage f tag = .ok g) : KeepsTree f g := by
  obtain ⟨_, hword, h⟩ := exists_of_bind_ok h
  obtain rfl := Except.ok.inj h
  refine ⟨rfl, rfl, rfl, fun hf s hs => ?_⟩
  obtain hs | hs := mem_ownNames.mp hs
  · exact hf s (mem_ownNames.mpr (.inl hs))
  · exact Option.some.inj hs ▸ Input.isWord_of_word hword

/-- What a tag at the top of a file declares. -/
inductive Declares (r : Reading) (tag : Tag) : Reading → Prop
  /-- A template is open, and keeps the documentation that waits. -/
  | template {kind : TemplateKind} {t : Template} (hkind : TemplateKind.ofCommand? tag.name = some kind)
    (ht : openTemplate r.file kind r.doc tag = .ok t) :
    Declares r tag (({ r with doc := none, strict := t.strictHtml } : Reading).push
      (.block tag t.strictHtml (.template t ⟨[], [], false, none⟩) []))
  /-- Something of the file is noted. -/
  | noted {f : TemplateFile} (hname : tag.name ∈ ["namespace", "alias", "delpackage"])
    (hf : KeepsTree r.file f) : Declares r tag { r with file := f, doc := none }

/-- **Every declaration of a file** is one of these. -/
theorem declares_of_startDeclaration {tag : Tag} (h : startDeclaration r tag = .ok r') :
    Declares r tag r' := by
  -- three of the declarations note something in the file and make no node
  have hnoted {file : Except SyntaxError TemplateFile} (hname : tag.name ∈ ["namespace", "alias", "delpackage"])
      (hfile : ∀ f, file = .ok f → KeepsTree r.file f) (h : declared r file = .ok r') : Declares r tag r' := by
    obtain ⟨f, hf, h⟩ := exists_of_bind_ok h
    obtain rfl := Except.ok.inj h
    exact .noted hname (hfile f hf)
  unfold startDeclaration at h
  split at h
  · next hkind =>
    obtain ⟨t, ht, h⟩ := exists_of_bind_ok h
    obtain rfl := Except.ok.inj h
    exact .template hkind ht
  · split at h
    · next hname => exact hnoted (by rw [hname]; decide) (fun _ => declareNamespace_keeps) h
    · next hname => exact hnoted (by rw [hname]; decide) (fun _ => declareAlias_keeps) h
    · next hname => exact hnoted (by rw [hname]; decide) (fun _ => declarePackage_keeps) h
    · split at h <;> cases h

/-- A declaration makes no node: what it notes is no part of the table, and a template that starts is empty.
-/
theorem startDeclaration_sound {tag : Tag} (hfr : r.frames = []) (hr : Sound r.file r.frames)
    (h : startDeclaration r tag = .ok r') : Sound r'.file r'.frames := by
  cases declares_of_startDeclaration h with
  | template => exact hr.push rfl rfl hfr
  | noted _ hf => exact hr.congr hf.nodes_eq hf.templates_eq

/-- **One step at the top of a file.** -/
theorem atTop_sound (hfr : r.frames = []) (hr : Sound r.file r.frames) (h : atTop r = .ok r') :
    Sound r'.file r'.frames := by
  cases atTop_eq_ok_iff.mp h with
  | blank => exact hr
  | comment _ h =>
    obtain ⟨hfile, hframes⟩ := skipComment_keeps h
    rw [hfile, hframes]
    exact hr
  | lineComment => exact hr
  | @declaration _ _ rest _ _ _ h => exact startDeclaration_sound (r := { r with input := rest }) hfr hr h

/-- **One step.** -/
theorem step_sound (hr : Sound r.file r.frames) (h : step r = .ok r') :
    Sound r'.file r'.frames := by
  unfold step at h
  split at h
  · next hfr => exact atTop_sound hfr hr h
  · next hfr => exact inBlock_sound hfr hr h
  · next hfr => exact inCall_sound hfr hr h
  · next hfr => exact inOpenTag_sound hfr hr h
  · next hfr => exact inAttributeValue_sound hfr hr h

/-- **All steps.** At the end nothing is open. -/
theorem run_sound {fuel : Nat} {f : TemplateFile} (hr : Sound r.file r.frames)
    (h : run fuel r = .ok f) : Sound f [] := by
  induction fuel generalizing r with
  | zero => cases h
  | succ fuel ih =>
    unfold run at h
    split at h
    · next hdone =>
      obtain rfl := Except.ok.inj h
      -- a run stops only when all frames are closed
      have hnil : r.frames = [] := by
        rw [Reading.isDone, Bool.and_eq_true] at hdone
        exact List.isEmpty_iff.mp hdone.2
      rwa [hnil] at hr
    · obtain ⟨r', hstep, h⟩ := exists_of_bind_ok h
      exact ih (step_sound hr hstep) h

end Steps

end Markup

open Markup TemplateFile Forest

/-- The value of every attribute holds what it may: neither tags nor conditions. -/
def Forest.ValuesFit (ts : Forest) : Prop :=
  ∀ t ∈ subtrees ts, ∀ name as closed, t.kind = .openTag name as closed →
    ∀ b ∈ t.bodies, ∀ u ∈ b, u.kind.fitsValue = true

/-- **The forest of a source.** The table of a source that parses holds a forest whose roots are the
templates. -/
theorem parse_forest {source : SourceText} {f : TemplateFile} (h : parse source = .ok f) :
    ∃ ts, f.Holds ts ∧ roots ts = f.templates ∧ AreTemplates ts ∧ ts.ValuesFit := by
  have hstart : Sound (Reading.start source.path source.content.toList).file
      (Reading.start source.path source.content.toList).frames :=
    ⟨HoldsBelow.nil _, fun _ hid => absurd hid List.not_mem_nil, trivial,
      fun _ hfr => absurd hfr List.not_mem_nil, fun _ hid => absurd hid (Nat.not_lt_zero _)⟩
  -- at the start there are no nodes and no frames, and every step keeps the invariant
  obtain ⟨⟨ts, hts, hroots⟩, hshaped⟩ := run_sound hstart h
  rw [List.flatMap_nil, List.nil_append] at hroots
  refine ⟨ts, hts, hroots, fun t ht => ?_, fun t ht name as closed hk b hb u hu => ?_⟩
  · obtain ⟨-, x, hx⟩ := hshaped.templates t.id (hroots ▸ List.mem_map_of_mem ht)
    exact ⟨x, (hts.shows_nodes t (mem_subtrees_self ht)).symm.trans hx⟩
  · have hkind := hts.shows_nodes t ht
    have hlt := hts.lt_size t.id (List.mem_map_of_mem ht)
    -- the node is in the list that the attribute names
    have hmem : u.id ∈ (as.filterMap (·.value)).flatten := by
      have hbodies := hts.labelled t ht
      rw [hk] at hbodies
      have hlist : as.filterMap (·.value) = t.bodies.map roots := hbodies
      rw [hlist]
      exact List.mem_flatten.mpr ⟨_, List.mem_map_of_mem hb, List.mem_map_of_mem hu⟩
    have hfit := (hshaped.tags t.id hlt name as closed (hkind.trans hk) u.id hmem).2
    rwa [hts.shows_nodes u (mem_subtrees_of_mem_body ht hb hu)] at hfit

end TemplateFrontend
