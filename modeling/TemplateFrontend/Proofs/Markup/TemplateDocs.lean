import Mathlib.Data.List.Chain
import TemplateFrontend.Proofs.Markup.DocSteps
/-!
# Documentation of templates

What waits while a file is read depends on the pieces that were taken, and on nothing else: `Slot.next` says
how each piece changes it, and the documentation of a template is what waits where the template is opened.

* `Markup.Slot` — what waits, and whether a comment would follow a parameter on its line;
* `Markup.takings`, `SourceText.takings` — all steps of a source;
* `Markup.Agrees` — the slot and the state of reading agree, and steps keep this;
* `docs_of_parse` — the documentation of all templates of a source, in order;
* `doc_of_parse` — that of one template: the last comment since the declaration before it, or else what a
  comment in the template before it left.
-/

namespace TemplateFrontend

open Text

/-- The text between two inputs, and then that of the second one. -/
theorem Input.After.take_append {i j : Input} (h : i.After j) :
    i.rest.take (i.rest.length - j.rest.length) ++ j.rest = i.rest := by
  obtain ⟨n, rfl⟩ := h
  let r : Markup.Reading := ⟨i, default, none, false, []⟩
  let r' : Markup.Reading := ⟨i.drop n, default, none, false, []⟩
  have hafter : r.input.After r'.input := .drop i n
  exact Markup.Reading.taken_append hafter

namespace Markup

/-! ### What waits -/

/-- What waits while a file is read. -/
structure Slot where
  doc : Option String
  /-- Whether a comment here follows a parameter without documentation on its line. -/
  trails : Bool
  deriving DecidableEq

/-- Whether the step opens a template. -/
def Taking.opens (x : Taking) : Bool := x.opened.isEmpty && !x.left.isEmpty

namespace Slot

/-- Whether a comment after the step still follows the parameter on its line. -/
def stays (s : Slot) (x : Taking) : Bool := s.trails && !x.text.contains '\n'

/-- The slot after a step. -/
def next (s : Slot) (x : Taking) : Slot :=
  let doc := x.doc?.or s.doc
  match x.effect with
  | .waits => ⟨doc, s.stays x⟩
  | .attaches => if s.trails then ⟨none, s.stays x && doc.isNone⟩ else ⟨doc, false⟩
  | .drops => ⟨none, s.stays x⟩
  | .declares | .state => ⟨none, false⟩
  | .param => ⟨none, s.doc.isNone⟩
  | .none => ⟨s.doc, s.stays x⟩

/-- The slot after some steps. -/
def after (s : Slot) (xs : List Taking) : Slot := xs.foldl next s

/-- The documentation of the templates that are opened in some steps. -/
def docs : Slot → List Taking → List (Option String)
  | _, [] => []
  | s, x :: xs => (if x.opens then [s.doc] else []) ++ docs (s.next x) xs

end Slot

/-- Whether a comment where the input stands follows a parameter without documentation on its line. -/
def Root.trails (root : Root) (i : Input) : Bool :=
  match root.afterLast, root.params.getLast? with
  | some after, some p =>
    let between := after.rest.take (after.rest.length - i.rest.length)
    !(between.contains '\n' || p.span.stop != after.offset || p.doc.isSome)
  | _, _ => false

/-- The declarations of an open template stand before the input. -/
structure Root.Before (root : Root) (i : Input) : Prop where
  afterLast : ∀ last ∈ root.afterLast, last.After i
  params : ∀ p ∈ root.params, p.span.stop ≤ i.offset

/-- The slot says of a state what waits in it. -/
structure Agrees (s : Slot) (r : Reading) : Prop where
  doc : s.doc = r.doc
  root : ∀ root ∈ r.root?, root.Before r.input ∧ s.trails = root.trails r.input

section Roots

variable {root : Root} {i j : Input} {header : Header} {d : Option String}

/-- A comment that follows no parameter leaves the declarations as they are, and its documentation waits. -/
theorem attachDoc_of_not_trails (doc : Option String)
    (h : Root.trails ⟨d, header.params, header.afterLast⟩ i = false) :
    attachDoc header i doc = (header, doc) := by
  unfold Root.trails at h
  unfold attachDoc
  cases hafter : header.afterLast with
  | none => rfl
  | some after =>
    cases hlast : header.params.getLast? with
    | none => rfl
    | some p =>
      simp only [hafter, hlast, Bool.not_eq_false'] at h
      exact if_pos h

/-- The comment documents the parameter that it follows. -/
theorem attachDoc_of_trails (doc : Option String)
    (h : Root.trails ⟨d, header.params, header.afterLast⟩ i = true) :
    (attachDoc header i doc).2 = none ∧
      (attachDoc header i doc).1.params.map (·.span) = header.params.map (·.span) ∧
      Root.trails ⟨d, (attachDoc header i doc).1.params, header.afterLast⟩ i = doc.isNone := by
  unfold Root.trails at h
  cases hafter : header.afterLast with
  | none =>
    rw [hafter] at h
    cases h
  | some after =>
    cases hlast : header.params.getLast? with
    | none =>
      simp only [hafter, hlast] at h
      cases h
    | some p =>
      simp only [hafter, hlast, Bool.not_eq_true', Bool.or_eq_false_iff] at h
      -- the last parameter takes the documentation, and nothing is left to wait
      have hattach : attachDoc header i doc =
          ({ header with params := header.params.dropLast ++ [{ p with doc }] }, none) := by
        unfold attachDoc
        rw [hafter, hlast]
        refine if_neg ?_
        rw [h.1.1, h.1.2, h.2]
        exact Bool.false_ne_true
      obtain ⟨front, hparams⟩ := List.getLast?_eq_some_iff.mp hlast
      rw [hattach, hparams, List.dropLast_concat]
      refine ⟨rfl, by rw [List.map_append, List.map_append]; rfl, ?_⟩
      -- what follows the parameter now depends on whether it got a documentation
      unfold Root.trails
      simp only [List.getLast?_concat, h.1.1, h.1.2, Bool.false_or]
      cases doc <;> rfl

/-- What stands before an input stands before the inputs further on. -/
theorem Root.Before.moved (h : root.Before i) (hij : i.After j) : root.Before j :=
  ⟨fun last hlast => (h.afterLast last hlast).trans hij,
    fun p hp => Nat.le_trans (h.params p hp) hij.offset_le⟩

/-- A comment further on still follows the parameter if there is no line break between. -/
theorem Root.trails_moved (h : root.Before i) (hij : i.After j) :
    root.trails j = (root.trails i && !(i.rest.take (i.rest.length - j.rest.length)).contains '\n') := by
  unfold Root.trails
  cases hafter : root.afterLast with
  | none => rfl
  | some last =>
    cases root.params.getLast? with
    | none => rfl
    | some p =>
      have hlasti := h.afterLast last hafter
      -- the text after the declaration goes on with the text between the inputs
      have hbetween : last.rest.take (last.rest.length - j.rest.length) =
          last.rest.take (last.rest.length - i.rest.length) ++
            i.rest.take (i.rest.length - j.rest.length) := by
        refine (List.append_left_inj j.rest).mp ?_
        rw [(hlasti.trans hij).take_append, List.append_assoc, hij.take_append, hlasti.take_append]
      dsimp only
      -- a line break is in the whole text if it is in one of the two
      rw [hbetween, List.contains_eq_any_beq, List.any_append]
      simp only [List.contains_eq_any_beq]
      cases List.any _ _ <;> cases List.any _ _ <;> simp

/-- Right after a declaration. -/
theorem Root.before_declared {ps : List ParamDecl} (hps : ∀ p ∈ ps, p.span.stop ≤ i.offset) :
    Root.Before ⟨d, ps, some i⟩ i := by
  refine ⟨?_, hps⟩
  rintro _ ⟨⟩
  exact .refl _

/-- A comment right after a parameter follows it. -/
theorem Root.trails_param {ps : List ParamDecl} {decl : ParamDecl} (hspan : decl.span.stop = i.offset) :
    Root.trails ⟨d, ps ++ [decl], some i⟩ i = decl.doc.isNone := by
  unfold Root.trails
  dsimp only
  rw [List.getLast?_concat]
  dsimp only
  rw [hspan, Nat.sub_self]
  cases decl.doc <;> simp

/-- A comment right after a declaration of state follows no parameter: none ends there. -/
theorem Root.trails_state {ps : List ParamDecl} (hps : ∀ p ∈ ps, p.span.stop < i.offset) :
    Root.trails ⟨d, ps, some i⟩ i = false := by
  unfold Root.trails
  dsimp only
  split
  · next after p hafter hlast =>
    obtain rfl := Option.some.inj hafter
    have hne : (p.span.stop != i.offset) = true := bne_iff_ne.mpr (hps p (List.mem_of_getLast? hlast)).ne
    rw [hne, Bool.or_true, Bool.true_or]
    rfl
  · rfl

/-- The parameters with another documentation end where they did. -/
theorem Root.Before.of_spans {ps qs : List ParamDecl} {last : Option Input} (h : Root.Before ⟨d, ps, last⟩ i)
    (hspans : qs.map (·.span) = ps.map (·.span)) : Root.Before ⟨d, qs, last⟩ i := by
  refine ⟨h.afterLast, fun q hq => ?_⟩
  have hspan : q.span ∈ ps.map (·.span) := hspans ▸ List.mem_map_of_mem hq
  obtain ⟨p, hp, hpq⟩ := List.mem_map.mp hspan
  exact hpq ▸ h.params p hp

end Roots

/-! ### Steps -/

section Steps

variable {s : Slot} {r r' : Reading} {source : SourceText}

/-- At the start nothing waits. -/
theorem Agrees.start (path : String) (content : List Char) : Agrees ⟨none, false⟩ (.start path content) :=
  ⟨rfl, fun _ hroot => (Option.not_mem_none _ hroot).elim⟩

/-- A file is not done while a template is open. -/
theorem isDone_of_root {root : Root} (h : r.root? = some root) : r.isDone = false := by
  cases hframes : r.frames with
  | nil =>
    rw [Reading.root?, hframes] at h
    cases h
  | cons => rw [Reading.isDone, hframes, List.isEmpty_cons, Bool.and_false]

/-- Outside of templates only the documentation has to be right. -/
theorem Agrees.of_none {doc : Option String} {trails : Bool} (hdoc : doc = r.doc) (hroot : r.root? = none) :
    Agrees ⟨doc, trails⟩ r := by
  refine ⟨hdoc, ?_⟩
  rw [hroot]
  exact fun root hmem => (Option.not_mem_none root hmem).elim

/-- In a template the slot also knows whether a comment follows a parameter. -/
theorem Agrees.of_root {doc : Option String} {trails : Bool} {root : Root} (hdoc : doc = r.doc)
    (hroot : r.root? = some root) (hbefore : root.Before r.input) (htrails : trails = root.trails r.input) :
    Agrees ⟨doc, trails⟩ r := by
  refine ⟨hdoc, ?_⟩
  rw [hroot]
  rintro _ ⟨⟩
  exact ⟨hbefore, htrails⟩

/-- The declarations of the template stay what they are. -/
theorem Agrees.stays {doc : Option String} (h : Agrees s r) (hafter : r.input.After r'.input) (hdoc : doc = r'.doc)
    (hroot : r'.root? = r.root?) : Agrees ⟨doc, s.stays (r.taking r')⟩ r' := by
  refine ⟨hdoc, fun root hmem => ?_⟩
  obtain ⟨hbefore, htrails⟩ := h.root root (hroot ▸ hmem)
  refine ⟨hbefore.moved hafter, ?_⟩
  rw [Slot.stays, htrails, Root.trails_moved hbefore hafter]
  rfl

/-- A comment goes to the parameter that it follows, or else it waits. -/
theorem Agrees.attaches {t : Template} {header : Header} {doc : Option String} (h : Agrees s r)
    (hafter : r.input.After r'.input) (heffect : (r.taking r').effect = .attaches)
    (hwaits : doc = (r.taking r').doc?.or r.doc)
    (hroot : r.root? = some ⟨t.doc, header.params, header.afterLast⟩)
    (hroot' : r'.root? = some ⟨t.doc, (attachDoc header r.input doc).1.params, header.afterLast⟩)
    (hdoc : r'.doc = (attachDoc header r.input doc).2) : Agrees (s.next (r.taking r')) r' := by
  obtain ⟨hbefore, htrails⟩ := h.root _ hroot
  rw [← h.doc] at hwaits
  -- the slot knows whether the comment goes to a parameter: then nothing waits, or else it does
  cases htrail : s.trails with
  | false =>
    rw [htrail] at htrails
    rw [attachDoc_of_not_trails doc htrails.symm] at hroot' hdoc
    have hnext : s.next (r.taking r') = ⟨doc, false⟩ := by
      rw [Slot.next, heffect, htrail, hwaits]
      rfl
    rw [hnext]
    refine .of_root hdoc.symm hroot' (hbefore.moved hafter) ?_
    rw [Root.trails_moved hbefore hafter, ← htrails]
    rfl
  | true =>
    rw [htrail] at htrails
    obtain ⟨hnone, hspans, htrails'⟩ := attachDoc_of_trails doc htrails.symm
    have hbefore' := hbefore.of_spans hspans
    have hnext : s.next (r.taking r') = ⟨none, doc.isNone && !(r.taking r').text.contains '\n'⟩ := by
      rw [Slot.next, heffect, htrail, hwaits]
      simp only [if_true, Slot.stays, htrail, Bool.true_and, Bool.and_comm]
    rw [hnext]
    refine .of_root (hdoc.trans hnone).symm hroot' (hbefore'.moved hafter) ?_
    rw [Root.trails_moved hbefore' hafter, htrails']
    rfl

/-- **One step.** The slot after it is right if the one before it is. -/
theorem Agrees.step (h : Agrees s r) (hr : Sound r.file r.frames) (hstep : step r = .ok r') :
    Agrees (s.next (r.taking r')) r' := by
  have hafter := (step_takes hstep).after
  -- the effect of the step says what becomes of the documentation, and so does the slot
  cases step_docs hr hstep with
  | quiet heffect hquiet =>
    rw [Slot.next, heffect]
    exact h.stays hafter (h.doc.trans hquiet.doc_eq.symm) hquiet.root_eq
  | waits heffect hdoc hroot _ =>
    rw [Slot.next, heffect]
    exact h.stays hafter (by rw [hdoc, h.doc]) hroot
  | attaches heffect hwaits hroot hroot' hdoc _ => exact h.attaches hafter heffect hwaits hroot hroot' hdoc
  | drops heffect hdoc hroot _ =>
    rw [Slot.next, heffect]
    exact h.stays hafter hdoc.symm hroot
  | declares heffect hdoc _ hroot' _ =>
    rw [Slot.next, heffect]
    exact .of_none hdoc.symm hroot'
  | opens heffect hdoc _ hroot' _ =>
    rw [Slot.next, heffect]
    refine .of_root hdoc.symm hroot' ⟨?_, List.forall_mem_nil _⟩ rfl
    exact fun last hlast => (Option.not_mem_none last hlast).elim
  -- a parameter takes what waits, and a comment may trail it from now on
  | param heffect hdoc hroot hroot' hspan hdecl _ =>
    obtain ⟨hbefore, -⟩ := h.root _ hroot
    rw [Slot.next, heffect]
    refine .of_root hdoc.symm hroot' (Root.before_declared (List.forall_mem_append.mpr ⟨?_, ?_⟩)) ?_
    · exact (hbefore.moved hafter).params
    · exact List.forall_mem_singleton.mpr hspan.le
    · rw [Root.trails_param hspan, hdecl, h.doc]
  | @state root heffect hdoc hroot hroot' _ =>
    obtain ⟨hbefore, -⟩ := h.root _ hroot
    -- the step has read something since the last parameter ended
    have hpast : ∀ p ∈ root.params, p.span.stop < r'.input.offset := fun p hp =>
      (hbefore.params p hp).trans_lt (step_past (isDone_of_root hroot) hstep).offset_lt
    rw [Slot.next, heffect]
    refine .of_root hdoc.symm hroot' (Root.before_declared fun p hp => (hpast p hp).le) ?_
    exact (Root.trails_state hpast).symm
  | closes heffect hdoc _ hroot' _ =>
    rw [Slot.next, heffect]
    exact .of_none (h.doc.trans hdoc.symm) hroot'

/-- A template is open where something is. -/
theorem isNone_root (h : Stacked r.frames) : r.root?.isNone = r.pending.isEmpty := by
  rw [Reading.root?, Reading.pending, List.isEmpty_map]
  cases hframes : r.frames with
  | nil => rfl
  | cons frame below =>
    rw [hframes] at h
    rw [← Option.not_isSome, isSome_rootOf h (List.cons_ne_nil _ _)]
    rfl

/-- A step adds the documentation of a template if it opens one, and this is what waits. -/
theorem Agrees.docs_step (h : Agrees s r) (hr : Sound r.file r.frames) (hstep : Markup.step r = .ok r') :
    r'.docs = r.docs ++ if (r.taking r').opens then [s.doc] else [] := by
  have hopens : (r.taking r').opens = (r.root?.isNone && !r'.root?.isNone) := by
    rw [isNone_root hr.shaped.stacked, isNone_root (step_sound hr hstep).shaped.stacked]
    rfl
  -- most steps open no template and end none
  have hsame (hroot : r'.root? = r.root?) (hdocs : r'.file.docs = r.file.docs) :
      r'.docs = r.docs ++ if (r.taking r').opens then [s.doc] else [] := by
    rw [hopens, hroot, Bool.and_not_self, Reading.docs, Reading.docs, hroot, hdocs]
    exact (List.append_nil _).symm
  cases step_docs hr hstep with
  | quiet _ hquiet => exact hsame hquiet.root_eq hquiet.docs_eq
  | waits _ _ hroot hdocs | drops _ _ hroot hdocs => exact hsame hroot hdocs
  | declares _ _ hroot hroot' hdocs => exact hsame (hroot'.trans hroot.symm) hdocs
  | attaches _ _ hroot hroot' _ hdocs | param _ _ hroot hroot' _ _ hdocs | state _ _ hroot hroot' hdocs =>
    rw [hopens, hroot, Reading.docs, Reading.docs, hroot, hroot', hdocs]
    exact (List.append_nil _).symm
  -- the template takes what waits
  | opens _ _ hroot hroot' hdocs =>
    rw [hopens, hroot, hroot', Reading.docs, Reading.docs, hroot, hroot', hdocs, h.doc]
    exact congrArg (· ++ [r.doc]) (List.append_nil _).symm
  | closes _ _ hroot hroot' hdocs =>
    rw [hopens, hroot, Reading.docs, Reading.docs, hroot, hroot', hdocs]
    rfl

end Steps

/-! ### Whole runs -/

/-- The steps that are left. -/
def takings : (fuel : Nat) → Reading → List Taking
  | 0, _ => []
  | fuel + 1, r =>
    if r.isDone then []
    else match step r with
      | .ok r' => r.taking r' :: takings fuel r'
      | .error _ => []

/-- The pieces of the steps, with their texts. -/
theorem takings_pieces (fuel : Nat) (r : Reading) :
    (takings fuel r).map (fun x => (x.piece, x.text)) = pieces fuel r := by
  induction fuel generalizing r with
  | zero => rfl
  | succ fuel ih =>
    rw [takings, pieces]
    split
    · rfl
    · cases step r with
      | error e => rfl
      | ok r' => exact congrArg (_ :: ·) (ih r')

/-- Each step moves what is open by its piece, and the next one starts with what it leaves open. -/
theorem takings_moves {r : Reading} (fuel : Nat) :
    (takings fuel r).IsChain (fun x y => x.left = y.opened) ∧
      (∀ x ∈ (takings fuel r).head?, x.opened = r.pending) ∧
      ∀ x ∈ takings fuel r, Moves x.opened x.piece x.left := by
  induction fuel generalizing r with
  | zero => exact ⟨.nil, fun _ h => (Option.not_mem_none _ h).elim, List.forall_mem_nil _⟩
  | succ fuel ih =>
    rw [takings]
    split
    · exact ⟨.nil, fun _ h => (Option.not_mem_none _ h).elim, List.forall_mem_nil _⟩
    · cases hstep : step r with
      | error e => exact ⟨.nil, fun _ h => (Option.not_mem_none _ h).elim, List.forall_mem_nil _⟩
      | ok r' =>
        -- the next piece starts from what this step has left open
        obtain ⟨hchain, hfirst, hmoves⟩ := @ih r'
        refine ⟨?_, ?_, List.forall_mem_cons.mpr ⟨(step_takes hstep).moves, hmoves⟩⟩
        · exact List.isChain_cons.mpr ⟨fun x hx => (hfirst x hx).symm, hchain⟩
        · rintro _ ⟨⟩
          rfl

/-- **All steps.** Each template that is opened gets the documentation that waits there. -/
theorem run_docs {fuel : Nat} {s : Slot} {r : Reading} {f : TemplateFile} (h : Agrees s r)
    (hr : Sound r.file r.frames) (hrun : run fuel r = .ok f) :
    f.docs = r.docs ++ s.docs (takings fuel r) := by
  induction fuel generalizing s r with
  | zero => cases hrun
  | succ fuel ih =>
    unfold run at hrun
    rw [takings]
    -- at the end nothing is open, so that all documentation is in the file
    split at hrun
    · next hdone =>
      obtain rfl := Except.ok.inj hrun
      have hframes : r.frames = [] := List.isEmpty_iff.mp (Bool.and_eq_true_iff.mp hdone).2
      rw [if_pos hdone, Reading.docs, Reading.root?, hframes]
      exact ((List.append_nil _).trans (List.append_nil _)).symm
    · next hdone =>
      obtain ⟨r', hstep, hrun⟩ := exists_of_bind_ok hrun
      rw [ih (h.step hr hstep) (step_sound hr hstep) hrun, h.docs_step hr hstep, if_neg hdone, hstep,
        List.append_assoc]
      rfl

/-! ### One template -/

namespace Taking

/-- Whether the step ends a declaration of the file. -/
def ends (x : Taking) : Bool := x.left.isEmpty && (!x.opened.isEmpty || x.piece.command?.isSome)

/-- Whether the step stands between declarations of the file. -/
def between (x : Taking) : Bool := x.opened.isEmpty && x.left.isEmpty && x.piece.command?.isNone

variable {x : Taking}

/-- What is opened outside of templates is one. -/
theorem effect_of_opens (h : Moves x.opened x.piece x.left) (hopened : x.opened = []) (hleft : x.left ≠ []) :
    x.effect = .declares := by
  obtain ⟨opened, piece, text, left⟩ := x
  obtain rfl : opened = [] := hopened
  dsimp only at h
  cases h with
  | stays => exact absurd rfl hleft
  | opens hopens =>
    cases hopens with
    | template => rfl
    | block hp | binding hp | call hp => cases hp

/-- Between declarations nothing is open. -/
theorem opened_of_between (h : x.between = true) : x.opened = [] := by
  unfold between at h
  rw [Bool.and_eq_true, Bool.and_eq_true] at h
  exact List.isEmpty_iff.mp h.1.1

/-- A template is opened where nothing is open. -/
theorem opened_of_opens (h : x.opens = true) : x.opened = [] :=
  List.isEmpty_iff.mp (Bool.and_eq_true_iff.mp h).1

/-- What stands between declarations opens no template. -/
theorem opens_of_between (h : x.between = true) : x.opens = false := by
  unfold between at h
  rw [Bool.and_eq_true, Bool.and_eq_true] at h
  rw [opens, h.1.2, Bool.not_true, Bool.and_false]

/-- Nothing is open after a step that ends a declaration or stands between declarations. -/
theorem ends_of_left (hleft : x.left = []) (h : x.between = false) : x.ends = true := by
  unfold between at h
  rw [hleft, List.isEmpty_nil, Bool.and_true, Bool.and_eq_false_iff] at h
  rw [ends, hleft, List.isEmpty_nil, Bool.true_and, Bool.or_eq_true, Bool.not_eq_true',
    ← Option.not_isNone, Bool.not_eq_true']
  exact h

/-- A declaration that ends where it starts. -/
theorem effect_of_ends (h : x.ends = true) (hopened : x.opened = []) : x.effect = .declares := by
  obtain ⟨opened, piece, text, left⟩ := x
  obtain rfl : opened = [] := hopened
  unfold ends at h
  cases piece with
  | command => rfl
  | _ => exact absurd (Bool.and_eq_true_iff.mp h).2 Bool.false_ne_true

/-- Only comments wait, attach or drop. -/
theorem effect_of_not_comment (h : x.piece ≠ .comment) :
    x.effect ≠ .waits ∧ x.effect ≠ .attaches ∧ x.effect ≠ .drops := by
  obtain ⟨opened, piece, text, left⟩ := x
  -- the other pieces start a declaration, or have no effect
  cases piece with
  | comment => exact absurd rfl h
  | command tag =>
    cases opened with
    | nil => exact ⟨Effect.noConfusion, Effect.noConfusion, Effect.noConfusion⟩
    | cons o below =>
      cases o with
      | template close =>
        unfold effect
        dsimp only
        split
        · exact ⟨Effect.noConfusion, Effect.noConfusion, Effect.noConfusion⟩
        · split <;> exact ⟨Effect.noConfusion, Effect.noConfusion, Effect.noConfusion⟩
      | block | branch | call | htmlTag | value =>
        exact ⟨Effect.noConfusion, Effect.noConfusion, Effect.noConfusion⟩
  | _ => exact ⟨Effect.noConfusion, Effect.noConfusion, Effect.noConfusion⟩

/-- Only comments are documentation. -/
theorem doc?_of_not_comment (h : x.piece ≠ .comment) : x.doc? = none := by
  unfold doc?
  split
  · next hcomment => exact absurd hcomment h
  · rfl

/-- A comment waits, goes to a parameter, or is dropped. -/
theorem effect_of_comment (h : x.piece = .comment) :
    x.effect = .waits ∨ x.effect = .attaches ∨ x.effect = .drops := by
  obtain ⟨opened, piece, text, left⟩ := x
  obtain rfl : piece = .comment := h
  unfold effect
  dsimp only
  split
  all_goals simp_all

/-- A comment that waits in a template stands in a call or directly in the template. -/
theorem opened_of_effect (h : x.effect = .waits ∨ x.effect = .attaches) (hopened : x.opened ≠ []) :
    (∃ close below, x.opened = .call close :: below) ∨ ∃ o, x.opened = [o] := by
  have hcomment : x.piece = .comment := by
    by_contra hne
    obtain ⟨hwaits, hattaches, -⟩ := effect_of_not_comment hne
    exact h.elim hwaits hattaches
  obtain ⟨opened, piece, text, left⟩ := x
  obtain rfl : piece = .comment := hcomment
  cases opened with
  | nil => exact absurd rfl hopened
  | cons o below =>
    cases below with
    | nil => exact .inr ⟨o, rfl⟩
    | cons next below =>
      -- in any other block a comment is dropped, so only a call can be open inside
      cases o with
      | call close => exact .inl ⟨close, _, rfl⟩
      | template | block | branch | htmlTag | value => exact h.elim Effect.noConfusion Effect.noConfusion

end Taking

namespace Slot

variable {s : Slot} {x : Taking} {xs : List Taking}

/-- The slot after one more step. -/
theorem after_concat (s : Slot) (xs : List Taking) (x : Taking) :
    s.after (xs ++ [x]) = (s.after xs).next x := by
  rw [after, List.foldl_concat, after]

/-- The documentation of a template is what waits after the steps before it. -/
theorem exists_of_docs {k : Nat} {d : Option String} (h : (s.docs xs)[k]? = some d) :
    ∃ front x rest, xs = front ++ x :: rest ∧ x.opens = true ∧ front.countP Taking.opens = k ∧
      d = (s.after front).doc := by
  induction xs generalizing s k with
  | nil => cases h
  | cons x xs ih =>
    rw [docs] at h
    -- a template that is opened is counted, the other steps are passed over
    cases hopens : x.opens with
    | false =>
      rw [hopens] at h
      obtain ⟨front, y, rest, rfl, hy, hcount, hd⟩ := ih h
      refine ⟨x :: front, y, rest, rfl, hy, ?_, hd⟩
      rw [List.countP_cons_of_neg (by rw [hopens]; exact Bool.false_ne_true), hcount]
    | true =>
      rw [hopens] at h
      cases k with
      -- it is this template: its documentation is what waits now
      | zero => exact ⟨[], x, xs, rfl, hopens, rfl, (Option.some.inj h).symm⟩
      | succ k =>
        obtain ⟨front, y, rest, rfl, hy, hcount, hd⟩ := ih h
        refine ⟨x :: front, y, rest, rfl, hy, ?_, hd⟩
        rw [List.countP_cons_of_pos hopens, hcount]

/-- Between declarations a comment takes the place of the documentation that waits, and the rest leaves it
there. -/
theorem next_of_between (h : x.between = true) : (s.next x).doc = x.doc?.or s.doc := by
  obtain ⟨opened, piece, text, left⟩ := x
  unfold Taking.between at h
  rw [Bool.and_eq_true, Bool.and_eq_true] at h
  obtain rfl : opened = [] := List.isEmpty_iff.mp h.1.1
  cases piece with
  | command => cases h.2
  | _ => rfl

/-- Documentation that waits after a step is that of the step, or waited before it. -/
theorem of_next {d : String} (h : (s.next x).doc = some d) : x.doc?.or s.doc = some d ∧
    x.effect ≠ .declares ∧ (x.doc? = none ∨ x.effect = .waits ∨ x.effect = .attaches) := by
  unfold next at h
  cases heffect : x.effect with
  | waits =>
    rw [heffect] at h
    exact ⟨h, Effect.noConfusion, .inr (.inl rfl)⟩
  -- what is attached to a parameter is gone, unless it went to none
  | attaches =>
    rw [heffect] at h
    dsimp only at h
    split at h
    · cases h
    · exact ⟨h, Effect.noConfusion, .inr (.inr rfl)⟩
  | none =>
    rw [heffect] at h
    -- a comment would have done something
    have hdoc : x.doc? = none := by
      refine Taking.doc?_of_not_comment fun hcomment => ?_
      have := Taking.effect_of_comment hcomment
      rw [heffect] at this
      simp at this
    rw [hdoc]
    exact ⟨h, Effect.noConfusion, .inl rfl⟩
  | drops | declares | param | state =>
    rw [heffect] at h
    cases h

/-- Between declarations, the last documentation waits. -/
theorem doc_after_between (h : ∀ x ∈ xs, x.between = true) :
    (s.after xs).doc = ((xs.filterMap Taking.doc?).getLast?).or s.doc := by
  induction xs generalizing s with
  | nil => rfl
  | cons x xs ih =>
    obtain ⟨hx, hxs⟩ := List.forall_mem_cons.mp h
    have hnext := ih (s := s.next x) hxs
    rw [next_of_between hx] at hnext
    rw [show s.after (x :: xs) = (s.next x).after xs from rfl, hnext]
    -- a later comment takes the place of an earlier one
    cases hdoc : x.doc? with
    | none =>
      rw [List.filterMap_cons_none hdoc]
      rfl
    | some d =>
      rw [List.filterMap_cons_some hdoc, List.getLast?_cons]
      cases (xs.filterMap Taking.doc?).getLast? <;> rfl

/-- Documentation that waits is that of a comment, after which nothing drops it. -/
theorem exists_of_after {d : String} (hs : s.doc = none) (h : (s.after xs).doc = some d) :
    ∃ pre x post, xs = pre ++ x :: post ∧ x.doc? = some d ∧ (x.effect = .waits ∨ x.effect = .attaches) ∧
      ∀ y ∈ post, y.doc? = none ∧ y.effect ≠ .declares := by
  induction xs using List.reverseRecOn with
  | nil =>
    rw [after, List.foldl_nil, hs] at h
    cases h
  | append_singleton xs x ih =>
    rw [after_concat] at h
    obtain ⟨hor, hdeclares, heffect⟩ := of_next h
    -- the last step is the comment, or it lets the documentation wait on
    cases hdoc : x.doc? with
    | some d' =>
      rw [hdoc] at hor heffect
      exact ⟨xs, x, [], rfl, hdoc.trans hor, heffect.resolve_left (Option.some_ne_none d'), List.forall_mem_nil _⟩
    | none =>
      rw [hdoc] at hor
      -- no comment here, so it is one of the steps before
      obtain ⟨pre, y, post, rfl, hy, heffect, hpost⟩ := ih hor
      refine ⟨pre, y, post ++ [x], by rw [List.append_assoc]; rfl, hy, heffect, fun z hz => ?_⟩
      obtain hz | hz := List.mem_append.mp hz
      · exact hpost z hz
      · rw [List.mem_singleton.mp hz]
        exact ⟨hdoc, hdeclares⟩

end Slot

section Lists

variable {α : Type} {xs : List α}

/-- A list up to its last element without a property, and the others. -/
theorem exists_last_without (p : α → Bool) (xs : List α) :
    ∃ before gap, xs = before ++ gap ∧ (∀ x ∈ gap, p x = true) ∧ ∀ x ∈ before.getLast?, p x = false := by
  induction xs using List.reverseRecOn with
  | nil => exact ⟨[], [], rfl, List.forall_mem_nil _, fun _ h => (Option.not_mem_none _ h).elim⟩
  | append_singleton xs x ih =>
    -- the last element ends the gap, or belongs to it
    cases hx : p x with
    | false =>
      refine ⟨xs ++ [x], [], (List.append_nil _).symm, List.forall_mem_nil _, ?_⟩
      rw [List.getLast?_concat]
      rintro _ ⟨⟩
      exact hx
    | true =>
      obtain ⟨before, gap, rfl, hgap, hbefore⟩ := ih
      refine ⟨before, gap ++ [x], List.append_assoc .., fun y hy => ?_, hbefore⟩
      obtain hy | hy := List.mem_append.mp hy
      · exact hgap y hy
      · rw [List.mem_singleton.mp hy, hx]

end Lists

/-- Where nothing is declared up to a step inside of a template, everything stands in the template. -/
theorem opened_ne_nil {xs : List Taking} (hchain : xs.IsChain (fun x y => x.left = y.opened))
    (hmoves : ∀ x ∈ xs, Moves x.opened x.piece x.left) (hdeclares : ∀ x ∈ xs, x.effect ≠ .declares)
    (hlast : ∀ x ∈ xs.getLast?, x.opened ≠ []) : ∀ x ∈ xs, x.opened ≠ [] := by
  induction xs with
  | nil => exact List.forall_mem_nil _
  | cons x xs ih =>
    cases xs with
    | nil => exact List.forall_mem_cons.mpr ⟨hlast x rfl, List.forall_mem_nil _⟩
    | cons y ys =>
      obtain ⟨hleft, hchain⟩ := List.isChain_cons_cons.mp hchain
      rw [List.forall_mem_cons] at hmoves hdeclares
      have hrest := ih hchain hmoves.2 hdeclares.2 fun z hz => hlast z (by rwa [List.getLast?_cons_cons])
      refine List.forall_mem_cons.mpr ⟨fun hopened => hdeclares.1 ?_, hrest⟩
      -- a step that leaves something open outside of templates opens one
      exact Taking.effect_of_opens hmoves.1 hopened (hleft ▸ hrest y List.mem_cons_self)

end Markup

open Markup

/-- The steps of a source. -/
def SourceText.takings (source : SourceText) : List Taking :=
  let content := source.content.toList
  Markup.takings (content.length + 1) (.start source.path content)

section Sources

variable {source : SourceText} {f : TemplateFile}

/-- Nothing was read yet. -/
theorem Markup.sound_start (path : String) (content : List Char) :
    Sound (Reading.start path content).file (Reading.start path content).frames :=
  ⟨TemplateFile.HoldsBelow.nil _, fun _ hid => absurd hid List.not_mem_nil, trivial,
    fun _ hfr => absurd hfr List.not_mem_nil, fun _ hid => absurd hid (Nat.not_lt_zero _)⟩

/-- **Documentation of all templates.** -/
theorem docs_of_parse (h : parse source = .ok f) : f.docs = Slot.docs ⟨none, false⟩ source.takings :=
  run_docs (.start _ _) (sound_start _ _) h

/-- What the steps take is the text. -/
theorem texts_of_takings (h : parse source = .ok f) :
    source.takings.flatMap (·.text) = source.content.toList := by
  have htexts := (run_takes h).2.1
  rw [← takings_pieces, List.flatMap_map] at htexts
  exact htexts

/-- **Documentation of one template**: the last documentation comment since the end of the declaration before
it, or since the start of the file. If there is none, it is what waits where that declaration ends. And what
waits there is a comment in the template that ends there, directly or in a call, with no other documentation
after it. -/
theorem parse_templateDocs (h : parse source = .ok f) :
    source.takings.flatMap (·.text) = source.content.toList ∧
    ∀ k id t, f.declared[k]? = some (id, t) →
      ∃ before gap opening rest, source.takings = before ++ gap ++ opening :: rest ∧
        opening.opens = true ∧ before.countP (·.opens) = k ∧
        (∀ x ∈ gap, x.between = true) ∧ (∀ x ∈ before.getLast?, x.ends = true) ∧
        t.doc = ((gap.filterMap (·.doc?)).getLast?).or (Slot.after ⟨none, false⟩ before).doc ∧
        ∀ d, (Slot.after ⟨none, false⟩ before).doc = some d →
          ∃ pre x post, before = pre ++ x :: post ∧ x.doc? = some d ∧ (∀ y ∈ post, y.doc? = none) ∧
            (∀ y ∈ x :: post, y.opened ≠ []) ∧
            ((∃ close below, x.opened = .call close :: below) ∨ ∃ o, x.opened = [o]) := by
  constructor
  · exact texts_of_takings h
  · intro k id t hk
    have hdoc : (Slot.docs ⟨none, false⟩ source.takings)[k]? = some t.doc := by
      rw [← docs_of_parse h, TemplateFile.docs, List.getElem?_map, hk]
      rfl
    obtain ⟨front, opening, rest, hsteps, hopens, hcount, hdoc⟩ := Slot.exists_of_docs hdoc
    obtain ⟨hchain, -, hmoves⟩ := takings_moves (r := .start source.path source.content.toList)
      (source.content.toList.length + 1)
    change source.takings.IsChain _ at hchain
    change ∀ x ∈ source.takings, _ at hmoves
    -- the gap is all that stands between the end of the declaration before and the opening tag
    obtain ⟨before, gap, rfl, hgap, hlast⟩ := exists_last_without Taking.between front
    have hsteps : source.takings = before ++ (gap ++ opening :: rest) := hsteps.trans (List.append_assoc ..)
    rw [hsteps] at hchain hmoves
    obtain ⟨hbefore, -, hnext⟩ := List.isChain_append.mp hchain
    -- the step before the gap leaves nothing open, so it ends a declaration
    have hends : ∀ x ∈ before.getLast?, x.ends = true := by
      intro x hx
      refine Taking.ends_of_left ?_ (hlast x hx)
      cases gap with
      | nil => exact (hnext x hx opening rfl).trans (Taking.opened_of_opens hopens)
      | cons y ys => exact (hnext x hx y rfl).trans (Taking.opened_of_between (hgap y List.mem_cons_self))
    refine ⟨before, gap, opening, rest, hsteps.trans (List.append_assoc ..).symm, hopens, ?_, hgap, hends, ?_,
      fun d hd => ?_⟩
    -- no template is opened in the gap
    · have hnone : gap.countP Taking.opens = 0 :=
        List.countP_eq_zero.mpr fun x hx => Bool.eq_false_iff.mp (Taking.opens_of_between (hgap x hx))
      rwa [List.countP_append, hnone, Nat.add_zero] at hcount
    · rw [hdoc, Slot.after, List.foldl_append]
      exact Slot.doc_after_between hgap
    · obtain ⟨pre, x, post, rfl, hx, heffect, hpost⟩ := Slot.exists_of_after rfl hd
      -- what waits already before the gap was written in a template and was never dropped
      have hdeclares : ∀ y ∈ x :: post, y.effect ≠ .declares := by
        refine List.forall_mem_cons.mpr ⟨?_, fun y hy => (hpost y hy).2⟩
        obtain heffect | heffect := heffect <;>
          rw [heffect] <;>
          exact Effect.noConfusion
      have hopened : ∀ y ∈ x :: post, y.opened ≠ [] := by
        refine opened_ne_nil hbefore.right_of_append (fun y hy => hmoves y ?_) hdeclares fun y hy hnil => ?_
        · exact List.mem_append_left _ (List.mem_append_right _ hy)
        · have hend : y.ends = true := hends y (by
            rwa [List.getLast?_append_of_ne_nil _ (List.cons_ne_nil _ _)])
          exact hdeclares y (List.mem_of_getLast? hy) (Taking.effect_of_ends hend hnil)
      exact ⟨pre, x, post, rfl, hx, fun y hy => (hpost y hy).1, hopened,
        Taking.opened_of_effect heffect (hopened x List.mem_cons_self)⟩

/-- A comment at the start of the body of one template, and another template after it. -/
def commentInBody : SourceText :=
  ⟨"a.st", "\x7bnamespace a\x7d\x7btemplate .a\x7d/** inner */x\x7b/template\x7d\x7btemplate .b\x7dy\x7b/template\x7d"⟩

/-- The comment documents the second template. -/
theorem parse_commentInBody : ∃ f, parse commentInBody = .ok f ∧
    f.declared.map (fun x => (x.2.name, x.2.doc)) = [("a.a", none), ("a.b", some "inner")] :=
  exists_of_toOption_map (by decide +kernel)

/-- The theorem at the second template of that file. -/
theorem parse_templateDocs_commentInBody : ∃ f id t, parse commentInBody = .ok f ∧
    f.declared[1]? = some (id, t) ∧ t.name = "a.b" ∧ t.doc = some "inner" ∧
    ∃ before gap opening rest, commentInBody.takings = before ++ gap ++ opening :: rest ∧
      opening.opens = true ∧ before.countP (·.opens) = 1 ∧
      t.doc = ((gap.filterMap (·.doc?)).getLast?).or (Slot.after ⟨none, false⟩ before).doc := by
  obtain ⟨f, hparse, hdeclared⟩ := parse_commentInBody
  obtain ⟨-, hdocs⟩ := parse_templateDocs hparse
  have hsecond : (f.declared[1]?).map (fun x => (x.2.name, x.2.doc)) = some ("a.b", some "inner") := by
    rw [← List.getElem?_map, hdeclared]
    rfl
  obtain ⟨⟨id, t⟩, hk, hwritten⟩ := Option.map_eq_some_iff.mp hsecond
  obtain ⟨hname, hdoc⟩ := Prod.mk.inj hwritten
  obtain ⟨before, gap, opening, rest, hsteps, hopens, hcount, -, -, hwaits, -⟩ := hdocs 1 id t hk
  exact ⟨f, id, t, hparse, hk, hname, hdoc, before, gap, opening, rest, hsteps, hopens, hcount, hwaits⟩

/-- The comment stands inside of the first template, nothing stands between the two, and yet it is the
documentation of the second one. -/
theorem parse_documents_nextTemplate : ∃ f, parse commentInBody = .ok f ∧
    f.declared.map (fun x => (x.2.name, x.2.doc)) = [("a.a", none), ("a.b", some "inner")] ∧
    commentInBody.takings.map (fun x => (x.opened.length, String.ofList x.text, x.left.length)) =
      [(0, "\x7bnamespace a\x7d", 0), (0, "\x7btemplate .a\x7d", 1), (1, "/** inner */", 1), (1, "x", 1),
        (1, "\x7b/template\x7d", 0), (0, "\x7btemplate .b\x7d", 1), (1, "y", 1), (1, "\x7b/template\x7d", 0)] := by
  obtain ⟨f, hparse, hdeclared⟩ := parse_commentInBody
  refine ⟨f, hparse, hdeclared, ?_⟩
  decide +kernel

end Sources

end TemplateFrontend
