import TemplateFrontend.Proofs.Markup.AttributeValues
import TemplateFrontend.Proofs.Markup.MovedSteps
/-!
# Comments between declarations

A comment that documents nothing may be put between two declarations of a file. Up to the comment the steps are
those of the file without it (`Markup.Reaches.moved`), one more step takes the comment, and after it they are
again those of the file without it, further on (`Markup.Returns.moved`).

* `Markup.brace_mem_taken` — a command closes what is open at the top of a file;
* `SourceText.Border` — the borders of declarations;
* `parse_commentBetween` — the tree of a file with a comment at such a border: the nodes after it stand further
  on, and nothing else changes. The text of the comment must not start with a slash, which would be taken for the
  end of the comment.
-/

namespace TemplateFrontend

open Text

namespace Markup

variable {m : Move} {r r' : Reading} {source target : SourceText} {f : TemplateFile}

/-! ### Up to the comment -/

/-- What is left of a stack is closed by a command, unless it is a part of an HTML tag. -/
theorem Moves.exists_command {stack left : List Pending} {w : Piece} (h : Moves stack w left)
    (hne : stack ≠ []) (hleft : left = []) (hlast : ∀ o ∈ stack.getLast?, o ≠ .htmlTag ∧ o ≠ .value) :
    ∃ tag, w = .command tag := by
  -- by induction on what starts below: the piece that closes is the same one
  induction h with
  | stays => exact absurd hleft hne
  | opens | elseif | otherwise => cases hleft
  | @closes stack w o h =>
    subst hleft
    obtain ⟨htag, hvalue⟩ := hlast o rfl
    cases w with
    | command tag => exact ⟨tag, rfl⟩
    -- these close HTML tags and values, which the last one open is not
    | tagEnd | valueEnd =>
      cases o with
      | htmlTag => exact absurd rfl htag
      | value => exact absurd rfl hvalue
      | template | block | branch | call => cases h
    | _ => cases o <;> cases h
  | @starts stack left close w h ih =>
    refine ih (List.cons_ne_nil _ _) hleft fun o ho => ?_
    cases stack with
    | nil =>
      obtain rfl := Option.some.inj ho
      exact ⟨Pending.noConfusion, Pending.noConfusion⟩
    | cons next stack =>
      rw [List.getLast?_cons_cons] at ho hlast
      exact hlast o ho

/-- A step that closes the last of what is open takes a command. -/
theorem brace_mem_taken (hr : Sound r.file r.frames) (hstep : step r = .ok r') (hne : r.frames ≠ [])
    (hnil : r'.frames = []) : '\x7b' ∈ r.taken r' := by
  have htakes := step_takes hstep
  obtain ⟨tag, hcommand⟩ : ∃ tag, r.piece r' = .command tag := by
    refine htakes.moves.exists_command ?_ ?_ ?_
    · rwa [Reading.pending, ne_eq, List.map_eq_nil_iff]
    · rw [Reading.pending, hnil]
      rfl
    · -- what was opened first, and is closed last, is the template
      intro o ho
      rw [Reading.pending, List.getLast?_map] at ho
      obtain ⟨frame, hframe, rfl⟩ := Option.map_eq_some_iff.mp ho
      have hroot := isSome_rootOf hr.shaped.stacked hne
      rw [rootOf, hframe, Option.bind_some] at hroot
      cases frame with
      | block opener html inner nodes =>
        cases inner with
        | template t header =>
          rw [Frame.pending, Block.pending]
          split <;> exact ⟨Pending.noConfusion, Pending.noConfusion⟩
        | branch | otherwise | loop | binding | message | visualElement | param => cases hroot
      | call | openTag | attributeValue => cases hroot
  -- the text of a command starts with a brace, behind blanks
  have hspells := htakes.spells
  rw [hcommand] at hspells
  obtain ⟨blanks, body, -, -, htext, -⟩ := hspells
  rw [htext]
  exact List.mem_append_right _ List.mem_cons_self

/-- Every state that steps come to is sound. -/
theorem Reaches.sound (h : Reaches source r) : Sound r.file r.frames := by
  induction h with
  | start => exact sound_start _ _
  | step _ _ hstep ih => exact step_sound ih hstep

/-- No node is changed where none is moved. -/
theorem file_moved_of_stays (f : TemplateFile) (hdist : m.dist = 0) (hbefore : m.before = []) :
    f.moved m = { f with lines := m.lines } := by
  rw [TemplateFile.moved, hdist, hbefore, List.map_id'' Node.shift_zero]
  rfl

/-- Nor where all nodes are left alone. -/
theorem file_moved_of_before (f : TemplateFile) (hbefore : m.before = f.nodes.toList) :
    f.moved m = { f with lines := m.lines } := by
  rw [TemplateFile.moved, hbefore, List.drop_length, List.map_nil, List.append_nil, Array.toArray_toList]

/-- The state before the first character of the changed text. -/
theorem Reading.start_moved {path : String} {front : List Char} (hdist : m.dist = 0) (hbefore : m.before = [])
    (hlines : m.lines = .ofText (front ++ m.new)) :
    (Reading.start path (front ++ m.old)).moved m = .start path (front ++ m.new) := by
  have hinput : Input.moved m ⟨0, front ++ m.old⟩ = ⟨0, front ++ m.new⟩ := by
    rw [Input.moved_eq rfl, hdist]
  have hfile : (TemplateFile.empty path (front ++ m.old)).moved m = .empty path (front ++ m.new) := by
    rw [file_moved_of_stays _ hdist hbefore, hlines]
    rfl
  rw [Reading.moved, Reading.start, hinput, hfile]
  rfl

/-- A change that moves nothing. -/
def Move.replacing (old new : List Char) (lines : LineTable) : Move := ⟨0, old, new, [], lines⟩

/-- A change of one source to another one, by which nothing is moved. -/
structure Move.Replaces (m : Move) (source target : SourceText) : Prop where
  path : target.path = source.path
  source : ∃ front, source.content.toList = front ++ m.old ∧ target.content.toList = front ++ m.new
  dist : m.dist = 0
  before : m.before = []
  lines : m.lines = .ofText target.content.toList

/-- Something is left of the changed text before the change too. -/
theorem isDone_moved (h : r.isDone = false) (hahead : m.Ahead r.input) : (r.moved m).isDone = false := by
  rw [Reading.isDone, Bool.and_eq_false_iff, List.isEmpty_eq_false_iff, List.isEmpty_eq_false_iff] at h ⊢
  obtain hrest | hframes := h
  · obtain ⟨cs, hcs, hsame⟩ := hahead
    refine .inl ?_
    rw [show (r.moved m).input.rest = _ from congrArg Input.rest (Input.moved_eq hcs)]
    obtain hsame | hne := hsame
    · rwa [← hsame, ← hcs]
    · exact List.append_ne_nil_of_left_ne_nil hne _
  · refine .inr ?_
    rwa [Reading.moved, ne_eq, List.map_eq_nil_iff]

/-- A change that comes after a brace, or right after all is closed, comes after a brace for what was open. -/
theorem braced_of_step (hr : Sound r.file r.frames) (hstep : step r = .ok r') (hb : m.Before r'.input)
    (hopen : r'.frames ≠ [] → m.Braced r'.input) (hne : r.frames ≠ []) : m.Braced r.input := by
  have hafter := (step_takes hstep).after
  by_cases hnil : r'.frames = []
  · obtain ⟨cs, hrest⟩ := hb
    refine ⟨r.taken r' ++ cs, ?_, .inr (List.mem_append_left _ (brace_mem_taken hr hstep hne hnil))⟩
    rw [List.append_assoc, ← hrest]
    exact (Reading.taken_append hafter).symm
  · exact (hopen hnil).of_after hafter

/-- **Up to the change** the states of the changed text are those of the text. -/
theorem Reaches.moved (hm : m.Replaces source target) (hr : Reaches source r) (hb : m.Before r.input)
    (hopen : r.frames ≠ [] → m.Braced r.input) (htop : m.Ahead r.input ∨ m.old.head? = some '\x7b') :
    Reaches target (r.moved m) := by
  -- by induction on the steps: what is known of the change after a step is known of it before the step
  induction hr with
  | start =>
    obtain ⟨front, hsource, htarget⟩ := hm.source
    rw [hsource, Reading.start_moved hm.dist hm.before (htarget ▸ hm.lines), ← hm.path, ← htarget]
    exact .start
  | @step r r' hr hdone hstep ih =>
    have hpast := step_past hdone hstep
    -- the step takes something, so that its state is further away from the change
    have hahead := hb.ahead_of_past hpast
    have hbraced := braced_of_step hr.sound hstep hb hopen
    have hmoved := step_moved (hm.before ▸ Nat.zero_le _) hstep hb hopen fun _ => htop.imp_right .inr
    exact (ih hahead.before hbraced (.inl hahead)).step (isDone_moved hdone hahead) hmoved

/-! ### After the comment -/

/-- A change far behind, that moves all but some nodes. -/
def Move.shifting (d : Nat) (before : List Node) (lines : LineTable) : Move := ⟨d, [], [], before, lines⟩

/-- A change that only moves what is read. -/
structure Move.Shifts (m : Move) : Prop where
  old : m.old = []
  new : m.new = []

namespace Move.Shifts

variable (hm : m.Shifts)

include hm

/-- The change is behind all of the text. -/
theorem before (i : Input) : m.Before i := ⟨i.rest, by rw [hm.old, List.append_nil]⟩

/-- It is the same as no change, so nothing has to stand between. -/
theorem braced (i : Input) : m.Braced i :=
  ⟨i.rest, by rw [hm.old, List.append_nil], .inl (hm.old.trans hm.new.symm)⟩

/-- Only the offset of an input is moved. -/
theorem input_moved (i : Input) : i.moved m = ⟨i.offset + m.dist, i.rest⟩ := by
  rw [Input.moved_eq (hm.old ▸ (List.append_nil i.rest).symm), hm.new, List.append_nil]

/-- It is done where it was. -/
theorem isDone_moved (r : Reading) : (r.moved m).isDone = r.isDone := by
  rw [Reading.isDone, Reading.isDone, Reading.moved, hm.input_moved, List.isEmpty_map]

/-- Every step is the same, further on. -/
theorem step_moved (hsize : m.before.length ≤ r.file.nodes.size) (h : step r = .ok r') :
    step (r.moved m) = .ok (r'.moved m) :=
  Markup.step_moved hsize h (hm.before _) (fun _ => hm.braced _) fun _ => .inl (hm.braced _).ahead

end Move.Shifts

/-- A change far behind only moves. -/
theorem Move.shifts_shifting {d : Nat} {before : List Node} {lines : LineTable} :
    (Move.shifting d before lines).Shifts := ⟨rfl, rfl⟩

/-- Where nothing is open, only the input and the lines are changed by a change that leaves all nodes alone. -/
theorem Reading.moved_shifting (hfr : r.frames = []) (d : Nat) (lines : LineTable) :
    r.moved (.shifting d r.file.nodes.toList lines) =
      { r with input := ⟨r.input.offset + d, r.input.rest⟩, file := { r.file with lines } } := by
  rw [Reading.moved, Move.shifts_shifting.input_moved, file_moved_of_before _ rfl, hfr]
  rfl

/-- The state has some nodes, and then others: with the same nodes in front it is the same state. -/
def Reading.Extends (nodes : List Node) (lines : LineTable) (r : Reading) : Prop :=
  r.moved (.shifting 0 nodes lines) = r

namespace Reading.Extends

variable {nodes : List Node} {lines : LineTable}

/-- Where nothing is open a state extends the nodes that it has. -/
theorem of_frames (hfr : r.frames = []) : r.Extends r.file.nodes.toList r.file.lines :=
  Reading.moved_shifting hfr 0 r.file.lines

/-- The nodes in front are the given ones. -/
theorem nodes_eq (h : r.Extends nodes lines) :
    r.file.nodes.toList = nodes ++ r.file.nodes.toList.drop nodes.length := by
  have hnodes := congrArg (fun r : Reading => r.file.nodes.toList) h
  simp only [moved, TemplateFile.moved, Move.shifting, List.map_id'' Node.shift_zero] at hnodes
  exact hnodes.symm

/-- There are at least as many nodes. -/
theorem length_le (h : r.Extends nodes lines) : nodes.length ≤ r.file.nodes.size := by
  have hlength := congrArg List.length h.nodes_eq
  rw [List.length_append, Array.length_toList] at hlength
  omega

/-- Nodes are only added: a step does not look at those that there are. -/
theorem step (h : r.Extends nodes lines) (hstep : Markup.step r = .ok r') : r'.Extends nodes lines := by
  have hmoved := Move.shifts_shifting.step_moved (m := .shifting 0 nodes lines) h.length_le hstep
  rw [h, hstep] at hmoved
  exact (Except.ok.inj hmoved).symm

end Reading.Extends

/-- **After the comment** the steps are those of the text without it, further on. -/
theorem Returns.moved {a : Except SyntaxError TemplateFile} {lines : LineTable} (hm : m.Shifts)
    (hr : r.Extends m.before lines) (h : Returns r a) (ha : a = .ok f) :
    Returns (r.moved m) (.ok (f.moved m)) := by
  induction h with
  | done hdone =>
    obtain rfl := Except.ok.inj ha
    exact .done (by rwa [hm.isDone_moved])
  | fails => cases ha
  | goes hdone hstep _ ih =>
    exact .goes (by rwa [hm.isDone_moved]) (hm.step_moved hr.length_le hstep) (ih (hr.step hstep) ha)

/-- The nodes that there are stay in front of the others. -/
theorem Returns.nodes_eq {a : Except SyntaxError TemplateFile} {nodes : List Node} {lines : LineTable}
    (hr : r.Extends nodes lines) (h : Returns r a) (ha : a = .ok f) :
    f.nodes.toList = nodes ++ f.nodes.toList.drop nodes.length := by
  induction h with
  | done =>
    obtain rfl := Except.ok.inj ha
    exact hr.nodes_eq
  | fails => cases ha
  | goes _ hstep _ ih => exact ih (hr.step hstep) ha

/-! ### The comment -/

section Comments

variable {c cs : List Char}

/-- The first mark that closes a comment is the one after its text. -/
theorem splitAt?_close (h : ¬ ['*', '/'] <:+: c) (cs : List Char) :
    splitAt? ['*', '/'] (c ++ '*' :: '/' :: cs) = some (c, '*' :: '/' :: cs) := by
  induction c with
  | nil => rfl
  | cons d c ih =>
    have hfront : ¬ (['*', '/'] : List Char).isPrefixOf (d :: (c ++ '*' :: '/' :: cs)) = true := by
      rw [List.isPrefixOf_iff_prefix, List.cons_prefix_cons]
      rintro ⟨rfl, hslash⟩
      -- if a star comes first here, the slash that follows it would be the end already
      cases c with
      | nil => exact absurd (List.cons_prefix_cons.mp hslash).1 (by decide)
      | cons e c =>
        obtain rfl := (List.cons_prefix_cons.mp hslash).1
        exact h ⟨[], c, rfl⟩
    rw [List.cons_append, splitAt?, if_neg hfront, ih fun hin => h (List.infix_cons hin)]
    rfl

/-- A comment with a text between its marks. -/
def commentOf (c : List Char) : List Char := '/' :: '*' :: (c ++ ['*', '/'])

/-- A comment whose text has no closing mark, and does not start with a slash, ends with the mark after the
text. -/
theorem commentLength?_commentOf (hend : ¬ ['*', '/'] <:+: c) (hslash : c.head? ≠ some '/') (cs : List Char) :
    commentLength? (commentOf c ++ cs) = some (commentOf c).length := by
  -- the star of the first mark does not close the comment
  have hopen : ¬ (['*', '/'] : List Char) <:+: '/' :: '*' :: c := by
    rw [List.infix_cons_iff, List.infix_cons_iff]
    rintro (hfront | hfront | hin)
    · exact absurd (List.cons_prefix_cons.mp hfront).1 (by decide)
    · obtain ⟨tail, rfl⟩ := (List.cons_prefix_cons.mp hfront).2
      exact hslash rfl
    · exact hend hin
  have htext : commentOf c ++ cs = ('/' :: '*' :: c) ++ '*' :: '/' :: cs := by
    rw [commentOf, List.cons_append, List.cons_append, List.append_assoc]
    rfl
  rw [commentLength?, htext, splitAt?_close hopen]
  simp only [commentOf, Option.map_some, List.length_cons, List.length_append, List.length_nil]

/-- If its text does not start with a star, it documents nothing. -/
theorem docOf?_commentOf (hstar : c.head? ≠ some '*') : docOf? (commentOf c) = none := by
  cases c with
  | nil => rfl
  | cons d c =>
    have hd : ('*' == d) = false := beq_eq_false_iff_ne.mpr fun hd => hstar (by rw [← hd]; rfl)
    simp [docOf?, commentOf, List.isPrefixOf?, hd]

/-- Where nothing is open, a step is one at the top of the file. -/
theorem step_of_nil (hfr : r.frames = []) : step r = atTop r := by
  unfold step
  rw [hfr]

/-- **A comment at the top of a file** that documents nothing. -/
theorem step_plainComment (hfr : r.frames = []) (hrest : r.input.rest = commentOf c ++ cs)
    (hend : ¬ ['*', '/'] <:+: c) (hstar : c.head? ≠ some '*') (hslash : c.head? ≠ some '/') :
    step r = .ok { r with input := ⟨r.input.offset + byteLength (commentOf c), cs⟩ } := by
  have hskip : r.input.skipBlanks = r.input := by
    have hblanks : r.input.skipBlanks = ⟨r.input.offset, commentOf c ++ cs⟩ :=
      Input.skipBlanks_of_blanks [] hrest rfl (by rintro d ⟨⟩; decide)
    rw [hblanks, ← hrest]
  -- the comment is passed over, and what waits goes on waiting
  have hcomment : skipComment r = .ok { r with input := ⟨r.input.offset + byteLength (commentOf c), cs⟩ } := by
    unfold skipComment
    rw [hrest, commentLength?_commentOf hend hslash]
    dsimp only
    rw [List.take_left, docOf?_commentOf hstar, Option.none_or, Input.drop, hrest, List.take_left, List.drop_left]
  rw [step_of_nil hfr]
  refine atTop_eq_ok_iff.mpr (.comment (by rw [hskip, hrest]; rfl) ?_)
  rw [hskip]
  exact hcomment

end Comments

/-! ### Blanks at the top of a file -/

/-- Blanks are skipped before what is changed if they are before what it is changed to. -/
theorem skipBlanks_moved_of_blanks {i : Input} {blanks : List Char} (hrest : i.rest = blanks ++ m.old)
    (hblanks : allBlank blanks = true) (hold : ∀ d ∈ m.old.head?, isBlank d = false)
    (hnew : ∀ d ∈ m.new.head?, isBlank d = false) : (i.moved m).skipBlanks = i.skipBlanks.moved m := by
  have hmoved := Input.moved_eq hrest
  rw [Input.skipBlanks_of_blanks blanks (congrArg Input.rest hmoved) hblanks hnew, hmoved,
    Input.skipBlanks_of_blanks blanks hrest hblanks hold,
    Input.moved_eq (i := ⟨_, m.old⟩) (List.nil_append m.old).symm, List.nil_append, Nat.add_right_comm]

/-- There are no blanks behind the blanks. -/
theorem skipBlanks_skipBlanks (i : Input) : i.skipBlanks.skipBlanks = i.skipBlanks := by
  refine Input.skipBlanks_of_blanks [] rfl rfl fun d hd => ?_
  change d ∈ (i.takeWhile isBlank).2.rest.head? at hd
  rw [Input.rest_takeWhile] at hd
  have hhead := List.head?_dropWhile_not isBlank i.rest
  rw [Option.mem_def.mp hd] at hhead
  exact hhead

/-- Blanks at the top of a file are skipped by the step that takes what follows them. -/
theorem Returns.of_skipBlanks {a : Except SyntaxError TemplateFile} (hfr : r.frames = [])
    (h : Returns { r with input := r.input.skipBlanks } a) : Returns r a := by
  have htop := step_of_nil hfr
  -- the step skips the blanks itself
  have hsame : step { r with input := r.input.skipBlanks } = atTop r := by
    unfold step atTop
    dsimp only
    rw [hfr, skipBlanks_skipBlanks]
  have hnot (hdone : Reading.isDone { r with input := r.input.skipBlanks } = false) : r.isDone = false := by
    rw [Reading.isDone, hfr, List.isEmpty_nil, Bool.and_true, List.isEmpty_eq_false_iff] at hdone ⊢
    intro hnil
    have hle := (Input.After.skipBlanks r.input).length_le
    rw [hnil] at hle
    exact hdone (List.length_eq_zero_iff.mp (Nat.le_zero.mp hle))
  rw [← htop] at hsame
  cases h with
  | done hdone =>
    -- the step over the last blanks of a file takes nothing else
    rw [Reading.isDone, Bool.and_eq_true, List.isEmpty_iff] at hdone
    cases hleft : r.isDone with
    | true => exact .done hleft
    | false =>
      refine .goes hleft ?_ (.done (r := { r with input := r.input.skipBlanks }) ?_)
      · rw [htop]
        exact atTop_eq_ok_iff.mpr (.blank hdone.1)
      · rw [Reading.isDone, Bool.and_eq_true, List.isEmpty_iff]
        exact hdone
  | fails hdone hstep => exact .fails (hnot hdone) (hsame ▸ hstep)
  | goes hdone hstep hreturns => exact .goes (hnot hdone) (hsame ▸ hstep) hreturns

/-- Nor do they change the answer. -/
theorem Returns.skipBlanks {a : Except SyntaxError TemplateFile} (hfr : r.frames = []) (h : Returns r a) :
    Returns { r with input := r.input.skipBlanks } a := by
  have hanswer : Returns { r with input := r.input.skipBlanks } _ := returns_run (Nat.lt_succ_self _)
  rwa [(hanswer.of_skipBlanks hfr).unique h] at hanswer

/-- Where a step takes a command, a brace follows the blanks. -/
theorem exists_of_command (hstep : step r = .ok r') (h : (r.piece r').command?.isSome = true) :
    ∃ blanks cs, r.taken r' = blanks ++ '\x7b' :: cs ∧ allBlank blanks = true := by
  have hspells := (step_takes hstep).spells
  cases hpiece : r.piece r' with
  | command tag =>
    rw [hpiece] at hspells
    obtain ⟨blanks, body, offset, span, htext, hblanks, -⟩ := hspells
    exact ⟨blanks, body ++ ['\x7d'], htext, hblanks⟩
  | _ =>
    rw [hpiece] at h
    cases h

/-- So the first character behind the blanks is a brace. -/
theorem head?_of_command (hstep : step r = .ok r') (h : (r.piece r').command?.isSome = true) :
    r.input.skipBlanks.rest.head? = some '\x7b' := by
  obtain ⟨blanks, cs, htext, hblanks⟩ := exists_of_command hstep h
  have hrest := Reading.taken_append (step_takes hstep).after
  rw [htext, List.append_assoc] at hrest
  rw [Input.skipBlanks_of_blanks blanks hrest.symm hblanks (by rintro d ⟨⟩; decide)]
  rfl

/-! ### Borders of declarations -/

/-- A step is one of those of the source: it is made in a state that steps come to, after the texts of the steps
before it. -/
theorem exists_of_takings {fuel : Nat} {xs ys : List Taking} {x : Taking} (hr : Reaches source r)
    (h : takings fuel r = xs ++ x :: ys) : ∃ s s', Reaches source s ∧ s.isDone = false ∧ step s = .ok s' ∧
      s.taking s' = x ∧ r.input.rest = xs.flatMap (·.text) ++ s.input.rest := by
  -- by induction on the fuel: the step is the first one, or one of those after it
  induction fuel generalizing xs r with
  | zero => cases xs <;> cases h
  | succ fuel ih =>
    rw [takings] at h
    cases hdone : r.isDone with
    | true =>
      rw [hdone] at h
      cases xs <;> cases h
    | false =>
      rw [hdone, if_neg Bool.false_ne_true] at h
      cases hstep : step r with
      | error e =>
        rw [hstep] at h
        cases xs <;> cases h
      | ok r' =>
        rw [hstep] at h
        dsimp only at h
        cases xs with
        | nil =>
          obtain ⟨rfl, -⟩ := List.cons.inj h
          exact ⟨r, r', hr, hdone, hstep, rfl, rfl⟩
        | cons y xs =>
          -- the text before the step is what the steps before it took
          obtain ⟨rfl, hmore⟩ := List.cons.inj h
          obtain ⟨s, s', hs, hdone', hstep', hx, hrest⟩ := ih (hr.step hdone hstep) hmore
          refine ⟨s, s', hs, hdone', hstep', hx, ?_⟩
          rw [List.flatMap_cons, List.append_assoc, ← hrest]
          exact (Reading.taken_append (step_takes hstep).after).symm

/-- Whether the step starts a declaration of the file. -/
def Taking.starts (x : Taking) : Bool := x.opened.isEmpty && x.piece.command?.isSome

end Markup

open Markup

/-- Two parts of the text of a source: what stands before a border of one of its declarations, and what stands
after it. -/
inductive SourceText.Border (source : SourceText) : List Char → List Char → Prop
  | before {xs ys : List Taking} {x : Taking} (h : source.takings = xs ++ x :: ys) (hstarts : x.starts = true) :
    Border source (xs.flatMap (·.text) ++ x.text.takeWhile isBlank)
      (x.text.dropWhile isBlank ++ ys.flatMap (·.text))
  | after {xs ys : List Taking} {x : Taking} (h : source.takings = xs ++ x :: ys) (hends : x.ends = true) :
    Border source (xs.flatMap (·.text) ++ x.text) (ys.flatMap (·.text))

section BorderTexts

variable {source : SourceText} {f : TemplateFile} {before after : List Char}

/-- The two parts are the text. -/
theorem SourceText.Border.append_eq (hborder : source.Border before after) (h : parse source = .ok f) :
    source.content.toList = before ++ after := by
  have htexts := texts_of_takings h
  cases hborder with
  | before hsteps =>
    rw [hsteps, List.flatMap_append, List.flatMap_cons] at htexts
    rw [← htexts, List.append_assoc, ← List.append_assoc (List.takeWhile _ _),
      List.takeWhile_append_dropWhile]
  | after hsteps =>
    rw [hsteps, List.flatMap_append, List.flatMap_cons] at htexts
    rw [← htexts, List.append_assoc]

end BorderTexts

namespace Markup

/-- Steps lead from the state to the tree of the source. The text before it ends where nothing is open, and if the
text after it is changed, the steps of the changed text come to the state as well. -/
structure CutAt (source : SourceText) (f : TemplateFile) (before after : List Char) (r : Reading) : Prop where
  frames : r.frames = []
  rest : r.input.rest = after
  returns : Returns r (.ok f)
  changed : ∀ (new : List Char) (target : SourceText), (∀ c ∈ new.head?, isBlank c = false) →
    target.path = source.path → target.content.toList = before ++ new →
      Returns (r.moved (.replacing after new (.ofText (before ++ new)))) (parse target)

section Cuts

variable {source target : SourceText} {f : TemplateFile} {before after new blanks cs c : List Char}
  {r r' : Reading}

/-- What follows is replaced, and what stands before it is not moved. -/
theorem replaces_replacing (hsource : source.content.toList = before ++ after)
    (hpath : target.path = source.path) (htarget : target.content.toList = before ++ new) :
    (Move.replacing after new (.ofText (before ++ new))).Replaces source target :=
  ⟨hpath, ⟨before, hsource, htarget⟩, rfl, rfl, congrArg LineTable.ofText htarget.symm⟩

/-- **Before a declaration**, and after the blanks before it. -/
theorem cutAt_of_blanks (h : parse source = .ok f) (hr : Reaches source r) (hfr : r.frames = [])
    (hsource : source.content.toList = before ++ '\x7b' :: cs) (hrest : r.input.rest = blanks ++ '\x7b' :: cs)
    (hblanks : allBlank blanks = true) :
    CutAt source f before ('\x7b' :: cs) { r with input := r.input.skipBlanks } := by
  have hbrace : ∀ d ∈ ('\x7b' :: cs).head?, isBlank d = false := by
    rintro d ⟨⟩
    decide
  have hreturns := hr.returns
  rw [h] at hreturns
  have hskipped := congrArg Input.rest (Input.skipBlanks_of_blanks blanks hrest hblanks hbrace)
  refine ⟨hfr, hskipped, hreturns.skipBlanks hfr, ?_⟩
  -- the changed text is read up to the blanks, and skips those that are left
  intro new target hnew hpath htarget
  have hm := replaces_replacing hsource hpath htarget
  have hreaches := hr.moved hm ⟨blanks, hrest⟩ (fun hne => absurd hfr hne) (.inr rfl)
  have hmoved := hreaches.returns.skipBlanks (congrArg (List.map _) hfr)
  rwa [show (Reading.moved _ r).input.skipBlanks = _ from
    skipBlanks_moved_of_blanks (m := .replacing _ new _) hrest hblanks hbrace hnew] at hmoved

/-- **After a declaration**, the last command of which was taken. -/
theorem cutAt_of_command (h : parse source = .ok f) (hr : Reaches source r) (hdone : r.isDone = false)
    (hstep : step r = .ok r') (hfr : r'.frames = [])
    (hcommand : r.frames = [] → (r.piece r').command?.isSome = true)
    (hsource : source.content.toList = before ++ r'.input.rest) : CutAt source f before r'.input.rest r' := by
  have hreturns := (hr.step hdone hstep).returns
  rw [h] at hreturns
  refine ⟨hfr, rfl, hreturns, fun new target _ hpath htarget => ?_⟩
  have hm := replaces_replacing hsource hpath htarget
  have hb : (Move.replacing r'.input.rest new (.ofText (before ++ new))).Before r'.input := ⟨[], rfl⟩
  have hahead := hb.ahead_of_past (step_past hdone hstep)
  have hopen (hne : r'.frames ≠ []) :
      (Move.replacing r'.input.rest new (.ofText (before ++ new))).Braced r'.input := absurd hfr hne
  have hreaches := hr.moved hm hahead.before (braced_of_step hr.sound hstep hb hopen) (.inl hahead)
  refine (hreaches.step (isDone_moved hdone hahead) ?_).returns
  -- the step takes a command, so it looks no further than its end
  refine step_moved (Nat.zero_le _) hstep hb hopen fun htop => .inr (.inl ?_)
  exact head?_of_command hstep (hcommand htop)

namespace CutAt

/-- Only the input and the lines are changed. -/
theorem moved_eq (h : CutAt source f before after r) (new : List Char) (lines : LineTable) :
    r.moved (.replacing after new lines) =
      { r with input := ⟨r.input.offset, new⟩, file := { r.file with lines } } := by
  have hrest : r.input.rest = [] ++ (Move.replacing after new lines).old := h.rest
  rw [Reading.moved, Input.moved_eq hrest, file_moved_of_stays _ rfl rfl, h.frames]
  rfl

/-- **The text before the cut** is read to its end. -/
theorem exists_parse (h : CutAt source f before after r) :
    ∃ g, parse ⟨source.path, String.ofList before⟩ = .ok g ∧ g.nodes.toList = r.file.nodes.toList := by
  have hbefore := h.changed [] ⟨source.path, String.ofList before⟩
    (fun _ hc => (Option.not_mem_none _ hc).elim) rfl (by rw [String.toList_ofList, List.append_nil])
  rw [h.moved_eq] at hbefore
  refine ⟨_, hbefore.unique (.done ?_), rfl⟩
  rw [Reading.isDone, h.frames]
  rfl

/-- **The text with a comment at the cut**: what is read after it is moved by its length. -/
theorem parse_comment (h : CutAt source f before after r) (hend : ¬ ['*', '/'] <:+: c)
    (hstar : c.head? ≠ some '*') (hslash : c.head? ≠ some '/') :
    parse ⟨source.path, String.ofList (before ++ (commentOf c ++ after))⟩ =
      .ok (f.moved (.shifting (byteLength (commentOf c)) r.file.nodes.toList
        (.ofText (before ++ (commentOf c ++ after))))) := by
  have hcomment := h.changed (commentOf c ++ after)
    ⟨source.path, String.ofList (before ++ (commentOf c ++ after))⟩ (by rintro d ⟨⟩; decide) rfl
    String.toList_ofList
  rw [h.moved_eq] at hcomment
  -- the state after the comment is the one before it, moved by the length of the comment
  have hlater := h.returns.moved (f := f) (m := .shifting (byteLength (commentOf c)) r.file.nodes.toList
    (.ofText (before ++ (commentOf c ++ after)))) Move.shifts_shifting (.of_frames h.frames) rfl
  rw [Reading.moved_shifting h.frames, h.rest] at hlater
  refine hcomment.unique (.goes ?_ (step_plainComment h.frames rfl hend hstar hslash) hlater)
  rw [Reading.isDone]
  rfl

end CutAt

end Cuts

end Markup

section Borders

variable {source : SourceText} {f : TemplateFile} {before after : List Char}

/-- **The borders of declarations** are cuts. -/
theorem SourceText.Border.exists_cutAt (hborder : source.Border before after) (h : parse source = .ok f) :
    ∃ r, CutAt source f before after r := by
  have hcontent := hborder.append_eq h
  cases hborder with
  | @before xs ys x hsteps hstarts =>
    obtain ⟨s, s', hs, hdone, hstep, rfl, hrest⟩ := exists_of_takings .start hsteps
    obtain ⟨hopened, hcommand⟩ := Bool.and_eq_true_iff.mp hstarts
    have hfr : s.frames = [] := List.map_eq_nil_iff.mp (List.isEmpty_iff.mp hopened)
    obtain ⟨blanks, cs, htext, hblanks⟩ := exists_of_command hstep hcommand
    -- the blanks before the command belong to the step, so the cut is behind them
    have hpos := List.all_eq_true.mp hblanks
    rw [show (s.taking s').text = _ from htext, List.takeWhile_append_of_pos hpos,
      List.dropWhile_append_of_pos hpos, List.takeWhile_cons_of_neg (by decide),
      List.dropWhile_cons_of_neg (by decide), List.append_nil] at hcontent ⊢
    refine ⟨_, cutAt_of_blanks h hs hfr hcontent ?_ hblanks⟩
    rw [hcontent, List.append_assoc] at hrest
    exact (List.append_cancel_left hrest).symm
  | @after xs ys x hsteps hends =>
    obtain ⟨s, s', hs, hdone, hstep, rfl, hrest⟩ := exists_of_takings .start hsteps
    obtain ⟨hleft, hclosed⟩ := Bool.and_eq_true_iff.mp hends
    have hfr : s'.frames = [] := List.map_eq_nil_iff.mp (List.isEmpty_iff.mp hleft)
    have hinput : ys.flatMap (·.text) = s'.input.rest := by
      rw [hcontent, List.append_assoc, ← Reading.taken_append (step_takes hstep).after] at hrest
      exact List.append_cancel_left (List.append_cancel_left hrest)
    rw [hinput] at hcontent ⊢
    refine ⟨s', cutAt_of_command h hs hdone hstep hfr (fun htop => ?_) hcontent⟩
    -- at the top of a file only a command ends a declaration
    refine (Bool.or_eq_true_iff.mp hclosed).resolve_left fun hopened => ?_
    rw [Bool.not_eq_true', List.isEmpty_eq_false_iff] at hopened
    exact hopened (congrArg (List.map _) htop)

/-- **Comments between declarations.** A comment between two declarations whose text starts neither with a star
nor with a slash changes nothing but where what follows it stands: the nodes before it, which are those of the
text before it, stay the same, and the others are moved by its length. -/
theorem parse_commentBetween {c : List Char} (h : parse source = .ok f) (hborder : source.Border before after)
    (hend : ¬ ['*', '/'] <:+: c) (hstar : c.head? ≠ some '*') (hslash : c.head? ≠ some '/') :
    source.content.toList = before ++ after ∧
    ∃ g later, parse ⟨source.path, String.ofList before⟩ = .ok g ∧
      f.nodes.toList = g.nodes.toList ++ later ∧
      parse ⟨source.path, String.ofList (before ++ (commentOf c ++ after))⟩ = .ok { f with
        nodes := (g.nodes.toList ++ later.map (Node.shift (byteLength (commentOf c)))).toArray
        lines := .ofText (before ++ (commentOf c ++ after)) } := by
  obtain ⟨r, hcut⟩ := hborder.exists_cutAt h
  obtain ⟨g, hg, hnodes⟩ := hcut.exists_parse
  refine ⟨hborder.append_eq h, g, f.nodes.toList.drop r.file.nodes.toList.length, hg, ?_, ?_⟩
  · rw [hnodes]
    exact hcut.returns.nodes_eq (.of_frames hcut.frames) rfl
  · rw [hnodes]
    exact hcut.parse_comment hend hstar hslash

end Borders

/-- A namespace and a template. -/
def namespaceAndTemplate : SourceText := ⟨"a.st", "\x7bnamespace a\x7d\x7btemplate .b\x7dy\x7b/template\x7d"⟩

/-- The end of the namespace is a border. -/
theorem border_namespaceAndTemplate : namespaceAndTemplate.Border "\x7bnamespace a\x7d".toList
    "\x7btemplate .b\x7dy\x7b/template\x7d".toList := by
  -- the pieces as the reader takes them; a comment may stand behind those that are marked
  have hrun : namespaceAndTemplate.takings.map (fun x => (x.ends, x.text)) =
      [(true, "\x7bnamespace a\x7d".toList), (false, "\x7btemplate .b\x7d".toList), (false, ['y']),
        (true, "\x7b/template\x7d".toList)] := by decide +kernel
  obtain ⟨x, ys, hsteps, hx, hys⟩ := List.map_eq_cons_iff.mp hrun
  obtain ⟨hends, htext⟩ := Prod.mk.inj hx
  -- the texts of the later pieces in one
  have hafter : ys.flatMap Taking.text = "\x7btemplate .b\x7dy\x7b/template\x7d".toList := by
    have htexts := congrArg (List.flatMap Prod.snd) hys
    rw [List.flatMap_map] at htexts
    exact htexts.trans (by decide)
  have hborder : namespaceAndTemplate.Border (List.flatMap Taking.text [] ++ x.text) (ys.flatMap Taking.text) :=
    .after hsteps hends
  rwa [htext, hafter] at hborder

/-- A comment put at that border moves the nodes behind it by its eight characters. -/
theorem parse_commentBetween_namespaceAndTemplate : ∃ f, parse namespaceAndTemplate = .ok f ∧
    ∃ g later, parse ⟨"a.st", "\x7bnamespace a\x7d"⟩ = .ok g ∧ f.nodes.toList = g.nodes.toList ++ later ∧
      later.length = 2 ∧
      parse ⟨"a.st", "\x7bnamespace a\x7d/* x/ */\x7btemplate .b\x7dy\x7b/template\x7d"⟩ = .ok { f with
        nodes := (g.nodes.toList ++ later.map (Node.shift 8)).toArray
        lines := .ofText "\x7bnamespace a\x7d/* x/ */\x7btemplate .b\x7dy\x7b/template\x7d".toList } := by
  obtain ⟨f, hf, hsize⟩ : ∃ f, parse namespaceAndTemplate = .ok f ∧ f.nodes.size = 2 :=
    exists_of_toOption_map (by decide +kernel)
  obtain ⟨-, g, later, hg, hlater, hcommented⟩ := parse_commentBetween (c := " x/ ".toList) hf
    border_namespaceAndTemplate (by decide) (by decide) (by decide)
  have htext : "\x7bnamespace a\x7d".toList ++ (commentOf " x/ ".toList ++
      "\x7btemplate .b\x7dy\x7b/template\x7d".toList) =
        "\x7bnamespace a\x7d/* x/ */\x7btemplate .b\x7dy\x7b/template\x7d".toList := by decide
  have hlength : byteLength (commentOf " x/ ".toList) = 8 := by decide
  rw [String.ofList_toList] at hg
  rw [htext, hlength, String.ofList_toList] at hcommented
  -- before the template there are no nodes
  obtain ⟨g', hg', hnone⟩ : ∃ g, parse ⟨"a.st", "\x7bnamespace a\x7d"⟩ = .ok g ∧ g.nodes.size = 0 :=
    exists_of_toOption_map (by decide +kernel)
  obtain rfl := Except.ok.inj (hg.symm.trans hg')
  refine ⟨f, hf, g, later, hg, hlater, ?_, hcommented⟩
  have hcount := congrArg List.length hlater
  rwa [Array.length_toList, hsize, List.length_append, Array.length_toList, hnone, Nat.zero_add,
    eq_comm] at hcount

/-- The slash after the mark of a comment closes it, and the rest of the comment is no declaration. -/
theorem parse_refuses_slashComment : ∃ f before after c, parse namespaceAndTemplate = .ok f ∧
    namespaceAndTemplate.Border before after ∧ c.head? ≠ some '*' ∧ ¬ ['*', '/'] <:+: c ∧
    parse ⟨namespaceAndTemplate.path, String.ofList (before ++ (commentOf c ++ after))⟩ =
      .error ⟨.unexpected "'x'" "a template declaration", ⟨17, 18⟩⟩ := by
  obtain ⟨f, hf, -⟩ : ∃ f, parse namespaceAndTemplate = .ok f ∧ f.nodes.size = 2 :=
    exists_of_toOption_map (by decide +kernel)
  refine ⟨f, _, _, "/ x ".toList, hf, border_namespaceAndTemplate, by decide, by decide, ?_⟩
  exact eq_error_of_map (f := fun f => f.nodes.size) (by decide +kernel)

end TemplateFrontend
