import TemplateFrontend.Markup.Reader
import TemplateFrontend.Proofs.Readers
/-!
# What a command begins

A command in a template is a node that is complete with its tag, or it opens a frame that holds nothing
yet. The expressions of either are read from the text of the tag. Whatever is known of a state after a
command was started follows from this, by cases on `Begins`.

* `Begins` — the state after a command, with what was read for it;
* `begins_of_startCommand` — every command that is started begins one of these;
* `passParam_cases`, `startParam_cases` — the same for parameters of calls.
-/

namespace TemplateFrontend

/-- A tag that is no command, so that its text is the expression of a print. -/
structure Tag.IsExpression (t : Tag) : Prop where
  not_content : t.name ∉ ["print", "if", "for", "let", "call", "delcall", "msg", "velog"]
  not_file : t.name ∉ Markup.fileCommands
  not_closing : t.isClosing = false
  not_part : t.name ∉ ["elseif", "else", "param"]
  not_header : (t.name.toList.head? == some '@') = false

namespace Markup

/-- What a command begins. Arguments that are read come with where they were read. -/
inductive Begins (r : Reading) (tag : Tag) (html : Bool) : Reading → Prop
  | special {c : SpecialChar} (h : SpecialChar.ofCommand? (String.ofList tag.content.rest) = some c) :
    Begins r tag html (r.emit (.special c) tag.span)
  | print {i : Input} {e : Expr} {ds : List Directive}
    (hi : i = tag.args ∧ tag.name = "print" ∨ i = tag.content ∧ tag.IsExpression)
    (h : Expr.parsePrint i.offset i.rest = .ok (e, ds)) :
    Begins r tag html (r.emit (.print e ds) tag.span)
  | condition {cond : Expr} (hname : tag.name = "if")
    (h : Expr.parse tag.args.offset tag.args.rest = .ok cond) :
    Begins r tag html (r.push (.block tag html (.branch [] cond) []))
  | loop {x : String} {list : Expr} (hname : tag.name = "for")
    (h : Expr.parseLoop tag.args.offset tag.args.rest = .ok (x, list)) :
    Begins r tag html (r.push (.block tag html (.loop x list) []))
  /-- A variable with a value. -/
  | value {x expected : String} {w : String × Span} {i j : Input} {e : Expr} (hname : tag.name = "let")
    (hword : tag.args.word expected = .ok (w, i)) (hcolon : i.mark? [':'] = some j)
    (h : Expr.parse j.offset j.rest = .ok e) (hdollar : w.1.toList = '$' :: x.toList) :
    Begins r tag html (r.emit (.binding x (.value e)) tag.span)
  /-- A variable with content. -/
  | content {x expected : String} {w : String × Span} {i : Input} {kind : ContentKind}
    (hname : tag.name = "let") (hword : tag.args.word expected = .ok (w, i))
    (hcolon : i.mark? [':'] = none) (hdollar : w.1.toList = '$' :: x.toList) :
    Begins r tag html (r.push (.block tag (readsHtml kind html r.strict) (.binding x kind) []))
  /-- A call without parameters of its own. -/
  | call {c : Call} (hname : tag.name = "call" ∨ tag.name = "delcall") (hpassed : c.passed = [])
    (hclosed : tag.selfClosing = true) : Begins r tag html (r.emit (.call c) tag.span)
  | openCall {c : Call} (hname : tag.name = "call" ∨ tag.name = "delcall") (hpassed : c.passed = [])
    (hopen : tag.selfClosing = false) : Begins r tag html (r.push (.call tag c))
  | message {desc : String} {meaning : Option String} (hname : tag.name = "msg") :
    Begins r tag html (r.push (.block tag html (.message desc meaning) []))
  | visualElement {name : String} (hname : tag.name = "velog") :
    Begins r tag html (r.push (.block tag html (.visualElement name) []))

variable {r r' : Reading} {tag : Tag} {html : Bool}

/-! ### Commands by their names -/

theorem begins_of_startPrint {i : Input}
    (hi : i = tag.args ∧ tag.name = "print" ∨ i = tag.content ∧ tag.IsExpression)
    (h : startPrint r i tag = .ok r') : Begins r tag html r' := by
  obtain ⟨⟨e, ds⟩, he, h⟩ := exists_of_bind_ok h
  obtain rfl := Except.ok.inj h
  exact .print hi he

theorem begins_of_startIf (hname : tag.name = "if") (h : startIf r tag html = .ok r') :
    Begins r tag html r' := by
  obtain ⟨cond, hcond, h⟩ := exists_of_bind_ok h
  obtain rfl := Except.ok.inj h
  exact .condition hname hcond

theorem begins_of_startFor (hname : tag.name = "for") (h : startFor r tag html = .ok r') :
    Begins r tag html r' := by
  obtain ⟨⟨x, list⟩, hlist, h⟩ := exists_of_bind_ok h
  obtain rfl := Except.ok.inj h
  exact .loop hname hlist

theorem begins_of_startLet (hname : tag.name = "let") (h : startLet r tag html = .ok r') :
    Begins r tag html r' := by
  obtain ⟨⟨⟨w, s⟩, i⟩, hword, h⟩ := exists_of_bind_ok h
  dsimp only at h
  split at h
  · next x hw =>
    -- the variable is the word without its dollar sign
    have hdollar : w.toList = '$' :: (String.ofList x).toList := by rw [hw, String.toList_ofList]
    -- with a colon the value stands in the tag, without one it is the block that follows
    split at h
    · next j hcolon =>
      split at h
      · obtain ⟨e, he, h⟩ := exists_of_bind_ok h
        obtain rfl := Except.ok.inj h
        exact .value hname hword hcolon he hdollar
      · cases h
    · next hcolon =>
      obtain ⟨kind, -, h⟩ := exists_of_bind_ok h
      split at h
      · cases h
      · obtain rfl := Except.ok.inj h
        exact .content hname hword hcolon hdollar
  · cases h

/-- Settings of a call pass no parameters. -/
theorem callSetting_passed {c c' : Call} {s : Setting} (h : callSetting tag c s = .ok c') :
    c'.passed = c.passed := by
  unfold callSetting at h
  split at h
  · split at h
    · rw [← Except.ok.inj h]
    · cases h
  · split at h
    · rw [← Except.ok.inj h]
    · cases h

theorem begins_of_startCall (hname : tag.name = "call" ∨ tag.name = "delcall")
    (h : startCall r tag = .ok r') : Begins r tag html r' := by
  obtain ⟨⟨⟨callee, s⟩, i⟩, -, h⟩ := exists_of_bind_ok h
  obtain ⟨settings, -, h⟩ := exists_of_bind_ok h
  obtain ⟨c, hc, h⟩ := exists_of_bind_ok h
  -- the settings of the tag pass no parameter
  have hpassed : c.passed = [] :=
    foldlM_keeps (P := fun c => c.passed = [])
      (fun b s b' hb hpb => (callSetting_passed hb).trans hpb) hc rfl
  split at h
  · next hclosed =>
    obtain rfl := Except.ok.inj h
    exact .call hname hpassed hclosed
  · next hopen =>
    obtain rfl := Except.ok.inj h
    exact .openCall hname hpassed (Bool.eq_false_iff.mpr hopen)

theorem begins_of_startMessage (hname : tag.name = "msg") (h : startMessage r tag html = .ok r') :
    Begins r tag html r' := by
  obtain ⟨settings, -, h⟩ := exists_of_bind_ok h
  obtain ⟨⟨desc, meaning⟩, -, h⟩ := exists_of_bind_ok h
  dsimp only at h
  split at h
  · obtain rfl := Except.ok.inj h
    exact .message hname
  · cases h

theorem begins_of_startVisualElement (hname : tag.name = "velog")
    (h : startVisualElement r tag html = .ok r') : Begins r tag html r' := by
  obtain ⟨⟨⟨x, s⟩, i⟩, -, h⟩ := exists_of_bind_ok h
  obtain rfl := Except.ok.inj h
  exact .visualElement hname

/-- **Every command that is started** begins what its name says. -/
theorem begins_of_startCommand (h : startCommand r tag html = .ok r') : Begins r tag html r' := by
  unfold startCommand at h
  split at h
  · next hspecial =>
    obtain rfl := Except.ok.inj h
    exact .special hspecial
  -- one branch for each command
  · split at h
    · next hname => exact begins_of_startPrint (.inl ⟨rfl, hname⟩) h
    · next hname => exact begins_of_startIf hname h
    · next hname => exact begins_of_startFor hname h
    · next hname => exact begins_of_startLet hname h
    · next hname => exact begins_of_startCall (.inl hname) h
    · next hname => exact begins_of_startCall (.inr hname) h
    · next hname => exact begins_of_startMessage hname h
    · next hname => exact begins_of_startVisualElement hname h
    · -- any other tag is a print, unless its name is that of a tag for another place
      next hprint hif hfor hlet hcall hdelcall hmsg hvelog =>
      split at h
      · cases h
      · next hfile =>
        split at h
        · cases h
        · next hclosing =>
          split at h
          · cases h
          · next hpart =>
            split at h
            · cases h
            · next hheader =>
              -- what is left over is no command by any of these names
              have hcontent : tag.name ∉
                  ["print", "if", "for", "let", "call", "delcall", "msg", "velog"] := by
                simp only [List.mem_cons, List.not_mem_nil, or_false, not_or]
                exact ⟨hprint, hif, hfor, hlet, hcall, hdelcall, hmsg, hvelog⟩
              refine begins_of_startPrint (.inr ⟨rfl, hcontent, ?_, ?_, ?_, ?_⟩) h
              · rwa [List.contains_iff_mem] at hfile
              · exact Bool.eq_false_iff.mpr hclosing
              · rwa [List.contains_iff_mem] at hpart
              · exact Bool.eq_false_iff.mpr hheader

/-! ### Parameters of calls -/

/-- A parameter is one more of the call that is innermost. -/
theorem passParam_cases {p : Passed} {opener : Span} (h : passParam r p opener = .ok r') :
    (∃ call c below, r.frames = .call call c :: below ∧
        r' = r.replace (.call call { c with passed := c.passed ++ [p] })) ∨
      r' = r := by
  unfold passParam at h
  split at h
  · next call c below hfr =>
    split at h
    · cases h
    · exact .inl ⟨call, c, below, hfr, (Except.ok.inj h).symm⟩
  · exact .inr (Except.ok.inj h).symm

/-- A parameter with a value is passed, and one with content is open. -/
theorem startParam_cases (h : startParam r tag = .ok r') :
    ∃ (w : String × Span) (i : Input), tag.args.word "a param name" = .ok (w, i) ∧
      ((∃ j e, i.mark? [':'] = some j ∧ Expr.parse j.offset j.rest = .ok e ∧
          passParam r ⟨w.1, .value e, tag.span⟩ tag.span = .ok r') ∨
        ∃ kind, i.mark? [':'] = none ∧
          r' = r.push (.block tag (readsHtml kind true r.strict) (.param w.1 kind) [])) := by
  obtain ⟨⟨⟨x, s⟩, i⟩, hword, h⟩ := exists_of_bind_ok h
  refine ⟨(x, s), i, hword, ?_⟩
  dsimp only at h
  -- with a colon the tag holds the value, without one its value is the block that follows
  split at h
  · next j hcolon =>
    split at h
    · obtain ⟨e, he, h⟩ := exists_of_bind_ok h
      exact .inl ⟨j, e, hcolon, he, h⟩
    · cases h
  · next hcolon =>
    obtain ⟨kind, -, h⟩ := exists_of_bind_ok h
    split at h
    · cases h
    · exact .inr ⟨kind, hcolon, (Except.ok.inj h).symm⟩

end Markup

end TemplateFrontend
