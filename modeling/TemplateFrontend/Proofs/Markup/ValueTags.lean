import TemplateFrontend.Proofs.Markup.Advance
/-!
# Tags in the values of attributes

In the value of an attribute only special characters and prints are meant to stand, and `isPrintTag` tells
them from other commands by the name of a tag and the first character of its arguments: a plain word is taken
for an expression where an operator follows it. So it lets through a command whose arguments start with the
character of an operator. What is started for the tags that are let through is followed here, command by
command. A `{let}` needs a dollar sign and a `{msg}` needs settings, which no operator starts. But a word may
start with a dot or a dash, and those are enough for a `{delcall}` and for a `{velog}`.

* `Tag.Prints`, `Tag.SlipsIn` — the tags that are meant to be let through, and those that slip in;
* `NodeKind.StandsInValue`, `Markup.Frame.StandsOnValue` — what is made of either;
* `Markup.startCommand_inValue` — every tag that is let through, and starts a command, is one of them.
-/

namespace TemplateFrontend

open Text

/-! ### What a word may start with -/

/-- The word starts with a character that could be an operator. -/
def StartsLikeOperator (word : String) : Prop :=
  ∃ c cs, word.toList = c :: cs ∧ (c = '.' ∨ c = '-')

instance (word : String) : Decidable (StartsLikeOperator word) :=
  decidable_of_iff (word.toList.head? = some '.' ∨ word.toList.head? = some '-') <| by
    unfold StartsLikeOperator
    cases word.toList <;> simp [eq_comm, or_comm]

/-- The characters after which a plain word is taken for the start of an expression. -/
def Markup.operatorChars : List Char := "|(.+-*/%<>=!".toList

namespace Input

variable {i j : Input} {expected : String} {w : String × Span} {c : Char} {cs : List Char}

theorem skipBlanks_eq_self (hi : i.rest = c :: cs) (hc : Text.isBlank c = false) :
    i.skipBlanks = i := by
  have hnone : i.rest.takeWhile Text.isBlank = [] := by
    rw [hi]
    exact List.takeWhile_cons_of_neg (by simp [hc])
  rw [skipBlanks, takeWhile, hnone]
  rfl

/-- There is no word at the end of a text. -/
theorem rest_ne_nil_of_word (h : i.word expected = .ok (w, j)) : i.rest ≠ [] := by
  intro hnil
  have hskip : i.skipBlanks.rest = [] := by
    rw [skipBlanks, takeWhile, drop, hnil]
    rfl
  unfold word at h
  dsimp only at h
  rw [hskip] at h
  cases h

/-- A word that starts with an operator starts with one that may stand in words. -/
theorem word_of_operator (hi : i.rest = c :: cs) (hc : c ∈ Markup.operatorChars)
    (h : i.word expected = .ok (w, j)) : (c = '.' ∨ c = '-') ∧ ∃ more, w.1.toList = c :: more := by
  -- what is an operator is neither blank nor a dollar sign
  have hall : Markup.operatorChars.all (fun c =>
      !Text.isBlank c && c != '$' && (!isWordChar c || c == '.' || c == '-')) = true := by decide +kernel
  have hplain := List.all_eq_true.mp hall c hc
  simp only [Bool.and_eq_true, Bool.or_eq_true, Bool.not_eq_true', bne_iff_ne, beq_iff_eq] at hplain
  obtain ⟨⟨hblank, hdollar⟩, hword⟩ := hplain
  have hlength : wordLength (c :: cs) = ((c :: cs).takeWhile isWordChar).length := by
    unfold wordLength
    split
    · next heq => exact absurd (List.cons.inj heq).1 hdollar
    · rfl
  unfold word at h
  dsimp only at h
  rw [skipBlanks_eq_self hi hblank, hi, hlength] at h
  cases hchar : isWordChar c with
  -- no character of a word, so no word was read
  | false =>
    rw [List.takeWhile_cons_of_neg (by simp [hchar])] at h
    cases h
  | true =>
    rw [List.takeWhile_cons_of_pos hchar] at h
    obtain ⟨rfl, -⟩ := Prod.mk.inj (Except.ok.inj h)
    rw [hchar] at hword
    refine ⟨?_, cs.take (cs.takeWhile isWordChar).length, ?_⟩
    · exact hword.imp_left fun hdot => hdot.resolve_left Bool.noConfusion
    · rw [String.toList_ofList, List.length_cons, List.take_succ_cons]

end Input

/-! ### Tags that are let through -/

namespace Tag

variable {tag : Tag}

/-- The tag is meant to stand in the value of an attribute: it is a special character or a print, with or
without the word. -/
def Prints (tag : Tag) : Prop :=
  (SpecialChar.ofCommand? (String.ofList tag.content.rest)).isSome = true ∨ tag.name = "print" ∨
    tag.IsExpression

/-- The tag is taken for an expression, since its arguments start with an operator, but it is a command. -/
def SlipsIn (tag : Tag) : Prop :=
  (tag.name = "delcall" ∨ tag.name = "velog") ∧
    ∃ c cs, tag.args.rest = c :: cs ∧ (c = '.' ∨ c = '-')

end Tag

/-- The node may be found in the value of an attribute: it is text or a print, or what was made of a tag that
slipped in. -/
def NodeKind.StandsInValue : NodeKind → Prop
  | .text _ | .special _ | .print _ _ => True
  | .call c => c.delegate = true ∧ StartsLikeOperator c.callee
  | .visualElement name _ => StartsLikeOperator name
  | _ => False

namespace Markup

/-- The frame may be found on the value of an attribute: it was opened by a tag that slipped in. -/
def Frame.StandsOnValue : Frame → Prop
  | .call _ c => c.delegate = true ∧ StartsLikeOperator c.callee
  | .block _ _ (.visualElement name) _ => StartsLikeOperator name
  | _ => False

section Commands

variable {r r' : Reading} {tag : Tag} {html : Bool}

/-- Nothing or an operator follows a plain word that is let through. -/
theorem args_of_isPrintTag (h : isPrintTag tag = true)
    (hspecial : SpecialChar.ofCommand? (String.ofList tag.content.rest) = none)
    (hprint : tag.name ≠ "print") (hplain : tag.name.toList.all Char.isAlpha = true) :
    tag.args.rest = [] ∨ ∃ c cs, tag.args.rest = c :: cs ∧ c ∈ operatorChars := by
  unfold isPrintTag at h
  dsimp only at h
  rw [hspecial, beq_eq_false_iff_ne.mpr hprint, hplain] at h
  cases hargs : tag.args.rest with
  | nil => exact .inl rfl
  | cons c cs =>
    rw [hargs] at h
    refine .inr ⟨c, cs, rfl, ?_⟩
    -- a word without a dot passes only if an operator follows it
    cases hc : operatorChars.contains c with
    | true => exact List.contains_iff_mem.mp hc
    | false =>
      have hany : ((c :: cs).head?.any fun d => operatorChars.contains d) = false := hc
      rw [show ((c :: cs).head?.any fun d => "|(.+-*/%<>=!".toList.contains d) = false from hany] at h
      simp at h

section Word

variable {w : String × Span} {j : Input} {expected : String}

/-- The first word of arguments that an operator starts. -/
theorem startsLikeOperator_of_word
    (hargs : tag.args.rest = [] ∨ ∃ c cs, tag.args.rest = c :: cs ∧ c ∈ operatorChars)
    (h : tag.args.word expected = .ok (w, j)) :
    StartsLikeOperator w.1 ∧ ∃ c cs, tag.args.rest = c :: cs ∧ (c = '.' ∨ c = '-') := by
  obtain hnil | ⟨c, cs, hcs, hc⟩ := hargs
  · exact absurd hnil (Input.rest_ne_nil_of_word h)
  · obtain ⟨hfirst, more, hmore⟩ := Input.word_of_operator hcs hc h
    exact ⟨⟨c, more, hmore, hfirst⟩, c, cs, hcs, hfirst⟩

end Word

/-- Settings of a call change neither its callee nor whether that is a delegate. -/
theorem callSetting_callee {c c' : Call} {s : Setting} (h : callSetting tag c s = .ok c') :
    c'.callee = c.callee ∧ c'.delegate = c.delegate := by
  unfold callSetting at h
  split at h
  · split at h
    · rw [← Except.ok.inj h]
      exact ⟨rfl, rfl⟩
    · cases h
  · split at h
    · rw [← Except.ok.inj h]
      exact ⟨rfl, rfl⟩
    · cases h

/-- What a call calls is the first word of its arguments. -/
theorem exists_word_of_startCall (h : startCall r tag = .ok r') : ∃ w j c,
    tag.args.word "a template name" = .ok (w, j) ∧ c.callee = w.1 ∧
      c.delegate = decide (tag.name = "delcall") ∧ c.passed = [] ∧
      (r' = r.emit (.call c) tag.span ∨ r' = r.push (.call tag c)) := by
  obtain ⟨⟨⟨callee, s⟩, i⟩, hword, h⟩ := exists_of_bind_ok h
  obtain ⟨settings, -, h⟩ := exists_of_bind_ok h
  obtain ⟨c, hc, h⟩ := exists_of_bind_ok h
  -- the settings touch neither the name nor the parameters
  have hkeeps : (c.callee = callee ∧ c.delegate = decide (tag.name = "delcall")) ∧ c.passed = [] := by
    refine foldlM_keeps (P := fun c => (c.callee = callee ∧
      c.delegate = decide (tag.name = "delcall")) ∧ c.passed = []) ?_ hc ⟨⟨rfl, rfl⟩, rfl⟩
    rintro b s b' hb ⟨⟨hcallee, hdelegate⟩, hpassed⟩
    obtain ⟨hcallee', hdelegate'⟩ := callSetting_callee hb
    exact ⟨⟨hcallee'.trans hcallee, hdelegate'.trans hdelegate⟩, (callSetting_passed hb).trans hpassed⟩
  obtain ⟨⟨hcallee, hdelegate⟩, hpassed⟩ := hkeeps
  refine ⟨_, i, c, hword, hcallee, hdelegate, hpassed, ?_⟩
  split at h
  · exact .inl (Except.ok.inj h).symm
  · exact .inr (Except.ok.inj h).symm

/-- What is said of a visual element is the first word of its arguments. -/
theorem exists_word_of_startVisualElement (h : startVisualElement r tag html = .ok r') : ∃ w j,
    tag.args.word "a visual element name" = .ok (w, j) ∧
      r' = r.push (.block tag html (.visualElement w.1) []) := by
  obtain ⟨⟨w, j⟩, hword, h⟩ := exists_of_bind_ok h
  exact ⟨w, j, hword, (Except.ok.inj h).symm⟩

/-- No `{let}` is let through: its variable would start like an operator. -/
theorem startLet_ne_ok
    (hargs : tag.args.rest = [] ∨ ∃ c cs, tag.args.rest = c :: cs ∧ c ∈ operatorChars) :
    startLet r tag html ≠ .ok r' := by
  intro h
  obtain ⟨⟨⟨w, s⟩, i⟩, hword, h⟩ := exists_of_bind_ok h
  obtain ⟨⟨c, cs, hcs, hfirst⟩, -⟩ := startsLikeOperator_of_word hargs hword
  dsimp only at h
  split at h
  · next x hx =>
    obtain rfl := (List.cons.inj (hx.symm.trans hcs)).1
    obtain hfirst | hfirst := hfirst <;> exact absurd hfirst (by decide)
  · cases h

/-- The name of a setting is the first word of its text. -/
theorem exists_word_of_setting {i j : Input} {s : Setting} (h : Setting.read i = .ok (s, j)) :
    ∃ place k, i.word "an attribute" = .ok ((s.name, place), k) := by
  obtain ⟨⟨⟨name, place⟩, k⟩, hword, h⟩ := exists_of_bind_ok h
  refine ⟨place, k, ?_⟩
  -- whatever is wrong behind the word, its name is read first
  dsimp only at h
  split at h
  · split at h
    · split at h
      · cases h
      · obtain ⟨rfl, -⟩ := Prod.mk.inj (Except.ok.inj h)
        exact hword
    · cases h
  · cases h

/-- Arguments that are settings are none, or the first of them starts like an operator. -/
theorem settings_of_operator {settings : List Setting}
    (hargs : tag.args.rest = [] ∨ ∃ c cs, tag.args.rest = c :: cs ∧ c ∈ operatorChars)
    (h : tag.args.settings = .ok settings) :
    settings = [] ∨ ∃ s more, settings = s :: more ∧ StartsLikeOperator s.name := by
  rw [Input.settings_eq] at h
  split at h
  · exact .inl (Except.ok.inj h).symm
  · obtain ⟨⟨s, j⟩, hread, h⟩ := exists_of_bind_ok h
    obtain ⟨more, -, h⟩ := exists_of_bind_ok h
    obtain ⟨place, k, hword⟩ := exists_word_of_setting hread
    exact .inr ⟨s, more, (Except.ok.inj h).symm, (startsLikeOperator_of_word hargs hword).1⟩

/-- No `{msg}` is let through: its first setting would start like an operator. -/
theorem startMessage_ne_ok
    (hargs : tag.args.rest = [] ∨ ∃ c cs, tag.args.rest = c :: cs ∧ c ∈ operatorChars) :
    startMessage r tag html ≠ .ok r' := by
  intro h
  obtain ⟨settings, hsettings, h⟩ := exists_of_bind_ok h
  obtain rfl | ⟨s, more, rfl, hstarts⟩ := settings_of_operator hargs hsettings
  · -- without settings there is no description
    cases h
  -- it starts with an operator character, as no such name does
  · have hdesc : s.name ≠ "desc" := by
      intro heq
      rw [heq] at hstarts
      exact absurd hstarts (by decide)
    have hmeaning : s.name ≠ "meaning" := by
      intro heq
      rw [heq] at hstarts
      exact absurd hstarts (by decide)
    -- the first setting has no name that a message knows
    rw [List.foldlM_cons] at h
    dsimp only at h
    rw [if_neg hdesc, if_neg hmeaning] at h
    cases h

/-- **Tags that are let through.** What is started for such a tag is a print, a special character, or one of
the commands that slip in. -/
theorem startCommand_inValue (hlet : isPrintTag tag = true)
    (hname : ["if", "for", "call"].contains tag.name = false) (h : startCommand r tag html = .ok r') :
    (tag.Prints ∨ tag.SlipsIn) ∧
      ((∃ k, r' = r.emit k tag.span ∧ k.StandsInValue) ∨
        ∃ frame, r' = r.push frame ∧ frame.StandsOnValue) := by
  cases hspecial : SpecialChar.ofCommand? (String.ofList tag.content.rest) with
  -- a special character is put into the value as text
  | some c =>
    unfold startCommand at h
    rw [hspecial] at h
    exact ⟨.inl (.inl (hspecial ▸ rfl)), .inl ⟨_, (Except.ok.inj h).symm, trivial⟩⟩
  | none =>
    -- the names of commands are plain words, so an operator follows them, or nothing
    have hargs : tag.name.toList.all Char.isAlpha = true → tag.name ≠ "print" →
        tag.args.rest = [] ∨ ∃ c cs, tag.args.rest = c :: cs ∧ c ∈ operatorChars :=
      fun hplain hprint => args_of_isPrintTag hlet hspecial hprint hplain
    have hbegins := begins_of_startCommand h
    unfold startCommand at h
    rw [hspecial] at h
    dsimp only at h
    split at h
    · next heq =>
      obtain ⟨⟨e, ds⟩, -, h⟩ := exists_of_bind_ok h
      exact ⟨.inl (.inr (.inl heq)), .inl ⟨_, (Except.ok.inj h).symm, trivial⟩⟩
    · next heq => simp [heq] at hname
    · next heq => simp [heq] at hname
    · next heq => exact absurd h (startLet_ne_ok (hargs (by rw [heq]; decide) (by rw [heq]; decide)))
    · next heq => simp [heq] at hname
    · next heq =>
      -- the name of the delegate is read as a word, starting with that operator
      obtain ⟨w, j, c, hword, hcallee, hdelegate, -, hr'⟩ := exists_word_of_startCall h
      obtain ⟨hstarts, hfirst⟩ := startsLikeOperator_of_word
        (hargs (by rw [heq]; decide) (by rw [heq]; decide)) hword
      have hslips : c.delegate = true ∧ StartsLikeOperator c.callee :=
        ⟨hdelegate.trans (decide_eq_true heq), hcallee ▸ hstarts⟩
      refine ⟨.inr ⟨.inl heq, hfirst⟩, ?_⟩
      obtain rfl | rfl := hr'
      · exact .inl ⟨_, rfl, hslips⟩
      · exact .inr ⟨_, rfl, hslips⟩
    · next heq =>
      exact absurd h (startMessage_ne_ok (hargs (by rw [heq]; decide) (by rw [heq]; decide)))
    · next heq =>
      obtain ⟨w, j, hword, rfl⟩ := exists_word_of_startVisualElement h
      obtain ⟨hstarts, hfirst⟩ := startsLikeOperator_of_word
        (hargs (by rw [heq]; decide) (by rw [heq]; decide)) hword
      exact ⟨.inr ⟨.inr heq, hfirst⟩, .inr ⟨_, rfl, hstarts⟩⟩
    · next hprint hif hfor hlet' hcall hdelcall hmsg hvelog =>
      -- no command has the name, so the tag is an expression
      cases hbegins with
      | special hsome => rw [hspecial] at hsome; cases hsome
      | print hi =>
        obtain ⟨-, heq⟩ | ⟨-, hexpr⟩ := hi
        · exact absurd heq hprint
        · exact ⟨.inl (.inr (.inr hexpr)), .inl ⟨_, rfl, trivial⟩⟩
      | condition heq => exact absurd heq hif
      | loop heq => exact absurd heq hfor
      | value heq => exact absurd heq hlet'
      | content heq => exact absurd heq hlet'
      | call heq => exact (heq.elim hcall hdelcall).elim
      | openCall heq => exact (heq.elim hcall hdelcall).elim
      | message heq => exact absurd heq hmsg
      | visualElement heq => exact absurd heq hvelog

end Commands

end Markup

end TemplateFrontend
