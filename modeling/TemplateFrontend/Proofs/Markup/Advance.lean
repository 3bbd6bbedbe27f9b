import TemplateFrontend.Proofs.Markup.NestedFiles
import TemplateFrontend.Proofs.Markup.TagRanges
/-!
# Reading takes characters

Some readers may take nothing: blanks, runs of a class, values without quotes. Here it is shown that each
turn of a loop takes a character nonetheless, and never more of them than there are.

* `Input.Past` — an input that is left of another one after one character or more;
* `past_of_read`, `Setting.past_of_read`, `Input.Past.word` — tags, settings and words;
* `Input.settings_eq` — the loop over settings, without fuel;
* `Markup.atTop_past`, `Markup.inBlock_past`, `Markup.inCall_past`, `Markup.inOpenTag_past`,
  `Markup.inAttributeValue_past` — the steps in each kind of frame;
* `Markup.step_past` — every step but the last.
-/

namespace TemplateFrontend

open Text

/-! ### Inputs -/

namespace Input

variable {i j k : Input}

/-- What is left is no longer than it was. -/
theorem After.length_le (h : i.After j) : j.rest.length ≤ i.rest.length := by
  obtain ⟨n, rfl⟩ := h
  exact (List.drop_sublist n i.rest).length_le

/-- The second input is what is left of the first one after one character or more. -/
structure Past (i j : Input) : Prop where
  after : i.After j
  shorter : j.rest.length < i.rest.length

namespace Past

/-- Characters are dropped if there are any. -/
theorem drop {n : Nat} (hn : 0 < n) (hrest : i.rest ≠ []) : i.Past (i.drop n) := by
  refine ⟨.drop i n, ?_⟩
  have := List.length_pos_iff.mpr hrest
  rw [Input.drop, List.length_drop]
  omega

/-- Reading on after a character still takes one. -/
theorem trans_after (h : i.Past j) (h' : j.After k) : i.Past k :=
  ⟨h.after.trans h', Nat.lt_of_le_of_lt h'.length_le h.shorter⟩

/-- A character may be taken later. -/
theorem of_after (h : i.After j) (h' : j.Past k) : i.Past k :=
  ⟨h.trans h'.after, Nat.lt_of_lt_of_le h'.shorter h.length_le⟩

/-- The characters that are taken are there to be taken. -/
theorem exists_drop (h : i.Past j) : ∃ n, 0 < n ∧ n ≤ i.rest.length ∧ j = i.drop n := by
  obtain ⟨⟨n, rfl⟩, hshorter⟩ := h
  rw [Input.drop, List.length_drop] at hshorter
  obtain hn | hn := Nat.le_total n i.rest.length
  · exact ⟨n, by omega, hn, rfl⟩
  · -- more than all of them is all of them
    refine ⟨i.rest.length, by omega, Nat.le_refl _, ?_⟩
    rw [Input.drop, Input.drop, List.take_of_length_le hn, List.drop_of_length_le hn, List.take_length,
      List.drop_length]

/-- The offset grows with every character. -/
theorem offset_lt (h : i.Past j) : i.offset < j.offset := by
  obtain ⟨n, hn, hle, rfl⟩ := h.exists_drop
  have htaken : i.rest.take n ≠ [] := by
    rw [ne_eq, List.take_eq_nil_iff, not_or]
    exact ⟨by omega, fun hnil => by rw [hnil, List.length_nil] at hle; omega⟩
  exact Nat.lt_add_of_pos_right (byteLength_pos htaken)

/-- A run takes a character if the first one belongs to it. -/
theorem takeWhile {p : Char → Bool} {c : Char} {cs : List Char} (hrest : i.rest = c :: cs)
    (hc : p c = true) : i.Past (i.takeWhile p).2 := by
  refine drop ?_ (by rw [hrest]; exact List.cons_ne_nil c cs)
  rw [hrest, List.takeWhile_cons_of_pos hc]
  exact Nat.succ_pos _

/-- A mark that is found takes its characters. -/
theorem mark? {cs : List Char} (h : i.mark? cs = some j) (hcs : cs ≠ []) : i.Past j := by
  unfold Input.mark? at h
  dsimp only at h
  split at h
  · next hfront =>
    obtain rfl := Option.some.inj h
    refine of_after (.skipBlanks i) (drop (List.length_pos_iff.mpr hcs) fun hnil => hcs ?_)
    rw [hnil, List.isPrefixOf_iff_prefix, List.prefix_nil] at hfront
    exact hfront
  · cases h

end Past

/-- A word takes a character, as it is never empty. -/
theorem Past.word {expected : String} {w : String × Span} (h : i.word expected = .ok (w, j)) :
    i.Past j := by
  unfold Input.word at h
  dsimp only at h
  split at h
  · cases h
  · next n hzero =>
    obtain ⟨-, rfl⟩ := Prod.mk.inj (Except.ok.inj h)
    refine of_after (.skipBlanks i) (drop (Nat.pos_of_ne_zero hzero) fun hnil => hzero ?_)
    rw [hnil]
    rfl

end Input

/-! ### Settings -/

section Settings

variable {i j : Input}

/-- A setting takes a character, as it has a name. -/
theorem Setting.past_of_read {s : Setting} (h : Setting.read i = .ok (s, j)) : i.Past j := by
  unfold Setting.read at h
  obtain ⟨⟨⟨name, s'⟩, k⟩, hword, h⟩ := exists_of_bind_ok h
  have hname := Input.Past.word hword
  dsimp only at h
  split at h
  · next l hequals =>
    split at h
    · next m hquote =>
      -- behind the name come the equals sign, the quote and the value
      have hvalue := ((Input.After.mark? hequals).trans (.mark? hquote)).trans (.takeWhile m (· != '"'))
      split at h
      · cases h
      · obtain ⟨-, rfl⟩ := Prod.mk.inj (Except.ok.inj h)
        exact hname.trans_after (hvalue.trans (.drop _ 1))
    · cases h
  · cases h

/-- Where no characters are left, no settings are read, whatever the fuel. -/
theorem Setting.readAll_nil (n : Nat) (h : i.rest = []) : Setting.readAll n i = .ok [] := by
  cases n with
  | zero => rfl
  | succ n => rw [Setting.readAll, if_pos (by rw [Input.isBlank, h]; rfl)]

/-- With as much fuel as there are characters all settings are read. -/
theorem Setting.readAll_eq {n m : Nat} (hn : i.rest.length ≤ n) (hm : i.rest.length ≤ m) :
    Setting.readAll n i = Setting.readAll m i := by
  induction n generalizing i m with
  | zero =>
    -- without text there is nothing to read, whatever the fuel
    have hnil := List.length_eq_zero_iff.mp (Nat.le_zero.mp hn)
    rw [readAll_nil 0 hnil, readAll_nil m hnil]
  | succ n ih =>
    cases m with
    | zero =>
      have hnil := List.length_eq_zero_iff.mp (Nat.le_zero.mp hm)
      rw [readAll_nil 0 hnil, readAll_nil (n + 1) hnil]
    | succ m =>
      rw [Setting.readAll, Setting.readAll]
      split
      · rfl
      · refine bind_congr_of_ok fun a hread => ?_
        obtain ⟨s, j⟩ := a
        -- a setting leaves fewer characters, for which less fuel is enough
        have := (Setting.past_of_read hread).shorter
        dsimp only
        rw [ih (m := m) (by omega) (by omega)]

/-- The loop over settings, without fuel. -/
theorem Input.settings_eq (i : Input) :
    i.settings = if i.isBlank then .ok [] else (do
      let (s, j) ← Setting.read i
      let more ← j.settings
      pure (s :: more)) := by
  rw [Input.settings, Setting.readAll_eq (Nat.le_refl _) (Nat.le_succ _), Setting.readAll]
  split
  · rfl
  · refine bind_congr_of_ok fun a hread => ?_
    obtain ⟨s, j⟩ := a
    have := (Setting.past_of_read hread).shorter
    dsimp only
    rw [Setting.readAll_eq (by omega) (Nat.le_refl _)]
    rfl

end Settings

/-! ### Tags, comments and raw text -/

/-- A tag takes a character, its brace if no other. -/
theorem Tag.past_of_read {i rest : Input} {tag : Tag} (h : Tag.read i = .ok (tag, rest)) :
    i.Past rest := by
  obtain ⟨body, -, rfl, more, hmore⟩ := Markup.exists_of_read h
  refine .drop (Nat.succ_pos _) fun hnil => ?_
  rw [hnil] at hmore
  simp at hmore

/-- A text is cut where the mark stands. -/
theorem Text.splitAt?_eq_some {mark cs before rest : List Char}
    (h : splitAt? mark cs = some (before, rest)) : cs = before ++ rest ∧ mark <+: rest := by
  induction cs generalizing before with
  | nil =>
    unfold splitAt? at h
    split at h
    · next hmark =>
      obtain ⟨rfl, rfl⟩ := Prod.mk.inj (Option.some.inj h)
      exact ⟨rfl, List.isEmpty_iff.mp hmark ▸ List.nil_prefix⟩
    · cases h
  | cons c cs ih =>
    unfold splitAt? at h
    split at h
    · next hmark =>
      obtain ⟨rfl, rfl⟩ := Prod.mk.inj (Option.some.inj h)
      exact ⟨rfl, List.isPrefixOf_iff_prefix.mp hmark⟩
    -- the mark stands further on, and this character before it
    · obtain ⟨⟨before', rest'⟩, hsplit, heq⟩ := Option.map_eq_some_iff.mp h
      obtain ⟨rfl, rfl⟩ := Prod.mk.inj heq
      obtain ⟨rfl, hmark⟩ := ih hsplit
      exact ⟨rfl, hmark⟩

namespace Markup

/-- A comment ends in the text. -/
theorem le_of_commentLength? {cs : List Char} {n : Nat} (h : commentLength? cs = some n) :
    2 ≤ n ∧ n ≤ cs.length := by
  obtain ⟨⟨before, rest⟩, hsplit, rfl⟩ := Option.map_eq_some_iff.mp h
  obtain ⟨rfl, hmark⟩ := splitAt?_eq_some hsplit
  have := hmark.length_le
  dsimp only
  rw [List.length_append]
  exact ⟨Nat.le_add_left _ _, Nat.add_le_add_left this _⟩

/-- Raw text ends in the input. -/
theorem textLength_le (html : Bool) (cs : List Char) : textLength html cs ≤ cs.length := by
  induction cs with
  | nil => exact Nat.le_refl 0
  | cons c cs ih =>
    unfold textLength
    split
    · exact Nat.zero_le _
    · exact Nat.succ_le_succ ih

/-- Raw text that does not end at once takes a character. -/
theorem textLength_pos {html : Bool} {cs : List Char} (hne : cs ≠ [])
    (hends : endsText html cs = false) : 0 < textLength html cs := by
  cases cs with
  | nil => exact absurd rfl hne
  | cons c cs =>
    rw [textLength, if_neg (by rw [hends]; exact Bool.false_ne_true)]
    exact Nat.succ_pos _

/-- Where no comment, command or tag starts, raw text does not end. -/
theorem endsText_eq_false {html : Bool} {cs : List Char}
    (hcomment : ∀ tail, cs = '/' :: '*' :: tail → False)
    (hbrace : ∀ tail, cs = '\x7b' :: tail → False) (htag : ¬ (html && startsTag cs) = true) :
    endsText html cs = false := by
  -- no command starts here,
  have hhead : (cs.head? == some '\x7b') = false := by
    cases cs with
    | nil => rfl
    | cons c cs => exact beq_eq_false_iff_ne.mpr fun hc => hbrace cs (by rw [Option.some.inj hc])
  -- and no comment
  have hstar : startsComment cs = false := by
    unfold startsComment
    split
    · next tail => exact (hcomment tail rfl).elim
    · rfl
  rw [endsText, hhead, hstar]
  simpa using htag

/-! ### Steps -/

section Steps

variable {r r' : Reading} {below : List Frame}

/-- A comment takes a character. -/
theorem skipComment_past (h : skipComment r = .ok r') : r.input.Past r'.input := by
  unfold skipComment at h
  split at h
  · cases h
  · next n hn =>
    obtain rfl := Except.ok.inj h
    obtain ⟨htwo, hle⟩ := le_of_commentLength? hn
    exact .drop (by omega) (List.length_pos_iff.mp (by omega))

/-- **One step at the top of a file** takes a character if one is left. -/
theorem atTop_past (hfr : r.frames = []) (hrest : r.input.rest ≠ []) (h : atTop r = .ok r') :
    r.input.Past r'.input := by
  have hblanks := Input.After.skipBlanks r.input
  cases atTop_eq_ok_iff.mp h with
  | blank hnil =>
    -- there were only blanks
    refine ⟨hblanks, ?_⟩
    dsimp only
    rw [hnil]
    exact List.length_pos_iff.mpr hrest
  | comment _ h => exact .of_after hblanks (skipComment_past h)
  | lineComment hslash => exact .of_after hblanks (.takeWhile hslash (by decide))
  -- the declaration is in its tag, and reads nothing behind it
  | @declaration _ _ rest _ _ hread h =>
    obtain ⟨hinput, -⟩ := startDeclaration_moves (r := { r with input := rest }) hfr h
    rw [hinput]
    exact .of_after hblanks (Tag.past_of_read hread)

/-- **One step in a block** takes a character. -/
theorem inBlock_past {opener : Tag} {html : Bool} {block : Block} {nodes : List NodeId}
    (hfr : r.frames = .block opener html block nodes :: below)
    (h : inBlock r opener html block nodes = .ok r') : r.input.Past r'.input := by
  cases inBlock_eq_ok_iff.mp h with
  | comment _ h =>
    obtain ⟨after, hafter, h⟩ := exists_of_bind_ok h
    -- documentation is attached without reading on
    have hinput : r'.input = after.input := by
      cases block <;> (obtain rfl := Except.ok.inj h; rfl)
    rw [hinput]
    exact skipComment_past hafter
  | @tag _ _ rest _ _ hread h =>
    obtain ⟨hinput, -⟩ := tagInBlock_moves (r := { r with input := rest }) hfr (name_of_read hread) h
    rw [hinput]
    exact Tag.past_of_read hread
  -- the name of an HTML tag comes after one character or two
  | htmlTag hne _ _ _ h =>
    have hname (n : Nat) (hn : 0 < n) : r.input.Past (htmlTagName r.input n).2 :=
      (Input.Past.drop hn hne).trans_after (.takeWhile _ _)
    rw [← input_startBody r] at hname ⊢
    cases startHtmlTag_eq_ok_iff.mp h with
    | closeTag =>
      rw [Reading.input_emit]
      exact (hname 2 Nat.two_pos).trans_after ((Input.After.skipBlanks _).trans (.drop _ 1))
    | openTag => exact hname 1 Nat.one_pos
  | text hne hcomment hbrace hstarts =>
    obtain ⟨hinput, -⟩ := textInBlock_moves hfr rfl rfl
    have hends := endsText_eq_false hcomment hbrace hstarts
    rw [hinput, List.length_take_of_le (textLength_le html _)]
    exact .drop (textLength_pos hne hends) hne

/-- **One step in a call** takes a character. -/
theorem inCall_past {opener : Tag} {call : Call} (h : inCall r opener call = .ok r') :
    r.input.Past r'.input := by
  have hblanks := Input.After.skipBlanks r.input
  cases inCall_eq_ok_iff.mp h with
  | comment _ h => exact .of_after hblanks (skipComment_past h)
  | ends _ hread =>
    rw [Reading.input_emit]
    exact .of_after hblanks (Tag.past_of_read hread)
  | param _ hread _ hname h =>
    rw [(startParam_started h hname).1]
    exact .of_after hblanks (Tag.past_of_read hread)

/-- An attribute has a name, so it takes a character even if its value has none. -/
theorem TakesAttribute.past {i : Input} (h : TakesAttribute r i r') : i.Past r'.input := by
  -- the name is not empty, so the input is past it whatever follows
  have hname : i.Past (afterAttributeName i) := by
    refine Input.Past.trans_after ?_ (.skipBlanks _)
    exact .drop (List.length_pos_iff.mpr h.name_ne_nil) h.rest_ne_nil
  have hvalue : i.Past (fromAttributeValue i) :=
    hname.trans_after ((Input.After.drop _ 1).trans (.skipBlanks _))
  cases h with
  | plain =>
    rw [(addAttribute_keeps ..).1]
    exact hname
  | quoted => exact hvalue.trans_after (.drop _ 1)
  | unquoted =>
    rw [(addAttribute_keeps ..).1]
    exact hvalue.trans_after (.takeWhile _ _)

/-- **One step between the attributes of a tag** takes a character. -/
theorem inOpenTag_past {start : Nat} {name : String} {attributes : List Attribute}
    (h : inOpenTag r start name attributes = .ok r') : r.input.Past r'.input := by
  have hblanks := Input.After.skipBlanks r.input
  cases inOpenTag_eq_ok_iff.mp h with
  | ends closed hrest =>
    rw [Reading.input_emit]
    refine .of_after hblanks (.drop (List.length_pos_iff.mpr (tagEnd_ne_nil closed)) ?_)
    rw [hrest]
    exact List.append_ne_nil_of_left_ne_nil (tagEnd_ne_nil closed) _
  | goesOn _ _ h => exact .of_after hblanks h.past

/-- **One step in the value of an attribute** takes a character. -/
theorem inAttributeValue_past {name : String} {start : Nat} {quote : Char} {nodes : List NodeId}
    (h : inAttributeValue r name start quote nodes = .ok r') : r.input.Past r'.input := by
  cases inAttributeValue_eq_ok_iff.mp h with
  | ends hquote =>
    -- the quote is taken
    rw [(addAttribute_keeps ..).1]
    refine .drop Nat.one_pos fun hnil => ?_
    rw [hnil] at hquote
    cases hquote
  | command _ _ hread _ _ h =>
    -- the tag is taken before the command starts
    have hstarted := startCommand_started (p := .body) rfl (name_of_read hread) (fun _ => rfl) h
    rw [hstarted.1]
    exact Tag.past_of_read hread
  -- the first character neither ends the value nor starts a command
  | text hne hquote hbrace =>
    obtain ⟨c, cs, hrest⟩ := List.exists_cons_of_ne_nil hne
    rw [hrest, List.head?_cons] at hquote hbrace
    rw [Reading.input_emit]
    refine .takeWhile hrest ?_
    rw [Bool.not_eq_true', Bool.or_eq_false_iff, beq_eq_false_iff_ne, beq_eq_false_iff_ne]
    exact ⟨fun heq => hquote (congrArg some heq), fun heq => hbrace (congrArg some heq)⟩

/-- **One step** takes a character, unless everything was read. -/
theorem step_past (hdone : r.isDone = false) (h : step r = .ok r') : r.input.Past r'.input := by
  unfold step at h
  split at h
  · next hfr =>
    refine atTop_past hfr (fun hnil => ?_) h
    rw [Reading.isDone, hfr, hnil] at hdone
    cases hdone
  · next hfr => exact inBlock_past hfr h
  · exact inCall_past h
  · exact inOpenTag_past h
  · next hfr => exact inAttributeValue_past h

end Steps

end Markup

end TemplateFrontend
