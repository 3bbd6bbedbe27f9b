import TemplateFrontend.Proofs.Expr.Descent
import TemplateFrontend.Proofs.Markup.Advance
import TemplateFrontend.Proofs.Markup.Tracking
/-!
# Reading returns

The readers of a file bound their loops by fuel. No bound is needed: each turn of a loop, and each round of
readers that call each other, goes on in the text or returns, so every source is read to a tree or to an
error. What is cut out of the text on the way stands in it, between two of its characters.

Fuel occurs in three places, and each is dealt with where its loop is. The steps of a file are related to
their answer by a derivation of whatever length (`Markup.Returns`), which exists because a step leaves fewer
characters. The settings of a command satisfy the equation of the loop. The readers of expressions call each
other, so it is their calls that are shown to descend. What nests blocks is not a call but the stack of
frames, which a step makes deeper by one at most.

* `Input.Advances` — an input that starts further on in the text;
* `Markup.PiecesAdvance` — the readers of words, settings, tags, comments, raw text and tokens;
* `Markup.StepsAdvance` — the loops at the top of a file, in blocks, calls, tags and values;
* `Expr.Reader.CallsDescend` — the readers of expressions;
* `Markup.Returns` — the answer that steps lead to, as many as it takes;
* `parse_returns` — all of them for every source.
-/

namespace TemplateFrontend

open Text

/-! ### Going on in the text -/

/-- The second input starts further on in the text than the first one, and from the one to the other goes a
range of the text. -/
structure Input.Advances (content : List Char) (i j : Input) : Prop where
  /-- One character is taken or more, and they are there to be taken. -/
  taken : ∃ n, 0 < n ∧ n ≤ i.rest.length ∧ j = i.drop n
  offset_lt : i.offset < j.offset
  fits : Span.Fits content ⟨i.offset, j.offset⟩
  rest : j.PartOf content

/-- An input further on in the text is reached over a range of it. -/
theorem Input.Past.advances {content : List Char} {i j : Input} (h : i.Past j) (hi : i.PartOf content) :
    i.Advances content j :=
  ⟨h.exists_drop, h.offset_lt, hi.fits_until h.after, hi.after h.after⟩

namespace Markup

/-! ### Pieces -/

/-- What is read of a piece of the text stands in the text, and unless it is a run of characters, which may
be empty, reading goes on further in it. -/
structure PiecesAdvance (content : List Char) : Prop where
  run : ∀ {i : Input} (p : Char → Bool), i.PartOf content →
    StandsAt content i.offset (i.takeWhile p).1 ∧ (i.takeWhile p).2.PartOf content ∧
      (i.takeWhile p).2.offset = i.offset + byteLength (i.takeWhile p).1
  trim : ∀ {i : Input}, i.PartOf content → i.trim.PartOf content
  mark : ∀ {i j : Input} {cs : List Char}, i.PartOf content → cs ≠ [] → i.mark? cs = some j →
    i.Advances content j
  word : ∀ {i j : Input} {expected : String} {w : String × Span}, i.PartOf content →
    i.word expected = .ok (w, j) → i.Advances content j ∧ StandsAt content w.2.start w.1.toList ∧
      w.2.stop = w.2.start + byteLength w.1.toList
  setting : ∀ {i j : Input} {s : Setting}, i.PartOf content → Setting.read i = .ok (s, j) →
    i.Advances content j ∧ s.span.Fits content
  /-- The loop over settings is the one without fuel. -/
  settings : ∀ i : Input, i.settings = if i.isBlank then .ok [] else (do
    let (s, j) ← Setting.read i
    let more ← j.settings
    pure (s :: more))
  /-- The text of a tag and of its arguments stands in the range of the tag. -/
  tag : ∀ {i j : Input} {tag : Tag}, i.PartOf content → Tag.read i = .ok (tag, j) →
    i.Advances content j ∧ tag.Within content ∧ StandsAt content tag.content.offset tag.name.toList
  comment : ∀ {i : Input} {n : Nat}, i.PartOf content → commentLength? i.rest = some n →
    n ≤ i.rest.length ∧ i.Advances content (i.drop n)
  text : ∀ {i : Input} {html : Bool}, i.PartOf content → i.rest ≠ [] →
    endsText html i.rest = false → textLength html i.rest ≤ i.rest.length ∧
      i.Advances content (i.drop (textLength html i.rest))
  /-- The marks of an HTML tag are there where one starts. -/
  tagStart : ∀ {i : Input}, i.PartOf content → startsTag i.rest = true →
    let n := if i.rest.tail.head? == some '/' then 2 else 1
    n ≤ i.rest.length ∧ i.Advances content (i.drop n)
  /-- The tokens after one are read from what it leaves. -/
  token : ∀ {offset n : Nat} {c : Char} {cs : List Char} {l : Lexeme}, StandsAt content offset (c :: cs) →
    Token.readLexeme offset c cs = .ok (l, n) → n ≤ cs.length ∧
      Input.Advances content ⟨offset, c :: cs⟩ ⟨offset + byteLength (c :: cs.take n), cs.drop n⟩
  /-- No token is empty, and none starts before the one in front of it stops. -/
  inOrder : ∀ {offset : Nat} {cs : List Char} {ts : List Token}, StandsAt content offset cs →
    tokens offset cs = .ok ts →
      Token.SpansIn (Span.Fits content) ts ∧ Token.InOrder offset (offset + byteLength cs) ts

section Pieces

variable {content : List Char} {i j : Input}

/-- A word stands where it was read. -/
theorem stands_of_word {expected : String} {w : String × Span} (hi : i.PartOf content)
    (h : i.word expected = .ok (w, j)) :
    StandsAt content w.2.start w.1.toList ∧ w.2.stop = w.2.start + byteLength w.1.toList := by
  unfold Input.word at h
  dsimp only at h
  split at h
  · cases h
  · obtain ⟨rfl, -⟩ := Prod.mk.inj (Except.ok.inj h)
    dsimp only [Input.spanOf]
    rw [String.toList_ofList]
    exact ⟨(hi.after (.skipBlanks i)).take _, rfl⟩

/-- A tag starts with two characters. -/
theorem two_le_of_startsTag {cs : List Char} (h : startsTag cs = true) : 2 ≤ cs.length := by
  unfold startsTag at h
  split at h
  · exact Nat.le_add_left 2 _
  · exact Nat.le_add_left 2 _
  · cases h

/-- **Pieces.** -/
theorem piecesAdvance (content : List Char) : PiecesAdvance content where
  run p hi := ⟨hi.shorten (List.takeWhile_prefix p), hi.after (.takeWhile _ p), by
    dsimp only [Input.takeWhile, Input.drop]
    rw [Input.take_length_takeWhile]⟩
  trim hi := hi.trim
  mark hi hcs h := (Input.Past.mark? h hcs).advances hi
  word hi h := ⟨(Input.Past.word h).advances hi, stands_of_word hi h⟩
  setting hi h := by
    have hyields := Setting.read_yields hi
    rw [h] at hyields
    exact ⟨(Setting.past_of_read h).advances hi, hyields.1⟩
  settings := Input.settings_eq
  tag hi h := by
    have hyields := Tag.read_yields hi
    rw [h] at hyields
    obtain ⟨hwithin, -, -⟩ := hyields
    -- the name of a tag is the first word of its text
    refine ⟨(Tag.past_of_read h).advances hi, hwithin, ?_⟩
    rw [name_of_read h, String.toList_ofList]
    exact hwithin.whole.shorten (List.takeWhile_prefix _)
  comment {i n} hi h := by
    -- a comment has its opener at least
    obtain ⟨htwo, hle⟩ := le_of_commentLength? h
    have hpast : i.Past (i.drop n) := .drop (by omega) (List.length_pos_iff.mp (by omega))
    exact ⟨hle, hpast.advances hi⟩
  text hi hne hends :=
    ⟨textLength_le _ _, (Input.Past.drop (textLength_pos hne hends) hne).advances hi⟩
  tagStart {i} hi h := by
    have htwo := two_le_of_startsTag h
    have hne : i.rest ≠ [] := List.length_pos_iff.mp (by omega)
    dsimp only
    split
    · exact ⟨htwo, (Input.Past.drop Nat.two_pos hne).advances hi⟩
    · exact ⟨by omega, (Input.Past.drop Nat.one_pos hne).advances hi⟩
  token {offset n c cs l} hi h := by
    -- a token is written in the characters that it takes
    obtain ⟨hle, -⟩ := Token.written_of_readLexeme h
    have hpast : Input.Past ⟨offset, c :: cs⟩ (Input.drop ⟨offset, c :: cs⟩ (n + 1)) :=
      .drop (Nat.succ_pos n) (List.cons_ne_nil c cs)
    exact ⟨hle, hpast.advances hi⟩
  inOrder hi h := by
    have hyields := tokens_yields hi
    rw [h] at hyields
    exact ⟨hyields, (tokens_eq_ok_iff.mp h).inOrder⟩

end Pieces

/-! ### Steps -/

/-- A state that steps come to from the first character of a source. -/
inductive Reaches (source : SourceText) : Reading → Prop
  | start : Reaches source (.start source.path source.content.toList)
  | step {r r' : Reading} (h : Reaches source r) (hdone : r.isDone = false) (hstep : step r = .ok r') :
    Reaches source r'

/-- What holds of all states that steps come to. -/
structure StepsAdvance (source : SourceText) : Prop where
  input : ∀ {r : Reading}, Reaches source r → r.input.PartOf source.content.toList
  /-- Every step but the last goes on in the text, whatever is open. -/
  step : ∀ {r r' : Reading}, Reaches source r → r.isDone = false → step r = .ok r' →
    r.input.Advances source.content.toList r'.input
  /-- What is open is never deeper than the text that was read is long. -/
  depth : ∀ {r : Reading}, Reaches source r →
    r.frames.length + r.input.rest.length ≤ source.content.toList.length
  /-- The text between the last declaration and a comment, in which a line break is looked for. -/
  between : ∀ {r : Reading} {opener : Tag} {html : Bool} {t : Template} {header : Header}
    {nodes : List NodeId} {below : List Frame} {last : Input}, Reaches source r →
    r.frames = .block opener html (.template t header) nodes :: below → header.afterLast = some last →
    StandsAt source.content.toList last.offset
        (last.rest.take (last.rest.length - r.input.rest.length)) ∧
      Span.Fits source.content.toList ⟨last.offset, r.input.offset⟩

section Steps

variable {r r' : Reading} {source : SourceText}

/-- Documentation does not change what follows the last declaration. -/
theorem afterLast_attachDoc (header : Header) (rest : Input) (doc : Option String) :
    (attachDoc header rest doc).1.afterLast = header.afterLast := by
  unfold attachDoc
  split
  · dsimp only
    split <;> rfl
  · rfl

/-- What follows the last declaration of an open template is a piece of the text before the input. -/
def Block.LastBefore (content : List Char) (i : Input) : Block → Prop
  | .template _ header => ∀ last ∈ header.afterLast, last.PartOf content ∧ last.After i
  | _ => True

/-- The input stays a piece of the text, and so does what follows the last declaration. -/
theorem tracks_lastBefore (content : List Char) :
    Tracks (Input.PartOf content) (fun _ => True) (Block.LastBefore content) (fun _ _ => True) where
  input hij hi := hi.after hij
  node _ := trivial
  block {i b} h := by cases b <;> trivial
  after {i j b} hij h := by
    cases b with
    | template t header => exact fun last hlast => ⟨(h last hlast).1, (h last hlast).2.trans hij⟩
    | _ => trivial
  header := nofun
  closeHeader {i b} h := by cases b <;> exact h
  declare {i t header header' doc tag} hi _ h := by
    -- a declaration notes the input behind it
    have hlast : header'.afterLast = some i := by
      obtain ⟨decl, rfl, -⟩ | ⟨decl, j, rfl, -⟩ := declare_cases h <;> rfl
    intro last hmem
    rw [hlast] at hmem
    obtain rfl := Option.mem_some.mp hmem
    -- the input stands right after the declaration
    exact ⟨hi, .refl _⟩
  attachDoc {i rest t header doc} h last hlast := h last (afterLast_attachDoc header rest doc ▸ hlast)
  template _ := trivial
  startLoop _ := trivial
  loop _ := trivial
  startValue _ _ := trivial
  startContent _ _ := trivial
  content _ := trivial
  startTag _ _ := trivial
  takeAttribute _ _ := trivial
  tag _ := trivial

/-- In every state the input is a piece of the text. -/
theorem Reaches.kept (h : Reaches source r) :
    Kept (Input.PartOf source.content.toList) (fun _ => True)
      (Block.LastBefore source.content.toList) (fun _ _ => True) r := by
  induction h with
  | start => exact .start source.path (.whole _)
  | step _ _ hstep ih => exact ih.step (tracks_lastBefore _) hstep

/-- A piece opens one thing at most. -/
theorem Moves.length_le {stack stack' : List Pending} {w : Piece} (h : Moves stack w stack') :
    stack'.length ≤ stack.length + 1 := by
  induction h with
  | stays | elseif | otherwise => exact Nat.le_succ _
  | opens => exact Nat.le_refl _
  | closes => exact Nat.le_add_right _ 2
  | starts _ ih => exact ih

/-- As many things are pending as frames are open. -/
theorem length_pending (r : Reading) : r.pending.length = r.frames.length := List.length_map _

/-- There are no more frames than characters that were read. -/
theorem Reaches.depth_le (h : Reaches source r) :
    r.frames.length + r.input.rest.length ≤ source.content.toList.length := by
  induction h with
  | start => exact Nat.le_of_eq (Nat.zero_add _)
  | step _ hdone hstep ih =>
    -- a step that opens something takes a character
    have hshorter := (step_past hdone hstep).shorter
    have hopens := (step_takes hstep).moves.length_le
    rw [length_pending, length_pending] at hopens
    omega

/-- **Steps.** -/
theorem stepsAdvance (source : SourceText) : StepsAdvance source where
  input h := h.kept.input
  step h hdone hstep := (step_past hdone hstep).advances h.kept.input
  depth h := h.depth_le
  between h hfr hlast := by
    obtain ⟨hpart, hafter⟩ := h.kept.innermost hfr _ hlast
    exact ⟨hpart.take _, hpart.fits_until hafter⟩

/-- Steps lead from the state to the answer, as many as it takes. -/
inductive Returns : Reading → Except SyntaxError TemplateFile → Prop
  | done {r : Reading} (hdone : r.isDone = true) : Returns r (.ok r.file)
  | fails {r : Reading} {e : SyntaxError} (hdone : r.isDone = false) (hstep : step r = .error e) :
    Returns r (.error e)
  | goes {r r' : Reading} {a : Except SyntaxError TemplateFile} (hdone : r.isDone = false)
    (hstep : step r = .ok r') (h : Returns r' a) : Returns r a

/-- Only one answer, since only one rule applies to a state. -/
theorem Returns.unique {a b : Except SyntaxError TemplateFile} (h : Returns r a) (h' : Returns r b) :
    a = b := by
  induction h with
  | done hdone =>
    cases h' with
    | done => rfl
    | fails hnot | goes hnot => rw [hdone] at hnot; cases hnot
  | fails hdone hstep =>
    cases h' with
    | done hnot => rw [hdone] at hnot; cases hnot
    -- one step has one result, so both fail with the same error
    | fails _ hstep' =>
      rw [hstep] at hstep'
      rw [Except.error.inj hstep']
    | goes _ hstep' => rw [hstep] at hstep'; cases hstep'
  -- both go on in the same state
  | goes hdone hstep _ ih =>
    cases h' with
    | done hnot => rw [hdone] at hnot; cases hnot
    | fails _ hstep' => rw [hstep] at hstep'; cases hstep'
    | goes _ hstep' h' =>
      rw [hstep] at hstep'
      obtain rfl := Except.ok.inj hstep'
      exact ih h'

/-- **All steps.** With more fuel than there are characters it does not run out. -/
theorem returns_run {fuel : Nat} (hfuel : r.input.rest.length < fuel) : Returns r (run fuel r) := by
  induction fuel generalizing r with
  | zero => exact absurd hfuel (Nat.not_lt_zero _)
  | succ fuel ih =>
    rw [run]
    cases hdone : r.isDone with
    | true => exact .done hdone
    | false =>
      rw [if_neg Bool.false_ne_true]
      cases hstep : step r with
      | error e => exact .fails hdone hstep
      | ok r' =>
        -- one less fuel is still more than the characters that the step leaves
        have := (step_past hdone hstep).shorter
        exact .goes hdone hstep (ih (by omega))

end Steps

end Markup

/-! ### Expressions -/

namespace Expr.Reader

/-- What holds of all calls between the readers of expressions, and of those that expressions, the arguments
of directives and directives start with. -/
structure CallsDescend (stop : Stop) : Prop where
  /-- A reader is called on fewer of the tokens, or on the same ones by a reader that stands above it. -/
  call : ∀ {α β : Type} {job : Job α} {job' : Job β} {ts ts' : List Token},
    Calls stop job ts job' ts' → Leaves 1 ts ts' ∨ ts' = ts ∧ job'.rank < job.rank
  /-- A reader that comes back to itself, or to one that stands as high, has taken a token. -/
  cycle : ∀ {α β : Type} {job : Job α} {job' : Job β} {ts ts' : List Token} {k : Nat},
    CallsIn stop job ts k job' ts' → 0 < k → job.rank ≤ job'.rank → ts'.length < ts.length
  chain : ∀ {α β : Type} {job : Job α} {job' : Job β} {ts ts' : List Token} {k : Nat},
    CallsIn stop job ts k job' ts' → k ≤ job.height ts
  /-- Nothing else is called. -/
  only : ∀ {α : Type} {job : Job α} {ts : List Token} {n m : Nat}, job.CallsAgree stop n m ts →
    job.run stop (n + 1) ts = job.run stop (m + 1) ts
  /-- With fuel for a longer chain than there is, all amounts give the same answer. -/
  fuel : ∀ {α : Type} {job : Job α} {ts : List Token} {n m : Nat}, job.height ts < n →
    job.height ts < m → job.run stop n ts = job.run stop m ts
  expr : ∀ {ts : List Token} {n : Nat}, (Job.binary 0).height ts < n → binary stop n 0 ts = expr stop ts
  arguments : ∀ {ts : List Token} {n : Nat}, Job.items.height ts < n →
    items stop n ts = directiveArgs stop ts
  directives : ∀ {ts : List Token} {n m : Nat}, ts.length ≤ n → ts.length ≤ m →
    directives stop n ts = directives stop m ts

/-- **Expressions.** -/
theorem callsDescend (stop : Stop) : CallsDescend stop where
  call h := h.descends
  cycle h hk hrank := h.length_lt hk hrank
  chain h := Nat.le_trans (Nat.le_add_left _ _) h.height_le
  only h := Job.run_congr h
  fuel hn hm := Job.run_eq hn hm
  expr {ts n} hn := by
    -- the fuel is more than the height of the first call
    have hdepth : (Job.binary 0).height ts < depth ts := by
      rw [Job.height, Job.rank, depth]
      omega
    exact Job.run_eq hn hdepth
  arguments {ts n} hn := by
    have hdepth : Job.items.height ts < depth ts := by
      rw [Job.height, Job.rank, depth]
      omega
    exact Job.run_eq hn hdepth
  directives hn hm := directives_eq hn hm

end Expr.Reader

/-- **Every source is read to a tree or to an error.** Steps lead to the answer and to no other one, and a
bound on their number does not matter where it is more than the characters. Each step but the last goes on in
the text, whatever is open; so do the readers of what a step takes, and the readers of expressions take a
token before they come back to themselves. What is cut out of the text stands in it. -/
theorem parse_returns (source : SourceText) :
    let start := Markup.Reading.start source.path source.content.toList
    Markup.Returns start (parse source) ∧ (∀ a, Markup.Returns start a → a = parse source) ∧
      (∀ fuel, source.content.toList.length < fuel → Markup.run fuel start = parse source) ∧
      Markup.StepsAdvance source ∧ Markup.PiecesAdvance source.content.toList ∧
      ∀ stop, Expr.Reader.CallsDescend stop := by
  have hparse : Markup.Returns (.start source.path source.content.toList) (parse source) :=
    Markup.returns_run (Nat.lt_succ_self _)
  refine ⟨hparse, fun a ha => ha.unique hparse, fun fuel hfuel => ?_, Markup.stepsAdvance source,
    Markup.piecesAdvance _, Expr.Reader.callsDescend⟩
  exact (Markup.returns_run hfuel).unique hparse

end TemplateFrontend
