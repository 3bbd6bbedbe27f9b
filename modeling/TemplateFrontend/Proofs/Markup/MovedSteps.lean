import TemplateFrontend.Proofs.Markup.MovedCommands
import TemplateFrontend.Proofs.Markup.TemplateDocs
/-!
# Steps in a text that is changed further on

A step of reading looks at little more than what it takes. So a step that ends before a text is changed is the
same step in the changed text. How much more it looks at depends on what is open: where something stays open, a
command follows that closes it, and no step looks past the brace of that command.

* `Markup.Move.Before`, `Markup.Move.Ahead`, `Markup.Move.Braced` — where an input stands;
* `Input.drop_moved`, `Input.takeWhile_moved`, `Tag.read_moved` — pieces of a changed text;
* `Markup.Alike` — texts that are the same up to a brace;
* `Markup.step_moved` — every step.
-/

namespace TemplateFrontend

open Text

namespace Markup.Move

variable (m : Move)

/-- The input stands before the change. -/
def Before (i : Input) : Prop := ∃ cs, i.rest = cs ++ m.old

/-- The input stands before the change, and not right before it unless nothing is changed there. -/
def Ahead (i : Input) : Prop := ∃ cs, i.rest = cs ++ m.old ∧ (m.old = m.new ∨ cs ≠ [])

/-- The input stands before the change, with a brace between the two unless nothing is changed there. -/
def Braced (i : Input) : Prop := ∃ cs, i.rest = cs ++ m.old ∧ (m.old = m.new ∨ '\x7b' ∈ cs)

variable {m : Move} {i j : Input}

/-- What is ahead of the change is before it. -/
theorem Ahead.before (h : m.Ahead i) : m.Before i := by
  obtain ⟨cs, hrest, -⟩ := h
  exact ⟨cs, hrest⟩

/-- A brace between the input and the change keeps them apart. -/
theorem Braced.ahead (h : m.Braced i) : m.Ahead i := by
  obtain ⟨cs, hrest, hcs⟩ := h
  exact ⟨cs, hrest, hcs.imp_right fun hmem => List.ne_nil_of_mem hmem⟩

/-- What has a brace between is before the change. -/
theorem Braced.before (h : m.Braced i) : m.Before i := h.ahead.before

/-- What stands further back stands before the change too. -/
theorem Before.of_after (h : m.Before j) (hij : i.After j) : m.Before i := by
  obtain ⟨n, rfl⟩ := hij
  obtain ⟨cs, hrest⟩ := h
  refine ⟨i.rest.take n ++ cs, ?_⟩
  rw [List.append_assoc, ← hrest]
  exact (List.take_append_drop n i.rest).symm

/-- What stands further back is ahead of the change too. -/
theorem Ahead.of_after (h : m.Ahead j) (hij : i.After j) : m.Ahead i := by
  obtain ⟨n, rfl⟩ := hij
  obtain ⟨cs, hrest, hcs⟩ := h
  refine ⟨i.rest.take n ++ cs, ?_, hcs.imp_right fun hne => List.append_ne_nil_of_right_ne_nil _ hne⟩
  rw [List.append_assoc, ← hrest]
  exact (List.take_append_drop n i.rest).symm

/-- The brace is between the change and what stands further back, too. -/
theorem Braced.of_after (h : m.Braced j) (hij : i.After j) : m.Braced i := by
  obtain ⟨n, rfl⟩ := hij
  obtain ⟨cs, hrest, hcs⟩ := h
  refine ⟨i.rest.take n ++ cs, ?_, hcs.imp_right (List.mem_append_right _)⟩
  rw [List.append_assoc, ← hrest]
  exact (List.take_append_drop n i.rest).symm

/-- Where a character is taken, the change does not come right after. -/
theorem Before.ahead_of_past (h : m.Before j) (hij : i.Past j) : m.Ahead i := by
  obtain ⟨n, hn, hle, rfl⟩ := hij.exists_drop
  obtain ⟨cs, hrest⟩ := h
  refine ⟨i.rest.take n ++ cs, ?_, .inr ?_⟩
  · rw [List.append_assoc, ← hrest]
    exact (List.take_append_drop n i.rest).symm
  · refine List.append_ne_nil_of_left_ne_nil ?_ _
    rw [ne_eq, List.take_eq_nil_iff, not_or]
    exact ⟨by omega, fun hnil => by rw [hnil, List.length_nil] at hle; omega⟩

end Markup.Move

/-! ### Pieces of a changed text -/

open Markup

section Pieces

variable {m : Move} {i : Input} {n : Nat}

/-- The text up to the change stays, and the new end takes the place of the old one. -/
theorem Input.moved_eq {cs : List Char} (h : i.rest = cs ++ m.old) :
    i.moved m = ⟨i.offset + m.dist, cs ++ m.new⟩ := by
  rw [moved, h, List.length_append, Nat.add_sub_cancel, List.take_left]

/-- Where nothing is changed, the text stays. -/
theorem Input.rest_moved_of_eq (h : m.Before i) (hsame : m.old = m.new) : (i.moved m).rest = i.rest := by
  obtain ⟨cs, hrest⟩ := h
  rw [moved_eq hrest, hrest, hsame]

/-- What is taken before the change is taken from the changed text too. -/
theorem Input.take_moved (hn : n ≤ i.rest.length) (h : m.Before (i.drop n)) :
    (i.moved m).rest.take n = i.rest.take n ∧ (i.moved m).drop n = (i.drop n).moved m := by
  obtain ⟨cs, hrest⟩ := h
  have hdrop : i.rest.drop n = cs ++ m.old := hrest
  have hlength : (i.rest.take n).length = n := List.length_take_of_le hn
  -- the text is what is taken, what is left of it before the change, and the end that is changed
  have hall : i.rest = i.rest.take n ++ cs ++ m.old := by
    rw [List.append_assoc, ← hdrop, List.take_append_drop]
  have hmoved : (i.moved m).rest = i.rest.take n ++ (cs ++ m.new) := by
    rw [moved_eq hall, List.append_assoc]
  have htake : (i.moved m).rest.take n = i.rest.take n := by
    rw [hmoved, List.take_append_of_le_length (Nat.le_of_eq hlength.symm),
      List.take_of_length_le (Nat.le_of_eq hlength)]
  -- the change is as far away from the input that is left as before
  refine ⟨htake, ?_⟩
  rw [moved_eq hrest]
  unfold drop
  rw [htake, hmoved, List.drop_append_of_le_length (Nat.le_of_eq hlength.symm),
    List.drop_of_length_le (Nat.le_of_eq hlength), List.nil_append]
  change Input.mk (i.offset + m.dist + _) _ = Input.mk (i.offset + _ + m.dist) _
  rw [Nat.add_right_comm]

/-- What is dropped before the change is dropped from the changed text too. -/
theorem Input.drop_moved (hn : n ≤ i.rest.length) (h : m.Before (i.drop n)) :
    (i.moved m).drop n = (i.drop n).moved m := (take_moved hn h).2

/-- What is taken stands at the front of the changed text. -/
theorem Input.exists_front {front cs : List Char} (hrest : i.rest = front ++ cs) (hle : front.length ≤ n)
    (hn : n ≤ i.rest.length) (h : m.Before (i.drop n)) : ∃ cs', (i.moved m).rest = front ++ cs' := by
  have htake := (take_moved hn h).1
  have hfront : (i.moved m).rest.take front.length = front := by
    rw [← Nat.min_eq_left hle, ← List.take_take, htake, List.take_take, Nat.min_eq_left hle, hrest,
      List.take_left]
  obtain ⟨cs', hcs'⟩ := List.prefix_iff_eq_take.mpr hfront.symm
  exact ⟨cs', hcs'.symm⟩

/-- A run of characters that ends before the change. -/
theorem Input.takeWhile_moved (p : Char → Bool) (h : m.Ahead (i.takeWhile p).2) :
    (i.moved m).takeWhile p = Prod.map id (Input.moved m) (i.takeWhile p) := by
  have hle : (i.rest.takeWhile p).length ≤ i.rest.length := (List.takeWhile_sublist p).length_le
  have hrun : (i.moved m).rest.takeWhile p = i.rest.takeWhile p := by
    obtain ⟨cs, hrest, hcs⟩ := h
    obtain hsame | hcs := hcs
    -- either nothing is changed, or the character that ends the run stands before the change
    · have hbefore : m.Before i := Move.Before.of_after ⟨cs, hrest⟩ (.takeWhile i p)
      exact congrArg (List.takeWhile p) (rest_moved_of_eq hbefore hsame)
    · have hdrop : i.rest.dropWhile p = cs ++ m.old := by
        rw [← hrest]
        exact (i.rest_takeWhile p).symm
      have hall : i.rest = i.rest.takeWhile p ++ cs ++ m.old := by
        rw [List.append_assoc, ← hdrop, List.takeWhile_append_dropWhile]
      obtain ⟨c, cs, rfl⟩ := List.exists_cons_of_ne_nil hcs
      -- what the run stops at does not satisfy the condition
      have hc : ¬ p c = true := by
        have hhead := List.head?_dropWhile_not p i.rest
        rw [hdrop] at hhead
        simpa using hhead
      rw [moved_eq hall, List.append_assoc, List.takeWhile_append_of_pos fun x hx => mem_takeWhile_imp hx,
        List.cons_append, List.takeWhile_cons_of_neg hc, List.append_nil]
  unfold takeWhile
  dsimp only [Prod.map_apply, id_eq]
  rw [hrun, drop_moved hle h.before]

/-- Blanks that end before the change. -/
theorem Input.skipBlanks_moved (h : m.Ahead i.skipBlanks) :
    (i.moved m).skipBlanks = i.skipBlanks.moved m := by
  rw [skipBlanks, takeWhile_moved Text.isBlank h]
  rfl

/-- **A tag** that ends before the change. -/
theorem Tag.read_moved {tag : Tag} {rest : Input} (h : Tag.read i = .ok (tag, rest)) (hrest : m.Before rest) :
    Tag.read (i.moved m) = .ok (tag.shift m.dist, rest.moved m) := by
  -- the text of the tag between its braces is at the front of the changed text, and ends there too
  have hpast := Tag.past_of_read h
  unfold Tag.read at h
  split at h
  · cases h
  · next body hbody =>
    obtain ⟨rfl, rfl⟩ := Prod.mk.inj (Except.ok.inj h)
    obtain ⟨more, hmore⟩ := Tag.exists_of_body?_eq_some hbody
    obtain ⟨c, cs, hi⟩ := List.exists_cons_of_ne_nil
      (List.length_pos_iff.mp (Nat.lt_of_le_of_lt (Nat.zero_le _) hpast.shorter))
    rw [hi, List.tail_cons] at hmore
    -- the text of the tag with its braces, and what is behind it
    have hall : i.rest = (c :: body ++ ['\x7d']) ++ more := by
      rw [hi, hmore, List.append_assoc]
      rfl
    have hlength : (c :: body ++ ['\x7d']).length = body.length + 2 := by
      rw [List.length_append]
      rfl
    have hle : body.length + 2 ≤ i.rest.length := by
      rw [hall, List.length_append, hlength]
      exact Nat.le_add_right _ _
    -- its closing brace is before the change, so the tag ends there in both texts
    obtain ⟨more', hmoved⟩ := Input.exists_front hall (Nat.le_of_eq hlength) hle hrest
    have hclosed : Tag.body? none (i.moved m).rest.tail = some body := by
      rw [hi, hmore, List.tail_cons, Tag.body?_eq_some_iff] at hbody
      rw [hmoved, List.append_assoc, List.cons_append, List.tail_cons]
      exact (Tag.body?_eq_some_iff more').mpr hbody
    have hopen : (i.moved m).drop 1 = (i.drop 1).moved m := by
      refine Input.drop_moved (Nat.le_trans (by omega) hle) (hrest.of_after ?_)
      exact ⟨body.length + 1, by rw [Input.drop_drop, Nat.add_comm 1]⟩
    unfold Tag.read
    rw [hclosed]
    dsimp only
    rw [Input.drop_moved hle hrest, hopen]
    rw [← Tag.ofBody_shift]
    rfl

end Pieces

/-! ### Comments -/

/-- Whether a text starts with a mark depends on as many characters as the mark has. -/
theorem isPrefixOf_append {mark : List Char} (cs : List Char) (hle : mark.length ≤ cs.length)
    (x : List Char) : mark.isPrefixOf (cs ++ x) = mark.isPrefixOf cs := by
  rw [Bool.eq_iff_iff, List.isPrefixOf_iff_prefix, List.isPrefixOf_iff_prefix]
  constructor
  · intro hfront
    exact List.prefix_of_prefix_length_le hfront (List.prefix_append cs x) hle
  · intro hfront
    exact hfront.trans (List.prefix_append cs x)

/-- The mark that is found first is found there whatever follows it. -/
theorem Text.splitAt?_append {mark cs x before rest : List Char}
    (h : splitAt? mark (cs ++ x) = some (before, rest)) (hle : before.length + mark.length ≤ cs.length)
    (y : List Char) : ∃ rest', splitAt? mark (cs ++ y) = some (before, rest') := by
  induction cs generalizing before with
  | nil =>
    obtain ⟨hbefore, hmark⟩ := Nat.add_eq_zero_iff.mp (Nat.le_zero.mp hle)
    rw [List.length_eq_zero_iff] at hbefore hmark
    subst hbefore hmark
    cases y with
    | nil => exact ⟨[], rfl⟩
    | cons c y => exact ⟨c :: y, rfl⟩
  | cons c cs ih =>
    -- the mark is looked for in characters that are there whatever follows
    have hmark (z : List Char) : mark.isPrefixOf (c :: (cs ++ z)) = mark.isPrefixOf (c :: cs) :=
      isPrefixOf_append (c :: cs) (Nat.le_trans (Nat.le_add_left _ _) hle) z
    rw [List.cons_append, splitAt?, hmark] at h ⊢
    split at h
    · next hfront =>
      obtain ⟨rfl, -⟩ := Prod.mk.inj (Option.some.inj h)
      exact ⟨_, if_pos hfront⟩
    -- the mark is found further on, in the same characters
    · next hfront =>
      obtain ⟨⟨before', rest'⟩, hsplit, heq⟩ := Option.map_eq_some_iff.mp h
      obtain ⟨rfl, rfl⟩ := Prod.mk.inj heq
      have hshort : before'.length + mark.length ≤ cs.length := by
        rw [List.length_cons, List.length_cons] at hle
        omega
      obtain ⟨rest'', hsplit'⟩ := ih hsplit hshort
      exact ⟨rest'', by rw [if_neg hfront, hsplit']; rfl⟩

namespace Markup

variable {m : Move} {r r' : Reading}

/-- **A comment** that ends before the change. -/
theorem skipComment_moved (h : skipComment r = .ok r') (hb : m.Before r'.input) :
    skipComment (r.moved m) = .ok (r'.moved m) := by
  unfold skipComment at h
  split at h
  · cases h
  · next n hn =>
    obtain rfl := Except.ok.inj h
    obtain ⟨-, hle⟩ := le_of_commentLength? hn
    obtain ⟨htake, hdrop⟩ := Input.take_moved hle hb
    -- the comment is as long in the changed text, since its closing mark is before the change
    have hn' : commentLength? (r.input.moved m).rest = some n := by
      obtain ⟨⟨before, rest⟩, hsplit, rfl⟩ := Option.map_eq_some_iff.mp hn
      have hlength := List.length_take_of_le hle
      rw [← List.take_append_drop (before.length + 2) r.input.rest] at hsplit
      obtain ⟨rest', hsplit'⟩ := splitAt?_append hsplit (Nat.le_of_eq hlength.symm)
        ((r.input.moved m).rest.drop (before.length + 2))
      rw [← htake, List.take_append_drop] at hsplit'
      rw [commentLength?, hsplit']
      rfl
    unfold skipComment
    rw [show (r.moved m).input = r.input.moved m from rfl, hn']
    dsimp only
    rw [htake, hdrop]
    rfl

/-- The marks around a comment are not shorter than two characters. -/
theorem skipComment_shorter (h : skipComment r = .ok r') :
    r'.input.rest.length + 2 ≤ r.input.rest.length := by
  unfold skipComment at h
  split at h
  · cases h
  · next n hn =>
    obtain rfl := Except.ok.inj h
    obtain ⟨htwo, hle⟩ := le_of_commentLength? hn
    rw [Input.drop, List.length_drop]
    omega

/-! ### Texts up to a brace -/

/-- A comment starts with a slash and an asterisk. -/
theorem startsComment_cons (c : Char) (cs : List Char) :
    startsComment (c :: cs) = (c == '/' && cs.head? == some '*') := by
  by_cases hc : c = '/'
  · subst hc
    cases cs with
    | nil => rfl
    | cons d cs => by_cases hd : d = '*' <;> simp [startsComment, hd]
  · simp [startsComment, hc]

/-- An HTML tag starts with a letter behind the angle bracket, or behind the slash of a closing tag. -/
theorem startsTag_cons (c : Char) (cs : List Char) :
    startsTag (c :: cs) =
      (c == '<' && (if cs.head? = some '/' then cs.tail.head? else cs.head?).any Char.isAlpha) := by
  by_cases hc : c = '<'
  · subst hc
    cases cs with
    | nil => rfl
    | cons d cs =>
      by_cases hd : d = '/'
      · subst hd
        cases cs <;> rfl
      · simp [startsTag, hd]
  · simp [startsTag, hc]

/-- The two texts are the same, or the same up to a brace. -/
inductive Alike : List Char → List Char → Prop
  | same (cs : List Char) : Alike cs cs
  | brace (cs cs' : List Char) : Alike ('\x7b' :: cs) ('\x7b' :: cs')
  | cons (c : Char) {cs cs' : List Char} (h : Alike cs cs') : Alike (c :: cs) (c :: cs')

namespace Alike

variable {cs cs' : List Char}

/-- What is put in front of both keeps them alike. -/
theorem append (h : Alike cs cs') (front : List Char) : Alike (front ++ cs) (front ++ cs') := by
  induction front with
  | nil => exact h
  | cons c front ih => exact .cons c ih

theorem head?_eq (h : Alike cs cs') : cs.head? = cs'.head? := by
  cases h <;> rfl

/-- The changed text is like the old one. -/
theorem symm (h : Alike cs cs') : Alike cs' cs := by
  induction h with
  | same cs => exact .same cs
  | brace cs cs' => exact .brace cs' cs
  | cons c _ ih => exact .cons c ih

/-- If one has a first character, both do. -/
theorem exists_cons {c : Char} {front : List Char} (h : Alike cs cs') (hcs : cs = c :: front) :
    ∃ front', cs' = c :: front' :=
  List.head?_eq_some_iff.mp (by rw [← h.head?_eq, hcs]; rfl)

/-- A front without a brace is the front of both. -/
theorem exists_append (h : Alike cs cs') (front : List Char) {tail : List Char} (hcs : cs = front ++ tail)
    (hbrace : '\x7b' ∉ front) : ∃ tail', cs' = front ++ tail' := by
  induction front generalizing cs cs' with
  | nil => exact ⟨cs', rfl⟩
  | cons c front ih =>
    rw [List.mem_cons, not_or] at hbrace
    cases h with
    | same => exact ⟨tail, hcs⟩
    -- the texts differ from a brace on, and the front has none
    | brace => exact absurd (List.cons.inj hcs).1 hbrace.1
    | cons d h =>
      obtain ⟨rfl, hmore⟩ := List.cons.inj hcs
      obtain ⟨tail', rfl⟩ := ih h hmore hbrace.2
      exact ⟨tail', rfl⟩

/-- Behind a first character that is no brace they are alike. -/
theorem tail (h : Alike cs cs') (hbrace : cs.head? ≠ some '\x7b') : Alike cs.tail cs'.tail := by
  cases h with
  | same => exact .same _
  | brace => exact absurd rfl hbrace
  | cons c h => exact h

/-- Whether a comment starts is seen before the brace. -/
theorem startsComment_eq (h : Alike cs cs') : startsComment cs = startsComment cs' := by
  cases h with
  | same | brace => rfl
  | cons c h => rw [startsComment_cons, startsComment_cons, h.head?_eq]

/-- Whether an HTML tag starts is seen before the brace. -/
theorem startsTag_eq (h : Alike cs cs') : startsTag cs = startsTag cs' := by
  cases h with
  | same | brace => rfl
  | cons c h =>
    rw [startsTag_cons, startsTag_cons, ← h.head?_eq]
    split
    · next hslash => rw [(h.tail (by rw [hslash]; decide)).head?_eq]
    · rfl

/-- Whether the text ends here is seen before the brace. -/
theorem endsText_eq (h : Alike cs cs') (html : Bool) : endsText html cs = endsText html cs' := by
  rw [endsText, endsText, h.head?_eq, h.startsComment_eq, h.startsTag_eq]

/-- A text is as long in the one as in the other. -/
theorem textLength_eq (h : Alike cs cs') (html : Bool) : textLength html cs = textLength html cs' := by
  induction h with
  | same => rfl
  | brace => rfl
  | cons c h ih => rw [textLength, textLength, (Alike.cons c h).endsText_eq html, ih]

end Alike

/-- Where a brace stands before the change, the changed text is the same up to that brace. -/
theorem Move.Braced.alike {i : Input} (h : m.Braced i) : Alike i.rest (i.moved m).rest := by
  obtain ⟨cs, hrest, hcs⟩ := h
  rw [Input.moved_eq hrest, hrest]
  obtain hsame | hcs := hcs
  · rw [hsame]
    exact .same _
  · obtain ⟨front, cs', rfl⟩ := List.append_of_mem hcs
    rw [List.append_assoc, List.append_assoc]
    exact (Alike.brace _ _).append front

/-! ### Steps in blocks -/

/-- What stands in front of the input that is left stands there in the changed text. -/
theorem exists_front_moved {i j : Input} (front : List Char) {cs : List Char}
    (hrest : i.rest = front ++ cs) (hij : i.Past j) (hle : j.rest.length + front.length ≤ i.rest.length)
    (hb : m.Before j) : ∃ cs', (i.moved m).rest = front ++ cs' := by
  obtain ⟨n, -, hn, rfl⟩ := hij.exists_drop
  rw [Input.drop, List.length_drop] at hle
  exact Input.exists_front hrest (by omega) hn hb

section Blocks

variable {opener tag : Tag} {html : Bool} {block : Block} {nodes : List NodeId} {below : List Frame}

/-- The start of a body moves with the rest. -/
theorem startBody_moved (r : Reading) : (startBody r).moved m = startBody (r.moved m) := by
  obtain ⟨input, file, doc, strict, frames⟩ := r
  cases frames with
  | nil => rfl
  | cons frame below =>
    cases frame with
    | block opener html block nodes => cases block <;> rfl
    | call | openTag | attributeValue => rfl

/-- What ends a block does not depend on where it stands. -/
theorem terminators_moved (opener : Tag) (block : Block) :
    (block.moved m).terminators (opener.shift m.dist) = block.terminators opener := by
  cases block <;> rfl

theorem inHeader_moved (block : Block) : (block.moved m).inHeader = block.inHeader := by
  cases block <;> rfl

/-- A declaration in a block of the changed text. -/
theorem declareInBlock_moved (r : Reading) (opener : Tag) (html : Bool) (block : Block) (nodes : List NodeId)
    (tag : Tag) : Maps (Reading.moved m) (declareInBlock r opener html block nodes tag)
      (declareInBlock (r.moved m) (opener.shift m.dist) html (block.moved m) nodes (tag.shift m.dist)) := by
  cases block with
  | template t header =>
    refine .ite (fun _ => .error _ _) fun _ => (declare_moved header r.doc tag r.input).bind fun header' _ => ?_
    exact .ok (Reading.moved_replace _ _)
  | branch | otherwise | loop | binding | message | visualElement | param => exact .error _ _

/-- **A tag in a block** of the changed text. -/
theorem tagInBlock_moved (h : m.before.length ≤ r.file.nodes.size) (opener : Tag) (html : Bool) (block : Block)
    (nodes : List NodeId) (tag : Tag) : Maps (Reading.moved m) (tagInBlock r opener html block nodes tag)
      (tagInBlock (r.moved m) (opener.shift m.dist) html (block.moved m) nodes (tag.shift m.dist)) := by
  unfold tagInBlock
  rw [terminators_moved, isClosing_shift, ← startBody_moved]
  refine .ite (fun _ => endBlock_moved h opener html block nodes.reverse tag) fun _ => ?_
  refine .ite (fun _ => .error _ _) fun _ => ?_
  refine .ite (fun _ => declareInBlock_moved r opener html block nodes tag) fun _ => ?_
  exact startCommand_moved (by rwa [Quiet.file_startBody]) tag html

/-- **A comment in a block** of the changed text. -/
theorem commentInBlock_moved (h : commentInBlock r opener html block nodes = .ok r') (hb : m.Before r'.input) :
    commentInBlock (r.moved m) (opener.shift m.dist) html (block.moved m) nodes = .ok (r'.moved m) := by
  obtain ⟨after, hafter, h⟩ := exists_of_bind_ok h
  unfold commentInBlock
  cases block with
  -- only in a template the comment may go to a parameter, which looks at the text before it
  | template t header =>
    have hkeeps : after.input = r'.input := by
      obtain rfl := Except.ok.inj h
      rfl
    rw [skipComment_moved hafter (hkeeps ▸ hb), ok_bind]
    obtain ⟨cs, hrest⟩ : m.Before r.input := (hkeeps ▸ hb).of_after (skipComment_after hafter)
    have hlength : m.old.length ≤ r.input.rest.length := by
      rw [hrest, List.length_append]
      exact Nat.le_add_left _ _
    obtain rfl := Except.ok.inj h
    have hattach : attachDoc (header.moved m) (r.moved m).input (after.moved m).doc =
        Prod.map (Header.moved m) id (attachDoc header r.input after.doc) :=
      attachDoc_moved header hlength after.doc
    dsimp only [Block.moved]
    rw [hattach, Reading.moved_replace]
    rfl
  | branch | otherwise | loop | binding | message | visualElement | param =>
    obtain rfl := Except.ok.inj h
    rw [skipComment_moved hafter hb, ok_bind]
    rfl

/-- **Text in a block** of the changed text. -/
theorem textInBlock_moved (hsize : m.before.length ≤ r.file.nodes.size)
    (hb : m.Braced (r.input.drop (textLength html r.input.rest))) :
    textInBlock (r.moved m) html (block.moved m) = (textInBlock r html block).moved m := by
  have hle := textLength_le html r.input.rest
  have hlength : textLength html (r.input.moved m).rest = textLength html r.input.rest :=
    ((hb.of_after (.drop _ _)).alike.textLength_eq html).symm
  obtain ⟨htake, hdrop⟩ := Input.take_moved hle hb.before
  have hall := List.length_take_of_le hle
  have htext : (r.moved m).input.rest.take (textLength html (r.moved m).input.rest) =
      r.input.rest.take (textLength html r.input.rest) := by
    change (r.input.moved m).rest.take (textLength html (r.input.moved m).rest) = _
    rw [hlength, htake]
  rw [textInBlock_eq, textInBlock_eq, inHeader_moved]
  dsimp only
  rw [htext, hall, show (r.moved m).input.drop _ = _ from hdrop]
  -- blanks between declarations are no text
  by_cases hskip : (block.inHeader && allBlank (r.input.rest.take (textLength html r.input.rest))) = true
  · rw [if_pos hskip, if_pos hskip]
    rfl
  · rw [if_neg hskip, if_neg hskip]
    cases joinLines (r.input.rest.take (textLength html r.input.rest)) with
    | none => rfl
    | some joined =>
      dsimp only
      rw [Reading.moved_emit (by rwa [Quiet.file_startBody]), startBody_moved]
      rfl

/-- What is open stays open where a node is complete. -/
theorem frames_emit_ne_nil (h : r.frames ≠ []) (k : NodeKind) (s : Span) : (r.emit k s).frames ≠ [] := by
  have hlength : (r.emit k s).frames.length = r.frames.length := by
    rw [← length_pending, Reading.pending_emit, length_pending]
  rw [ne_eq, ← List.length_eq_zero_iff, hlength, List.length_eq_zero_iff]
  exact h

/-- A text with a first character is not empty. -/
theorem one_le_of_head? {cs : List Char} {c : Char} (h : cs.head? = some c) : 1 ≤ cs.length := by
  obtain ⟨cs, rfl⟩ := List.head?_eq_some_iff.mp h
  exact Nat.succ_pos _

/-- The name of an HTML tag. -/
theorem htmlTagName_moved {i : Input} {n : Nat} (hn : n ≤ i.rest.length) (h : m.Ahead (htmlTagName i n).2) :
    htmlTagName (i.moved m) n = Prod.map id (Input.moved m) (htmlTagName i n) := by
  rw [htmlTagName, Input.drop_moved hn (h.before.of_after (.takeWhile _ _)), Input.takeWhile_moved _ h]
  rfl

/-- **An HTML tag** of the changed text. -/
theorem startHtmlTag_moved (hsize : m.before.length ≤ r.file.nodes.size)
    (hstarts : startsTag r.input.rest = true) (h : startHtmlTag r = .ok r') (hb : m.Braced r'.input) :
    startHtmlTag (r.moved m) = .ok (r'.moved m) := by
  have htwo := two_le_of_startsTag hstarts
  -- the second character tells whether the tag is a closing one
  have hsecond (hb : m.Braced r.input) : (r.moved m).input.rest.tail.head? = r.input.rest.tail.head? := by
    refine (hb.alike.tail fun hbrace => ?_).head?_eq.symm
    obtain ⟨cs, hrest⟩ := List.head?_eq_some_iff.mp hbrace
    rw [hrest] at hstarts
    cases hstarts
  rw [startHtmlTag_eq_ok_iff] at h ⊢
  cases h with
  | closeTag hslash hmark =>
    rw [Reading.input_emit] at hb
    have hend := hb.of_after (.drop _ 1)
    have hname := hend.of_after (.skipBlanks _)
    have hread : htmlTagName (r.moved m).input 2 = _ := htmlTagName_moved htwo hname.ahead
    have hafter : (htmlTagName (r.moved m).input 2).2.skipBlanks =
        (htmlTagName r.input 2).2.skipBlanks.moved m := by
      rw [hread]
      exact Input.skipBlanks_moved hend.ahead
    have hdrop := Input.drop_moved (one_le_of_head? hmark) hb.before
    -- the closing angle bracket is taken, so the brace comes after it
    have hclose := StartsHtmlTag.closeTag (r := r.moved m)
      ((hsecond (hname.of_after (after_htmlTagName _ 2))).trans hslash)
      (by rw [hafter, ← hend.alike.head?_eq]; exact hmark)
    rw [hafter, hdrop, hread] at hclose
    rwa [Reading.moved_emit (by exact hsize)]
  -- an opening tag is read up to its name, and the name ends at the brace at the latest
  | openTag hslash =>
    have hread : htmlTagName (r.moved m).input 1 = _ := htmlTagName_moved (by omega) hb.ahead
    have hopen := StartsHtmlTag.openTag (r := r.moved m)
      ((hsecond (hb.of_after (after_htmlTagName _ 1))).trans_ne hslash)
    rwa [hread] at hopen

/-- A comment in a block takes nothing but its characters. -/
theorem exists_of_commentInBlock (h : commentInBlock r opener html block nodes = .ok r') :
    ∃ after, skipComment r = .ok after ∧ r'.input = after.input := by
  obtain ⟨after, hafter, h⟩ := exists_of_bind_ok h
  refine ⟨after, hafter, ?_⟩
  cases block <;> (obtain rfl := Except.ok.inj h; rfl)

/-- Something stays open after text. -/
theorem frames_textInBlock (hfr : r.frames = .block opener html block nodes :: below) :
    (textInBlock r html block).frames ≠ [] := by
  obtain ⟨n, h⟩ | ⟨n, text, s, h⟩ := textInBlock_cases r html block
  · rw [h]
    exact hfr ▸ List.cons_ne_nil _ _
  · rw [h]
    refine frames_emit_ne_nil ?_ _ _
    rw [startBody_frames (r := { r with input := r.input.drop n }) hfr]
    exact List.cons_ne_nil _ _

/-- Something stays open after an HTML tag, be it the tag. -/
theorem frames_startHtmlTag (hfr : r.frames = .block opener html block nodes :: below)
    (h : startHtmlTag (startBody r) = .ok r') : r'.frames ≠ [] := by
  cases startHtmlTag_eq_ok_iff.mp h with
  | closeTag =>
    refine frames_emit_ne_nil ?_ _ _
    rw [startBody_frames hfr]
    exact List.cons_ne_nil _ _
  | openTag => exact List.cons_ne_nil _ _

/-- **One step in a block** of the changed text. -/
theorem inBlock_moved (hsize : m.before.length ≤ r.file.nodes.size)
    (hfr : r.frames = .block opener html block nodes :: below) (h : inBlock r opener html block nodes = .ok r')
    (hb : m.Before r'.input) (hopen : r'.frames ≠ [] → m.Braced r'.input) :
    inBlock (r.moved m) (opener.shift m.dist) html (block.moved m) nodes = .ok (r'.moved m) := by
  have hpast := inBlock_past hfr h
  -- raw text and HTML tags leave something open, so the texts are the same up to a brace
  have hplain (hne : r'.frames ≠ []) (hrest : r.input.rest ≠ [])
      (hcomment : ∀ cs, r.input.rest ≠ '/' :: '*' :: cs) (hbrace : ∀ cs, r.input.rest ≠ '\x7b' :: cs) :
      m.Braced r'.input ∧ (r.moved m).input.rest ≠ [] ∧
        (∀ cs, (r.moved m).input.rest ≠ '/' :: '*' :: cs) ∧
          (∀ cs, (r.moved m).input.rest ≠ '\x7b' :: cs) ∧
          startsTag (r.moved m).input.rest = startsTag r.input.rest := by
    have halike : Alike (r.moved m).input.rest r.input.rest := ((hopen hne).of_after hpast.after).alike.symm
    refine ⟨hopen hne, fun hnil => hrest ?_, fun cs hcs => ?_, fun cs hcs => ?_, halike.startsTag_eq⟩
    · rw [← List.head?_eq_none_iff, ← halike.head?_eq, hnil]
      rfl
    · obtain ⟨cs', hcs'⟩ := halike.exists_append ['/', '*'] hcs (by decide)
      exact hcomment cs' hcs'
    · obtain ⟨cs', hcs'⟩ := halike.exists_cons hcs
      exact hbrace cs' hcs'
  rw [inBlock_eq_ok_iff] at h ⊢
  cases h with
  | comment hrest h =>
    obtain ⟨after, hafter, hinput⟩ := exists_of_commentInBlock h
    obtain ⟨cs', hrest'⟩ := exists_front_moved ['/', '*'] hrest hpast
      (hinput ▸ skipComment_shorter hafter) hb
    exact .comment hrest' (commentInBlock_moved h hb)
  | @tag _ tag rest _ hrest hread h =>
    -- the command leaves the text behind its tag, so the tag is before the change
    obtain ⟨hinput, -⟩ := tagInBlock_moves (r := { r with input := rest }) hfr (name_of_read hread) h
    obtain ⟨cs', hrest'⟩ := exists_front_moved ['\x7b'] hrest hpast hpast.shorter hb
    have hread' := Tag.read_moved hread (show m.Before rest by rwa [hinput] at hb)
    have htag := tagInBlock_moved (r := { r with input := rest }) hsize opener html block nodes tag _ h
    exact .tag hrest' hread' htag
  | htmlTag hne hcomment hbrace hstarts h =>
    obtain ⟨hbraced, hne', hcomment', hbrace', hsame⟩ :=
      hplain (frames_startHtmlTag hfr h) hne hcomment hbrace
    -- the tag starts where the body does
    have hhtml : startsTag (startBody r).input.rest = true := by
      rw [input_startBody]
      exact (Bool.and_eq_true_iff.mp hstarts).2
    refine .htmlTag hne' hcomment' hbrace' (by rwa [hsame]) ?_
    rw [← startBody_moved]
    exact startHtmlTag_moved (by rwa [Quiet.file_startBody]) hhtml h hbraced
  | text hne hcomment hbrace hstarts =>
    obtain ⟨hbraced, hne', hcomment', hbrace', hsame⟩ := hplain (frames_textInBlock hfr) hne hcomment hbrace
    obtain ⟨hinput, -⟩ := textInBlock_moves hfr rfl rfl
    rw [hinput, List.length_take_of_le (textLength_le html _)] at hbraced
    rw [← textInBlock_moved hsize hbraced]
    exact .text hne' hcomment' hbrace' (by rwa [hsame])

end Blocks

/-! ### Steps in calls -/

section Calls

/-- **One step in a call** of the changed text. -/
theorem inCall_moved {opener : Tag} {c : Call} (hsize : m.before.length ≤ r.file.nodes.size)
    (h : inCall r opener c = .ok r') (hb : m.Before r'.input) :
    inCall (r.moved m) (opener.shift m.dist) (c.shift m.dist) = .ok (r'.moved m) := by
  -- after the blanks something is taken before the change
  have hskip (hpast : r.input.skipBlanks.Past r'.input) :
      (r.moved m).input.skipBlanks = r.input.skipBlanks.moved m :=
    Input.skipBlanks_moved (hb.ahead_of_past hpast)
  -- a command in a call is read in the changed text as in the old one
  have hcommand {tag : Tag} {rest : Input} {cs : List Char} (hrest : r.input.skipBlanks.rest = '\x7b' :: cs)
      (hread : Tag.read r.input.skipBlanks = .ok (tag, rest)) (hinput : r'.input = rest) :
      (∃ cs', (r.moved m).input.skipBlanks.rest = '\x7b' :: cs') ∧
        Tag.read (r.moved m).input.skipBlanks = .ok (tag.shift m.dist, rest.moved m) := by
    have hpast : r.input.skipBlanks.Past r'.input := hinput ▸ Tag.past_of_read hread
    rw [hskip hpast]
    exact ⟨exists_front_moved ['\x7b'] hrest hpast hpast.shorter hb, Tag.read_moved hread (hinput ▸ hb)⟩
  rw [inCall_eq_ok_iff] at h ⊢
  cases h with
  | comment hrest h =>
    have hpast := skipComment_past h
    obtain ⟨cs', hrest'⟩ := exists_front_moved ['/', '*'] hrest hpast (skipComment_shorter h) hb
    have hmoved := skipComment_moved h hb
    rw [← hskip hpast] at hrest'
    refine .comment hrest' ?_
    rw [hskip hpast]
    exact hmoved
  -- the call is a node now, at the place it had, moved
  | @ends tag rest _ hrest hread hname =>
    obtain ⟨⟨cs', hrest'⟩, hread'⟩ := hcommand hrest hread (Reading.input_emit _ _ _)
    rw [Reading.moved_complete (by exact hsize), Span.shift_union]
    exact .ends hrest' hread' hname
  | @param _ tag rest _ hrest hread hne hname h =>
    obtain ⟨⟨cs', hrest'⟩, hread'⟩ := hcommand hrest hread (startParam_started h hname).1
    exact .param hrest' hread' hne hname (startParam_moved { r with input := rest } tag _ h)

end Calls

/-! ### Steps in HTML tags -/

section Tags

variable {name : String} {start : Nat} {below : List Frame}

/-- The attribute is added to the tag that is open, wherever it stands. -/
theorem addAttribute_moved (r : Reading) (name : String) (start : Nat) (value : Option (List NodeId))
    (i : Input) : (addAttribute r name start value i).moved m =
      addAttribute (r.moved m) name (start + m.dist) value (i.moved m) := by
  obtain ⟨input, file, doc, strict, frames⟩ := r
  cases frames with
  | nil => rfl
  | cons frame below => cases frame <;> rfl

/-- The name of an attribute and the blanks after it. -/
theorem attributeName_moved {i : Input} (h : m.Ahead (afterAttributeName i)) :
    attributeName (i.moved m) = attributeName i ∧
      afterAttributeName (i.moved m) = (afterAttributeName i).moved m := by
  have hname : (i.moved m).takeWhile (! endsAttributeName ·) = _ :=
    Input.takeWhile_moved _ (h.of_after (.skipBlanks _))
  rw [attributeName, afterAttributeName, hname]
  exact ⟨rfl, Input.skipBlanks_moved h⟩

/-- The mark after the name, and the blanks after it. -/
theorem fromAttributeValue_moved {i : Input} (hmark : (afterAttributeName i).rest.head? = some '=')
    (h : m.Braced (fromAttributeValue i)) : attributeName (i.moved m) = attributeName i ∧
      (afterAttributeName (i.moved m)).rest.head? = some '=' ∧
      fromAttributeValue (i.moved m) = (fromAttributeValue i).moved m := by
  have hequals := h.of_after (.skipBlanks _)
  have hnamed := hequals.of_after (.drop _ 1)
  obtain ⟨hname, hafter⟩ := attributeName_moved hnamed.ahead
  refine ⟨hname, ?_, ?_⟩
  · rw [hafter, ← hnamed.alike.head?_eq]
    exact hmark
  · rw [fromAttributeValue, hafter, Input.drop_moved (one_le_of_head? hmark) hequals.before,
      Input.skipBlanks_moved h.ahead]
    rfl

/-- **An attribute** of the changed text. -/
theorem TakesAttribute.moved {i : Input} (hsize : m.before.length ≤ r.file.nodes.size)
    (h : TakesAttribute r i r') (hb : m.Braced r'.input) :
    TakesAttribute (r.moved m) (i.moved m) (r'.moved m) := by
  cases h with
  -- a name alone: the character behind it is still the same one
  | plain hname hmark =>
    rw [(addAttribute_keeps ..).1] at hb
    obtain ⟨hname', hafter⟩ := attributeName_moved hb.ahead
    have hmoved := TakesAttribute.plain (r := r.moved m) (i := i.moved m) (by rwa [hname'])
      (by rw [hafter, ← hb.alike.head?_eq]; exact hmark)
    rw [hname', hafter] at hmoved
    rwa [addAttribute_moved]
  -- the value is open now, so its quote stands before the brace
  | quoted hname hmark hrest hquote =>
    have hvalue := hb.of_after (.drop _ 1)
    obtain ⟨hname', hmark', hfrom⟩ := fromAttributeValue_moved hmark hvalue
    obtain ⟨cs', hrest'⟩ := hvalue.alike.exists_cons hrest
    have hmoved := TakesAttribute.quoted (r := r.moved m) (i := i.moved m) (by rwa [hname']) hmark'
      (by rw [hfrom, hrest']) hquote
    rwa [hname', hfrom, Input.drop_moved (by rw [hrest]; exact Nat.succ_pos _) hb.before] at hmoved
  | unquoted hname hmark hrest hquote =>
    rw [(addAttribute_keeps ..).1] at hb
    have hvalue := hb.of_after (.takeWhile _ _)
    obtain ⟨hname', hmark', hfrom⟩ := fromAttributeValue_moved hmark hvalue
    obtain ⟨cs', hrest'⟩ := hvalue.alike.exists_cons hrest
    have htext : unquotedValue ((fromAttributeValue i).moved m) = _ := Input.takeWhile_moved _ hb.ahead
    have hmoved := TakesAttribute.unquoted (r := r.moved m) (i := i.moved m) (by rwa [hname']) hmark'
      (by rw [hfrom, hrest']) hquote
    -- the new text is put at the same place
    have hfile (text : String) (j k : Input) :
        ((r.moved m).file.add (.text text) ⟨(j.moved m).offset, (k.moved m).offset⟩).1 =
          (r.file.add (.text text) ⟨j.offset, k.offset⟩).1.moved m :=
      congrArg Prod.fst (add_moved hsize (.text text) ⟨j.offset, k.offset⟩)
    rw [hname', hfrom, htext, Prod.map_snd, hfile,
      show (r.moved m).file.nodes.size = _ from size_moved hsize] at hmoved
    rwa [addAttribute_moved]

/-- Something stays open after an attribute. -/
theorem TakesAttribute.frames_ne_nil {i : Input} (hne : r.frames ≠ []) (h : TakesAttribute r i r') :
    r'.frames ≠ [] := by
  have hadded (r : Reading) (name : String) (start : Nat) (value : Option (List NodeId)) (i : Input)
      (hne : r.frames ≠ []) : (addAttribute r name start value i).frames ≠ [] := by
    rw [ne_eq, ← List.length_eq_zero_iff, ← length_pending, (addAttribute_keeps ..).2, length_pending,
      List.length_eq_zero_iff]
    exact hne
  cases h with
  | plain => exact hadded _ _ _ _ _ hne
  | quoted => exact List.cons_ne_nil _ _
  | unquoted => exact hadded _ _ _ _ _ hne

/-- **One step between the attributes of a tag** of the changed text. -/
theorem inOpenTag_moved {attributes : List Attribute} (hsize : m.before.length ≤ r.file.nodes.size)
    (hfr : r.frames = .openTag start name attributes :: below) (h : inOpenTag r start name attributes = .ok r')
    (hb : m.Before r'.input) (hopen : r'.frames ≠ [] → m.Braced r'.input) :
    inOpenTag (r.moved m) (start + m.dist) name (attributes.map (Attribute.shift m.dist)) = .ok (r'.moved m) := by
  -- after the blanks something is taken before the change
  have hskip (hpast : r.input.skipBlanks.Past r'.input) :
      (r.moved m).input.skipBlanks = r.input.skipBlanks.moved m :=
    Input.skipBlanks_moved (hb.ahead_of_past hpast)
  rw [inOpenTag_eq_ok_iff] at h ⊢
  cases h with
  | ends closed hrest =>
    rw [Reading.input_emit] at hb hskip
    have hne : r.input.skipBlanks.rest ≠ [] := by
      rw [hrest]
      exact List.append_ne_nil_of_left_ne_nil (tagEnd_ne_nil closed) _
    have hle : (tagEnd closed).length ≤ r.input.skipBlanks.rest.length := by
      rw [hrest, List.length_append]
      exact Nat.le_add_right _ _
    -- the marks of the end are taken, so they stand before the change
    have hskip' := hskip (.drop (List.length_pos_iff.mpr (tagEnd_ne_nil closed)) hne)
    obtain ⟨cs', hrest'⟩ := Input.exists_front hrest (Nat.le_refl _) hle hb
    have hmoved : GoesOnInTag (r.moved m) (start + m.dist) name (attributes.map (Attribute.shift m.dist)) _ :=
      .ends closed (by rw [hskip', hrest'])
    rw [hskip', Input.drop_moved hle hb, ← List.map_reverse] at hmoved
    rwa [Reading.moved_complete (by exact hsize)]
  | goesOn hends hbrace h =>
    -- the tag is still open, so the changed text has no end of a tag here either
    have hbraced := hopen (h.frames_ne_nil (hfr ▸ List.cons_ne_nil _ _))
    have halike := (hbraced.of_after h.past.after).alike
    have hskip' := hskip h.past
    refine .goesOn (fun closed cs hrest => ?_) ?_ (hskip' ▸ h.moved hsize hbraced)
    · rw [hskip'] at hrest
      obtain ⟨cs', hrest'⟩ := halike.symm.exists_append (tagEnd closed) hrest (by cases closed <;> decide)
      exact hends closed cs' hrest'
    · rw [hskip', ← halike.head?_eq]
      exact hbrace

/-- **One step in the value of an attribute** of the changed text. -/
theorem inAttributeValue_moved {quote : Char} {nodes : List NodeId}
    (hsize : m.before.length ≤ r.file.nodes.size)
    (hfr : r.frames = .attributeValue name start quote nodes :: below)
    (h : inAttributeValue r name start quote nodes = .ok r')
    (hb : m.Before r'.input) (hopen : r'.frames ≠ [] → m.Braced r'.input) :
    inAttributeValue (r.moved m) name (start + m.dist) quote nodes = .ok (r'.moved m) := by
  -- the first character is taken, so it stands before the change
  have hhead : (r.moved m).input.rest.head? = r.input.rest.head? := by
    have hpast := inAttributeValue_past h
    obtain ⟨c, cs, hrest⟩ := List.exists_cons_of_length_pos (Nat.zero_lt_of_lt hpast.shorter)
    obtain ⟨cs', hrest'⟩ := exists_front_moved [c] hrest hpast hpast.shorter hb
    rw [hrest, show (r.moved m).input.rest = _ from hrest']
    rfl
  rw [inAttributeValue_eq_ok_iff] at h ⊢
  cases h with
  -- the quote is the first character
  | ends hquote =>
    rw [(addAttribute_keeps ..).1] at hb
    have hmoved : GoesOnInValue (r.moved m) name (start + m.dist) quote nodes _ := .ends (hhead.trans hquote)
    rwa [show (r.moved m).input.drop 1 = _ from Input.drop_moved (one_le_of_head? hquote) hb,
      ← Reading.moved_pop, ← addAttribute_moved] at hmoved
  | @command _ tag rest hquote hbrace hread hprint hname h =>
    have hinput : r'.input = rest :=
      (startCommand_started (p := .body) rfl (name_of_read hread) (fun _ => rfl) h).1
    -- the command is read whole before the change
    have hread' := Tag.read_moved hread (hinput ▸ hb)
    have hstart := startCommand_moved (r := { r with input := rest }) hsize tag false r' h
    exact .command (hhead.trans_ne hquote) (hhead.trans hbrace) hread' hprint hname hstart
  -- the value stays open, so its text ends before the brace
  | text hne hquote hbrace =>
    have hbraced := hopen (frames_emit_ne_nil (hfr ▸ List.cons_ne_nil _ _) _ _)
    rw [Reading.input_emit] at hbraced
    have htext : valueText quote (r.moved m).input = _ := Input.takeWhile_moved _ hbraced.ahead
    have hne' : (r.moved m).input.rest ≠ [] := by
      rwa [ne_eq, ← List.head?_eq_none_iff, hhead, List.head?_eq_none_iff]
    have hmoved : GoesOnInValue (r.moved m) name (start + m.dist) quote nodes _ :=
      .text hne' (hhead.trans_ne hquote) (hhead.trans_ne hbrace)
    rw [htext] at hmoved
    rwa [Reading.moved_emit (by exact hsize)]

end Tags

/-! ### Steps at the top of a file -/

/-- A line comment ends at a line break or where the text does. -/
theorem ahead_of_lineComment {i : Input} (hold : m.old.head? = some '\x7b')
    (hb : m.Before (i.takeWhile (· != '\n')).2) : m.Ahead (i.takeWhile (· != '\n')).2 := by
  obtain ⟨cs, hrest⟩ := hb
  refine ⟨cs, hrest, .inr ?_⟩
  -- otherwise the comment would end at the brace that is changed
  rintro rfl
  have hhead := List.head?_dropWhile_not (· != '\n') i.rest
  rw [← Input.rest_takeWhile, hrest, List.nil_append, hold] at hhead
  cases hhead

/-- **One step at the top of a file** of the changed text. -/
theorem atTop_moved (hfr : r.frames = []) (h : atTop r = .ok r') (hb : m.Before r'.input)
    (hahead : m.Ahead r'.input ∨ r.input.skipBlanks.rest.head? = some '\x7b' ∨ m.old.head? = some '\x7b') :
    atTop (r.moved m) = .ok (r'.moved m) := by
  have hskip (hpast : r.input.skipBlanks.Past r'.input) :
      (r.moved m).input.skipBlanks = r.input.skipBlanks.moved m :=
    Input.skipBlanks_moved (hb.ahead_of_past hpast)
  rw [atTop_eq_ok_iff] at h ⊢
  cases h with
  | blank hrest =>
    -- only blanks are left, so the change does not start with a command
    have hahead' : m.Ahead r.input.skipBlanks := by
      obtain hahead | hbrace | hold := hahead
      · exact hahead
      · rw [hrest] at hbrace
        cases hbrace
      · obtain ⟨cs, hcs⟩ := hb
        rw [hrest, eq_comm, List.append_eq_nil_iff] at hcs
        rw [hcs.2] at hold
        cases hold
    -- nothing is left before the change, so nothing is changed
    have hsame : m.old = m.new := by
      obtain ⟨cs, hcs, hsame⟩ := hahead'
      rw [hrest, eq_comm, List.append_eq_nil_iff] at hcs
      exact hsame.resolve_right fun hne => hne hcs.1
    have hskipped : (r.moved m).input.skipBlanks = _ := Input.skipBlanks_moved hahead'
    have hmoved : GoesOnAtTop (r.moved m) _ := .blank (by rw [hskipped, Input.rest_moved_of_eq hb hsame, hrest])
    rwa [hskipped] at hmoved
  | comment hrest h =>
    have hpast := skipComment_past h
    obtain ⟨cs', hrest'⟩ := exists_front_moved ['/', '*'] hrest hpast (skipComment_shorter h) hb
    have hmoved := skipComment_moved h hb
    rw [← hskip hpast] at hrest'
    refine .comment hrest' ?_
    rw [hskip hpast]
    exact hmoved
  | lineComment hrest =>
    have hahead' : m.Ahead (r.input.skipBlanks.takeWhile (· != '\n')).2 := by
      obtain hahead | hbrace | hold := hahead
      · exact hahead
      · rw [hrest] at hbrace
        cases hbrace
      · exact ahead_of_lineComment hold hb
    -- both slashes are passed, and so is the rest of the line
    have hpast : r.input.skipBlanks.Past (r.input.skipBlanks.takeWhile (· != '\n')).2 :=
      .takeWhile hrest (by decide)
    have hshorter : (r.input.skipBlanks.takeWhile (· != '\n')).2.rest.length + 2 ≤
        r.input.skipBlanks.rest.length := by
      rw [Input.rest_takeWhile, hrest, List.dropWhile_cons_of_pos (by decide),
        List.dropWhile_cons_of_pos (by decide)]
      exact Nat.succ_le_succ (Nat.succ_le_succ (List.dropWhile_sublist _).length_le)
    obtain ⟨cs', hrest'⟩ := exists_front_moved ['/', '/'] hrest hpast hshorter hb
    rw [← hskip hpast] at hrest'
    have hmoved := GoesOnAtTop.lineComment hrest'
    rwa [hskip hpast, Input.takeWhile_moved _ hahead'] at hmoved
  | @declaration _ tag rest _ hrest hread h =>
    have hinput : r'.input = rest := (startDeclaration_moves (r := { r with input := rest }) hfr h).1
    have hpast : r.input.skipBlanks.Past r'.input := hinput ▸ Tag.past_of_read hread
    obtain ⟨cs', hrest'⟩ := exists_front_moved ['\x7b'] hrest hpast hpast.shorter hb
    have hread' := Tag.read_moved hread (hinput ▸ hb)
    rw [← hskip hpast] at hrest' hread'
    exact .declaration hrest' hread' (startDeclaration_moved { r with input := rest } tag _ h)

/-! ### Steps -/

/-- **A step** that ends before the change is the same step in the changed text. Where something stays open, the
change comes after a brace. Where nothing was open, it does not come right after the step, or else the step takes
a command, or a command follows. -/
theorem step_moved (hsize : m.before.length ≤ r.file.nodes.size) (h : step r = .ok r') (hb : m.Before r'.input)
    (hopen : r'.frames ≠ [] → m.Braced r'.input)
    (htop : r.frames = [] → m.Ahead r'.input ∨ r.input.skipBlanks.rest.head? = some '\x7b' ∨
      m.old.head? = some '\x7b') : step (r.moved m) = .ok (r'.moved m) := by
  unfold step at h ⊢
  cases hfr : r.frames with
  | nil =>
    rw [hfr] at h
    rw [show (r.moved m).frames = [] from congrArg (List.map _) hfr]
    exact atTop_moved hfr h hb (htop hfr)
  | cons frame below =>
    rw [hfr] at h
    rw [show (r.moved m).frames = frame.moved m :: below.map (Frame.moved m) from congrArg (List.map _) hfr]
    -- the same kind of frame stands on top on both sides
    cases frame with
    | block => exact inBlock_moved hsize hfr h hb hopen
    | call => exact inCall_moved hsize h hb
    | openTag => exact inOpenTag_moved hsize hfr h hb hopen
    | attributeValue => exact inAttributeValue_moved hsize hfr h hb hopen

end Markup

end TemplateFrontend
