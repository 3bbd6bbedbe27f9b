import TemplateFrontend.Proofs.Message.Collected
import TemplateFrontend.Proofs.Compiler.Forests
import TemplateFrontend.Proofs.Transform.SpecialChars
/-!
# Messages with special characters

A message is collected from the nodes of its body, whether special characters were written out before or not.
The only trace that a character without a text leaves is an empty text between two placeholders, which no
pattern shows.

* `MessagePart.shown_foldl_append` — empty texts make no difference to the parts that are shown;
* `Message.Same`, `TemplateFile.ExpandsSpecials.messages` — the messages of a file before and after;
* `FileSet.expandsSpecials_desugarSyntax` — special characters written out in every file.
-/

namespace TemplateFrontend

/-! ### Parts without empty texts -/

namespace MessagePart

variable {p : MessagePart} {ps qs : List MessagePart}

/-- The pieces end with a text, or with something else, or are none. -/
theorem exists_text_or (ps : List MessagePart) :
    (∃ init s, ps = init ++ [.text s]) ∨ ∀ q ∈ ps.getLast?, q.isText = false := by
  obtain rfl | ⟨init, q, rfl⟩ := List.eq_nil_or_concat' ps
  · exact .inr fun q hq => nomatch hq
  · cases q with
    | text s => exact .inl ⟨init, s, rfl⟩
    | placeholder name =>
      refine .inr fun q hq => ?_
      rw [List.getLast?_concat] at hq
      exact Option.some.inj hq ▸ rfl

/-- A text behind a text is joined to it. -/
theorem append_concat_text (ps : List MessagePart) (s t : String) :
    append (ps ++ [.text s]) (.text t) = ps ++ [.text (s ++ t)] := by
  have hlast : (ps ++ [MessagePart.text s]).getLast? = some (.text s) := List.getLast?_concat
  unfold append
  rw [hlast]
  exact congrArg (· ++ [MessagePart.text (s ++ t)]) List.dropLast_concat

/-- Behind anything else a piece stands by itself. -/
theorem append_of_last (h : ∀ q ∈ ps.getLast?, q.isText = false) (p : MessagePart) :
    append ps p = ps ++ [p] := by
  unfold append
  split
  · next s t hlast => cases h _ hlast
  · rfl

/-- A placeholder always stands by itself. -/
theorem append_placeholder (ps : List MessagePart) (name : String) :
    append ps (.placeholder name) = ps ++ [.placeholder name] := by
  unfold append
  split
  · next h => cases h
  · rfl

/-- What is shown of two lists is shown one after the other. -/
theorem shown_append (ps qs : List MessagePart) : shown (ps ++ qs) = shown ps ++ shown qs := by
  rw [shown, List.filter_append, shown, shown]

/-- A piece that is no empty text is shown. -/
theorem shown_singleton (h : p ≠ .text "") : shown [p] = [p] := List.filter_cons_of_pos (decide_eq_true h)

/-- A placeholder is shown. -/
theorem shown_placeholder (name : String) : shown [.placeholder name] = [.placeholder name] :=
  shown_singleton fun h => nomatch h

/-- So is a text that is not empty. -/
theorem shown_text {s : String} (h : s ≠ "") : shown [.text s] = [.text s] :=
  shown_singleton fun heq => h (MessagePart.text.inj heq)

/-- What is shown last of pieces that do not end with a text is their last one. -/
theorem getLast?_shown (h : ∀ q ∈ ps.getLast?, q.isText = false) : (shown ps).getLast? = ps.getLast? := by
  obtain rfl | ⟨init, q, rfl⟩ := List.eq_nil_or_concat' ps
  · rfl
  · cases q with
    | text s => cases h (.text s) List.getLast?_concat
    | placeholder name => rw [shown_append, shown_placeholder, List.getLast?_concat, List.getLast?_concat]

/-- A text goes to the pieces that are shown, unless it is empty. -/
theorem shown_append_text (h : Separated ps) {t : String} (ht : t ≠ "") :
    shown (append ps (.text t)) = append (shown ps) (.text t) := by
  obtain ⟨init, s, rfl⟩ | hlast := exists_text_or ps
  -- the joined text is not empty, so it is shown
  · have hjoined : s ++ t ≠ "" := by
      intro heq
      have hnil := congrArg String.toList heq
      rw [String.toList_append] at hnil
      exact ht (String.toList_eq_nil_iff.mp (List.append_eq_nil_iff.mp hnil).2)
    rw [append_concat_text, shown_append, shown_append, shown_text hjoined]
    by_cases hs : s = ""
    · -- the text before is not shown, and no text is before that
      subst hs
      obtain ⟨-, -, hnext⟩ := List.isChain_append.mp h
      have hinit : ∀ q ∈ init.getLast?, q.isText = false := fun q hq => by
        by_contra htext
        cases hnext q hq (.text "") rfl (by simpa using htext)
      have hempty : shown [MessagePart.text ""] = [] := rfl
      rw [hempty, List.append_nil, append_of_last (getLast?_shown hinit ▸ hinit), String.empty_append]
    · rw [shown_text hs, append_concat_text]
  -- no text is at the end, so the new one is a part of its own
  · rw [append_of_last hlast, append_of_last (getLast?_shown hlast ▸ hlast), shown_append, shown_text ht]

/-- An empty text shows nothing, whatever it is joined to. -/
theorem shown_append_empty (ps : List MessagePart) : shown (append ps (.text "")) = shown ps := by
  obtain ⟨init, s, rfl⟩ | hlast := exists_text_or ps
  · rw [append_concat_text, String.append_empty]
  · rw [append_of_last hlast, shown_append]
    exact List.append_nil _

/-- **Empty texts make no difference** to the pieces that are shown. -/
theorem shown_foldl_append (h : Separated ps) (qs : List MessagePart) :
    shown (qs.foldl append ps) = (shown qs).foldl append (shown ps) := by
  induction qs generalizing ps with
  | nil => rfl
  | cons q qs ih =>
    rw [List.foldl_cons, ih (h.append q)]
    -- an empty text joins to nothing that is shown
    by_cases hq : q = .text ""
    · subst hq
      rw [shown_append_empty]
      rfl
    · have hcons : shown (q :: qs) = q :: shown qs := List.filter_cons_of_pos (decide_eq_true hq)
      rw [hcons, List.foldl_cons]
      cases q with
      | text t => rw [shown_append_text h fun ht => hq (congrArg MessagePart.text ht)]
      | placeholder name => rw [append_placeholder, append_placeholder, shown_append, shown_placeholder]

end MessagePart

/-! ### Messages that read the same -/

/-- Two messages are the same for everyone who looks at them, empty texts among their parts aside. -/
structure Message.Same (m m' : Message) : Prop where
  id_eq : m'.id = m.id
  pattern_eq : m'.pattern = m.pattern
  meaning_eq : m'.meaning = m.meaning
  desc_eq : m'.desc = m.desc
  location_eq : m'.location = m.location
  parts_eq : MessagePart.shown m'.parts = MessagePart.shown m.parts

/-- The pattern and the number follow from the parts that are shown. -/
theorem Message.Same.of_parts {desc : String} {meaning : Option String} {location : Location}
    {ps ps' : List MessagePart} (h : MessagePart.shown ps' = MessagePart.shown ps) :
    Same ⟨desc, meaning, ps, location⟩ ⟨desc, meaning, ps', location⟩ := by
  have hchars : MessagePart.chars ps' = MessagePart.chars ps := by
    rw [← MessagePart.chars_shown, h, MessagePart.chars_shown]
  have hkey : Message.key ⟨desc, meaning, ps', location⟩ = Message.key ⟨desc, meaning, ps, location⟩ := by
    refine String.toList_injective ?_
    rw [toList_key, toList_key, hchars]
  refine ⟨by rw [id, hkey, id], String.toList_injective ?_, rfl, rfl, rfl, h⟩
  rw [pattern, String.toList_join, List.flatMap_map, pattern, String.toList_join, List.flatMap_map]
  exact hchars

namespace NodeKind

@[simp] theorem messagePart?_writtenOut (k : NodeKind) : k.writtenOut.messagePart? = k.messagePart? := by
  cases k <;> rfl

/-- Nothing of the part that a node is in a message depends on its lists. -/
@[simp] theorem messagePart?_withBodies (k : NodeKind) (ls : List (List NodeId)) :
    (k.withBodies ls).messagePart? = k.messagePart? := by
  cases k with
  | binding x b => cases b <;> rfl
  | _ => rfl

@[simp] theorem commandName_writtenOut (k : NodeKind) : k.writtenOut.commandName = k.commandName := by
  cases k <;> rfl

/-- Nor does the name of its command. -/
@[simp] theorem commandName_withBodies (k : NodeKind) (ls : List (List NodeId)) :
    (k.withBodies ls).commandName = k.commandName := by
  cases k with
  | binding x b => cases b <;> rfl
  | _ => rfl

/-- A node that stands for nothing is an empty text. -/
theorem messagePart?_of_isBlank {k : NodeKind} (h : k.isBlank = true) : k.messagePart? = some (.text "") := by
  cases k with
  | special c => exact congrArg (fun s => some (MessagePart.text s)) (beq_iff_eq.mp h)
  | _ => cases h

end NodeKind

namespace TemplateFile

section Body

variable {f g : TemplateFile} {body : List NodeId}

/-- A special character that stands for nothing is an empty text of a message. -/
theorem shown_parts_withoutBlanks (f : TemplateFile) (body : List NodeId) :
    MessagePart.shown ((f.withoutBlanks body).filterMap fun id => (f.kind id).messagePart?) =
      MessagePart.shown (body.filterMap fun id => (f.kind id).messagePart?) := by
  induction body with
  | nil => rfl
  | cons id ids ih =>
    cases hblank : f.isBlank id with
    | true =>
      -- a blank node is an empty text of the message, which is not shown
      have hpart := NodeKind.messagePart?_of_isBlank hblank
      rw [withoutBlanks_cons_of_blank hblank, ih, List.filterMap_cons, hpart]
      rfl
    | false =>
      rw [withoutBlanks_cons hblank, List.filterMap_cons, List.filterMap_cons]
      cases (f.kind id).messagePart? with
      | none => exact ih
      | some p =>
        change MessagePart.shown ([p] ++ _) = MessagePart.shown ([p] ++ _)
        rw [MessagePart.shown_append, ih, ← MessagePart.shown_append]

variable (hparts : ∀ id ∈ f.withoutBlanks body, (g.kind id).messagePart? = (f.kind id).messagePart?)

include hparts

/-- Without those nodes a message shows the same. -/
theorem shown_messageParts : MessagePart.shown (g.messageParts (f.withoutBlanks body)) =
    MessagePart.shown (f.messageParts body) := by
  have hfilter : (f.withoutBlanks body).filterMap (fun id => (g.kind id).messagePart?) =
      (f.withoutBlanks body).filterMap fun id => (f.kind id).messagePart? :=
    List.filterMap_congr hparts
  rw [messageParts, messageParts, MessagePart.shown_foldl_append .nil, MessagePart.shown_foldl_append .nil,
    hfilter, shown_parts_withoutBlanks]

/-- What may not stand in a message is reported alike. -/
theorem messageProblems_withoutBlanks
    (hnames : ∀ id ∈ f.withoutBlanks body, (g.kind id).commandName = (f.kind id).commandName)
    (hplaces : ∀ id, g.location (g.span id) = f.location (f.span id)) :
    g.messageProblems (f.withoutBlanks body) = f.messageProblems body := by
  -- nodes that stand for nothing are allowed in messages
  have hfilter : (f.withoutBlanks body).filter (fun id => (g.kind id).messagePart?.isNone) =
      body.filter fun id => (f.kind id).messagePart?.isNone := by
    rw [List.filter_congr fun id hid => congrArg Option.isNone (hparts id hid), withoutBlanks,
      List.filter_filter]
    refine List.filter_congr fun id _ => ?_
    cases hblank : f.isBlank id with
    | true => rw [NodeKind.messagePart?_of_isBlank hblank]; rfl
    | false => exact Bool.and_true _
  rw [messageProblems, messageProblems, hfilter]
  refine List.map_congr_left fun id hid => ?_
  have hmem : id ∈ f.withoutBlanks body := (List.mem_filter.mp (hfilter ▸ hid)).1
  rw [hnames id hmem, hplaces]

end Body

/-! ### Messages of a file -/

section Messages

variable {f g : TemplateFile} {ts : Forest} {id : NodeId} {ids : List NodeId}

/-- A node that stands for nothing is no message. -/
theorem message?_of_isBlank (h : f.isBlank id = true) : f.message? id = (none, []) := by
  unfold isBlank at h
  unfold message?
  cases hk : f.kind id with
  | message desc meaning body => rw [hk] at h; cases h
  | _ => rfl

/-- The message that a node is, before and after. -/
theorem Planted.message?_desugarSyntax (h : f.Planted ts) (hid : id ∈ f.desugarSyntax.reachable) :
    Option.Rel Message.Same (f.message? id).1 (f.desugarSyntax.message? id).1 ∧
      (f.desugarSyntax.message? id).2 = (f.message? id).2 := by
  have hexpands := h.expandsSpecials
  have hplaces : ∀ i, f.desugarSyntax.location (f.desugarSyntax.span i) = f.location (f.span i) := by
    intro i
    rw [hexpands.span_eq]
    exact congrArg (fun g => g.location (f.span i)) hexpands.rest_eq
  have hkind := h.kind_desugarSyntax hid
  unfold message?
  cases hk : f.kind id with
  | message desc meaning body =>
    -- the message is over the same nodes, without those that stand for nothing
    have hkind' : f.desugarSyntax.kind id = .message desc meaning (f.withoutBlanks body) := by
      rw [hkind, hk]
      rfl
    have hbody : ∀ i ∈ f.withoutBlanks body, f.desugarSyntax.kind i =
        (f.kind i).writtenOut.withBodies ((f.kind i).bodies.map f.withoutBlanks) := by
      intro i hi
      refine h.kind_desugarSyntax (h.mem_reachable_desugarSyntax hid ?_)
      rw [children, hkind']
      exact List.mem_flatten.mpr ⟨_, List.mem_singleton_self _, hi⟩
    -- each of them is the same part as before,
    have hparts : ∀ i ∈ f.withoutBlanks body,
        (f.desugarSyntax.kind i).messagePart? = (f.kind i).messagePart? := fun i hi => by
      rw [hbody i hi, NodeKind.messagePart?_withBodies, NodeKind.messagePart?_writtenOut]
    -- and the same command
    have hnames : ∀ i ∈ f.withoutBlanks body,
        (f.desugarSyntax.kind i).commandName = (f.kind i).commandName := fun i hi => by
      rw [hbody i hi, NodeKind.commandName_withBodies, NodeKind.commandName_writtenOut]
    rw [hkind']
    dsimp only
    rw [messageProblems_withoutBlanks hparts hnames hplaces, hplaces]
    by_cases hproblems : (f.messageProblems body).isEmpty = true
    · rw [if_pos hproblems, if_pos hproblems]
      exact ⟨.some (.of_parts (shown_messageParts hparts)), rfl⟩
    · rw [if_neg hproblems, if_neg hproblems]
      exact ⟨.none, rfl⟩
  | binding x b => rw [hkind, hk]; cases b <;> exact ⟨.none, rfl⟩
  | _ => rw [hkind, hk]; exact ⟨.none, rfl⟩

/-- Nodes that stand for nothing are no messages, so the messages of some nodes are the same if those of every
other node are. -/
theorem messages_withoutBlanks (h : ∀ id ∈ f.withoutBlanks ids,
    Option.Rel Message.Same (f.message? id).1 (g.message? id).1 ∧ (g.message? id).2 = (f.message? id).2) :
    List.Forall₂ Message.Same (ids.filterMap fun id => (f.message? id).1)
        ((f.withoutBlanks ids).filterMap fun id => (g.message? id).1) ∧
      (f.withoutBlanks ids).flatMap (fun id => (g.message? id).2) =
        ids.flatMap fun id => (f.message? id).2 := by
  induction ids with
  | nil => exact ⟨.nil, rfl⟩
  | cons id ids ih =>
    cases hblank : f.isBlank id with
    | true =>
      -- a node that is dropped is no message
      rw [withoutBlanks_cons_of_blank hblank] at h ⊢
      rw [List.filterMap_cons, List.flatMap_cons, message?_of_isBlank hblank]
      exact ih h
    | false =>
      rw [withoutBlanks_cons hblank] at h ⊢
      obtain ⟨⟨hmessage, hproblems⟩, hids⟩ := List.forall_mem_cons.mp h
      obtain ⟨hmessages, hrest⟩ := ih hids
      rw [List.flatMap_cons, List.flatMap_cons, hproblems, hrest, List.filterMap_cons, List.filterMap_cons]
      refine ⟨?_, rfl⟩
      -- either both nodes are messages that read the same, or neither is one
      revert hmessage
      generalize (f.message? id).1 = m, (g.message? id).1 = m'
      rintro (hsame | -)
      · exact .cons hsame hmessages
      · exact hmessages

/-- The messages of a file read the same after the pass. -/
theorem Planted.messages_desugarSyntax (h : f.Planted ts) :
    List.Forall₂ Message.Same f.messages.1 f.desugarSyntax.messages.1 ∧
      f.desugarSyntax.messages.2 = f.messages.2 := by
  have hsame := @messages_withoutBlanks f f.desugarSyntax f.reachable fun id hid =>
    h.message?_desugarSyntax (h.reachable_desugarSyntax.symm ▸ hid)
  rw [← h.reachable_desugarSyntax] at hsame
  unfold messages
  dsimp only
  rw [List.filterMap_map, List.filterMap_map, List.flatMap_map, List.flatMap_map]
  exact hsame

end Messages

end TemplateFile

/-! ### Bundles -/

namespace MessageBundle

variable {ms ms' : List Message}

/-- A number is taken in both bundles or in neither. -/
theorem isSome_find?_of_same (h : List.Forall₂ Message.Same ms ms') (i : UInt64) :
    (MessageBundle.find? ⟨ms'⟩ i).isSome = (MessageBundle.find? ⟨ms⟩ i).isSome := by
  unfold find?
  induction h with
  | nil => rfl
  | cons hsame _ ih =>
    dsimp only at ih ⊢
    rw [List.find?_cons, List.find?_cons, hsame.id_eq]
    split
    · rfl
    · exact ih

/-- The same messages are left out of two bundles. -/
theorem same_foldl_insert {b b' : MessageBundle} (h : List.Forall₂ Message.Same ms ms')
    (hb : List.Forall₂ Message.Same b.messages b'.messages) :
    List.Forall₂ Message.Same (ms.foldl insert b).messages (ms'.foldl insert b').messages := by
  induction h generalizing b b' with
  | nil => exact hb
  | cons hsame _ ih =>
    refine ih ?_
    unfold insert
    rw [hsame.id_eq, isSome_find?_of_same hb]
    split
    · exact hb
    · exact List.rel_append hb (.cons hsame .nil)

end MessageBundle

namespace FileSet

/-- The messages of all files read the same. -/
theorem same_blocks {fs : FileSet} (h : ∀ f ∈ fs, ∃ ts, f.Planted ts) :
    List.Forall₂ Message.Same fs.blocks (FileSet.blocks (fs.map (·.desugarSyntax))) := by
  induction fs with
  | nil => exact .nil
  | cons f fs ih =>
    obtain ⟨⟨ts, hf⟩, hfs⟩ := List.forall_mem_cons.mp h
    exact List.rel_append hf.messages_desugarSyntax.1 (ih hfs)

/-- **Special characters written out in every file.** In each parsed file the pass changes neither the runs of
texts nor the other nodes, and the messages that are collected are the same, in the same order, with the same
problems. -/
theorem expandsSpecials_desugarSyntax (fs : FileSet) (h : ∀ f ∈ fs, ∃ source, parse source = .ok f) :
    (∀ f ∈ fs, f.ExpandsSpecials f.desugarSyntax ∧
      List.Forall₂ Message.Same f.messages.1 f.desugarSyntax.messages.1) ∧
    List.Forall₂ Message.Same (MessageBundle.ofFiles fs).1.messages
      (MessageBundle.ofFiles (fs.map (·.desugarSyntax))).1.messages ∧
    (MessageBundle.ofFiles (fs.map (·.desugarSyntax))).2 = (MessageBundle.ofFiles fs).2 := by
  have hplanted : ∀ f ∈ fs, ∃ ts, f.Planted ts := by
    intro f hf
    obtain ⟨source, hparse⟩ := h f hf
    obtain ⟨ts, hholds, hroots, hare, -⟩ := parse_forest hparse
    exact ⟨ts, hholds, hroots, hare⟩
  refine ⟨fun f hf => ?_, ?_, ?_⟩
  · obtain ⟨ts, hts⟩ := hplanted f hf
    exact ⟨hts.expandsSpecials, hts.messages_desugarSyntax.1⟩
  · rw [MessageBundle.ofFiles_fst, MessageBundle.ofFiles_fst]
    exact MessageBundle.same_foldl_insert (same_blocks hplanted) .nil
  · unfold MessageBundle.ofFiles
    dsimp only
    -- problems are those of each file in turn
    rw [List.flatMap_map, List.flatMap_map, List.flatMap_map]
    refine List.flatMap_congr fun f hf => ?_
    obtain ⟨ts, hts⟩ := hplanted f hf
    exact hts.messages_desugarSyntax.2

/-- A message with a character that stands for nothing between its placeholders, and others after them. -/
def gapped : SourceText :=
  ⟨"a.st", "\x7bnamespace a\x7d\x7btemplate .t\x7d\x7b@param x: string\x7d" ++
    "\x7bmsg desc=\"d\" meaning=\"m\"\x7d\x7b$x\x7d\x7bnil\x7d\x7b$x\x7d\x7bsp\x7d\x7bnil\x7dy\x7blb\x7d\x7b/msg\x7d" ++
    "\x7b/template\x7d"⟩

/-- The empty text between the placeholders is gone, and everything else is as it was. -/
theorem expandsSpecials_desugarSyntax_gapped : ∃ f, parse gapped = .ok f ∧
    f.messages.1.map (·.parts) =
      [[.placeholder "X", .text "", .placeholder "X", .text " y\x7b"]] ∧
    f.desugarSyntax.messages.1.map (·.parts) =
      [[.placeholder "X", .placeholder "X", .text " y\x7b"]] ∧
    (∀ g ∈ [f], g.ExpandsSpecials g.desugarSyntax ∧
      List.Forall₂ Message.Same g.messages.1 g.desugarSyntax.messages.1) ∧
    List.Forall₂ Message.Same (MessageBundle.ofFiles [f]).1.messages
      (MessageBundle.ofFiles [f.desugarSyntax]).1.messages ∧
    (MessageBundle.ofFiles [f.desugarSyntax]).2 = (MessageBundle.ofFiles [f]).2 := by
  have hrun : (parse gapped).toOption.map (fun f => (f.messages.1.map (·.parts),
      f.desugarSyntax.messages.1.map (·.parts))) =
      some ([[.placeholder "X", .text "", .placeholder "X", .text " y\x7b"]],
        [[.placeholder "X", .placeholder "X", .text " y\x7b"]]) := by
    decide +kernel
  obtain ⟨f, hp, hf⟩ := exists_of_toOption_map hrun
  obtain ⟨hbefore, hafter⟩ := Prod.mk.inj hf
  exact ⟨f, hp, hbefore, hafter, expandsSpecials_desugarSyntax [f] fun g hg =>
    ⟨gapped, List.mem_singleton.mp hg ▸ hp⟩⟩

end FileSet

end TemplateFrontend
