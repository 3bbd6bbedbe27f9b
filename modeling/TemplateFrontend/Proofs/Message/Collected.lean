import TemplateFrontend.Markup.Reader
import TemplateFrontend.Proofs.Message.Patterns
import TemplateFrontend.Proofs.Readers
import Mathlib.Data.List.Find
import Mathlib.Data.List.Nodup
/-!
# Messages collected

The bundle of some files has the first message of each number. Numbers are computed from keys, and a key
does not tell placeholders from braces in texts, nor an empty meaning from none, so that a message can be
taken for another one that was met before.

* `FileSet.blocks`, `FileSet.mem_blocks` — the sound messages of the files;
* `MessageBundle.find?_ofFiles` — looking up a number finds the first message that has it;
* `MessageBundle.Collected`, `MessageBundle.collected_ofFiles` — which messages are found with their own
  meaning and parts.
-/

namespace TemplateFrontend

namespace TemplateFile

/-- A reachable node is a message in which every node may stand. -/
def HasMessage (f : TemplateFile) (id : NodeId) (m : Message) : Prop :=
  ∃ desc meaning body, id ∈ f.reachable ∧ f.kind id = .message desc meaning body ∧
    (∀ i ∈ body, (f.kind i).messagePart?.isSome = true) ∧
    m = ⟨desc, meaning, f.messageParts body, f.location (f.span id)⟩

theorem mem_messages {f : TemplateFile} {m : Message} :
    m ∈ f.messages.1 ↔ ∃ id, f.HasMessage id m := by
  unfold HasMessage
  change m ∈ (f.reachable.map f.message?).filterMap (·.1) ↔ _
  rw [List.filterMap_map, List.mem_filterMap]
  refine exists_congr fun id => ?_
  -- no problem in the body means that every node of it has a part
  have hproblems : ∀ body, (f.messageProblems body).isEmpty = true ↔
      ∀ i ∈ body, (f.kind i).messagePart?.isSome = true := by
    intro body
    rw [messageProblems, List.isEmpty_iff, List.map_eq_nil_iff, List.filter_eq_nil_iff]
    refine forall₂_congr fun i _ => ?_
    cases (f.kind i).messagePart? <;> simp
  rw [Function.comp_apply, message?]
  cases hk : f.kind id with
  | message desc meaning body =>
    dsimp only
    -- a message with a problem is not collected
    by_cases hbody : (f.messageProblems body).isEmpty = true
    · rw [if_pos hbody]
      -- every node of the body can stand in a message
      have hallowed := (hproblems body).mp hbody
      constructor
      · rintro ⟨hid, hm⟩
        exact ⟨desc, meaning, body, hid, rfl, hallowed, (Option.some.inj hm).symm⟩
      · rintro ⟨_, _, _, hid, heq, -, rfl⟩
        obtain ⟨rfl, rfl, rfl⟩ := NodeKind.message.inj heq
        exact ⟨hid, rfl⟩
    · rw [if_neg hbody]
      constructor
      · rintro ⟨-, hm⟩
        cases hm
      · rintro ⟨_, _, _, -, heq, hallowed, -⟩
        obtain ⟨rfl, rfl, rfl⟩ := NodeKind.message.inj heq
        exact absurd ((hproblems body).mpr hallowed) hbody
  | _ =>
    constructor
    · rintro ⟨-, hm⟩
      cases hm
    · rintro ⟨_, _, _, -, heq, -⟩
      cases heq

end TemplateFile

namespace FileSet

/-- The sound messages of the files, in the order in which they are met. -/
def blocks (fs : FileSet) : List Message := fs.flatMap (·.messages.1)

theorem mem_blocks {fs : FileSet} {m : Message} :
    m ∈ fs.blocks ↔ ∃ f ∈ fs, ∃ id, f.HasMessage id m := by
  rw [blocks, List.mem_flatMap]
  exact exists_congr fun f => and_congr_right fun _ => TemplateFile.mem_messages

theorem separated_of_mem_blocks {fs : FileSet} {m : Message} (hm : m ∈ fs.blocks) :
    MessagePart.Separated m.parts := by
  obtain ⟨f, -, id, desc, meaning, body, -, -, -, rfl⟩ := mem_blocks.mp hm
  exact f.separated_messageParts body

end FileSet

namespace MessageBundle

section Insert

variable {b : MessageBundle} {ms : List Message}

/-- One more message is found if its number was not taken. -/
theorem find?_insert_eq (b : MessageBundle) (m : Message) (i : UInt64) :
    (b.insert m).find? i = (b.find? i).or (if m.id == i then some m else none) := by
  unfold insert
  split
  · next htaken =>
    by_cases hi : m.id = i
    · subst hi
      rw [Option.or_of_isSome htaken]
    · rw [if_neg (by simpa using hi), Option.or_none]
  · rw [find?, find?, List.find?_append, List.find?_singleton]

theorem find?_foldl_insert (ms : List Message) (b : MessageBundle) (i : UInt64) :
    (ms.foldl insert b).find? i = (b.find? i).or (ms.find? (·.id == i)) := by
  induction ms generalizing b with
  | nil => exact (Option.or_none).symm
  | cons m ms ih =>
    rw [List.foldl_cons, ih, find?_insert_eq, Option.or_assoc, List.find?_cons]
    cases m.id == i <;> rfl

/-- The messages stay in order, and no number is taken twice. -/
theorem sublist_foldl_insert (ms : List Message) {b : MessageBundle}
    (hb : (b.messages.map (·.id)).Nodup) :
    (ms.foldl insert b).messages.Sublist (b.messages ++ ms) ∧
      ((ms.foldl insert b).messages.map (·.id)).Nodup := by
  induction ms generalizing b with
  | nil => exact ⟨List.sublist_append_left _ _, hb⟩
  | cons m ms ih =>
    rw [List.foldl_cons]
    unfold insert
    split
    -- a message with this id is there, so nothing is added
    · obtain ⟨hsub, hnodup⟩ := ih hb
      exact ⟨hsub.trans ((List.sublist_cons_self m ms).append_left b.messages), hnodup⟩
    -- no message so far has its id, so it goes behind them
    · next hfree =>
      have hnew : ∀ i ∈ b.messages.map (·.id), i ≠ m.id := by
        rintro i hi rfl
        obtain ⟨m', hm', heq⟩ := List.mem_map.mp hi
        refine hfree (List.find?_isSome.mpr ⟨m', hm', ?_⟩)
        exact beq_iff_eq.mpr heq
      obtain ⟨hsub, hnodup⟩ := @ih ⟨b.messages ++ [m]⟩ (by
        rw [List.map_append]
        exact List.nodup_append.mpr ⟨hb, List.nodup_singleton _, fun i hi j hj => by
          rw [List.map_singleton, List.mem_singleton] at hj
          exact hj ▸ hnew i hi⟩)
      exact ⟨by rwa [List.append_assoc] at hsub, hnodup⟩

end Insert

section Files

variable {fs : FileSet}

theorem ofFiles_fst (fs : FileSet) : (ofFiles fs).1 = fs.blocks.foldl insert empty := by
  rw [ofFiles, FileSet.blocks, List.flatMap_map]

/-- **Looking up a number** finds the first message that has it. -/
theorem find?_ofFiles (fs : FileSet) (i : UInt64) :
    (ofFiles fs).1.find? i = fs.blocks.find? (·.id == i) := by
  rw [ofFiles_fst, find?_foldl_insert]
  rfl

theorem sublist_ofFiles (fs : FileSet) : (ofFiles fs).1.messages.Sublist fs.blocks ∧
    ((ofFiles fs).1.messages.map (·.id)).Nodup := by
  rw [ofFiles_fst]
  exact sublist_foldl_insert fs.blocks (b := empty) List.nodup_nil

/-! ### Numbers that are the same only where the keys are -/

section Free

variable {m m' : Message} (hfree : ∀ m ∈ fs.blocks, ∀ m' ∈ fs.blocks, m.id = m'.id → m.key = m'.key)

include hfree

theorem id_eq_iff_key (hm : m ∈ fs.blocks) (hm' : m' ∈ fs.blocks) : m.id = m'.id ↔ m.key = m'.key :=
  ⟨hfree m hm m' hm', fun hkey => by rw [Message.id, Message.id, hkey]⟩

theorem find?_ofFiles_id (hm : m ∈ fs.blocks) :
    (ofFiles fs).1.find? m.id = fs.blocks.find? (·.key == m.key) := by
  rw [find?_ofFiles]
  refine List.find?_congr fun m' hm' => ?_
  rw [Bool.eq_iff_iff, beq_iff_eq, beq_iff_eq]
  exact id_eq_iff_key hfree hm' hm

/-- Every message is found, as one with the same key. -/
theorem exists_find?_ofFiles (hm : m ∈ fs.blocks) : ∃ m' ∈ fs.blocks, m' ∈ (ofFiles fs).1.messages ∧
    (ofFiles fs).1.find? m.id = some m' ∧ m'.key = m.key := by
  have hsome : (fs.blocks.find? (·.key == m.key)).isSome = true :=
    List.find?_isSome.mpr ⟨m, hm, beq_self_eq_true m.key⟩
  obtain ⟨m', hm'⟩ := Option.isSome_iff_exists.mp hsome
  have hfound := (find?_ofFiles_id hfree hm).trans hm'
  refine ⟨m', List.mem_of_find?_eq_some hm', List.mem_of_find?_eq_some hfound, hfound, ?_⟩
  simpa using List.find?_some hm'

/-- Messages are kept if and only if their keys settle them. -/
theorem keeps_iff_ofFiles : (∀ m ∈ fs.blocks, ∃ m' ∈ (ofFiles fs).1.messages,
    (ofFiles fs).1.find? m.id = some m' ∧ m'.meaning = m.meaning ∧ m'.parts = m.parts) ↔
      ∀ m ∈ fs.blocks, ∀ m' ∈ fs.blocks, m.key = m'.key →
        m'.meaning = m.meaning ∧ m'.parts = m.parts := by
  constructor
  · intro hkept m hm m' hm' hkey
    -- both are found as the same message
    obtain ⟨n, -, hn, hmeaning, hparts⟩ := hkept m hm
    obtain ⟨n', -, hn', hmeaning', hparts'⟩ := hkept m' hm'
    rw [(id_eq_iff_key hfree hm hm').mpr hkey, hn'] at hn
    obtain rfl := Option.some.inj hn
    exact ⟨hmeaning'.symm.trans hmeaning, hparts'.symm.trans hparts⟩
  · intro hkeys m hm
    obtain ⟨m', hm', hmem, hfind, hkey⟩ := exists_find?_ofFiles hfree hm
    exact ⟨m', hmem, hfind, hkeys m hm m' hm' hkey.symm⟩

end Free

theorem key_eq_iff_of_mem_blocks {m m' : Message} (hm : m ∈ fs.blocks) (hm' : m' ∈ fs.blocks)
    (h : m.Plain) (h' : m'.Plain) : m.key = m'.key ↔ m.meaning.getD "" = m'.meaning.getD "" ∧
      MessagePart.shown m.parts = MessagePart.shown m'.parts :=
  Message.key_eq_iff h h' (FileSet.separated_of_mem_blocks hm) (FileSet.separated_of_mem_blocks hm')

/-- **The messages of some files in their bundle.** -/
structure Collected (fs : FileSet) (b : MessageBundle) : Prop where
  /-- There are no others, they are in order, and each has a number of its own. -/
  sublist : b.messages.Sublist fs.blocks
  nodup : (b.messages.map (·.id)).Nodup
  /-- Looking up the number of a message finds the first message with the same key. -/
  find?_eq : ∀ m ∈ fs.blocks, b.find? m.id = fs.blocks.find? (·.key == m.key)
  id_eq_iff : ∀ m ∈ fs.blocks, ∀ m' ∈ fs.blocks, m.id = m'.id ↔ m.key = m'.key
  /-- Every message is found with its own meaning and parts if and only if these are settled by the key. -/
  keeps_iff : (∀ m ∈ fs.blocks, ∃ m' ∈ b.messages, b.find? m.id = some m' ∧
      m'.meaning = m.meaning ∧ m'.parts = m.parts) ↔
    ∀ m ∈ fs.blocks, ∀ m' ∈ fs.blocks, m.key = m'.key → m'.meaning = m.meaning ∧ m'.parts = m.parts
  /-- The key of a plain message settles its meaning, where an empty one counts as none, and its parts but
  for empty texts. -/
  id_eq_iff_of_plain : ∀ m ∈ fs.blocks, ∀ m' ∈ fs.blocks, m.Plain → m'.Plain →
    (m.id = m'.id ↔ m.meaning.getD "" = m'.meaning.getD "" ∧
      MessagePart.shown m.parts = MessagePart.shown m'.parts)
  /-- No message is lost if all are plain and neither a meaning nor a text is empty. -/
  keeps_of_plain : (∀ m ∈ fs.blocks, m.Plain ∧ m.meaning ≠ some "" ∧ .text "" ∉ m.parts) →
    ∀ m ∈ fs.blocks, ∃ m' ∈ b.messages, b.find? m.id = some m' ∧
      m'.meaning = m.meaning ∧ m'.parts = m.parts

/-- **What is collected.** If the numbers of the messages in some files are the same only where the keys
are, the bundle of the files has the first message of each key. -/
theorem collected_ofFiles (fs : FileSet)
    (hfree : ∀ m ∈ fs.blocks, ∀ m' ∈ fs.blocks, m.id = m'.id → m.key = m'.key) :
    Collected fs (ofFiles fs).1 where
  sublist := (sublist_ofFiles fs).1
  nodup := (sublist_ofFiles fs).2
  find?_eq _ hm := find?_ofFiles_id hfree hm
  id_eq_iff _ hm _ hm' := id_eq_iff_key hfree hm hm'
  keeps_iff := keeps_iff_ofFiles hfree
  id_eq_iff_of_plain m hm m' hm' h h' := by
    rw [id_eq_iff_key hfree hm hm', key_eq_iff_of_mem_blocks hm hm' h h']
  keeps_of_plain := by
    intro hall
    refine (keeps_iff_ofFiles hfree).mpr fun m hm m' hm' hkey => ?_
    obtain ⟨h, hmeaning, htexts⟩ := hall m hm
    obtain ⟨h', hmeaning', htexts'⟩ := hall m' hm'
    obtain ⟨hsame, hshown⟩ := (key_eq_iff_of_mem_blocks hm hm' h h').mp hkey
    -- without empty texts every part is shown
    rw [MessagePart.shown_eq_self htexts, MessagePart.shown_eq_self htexts'] at hshown
    exact ⟨(Message.eq_of_getD_eq hmeaning hmeaning' hsame).symm, hshown.symm⟩

end Files

/-- A message with a placeholder, one that has its name in braces, and one that is a verb. -/
def bracedName : SourceText :=
  ⟨"a.st", "\x7bnamespace a\x7d\x7btemplate .t\x7d\x7b@param name: string\x7d" ++
    "\x7bmsg desc=\"d\"\x7d\x7b$name\x7d\x7b/msg\x7d\x7bmsg desc=\"e\"\x7d\x7blb\x7dNAME\x7brb\x7d\x7b/msg\x7d" ++
    "\x7bmsg desc=\"f\" meaning=\"verb\"\x7dSave\x7b/msg\x7d\x7b/template\x7d"⟩

theorem parse_bracedName : ∃ f m₁ m₂ m₃, parse bracedName = .ok f ∧
    (∀ m ∈ FileSet.blocks [f], ∀ m' ∈ FileSet.blocks [f], m.id = m'.id → m.key = m'.key) ∧
    FileSet.blocks [f] = [m₁, m₂, m₃] ∧ m₁.parts = [.placeholder "NAME"] ∧
      m₂.parts = [.text "\x7bNAME\x7d"] ∧ m₃.parts = [.text "Save"] ∧ m₁.key = m₂.key ∧
      (ofFiles [f]).1.messages = [m₁, m₃] := by
  -- the parts and keys of the three messages, and that the second is left out
  have hrun : (parse bracedName).toOption.map (fun f =>
      ((FileSet.blocks [f]).map fun m => (m.parts, m.key),
        decide (∀ m ∈ FileSet.blocks [f], ∀ m' ∈ FileSet.blocks [f], m.id = m'.id → m.key = m'.key),
        decide ((ofFiles [f]).1.messages = (FileSet.blocks [f]).eraseIdx 1))) =
      some ([([.placeholder "NAME"], "\x00\x7bNAME\x7d"),
        ([.text "\x7bNAME\x7d"], "\x00\x7bNAME\x7d"), ([.text "Save"], "verb\x00Save")],
        true, true) := by
    decide +kernel
  obtain ⟨f, hp, hf⟩ := exists_of_toOption_map hrun
  obtain ⟨hblocks, hf⟩ := Prod.mk.inj hf
  obtain ⟨hids, hbundle⟩ := Prod.mk.inj hf
  -- the messages one by one, in order
  obtain ⟨m₁, l, hf, h₁, hl⟩ := List.map_eq_cons_iff.mp hblocks
  obtain ⟨m₂, l, rfl, h₂, hl⟩ := List.map_eq_cons_iff.mp hl
  obtain ⟨m₃, rfl, h₃⟩ := List.map_eq_singleton_iff.mp hl
  obtain ⟨hparts₁, hkey₁⟩ := Prod.mk.inj h₁
  obtain ⟨hparts₂, hkey₂⟩ := Prod.mk.inj h₂
  have hmessages := of_decide_eq_true hbundle
  rw [hf] at hmessages
  exact ⟨f, m₁, m₂, m₃, hp, of_decide_eq_true hids, hf, hparts₁, hparts₂, (Prod.mk.inj h₃).1,
    hkey₁.trans hkey₂.symm, hmessages⟩

theorem collected_ofFiles_bracedName : ∃ f, parse bracedName = .ok f ∧
    (∀ m ∈ FileSet.blocks [f], ∀ m' ∈ FileSet.blocks [f], m.id = m'.id → m.key = m'.key) ∧
    Collected [f] (ofFiles [f]).1 := by
  obtain ⟨f, -, -, -, hp, hfree, -⟩ := parse_bracedName
  exact ⟨f, hp, hfree, collected_ofFiles [f] hfree⟩

/-- The message with its name in braces is taken for the one with the placeholder, which is found under the
number of both, and no message of the bundle has the text. -/
theorem ofFiles_loses_bracedName : ∃ f m m', parse bracedName = .ok f ∧
    (∃ id, f.HasMessage id m) ∧ (∃ id, f.HasMessage id m') ∧ m.id = m'.id ∧ m.parts ≠ m'.parts ∧
      (ofFiles [f]).1.find? m'.id = some m ∧ ∀ n ∈ (ofFiles [f]).1.messages, n.parts ≠ m'.parts := by
  obtain ⟨f, m₁, m₂, m₃, hp, -, hf, h₁, h₂, h₃, hkey, hmessages⟩ := parse_bracedName
  have hid : m₁.id = m₂.id := by rw [Message.id, hkey, Message.id]
  -- each of the three stands in the file
  have hblock : ∀ m ∈ [m₁, m₂, m₃], ∃ id, f.HasMessage id m := by
    intro m hm
    obtain ⟨g, hg, hm⟩ := FileSet.mem_blocks.mp (hf ▸ hm)
    exact List.mem_singleton.mp hg ▸ hm
  refine ⟨f, m₁, m₂, hp, hblock m₁ (by simp), hblock m₂ (by simp), hid, by rw [h₁, h₂]; decide, ?_, ?_⟩
  · rw [find?_ofFiles, hf]
    exact List.find?_cons_of_pos (beq_iff_eq.mpr hid)
  · rw [hmessages, List.forall_mem_cons, List.forall_mem_singleton, h₁, h₂, h₃]
    decide

end MessageBundle

end TemplateFrontend
