import TemplateFrontend.Message.Bundle
import TemplateFrontend.Proofs.Text.Runs
import Mathlib.Data.List.Chain
/-!
# Patterns of messages

The number of a message is computed from its key, which is its meaning and its pattern in one text. Whether
two messages have one key is a question of what can be read back from that text.

* `Message.Plain` — no character of the meaning, the texts and the names means anything in the key;
* `MessagePart.Separated`, `TemplateFile.separated_messageParts` — no text stands next to another;
* `MessagePart.eq_of_chars_eq` — plain parts that are not empty can be read back from a pattern;
* `Message.key_eq_iff` — when plain messages have one key.
-/

namespace TemplateFrontend

theorem Text.run_append_inj {p : Char → Bool} {run run' rest rest' : List Char}
    (hrun : ∀ c ∈ run, p c = true) (hrun' : ∀ c ∈ run', p c = true)
    (hrest : ∀ c ∈ rest.head?, p c = false) (hrest' : ∀ c ∈ rest'.head?, p c = false)
    (h : run ++ rest = run' ++ rest') : run = run' ∧ rest = rest' := by
  obtain ⟨htake, hdrop⟩ := takeWhile_run hrun hrest
  obtain ⟨htake', hdrop'⟩ := takeWhile_run hrun' hrest'
  rw [h] at htake hdrop
  exact ⟨htake.symm.trans htake', hdrop.symm.trans hdrop'⟩

namespace MessagePart

/-- Whether the piece is a text. -/
def isText : MessagePart → Bool
  | .text _ => true
  | .placeholder _ => false

/-- No text has the brace that starts a placeholder, and no name the one that ends it. -/
def Plain : MessagePart → Prop
  | .text s => '\x7b' ∉ s.toList
  | .placeholder name => '\x7d' ∉ name.toList

/-- No text stands next to another. -/
def Separated (ps : List MessagePart) : Prop :=
  ps.IsChain fun p q => p.isText = true → q.isText = false

/-- The pieces without empty texts. -/
def shown (ps : List MessagePart) : List MessagePart := ps.filter (· ≠ .text "")

/-- The characters of the pattern. -/
def chars (ps : List MessagePart) : List Char := ps.flatMap (·.pattern.toList)

section Parts

variable {p q : MessagePart} {ps qs : List MessagePart} {s name : String}

theorem mem_shown : p ∈ shown ps ↔ p ∈ ps ∧ p ≠ .text "" := by
  rw [shown, List.mem_filter, decide_eq_true_eq]

theorem shown_eq_self (h : .text "" ∉ ps) : shown ps = ps :=
  List.filter_eq_self.mpr fun _ hp => decide_eq_true fun heq => h (heq ▸ hp)

/-- Pieces stay separated when one more is put in. -/
theorem Separated.append (h : Separated ps) (p : MessagePart) : Separated (append ps p) := by
  unfold MessagePart.append
  split
  · next s t hlast =>
    -- the text takes the place of the text before it
    obtain ⟨init, rfl⟩ := List.getLast?_eq_some_iff.mp hlast
    rw [List.dropLast_concat]
    obtain ⟨hinit, -, hnext⟩ := List.isChain_append.mp h
    exact List.isChain_append.mpr ⟨hinit, .singleton _, fun q hq _ _ hq' => nomatch hnext q hq _ rfl hq'⟩
  · next p _ _ hlast =>
    refine List.isChain_append.mpr ⟨h, .singleton _, fun q hq r hr hq' => ?_⟩
    obtain rfl : p = r := Option.some.inj hr
    cases q with
    | placeholder name => cases hq'
    | text s =>
      cases p with
      | placeholder name => rfl
      | text t => exact (hlast s t hq rfl).elim

theorem separated_foldl_append (h : Separated ps) (qs : List MessagePart) :
    Separated (qs.foldl MessagePart.append ps) := by
  induction qs generalizing ps with
  | nil => exact h
  | cons q qs ih => exact ih (h.append q)

/-- Empty texts stand next to placeholders only, so the pieces are separated without them too. -/
theorem Separated.shown (h : Separated ps) : Separated (shown ps) ∧
    ((∃ p ∈ (MessagePart.shown ps).head?, p.isText = true) → ∃ p ∈ ps.head?, p.isText = true) := by
  induction ps with
  | nil => exact ⟨.nil, id⟩
  | cons p ps ih =>
    obtain ⟨hnext, hps⟩ := List.isChain_cons.mp h
    obtain ⟨hshown, hhead⟩ := ih hps
    by_cases hp : p = .text ""
    · subst hp
      exact ⟨hshown, fun _ => ⟨_, rfl, rfl⟩⟩
    · have hcons : MessagePart.shown (p :: ps) = p :: MessagePart.shown ps :=
        List.filter_cons_of_pos (decide_eq_true hp)
      rw [hcons]
      refine ⟨List.isChain_cons.mpr ⟨fun q hq hp' => ?_, hshown⟩, fun ⟨q, hq, hq'⟩ => ⟨q, hq, hq'⟩⟩
      -- if a text came next after dropping empty ones, a text had come next before
      by_contra hq'
      obtain ⟨r, hr, hr'⟩ := hhead ⟨q, hq, by simpa using hq'⟩
      rw [hnext r hr hp'] at hr'
      cases hr'

/-! ### Reading pieces back -/

theorem chars_text (s : String) (ps : List MessagePart) :
    chars (.text s :: ps) = s.toList ++ chars ps := rfl

theorem chars_placeholder (name : String) (ps : List MessagePart) :
    chars (.placeholder name :: ps) = '\x7b' :: (name.toList ++ '\x7d' :: chars ps) := by
  rw [chars, List.flatMap_cons, pattern, String.toList_append, String.toList_append, List.append_assoc,
    List.append_assoc]
  rfl

theorem chars_shown (ps : List MessagePart) : chars (shown ps) = chars ps := by
  induction ps with
  | nil => rfl
  | cons p ps ih =>
    by_cases hp : p = .text ""
    · subst hp
      exact ih
    · have hcons : shown (p :: ps) = p :: shown ps := List.filter_cons_of_pos (decide_eq_true hp)
      rw [hcons, chars, List.flatMap_cons, ← chars, ih]
      rfl

/-- A pattern goes on with a brace after a text. -/
theorem head?_chars (h : Separated (.text s :: ps)) : ∀ c ∈ (chars ps).head?, c = '\x7b' := by
  obtain ⟨hnext, -⟩ := List.isChain_cons.mp h
  cases ps with
  | nil => exact fun _ hc => nomatch hc
  | cons p ps =>
    have hp := hnext p rfl rfl
    cases p with
    | text t => cases hp
    | placeholder name =>
      rw [chars_placeholder]
      exact fun c hc => (Option.some.inj hc).symm

/-- A plain text that is not empty does not start with a brace. -/
theorem text_ne_placeholder (hs : Plain (.text s)) (hne : MessagePart.text s ≠ .text "") {cs ds : List Char} :
    s.toList ++ cs ≠ '\x7b' :: ds := by
  intro heq
  cases hchars : s.toList with
  | nil => exact hne (congrArg MessagePart.text (String.toList_eq_nil_iff.mp hchars))
  | cons c rest =>
    rw [hchars] at heq
    obtain ⟨rfl, -⟩ := List.cons.inj heq
    exact hs (hchars ▸ List.mem_cons_self)

/-- **Reading a pattern.** Plain pieces that are separated and not empty are settled by their pattern. -/
theorem eq_of_chars_eq (hps : ∀ p ∈ ps, Plain p ∧ p ≠ .text "") (hqs : ∀ q ∈ qs, Plain q ∧ q ≠ .text "")
    (hsep : Separated ps) (hsep' : Separated qs) (h : chars ps = chars qs) : ps = qs := by
  -- a part that is not an empty text shows at least one character
  have hnil : ∀ {q qs}, Plain q ∧ q ≠ .text "" → chars (q :: qs) ≠ [] := by
    rintro (s | name) qs ⟨-, hne⟩ heq
    · obtain ⟨hs, -⟩ := List.append_eq_nil_iff.mp heq
      exact hne (congrArg MessagePart.text (String.toList_eq_nil_iff.mp hs))
    · rw [chars_placeholder] at heq
      cases heq
  induction ps generalizing qs with
  | nil =>
    cases qs with
    | nil => rfl
    | cons q qs => exact absurd h.symm (hnil (hqs q List.mem_cons_self))
  | cons p ps ih =>
    cases qs with
    | nil => exact absurd h (hnil (hps p List.mem_cons_self))
    | cons q qs =>
      obtain ⟨⟨hp, hpne⟩, hps⟩ := List.forall_mem_cons.mp hps
      obtain ⟨⟨hq, hqne⟩, hqs⟩ := List.forall_mem_cons.mp hqs
      have hrest := fun hchars => ih hps hqs (List.isChain_cons.mp hsep).2 (List.isChain_cons.mp hsep').2 hchars
      have hother : ∀ {c d : Char} {cs : List Char}, d ∉ cs → c ∈ cs → (c != d) = true := fun hd hc =>
        bne_iff_ne.mpr fun heq => hd (heq ▸ hc)
      cases p with
      | text s =>
        cases q with
        | text t =>
          -- both texts end where a placeholder starts
          obtain ⟨hst, hchars⟩ := Text.run_append_inj (p := (· != '\x7b')) (fun c hc => hother hp hc)
            (fun c hc => hother hq hc) (fun c hc => by rw [head?_chars hsep c hc]; rfl)
            (fun c hc => by rw [head?_chars hsep' c hc]; rfl) h
          rw [String.toList_injective hst, hrest hchars]
        | placeholder name =>
          rw [chars_text, chars_placeholder] at h
          exact absurd h (text_ne_placeholder hp hpne)
      | placeholder name =>
        cases q with
        | text t =>
          rw [chars_text, chars_placeholder] at h
          exact absurd h.symm (text_ne_placeholder hq hqne)
        | placeholder other =>
          -- a name has no closing brace in it, so both names end at the same one
          rw [chars_placeholder, chars_placeholder] at h
          obtain ⟨hnames, hchars⟩ := Text.run_append_inj (p := (· != '\x7d')) (fun c hc => hother hp hc)
            (fun c hc => hother hq hc) (fun c hc => by rw [← Option.some.inj hc]; rfl)
            (fun c hc => by rw [← Option.some.inj hc]; rfl) (List.cons.inj h).2
          rw [String.toList_injective hnames, hrest (List.cons.inj hchars).2]

/-- Plain pieces that are separated have one pattern if and only if they are the same but for empty texts. -/
theorem chars_eq_iff (hps : ∀ p ∈ ps, Plain p) (hqs : ∀ q ∈ qs, Plain q) (hsep : Separated ps)
    (hsep' : Separated qs) : chars ps = chars qs ↔ shown ps = shown qs := by
  constructor
  · intro h
    rw [← chars_shown ps, ← chars_shown qs] at h
    refine eq_of_chars_eq (fun p hp => ?_) (fun q hq => ?_) hsep.shown.1 hsep'.shown.1 h
    · exact ⟨hps p (mem_shown.mp hp).1, (mem_shown.mp hp).2⟩
    · exact ⟨hqs q (mem_shown.mp hq).1, (mem_shown.mp hq).2⟩
  · intro h
    rw [← chars_shown ps, ← chars_shown qs, h]

end Parts

end MessagePart

theorem TemplateFile.separated_messageParts (f : TemplateFile) (body : List NodeId) :
    MessagePart.Separated (f.messageParts body) :=
  MessagePart.separated_foldl_append .nil _

namespace Message

/-- No character of the message means anything in its key. -/
structure Plain (m : Message) : Prop where
  meaning : '\x00' ∉ (m.meaning.getD "").toList
  parts : ∀ p ∈ m.parts, p.Plain

theorem toList_key (m : Message) :
    m.key.toList = (m.meaning.getD "").toList ++ '\x00' :: MessagePart.chars m.parts := by
  rw [key, pattern, String.toList_append, String.toList_append, List.append_assoc, String.toList_join,
    List.flatMap_map]
  rfl

/-- **Keys of plain messages.** They are the same if and only if the messages have the same meaning, none
being an empty one, and the same parts but for empty texts. -/
theorem key_eq_iff {m m' : Message} (hm : m.Plain) (hm' : m'.Plain)
    (hsep : MessagePart.Separated m.parts) (hsep' : MessagePart.Separated m'.parts) :
    m.key = m'.key ↔ m.meaning.getD "" = m'.meaning.getD "" ∧
      MessagePart.shown m.parts = MessagePart.shown m'.parts := by
  rw [← String.toList_inj, toList_key, toList_key, ← MessagePart.chars_eq_iff hm.parts hm'.parts hsep hsep']
  constructor
  · intro h
    have hrun : ∀ {m : Message}, m.Plain → ∀ c ∈ (m.meaning.getD "").toList, (c != '\x00') = true :=
      fun hm c hc => bne_iff_ne.mpr fun heq => hm.meaning (heq ▸ hc)
    obtain ⟨hmeaning, hrest⟩ := Text.run_append_inj (p := (· != '\x00')) (hrun hm) (hrun hm')
      (fun c hc => by rw [← Option.some.inj hc]; rfl) (fun c hc => by rw [← Option.some.inj hc]; rfl) h
    exact ⟨String.toList_injective hmeaning, (List.cons.inj hrest).2⟩
  · rintro ⟨hmeaning, hparts⟩
    rw [hmeaning, hparts]

theorem eq_of_getD_eq {x y : Option String} (hx : x ≠ some "") (hy : y ≠ some "")
    (h : x.getD "" = y.getD "") : x = y := by
  cases x with
  | none =>
    cases y with
    | none => rfl
    | some s => exact absurd (congrArg some h.symm) hy
  | some s =>
    cases y with
    | none => exact absurd (congrArg some h) hx
    | some t => exact congrArg some h

end Message

end TemplateFrontend
