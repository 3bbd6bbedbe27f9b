import Mathlib.Data.List.TakeWhile
import TemplateFrontend.Markup.Declarations
import TemplateFrontend.Proofs.Readers
/-!
# Names in declarations

The names that a file declares — of its namespace, its package and its templates — are words of its
text: letters and digits and few other characters, none of which is a separator in the keys of
templates.

* `Input.IsWord` — what a word is made of;
* `NodeKind.names`, `TemplateFile.ownNames` — the names of templates and of the file;
* `Markup.isWord_of_openTemplate` — the name of a template is a word if that of the namespace is;
* `Markup.Named` — all names that were read so far are words, which new nodes and frames keep.
-/

namespace TemplateFrontend

/-! ### Words -/

namespace Input

/-- What the words of commands are: not empty, and of the characters that are read for them. -/
def IsWord (s : String) : Prop := s ≠ "" ∧ ∀ c ∈ s.toList, isWordChar c = true ∨ c = '$'

theorem IsWord.notMem {s : String} (h : IsWord s) {c : Char} (hc : isWordChar c = false)
    (hdollar : c ≠ '$') : c ∉ s.toList := fun hmem =>
  match h.2 c hmem with
  | .inl hword => Bool.false_ne_true (hc.symm.trans hword)
  | .inr heq => hdollar heq

theorem take_length_takeWhile (p : Char → Bool) (cs : List Char) :
    cs.take (cs.takeWhile p).length = cs.takeWhile p :=
  (List.prefix_iff_eq_take.mp (List.takeWhile_prefix p)).symm

/-- The characters of the word at the front of a text. -/
theorem mem_take_wordLength {cs : List Char} {c : Char} (h : c ∈ cs.take (wordLength cs)) :
    isWordChar c = true ∨ c = '$' := by
  unfold wordLength at h
  split at h
  · rw [List.take_succ_cons, take_length_takeWhile] at h
    obtain rfl | h := List.mem_cons.mp h
    · exact .inr rfl
    · exact .inl (List.mem_takeWhile_imp h)
  · rw [take_length_takeWhile] at h
    exact .inl (List.mem_takeWhile_imp h)

/-- What is read as a word is one. -/
theorem isWord_of_word {i j : Input} {expected s : String} {place : Span}
    (h : i.word expected = .ok ((s, place), j)) : IsWord s := by
  unfold word at h
  dsimp only at h
  generalize hlength : wordLength i.skipBlanks.rest = n at h
  cases n with
  | zero => cases h
  | succ n =>
    obtain ⟨hs, -⟩ := Prod.mk.inj (Except.ok.inj h)
    obtain ⟨rfl, -⟩ := Prod.mk.inj hs
    refine ⟨fun hempty => ?_, fun c hc => ?_⟩
    · -- the text has as many characters as its word, so there is one
      have hnil := congrArg String.toList hempty
      rw [String.toList_ofList] at hnil
      cases hrest : i.skipBlanks.rest with
      | nil =>
        rw [hrest] at hlength
        cases hlength
      | cons c cs =>
        rw [hrest] at hnil
        cases hnil
    -- all characters counted are characters of a word
    · rw [String.toList_ofList, ← hlength] at hc
      exact mem_take_wordLength hc

end Input

/-! ### Names -/

/-- The name of a template; other nodes have none. -/
def NodeKind.names : NodeKind → List String
  | .template t => [t.name]
  | _ => []

/-- The names that a file declares for itself. -/
def TemplateFile.ownNames (f : TemplateFile) : List String :=
  f.namespaceName.toList ++ f.delegatePackage.toList

theorem TemplateFile.mem_ownNames {f : TemplateFile} {s : String} :
    s ∈ f.ownNames ↔ f.namespaceName = some s ∨ f.delegatePackage = some s := by
  rw [ownNames, List.mem_append, Option.mem_toList, Option.mem_toList]

namespace Markup

/-- The name of the template that a block is, if it is one. -/
def Block.names : Block → List String
  | .template t _ => [t.name]
  | _ => []

/-- The name of the template that is open, if one is. -/
def Frame.names : Frame → List String
  | .block _ _ inner _ => inner.names
  | _ => []

/-- Settings leave the name of a template alone. -/
theorem name_templateSetting {t t' : Template} {s : Setting} (h : templateSetting t s = .ok t') :
    t'.name = t.name := by
  -- a setting writes one field of the template, and none writes the name
  unfold templateSetting at h
  split at h
  · split at h
    · rw [← Except.ok.inj h]
    · cases h
  · obtain ⟨kind, -, h⟩ := exists_of_bind_ok h
    rw [← Except.ok.inj h]
  · split at h
    · rw [← Except.ok.inj h]
    · rw [← Except.ok.inj h]
    · cases h
  · split at h
    · rw [← Except.ok.inj h]
    · cases h

/-- A qualified name is the one that is written, or starts with the namespace. -/
theorem isWord_of_templateName {f : TemplateFile} {kind : TemplateKind} {written name : String}
    {place : Span} (hfile : ∀ s ∈ f.ownNames, Input.IsWord s) (hwritten : Input.IsWord written)
    (h : templateName f kind written place = .ok name) : Input.IsWord name := by
  unfold templateName at h
  split at h
  · next cs hcs =>
    split at h
    · cases h
    · split at h
      · next ns hns =>
        obtain rfl := Except.ok.inj h
        -- the namespace was read as a word
        have hns : Input.IsWord ns := hfile ns (TemplateFile.mem_ownNames.mpr (.inl hns))
        -- a name relative to the namespace is the namespace and the written word in one
        have hchars : (ns ++ "." ++ String.ofList cs).toList = ns.toList ++ written.toList := by
          simp [hcs]
        refine ⟨fun hempty => ?_, fun c hc => ?_⟩
        · rw [hempty, hcs] at hchars
          cases List.append_eq_nil_iff.mp hchars.symm |>.2
        · rw [hchars] at hc
          exact (List.mem_append.mp hc).elim (hns.2 c) (hwritten.2 c)
      · cases h
  · obtain rfl := Except.ok.inj h
    exact hwritten

/-- **The name of a template** is a word if those of its file are. -/
theorem isWord_of_openTemplate {f : TemplateFile} {kind : TemplateKind} {doc : Option String}
    {tag : Tag} {t : Template} (hfile : ∀ s ∈ f.ownNames, Input.IsWord s)
    (h : openTemplate f kind doc tag = .ok t) : Input.IsWord t.name := by
  obtain ⟨⟨⟨written, place⟩, i⟩, hword, h⟩ := exists_of_bind_ok h
  obtain ⟨name, hname, h⟩ := exists_of_bind_ok h
  obtain ⟨settings, -, h⟩ := exists_of_bind_ok h
  obtain ⟨t', ht', h⟩ := exists_of_bind_ok h
  obtain rfl := Except.ok.inj h
  have hsame : t'.name = name :=
    foldlM_keeps (P := fun t => t.name = name) (fun _ _ _ hb hp => (name_templateSetting hb).trans hp)
      ht' rfl
  exact hsame ▸ isWord_of_templateName hfile (Input.isWord_of_word hword) hname

/-! ### Names that are read -/

/-- All names that were read so far are words. -/
structure Named (f : TemplateFile) (frames : List Frame) : Prop where
  own : ∀ s ∈ f.ownNames, Input.IsWord s
  nodes : ∀ node ∈ f.nodes, ∀ s ∈ node.kind.names, Input.IsWord s
  frames : ∀ frame ∈ frames, ∀ s ∈ frame.names, Input.IsWord s

namespace Named

variable {f : TemplateFile} {fs below : List Frame} {frame : Frame} {r : Reading} {k : NodeKind}

theorem start (path : String) (content : List Char) :
    Named (Reading.start path content).file (Reading.start path content).frames :=
  ⟨fun _ hs => (List.not_mem_nil hs).elim, fun _ hnode => (Array.not_mem_empty _ hnode).elim,
    fun _ hframe => (List.not_mem_nil hframe).elim⟩

theorem kind (h : Named f fs) (id : NodeId) : ∀ s ∈ (f.kind id).names, Input.IsWord s := by
  cases hget : f.nodes[id]? with
  | none =>
    rw [TemplateFile.kind, hget]
    exact List.forall_mem_nil _
  | some node =>
    rw [TemplateFile.kind, hget]
    exact h.nodes node (Array.mem_of_getElem? hget)

theorem names_of_frames (h : Named f fs) (hfs : fs = frame :: below) :
    ∀ s ∈ frame.names, Input.IsWord s :=
  h.frames frame (hfs ▸ List.mem_cons_self)

/-- A new node, not yet where it belongs. -/
theorem add (h : Named f fs) (hk : ∀ s ∈ k.names, Input.IsWord s) (s : Span) :
    Named (f.add k s).1 fs := by
  refine ⟨h.own, fun node hnode => ?_, h.frames⟩
  obtain hnode | rfl := Array.mem_push.mp hnode
  · exact h.nodes node hnode
  · exact hk

theorem emit (h : Named r.file r.frames) (hk : ∀ s ∈ k.names, Input.IsWord s) (s : Span) :
    Named (r.emit k s).file (r.emit k s).frames := by
  obtain ⟨hown, hnodes, hframes⟩ := h.add hk s
  unfold Reading.emit Reading.place
  dsimp only
  -- a new node changes the lists of the frames, which no name stands in
  split
  · exact ⟨hown, hnodes, hframes⟩
  · next hfr =>
    rw [hfr, List.forall_mem_cons] at hframes
    exact ⟨hown, hnodes, List.forall_mem_cons.mpr hframes⟩
  · next hfr =>
    rw [hfr, List.forall_mem_cons] at hframes
    exact ⟨hown, hnodes, List.forall_mem_cons.mpr hframes⟩
  · exact ⟨hown, hnodes, hframes⟩
  · exact ⟨hown, hnodes, hframes⟩

theorem push (h : Named r.file r.frames) (hframe : ∀ s ∈ frame.names, Input.IsWord s) :
    Named (r.push frame).file (r.push frame).frames :=
  ⟨h.own, h.nodes, List.forall_mem_cons.mpr ⟨hframe, h.frames⟩⟩

theorem pop (h : Named r.file r.frames) : Named r.pop.file r.pop.frames :=
  ⟨h.own, h.nodes, fun frame hframe => h.frames frame (List.mem_of_mem_tail hframe)⟩

end Named

end Markup

end TemplateFrontend
