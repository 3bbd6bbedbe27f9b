import TemplateFrontend.Proofs.Markup.KeptTags
/-!
# Texts of open tags

The text of an open tag has its name, its attributes with their values between double quotes, and its end.
Where it stands in a block in which HTML tags are read, one attribute is read after the other, and from each
goes to the tag that is open what the text says of it. A value has no escapes: it ends at its next quote,
wherever the text has one.

* `Markup.TagText` — the text of an open tag;
* `TemplateFile.HasTag` — a node is an open tag with this text;
* `Markup.named_of_parse` — the tags of every source have names that are read as such;
* `Markup.InTag` — a state in an open tag, between two of its attributes;
* `Markup.InTag.take`, `Markup.InTag.takeAll` — one more attribute, and several of them;
* `Markup.Reaches.exists_tag` — a whole tag.
-/

namespace TemplateFrontend

open Text

/-! ### Names that are read -/

/-- The name is read as one of a tag. -/
structure IsTagName (name : String) : Prop where
  letter : ∃ c cs, name.toList = c :: cs ∧ c.isAlpha = true
  chars : ∀ c ∈ name.toList, Markup.isTagNameChar c = true

/-- The name is read as one of an attribute. -/
structure IsAttributeName (name : String) : Prop where
  ne_nil : name.toList ≠ []
  chars : ∀ c ∈ name.toList, Markup.endsAttributeName c = false

/-- The names in a node, if it is an open tag, are read as such. -/
def NodeKind.NamesTags : NodeKind → Prop
  | .openTag name attributes _ => IsTagName name ∧ ∀ a ∈ attributes, IsAttributeName a.name
  | _ => True

namespace Markup

/-- What is read as the name of an opening tag starts with a letter and goes on with the characters of
names. -/
theorem isTagName_of_startsTag {i : Input} (h : startsTag i.rest = true) (hslash : i.rest.tail.head? ≠ some '/') :
    IsTagName (String.ofList (htmlTagName i 1).1) := by
  have hchars : ∀ c ∈ (String.ofList (htmlTagName i 1).1).toList, isTagNameChar c = true := by
    intro c hc
    rw [String.toList_ofList] at hc
    exact List.mem_takeWhile_imp hc
  refine ⟨?_, hchars⟩
  -- a tag starts with `</` or with a letter
  unfold startsTag at h
  split at h
  · next hrest =>
    rw [hrest] at hslash
    exact absurd rfl hslash
  -- a letter, which is part of the name
  · next c cs _ hrest =>
    have hc : isTagNameChar c = true := by
      rw [isTagNameChar, isNameChar, Char.isAlphanum, h]
      rfl
    refine ⟨c, cs.takeWhile isTagNameChar, ?_, h⟩
    rw [String.toList_ofList, htmlTagName, Input.takeWhile, Input.drop, hrest]
    exact List.takeWhile_cons_of_pos hc
  · cases h

/-- What is read as the name of an attribute, if anything, has only characters that end no name. -/
theorem isAttributeName_of_ne {i : Input} (h : attributeName i ≠ []) :
    IsAttributeName (String.ofList (attributeName i)) := by
  refine ⟨by rwa [String.toList_ofList], fun c hc => ?_⟩
  rw [String.toList_ofList] at hc
  have hname : (! endsAttributeName c) = true :=
    List.mem_takeWhile_imp (p := fun c => ! endsAttributeName c) hc
  rwa [Bool.not_eq_true'] at hname

/-- Names of tags and attributes are kept as they are read. -/
theorem tracks_namesTags : Tracks (fun _ => True) NodeKind.NamesTags (fun _ _ => True)
    (fun name attributes => IsTagName name ∧ ∀ a ∈ attributes, IsAttributeName a.name) where
  input _ _ := trivial
  node {k} h := by
    cases k with
    | openTag => exact h.elim
    | _ => trivial
  block _ := trivial
  after _ _ := trivial
  header := trivial
  closeHeader _ := trivial
  declare _ _ _ := trivial
  attachDoc _ := trivial
  template _ := trivial
  startLoop _ := trivial
  loop _ := trivial
  startValue _ _ := trivial
  startContent _ _ := trivial
  content _ := trivial
  -- the names are read in these two steps, and the others pass them on
  startTag h hslash := ⟨isTagName_of_startsTag h hslash, List.forall_mem_nil _⟩
  takeAttribute hname h := ⟨h.1, List.forall_mem_cons.mpr ⟨isAttributeName_of_ne hname, h.2⟩⟩
  tag h := ⟨h.1, fun a ha => h.2 a (List.mem_reverse.mp ha)⟩

/-- **Names of tags.** -/
theorem namesTags_of_parse {source : SourceText} {f : TemplateFile} (h : parse source = .ok f) (id : NodeId) :
    (f.kind id).NamesTags :=
  tracks_namesTags.of_parse h trivial id

end Markup

/-! ### Nodes that are texts -/

namespace TemplateFile

/-- The file has more nodes than the other one, all of them texts. -/
def AddsTexts (f g : TemplateFile) : Prop :=
  ∃ ns : Array Node, g = { f with nodes := f.nodes ++ ns } ∧ ∀ n ∈ ns, ∃ s, n.kind = .text s

/-- The nodes are texts, and this is what they say together. -/
inductive AreTexts (f : TemplateFile) : List NodeId → List Char → Prop
  | nil : AreTexts f [] []
  | cons {id : NodeId} {ids : List NodeId} {s : String} {place : Span} {cs : List Char}
    (h : f.nodes[id]? = some ⟨.text s, place⟩) (hrest : AreTexts f ids cs) : AreTexts f (id :: ids) (s.toList ++ cs)

/-- The value of an attribute is this text, or there is none of either. -/
inductive HasValue (f : TemplateFile) : Option (List NodeId) → Option String → Prop
  | none : HasValue f none none
  | texts {ids : List NodeId} {s : String} (h : f.AreTexts ids s.toList) : HasValue f (some ids) (some s)

/-- The attribute has this name and this value. -/
structure HasAttribute (f : TemplateFile) (a : Attribute) (text : String × Option String) : Prop where
  name : a.name = text.1
  value : f.HasValue a.value text.2

section Texts

variable {f g k : TemplateFile} {id : NodeId} {ids ids' : List NodeId} {cs cs' : List Char}

/-- No nodes are added. -/
theorem AddsTexts.refl (f : TemplateFile) : f.AddsTexts f :=
  ⟨#[], by rw [Array.append_empty], fun _ hn => absurd hn (Array.not_mem_empty _)⟩

/-- More texts after some texts. -/
theorem AddsTexts.trans (h : f.AddsTexts g) (h' : g.AddsTexts k) : f.AddsTexts k := by
  obtain ⟨ns, rfl, hns⟩ := h
  obtain ⟨ns', rfl, hns'⟩ := h'
  refine ⟨ns ++ ns', by rw [Array.append_assoc], fun n hn => ?_⟩
  obtain hn | hn := Array.mem_append.mp hn
  · exact hns n hn
  · exact hns' n hn

/-- A text is added. -/
theorem addsTexts_add (f : TemplateFile) (s : String) (place : Span) : f.AddsTexts (f.add (.text s) place).1 := by
  refine ⟨#[⟨.text s, place⟩], by rw [TemplateFile.add, Array.append_singleton], fun n hn => ⟨s, ?_⟩⟩
  rw [Array.mem_singleton.mp hn]

/-- The nodes that there were are kept. -/
theorem AddsTexts.keepsNodes (h : f.AddsTexts g) : f.KeepsNodes g := by
  obtain ⟨ns, rfl, -⟩ := h
  intro id n h
  obtain ⟨hlt, -⟩ := Array.getElem?_eq_some_iff.mp h
  rwa [Array.getElem?_append_left hlt]

/-- The new node is the last one. -/
theorem nodes_add_self (f : TemplateFile) (kind : NodeKind) (place : Span) :
    (f.add kind place).1.nodes[f.nodes.size]? = some ⟨kind, place⟩ :=
  Array.getElem?_push_size

/-- A new text says what it was made of. -/
theorem areTexts_add (f : TemplateFile) (cs : List Char) (place : Span) :
    (f.add (.text (String.ofList cs)) place).1.AreTexts [f.nodes.size] cs := by
  have htexts := AreTexts.cons (nodes_add_self f (.text (String.ofList cs)) place) .nil
  rwa [String.toList_ofList, List.append_nil] at htexts

/-- Texts that are kept go on saying the same. -/
theorem AreTexts.mono (h : f.AreTexts ids cs) (hg : f.KeepsNodes g) : g.AreTexts ids cs := by
  induction h with
  | nil => exact .nil
  | cons h _ ih => exact .cons (hg _ _ h) ih

/-- What several texts say is what they say one after the other. -/
theorem AreTexts.append (h : f.AreTexts ids cs) (h' : f.AreTexts ids' cs') :
    f.AreTexts (ids ++ ids') (cs ++ cs') := by
  induction h with
  | nil => exact h'
  | cons h _ ih =>
    rw [List.cons_append, List.append_assoc]
    exact .cons h ih

/-- One text only is what nodes say. -/
theorem AreTexts.unique (h : f.AreTexts ids cs) (h' : f.AreTexts ids cs') : cs = cs' := by
  induction h generalizing cs' with
  | nil =>
    cases h'
    rfl
  | cons h _ ih =>
    cases h' with
    | cons h' hrest' =>
      obtain ⟨hkind, -⟩ := Node.mk.inj (Option.some.inj (h.symm.trans h'))
      rw [NodeKind.text.inj hkind, ih hrest']

/-- A value that is kept stays the same. -/
theorem HasValue.mono {value : Option (List NodeId)} {text : Option String} (h : f.HasValue value text)
    (hg : f.KeepsNodes g) : g.HasValue value text := by
  cases h with
  | none => exact .none
  | texts h => exact .texts (h.mono hg)

/-- A value is one text only. -/
theorem HasValue.unique {value : Option (List NodeId)} {text text' : Option String} (h : f.HasValue value text)
    (h' : f.HasValue value text') : text = text' := by
  cases h with
  | none =>
    cases h'
    rfl
  | texts h =>
    cases h' with
    | texts h' => rw [String.toList_injective (h.unique h')]

/-- An attribute whose nodes are kept stays the same. -/
theorem HasAttribute.mono {a : Attribute} {text : String × Option String} (h : f.HasAttribute a text)
    (hg : f.KeepsNodes g) : g.HasAttribute a text :=
  ⟨h.name, h.value.mono hg⟩

/-- An attribute is written in one way only. -/
theorem HasAttribute.unique {a : Attribute} {text text' : String × Option String} (h : f.HasAttribute a text)
    (h' : f.HasAttribute a text') : text = text' :=
  Prod.ext (h.name.symm.trans h'.name) (h.value.unique h'.value)

end Texts

end TemplateFile

/-! ### The text of a tag -/

namespace Markup

/-- An open tag as it is written: its name, its attributes with the texts of their values, and whether it
closes itself. -/
structure TagText where
  name : String
  attributes : List (String × Option String)
  selfClosing : Bool
  deriving Repr, DecidableEq

/-- An attribute as it is written, after a blank and with its value between double quotes. -/
def attributeChars : String × Option String → List Char
  | (name, none) => ' ' :: name.toList
  | (name, some value) => ' ' :: (name.toList ++ '=' :: '"' :: (value.toList ++ ['"']))

namespace TagText

/-- The text that follows the name. -/
def afterName (t : TagText) : List Char := t.attributes.flatMap attributeChars ++ tagEnd t.selfClosing

/-- The text. -/
def chars (t : TagText) : List Char := '<' :: (t.name.toList ++ t.afterName)

/-- The names in the text are read as such. -/
structure Named (t : TagText) : Prop where
  name : IsTagName t.name
  attributes : ∀ a ∈ t.attributes, IsAttributeName a.1

end TagText

end Markup

/-- The node is an open tag with this text. -/
def TemplateFile.HasTag (f : TemplateFile) (id : NodeId) (t : Markup.TagText) : Prop :=
  ∃ as place, f.nodes[id]? = some ⟨.openTag t.name as t.selfClosing, place⟩ ∧
    List.Forall₂ f.HasAttribute as t.attributes

/-- A tag whose nodes are kept is written as before. -/
theorem TemplateFile.HasTag.mono {f g : TemplateFile} {id : NodeId} {t : Markup.TagText} (h : f.HasTag id t)
    (hg : f.KeepsNodes g) : g.HasTag id t := by
  obtain ⟨as, place, hnode, has⟩ := h
  exact ⟨as, place, hg id _ hnode, has.imp fun _ _ ha => ha.mono hg⟩

/-! The text of a tag can be computed. -/

namespace TemplateFile

variable {f : TemplateFile}

/-- What nodes say, if they are texts. -/
def said? (f : TemplateFile) : List NodeId → Option (List Char)
  | [] => some []
  | id :: ids =>
    match f.nodes[id]? with
    | some ⟨.text s, _⟩ => (f.said? ids).map (s.toList ++ ·)
    | _ => none

/-- An attribute as it is written, if its value is text. -/
def attributeText? (f : TemplateFile) (a : Attribute) : Option (String × Option String) :=
  match a.value with
  | none => some (a.name, none)
  | some ids => (f.said? ids).map fun cs => (a.name, some (String.ofList cs))

/-- A node as it is written, if it is an open tag with texts for values. -/
def tagText? (f : TemplateFile) (id : NodeId) : Option Markup.TagText :=
  match f.nodes[id]? with
  | some ⟨.openTag name attributes closed, _⟩ =>
    (attributes.mapM f.attributeText?).map fun texts => ⟨name, texts, closed⟩
  | _ => none

/-- What is computed is what the nodes say. -/
theorem areTexts_of_said? {ids : List NodeId} {cs : List Char} (h : f.said? ids = some cs) : f.AreTexts ids cs := by
  induction ids generalizing cs with
  | nil =>
    obtain rfl := Option.some.inj h
    exact .nil
  | cons id ids ih =>
    unfold said? at h
    split at h
    -- a value says something only while all of its nodes are texts
    · next hnode =>
      obtain ⟨cs', hcs', rfl⟩ := Option.map_eq_some_iff.mp h
      exact .cons hnode (ih hcs')
    · cases h

/-- What is computed for an attribute is how it is written. -/
theorem hasAttribute_of_attributeText? {a : Attribute} {text : String × Option String}
    (h : f.attributeText? a = some text) : f.HasAttribute a text := by
  obtain ⟨name, value, place⟩ := a
  cases value with
  | none =>
    obtain rfl := Option.some.inj h
    exact ⟨rfl, .none⟩
  | some ids =>
    obtain ⟨cs, hcs, rfl⟩ := Option.map_eq_some_iff.mp h
    refine ⟨rfl, .texts ?_⟩
    rw [String.toList_ofList]
    exact areTexts_of_said? hcs

/-- What is computed for the attributes of a tag is how they are written. -/
theorem hasAttributes_of_mapM {as : List Attribute} {texts : List (String × Option String)}
    (h : as.mapM f.attributeText? = some texts) : List.Forall₂ f.HasAttribute as texts := by
  induction as generalizing texts with
  | nil =>
    obtain rfl := Option.some.inj h
    exact .nil
  | cons a as ih =>
    rw [List.mapM_cons] at h
    obtain ⟨text, htext, h⟩ := Option.bind_eq_some_iff.mp h
    obtain ⟨texts, htexts, h⟩ := Option.bind_eq_some_iff.mp h
    obtain rfl := Option.some.inj h
    exact .cons (hasAttribute_of_attributeText? htext) (ih htexts)

/-- What is computed for a tag is how it is written. -/
theorem hasTag_of_tagText? {id : NodeId} {t : Markup.TagText} (h : f.tagText? id = some t) : f.HasTag id t := by
  unfold tagText? at h
  split at h
  · next name attributes closed place hnode =>
    obtain ⟨texts, htexts, rfl⟩ := Option.map_eq_some_iff.mp h
    exact ⟨attributes, place, hnode, hasAttributes_of_mapM htexts⟩
  · cases h

end TemplateFile

/-! ### Reading an attribute -/

namespace Markup

section InTags

variable {source : SourceText} {r : Reading} {f : TemplateFile} {start tagStart : Nat} {name tag : String}
  {below : List Frame} {as : List Attribute} {texts : List (String × Option String)} {cs v : List Char}

/-- A character of a name is no blank and no mark. -/
theorem ne_of_endsAttributeName {c : Char} (h : endsAttributeName c = false) :
    isBlank c = false ∧ c ≠ '=' ∧ c ≠ '>' ∧ c ≠ '/' ∧ c ≠ '\x7b' := by
  obtain ⟨hblank, hmarks⟩ := Bool.or_eq_false_iff.mp h
  refine ⟨hblank, ?_, ?_, ?_, ?_⟩ <;>
    · rintro rfl
      cases hmarks

/-- A state in an open tag, between two of its attributes. The file has grown by texts only, the attributes that
were read are these, and after blanks the text goes on with these characters. -/
structure InTag (f : TemplateFile) (start : Nat) (name : String) (below : List Frame)
    (texts : List (String × Option String)) (cs : List Char) (r : Reading) : Prop where
  file : f.AddsTexts r.file
  frames : ∃ as, r.frames = .openTag start name as :: below ∧ List.Forall₂ r.file.HasAttribute as.reverse texts
  rest : trimStart r.input.rest = trimStart cs

/-- In the value of an attribute the step goes on with the value. -/
theorem step_of_attributeValue {quote : Char} {nodes : List NodeId}
    (hfr : r.frames = .attributeValue name start quote nodes :: below) :
    step r = inAttributeValue r name start quote nodes := by
  rw [step, hfr]

/-- In an open tag it goes on with the tag. -/
theorem step_of_openTag (hfr : r.frames = .openTag start name as :: below) : step r = inOpenTag r start name as := by
  rw [step, hfr]

/-- In a block it goes on with the block. -/
theorem step_of_block {opener : Tag} {html : Bool} {block : Block} {nodes : List NodeId}
    (hfr : r.frames = .block opener html block nodes :: below) : step r = inBlock r opener html block nodes := by
  rw [step, hfr]

/-- The attribute goes to the tag that is open. -/
theorem addAttribute_of_openTag (hfr : r.frames = .openTag tagStart tag as :: below) (name : String) (start : Nat)
    (value : Option (List NodeId)) (i : Input) : addAttribute r name start value i =
      ⟨i, r.file, r.doc, r.strict, .openTag tagStart tag (⟨name, value, ⟨start, i.offset⟩⟩ :: as) :: below⟩ := by
  rw [addAttribute, hfr]
  rfl

/-- The name of an attribute is read up to what ends it. -/
theorem attributeName_of_rest {i : Input} {after : List Char} (hname : IsAttributeName name)
    (hrest : i.rest = name.toList ++ after) (hafter : ∀ c ∈ after.head?, endsAttributeName c = true) :
    attributeName i = name.toList ∧ (afterAttributeName i).rest = trimStart after := by
  have hrun := Input.takeWhile_of_run (p := fun c => ! endsAttributeName c) hrest
    (fun c hc => by rw [hname.chars c hc]; rfl) fun c hc => by rw [hafter c hc]; rfl
  rw [attributeName, afterAttributeName, Input.skipBlanks, Input.rest_takeWhile, hrun]
  exact ⟨rfl, rfl⟩

/-- An attribute is read where its name stands after blanks. -/
theorem step_of_takesAttribute {r' : Reading} {after : List Char}
    (hfr : r.frames = .openTag tagStart tag as :: below) (hname : IsAttributeName name)
    (hrest : r.input.skipBlanks.rest = name.toList ++ after) (h : TakesAttribute r r.input.skipBlanks r') :
    step r = .ok r' := by
  obtain ⟨c, run, hrun⟩ := List.exists_cons_of_ne_nil hname.ne_nil
  obtain ⟨-, -, hgt, hslash, hbrace⟩ := ne_of_endsAttributeName (hname.chars c (hrun ▸ List.mem_cons_self))
  rw [hrun, List.cons_append] at hrest
  refine (step_of_openTag hfr).trans (inOpenTag_eq_ok_iff.mpr (.goesOn ?_ ?_ h))
  · rintro (_ | _) cs hends
    · exact hgt (List.cons.inj (hrest.symm.trans hends)).1
    · exact hslash (List.cons.inj (hrest.symm.trans hends)).1
  · rw [hrest, List.head?_cons]
    exact fun heq => hbrace (Option.some.inj heq)

namespace Reaches

/-- A state in which something is open is not the last one. -/
theorem goesOn {r' : Reading} (hr : Reaches source r) (hopen : r.frames ≠ []) (h : Markup.step r = .ok r') :
    Reaches source r' := by
  refine hr.step ?_ h
  rw [Reading.isDone, List.isEmpty_eq_false_iff.mpr hopen, Bool.and_false]

/-- The end of a value. -/
theorem exists_valueEnd {quote : Char} {nodes : List NodeId} (hr : Reaches source r)
    (hfr : r.frames = .attributeValue name start quote nodes :: .openTag tagStart tag as :: below)
    (hrest : r.input.rest = quote :: cs) :
    ∃ r' place, Reaches source r' ∧ r'.file = r.file ∧
      r'.frames = .openTag tagStart tag (⟨name, some nodes.reverse, place⟩ :: as) :: below ∧
      r'.input.rest = cs := by
  have hgoes := @GoesOnInValue.ends r name start quote nodes (by rw [hrest, List.head?_cons])
  rw [addAttribute_of_openTag (Reading.frames_pop hfr)] at hgoes
  have hstep := (step_of_attributeValue hfr).trans (inAttributeValue_eq_ok_iff.mpr hgoes)
  refine ⟨_, _, hr.goesOn (hfr ▸ List.cons_ne_nil _ _) hstep, rfl, rfl, ?_⟩
  rw [Input.drop, hrest, List.drop_one, List.tail_cons]

/-- **A value** without quotes and braces is read up to the quote after it. -/
theorem exists_value (hr : Reaches source r)
    (hfr : r.frames = .attributeValue name start '"' [] :: .openTag tagStart tag as :: below)
    (hrest : r.input.rest = v ++ '"' :: cs) (hv : ∀ c ∈ v, c ≠ '"' ∧ c ≠ '\x7b') :
    ∃ r' ids place, Reaches source r' ∧ r.file.AddsTexts r'.file ∧ r'.file.AreTexts ids v ∧
      r'.frames = .openTag tagStart tag (⟨name, some ids, place⟩ :: as) :: below ∧ r'.input.rest = cs := by
  cases v with
  | nil =>
    obtain ⟨r', place, hr', hfile, hfr', hrest'⟩ := hr.exists_valueEnd hfr hrest
    exact ⟨r', [], place, hr', hfile ▸ .refl r.file, .nil, hfr', hrest'⟩
  | cons c v =>
    have hhead : r.input.rest.head? = some c := by rw [hrest, List.cons_append, List.head?_cons]
    obtain ⟨hquote, hbrace⟩ := hv c List.mem_cons_self
    -- the value is one run of characters
    have hrun : valueText '"' r.input = (c :: v, ⟨r.input.offset + byteLength (c :: v), '"' :: cs⟩) := by
      refine Input.takeWhile_of_run hrest (fun d hd => ?_) fun d hd => ?_
      · obtain ⟨hquote, hbrace⟩ := hv d hd
        rw [beq_eq_false_iff_ne.mpr hquote, beq_eq_false_iff_ne.mpr hbrace]
        rfl
      · obtain rfl := Option.some.inj hd
        rfl
    -- one step reads it, and the next one its end
    have hgoes := @GoesOnInValue.text r name start '"' [] (by rw [hrest]; exact List.cons_ne_nil _ _)
      (by rw [hhead]; exact fun h => hquote (Option.some.inj h))
      (by rw [hhead]; exact fun h => hbrace (Option.some.inj h))
    rw [hrun, hfr] at hgoes
    have hstep := (step_of_attributeValue hfr).trans (inAttributeValue_eq_ok_iff.mpr hgoes)
    obtain ⟨r', place, hr', hfile, hfr', hrest'⟩ :=
      (hr.goesOn (hfr ▸ List.cons_ne_nil _ _) hstep).exists_valueEnd rfl rfl
    exact ⟨r', _, place, hr', hfile ▸ TemplateFile.addsTexts_add .., hfile ▸ TemplateFile.areTexts_add .., hfr',
      hrest'⟩

end Reaches

/-- What the text goes on with behind a name. -/
theorem head_afterName (as : List (String × Option String)) (closed : Bool) (more : List Char) :
    ∀ c ∈ (as.flatMap attributeChars ++ (tagEnd closed ++ more)).head?, c = ' ' ∨ c = '/' ∨ c = '>' := by
  intro c hc
  obtain _ | ⟨⟨name, _ | v⟩, as⟩ := as
  · cases closed
    · exact .inr (.inr (Option.some.inj hc).symm)
    · exact .inr (.inl (Option.some.inj hc).symm)
  · exact .inl (Option.some.inj hc).symm
  · exact .inl (Option.some.inj hc).symm

/-- An attribute without a value does not go on in the text behind it. -/
theorem trimStart_afterName {as : List (String × Option String)} (hnames : ∀ a ∈ as, IsAttributeName a.1)
    (closed : Bool) (more : List Char) :
    (trimStart (as.flatMap attributeChars ++ (tagEnd closed ++ more))).head? ≠ some '=' := by
  intro heq
  cases as with
  -- without another attribute the tag ends here
  | nil => cases closed <;> cases heq
  | cons a as =>
    have hname := hnames a List.mem_cons_self
    obtain ⟨after, hchars⟩ : ∃ after, attributeChars a = ' ' :: (a.1.toList ++ after) := by
      obtain ⟨name, value⟩ := a
      cases value with
      | none => exact ⟨[], by rw [List.append_nil, attributeChars]⟩
      | some v => exact ⟨_, rfl⟩
    -- behind the blank stands the name of the next attribute, which has no such mark in it
    obtain ⟨c, run, hrun⟩ := List.exists_cons_of_ne_nil hname.ne_nil
    obtain ⟨hblank, hmark, -⟩ := ne_of_endsAttributeName (hname.chars c (hrun ▸ List.mem_cons_self))
    rw [List.flatMap_cons, hchars, hrun] at heq
    simp only [List.cons_append] at heq
    rw [trimStart, List.dropWhile_cons_of_pos rfl,
      List.dropWhile_cons_of_neg (Bool.eq_false_iff.mp hblank)] at heq
    exact hmark (Option.some.inj heq)

namespace InTag

/-- One more attribute. -/
theorem push {r' : Reading} {a : Attribute} {text : String × Option String} (h : InTag f tagStart tag below texts cs r)
    (hframes : r.frames = .openTag tagStart tag as :: below) (hfile : r.file.AddsTexts r'.file)
    (hframes' : r'.frames = .openTag tagStart tag (a :: as) :: below) (ha : r'.file.HasAttribute a text)
    {cs' : List Char} (hrest : trimStart r'.input.rest = trimStart cs') :
    InTag f tagStart tag below (texts ++ [text]) cs' r' := by
  obtain ⟨as', hframes₀, has⟩ := h.frames
  obtain ⟨hframe, -⟩ := List.cons.inj (hframes.symm.trans hframes₀)
  obtain ⟨-, -, rfl⟩ := Frame.openTag.inj hframe
  refine ⟨h.file.trans hfile, ⟨_, hframes', ?_⟩, hrest⟩
  rw [List.reverse_cons]
  refine List.rel_append (has.imp fun _ _ ha => ha.mono hfile.keepsNodes) (.cons ha .nil)

/-- **One more attribute** is taken, if its value has no quotes and no braces. If it has no value, what follows
must not be taken for more of its name, nor for a value. -/
theorem take {a : String × Option String} (hr : Reaches source r)
    (h : InTag f tagStart tag below texts (attributeChars a ++ cs) r) (hname : IsAttributeName a.1)
    (hvalue : ∀ v ∈ a.2, ∀ c ∈ v.toList, c ≠ '"' ∧ c ≠ '\x7b')
    (hplain : a.2 = none → (∀ c ∈ cs.head?, endsAttributeName c = true) ∧ (trimStart cs).head? ≠ some '=') :
    ∃ r', Reaches source r' ∧ InTag f tagStart tag below (texts ++ [a]) cs r' := by
  obtain ⟨name, value⟩ := a
  obtain ⟨as, hframes, -⟩ := h.frames
  have hopen : r.frames ≠ [] := hframes ▸ List.cons_ne_nil _ _
  have hskipped : r.input.skipBlanks.rest = trimStart r.input.rest := Input.rest_takeWhile _ _
  -- the blank before the name is all that is skipped
  have htrim (after : List Char) : trimStart (' ' :: (name.toList ++ after)) = name.toList ++ after := by
    obtain ⟨c, run, hrun⟩ := List.exists_cons_of_ne_nil hname.ne_nil
    have hblank := (ne_of_endsAttributeName (hname.chars c (hrun ▸ List.mem_cons_self))).1
    rw [hrun, trimStart, List.dropWhile_cons_of_pos rfl, List.cons_append,
      List.dropWhile_cons_of_neg (Bool.eq_false_iff.mp hblank)]
  cases value with
  -- a name alone is complete where the next character ends it
  | none =>
    obtain ⟨hends, hmark⟩ := hplain rfl
    have hrest : r.input.skipBlanks.rest = name.toList ++ cs := by
      rw [hskipped, h.rest]
      exact htrim cs
    obtain ⟨hread, hafter⟩ := attributeName_of_rest hname hrest hends
    have htakes := @TakesAttribute.plain r r.input.skipBlanks (hread ▸ hname.ne_nil) (hafter ▸ hmark)
    rw [hread, String.ofList_toList, addAttribute_of_openTag hframes] at htakes
    refine ⟨_, hr.goesOn hopen (step_of_takesAttribute hframes hname hrest htakes), ?_⟩
    refine h.push hframes ?_ rfl ?_ ?_
    · exact .refl _
    · exact ⟨rfl, .none⟩
    · rw [hafter, trimStart, trimStart, List.dropWhile_idempotent]
  | some v =>
    have hrest : r.input.skipBlanks.rest = name.toList ++ '=' :: '"' :: (v.toList ++ '"' :: cs) := by
      rw [hskipped, h.rest, ← htrim, attributeChars]
      simp only [List.cons_append, List.append_assoc, List.nil_append]
    obtain ⟨hread, hafter⟩ := attributeName_of_rest hname hrest fun c hc => by
      obtain rfl := Option.some.inj hc
      rfl
    -- the quote opens the value, which is read by further steps
    have hvalueStart : (fromAttributeValue r.input.skipBlanks).rest = '"' :: (v.toList ++ '"' :: cs) := by
      rw [fromAttributeValue, Input.skipBlanks, Input.rest_takeWhile, Input.drop, hafter]
      rfl
    have htakes := TakesAttribute.quoted (r := r) (hread ▸ hname.ne_nil) (by rw [hafter]; rfl) hvalueStart (.inl rfl)
    have hr' := hr.goesOn hopen (step_of_takesAttribute hframes hname hrest htakes)
    rw [hread, String.ofList_toList] at hr'
    obtain ⟨r', ids, place, hr', hfile, htexts, hframes', hrest'⟩ :=
      hr'.exists_value (congrArg (_ :: ·) hframes)
        (by rw [Reading.input_push, Input.drop, hvalueStart]; rfl) (hvalue v rfl)
    exact ⟨r', hr', h.push hframes hfile hframes' ⟨rfl, .texts htexts⟩ (congrArg trimStart hrest')⟩

/-- **Several attributes** whose values have no quotes and no braces, with other ones behind them or not. -/
theorem takeAll {news others : List (String × Option String)} {closed : Bool} {more : List Char}
    (hr : Reaches source r)
    (h : InTag f tagStart tag below texts ((news ++ others).flatMap attributeChars ++ (tagEnd closed ++ more)) r)
    (hnames : ∀ a ∈ news ++ others, IsAttributeName a.1)
    (hvalues : ∀ a ∈ news, ∀ v ∈ a.2, ∀ c ∈ v.toList, c ≠ '"' ∧ c ≠ '\x7b') :
    ∃ r', Reaches source r' ∧ InTag f tagStart tag below (texts ++ news)
      (others.flatMap attributeChars ++ (tagEnd closed ++ more)) r' := by
  induction news generalizing r texts with
  | nil => exact ⟨r, hr, by rwa [List.append_nil]⟩
  | cons a news ih =>
    rw [List.cons_append, List.forall_mem_cons] at hnames
    rw [List.forall_mem_cons] at hvalues
    rw [List.cons_append, List.flatMap_cons, List.append_assoc] at h
    -- behind an attribute stands a blank or an end of the tag
    have hends : ∀ c ∈ ((news ++ others).flatMap attributeChars ++ (tagEnd closed ++ more)).head?,
        endsAttributeName c = true := by
      intro c hc
      obtain rfl | rfl | rfl := head_afterName (news ++ others) closed more c hc <;> rfl
    obtain ⟨r₁, hr₁, h₁⟩ := h.take hr hnames.1 hvalues.1 fun _ => ⟨hends, trimStart_afterName hnames.2 closed more⟩
    obtain ⟨r', hr', h'⟩ := ih hr₁ h₁ hnames.2 hvalues.2
    exact ⟨r', hr', by rwa [List.append_assoc] at h'⟩

/-- **The end of the tag.** -/
theorem finish {opener : Tag} {html closed : Bool} {block : Block} {nodes : List NodeId} {outer : List Frame}
    {more : List Char} (hr : Reaches source r) (h : InTag f tagStart tag below texts (tagEnd closed ++ more) r)
    (hbelow : below = .block opener html block nodes :: outer) :
    ∃ r' g place as, Reaches source r' ∧ f.AddsTexts g ∧ List.Forall₂ g.HasAttribute as texts ∧
      r'.file = (g.add (.openTag tag as closed) place).1 ∧
      r'.frames = .block opener html block (g.nodes.size :: nodes) :: outer ∧ r'.input.rest = more := by
  obtain ⟨as, hframes, has⟩ := h.frames
  -- there are no blanks before the end
  have hrest : r.input.skipBlanks.rest = tagEnd closed ++ more := by
    rw [Input.skipBlanks, Input.rest_takeWhile]
    refine h.rest.trans ?_
    cases closed <;> rfl
  have hgoes := @GoesOnInTag.ends r tagStart tag as closed more hrest
  have hstep := (step_of_openTag hframes).trans (inOpenTag_eq_ok_iff.mpr hgoes)
  have hr' := hr.goesOn (hframes ▸ List.cons_ne_nil _ _) hstep
  rw [Reading.pop, hframes, hbelow] at hr'
  refine ⟨_, r.file, _, as.reverse, hr', h.file, has, rfl, rfl, ?_⟩
  rw [Reading.input_emit]
  change r.input.skipBlanks.rest.drop (tagEnd closed).length = more
  rw [hrest, List.drop_left]

end InTag

/-- The text of a tag with a name is read as one. -/
theorem TagText.startsTag_chars {t : TagText} (h : IsTagName t.name) (more : List Char) :
    startsTag (t.chars ++ more) = true ∧ (t.chars ++ more).tail.head? ≠ some '/' := by
  obtain ⟨c, cs, hname, halpha⟩ := h.letter
  have hne : c ≠ '/' := by
    rintro rfl
    cases halpha
  rw [chars, hname]
  refine ⟨?_, fun heq => hne (Option.some.inj heq)⟩
  simp only [List.cons_append]
  unfold startsTag
  -- the letter of the name rules out a closing tag
  split
  · next heq => exact absurd (List.cons.inj (List.cons.inj heq).2).1 hne
  · next heq =>
    rw [← (List.cons.inj (List.cons.inj heq).2).1]
    exact halpha
  · next hno => exact absurd rfl (hno _ _)

/-- The body starts, and nothing else changes. -/
theorem startBody_of_block {opener : Tag} {html : Bool} {block : Block} {nodes : List NodeId}
    (hfr : r.frames = .block opener html block nodes :: below) : startBody r =
      ⟨r.input, r.file, r.doc, r.strict, .block opener html block.closeHeader nodes :: below⟩ := by
  simp only [startBody, hfr, Reading.replace, Reading.push, Reading.pop, List.tail_cons]

/-- **A tag is opened** in a block in which HTML tags are read. -/
theorem Reaches.exists_opened {t : TagText} {opener : Tag} {block : Block} {nodes : List NodeId} {more : List Char}
    (hr : Reaches source r) (hfr : r.frames = .block opener true block nodes :: below)
    (hrest : r.input.rest = t.chars ++ more) (hnamed : t.Named) :
    ∃ r' start, Reaches source r' ∧
      InTag r.file start t.name (.block opener true block.closeHeader nodes :: below) []
        (t.attributes.flatMap attributeChars ++ (tagEnd t.selfClosing ++ more)) r' := by
  obtain ⟨hstarts, hslash⟩ := TagText.startsTag_chars hnamed.name more
  -- the name is read up to the first attribute or the end
  have hread : htmlTagName r.input 1 = (t.name.toList, ⟨(r.input.drop 1).offset + byteLength t.name.toList,
      t.attributes.flatMap attributeChars ++ (tagEnd t.selfClosing ++ more)⟩) := by
    refine Input.takeWhile_of_run ?_ hnamed.name.chars fun c hc => ?_
    · rw [Input.drop, hrest, TagText.chars, List.drop_one, List.cons_append, List.tail_cons, TagText.afterName,
        List.append_assoc, List.append_assoc]
    · obtain rfl | rfl | rfl := head_afterName t.attributes t.selfClosing more c hc <;> rfl
  have hstart := startHtmlTag_eq_ok_iff.mpr (StartsHtmlTag.openTag (r := startBody r) (by
    rw [startBody_of_block hfr]
    exact hrest ▸ hslash))
  -- neither a comment nor a command starts with this bracket
  have hgoes := @GoesOnInBlock.htmlTag r opener true block nodes _ (by rw [hrest]; exact List.cons_ne_nil _ _)
    (fun cs heq => by cases (List.cons.inj (hrest.symm.trans heq)).1)
    (fun cs heq => by cases (List.cons.inj (hrest.symm.trans heq)).1) (hrest ▸ hstarts) hstart
  have hr' := hr.goesOn (hfr ▸ List.cons_ne_nil _ _)
    ((step_of_block hfr).trans (inBlock_eq_ok_iff.mpr hgoes))
  rw [startBody_of_block hfr] at hr'
  dsimp only at hr'
  rw [hread, String.ofList_toList] at hr'
  exact ⟨_, _, hr', .refl _, ⟨[], rfl, .nil⟩, rfl⟩

/-- **A tag is read back**, if no value has a quote or a brace. -/
theorem Reaches.exists_tag {t : TagText} {opener : Tag} {block : Block} {nodes : List NodeId} {more : List Char}
    (hr : Reaches source r) (hfr : r.frames = .block opener true block nodes :: below)
    (hrest : r.input.rest = t.chars ++ more) (hnamed : t.Named)
    (hvalues : ∀ a ∈ t.attributes, ∀ v ∈ a.2, ∀ c ∈ v.toList, c ≠ '"' ∧ c ≠ '\x7b') :
    ∃ r' g place as, Reaches source r' ∧ r.file.AddsTexts g ∧ List.Forall₂ g.HasAttribute as t.attributes ∧
      r'.file = (g.add (.openTag t.name as t.selfClosing) place).1 ∧
      r'.frames = .block opener true block.closeHeader (g.nodes.size :: nodes) :: below ∧ r'.input.rest = more := by
  obtain ⟨r₁, start, hr₁, h₁⟩ := hr.exists_opened hfr hrest hnamed
  rw [← List.append_nil t.attributes] at h₁
  obtain ⟨r₂, hr₂, h₂⟩ := h₁.takeAll hr₁ (by rw [List.append_nil]; exact hnamed.attributes) hvalues
  exact InTag.finish hr₂ h₂ rfl

/-- **A value with a quote is cut.** The value is what stands before the quote, and what follows is read as more of
the tag. -/
theorem Reaches.exists_cut {t : TagText} {opener : Tag} {block : Block} {nodes : List NodeId} {more v₁ v₂ : List Char}
    {before after : List (String × Option String)}
    (hr : Reaches source r) (hfr : r.frames = .block opener true block nodes :: below)
    (hrest : r.input.rest = t.chars ++ more) (hnamed : t.Named)
    (hattributes : t.attributes = before ++ (name, some (String.ofList (v₁ ++ '"' :: v₂))) :: after)
    (hbefore : ∀ a ∈ before, ∀ v ∈ a.2, ∀ c ∈ v.toList, c ≠ '"' ∧ c ≠ '\x7b')
    (hv₁ : ∀ c ∈ v₁, c ≠ '"' ∧ c ≠ '\x7b') :
    ∃ r' start, Reaches source r' ∧
      InTag r.file start t.name (.block opener true block.closeHeader nodes :: below)
        (before ++ [(name, some (String.ofList v₁))])
        (v₂ ++ '"' :: (after.flatMap attributeChars ++ (tagEnd t.selfClosing ++ more))) r' := by
  obtain ⟨r₁, start, hr₁, h₁⟩ := hr.exists_opened hfr hrest hnamed
  have hnames := hnamed.attributes
  rw [hattributes] at h₁ hnames
  obtain ⟨r₂, hr₂, h₂⟩ := h₁.takeAll hr₁ hnames hbefore
  -- as text it is the shorter attribute, with the rest of the value and a quote behind it
  have hcut : attributeChars (name, some (String.ofList (v₁ ++ '"' :: v₂))) =
      attributeChars (name, some (String.ofList v₁)) ++ (v₂ ++ ['"']) := by
    simp only [attributeChars, String.toList_ofList, List.cons_append, List.append_assoc, List.nil_append]
  rw [List.flatMap_cons, hcut, List.append_assoc, List.append_assoc] at h₂
  -- the attribute that is cut has the name it had
  have hname : IsAttributeName name :=
    hnames (name, some (String.ofList (v₁ ++ '"' :: v₂))) (List.mem_append_right _ List.mem_cons_self)
  have hvalue : ∀ v ∈ some (String.ofList v₁), ∀ c ∈ v.toList, c ≠ '"' ∧ c ≠ '\x7b' := by
    intro v hv
    obtain rfl := Option.some.inj hv
    rwa [String.toList_ofList]
  obtain ⟨r', hr', h'⟩ := h₂.take hr₂ hname hvalue nofun
  refine ⟨r', start, hr', ?_⟩
  simpa only [List.append_assoc, List.nil_append, List.cons_append] using h'

end InTags

end Markup

end TemplateFrontend
