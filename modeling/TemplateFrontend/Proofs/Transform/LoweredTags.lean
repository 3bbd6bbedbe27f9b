import TemplateFrontend.Proofs.Markup.TagTexts
import TemplateFrontend.Transform.Lowering
import Mathlib
/-!
# Lowered tags are read back

The lowering writes an open tag out as text, with every value between double quotes, however it was quoted in
the source. Read again, the text is the tag that it was made of, unless a value has a double quote itself, as one
between single quotes or without quotes may. Such a value ends early, and the tag goes on with the rest of it.

* `TemplateFile.texts_of_lowerTags` — what the lowering makes of a tag is its text;
* `Markup.TagText.ReadsBack` — the text, as the body of a template, is parsed to the tag;
* `lowerTags_readsBack` — it is, if and only if no value has a double quote.
-/

namespace TemplateFrontend

open Text Markup

/-! ### The text of a lowered tag -/

namespace TemplateFile

variable {f : TemplateFile}

/-- The pieces of a tag say its text. -/
theorem texts_of_addPieces (place : Span) (text : String) (closed : Bool) {as : List Attribute}
    {texts : List (String × Option String)} (has : List.Forall₂ f.HasAttribute as texts) :
    f.KeepsNodes (f.addPieces place (tagPieces text closed as)).1 ∧
      (f.addPieces place (tagPieces text closed as)).1.AreTexts (f.addPieces place (tagPieces text closed as)).2
        (text.toList ++ (texts.flatMap attributeChars ++ Markup.tagEnd closed)) := by
  -- by induction on the attributes, from any text before them and any nodes
  induction as generalizing f text texts with
  | nil =>
    cases has
    -- behind the last attribute the tag ends
    have hend : (text ++ if closed then "/>" else ">").toList = text.toList ++ Markup.tagEnd closed := by
      cases closed <;> exact String.toList_append
    refine ⟨f.keepsNodes_add _ _, ?_⟩
    have htexts := f.areTexts_add (text ++ if closed then "/>" else ">").toList place
    rw [String.ofList_toList] at htexts
    rwa [hend] at htexts
  | cons a as ih =>
    obtain ⟨name, value, span⟩ := a
    cases has with
    | @cons _ t _ texts ha has =>
      obtain ⟨name', value'⟩ := t
      obtain ⟨hname, hvalue⟩ := ha
      obtain rfl : name = name' := hname
      cases hvalue with
      -- the name goes on the text before it
      | none =>
        obtain ⟨hkeeps, htexts⟩ := ih (text ++ " " ++ name) has
        refine ⟨hkeeps, ?_⟩
        have hchars : (text ++ " " ++ name).toList ++ (texts.flatMap attributeChars ++ Markup.tagEnd closed) =
            text.toList ++ (((name, none) :: texts).flatMap attributeChars ++ Markup.tagEnd closed) := by
          simp only [String.toList_append, List.flatMap_cons, attributeChars, List.append_assoc,
            List.cons_append]
          rfl
        rwa [hchars] at htexts
      | @texts ids s hids =>
        -- the value stands between two new texts
        have hadds := f.keepsNodes_add (.text (text ++ " " ++ name ++ "=\"")) place
        obtain ⟨hkeeps, htexts⟩ := ih (f := (f.add (.text (text ++ " " ++ name ++ "=\"")) place).1) "\""
          (has.imp fun _ _ ha => ha.mono hadds)
        refine ⟨fun id n h => hkeeps id n (hadds id n h), ?_⟩
        have hchars : (text ++ " " ++ name ++ "=\"").toList ++
            (s.toList ++ ("\"".toList ++ (texts.flatMap attributeChars ++ Markup.tagEnd closed))) =
              text.toList ++ (((name, some s) :: texts).flatMap attributeChars ++ Markup.tagEnd closed) := by
          simp only [String.toList_append, List.flatMap_cons, attributeChars, List.append_assoc,
            List.cons_append, List.nil_append]
          rfl
        rw [← hchars]
        refine .cons (hkeeps _ _ (nodes_add_self f _ place)) (.append ?_ htexts)
        exact hids.mono fun id n h => hkeeps id n (hadds id n h)

/-- **A lowered tag is its text.** -/
theorem texts_of_lowerTags {id : NodeId} {t : TagText} (h : f.HasTag id t) :
    (f.lowerTags [id]).1.AreTexts (f.lowerTags [id]).2 t.chars := by
  obtain ⟨as, place, hnode, has⟩ := h
  have hkind : f.kind id = .openTag t.name as t.selfClosing := by rw [TemplateFile.kind, hnode]
  have htexts := (texts_of_addPieces (f.span id) ("<" ++ t.name) t.selfClosing has).2
  rw [String.toList_append] at htexts
  rw [lowerTags, hkind]
  dsimp only
  rw [lowerTags, List.append_nil]
  exact htexts

end TemplateFile

/-! ### A text as the body of a template -/

namespace Markup

/-- A source whose only template has this body. -/
def bodySource (path : String) (body : List Char) : SourceText :=
  ⟨path, String.ofList ("\x7btemplate a.t\x7d".toList ++ (body ++ "\x7b/template\x7d".toList))⟩

/-- The tag that opens its template. -/
def bodyTag : Tag := ⟨"template", ⟨10, "a.t".toList⟩, ⟨1, "template a.t".toList⟩, ⟨0, 14⟩, false⟩

/-- The template before anything of its body was read, which is one of HTML and strict about it. -/
def bodyTemplate : Template := ⟨.basic, "a.t", none, .everyone, .html, true, none, [], [], []⟩

/-- The tag that closes it. -/
def bodyClose (offset : Nat) : Tag :=
  ⟨"/template", ⟨offset + 10, []⟩, ⟨offset + 1, "/template".toList⟩, ⟨offset, offset + 11⟩, false⟩

theorem skipBlanks_body (rest : List Char) : (⟨0, "\x7btemplate a.t\x7d".toList ++ rest⟩ : Input).skipBlanks =
    ⟨0, "\x7btemplate a.t\x7d".toList ++ rest⟩ := by rfl

/-- The tag that opens the template is read. -/
theorem read_bodyTag (rest : List Char) :
    Tag.read ⟨0, "\x7btemplate a.t\x7d".toList ++ rest⟩ = .ok (bodyTag, ⟨14, rest⟩) := by cbv

/-- It opens a template without settings. -/
theorem openTemplate_bodyTag (f : TemplateFile) : openTemplate f .basic none bodyTag = .ok bodyTemplate := by cbv

/-- The tag that closes it is read at the end of the text. -/
theorem read_bodyClose (offset : Nat) :
    Tag.read ⟨offset, "\x7b/template\x7d".toList⟩ = .ok (bodyClose offset, ⟨offset + 11, []⟩) := by cbv

/-- With the first tag the template is open. -/
theorem startDeclaration_bodyTag (f : TemplateFile) (i : Input) (strict : Bool) :
    startDeclaration ⟨i, f, none, strict, []⟩ bodyTag =
      .ok ⟨i, f, none, true, [.block bodyTag true (.template bodyTemplate ⟨[], [], false, none⟩) []]⟩ := by
  unfold startDeclaration
  rw [show TemplateKind.ofCommand? bodyTag.name = some .basic by rfl]
  dsimp only
  rw [openTemplate_bodyTag]
  rfl

/-- The body is read in a block in which HTML tags are read. -/
theorem reaches_body (path : String) (body : List Char) :
    ∃ r, Reaches (bodySource path body) r ∧ (∃ content, r.file = .empty path content) ∧
      r.frames = [.block bodyTag true (.template bodyTemplate ⟨[], [], false, none⟩) []] ∧
      r.input.rest = body ++ "\x7b/template\x7d".toList := by
  obtain ⟨rest, hrest⟩ : ∃ rest, rest = body ++ "\x7b/template\x7d".toList := ⟨_, rfl⟩
  have hcontent : (bodySource path body).content.toList = "\x7btemplate a.t\x7d".toList ++ rest :=
    hrest ▸ String.toList_ofList
  have hstart : Reaches (bodySource path body) (.start path _) := .start
  rw [hcontent, Reading.start] at hstart
  have hstep := atTop_eq_ok_iff.mpr (GoesOnAtTop.declaration
    (r := ⟨⟨0, "\x7btemplate a.t\x7d".toList ++ rest⟩, .empty path ("\x7btemplate a.t\x7d".toList ++ rest), none,
      false, []⟩) (by rw [skipBlanks_body]; rfl) (by rw [skipBlanks_body]; exact read_bodyTag rest)
    (startDeclaration_bodyTag _ _ _))
  exact ⟨_, hstart.step rfl hstep, ⟨_, rfl⟩, rfl, hrest⟩

/-- **The template is closed.** -/
theorem Reaches.exists_closed {source : SourceText} {r : Reading} {t : Template} {header : Header}
    {nodes : List NodeId} (hr : Reaches source r)
    (hfr : r.frames = [.block bodyTag true (.template t header) nodes])
    (hrest : r.input.rest = "\x7b/template\x7d".toList) :
    ∃ f place, parse source = .ok f ∧ f.templates = r.file.templates ++ [r.file.nodes.size] ∧
      f.nodes = r.file.nodes.push
        ⟨.template { t with params := header.params, state := header.state, body := nodes.reverse }, place⟩ := by
  obtain ⟨⟨offset, rest⟩, f, doc, strict, frames⟩ := r
  obtain rfl : rest = "\x7b/template\x7d".toList := hrest
  obtain rfl : frames = _ := hfr
  obtain ⟨place, hplace⟩ : ∃ place, place = bodyTag.span.union (bodyClose offset).span := ⟨_, rfl⟩
  -- the tag is the one that the block waits for
  have hends : tagInBlock ⟨⟨offset + 11, []⟩, f, doc, strict, [.block bodyTag true (.template t header) nodes]⟩
      bodyTag true (.template t header) nodes (bodyClose offset) =
        .ok (Reading.emit ⟨⟨offset + 11, []⟩, f, doc, strict, []⟩
          (.template { t with params := header.params, state := header.state, body := nodes.reverse }) place) := by
    have hcloses : ((Block.template t header).terminators bodyTag).contains (bodyClose offset).name = true := by rfl
    rw [hplace, tagInBlock, if_pos hcloses]
    rfl
  -- the step takes that tag, and nothing is left
  have hstep := (step_of_block rfl).trans (inBlock_eq_ok_iff.mpr (GoesOnInBlock.tag
    (r := ⟨⟨offset, "\x7b/template\x7d".toList⟩, f, doc, strict, [.block bodyTag true (.template t header) nodes]⟩)
    (by rfl) (read_bodyClose offset) hends))
  have hr' := hr.goesOn (List.cons_ne_nil _ _) hstep
  exact ⟨_, place, hr'.returns.unique (.done rfl), rfl, rfl⟩

/-! ### Reading the text of a tag -/

namespace TagText

variable {t : TagText}

/-- No value has a double quote. -/
def HasNoQuotes (t : TagText) : Prop := ∀ a ∈ t.attributes, ∀ v ∈ a.2, '"' ∉ v.toList

/-- No value has an opening brace. -/
def HasNoBraces (t : TagText) : Prop := ∀ a ∈ t.attributes, ∀ v ∈ a.2, '\x7b' ∉ v.toList

/-- The file is one template, strict about HTML, with the tag as the only node of its body. There is no other open
tag. -/
structure IsBodyOf (t : TagText) (f : TemplateFile) (n : NodeId) : Prop where
  template : ∃ root template place, f.templates = [root] ∧ f.nodes[root]? = some ⟨.template template, place⟩ ∧
    template.strictHtml = true ∧ template.body = [n]
  tag : f.HasTag n t
  only : ∀ id name as closed, f.kind id = .openTag name as closed → id = n

/-- As the body of a template, the text is parsed to the tag. -/
def ReadsBack (t : TagText) (path : String) : Prop :=
  ∃ f n, parse (bodySource path t.chars) = .ok f ∧ t.IsBodyOf f n

/-- Wherever the text stands in a block in which HTML tags are read, the next node of the block is the tag, and
reading goes on behind it. -/
def ReadsInBlocks (t : TagText) : Prop :=
  ∀ source r opener block nodes below more, Reaches source r → r.frames = .block opener true block nodes :: below →
    r.input.rest = t.chars ++ more →
      ∃ r' n, Reaches source r' ∧ r'.frames = .block opener true block.closeHeader (n :: nodes) :: below ∧
        r'.file.HasTag n t ∧ r'.input.rest = more

/-- The values have neither quotes nor braces. -/
theorem HasNoQuotes.values (hquotes : t.HasNoQuotes) (hbraces : t.HasNoBraces) :
    ∀ a ∈ t.attributes, ∀ v ∈ a.2, ∀ c ∈ v.toList, c ≠ '"' ∧ c ≠ '\x7b' :=
  fun a ha v hv _ hc => ⟨ne_of_mem_of_not_mem hc (hquotes a ha v hv), ne_of_mem_of_not_mem hc (hbraces a ha v hv)⟩

/-- A new tag with the attributes is the tag. -/
theorem hasTag_add {g : TemplateFile} {as : List Attribute} (has : List.Forall₂ g.HasAttribute as t.attributes)
    (place : Span) : (g.add (.openTag t.name as t.selfClosing) place).1.HasTag g.nodes.size t :=
  ⟨as, place, TemplateFile.nodes_add_self .., has.imp fun _ _ ha => ha.mono (g.keepsNodes_add _ _)⟩

/-- The first value with a quote, and its first quote. -/
theorem exists_quoted (h : ¬ t.HasNoQuotes) : ∃ before name v₁ v₂ after,
    t.attributes = before ++ (name, some (String.ofList (v₁ ++ '"' :: v₂))) :: after ∧
      (∀ a ∈ before, ∀ v ∈ a.2, '"' ∉ v.toList) ∧ '"' ∉ v₁ := by
  obtain ⟨tag, attributes, closed⟩ := t
  unfold HasNoQuotes at h
  dsimp only at h ⊢
  induction attributes with
  | nil => exact absurd (List.forall_mem_nil _) h
  | cons a as ih =>
    -- the value of the first attribute has no quote, or it is the one
    by_cases hplain : ∀ v ∈ a.2, '"' ∉ v.toList
    · obtain ⟨before, name, v₁, v₂, after, rfl, hbefore, hv₁⟩ :=
        ih fun hall => h (List.forall_mem_cons.mpr ⟨hplain, hall⟩)
      exact ⟨a :: before, name, v₁, v₂, after, rfl, List.forall_mem_cons.mpr ⟨hplain, hbefore⟩, hv₁⟩
    · obtain ⟨name, value⟩ := a
      push Not at hplain
      obtain ⟨v, rfl, hv⟩ := hplain
      obtain ⟨v₁, v₂, hsplit, hv₁⟩ := List.eq_append_cons_of_mem hv
      refine ⟨[], name, v₁, v₂, as, ?_, List.forall_mem_nil _, hv₁⟩
      rw [← hsplit, String.ofList_toList, List.nil_append]

/-- **In blocks.** -/
theorem readsInBlocks (hnamed : t.Named) (hquotes : t.HasNoQuotes) (hbraces : t.HasNoBraces) : t.ReadsInBlocks := by
  intro source r opener block nodes below more hr hfr hrest
  obtain ⟨r', g, place, as, hr', -, has, hfile, hfr', hrest'⟩ :=
    hr.exists_tag hfr hrest hnamed (hquotes.values hbraces)
  exact ⟨r', g.nodes.size, hr', hfr', hfile ▸ hasTag_add has place, hrest'⟩

/-- **Without quotes** the text is read back. -/
theorem readsBack (hnamed : t.Named) (hquotes : t.HasNoQuotes) (hbraces : t.HasNoBraces) (path : String) :
    t.ReadsBack path := by
  obtain ⟨r, hr, ⟨content, hempty⟩, hfr, hrest⟩ := reaches_body path t.chars
  -- steps lead to the state behind the tag
  obtain ⟨r', g, place, as, hr', htexts, has, hfile, hfr', hrest'⟩ :=
    hr.exists_tag hfr hrest hnamed (hquotes.values hbraces)
  obtain ⟨f, place', hparse, htemplates, hnodes⟩ := hr'.exists_closed hfr' hrest'
  rw [hempty] at htexts
  obtain ⟨ns, rfl, hns⟩ := htexts
  rw [hfile] at htemplates hnodes
  have hroot := hnodes ▸ Array.getElem?_push_size
  -- the template holds the tag as it was written, and no other one
  refine ⟨f, _, hparse, ⟨_, _, place', htemplates, hroot, rfl, rfl⟩, ?_, fun id name attributes closed hkind => ?_⟩
  · refine (hasTag_add has place).mono fun id n hn => ?_
    obtain ⟨hlt, -⟩ := Array.getElem?_eq_some_iff.mp hn
    rw [hnodes, Array.getElem?_push_lt hlt, ← Array.getElem?_eq_getElem hlt, hn]
  · -- all other nodes are texts, but for the template
    rw [TemplateFile.kind, hnodes, Array.getElem?_push, TemplateFile.add, Array.getElem?_push] at hkind
    by_contra hne
    rw [if_neg hne] at hkind
    split at hkind
    · next n hget =>
      split at hget
      · rw [← Option.some.inj hget] at hkind
        cases hkind
      · have hmem : n ∈ ns := (Array.mem_append.mp (Array.mem_of_getElem? hget)).resolve_left (Array.not_mem_empty n)
        obtain ⟨s, hs⟩ := hns n hmem
        cases hs.symm.trans hkind
    · cases hkind

/-- **A quote** makes the text a different one. -/
theorem not_readsBack (hnamed : t.Named) (hquotes : ¬ t.HasNoQuotes) (hbraces : t.HasNoBraces) (path : String) :
    ¬ t.ReadsBack path := by
  rintro ⟨f, n, hparse, -, ⟨as, place, hnode, has⟩, honly⟩
  obtain ⟨before, name, v₁, v₂, after, hattributes, hbefore, hv₁⟩ := exists_quoted hquotes
  obtain ⟨r, hr, -, hfr, hrest⟩ := reaches_body path t.chars
  have hbraces₁ : '\x7b' ∉ v₁ := by
    intro hmem
    refine hbraces (name, some (String.ofList (v₁ ++ '"' :: v₂))) ?_ _ rfl ?_
    · rw [hattributes]
      exact List.mem_append_right _ List.mem_cons_self
    · rw [String.toList_ofList]
      exact List.mem_append_left _ hmem
  -- steps lead to the tag with the value cut at the quote
  obtain ⟨r', start, hr', -, ⟨cut, hframes, hcut⟩, -⟩ := hr.exists_cut hfr hrest hnamed hattributes
    (fun a ha v hv c hc => ⟨ne_of_mem_of_not_mem hc (hbefore a ha v hv), ne_of_mem_of_not_mem hc
      (hbraces a (hattributes ▸ List.mem_append_left _ ha) v hv)⟩)
    (fun c hc => ⟨ne_of_mem_of_not_mem hc hv₁, ne_of_mem_of_not_mem hc hbraces₁⟩)
  have htook : r'.HasTaken cut := .inl ⟨.openTag start t.name cut, hframes ▸ List.mem_cons_self, List.suffix_refl cut⟩
  -- and the tag that is there in the end starts with these attributes
  obtain ⟨hkeeps, ⟨k, place'⟩, hm, hmtook⟩ := hr'.returns.exists_took hparse htook
  obtain ⟨id, hid⟩ := Array.mem_iff_getElem?.mp hm
  cases k with
  | openTag name' attributes closed =>
    obtain rfl := honly id name' attributes closed (by rw [TemplateFile.kind, hid])
    rw [hid] at hnode
    obtain ⟨hkind, -⟩ := Node.mk.inj (Option.some.inj hnode)
    obtain ⟨-, rfl, -⟩ := NodeKind.openTag.inj hkind
    obtain ⟨rest, rfl⟩ : cut.reverse <+: attributes := hmtook
    have hlength := hcut.length_eq
    rw [hattributes, List.append_cons] at has
    -- the attributes up to the cut are those up to the value
    have htake := List.forall₂_take_append _ _ _ has
    rw [List.length_append, List.length_singleton] at htake hlength
    rw [← hlength, List.take_left] at htake
    have hcut' : List.Forall₂ f.HasAttribute cut.reverse _ := hcut.imp fun _ _ ha => ha.mono hkeeps
    have hunique : Relator.RightUnique f.HasAttribute := fun _ _ _ ha ha' => ha.unique ha'
    have hsame := List.right_unique_forall₂' hunique htake hcut'
    have hvalue := congrArg (Option.map String.toList ∘ Prod.snd) (List.cons.inj (List.append_cancel_left hsame)).1
    simp only [Function.comp_apply, Option.map_some, String.toList_ofList, Option.some.injEq] at hvalue
    -- a text is longer than what stands before its quote
    have := congrArg List.length hvalue
    rw [List.length_append, List.length_cons] at this
    omega
  | _ => exact hmtook

end TagText

end Markup

/-! ### Lowered tags -/

/-- **Lowered tags.** An open tag of a source whose values are texts is lowered to its text. In every block in which
HTML tags are read, and as the body of a template, that text is read as the tag again, with the same attributes in
the same order, if no value has a double quote. If one has, it is not. -/
theorem lowerTags_readsBack {source : SourceText} {f : TemplateFile} {id : NodeId} {t : TagText}
    (h : parse source = .ok f) (htag : f.HasTag id t) (hbraces : t.HasNoBraces) :
    (f.lowerTags [id]).1.AreTexts (f.lowerTags [id]).2 t.chars ∧ (t.HasNoQuotes → t.ReadsInBlocks) ∧
      ∀ path, t.ReadsBack path ↔ t.HasNoQuotes := by
  -- the tag and its attributes have names, as the source was parsed
  have hnamed : t.Named := by
    obtain ⟨as, place, hnode, has⟩ := htag
    have hkind : f.kind id = .openTag t.name as t.selfClosing := by rw [TemplateFile.kind, hnode]
    have hnames := namesTags_of_parse h id
    rw [hkind] at hnames
    have hboth : List.Forall₂ (fun a b => IsAttributeName b.1 ∧ f.HasAttribute a b) as t.attributes :=
      ((List.forall₂_and_left _ _).mpr ⟨hnames.2, has⟩).imp fun a b hab => ⟨hab.2.name ▸ hab.1, hab.2⟩
    exact ⟨hnames.1, ((List.forall₂_and_left _ _).mp hboth.flip).1⟩
  refine ⟨TemplateFile.texts_of_lowerTags htag, fun hquotes => TagText.readsInBlocks hnamed hquotes hbraces,
    fun path => ⟨fun hback => ?_, fun hquotes => TagText.readsBack hnamed hquotes hbraces path⟩⟩
  by_contra hquotes
  exact TagText.not_readsBack hnamed hquotes hbraces path hback

/-- A tag with values of all three quotings, and an attribute without one. -/
def quotings : SourceText :=
  ⟨"a.st", "\x7btemplate a.t\x7d<p a=\"x y\" b='z' c=w d/>\x7b/template\x7d"⟩

/-- The tag as it is written out. -/
def quotingsTag : TagText := ⟨"p", [("a", some "x y"), ("b", some "z"), ("c", some "w"), ("d", none)], true⟩

/-- The tag is written out with double quotes, and its text is read back. -/
theorem lowerTags_readsBack_quotings : ∃ f, parse quotings = .ok f ∧ f.HasTag 3 quotingsTag ∧
    quotingsTag.HasNoBraces ∧ (f.lowerTags [3]).1.AreTexts (f.lowerTags [3]).2 quotingsTag.chars ∧
      quotingsTag.chars = "<p a=\"x y\" b=\"z\" c=\"w\" d/>".toList ∧ quotingsTag.ReadsBack "b.st" := by
  have hrun : (parse quotings).toOption.map (·.tagText? 3) = some (some quotingsTag) := by decide +kernel
  obtain ⟨f, hp, hf⟩ := exists_of_toOption_map hrun
  have htag := TemplateFile.hasTag_of_tagText? hf
  have hbraces : quotingsTag.HasNoBraces := by
    unfold TagText.HasNoBraces
    decide
  -- none of its values holds a double quote, so the text reads back
  have hquotes : quotingsTag.HasNoQuotes := by
    unfold TagText.HasNoQuotes
    decide
  obtain ⟨htexts, -, hback⟩ := lowerTags_readsBack hp htag hbraces
  exact ⟨f, hp, htag, hbraces, htexts, by decide +kernel, (hback "b.st").mpr hquotes⟩

/-- A value that has a double quote, between single quotes. -/
def quotedTitle : SourceText :=
  ⟨"a.st", "\x7bnamespace a\x7d\x7btemplate .t\x7d<a title='say \"hi\"'>\x7b/template\x7d"⟩

/-- The value is written out between double quotes, and behind the first of its own quotes the text is none of a tag
any more. -/
theorem parse_refuses_loweredTitle : ∃ f, parse quotedTitle = .ok f ∧
    f.HasTag 1 ⟨"a", [("title", some "say \"hi\"")], false⟩ ∧
      (f.lowerTags [1]).1.AreTexts (f.lowerTags [1]).2 "<a title=\"say \"hi\"\">".toList ∧
        parse ⟨"a.st", "\x7bnamespace a\x7d\x7btemplate .t\x7d<a title=\"say \"hi\"\">\x7b/template\x7d"⟩ =
          .error ⟨.unexpected "'\"'" "an attribute name", ⟨43, 44⟩⟩ := by
  have hrun : (parse quotedTitle).toOption.map (·.tagText? 1) =
      some (some ⟨"a", [("title", some "say \"hi\"")], false⟩) := by decide +kernel
  obtain ⟨f, hp, hf⟩ := exists_of_toOption_map hrun
  have htag := TemplateFile.hasTag_of_tagText? hf
  have htexts := TemplateFile.texts_of_lowerTags htag
  rw [show TagText.chars ⟨"a", [("title", some "say \"hi\"")], false⟩ = "<a title=\"say \"hi\"\">".toList by
    decide +kernel] at htexts
  exact ⟨f, hp, htag, htexts, eq_error_of_map (f := fun f => f.nodes.size) (by decide +kernel)⟩

end TemplateFrontend
