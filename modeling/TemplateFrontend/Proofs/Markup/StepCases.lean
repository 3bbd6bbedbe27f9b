import TemplateFrontend.Markup.Reader
import TemplateFrontend.Proofs.Markup.Inputs
/-!
# What a step does

A step that succeeds does one of a few things, and each of them in one state of the text only. They are listed
here with all that is known when they are done. Whatever holds after a step follows from this by cases, and a step
can be shown to succeed by giving its case.

* `GoesOnAtTop`, `GoesOnInBlock`, `GoesOnInCall`, `GoesOnInTag`, `GoesOnInValue` — what is done inside of each
  kind of frame, and outside of all;
* `StartsHtmlTag`, `TakesAttribute` — what is done with the start of an HTML tag and with an attribute;
* `inBlock_eq_ok_iff`, `inCall_eq_ok_iff`, `inOpenTag_eq_ok_iff`, `inAttributeValue_eq_ok_iff`,
  `atTop_eq_ok_iff` — a step does that and nothing else.
-/

namespace TemplateFrontend.Markup

open Text

variable {r r' : Reading} {i : Input}

/-! ### The start of an HTML tag -/

/-- The name of a tag that starts `n` characters further on, and what follows it. -/
def htmlTagName (i : Input) (n : Nat) : List Char × Input := (i.drop n).takeWhile isTagNameChar

/-- The name of a tag is taken off the front. -/
theorem after_htmlTagName (i : Input) (n : Nat) : i.After (htmlTagName i n).2 :=
  (Input.After.drop i n).trans (.takeWhile _ _)

/-- What is done where an HTML tag starts. -/
inductive StartsHtmlTag (r : Reading) : Reading → Prop
  /-- A close tag is read to its end. -/
  | closeTag (hslash : r.input.rest.tail.head? = some '/')
    (hmark : (htmlTagName r.input 2).2.skipBlanks.rest.head? = some '>') :
    StartsHtmlTag r (({ r with input := (htmlTagName r.input 2).2.skipBlanks.drop 1 } : Reading).emit
      (.closeTag (String.ofList (htmlTagName r.input 2).1))
      ⟨r.input.offset, ((htmlTagName r.input 2).2.skipBlanks.drop 1).offset⟩)
  | openTag (hslash : r.input.rest.tail.head? ≠ some '/') :
    StartsHtmlTag r (({ r with input := (htmlTagName r.input 1).2 } : Reading).push
      (.openTag r.input.offset (String.ofList (htmlTagName r.input 1).1) []))

/-- **The start of an HTML tag**: a close tag is read to its end, an open tag up to its attributes. -/
theorem startHtmlTag_eq_ok_iff : startHtmlTag r = .ok r' ↔ StartsHtmlTag r r' := by
  constructor
  · intro h
    unfold startHtmlTag at h
    dsimp only at h
    split at h
    · next hslash =>
      -- a slash behind the bracket makes it a close tag, which has to end behind its name
      split at h
      · next hmark =>
        obtain rfl := Except.ok.inj h
        exact .closeTag (eq_of_beq hslash) (eq_of_beq hmark)
      · cases h
    · next hslash =>
      obtain rfl := Except.ok.inj h
      exact .openTag fun heq => hslash (beq_iff_eq.mpr heq)
  · intro h
    unfold startHtmlTag
    cases h with
    | closeTag hslash hmark =>
      rw [hslash]
      exact if_pos (beq_iff_eq.mpr hmark)
    | openTag hslash =>
      have hopen : (r.input.rest.tail.head? == some '/') = false := beq_eq_false_iff_ne.mpr hslash
      rw [hopen]
      rfl

/-! ### Attributes -/

/-- The name of an attribute. -/
def attributeName (i : Input) : List Char := (i.takeWhile (! endsAttributeName ·)).1

/-- What follows the name of an attribute and the blanks after it. -/
def afterAttributeName (i : Input) : Input := (i.takeWhile (! endsAttributeName ·)).2.skipBlanks

/-- What starts with the value of an attribute. -/
def fromAttributeValue (i : Input) : Input := ((afterAttributeName i).drop 1).skipBlanks

/-- The name of an attribute and the blanks after it are taken off the front. -/
theorem after_afterAttributeName (i : Input) : i.After (afterAttributeName i) :=
  (Input.After.takeWhile i _).trans (.skipBlanks _)

/-- So are the equals sign and the blanks after it. -/
theorem after_fromAttributeValue (i : Input) : i.After (fromAttributeValue i) :=
  (after_afterAttributeName i).trans ((Input.After.drop _ 1).trans (.skipBlanks _))

/-- A value without quotes, and what follows it. -/
def unquotedValue (i : Input) : List Char × Input := i.takeWhile fun c => !(isBlank c || c == '>')

/-- What is done with an attribute. -/
inductive TakesAttribute (r : Reading) (i : Input) : Reading → Prop
  /-- It has no value. -/
  | plain (hname : attributeName i ≠ []) (hmark : (afterAttributeName i).rest.head? ≠ some '=') :
    TakesAttribute r i
      (addAttribute r (String.ofList (attributeName i)) i.offset none (afterAttributeName i))
  /-- Its value is opened. -/
  | quoted {quote : Char} {cs : List Char} (hname : attributeName i ≠ [])
    (hmark : (afterAttributeName i).rest.head? = some '=') (hrest : (fromAttributeValue i).rest = quote :: cs)
    (hquote : quote = '"' ∨ quote = '\'') :
    TakesAttribute r i (({ r with input := (fromAttributeValue i).drop 1 } : Reading).push
      (.attributeValue (String.ofList (attributeName i)) i.offset quote []))
  /-- Its value has no quotes and is one new text. -/
  | unquoted {c : Char} {cs : List Char} (hname : attributeName i ≠ [])
    (hmark : (afterAttributeName i).rest.head? = some '=') (hrest : (fromAttributeValue i).rest = c :: cs)
    (hquote : ¬ (c = '"' ∨ c = '\'')) :
    TakesAttribute r i (addAttribute
      { r with file := (r.file.add (.text (String.ofList (unquotedValue (fromAttributeValue i)).1))
          ⟨(fromAttributeValue i).offset, (unquotedValue (fromAttributeValue i)).2.offset⟩).1 }
      (String.ofList (attributeName i)) i.offset (some [r.file.nodes.size])
      (unquotedValue (fromAttributeValue i)).2)

/-- Every attribute has a name. -/
theorem TakesAttribute.name_ne_nil (h : TakesAttribute r i r') : attributeName i ≠ [] := by
  cases h <;> assumption

/-- As it has a name, it takes something. -/
theorem TakesAttribute.rest_ne_nil (h : TakesAttribute r i r') : i.rest ≠ [] := by
  intro hnil
  refine h.name_ne_nil ?_
  rw [attributeName, Input.takeWhile, hnil, List.takeWhile_nil]

/-- **An attribute** without a value is complete, as is one with an unquoted value; a quote opens a value.
-/
theorem readAttribute_eq_ok_iff : readAttribute r i = .ok r' ↔ TakesAttribute r i r' := by
  constructor
  · intro h
    unfold readAttribute at h
    dsimp only at h
    split at h
    · cases h
    · next hempty =>
      have hname : attributeName i ≠ [] := fun hnil => hempty (List.isEmpty_iff.mpr hnil)
      split at h
      -- no equals sign follows, so the attribute has no value
      · next hmark =>
        obtain rfl := Except.ok.inj h
        exact .plain hname (bne_iff_ne.mp hmark)
      · next hmark =>
        -- with an equals sign a value has to follow, and its first character tells how it is written
        rw [bne_iff_ne, not_not] at hmark
        split at h
        · cases h
        · next hrest =>
          split at h
          · next hquote =>
            obtain rfl := Except.ok.inj h
            exact .quoted hname hmark hrest (by simpa using hquote)
          · next hquote =>
            obtain rfl := Except.ok.inj h
            exact .unquoted hname hmark hrest (by simpa using hquote)
  · intro h
    -- whatever was taken, there is a name
    have hname : ¬ (attributeName i).isEmpty = true := fun hempty =>
      h.name_ne_nil (List.isEmpty_iff.mp hempty)
    refine (if_neg hname).trans ?_
    cases h with
    | plain _ hmark => exact if_pos (bne_iff_ne.mpr hmark)
    | quoted _ hmark hrest hquote =>
      refine (if_neg fun hne => bne_iff_ne.mp hne hmark).trans ?_
      dsimp only
      split
      · next hnil => cases hnil.symm.trans hrest
      · next hcons =>
        obtain ⟨rfl, rfl⟩ := List.cons.inj (hcons.symm.trans hrest)
        exact if_pos (by simpa using hquote)
    | unquoted _ hmark hrest hquote =>
      refine (if_neg fun hne => bne_iff_ne.mp hne hmark).trans ?_
      dsimp only
      split
      · next hnil => cases hnil.symm.trans hrest
      · next hcons =>
        obtain ⟨rfl, rfl⟩ := List.cons.inj (hcons.symm.trans hrest)
        exact if_neg (by simpa using hquote)

/-! ### Between the attributes -/

/-- The end of an open tag. -/
def tagEnd : Bool → List Char
  | true => ['/', '>']
  | false => ['>']

/-- The end of a tag takes something. -/
theorem tagEnd_ne_nil (closed : Bool) : tagEnd closed ≠ [] := by
  cases closed <;> exact List.cons_ne_nil _ _

section OpenTags

variable {start : Nat} {name : String} {attributes : List Attribute}

/-- What is done between the attributes of an open tag. -/
inductive GoesOnInTag (r : Reading) (start : Nat) (name : String) (attributes : List Attribute) : Reading → Prop
  | ends (closed : Bool) {cs : List Char} (hrest : r.input.skipBlanks.rest = tagEnd closed ++ cs) :
    GoesOnInTag r start name attributes
      (({ r with input := r.input.skipBlanks.drop (tagEnd closed).length } : Reading).pop.emit
        (.openTag name attributes.reverse closed)
        ⟨start, (r.input.skipBlanks.drop (tagEnd closed).length).offset⟩)
  | goesOn {r' : Reading} (hends : ∀ closed cs, r.input.skipBlanks.rest ≠ tagEnd closed ++ cs)
    (hbrace : r.input.skipBlanks.rest.head? ≠ some '\x7b') (h : TakesAttribute r r.input.skipBlanks r') :
    GoesOnInTag r start name attributes r'

/-- **Between the attributes** a tag ends, or an attribute is read. A brace is refused, as commands have no
place there. -/
theorem inOpenTag_eq_ok_iff : inOpenTag r start name attributes = .ok r' ↔
    GoesOnInTag r start name attributes r' := by
  constructor
  · intro h
    unfold inOpenTag at h
    dsimp only at h
    split at h
    · next hrest =>
      obtain rfl := Except.ok.inj h
      exact .ends true hrest
    · next hrest =>
      obtain rfl := Except.ok.inj h
      exact .ends false hrest
    · cases h
    · cases h
    -- the last case of the match: what it does not match is what the other cases say
    · next hclosed hend hne hbrace =>
      refine .goesOn ?_ ?_ (readAttribute_eq_ok_iff.mp h)
      · rintro (_ | _) cs hrest
        · exact hend cs hrest
        · exact hclosed cs hrest
      · intro hhead
        obtain ⟨cs, hrest⟩ := List.head?_eq_some_iff.mp hhead
        exact hbrace cs hrest
  · intro h
    unfold inOpenTag
    dsimp only
    cases h with
    | ends closed hrest =>
      rw [hrest]
      cases closed <;> rfl
    -- nothing that would end the tag stands here, so the last case is left
    | goesOn hends hbrace h =>
      split
      · next hrest => exact absurd hrest (hends true _)
      · next hrest => exact absurd hrest (hends false _)
      · next hrest => exact absurd hrest h.rest_ne_nil
      · next hrest =>
        rw [hrest] at hbrace
        exact absurd rfl hbrace
      · exact readAttribute_eq_ok_iff.mpr h

end OpenTags

/-! ### Values of attributes -/

section Values

variable {name : String} {start : Nat} {quote : Char} {nodes : List NodeId}

/-- A run of text in a quoted value, and what follows it. -/
def valueText (quote : Char) (i : Input) : List Char × Input :=
  i.takeWhile fun c => !(c == quote || c == '\x7b')

/-- What is done in a quoted value. -/
inductive GoesOnInValue (r : Reading) (name : String) (start : Nat) (quote : Char) (nodes : List NodeId) :
    Reading → Prop
  | ends (hquote : r.input.rest.head? = some quote) :
    GoesOnInValue r name start quote nodes
      (addAttribute r.pop name start (some nodes.reverse) (r.input.drop 1))
  | command {r' : Reading} {tag : Tag} {rest : Input} (hquote : r.input.rest.head? ≠ some quote)
    (hbrace : r.input.rest.head? = some '\x7b') (hread : Tag.read r.input = .ok (tag, rest))
    (hprint : isPrintTag tag = true) (hname : tag.name ∉ ["if", "for", "call"])
    (h : startCommand { r with input := rest } tag false = .ok r') : GoesOnInValue r name start quote nodes r'
  | text (hne : r.input.rest ≠ []) (hquote : r.input.rest.head? ≠ some quote)
    (hbrace : r.input.rest.head? ≠ some '\x7b') :
    GoesOnInValue r name start quote nodes
      (({ r with input := (valueText quote r.input).2 } : Reading).emit
        (.text (String.ofList (valueText quote r.input).1))
        ⟨r.input.offset, (valueText quote r.input).2.offset⟩)

/-- **In a quoted value** the quote ends it, a brace starts a command that may stand there, and all else is
text. -/
theorem inAttributeValue_eq_ok_iff : inAttributeValue r name start quote nodes = .ok r' ↔
    GoesOnInValue r name start quote nodes r' := by
  constructor
  · intro h
    unfold inAttributeValue at h
    split at h
    · cases h
    · next c cs hrest =>
      have hhead : r.input.rest.head? = some c := by rw [hrest, List.head?_cons]
      split at h
      · next hquote =>
        obtain rfl := Except.ok.inj h
        exact .ends (hhead.trans (congrArg some hquote))
      · next hquote =>
        have hquote' : r.input.rest.head? ≠ some quote := fun heq =>
          hquote (Option.some.inj (hhead.symm.trans heq))
        split at h
        · next hbrace =>
          -- a command has to look like a print, or to be a special character
          obtain ⟨⟨tag, rest⟩, hread, h⟩ := exists_of_bind_ok h
          dsimp only at h
          split at h
          · cases h
          · next hallowed =>
            rw [Bool.or_eq_true, not_or, Bool.not_eq_true', Bool.not_eq_false, List.contains_iff_mem] at hallowed
            exact .command hquote' (hhead.trans (congrArg some hbrace)) hread hallowed.1 hallowed.2 h
        · next hbrace =>
          obtain rfl := Except.ok.inj h
          refine .text (hrest ▸ List.cons_ne_nil c cs) hquote' fun heq => ?_
          exact hbrace (Option.some.inj (hhead.symm.trans heq))
  · intro h
    cases h with
    | ends hquote =>
      obtain ⟨cs, hrest⟩ := List.head?_eq_some_iff.mp hquote
      unfold inAttributeValue
      rw [hrest]
      exact if_pos rfl
    | command hquote hbrace hread hprint hname h =>
      obtain ⟨cs, hrest⟩ := List.head?_eq_some_iff.mp hbrace
      unfold inAttributeValue
      rw [hrest] at hquote ⊢
      refine (if_neg fun heq => hquote (congrArg some heq)).trans ((if_pos rfl).trans ?_)
      rw [hread, ok_bind]
      refine (if_neg ?_).trans h
      rw [Bool.or_eq_true, not_or, Bool.not_eq_true', Bool.not_eq_false, List.contains_iff_mem]
      exact ⟨hprint, hname⟩
    -- the first character is neither the quote nor a brace
    | text hne hquote hbrace =>
      obtain ⟨c, cs, hrest⟩ := List.exists_cons_of_ne_nil hne
      unfold inAttributeValue
      rw [hrest] at hquote hbrace ⊢
      exact (if_neg fun heq => hquote (congrArg some heq)).trans (if_neg fun heq => hbrace (congrArg some heq))

end Values

/-! ### In blocks -/

section Blocks

variable {opener : Tag} {html : Bool} {block : Block} {nodes : List NodeId}

/-- What is done in a block. -/
inductive GoesOnInBlock (r : Reading) (opener : Tag) (html : Bool) (block : Block) (nodes : List NodeId) :
    Reading → Prop
  | comment {r' : Reading} {cs : List Char} (hrest : r.input.rest = '/' :: '*' :: cs)
    (h : commentInBlock r opener html block nodes = .ok r') : GoesOnInBlock r opener html block nodes r'
  | tag {r' : Reading} {tag : Tag} {rest : Input} {cs : List Char} (hrest : r.input.rest = '\x7b' :: cs)
    (hread : Tag.read r.input = .ok (tag, rest))
    (h : tagInBlock { r with input := rest } opener html block nodes tag = .ok r') :
    GoesOnInBlock r opener html block nodes r'
  | htmlTag {r' : Reading} (hne : r.input.rest ≠ []) (hcomment : ∀ cs, r.input.rest ≠ '/' :: '*' :: cs)
    (hbrace : ∀ cs, r.input.rest ≠ '\x7b' :: cs) (hstarts : (html && startsTag r.input.rest) = true)
    (h : startHtmlTag (startBody r) = .ok r') : GoesOnInBlock r opener html block nodes r'
  | text (hne : r.input.rest ≠ []) (hcomment : ∀ cs, r.input.rest ≠ '/' :: '*' :: cs)
    (hbrace : ∀ cs, r.input.rest ≠ '\x7b' :: cs) (hstarts : ¬ (html && startsTag r.input.rest) = true) :
    GoesOnInBlock r opener html block nodes (textInBlock r html block)

/-- **In a block** stand comments, commands, HTML tags where they are read as such, and text. -/
theorem inBlock_eq_ok_iff : inBlock r opener html block nodes = .ok r' ↔
    GoesOnInBlock r opener html block nodes r' := by
  -- what is neither a comment nor a command
  have hplain (hne : r.input.rest ≠ []) (hcomment : ∀ cs, r.input.rest ≠ '/' :: '*' :: cs)
      (hbrace : ∀ cs, r.input.rest ≠ '\x7b' :: cs) : inBlock r opener html block nodes =
        if html && startsTag r.input.rest then startHtmlTag (startBody r) else .ok (textInBlock r html block) := by
    unfold inBlock
    split
    · next hrest => exact absurd hrest hne
    · next hrest => exact absurd hrest (hcomment _)
    · next hrest => exact absurd hrest (hbrace _)
    · rfl
  constructor
  · intro h
    unfold inBlock at h
    split at h
    · cases h
    · next hrest => exact .comment hrest h
    · next hrest =>
      obtain ⟨⟨tag, rest⟩, hread, h⟩ := exists_of_bind_ok h
      exact .tag hrest hread h
    -- the last case of the match: HTML or text
    · next hne hcomment hbrace =>
      split at h
      · next hstarts => exact .htmlTag hne hcomment hbrace hstarts h
      · next hstarts =>
        obtain rfl := Except.ok.inj h
        exact .text hne hcomment hbrace hstarts
  · intro h
    cases h with
    | comment hrest h =>
      unfold inBlock
      rw [hrest]
      exact h
    | tag hrest hread h =>
      unfold inBlock
      rw [hrest]
      dsimp only
      rwa [hread]
    | htmlTag hne hcomment hbrace hstarts h =>
      rw [hplain hne hcomment hbrace, if_pos hstarts]
      exact h
    | text hne hcomment hbrace hstarts => rw [hplain hne hcomment hbrace, if_neg hstarts]

end Blocks

/-! ### In calls -/

section Calls

variable {opener : Tag} {call : Call}

/-- What is done in a call, after the blanks. -/
inductive GoesOnInCall (r : Reading) (opener : Tag) (call : Call) : Reading → Prop
  | comment {r' : Reading} {cs : List Char} (hrest : r.input.skipBlanks.rest = '/' :: '*' :: cs)
    (h : skipComment { r with input := r.input.skipBlanks } = .ok r') : GoesOnInCall r opener call r'
  | ends {tag : Tag} {rest : Input} {cs : List Char} (hrest : r.input.skipBlanks.rest = '\x7b' :: cs)
    (hread : Tag.read r.input.skipBlanks = .ok (tag, rest)) (hname : tag.name = opener.closing) :
    GoesOnInCall r opener call
      (({ r with input := rest } : Reading).pop.emit (.call call) (opener.span.union tag.span))
  | param {r' : Reading} {tag : Tag} {rest : Input} {cs : List Char}
    (hrest : r.input.skipBlanks.rest = '\x7b' :: cs) (hread : Tag.read r.input.skipBlanks = .ok (tag, rest))
    (hopen : tag.name ≠ opener.closing) (hname : tag.name = "param")
    (h : startParam { r with input := rest } tag = .ok r') : GoesOnInCall r opener call r'

/-- **In a call** stand comments and parameters, until it is closed. -/
theorem inCall_eq_ok_iff : inCall r opener call = .ok r' ↔ GoesOnInCall r opener call r' := by
  constructor
  · intro h
    unfold inCall at h
    dsimp only at h
    split at h
    · next hrest => exact .comment hrest h
    · cases h
    · next hrest =>
      obtain ⟨⟨tag, rest⟩, hread, h⟩ := exists_of_bind_ok h
      dsimp only at h
      split at h
      -- the tag closes the call
      · next hname =>
        obtain rfl := Except.ok.inj h
        exact .ends hrest hread hname
      -- a tag that does not close the call has to be a parameter
      · next hopen =>
        split at h
        · next hname => exact .param hrest hread hopen hname h
        · cases h
    · cases h
  · intro h
    unfold inCall
    dsimp only
    cases h with
    | comment hrest h =>
      rw [hrest]
      exact h
    | ends hrest hread hname =>
      rw [hrest, hread, ok_bind]
      exact if_pos hname
    | param hrest hread hopen hname h =>
      rw [hrest, hread, ok_bind]
      exact (if_neg hopen).trans ((if_pos hname).trans h)

end Calls

/-! ### Outside of all -/

/-- What is done at the top of a file, after the blanks. -/
inductive GoesOnAtTop (r : Reading) : Reading → Prop
  | blank (hrest : r.input.skipBlanks.rest = []) : GoesOnAtTop r { r with input := r.input.skipBlanks }
  | comment {r' : Reading} {cs : List Char} (hrest : r.input.skipBlanks.rest = '/' :: '*' :: cs)
    (h : skipComment { r with input := r.input.skipBlanks } = .ok r') : GoesOnAtTop r r'
  | lineComment {cs : List Char} (hrest : r.input.skipBlanks.rest = '/' :: '/' :: cs) :
    GoesOnAtTop r { r with input := (r.input.skipBlanks.takeWhile (· != '\n')).2 }
  | declaration {r' : Reading} {tag : Tag} {rest : Input} {cs : List Char}
    (hrest : r.input.skipBlanks.rest = '\x7b' :: cs) (hread : Tag.read r.input.skipBlanks = .ok (tag, rest))
    (h : startDeclaration { r with input := rest } tag = .ok r') : GoesOnAtTop r r'

/-- **At the top of a file** stand comments and declarations. A file may end there. -/
theorem atTop_eq_ok_iff : atTop r = .ok r' ↔ GoesOnAtTop r r' := by
  constructor
  · intro h
    unfold atTop at h
    dsimp only at h
    -- what stands there decides the case: nothing, a comment, or a tag
    split at h
    · next hrest =>
      obtain rfl := Except.ok.inj h
      exact .blank hrest
    · next hrest => exact .comment hrest h
    · next hrest =>
      obtain rfl := Except.ok.inj h
      exact .lineComment hrest
    · next hrest =>
      obtain ⟨⟨tag, rest⟩, hread, h⟩ := exists_of_bind_ok h
      exact .declaration hrest hread h
    · cases h
  · intro h
    unfold atTop
    dsimp only
    cases h with
    | blank hrest => rw [hrest]
    | comment hrest h =>
      rw [hrest]
      exact h
    | lineComment hrest =>
      rw [hrest]
      rfl
    | declaration hrest hread h =>
      rw [hrest, hread]
      exact h

end TemplateFrontend.Markup
