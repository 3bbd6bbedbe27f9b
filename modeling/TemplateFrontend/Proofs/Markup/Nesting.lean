import TemplateFrontend.Markup.Reader
/-!
# Well-nested files

A file is taken piece by piece: command tags, comments, text, and the parts of HTML tags. `Nested` is the
grammar of these pieces, in which what opens something is followed by what is inside it and then by what
closes it. The stack of what is open, read along with the pieces, accepts nothing else: `Finishes` says
what a stack still demands of the pieces that follow, and every move of the stack keeps it.

* `Piece`, `Place`, `Pending` — the pieces of a file, where they stand, and what is open;
* `Nested`, `Item`, `Inside` — the grammar;
* `Moves` — one piece read against a stack;
* `Moves.finishes` — what is demanded before a piece and after it.
-/

namespace TemplateFrontend

/-- The names of tags that declare something, open a block, or are part of one. -/
def Markup.reservedNames : List String :=
  fileCommands ++ headerCommands ++ ["if", "elseif", "else", "for", "msg", "velog", "param"]

namespace Tag

/-- Whether a colon follows the first word of the arguments. -/
def hasValue (t : Tag) : Bool :=
  let i := t.args.skipBlanks
  ((i.drop (Input.wordLength i.rest)).mark? [':']).isSome

/-- A command that stands for itself in content. -/
structure IsPlain (t : Tag) : Prop where
  not_closing : t.isClosing = false
  not_reserved : t.name ∉ Markup.reservedNames
  value_of_let : t.name = "let" → t.hasValue = true
  closed_of_call : t.name = "call" ∨ t.name = "delcall" → t.selfClosing = true

end Tag

namespace Markup

/-! ### Pieces and places -/

/-- A piece of a file. -/
inductive Piece where
  /-- A command between braces. -/
  | command (tag : Tag)
  | comment
  | blank
  | text
  /-- The start of an HTML tag, up to its attributes. -/
  | tagStart
  /-- An attribute without quotes around its value. -/
  | attribute
  /-- An attribute up to the quote that opens its value. -/
  | valueStart
  | valueEnd
  | tagEnd
  /-- An HTML close tag. -/
  | closeTag

/-- A place in a file, by what may stand there. -/
inductive Place where
  /-- Outside of templates. -/
  | file
  /-- In a template before its body. -/
  | header
  | body
  /-- In a call. -/
  | params
  /-- In an HTML tag. -/
  | attributes
  /-- In the quoted value of an attribute. -/
  | value
  deriving DecidableEq

/-- Whether commands are read in a place. -/
def Place.isContent (p : Place) : Bool := p = .body || p = .value

/-- What is open, with the name of the tag that closes it where this depends on the opener. -/
inductive Pending where
  /-- A template whose body has not started. -/
  | template (close : String)
  /-- A block, or the last part of a condition. -/
  | block (close : String)
  /-- A part of a condition after which others may follow. -/
  | branch
  | call (close : String)
  | htmlTag
  | value

/-- The place inside of what is open. -/
def Pending.place : Pending → Place
  | .template _ => .header
  | .block _ | .branch => .body
  | .call _ => .params
  | .htmlTag => .attributes
  | .value => .value

namespace Piece

/-- Whether a piece stands for itself in a place. -/
def StandsIn : Piece → Place → Prop
  | .command tag, .file => tag.name ∈ ["namespace", "alias", "delpackage"]
  | .command tag, .header => tag.name ∈ headerCommands
  | .command tag, .body | .command tag, .value => tag.IsPlain
  | .command tag, .params => tag.name = "param" ∧ tag.hasValue = true
  | .command _, .attributes => False
  | .comment, p => p ∈ [.file, .header, .body, .params]
  | .blank, p => p ∈ [.file, .header, .body]
  | .text, p => p.isContent = true
  | .closeTag, p => p = .body
  | .attribute, p => p = .attributes
  | .tagStart, _ | .tagEnd, _ | .valueStart, _ | .valueEnd, _ => False

/-- What a piece opens in a place. -/
inductive Opens : Piece → Place → Pending → Prop
  | template {tag : Tag} (h : tag.name ∈ ["template", "deltemplate", "element"]) :
    Opens (.command tag) .file (.template tag.closing)
  | condition {tag : Tag} (h : tag.name = "if") : Opens (.command tag) .body .branch
  | block {tag : Tag} {p : Place} (hp : p.isContent = true) (h : tag.name ∈ ["for", "msg", "velog"]) :
    Opens (.command tag) p (.block tag.closing)
  | binding {tag : Tag} {p : Place} (hp : p.isContent = true) (h : tag.name = "let")
    (hopen : tag.hasValue = false) : Opens (.command tag) p (.block tag.closing)
  | call {tag : Tag} {p : Place} (hp : p.isContent = true) (h : tag.name = "call" ∨ tag.name = "delcall")
    (hopen : tag.selfClosing = false) : Opens (.command tag) p (.call tag.closing)
  | param {tag : Tag} (h : tag.name = "param") (hopen : tag.hasValue = false) :
    Opens (.command tag) .params (.block tag.closing)
  | htmlTag : Opens .tagStart .body .htmlTag
  | value : Opens .valueStart .attributes .value

/-- Whether a piece closes what is open. A template is closed once its body has started. -/
def Closes : Piece → Pending → Prop
  | .command tag, .block close | .command tag, .call close => tag.name = close
  | .command tag, .branch => tag.name = "/if"
  | .tagEnd, .htmlTag | .valueEnd, .value => True
  | _, _ => False

end Piece

/-! ### The grammar -/

mutual

/-- Items in a place, one after the other. -/
inductive Nested : Place → List Piece → Prop
  | nil {p : Place} : Nested p []
  | cons {p : Place} {item rest : List Piece} (h : Item p item) (hrest : Nested p rest) :
    Nested p (item ++ rest)

/-- A piece for itself, or one that opens something with all that is inside of this. -/
inductive Item : Place → List Piece → Prop
  | single {p : Place} {w : Piece} (h : w.StandsIn p) : Item p [w]
  | group {p : Place} {w : Piece} {o : Pending} {inside : List Piece} (h : w.Opens p o)
    (hinside : Inside o inside) : Item p (w :: inside)

/-- What is inside of something open, up to its end. -/
inductive Inside : Pending → List Piece → Prop
  | closed {o : Pending} {items : List Piece} {w : Piece} (h : Nested o.place items)
    (hclose : w.Closes o) : Inside o (items ++ [w])
  /-- A template is a header and a block. -/
  | template {close : String} {header rest : List Piece} (h : Nested .header header)
    (hrest : Inside (.block close) rest) : Inside (.template close) (header ++ rest)
  | elseif {items rest : List Piece} {tag : Tag} (h : Nested .body items) (htag : tag.name = "elseif")
    (hrest : Inside .branch rest) : Inside .branch (items ++ .command tag :: rest)
  /-- After its last part, a condition is a block. -/
  | otherwise {items rest : List Piece} {tag : Tag} (h : Nested .body items) (htag : tag.name = "else")
    (hrest : Inside (.block "/if") rest) : Inside .branch (items ++ .command tag :: rest)

end

/-- An item before what is inside of something. -/
theorem Item.inside {o : Pending} {item inside : List Piece} (h : Item o.place item)
    (hinside : Inside o inside) : Inside o (item ++ inside) := by
  -- the item goes to the front of whatever stands inside first
  cases hinside with
  | closed hitems hclose =>
    rw [← List.append_assoc]
    exact .closed (.cons h hitems) hclose
  | template hheader hrest =>
    rw [← List.append_assoc]
    exact .template (.cons h hheader) hrest
  | elseif hitems htag hrest =>
    rw [← List.append_assoc]
    exact .elseif (.cons h hitems) htag hrest
  | otherwise hitems htag hrest =>
    rw [← List.append_assoc]
    exact .otherwise (.cons h hitems) htag hrest

/-! ### Stacks -/

/-- The place at the top of a stack of what is open. -/
def placeOf : List Pending → Place
  | [] => .file
  | o :: _ => o.place

/-- What a piece does to the stack of what is open. -/
inductive Moves : List Pending → Piece → List Pending → Prop
  | stays {stack : List Pending} {w : Piece} (h : w.StandsIn (placeOf stack)) : Moves stack w stack
  | opens {stack : List Pending} {w : Piece} {o : Pending} (h : w.Opens (placeOf stack) o) :
    Moves stack w (o :: stack)
  | closes {stack : List Pending} {w : Piece} {o : Pending} (h : w.Closes o) : Moves (o :: stack) w stack
  | elseif {stack : List Pending} {tag : Tag} (h : tag.name = "elseif") :
    Moves (.branch :: stack) (.command tag) (.branch :: stack)
  | otherwise {stack : List Pending} {tag : Tag} (h : tag.name = "else") :
    Moves (.branch :: stack) (.command tag) (.block "/if" :: stack)
  /-- The body of a template starts with the piece. -/
  | starts {stack stack' : List Pending} {close : String} {w : Piece}
    (h : Moves (.block close :: stack) w stack') : Moves (.template close :: stack) w stack'

/-- What follows finishes all that is open, the innermost first, and then the file. -/
def Finishes : List Pending → List Piece → Prop
  | [], ws => Nested .file ws
  | o :: stack, ws => ∃ inside rest, ws = inside ++ rest ∧ Inside o inside ∧ Finishes stack rest

/-- An item before what finishes a stack. -/
theorem Finishes.prepend {stack : List Pending} {item ws : List Piece} (h : Finishes stack ws)
    (hitem : Item (placeOf stack) item) : Finishes stack (item ++ ws) := by
  cases stack with
  | nil => exact .cons hitem h
  | cons o stack =>
    obtain ⟨inside, rest, rfl, hinside, hrest⟩ := h
    exact ⟨item ++ inside, rest, (List.append_assoc ..).symm, hitem.inside hinside, hrest⟩

/-- **One piece.** If what follows it finishes the stack after it, it and what follows finish the stack
before it. -/
theorem Moves.finishes {stack stack' : List Pending} {w : Piece} {ws : List Piece}
    (h : Moves stack w stack') (hws : Finishes stack' ws) : Finishes stack (w :: ws) := by
  -- what follows starts with what is inside of what the piece leaves open
  induction h with
  | stays hw => exact hws.prepend (.single hw)
  | opens hw =>
    obtain ⟨inside, rest, rfl, hinside, hrest⟩ := hws
    exact hrest.prepend (.group hw hinside)
  | closes hw => exact ⟨[_], ws, rfl, .closed .nil hw, hws⟩
  | elseif htag =>
    obtain ⟨inside, rest, rfl, hinside, hrest⟩ := hws
    exact ⟨_ :: inside, rest, rfl, .elseif .nil htag hinside, hrest⟩
  | otherwise htag =>
    obtain ⟨inside, rest, rfl, hinside, hrest⟩ := hws
    exact ⟨_ :: inside, rest, rfl, .otherwise .nil htag hinside, hrest⟩
  | starts _ ih =>
    -- the header has been read by now, and nothing more is in it
    obtain ⟨inside, rest, heq, hinside, hrest⟩ := ih hws
    exact ⟨inside, rest, heq, .template .nil hinside, hrest⟩

end Markup

end TemplateFrontend
