import TemplateFrontend.Markup.Reader
import TemplateFrontend.Proofs.Expr.Placement
/-!
# Print tags

A tag is cut out of a template before its expression is read. The scanner that cuts it ends a string
at the next quote of its kind, the readers of expressions pass over quotes behind a backslash. Here
it is said when the two agree on the text of a print tag.

* `Tag.quoteAfter` — what the scanner takes to be open after a text;
* `Tag.body?_eq_some_iff` — the scanner ends a tag at the brace after a text if and only if it takes
  nothing to be open there;
* `SplitsInto.quoteAfter_eq` — that is so for every expression in which no string holds its own quote
  behind a backslash;
* `Markup.read_print_iff` — a print tag holds the expression between its braces if and only if the
  scanner ends it there.
-/

namespace TemplateFrontend

open Text Token

/-! ### The scanner of tags -/

namespace Tag

/-- What the scanner of tags takes to be open after a text, when `quote` is open before it: a quote,
or none. A brace outside of quotes has no text after it in the same tag. -/
def quoteAfter : (quote : Option Char) → List Char → Option (Option Char)
  | quote, [] => some quote
  | some q, c :: cs => quoteAfter (if c = q then none else some q) cs
  | none, c :: cs =>
    if isBrace c then none else quoteAfter (if isQuote c then some c else none) cs

/-- Outside of quotes a brace ends the tag, or is one too many, and a quote opens a string. -/
theorem body?_none_cons (c : Char) (cs : List Char) :
    body? none (c :: cs) =
      if c = '\x7d' then some []
      else if c = '\x7b' then none
      else (body? (if isQuote c then some c else none) cs).map (c :: ·) := by
  simp [body?, isQuote]

/-- What is open after such a character is a quote, or nothing. -/
theorem quoteAfter_none_cons {c : Char} (hc : isBrace c = false) (cs : List Char) :
    quoteAfter none (c :: cs) = quoteAfter (if isQuote c then some c else none) cs := by
  rw [quoteAfter, hc]
  rfl

/-- A character in front is the same character on both sides. -/
theorem map_cons_eq_some_cons {c : Char} {o : Option (List Char)} {cs : List Char} :
    o.map (c :: ·) = some (c :: cs) ↔ o = some cs := by
  simp

/-- The scanner ends a tag at the brace after a text if and only if it takes nothing to be open
there. -/
theorem body?_eq_some_iff {quote : Option Char} {cs : List Char} (rest : List Char) :
    body? quote (cs ++ '\x7d' :: rest) = some cs ↔ quoteAfter quote cs = some none := by
  induction cs generalizing quote with
  | nil =>
    cases quote with
    | none => simp [body?, quoteAfter]
    | some q => simp [body?, quoteAfter]
  | cons c cs ih =>
    cases quote with
    -- inside of quotes a brace is a character like any other
    | some q =>
      rw [List.cons_append, body?, map_cons_eq_some_cons, ih, quoteAfter]
    | none =>
      rw [List.cons_append, body?_none_cons]
      by_cases hclose : c = '\x7d'
      · simp [hclose, quoteAfter, isBrace]
      rw [if_neg hclose]
      -- an open brace stops the scanner, and nothing follows it
      by_cases hopen : c = '\x7b'
      · simp [hopen, quoteAfter, isBrace]
      have hbrace : isBrace c = false := by simp [isBrace, hclose, hopen]
      rw [if_neg hopen, map_cons_eq_some_cons, ih, quoteAfter_none_cons hbrace]

/-- The text of a tag stands in front of a brace. -/
theorem exists_of_body?_eq_some {quote : Option Char} {cs body : List Char}
    (h : body? quote cs = some body) : ∃ rest, cs = body ++ '\x7d' :: rest := by
  induction cs generalizing quote body with
  | nil => cases quote <;> cases h
  | cons c cs ih =>
    -- wherever the tag goes on, its end is found further on
    have further {quote : Option Char} (h : (body? quote cs).map (c :: ·) = some body) :
        ∃ rest, c :: cs = body ++ '\x7d' :: rest := by
      obtain ⟨b, hb, rfl⟩ := Option.map_eq_some_iff.mp h
      obtain ⟨rest, rfl⟩ := ih hb
      exact ⟨rest, rfl⟩
    cases quote with
    | some q => exact further h
    | none =>
      rw [body?_none_cons] at h
      split at h
      · next hc =>
        obtain rfl := Option.some.inj h
        exact ⟨cs, by rw [hc]; rfl⟩
      split at h
      · cases h
      · exact further h

/-- Outside of quotes, characters that are neither quotes nor braces change nothing. -/
theorem quoteAfter_append {w : List Char} (hw : ∀ x ∈ w, isDelimiter x = false)
    (rest : List Char) : quoteAfter none (w ++ rest) = quoteAfter none rest := by
  induction w with
  | nil => rfl
  | cons c w ih =>
    obtain ⟨hc, hw⟩ := List.forall_mem_cons.mp hw
    simp only [isDelimiter, Bool.or_eq_false_iff] at hc
    rw [List.cons_append, quoteAfter_none_cons hc.2, hc.1]
    exact ih hw

end Tag

/-! ### Quotes in strings -/

/-- Whether a string of the text holds a quote of its own kind, which a backslash marks. The quote
`quote` is open before the text. -/
def escapesQuote : (quote : Option Char) → List Char → Bool
  | _, [] => false
  | none, c :: cs => escapesQuote (if isQuote c then some c else none) cs
  | some q, '\\' :: c :: cs => c == q || escapesQuote (some q) cs
  | some q, c :: cs => escapesQuote (if c = q then none else some q) cs

/-- Characters that are neither quotes nor backslashes are passed over. -/
theorem escapesQuote_append {w : List Char} (hw : ∀ x ∈ w, isDelimiter x = false)
    (rest : List Char) : escapesQuote none (w ++ rest) = escapesQuote none rest := by
  induction w with
  | nil => rfl
  | cons c w ih =>
    obtain ⟨hc, hw⟩ := List.forall_mem_cons.mp hw
    simp only [isDelimiter, Bool.or_eq_false_iff] at hc
    rw [List.cons_append, escapesQuote, hc.1]
    exact ih hw

/-- In a string its own quote closes it. -/
theorem escapesQuote_some_cons {q c : Char} (hc : c ≠ '\\') (cs : List Char) :
    escapesQuote (some q) (c :: cs) = escapesQuote (if c = q then none else some q) cs := by
  rw [escapesQuote]
  exact fun _ _ h _ => hc h

/-- The scanner ends a string where the readers do, unless its own quote stands behind a backslash.
-/
theorem Token.StringBody.quoteAfter_append {q : Char} {cs value rest : List Char} (hq : q ≠ '\\')
    (h : StringBody q cs value) (hnone : escapesQuote (some q) (cs ++ rest) = false) :
    Tag.quoteAfter (some q) (cs ++ rest) = Tag.quoteAfter none rest ∧
      escapesQuote none rest = false := by
  induction h with
  | close =>
    rw [List.cons_append, escapesQuote_some_cons hq, if_pos rfl] at hnone
    rw [List.cons_append, Tag.quoteAfter, if_pos rfl]
    exact ⟨rfl, hnone⟩
  | @escape cs _ c _ ih =>
    -- what is behind the backslash is not the quote
    have hskip : (c == q) = false ∧ escapesQuote (some q) (cs ++ rest) = false := by
      rw [← Bool.or_eq_false_iff]
      exact hnone
    rw [List.cons_append, List.cons_append, Tag.quoteAfter, if_neg hq.symm, Tag.quoteAfter,
      if_neg (by simpa using hskip.1)]
    exact ih hskip.2
  | char hc hquote _ ih =>
    rw [List.cons_append, escapesQuote_some_cons hc, if_neg hquote] at hnone
    rw [List.cons_append, Tag.quoteAfter, if_neg hquote]
    exact ih hnone

/-- Marks are written without quotes, braces and backslashes. -/
theorem Token.isDelimiter_of_mem_symbol {m : Mark} {x : Char} (hx : x ∈ m.symbol.toList) :
    isDelimiter x = false := by
  have hall : m.symbol.toList.all (! isDelimiter ·) = true := by cases m <;> decide
  simpa using List.all_eq_true.mp hall x hx

/-- Over one token the scanner comes to nothing that is open. -/
theorem Token.Written.quoteAfter_append {l : Lexeme} {c : Char} {w rest : List Char}
    (h : Written l c w) (hnone : escapesQuote none (c :: w ++ rest) = false) :
    Tag.quoteAfter none (c :: w ++ rest) = Tag.quoteAfter none rest ∧
      escapesQuote none rest = false := by
  have unquoted (hcs : ∀ x ∈ c :: w, isDelimiter x = false) :
      Tag.quoteAfter none (c :: w ++ rest) = Tag.quoteAfter none rest ∧
        escapesQuote none rest = false := by
    rw [escapesQuote_append hcs] at hnone
    exact ⟨Tag.quoteAfter_append hcs rest, hnone⟩
  cases h with
  | plain _ hcs => exact unquoted fun x hx => isDelimiter_of_isPlain (hcs x hx)
  | mark h => exact unquoted fun x hx => isDelimiter_of_mem_symbol (h ▸ hx)
  | string hquote hbody =>
    -- a quote is neither a brace nor a backslash
    have hbrace : isBrace c = false ∧ c ≠ '\\' := by
      simp only [isQuote, Bool.or_eq_true, beq_iff_eq] at hquote
      obtain rfl | rfl := hquote <;> decide
    rw [List.cons_append, escapesQuote, if_pos hquote] at hnone
    rw [List.cons_append, Tag.quoteAfter_none_cons hbrace.1, if_pos hquote]
    exact hbody.quoteAfter_append hbrace.2 hnone

/-- Where no string holds its own quote, the scanner takes nothing to be open after an expression. -/
theorem SplitsInto.quoteAfter_eq {offset : Nat} {cs : List Char} {ts : List Token}
    (h : SplitsInto offset cs ts) (hnone : escapesQuote none cs = false) :
    Tag.quoteAfter none cs = some none := by
  induction h with
  | nil => rfl
  | @blank _ c _ _ hc _ ih =>
    have hdelimiter : ∀ x ∈ [c], isDelimiter x = false :=
      List.forall_mem_singleton.mpr (isDelimiter_of_isBlank hc)
    rw [← List.singleton_append] at hnone ⊢
    rw [escapesQuote_append hdelimiter] at hnone
    rw [Tag.quoteAfter_append hdelimiter]
    exact ih hnone
  | @token offset c w rest l ts hc hread _ ih =>
    obtain ⟨-, hwritten⟩ := written_of_readLexeme hread
    rw [List.take_left] at hwritten
    -- behind the token it is as it was in front of it
    obtain ⟨hquote, hrest⟩ := hwritten.quoteAfter_append hnone
    exact hquote.trans (ih hrest)

/-! ### Reading a print tag -/

/-- A tag with the word `print` and a text after it, cut out of its braces: the text is trimmed. -/
theorem Tag.ofBody_print {offset : Nat} {s : Span} {as core bs : List Char}
    (has : ∀ a ∈ as, isBlank a = true) (hbs : ∀ b ∈ bs, isBlank b = true)
    (hfirst : ∃ c, core.head? = some c ∧ isBlank c = false)
    (hlast : ∃ c, core.getLast? = some c ∧ isBlank c = false ∧ c ≠ '/') :
    ofBody ⟨offset, "print".toList ++ ' ' :: (as ++ core ++ bs)⟩ s =
      ⟨"print", ⟨offset + 6 + byteLength as, core⟩, ⟨offset, "print".toList ++ ' ' :: (as ++ core)⟩,
        s, false⟩ := by
  obtain ⟨c, hc, hcblank⟩ := hfirst
  obtain ⟨d, hd, hdblank, hslash⟩ := hlast
  have htext : "print".toList ++ ' ' :: (as ++ core ++ bs) =
      "print".toList ++ ' ' :: (as ++ core) ++ bs := by simp
  have hend : ("print".toList ++ ' ' :: (as ++ core)).getLast? = some d := by
    simp [List.getLast?_append, List.getLast?_cons, hd]
  -- the blanks in front of the brace go,
  have htrim : (Input.mk offset ("print".toList ++ ' ' :: (as ++ core ++ bs))).trim =
      ⟨offset, "print".toList ++ ' ' :: (as ++ core)⟩ := by
    rw [htext]
    have hskip : (Input.mk offset ("print".toList ++ ' ' :: (as ++ core) ++ bs)).skipBlanks =
        ⟨offset, "print".toList ++ ' ' :: (as ++ core) ++ bs⟩ := rfl
    rw [Input.trim, hskip, Input.trimEnd, trimEnd_append_blanks hbs, trimEnd_of_getLast? hend hdblank]
  -- the name is the word in front of the first blank,
  have hname : (Input.mk offset ("print".toList ++ ' ' :: (as ++ core))).takeWhile (! isBlank ·) =
      ("print".toList, ⟨offset + 5, ' ' :: (as ++ core)⟩) := rfl
  -- and the arguments are what is behind the blanks after it
  have hargs : (Input.mk (offset + 5) (' ' :: (as ++ core))).trim =
      ⟨offset + 6 + byteLength as, core⟩ := by
    obtain ⟨core', rfl⟩ : ∃ core', core = c :: core' := by
      cases core with
      | nil => cases hc
      | cons x xs =>
        obtain rfl := Option.some.inj hc
        exact ⟨xs, rfl⟩
    have hblanks : (' ' :: (as ++ c :: core')).takeWhile isBlank = ' ' :: as := by
      rw [← List.cons_append,
        List.takeWhile_append_of_pos (List.forall_mem_cons.mpr ⟨by decide, has⟩),
        List.takeWhile_cons_of_neg (by simp [hcblank]), List.append_nil]
    have hskip : (Input.mk (offset + 5) (' ' :: (as ++ c :: core'))).skipBlanks =
        ⟨offset + 6 + byteLength as, c :: core'⟩ := by
      rw [Input.skipBlanks, Input.takeWhile, hblanks, Input.drop, ← List.cons_append]
      simp only [List.take_left, List.drop_left, byteLength_cons, Input.mk.injEq, and_true]
      change offset + 5 + (1 + _) = _
      omega
    rw [Input.trim, hskip, Input.trimEnd, trimEnd_of_getLast? hd hdblank]
  -- without a slash at its end the tag does not close itself
  have hopen : (decide (1 < ("print".toList ++ ' ' :: (as ++ core)).length) &&
      ("print".toList ++ ' ' :: (as ++ core)).getLast? == some '/') = false := by
    rw [hend]
    simp [hslash]
  unfold ofBody
  simp only [htrim, hopen, Bool.false_eq_true, if_false, hname, hargs]
  rfl

/-- The input after a text and the braces around it. -/
theorem Input.drop_braces {i : Input} {cs rest : List Char}
    (hinput : i.rest = '\x7b' :: (cs ++ '\x7d' :: rest)) :
    i.drop (cs.length + 2) = ⟨i.offset + 2 + byteLength cs, rest⟩ := by
  have hcs : i.rest = '\x7b' :: (cs ++ ['\x7d']) ++ rest := by simp [hinput]
  have hlength : cs.length + 2 = ('\x7b' :: (cs ++ ['\x7d'])).length := by simp
  have hbytes : byteLength ('\x7b' :: (cs ++ ['\x7d'])) = 1 + (byteLength cs + (1 + 0)) := by
    rw [byteLength_cons, byteLength_append]
    rfl
  rw [Input.drop, hcs, hlength, List.take_left, List.drop_left, hbytes]
  congr 1
  omega

namespace Tag

/-- Where nothing is open after it, the text up to the brace is the tag. -/
theorem read_of_quoteAfter {i : Input} {cs rest : List Char}
    (hinput : i.rest = '\x7b' :: (cs ++ '\x7d' :: rest)) (h : quoteAfter none cs = some none) :
    Tag.read i = .ok (ofBody ⟨i.offset + 1, cs⟩ ⟨i.offset, i.offset + 2 + byteLength cs⟩,
      ⟨i.offset + 2 + byteLength cs, rest⟩) := by
  have hone : (i.drop 1).offset = i.offset + 1 := by
    rw [Input.drop, hinput]
    rfl
  unfold Tag.read
  rw [show i.rest.tail = cs ++ '\x7d' :: rest by rw [hinput]; rfl, (body?_eq_some_iff rest).mpr h]
  dsimp only
  rw [Input.drop_braces hinput, hone]

/-- A tag ends at the brace after a text if and only if the scanner takes nothing to be open there.
-/
theorem read_iff {i : Input} {cs rest : List Char}
    (hinput : i.rest = '\x7b' :: (cs ++ '\x7d' :: rest)) :
    (∃ tag after, Tag.read i = .ok (tag, after) ∧ after.rest = rest) ↔
      quoteAfter none cs = some none := by
  constructor
  · rintro ⟨tag, after, hread, hrest⟩
    unfold Tag.read at hread
    rw [show i.rest.tail = cs ++ '\x7d' :: rest by rw [hinput]; rfl] at hread
    -- forth: the tag that was read is the one before the given rest
    cases hbody : body? none (cs ++ '\x7d' :: rest) with
    | none =>
      rw [hbody] at hread
      cases hread
    | some body =>
      rw [hbody] at hread
      obtain ⟨more, hmore⟩ := exists_of_body?_eq_some hbody
      obtain ⟨-, rfl⟩ := Prod.mk.inj (Except.ok.inj hread)
      have hafter : (i.drop (body.length + 2)).rest = more := by
        rw [Input.drop_braces (hinput.trans (by rw [hmore]))]
      -- what is left has the same length, so the two texts are the same
      rw [← hrest, hafter] at hmore
      obtain ⟨rfl, -⟩ := List.append_inj' hmore rfl
      exact (body?_eq_some_iff _).mp hbody
  · intro h
    exact ⟨_, _, read_of_quoteAfter hinput h, rfl⟩

end Tag

namespace Markup

open Expr.Reader in
/-- A print without directives is the print of an expression. -/
theorem startPrint_of_parse {r : Reading} {args : Input} {tag : Tag} {e : Expr}
    (h : Expr.parse args.offset args.rest = .ok e) :
    startPrint r args tag = .ok (r.emit (.print e []) tag.span) := by
  obtain ⟨ts, hts, hgoes⟩ := exists_of_bind_ok h
  obtain ⟨⟨e', rest⟩, he, hmore⟩ := exists_of_bind_ok hgoes
  obtain ⟨u, hrest, hend⟩ := exists_of_bind_ok hmore
  obtain rfl := Except.ok.inj hend
  obtain rfl := finish_eq_ok.mp hrest
  -- after the whole expression there is no directive to read
  have hparse : Expr.parsePrint args.offset args.rest = .ok (e', []) := by
    unfold Expr.parsePrint
    simp only [hts, ok_bind]
    rw [he]
    rfl
  rw [startPrint, hparse]
  rfl

/-- The command of a print tag is the print of its expression. -/
theorem startCommand_print (r : Reading) (args : Input) (cs : List Char) (offset : Nat) (s : Span)
    (html : Bool) :
    startCommand r ⟨"print", args, ⟨offset, "print".toList ++ ' ' :: cs⟩, s, false⟩ html =
      startPrint r args ⟨"print", args, ⟨offset, "print".toList ++ ' ' :: cs⟩, s, false⟩ := by
  -- no special character is written with the letter `p` first
  have hspecial : SpecialChar.ofCommand? (String.ofList ("print".toList ++ ' ' :: cs)) = none := by
    rw [SpecialChar.ofCommand?, List.find?_eq_none]
    intro c _ hc
    rw [beq_iff_eq] at hc
    have hhead := congrArg (·.toList.head?) hc
    simp only [String.toList_ofList] at hhead
    change _ = some 'p' at hhead
    cases c <;> exact absurd hhead (by decide)
  unfold startCommand
  rw [hspecial]
  rfl

/-- In any block a print tag is a command. -/
theorem tagInBlock_print {r : Reading} {opener : Tag} {html : Bool} {block : Block}
    {nodes : List NodeId} {tag : Tag} (htag : tag.name = "print") :
    tagInBlock r opener html block nodes tag = startCommand (startBody r) tag html := by
  -- it closes nothing, for its name has no slash
  have hclosing : "print" ≠ opener.closing := by
    intro h
    have hhead := congrArg (·.toList.head?) h
    change _ = ("/" ++ opener.name).toList.head? at hhead
    rw [String.toList_append] at hhead
    change some 'p' = some '/' at hhead
    exact absurd hhead (by decide)
  have hterminators : (block.terminators opener).contains "print" = false := by
    cases block <;> simp [Block.terminators, hclosing]
  have hnotClosing : tag.isClosing = false := by
    rw [Tag.isClosing, htag]
    rfl
  have hheader : headerCommands.contains "print" = false := by decide
  unfold tagInBlock
  rw [hnotClosing, htag, hterminators, hheader]
  rfl

/-- **A print tag.** Where the scanner takes nothing to be open after the text of an expression, the
tag with that text is read as the print of the expression, moved to its place in the file. -/
theorem step_print {r : Reading} {opener : Tag} {html : Bool} {block : Block} {nodes : List NodeId}
    {below : List Frame} {cs rest : List Char} {e : Expr}
    (hframes : r.frames = .block opener html block nodes :: below)
    (hinput : r.input.rest = '\x7b' :: ("print".toList ++ ' ' :: cs ++ '\x7d' :: rest))
    (he : Expr.parse 0 cs = .ok e) (hcs : Tag.quoteAfter none cs = some none) :
    step r = .ok ((startBody { r with input := ⟨r.input.offset + 8 + byteLength cs, rest⟩ }).emit
      (.print (e.shift (r.input.offset + 7)) [])
      ⟨r.input.offset, r.input.offset + 8 + byteLength cs⟩) := by
  -- an expression is more than blanks
  have hblank : ¬ ∀ c ∈ cs, isBlank c = true := by
    intro hall
    obtain ⟨ts, hts, hexpr⟩ := Expr.parse_eq_ok_iff.mp he
    obtain rfl := (tokens_eq_ok_iff.mp hts).eq_nil hall
    obtain ⟨t, us, hnil, -⟩ := Expr.Derives.exists_opening hexpr
    cases hnil
  obtain ⟨as, core, bs, rfl, has, hbs, hfirst, d, hd, hdblank⟩ := exists_trimmed hblank
  -- the expression without the blanks around it, at its place in the file
  have hcore : Expr.parse (r.input.offset + 7 + byteLength as) core =
      .ok (e.shift (r.input.offset + 7)) := by
    have hshift := Expr.parse_shift hbs he (r.input.offset + 7)
    rw [Nat.zero_add] at hshift
    exact Expr.parse_of_blanks_append has hshift
  -- and it does not end with a slash, which would close the tag
  have hslash : d ≠ '/' := by
    rintro rfl
    exact Expr.getLast?_ne_slash_of_parse hcore hd
  -- the word in front of it opens no quote
  have hquote : Tag.quoteAfter none ("print".toList ++ ' ' :: (as ++ core ++ bs)) = some none := by
    rw [← hcs]
    rfl
  have hread := Tag.read_of_quoteAfter hinput hquote
  have hstop : r.input.offset + 2 + byteLength ("print".toList ++ ' ' :: (as ++ core ++ bs)) =
      r.input.offset + 8 + byteLength (as ++ core ++ bs) := by
    rw [byteLength_append, byteLength_cons]
    change r.input.offset + 2 + (5 + (1 + _)) = _
    omega
  have hargs : r.input.offset + 1 + 6 + byteLength as = r.input.offset + 7 + byteLength as := by
    omega
  rw [Tag.ofBody_print has hbs hfirst ⟨d, hd, hdblank, hslash⟩, hstop, hargs] at hread
  have hstep : step r = inBlock r opener html block nodes := by
    unfold step
    rw [hframes]
  rw [hstep, inBlock, hinput]
  refine (congrArg (· >>= _) hread).trans ?_
  dsimp only
  rw [ok_bind]
  rw [tagInBlock_print rfl, startCommand_print, startPrint_of_parse hcore]

/-- **Where print tags end.** The tag with the text of an expression ends at the brace after it if and
only if the scanner takes nothing to be open there. Then one step reads the tag as the print of that
expression, moved to its place in the file. It is so for every expression in which no string holds
its own quote behind a backslash, whatever else its strings hold. -/
theorem read_print_iff {r : Reading} {opener : Tag} {html : Bool} {block : Block}
    {nodes : List NodeId} {below : List Frame} {cs rest : List Char} {e : Expr}
    (hframes : r.frames = .block opener html block nodes :: below)
    (hinput : r.input.rest = '\x7b' :: ("print".toList ++ ' ' :: cs ++ '\x7d' :: rest))
    (he : Expr.parse 0 cs = .ok e) :
    ((∃ tag after, Tag.read r.input = .ok (tag, after) ∧ after.rest = rest) ↔
      Tag.quoteAfter none cs = some none) ∧
    (Tag.quoteAfter none cs = some none →
      step r = .ok ((startBody { r with input := ⟨r.input.offset + 8 + byteLength cs, rest⟩ }).emit
        (.print (e.shift (r.input.offset + 7)) [])
        ⟨r.input.offset, r.input.offset + 8 + byteLength cs⟩)) ∧
    (escapesQuote none cs = false → Tag.quoteAfter none cs = some none) := by
  refine ⟨?_, step_print hframes hinput he, fun hnone => ?_⟩
  -- so the scanner decides for the expression alone
  · have hprint : Tag.quoteAfter none ("print".toList ++ ' ' :: cs) = Tag.quoteAfter none cs := rfl
    rw [← hprint]
    exact Tag.read_iff hinput
  · obtain ⟨ts, hts, -⟩ := Expr.parse_eq_ok_iff.mp he
    exact (tokens_eq_ok_iff.mp hts).quoteAfter_eq hnone

/-- A string by itself is an expression. -/
theorem parse_string {quote : Char} {cs value : List Char} {stop : Nat} (hquote : isQuote quote = true)
    (hread : readLexeme 0 quote cs = .ok (.string (String.ofList value), cs.length))
    (hstop : byteLength (quote :: cs) = stop) :
    Expr.parse 0 (quote :: cs) = .ok (.literal ⟨⟨0, stop⟩, none⟩ (.string (String.ofList value))) := by
  have hblank : isBlank quote = false := by
    simp only [isQuote, Bool.or_eq_true, beq_iff_eq] at hquote
    obtain rfl | rfl := hquote <;> decide
  subst hstop
  have hsplits := @SplitsInto.token 0 quote cs [] _ [] hblank (by rwa [List.append_nil]) (.nil _)
  rw [List.append_nil, Nat.zero_add] at hsplits
  refine Expr.parse_eq_ok_iff.mpr ⟨_, tokens_eq_ok_iff.mpr hsplits, ?_⟩
  exact Expr.Derives.isExpression (.constant (.string _))

/-- A loop is open, and in it a print of a string with the other quote, a brace and a backslash. -/
def quotedPrint : Reading where
  input := ⟨26, "\x7bprint '\"\x7d\\\\'\x7d\x7b/for\x7d".toList⟩
  file := .empty "a.st" []
  doc := none
  strict := true
  frames := [.block default true (.loop "x" default) []]

/-- That print is read whole, and the text behind it is left. -/
theorem read_print_iff_quotedPrint : ∃ r, step quotedPrint = .ok r ∧
    r.file.kind 0 = .print (.literal ⟨⟨33, 39⟩, none⟩ (.string "\"\x7d\\")) [] ∧
    r.input.rest = "\x7b/for\x7d".toList := by
  have he : Expr.parse 0 "'\"\x7d\\\\'".toList = .ok (.literal ⟨⟨0, 6⟩, none⟩ (.string "\"\x7d\\")) :=
    parse_string rfl rfl rfl
  obtain ⟨-, hstep, hcloses⟩ := @read_print_iff quotedPrint default true (.loop "x" default) [] []
    "'\"\x7d\\\\'".toList "\x7b/for\x7d".toList _ rfl rfl he
  exact ⟨_, hstep (hcloses rfl), rfl, rfl⟩

/-- The string of which the quote behind the backslash is one too many for the scanner: an expression
by itself, but the template that prints it is not read. -/
theorem parse_rejects_escapedQuote :
    Expr.parse 0 "'it\\'s'".toList = .ok (.literal ⟨⟨0, 7⟩, none⟩ (.string "it's")) ∧
    parse ⟨"a.st", "\x7bnamespace a\x7d\x7btemplate .t\x7d\x7bprint 'it\\'s'\x7d\x7b/template\x7d"⟩ =
      .error ⟨.unclosed "\x7b", ⟨26, 27⟩⟩ :=
  ⟨parse_string rfl rfl rfl, rfl⟩

end Markup

end TemplateFrontend
