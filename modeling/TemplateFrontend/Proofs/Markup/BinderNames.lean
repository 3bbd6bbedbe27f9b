import TemplateFrontend.Check.Variables
import TemplateFrontend.Proofs.Expr.Parsing
import TemplateFrontend.Proofs.Markup.Tracking
/-!
# Names that variables are bound to

A reference is read as a token, whose name has letters, digits and underscores only. The variable of a
loop is read as a token too, but every other name that is bound is a word of a command, which may have
dots and dashes, and in a header also a dollar sign at its front. So there are names that are bound and
that no reference can have. Of the names of a header those of parameters are compared with each other and
no others are.

* `ReadsBack` — after a dollar sign the name is read as one variable;
* `NodeKind.NamesRead`, `Markup.Block.NamesRead` — what is known of the names that a node binds, and of those
  that were read for an open block;
* `Markup.tracks_namesRead` — reading keeps it, because of what is read for headers, loops and `{let}`s;
* `parse_binderNames` — the names that are bound in a source that parses.
-/

namespace TemplateFrontend

open Text TemplateFile

/-! ### Names that references have -/

/-- After a dollar sign the name is read as one variable of that name, wherever it stands. -/
def ReadsBack (x : String) : Prop :=
  ∀ offset, ∃ s, tokens offset ('$' :: x.toList) = .ok [⟨.var x, s⟩]

/-- A name is read back if it has the characters of one and at least one of them. -/
theorem readsBack_iff {x : String} :
    ReadsBack x ↔ x ≠ "" ∧ ∀ c ∈ x.toList, isNameChar c = true := by
  constructor
  · intro h
    obtain ⟨s, hs⟩ := h 0
    rw [tokens, if_neg (by decide)] at hs
    obtain ⟨⟨l, n⟩, hread, hs⟩ := exists_of_bind_ok hs
    obtain ⟨more, -, hs⟩ := exists_of_bind_ok hs
    obtain ⟨hne, rfl, -⟩ := Token.readLexeme_dollar.mp hread
    -- the variable is the name, so all characters were taken
    have hname : String.ofList (x.toList.takeWhile isNameChar) = x := by
      obtain ⟨htoken, -⟩ := List.cons.inj (Except.ok.inj hs)
      exact Lexeme.var.inj (congrArg Token.lexeme htoken)
    have hall : x.toList.takeWhile isNameChar = x.toList := by
      rw [← String.toList_ofList (l := x.toList.takeWhile isNameChar), hname]
    exact ⟨fun hempty => hne (by rw [hempty]; rfl), List.takeWhile_eq_self_iff.mp hall⟩
  · rintro ⟨hne, hchars⟩ offset
    have hall : x.toList.takeWhile isNameChar = x.toList := List.takeWhile_eq_self_iff.mpr hchars
    -- back: all characters are taken, so the token is the name and nothing is left
    have hread : Token.readLexeme offset '$' x.toList = .ok (.var x, x.toList.length) := by
      rw [Token.readLexeme_dollar, hall]
      exact ⟨fun hnil => hne (String.toList_inj.mp hnil), by rw [String.ofList_toList], rfl⟩
    refine ⟨⟨offset, offset + byteLength ('$' :: x.toList)⟩, ?_⟩
    rw [tokens, if_neg (by decide), hread, ok_bind]
    simp only [List.take_length, List.drop_length, tokens, ok_bind]
    rfl

/-- Numbers are no variables. -/
theorem Token.numberAt_ne_var {offset : Nat} {c : Char} {rest : List Char} {x : String} {n : Nat} :
    Token.numberAt offset c rest ≠ .ok (.var x, n) := by
  have hinteger (ds : List Char) : Token.numberAt.integer offset ds ≠ .ok (.var x, n) := by
    unfold Token.numberAt.integer
    split <;> simp
  unfold Token.numberAt
  dsimp only
  split
  · split
    · simp
    · exact hinteger _
  · exact hinteger _

/-- What is read as a variable is read back. -/
theorem readsBack_of_readLexeme {offset : Nat} {c : Char} {rest : List Char} {x : String} {n : Nat}
    (h : Token.readLexeme offset c rest = .ok (.var x, n)) : ReadsBack x := by
  by_cases hc : c = '$'
  · subst hc
    obtain ⟨hne, hvar, -⟩ := Token.readLexeme_dollar.mp h
    obtain rfl := Lexeme.var.inj hvar
    refine readsBack_iff.mpr ⟨fun hempty => hne (String.ofList_eq_empty_iff.mp hempty), ?_⟩
    rw [String.toList_ofList]
    exact fun _ => List.mem_takeWhile_imp
  · -- every other character starts another token
    unfold Token.readLexeme at h
    rw [if_neg hc] at h
    split at h
    · cases h
    · split at h
      · exact absurd h Token.numberAt_ne_var
      · split at h <;> split at h <;> cases h

/-- **Variables of expressions** have names that are read back. -/
theorem readsBack_of_mem_tokens {offset : Nat} {cs : List Char} {ts : List Token} {x : String}
    {s : Span} (h : tokens offset cs = .ok ts) (hx : ⟨.var x, s⟩ ∈ ts) : ReadsBack x := by
  rw [tokens_eq_ok_iff] at h
  induction h with
  | nil => cases hx
  | blank _ _ ih => exact ih hx
  | token _ hread _ ih =>
    obtain heq | hx := List.mem_cons.mp hx
    · obtain ⟨rfl, -⟩ := Token.mk.inj heq
      exact readsBack_of_readLexeme hread
    · exact ih hx

/-- The variable of a loop is read back. -/
theorem readsBack_of_parseLoop {offset : Nat} {cs : List Char} {x : String} {list : Expr}
    (h : Expr.parseLoop offset cs = .ok (x, list)) : ReadsBack x := by
  obtain ⟨ts, hts, h⟩ := exists_of_bind_ok h
  obtain ⟨⟨y, rest⟩, hname, h⟩ := exists_of_bind_ok h
  obtain ⟨_, -, h⟩ := exists_of_bind_ok h
  obtain ⟨_, -, h⟩ := exists_of_bind_ok h
  obtain ⟨_, -, h⟩ := exists_of_bind_ok h
  obtain ⟨rfl, -⟩ := Prod.mk.inj (Except.ok.inj h)
  -- only a variable token gives the name
  unfold Expr.Reader.variableName at hname
  split at hname
  · obtain ⟨rfl, -⟩ := Prod.mk.inj (Except.ok.inj hname)
    exact readsBack_of_mem_tokens hts List.mem_cons_self
  · cases hname

/-! ### Names that are words -/

/-- A dollar sign stands in a word at its front only. -/
theorem Input.isWordChar_of_word {i j : Input} {expected s : String} {place : Span} {cs : List Char}
    (h : i.word expected = .ok ((s, place), j)) (hs : s.toList = '$' :: cs) :
    ∀ c ∈ cs, isWordChar c = true := by
  unfold word at h
  dsimp only at h
  generalize hlength : wordLength i.skipBlanks.rest = n at h
  cases n with
  | zero => cases h
  | succ n =>
    obtain ⟨heq, -⟩ := Prod.mk.inj (Except.ok.inj h)
    obtain ⟨rfl, -⟩ := Prod.mk.inj heq
    rw [String.toList_ofList] at hs
    cases hrest : i.skipBlanks.rest with
    | nil =>
      -- the word has a first character, so the text has one
      rw [hrest] at hs
      cases hs
    | cons c rest =>
      rw [hrest, List.take_succ_cons] at hs
      obtain ⟨rfl, rfl⟩ := List.cons.inj hs
      -- after the dollar sign the word has the longest run of its characters
      rw [hrest, wordLength, Nat.add_right_cancel_iff] at hlength
      rw [← hlength, take_length_takeWhile]
      exact fun _ => List.mem_takeWhile_imp

/-- The characters of names are those of words, but for dots, dashes and dollar signs. -/
theorem Input.isNameChar_iff {c : Char} (hc : isWordChar c = true ∨ c = '$') :
    isNameChar c = true ↔ c ∉ ['.', '-', '$'] := by
  constructor
  · intro hname hmem
    obtain rfl | rfl | rfl : c = '.' ∨ c = '-' ∨ c = '$' := by simpa using hmem
    all_goals exact absurd hname (by decide)
  · intro hmem
    obtain ⟨hdot, hdash, hdollar⟩ : c ≠ '.' ∧ c ≠ '-' ∧ c ≠ '$' := by simpa using hmem
    have hword := hc.resolve_right hdollar
    simpa [isWordChar, hdot, hdash] using hword

/-- A word is read back unless it has a character that names have not. -/
theorem Input.IsWord.readsBack_iff {x : String} (h : IsWord x) :
    ReadsBack x ↔ ∀ c ∈ x.toList, c ∉ ['.', '-', '$'] := by
  rw [TemplateFrontend.readsBack_iff, and_iff_right h.1]
  exact forall₂_congr fun c hc => isNameChar_iff (h.2 c hc)

/-! ### Names that nodes bind -/

/-- What is known of the names of a header: those of the parameters are different, and all are words. -/
structure HeaderNames (params state : List String) : Prop where
  nodup : params.Nodup
  words : ∀ x ∈ params ++ state, Input.IsWord x

/-- What is known of the names that a node binds. The name of a loop is read back, and that of a `{let}` is
what follows the dollar sign of a word. -/
def NodeKind.NamesRead : NodeKind → Prop
  | .template t => HeaderNames (t.params.map (·.name)) (t.state.map (·.name))
  | .loop x _ _ => ReadsBack x
  | .binding x _ => ∀ c ∈ x.toList, Input.isWordChar c = true
  | _ => True

namespace Markup

/-- What is known of the names that were read for a block. -/
def Block.NamesRead : Block → Prop
  | .template _ header => HeaderNames (header.params.map (·.name)) (header.state.map (·.name))
  | .loop x _ => ReadsBack x
  | .binding x _ => ∀ c ∈ x.toList, Input.isWordChar c = true
  | _ => True

/-- Documentation changes no name of a parameter. -/
theorem paramNames_attachDoc (header : Header) (rest : Input) (doc : Option String) :
    (attachDoc header rest doc).1.params.map (·.name) = header.params.map (·.name) := by
  unfold attachDoc
  split
  · next after p hafter hlast =>
    dsimp only
    split
    · rfl
    · -- the last parameter is put back with another documentation
      obtain ⟨before, hparams⟩ := List.getLast?_eq_some_iff.mp hlast
      simp [hparams]
  · rfl

/-- A declaration adds a word, and as a parameter one that no other parameter has. -/
theorem declare_headerNames {header header' : Header} {doc : Option String} {tag : Tag} {rest : Input}
    (hheader : HeaderNames (header.params.map (·.name)) (header.state.map (·.name)))
    (h : declare header doc tag rest = .ok header') :
    HeaderNames (header'.params.map (·.name)) (header'.state.map (·.name)) := by
  obtain ⟨hnodup, hwords⟩ := hheader
  rw [List.forall_mem_append] at hwords
  obtain ⟨decl, rfl, -, ⟨s, i, hword⟩, hnew⟩ | ⟨decl, j, rfl, -, ⟨s, i, hword⟩, -⟩ := declare_cases h
  -- a parameter is refused if its name is taken by another one
  · have hdecl := Input.isWord_of_word hword
    refine ⟨?_, ?_⟩
    · rw [List.map_append, List.map_singleton, ← List.concat_eq_append, List.nodup_concat]
      refine ⟨fun hmem => ?_, hnodup⟩
      obtain ⟨p, hp, hname⟩ := List.mem_map.mp hmem
      exact hnew p hp hname
    · rw [List.map_append, List.map_singleton, List.forall_mem_append, List.forall_mem_append]
      exact ⟨⟨hwords.1, List.forall_mem_singleton.mpr hdecl⟩, hwords.2⟩
  -- a state variable is put behind the others unchecked
  · have hdecl := Input.isWord_of_word hword
    refine ⟨hnodup, ?_⟩
    rw [List.map_append, List.map_singleton, List.forall_mem_append, List.forall_mem_append]
    exact ⟨hwords.1, hwords.2, List.forall_mem_singleton.mpr hdecl⟩

/-- **The names that were read** go from open blocks into nodes as they are. -/
theorem tracks_namesRead :
    Tracks (fun _ => True) NodeKind.NamesRead (fun _ => Block.NamesRead) (fun _ _ => True) where
  input _ _ := trivial
  node {k} hk := by cases k <;> trivial
  block {_ b} hb := by cases b <;> trivial
  after _ hb := hb
  header := ⟨List.nodup_nil, List.forall_mem_nil _⟩
  closeHeader {_ b} hb := by cases b <;> exact hb
  declare _ hb := declare_headerNames hb
  -- documentation changes no name
  attachDoc {_ rest t header doc} hb := by
    change HeaderNames _ _
    rw [paramNames_attachDoc, state_attachDoc]
    exact hb
  template hb := hb
  startLoop := readsBack_of_parseLoop
  loop hb := hb
  startValue hword hdollar := Input.isWordChar_of_word hword hdollar
  startContent hword hdollar := Input.isWordChar_of_word hword hdollar
  content hb := hb
  startTag _ _ := trivial
  takeAttribute _ _ := trivial
  tag _ := trivial

end Markup

/-! ### Sources -/

section Sources

variable {source : SourceText} {f : TemplateFile}

/-- **The names that are bound in a source.** The parameters of a header have different names, so that all
names of the header are different if and only if those of its state are, and are none of a parameter. A
name of a header is read back unless it has a dot, a dash or a dollar sign. The variable of a loop is
always read back, and that of a `{let}` unless it is empty or has a dot or a dash. -/
theorem parse_binderNames (h : parse source = .ok f) (id : NodeId) :
    (∀ t, f.kind id = .template t → (t.params.map (·.name)).Nodup ∧
      ((declaredNames t).Nodup ↔ (t.state.map (·.name)).Nodup ∧
        ∀ s ∈ t.state, ∀ p ∈ t.params, s.name ≠ p.name) ∧
      ∀ x ∈ declaredNames t, ReadsBack x ↔ ∀ c ∈ x.toList, c ∉ ['.', '-', '$']) ∧
    (∀ x ∈ bindsInside (f.kind id), ReadsBack x) ∧
    ∀ x ∈ bindsAfter (f.kind id),
      (ReadsBack x ↔ x ≠ "" ∧ ∀ c ∈ x.toList, c ∉ ['.', '-']) := by
  have hnames := Markup.tracks_namesRead.of_parse h trivial id
  refine ⟨fun t ht => ?_, fun x hx => ?_, fun x hx => ?_⟩
  · rw [ht] at hnames
    have hparams : (t.params.map (·.name)).Nodup := hnames.nodup
    refine ⟨hparams, ?_, fun x hx => (hnames.words x hx).readsBack_iff⟩
    rw [declaredNames, List.nodup_append, and_iff_right hparams]
    -- parameters are distinct, so repetitions are among state variables or across the two
    refine and_congr_right fun _ => ⟨fun hne s hs p hp heq => ?_, fun hne a ha b hb hab => ?_⟩
    · exact hne _ (List.mem_map_of_mem hp) _ (List.mem_map_of_mem hs) heq.symm
    · obtain ⟨p, hp, rfl⟩ := List.mem_map.mp ha
      obtain ⟨s, hs, rfl⟩ := List.mem_map.mp hb
      exact hne s hs p hp hab.symm
  -- inside of a node only a loop binds its variable
  · cases hk : f.kind id with
    | loop y list body =>
      rw [hk] at hnames hx
      obtain rfl := List.mem_singleton.mp hx
      exact hnames
    | _ =>
      rw [hk] at hx
      cases hx
  -- behind a node only a binding does
  · cases hk : f.kind id with
    | binding y bound =>
      rw [hk] at hnames hx
      obtain rfl := List.mem_singleton.mp hx
      have hchars : ∀ c ∈ x.toList, Input.isWordChar c = true := hnames
      rw [readsBack_iff]
      refine and_congr_right fun _ => forall₂_congr fun c hc => ?_
      -- a name bound by a tag is a word, and a word holds no `$` past its start
      have hdollar : c ≠ '$' := by
        rintro rfl
        exact absurd (hchars '$' hc) (by decide)
      rw [Input.isNameChar_iff (.inl (hchars c hc))]
      simp [hdollar]
    | _ =>
      rw [hk] at hx
      cases hx

/-- A parameter and a state variable of one name, and names that no reference can have: of another state
variable, and of a `{let}` in a loop. -/
def clashingState : SourceText :=
  ⟨"a.st", "\x7bnamespace a\x7d\x7belement .e\x7d\x7b@param x: string\x7d\x7b@state x = 'c'\x7d" ++
    "\x7b@state a.b = 1\x7d\x7bfor $y in [1]\x7d\x7blet $d-e: 1 /\x7d\x7b/for\x7d\x7b/element\x7d"⟩

theorem parse_clashingState : ∃ f t, parse clashingState = .ok f ∧ f.kind 2 = .template t ∧
    (t.params.map (·.name) = ["x"] ∧ t.state.map (·.name) = ["x", "a.b"]) ∧
    bindsInside (f.kind 1) = ["y"] ∧ bindsAfter (f.kind 0) = ["d-e"] := by
  -- all that is said here about the file by one evaluation
  have hrun : (parse clashingState).toOption.map (fun f => decide
      ((f.declared.map fun p => (p.1, p.2.params.map (·.name), p.2.state.map (·.name))) =
          [(2, ["x"], ["x", "a.b"])] ∧
        bindsInside (f.kind 1) = ["y"] ∧ bindsAfter (f.kind 0) = ["d-e"])) = some true := by
    decide +kernel
  obtain ⟨f, hp, hf⟩ := exists_of_toOption_map hrun
  obtain ⟨hdeclared, hbound⟩ := of_decide_eq_true hf
  obtain ⟨⟨id, t⟩, heq, ht⟩ := List.map_eq_singleton_iff.mp hdeclared
  obtain ⟨rfl, hheader⟩ := Prod.mk.inj ht
  obtain ⟨-, hkind⟩ := kind_of_mem_declared (f := f) (heq ▸ List.mem_singleton_self _)
  exact ⟨f, t, hp, hkind, Prod.mk.inj hheader, hbound⟩

/-- The variable of the loop is read back, that of the `{let}` is not. -/
theorem parse_binderNames_clashingState : ∃ f t, parse clashingState = .ok f ∧ f.kind 2 = .template t ∧
    (t.params.map (·.name)).Nodup ∧ ReadsBack "y" ∧ ¬ ReadsBack "d-e" := by
  obtain ⟨f, t, hp, hkind, -, hloop, hlet⟩ := parse_clashingState
  obtain ⟨hheader, -, -⟩ := parse_binderNames hp 2
  obtain ⟨-, hinside, -⟩ := parse_binderNames hp 1
  obtain ⟨-, -, hafter⟩ := parse_binderNames hp 0
  refine ⟨f, t, hp, hkind, (hheader t hkind).1, hinside "y" ?_, fun hback => ?_⟩
  · rw [hloop]
    exact List.mem_singleton_self _
  · have hiff := hafter "d-e" (by rw [hlet]; exact List.mem_singleton_self _)
    exact (hiff.mp hback).2 '-' (by decide) (by decide)

/-- The header declares a name twice and another one that is not read back, nor is that of the `{let}`. -/
theorem parse_binds_clashingState : ∃ f t, parse clashingState = .ok f ∧ f.kind 2 = .template t ∧
    ¬ (declaredNames t).Nodup ∧ "a.b" ∈ declaredNames t ∧ ¬ ReadsBack "a.b" ∧
    "d-e" ∈ bindsAfter (f.kind 0) ∧ ¬ ReadsBack "d-e" := by
  obtain ⟨f, t, hp, hkind, ⟨hparams, hstate⟩, -, hlet⟩ := parse_clashingState
  -- `x` twice, and two names that no variable token spells
  have hdeclared : declaredNames t = ["x", "x", "a.b"] := by rw [declaredNames, hparams, hstate]; rfl
  refine ⟨f, t, hp, hkind, ?_, ?_, fun hback => ?_, ?_, fun hback => ?_⟩
  · rw [hdeclared]
    decide
  · rw [hdeclared]
    decide
  · exact absurd ((readsBack_iff.mp hback).2 '.' (by decide)) (by decide)
  · rw [hlet]
    decide
  · exact absurd ((readsBack_iff.mp hback).2 '-' (by decide)) (by decide)

end Sources

end TemplateFrontend
