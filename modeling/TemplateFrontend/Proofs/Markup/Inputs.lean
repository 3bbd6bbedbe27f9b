import TemplateFrontend.Proofs.Markup.PrintTags
import TemplateFrontend.Proofs.Readers
/-!
# What is left of a text

Reading a file only ever moves on in its text. So whatever input a reader leaves is the one that it was
given without some characters at its front.

* `Input.After` — an input that is left of another one;
* `exists_of_read` — what a tag is read from;
* `declare_cases` — what a declaration adds to a header.
-/

namespace TemplateFrontend

open Text

namespace Input

theorem drop_zero (i : Input) : i.drop 0 = i := rfl

theorem drop_drop (i : Input) (n m : Nat) : (i.drop n).drop m = i.drop (n + m) := by
  have htake : i.rest.take (n + m) = i.rest.take n ++ (i.rest.drop n).take m := List.take_add
  simp only [drop, htake, byteLength_append, List.drop_drop, Nat.add_assoc]

/-- The second input is what is left of the first one. -/
def After (i j : Input) : Prop := ∃ n, j = i.drop n

namespace After

theorem refl (i : Input) : After i i := ⟨0, rfl⟩

theorem trans {i j k : Input} (h : After i j) (h' : After j k) : After i k := by
  obtain ⟨n, rfl⟩ := h
  obtain ⟨m, rfl⟩ := h'
  exact ⟨n + m, drop_drop i n m⟩

theorem drop (i : Input) (n : Nat) : After i (i.drop n) := ⟨n, rfl⟩

theorem takeWhile (i : Input) (p : Char → Bool) : After i (i.takeWhile p).2 := ⟨_, rfl⟩

theorem skipBlanks (i : Input) : After i i.skipBlanks := ⟨_, rfl⟩

theorem mark? {i j : Input} {cs : List Char} (h : i.mark? cs = some j) : After i j := by
  unfold Input.mark? at h
  dsimp only at h
  split at h
  · obtain rfl := Option.some.inj h
    exact (skipBlanks i).trans (drop _ _)
  · cases h

theorem word {i j : Input} {expected : String} {w : String × Span}
    (h : i.word expected = .ok (w, j)) : After i j := by
  unfold Input.word at h
  dsimp only at h
  split at h
  · cases h
  · obtain ⟨-, rfl⟩ := Prod.mk.inj (Except.ok.inj h)
    exact (skipBlanks i).trans (drop _ _)

end After

end Input

/-- What follows a run of characters. -/
theorem Input.rest_takeWhile (i : Input) (p : Char → Bool) : (i.takeWhile p).2.rest = i.rest.dropWhile p :=
  calc i.rest.drop (i.rest.takeWhile p).length
    _ = (i.rest.takeWhile p ++ i.rest.dropWhile p).drop (i.rest.takeWhile p).length := by
      rw [List.takeWhile_append_dropWhile]
    _ = i.rest.dropWhile p := List.drop_left

/-- A run of characters that ends where another character stands. -/
theorem Input.takeWhile_of_run {i : Input} {p : Char → Bool} {run cs : List Char} (hrest : i.rest = run ++ cs)
    (hrun : ∀ c ∈ run, p c = true) (hcs : ∀ c ∈ cs.head?, p c = false) :
    i.takeWhile p = (run, ⟨i.offset + byteLength run, cs⟩) := by
  rw [Input.takeWhile, hrest, (takeWhile_run hrun hcs).1, Input.drop, hrest, List.take_left, List.drop_left]

/-- Blanks that are skipped before something else. -/
theorem Input.skipBlanks_of_blanks {i : Input} {cs : List Char} (blanks : List Char)
    (hrest : i.rest = blanks ++ cs) (hblanks : allBlank blanks = true)
    (hcs : ∀ c ∈ cs.head?, Text.isBlank c = false) : i.skipBlanks = ⟨i.offset + byteLength blanks, cs⟩ :=
  congrArg Prod.snd (Input.takeWhile_of_run hrest (List.all_eq_true.mp hblanks) hcs)

/-- Blanks that are skipped. -/
theorem Input.exists_skipBlanks (i : Input) :
    ∃ n, i.skipBlanks = i.drop n ∧ allBlank (i.rest.take n) = true := by
  refine ⟨_, rfl, ?_⟩
  have htake : i.rest.take (i.rest.takeWhile Text.isBlank).length = i.rest.takeWhile Text.isBlank :=
    (List.prefix_iff_eq_take.mp (List.takeWhile_prefix Text.isBlank)).symm
  rw [htake]
  exact List.all_takeWhile

namespace Markup

@[simp] theorem Reading.input_emit (r : Reading) (k : NodeKind) (s : Span) :
    (r.emit k s).input = r.input := by
  unfold emit place
  dsimp only
  split <;> rfl

@[simp] theorem Reading.input_push (r : Reading) (frame : Frame) : (r.push frame).input = r.input := rfl

section Reading

variable {r r' : Reading} {tag : Tag}

/-- A comment takes nothing else. -/
theorem skipComment_after (h : skipComment r = .ok r') : r.input.After r'.input := by
  unfold skipComment at h
  split at h
  · cases h
  · obtain rfl := Except.ok.inj h
    exact .drop _ _

/-- A tag is taken off the front of the input, and its range is what is taken. -/
theorem exists_of_read {i rest : Input} {tag : Tag} (h : Tag.read i = .ok (tag, rest)) :
    ∃ body, tag = Tag.ofBody ⟨(i.drop 1).offset, body⟩ ⟨i.offset, rest.offset⟩ ∧
      rest = i.drop (body.length + 2) ∧ ∃ more, i.rest.tail = body ++ '\x7d' :: more := by
  unfold Tag.read at h
  split at h
  · cases h
  · next body hbody =>
    obtain ⟨rfl, rfl⟩ := Prod.mk.inj (Except.ok.inj h)
    exact ⟨body, rfl, rfl, Tag.exists_of_body?_eq_some hbody⟩

/-- A tag has the name that its text starts with. -/
theorem name_ofBody (body : Input) (s : Span) : (Tag.ofBody body s).name =
    String.ofList ((Tag.ofBody body s).content.rest.takeWhile (! isBlank ·)) := by
  unfold Tag.ofBody
  dsimp only [Input.takeWhile]

theorem name_of_read {i rest : Input} (h : Tag.read i = .ok (tag, rest)) :
    tag.name = String.ofList (tag.content.rest.takeWhile (! isBlank ·)) := by
  obtain ⟨body, rfl, -⟩ := exists_of_read h
  exact name_ofBody _ _

/-- A declaration of state is added to the header, with the expression that follows the marks. -/
theorem exists_of_declareState {header header' : Header} {name : String} {i : Input}
    (h : declareState header name i tag = .ok header') :
    ∃ decl j, header' = { header with state := header.state ++ [decl] } ∧ decl.span = tag.span ∧
      decl.name = name ∧ i.After j ∧ Expr.parse j.offset j.rest = .ok decl.initial := by
  -- the type, if one is written, ends where the default starts
  have hread (type : Option String) (j : Input) (hj : i.After j)
      (h : (Expr.parse j.offset j.rest >>= fun initial =>
        pure { header with state := header.state ++ [⟨name, type, none, initial, tag.span⟩] }) =
          (.ok header' : Except SyntaxError Header)) :
      ∃ decl j, header' = { header with state := header.state ++ [decl] } ∧ decl.span = tag.span ∧
        decl.name = name ∧ i.After j ∧ Expr.parse j.offset j.rest = .ok decl.initial := by
    obtain ⟨e, he, h⟩ := exists_of_bind_ok h
    obtain rfl := Except.ok.inj h
    exact ⟨_, j, rfl, rfl, rfl, hj, he⟩
  unfold declareState at h
  cases hcolon : i.mark? [':'] with
  | none =>
    rw [hcolon] at h
    dsimp only at h
    cases hmark : i.mark? ['='] with
    | none =>
      rw [hmark] at h
      cases h
    | some k =>
      rw [hmark] at h
      exact hread _ _ (.mark? hmark) h
  | some j =>
    rw [hcolon] at h
    dsimp only at h
    cases hmark : (j.takeWhile (· != '=')).2.mark? ['='] with
    | none =>
      rw [hmark] at h
      cases h
    | some k =>
      rw [hmark] at h
      exact hread _ _ (((Input.After.mark? hcolon).trans (.takeWhile _ _)).trans (.mark? hmark)) h

/-- A parameter is added to the header, where no other one has its name. -/
theorem exists_of_declareParam {header header' : Header} {name : String} {doc : Option String}
    {i : Input} (h : declareParam header name i doc tag = .ok header') :
    ∃ decl, header' = { header with params := header.params ++ [decl] } ∧ decl.span = tag.span ∧
      decl.name = name ∧ ∀ p ∈ header.params, p.name ≠ name := by
  unfold declareParam at h
  split at h
  · dsimp only at h
    split at h
    · cases h
    · split at h
      · cases h
      -- the check for repetitions has let the name pass
      · next hnew =>
        obtain rfl := Except.ok.inj h
        refine ⟨_, rfl, rfl, rfl, fun p hp hname => hnew ?_⟩
        exact List.any_eq_true.mpr ⟨p, hp, beq_iff_eq.mpr hname⟩
  · cases h

/-- A declaration with the first word as its name is added to the header. Only the name of a parameter
is compared with others, and only with those of the parameters. -/
theorem declare_cases {header header' : Header} {doc : Option String} {rest : Input}
    (h : declare header doc tag rest = .ok header') :
    (∃ decl, header' = { header with params := header.params ++ [decl], afterLast := some rest } ∧
      decl.span = tag.span ∧ (∃ s i, tag.args.word "a declaration name" = .ok ((decl.name, s), i)) ∧
      ∀ p ∈ header.params, p.name ≠ decl.name) ∨
    ∃ decl j, header' = { header with state := header.state ++ [decl], afterLast := some rest } ∧
      decl.span = tag.span ∧ (∃ s i, tag.args.word "a declaration name" = .ok ((decl.name, s), i)) ∧
      tag.args.After j ∧ Expr.parse j.offset j.rest = .ok decl.initial := by
  obtain ⟨⟨⟨name, s⟩, i⟩, hword, h⟩ := exists_of_bind_ok h
  dsimp only at h
  -- `@state` first, every other header command declares a parameter
  split at h
  · obtain ⟨header₁, hheader, h⟩ := exists_of_bind_ok h
    obtain rfl := Except.ok.inj h
    obtain ⟨decl, j, rfl, hspan, rfl, hj, he⟩ := exists_of_declareState hheader
    exact .inr ⟨decl, j, rfl, hspan, ⟨s, i, hword⟩, (Input.After.word hword).trans hj, he⟩
  · obtain ⟨header₁, hheader, h⟩ := exists_of_bind_ok h
    obtain rfl := Except.ok.inj h
    obtain ⟨decl, rfl, hspan, rfl, hnew⟩ := exists_of_declareParam hheader
    exact .inl ⟨decl, rfl, hspan, ⟨s, i, hword⟩, hnew⟩

end Reading

end Markup

end TemplateFrontend
