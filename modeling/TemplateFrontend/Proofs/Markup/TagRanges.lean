import TemplateFrontend.Proofs.Markup.Inputs
import TemplateFrontend.Proofs.Markup.Progress
import TemplateFrontend.Proofs.Tree.Layout
/-!
# The ranges of words, settings and tags

Input is a piece of the text of a file, and stays one whatever is read off its front or left out at its
end. So the ranges of what is read from it, and of the errors, fit the text.

* `Input.PartOf` — input that is a piece of the text;
* `Input.word_yields`, `Input.settings_yields`, `Tag.read_yields` — words, settings and tags;
* `Tag.Within` — a tag whose texts stand in its own range;
* `Tag.Within.parse`, `Tag.Within.parsePrint`, `Tag.Within.parseLoop` — expressions that are read from a
  tag stand in its range.
-/

namespace TemplateFrontend

open Text

variable {content : List Char}

/-! ### Pieces of the text -/

namespace Input

/-- The input is a piece of the text of the file. -/
abbrev PartOf (content : List Char) (i : Input) : Prop := StandsAt content i.offset i.rest

variable {i j : Input}

namespace PartOf

theorem drop (h : i.PartOf content) (n : Nat) : (i.drop n).PartOf content := StandsAt.drop h n

theorem after (h : i.PartOf content) (hj : i.After j) : j.PartOf content := by
  obtain ⟨n, rfl⟩ := hj
  exact h.drop n

theorem trim (h : i.PartOf content) : i.trim.PartOf content := by
  have hi : i.skipBlanks.PartOf content := h.after (.skipBlanks i)
  exact hi.shorten (List.rdropWhile_prefix Text.isBlank i.skipBlanks.rest)

/-- The place where the input starts. -/
theorem fits_offset (h : i.PartOf content) : Span.Fits content ⟨i.offset, i.offset⟩ :=
  (StandsAt.take h 0).fits

theorem fits_spanOf (h : i.PartOf content) (n : Nat) : (i.spanOf n).Fits content :=
  (StandsAt.take h n).fits

/-- From where the input starts to where something after it does. -/
theorem fits_until (h : i.PartOf content) (hj : i.After j) :
    Span.Fits content ⟨i.offset, j.offset⟩ := by
  obtain ⟨n, rfl⟩ := hj
  exact h.fits_spanOf n

theorem fits_unexpected (h : i.PartOf content) (expected : String) :
    (i.unexpected expected).span.Fits content := by
  have hi := h.after (.skipBlanks i)
  unfold unexpected
  dsimp only
  split
  · exact hi.fits_spanOf 1
  · exact hi.fits_offset

end PartOf

/-- A word with its range, which stops where the rest starts. -/
theorem word_yields (h : i.PartOf content) (expected : String) :
    ReadsIn content (fun a => a.1.2.Fits content ∧ a.1.2.stop = a.2.offset ∧ i.After a.2)
      (i.word expected) := by
  unfold word
  dsimp only
  split
  · exact h.fits_unexpected expected
  · next n _ =>
    exact ⟨(h.after (.skipBlanks i)).fits_spanOf _, rfl, (After.skipBlanks i).trans (.drop _ _)⟩

end Input

/-! ### Settings -/

theorem Setting.read_yields {i : Input} (h : i.PartOf content) :
    ReadsIn content (fun a => a.1.span.Fits content ∧ i.After a.2) (Setting.read i) := by
  unfold Setting.read
  refine (i.word_yields h _).bind ?_
  rintro ⟨⟨name, s⟩, j⟩ - ⟨hs, hstop, hj⟩
  dsimp only at hs hstop hj ⊢
  split
  · next k hequals =>
    have hk := Input.After.mark? hequals
    split
    · next l hquote =>
      have hl := hk.trans (.mark? hquote)
      -- the range starts at the name, wherever the value stops
      have hrange {m : Input} (hm : l.After m) : Span.Fits content ⟨s.start, m.offset⟩ := by
        have hafter := hl.trans hm
        have hwhole := hs.start_le_stop
        have hle := hafter.offset_le
        exact hs.through ((h.after hj).after hafter).fits_offset (by dsimp only; omega)
      have hvalue : l.After (l.takeWhile (· != '"')).2 := .takeWhile l _
      split
      -- without a closing quote the error is at the whole setting
      · exact hrange hvalue
      · exact ⟨hrange (hvalue.trans (.drop _ 1)), (hj.trans hl).trans (hvalue.trans (.drop _ 1))⟩
    · exact ((h.after hj).after hk).fits_unexpected _
  · exact (h.after hj).fits_unexpected _

theorem Setting.readAll_yields (fuel : Nat) {i : Input} (h : i.PartOf content) :
    ReadsIn content (fun ss => ∀ s ∈ ss, s.span.Fits content) (Setting.readAll fuel i) := by
  induction fuel generalizing i with
  | zero => exact List.forall_mem_nil _
  | succ fuel ih =>
    unfold Setting.readAll
    split
    · exact List.forall_mem_nil _
    · refine (Setting.read_yields h).bind ?_
      rintro ⟨s, j⟩ - ⟨hs, hj⟩
      refine (ih (h.after hj)).bind fun more _ hmore => ?_
      exact List.forall_mem_cons.mpr ⟨hs, hmore⟩

theorem Input.settings_yields {i : Input} (h : i.PartOf content) :
    ReadsIn content (fun ss => ∀ s ∈ ss, s.span.Fits content) i.settings :=
  Setting.readAll_yields _ h

/-! ### Tags -/

/-- The tag takes up a range of the text, in which its own text and that of its arguments stand. -/
structure Tag.Within (content : List Char) (t : Tag) : Prop where
  fits : t.span.Fits content
  args : t.args.PartOf content
  whole : t.content.PartOf content
  between : t.Between t.span.start t.span.stop

theorem Tag.partOf_ofBody {body : Input} (h : body.PartOf content) (s : Span) :
    (Tag.ofBody body s).args.PartOf content ∧ (Tag.ofBody body s).content.PartOf content := by
  have hcontent : (Tag.ofBody body s).content.PartOf content := by
    unfold Tag.ofBody
    dsimp only
    split
    · -- the slash of a tag without content and the blanks before it are left out
      have hbefore := (List.rdropWhile_prefix isBlank body.trim.rest.dropLast).trans
        (List.dropLast_prefix body.trim.rest)
      exact StandsAt.shorten h.trim hbefore
    · exact h.trim
  exact ⟨(hcontent.after (.takeWhile _ _)).trim, hcontent⟩

/-- **A tag** takes up the range that is read for it. -/
theorem Tag.read_yields {i : Input} (h : i.PartOf content) :
    ReadsIn content
      (fun a => a.1.Within content ∧ a.1.span = ⟨i.offset, a.2.offset⟩ ∧ i.After a.2) (Tag.read i) := by
  cases hread : Tag.read i with
  -- a tag that does not end is an error at its brace
  | error e =>
    unfold Tag.read at hread
    split at hread
    · obtain rfl := Except.error.inj hread
      exact h.fits_spanOf 1
    · cases hread
  | ok a =>
    obtain ⟨tag, rest⟩ := a
    have hbetween := Tag.between_of_read hread
    obtain ⟨body, rfl, rfl, more, hmore⟩ := Markup.exists_of_read hread
    -- what stands between the braces is a part of the text behind the open one
    have hfront : body <+: (i.drop 1).rest := by
      rw [Input.drop, List.drop_one, hmore]
      exact List.prefix_append _ _
    have hbody : Input.PartOf content ⟨(i.drop 1).offset, body⟩ := (h.drop 1).shorten hfront
    obtain ⟨hargs, hcontent⟩ := Tag.partOf_ofBody hbody ⟨i.offset, (i.drop (body.length + 2)).offset⟩
    exact ⟨⟨h.fits_until (.drop i _), hargs, hcontent, hbetween⟩, rfl, .drop i _⟩

/-! ### Expressions of a tag -/

namespace Tag.Within

variable {t : Tag} {i : Input}

/-- An expression that is read from the arguments, or from what is left of them. -/
theorem parse (h : t.Within content) (nodes : Array Node) (hi : t.args.After i) :
    ReadsIn content (fun e => Extent.InOrder nodes content t.span.start t.span.stop [e.extent])
      (Expr.parse i.offset i.rest) := by
  have hbetween := h.between.args.after hi
  refine (Expr.parse_yields (h.args.after hi)).mono fun e he hfits => ?_
  have horder := (Expr.inOrder_of_parse he).mono hbetween.le_offset hbetween.stop_le
  exact Expr.inOrder_extents horder (List.forall_mem_singleton.mpr hfits)

theorem parseLoop (h : t.Within content) (nodes : Array Node) :
    ReadsIn content (fun a => Extent.InOrder nodes content t.span.start t.span.stop [a.2.extent])
      (Expr.parseLoop t.args.offset t.args.rest) := by
  have hbetween := h.between.args
  refine (Expr.parseLoop_yields h.args).mono fun a ha hfits => ?_
  have horder := (Expr.inOrder_of_parseLoop ha).mono hbetween.le_offset hbetween.stop_le
  exact Expr.inOrder_extents horder (List.forall_mem_singleton.mpr hfits)

/-- A print is read from the arguments or from the whole text of its tag. -/
theorem parsePrint (nodes : Array Node) (hi : i.PartOf content)
    (hbetween : i.Between t.span.start t.span.stop) :
    ReadsIn content (fun a => Extent.InOrder nodes content t.span.start t.span.stop
        (a.1.extent :: a.2.map Directive.extent))
      (Expr.parsePrint i.offset i.rest) := by
  refine (Expr.parsePrint_yields hi).mono ?_
  rintro ⟨e, ds⟩ hread ⟨he, hds⟩
  -- the expression ends before the directives start
  obtain ⟨mid, hbefore, hafter⟩ := Expr.exists_of_parsePrint hread
  have hfirst : Extent.InOrder nodes content i.offset mid [e.extent] :=
    Expr.inOrder_extents hbefore (List.forall_mem_singleton.mpr he)
  exact (hfirst.append (Directive.inOrder_extents hafter hds)).mono hbetween.le_offset hbetween.stop_le

end Tag.Within

end TemplateFrontend
