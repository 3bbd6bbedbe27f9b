import TemplateFrontend.Proofs.Text.Lines
import TemplateFrontend.Source.Text
/-!
# Boundaries of a text

An offset into a text counts bytes, and only at some offsets does a character start or the text end. These
are the boundaries, at which the text can be cut in two.

* `Text.IsBoundary` — an offset between two characters of a text, or at either end of it;
* `Span.Fits` — a range from one boundary to another, closed under joining ranges;
* `Text.StandsAt` — a piece of a text with the offset at which it starts;
* `LineTable.point_ofText` — the line and the column of a boundary;
* `Span.Fits.exists_location` — where a range lies that fits.
-/

namespace TemplateFrontend

open Text

/-! ### Offsets -/

/-- The text can be cut at the offset. -/
def Text.IsBoundary (content : List Char) (n : Nat) : Prop :=
  ∃ before after, content = before ++ after ∧ byteLength before = n

variable {content : List Char} {n : Nat} {s t : Span}

theorem Text.IsBoundary.le (h : IsBoundary content n) : n ≤ byteLength content := by
  obtain ⟨before, after, rfl, rfl⟩ := h
  rw [byteLength_append]
  exact Nat.le_add_right _ _

/-! ### Ranges -/

/-- A range of the text that starts and stops between characters. -/
structure Span.Fits (content : List Char) (s : Span) : Prop where
  start_le_stop : s.start ≤ s.stop
  start : IsBoundary content s.start
  stop : IsBoundary content s.stop

namespace Span.Fits

theorem stop_le (h : s.Fits content) : s.stop ≤ byteLength content := h.stop.le

/-- The place right after a range. -/
theorem after (h : s.Fits content) : Span.Fits content ⟨s.stop, s.stop⟩ :=
  ⟨Nat.le_refl _, h.stop, h.stop⟩

/-- From where one range starts to where another one stops. -/
theorem through (hs : s.Fits content) (ht : t.Fits content) (h : s.start ≤ t.stop) :
    Span.Fits content ⟨s.start, t.stop⟩ :=
  ⟨h, hs.start, ht.stop⟩

theorem union (hs : s.Fits content) (ht : t.Fits content) : (s.union t).Fits content := by
  obtain ⟨hs, hstart, hstop⟩ := hs
  obtain ⟨ht, hstart', hstop'⟩ := ht
  refine ⟨?_, ?_, ?_⟩
  · dsimp only [Span.union]
    omega
  -- either end of the joined range is an end of one of the two
  · obtain h | h : (s.union t).start = s.start ∨ (s.union t).start = t.start := by
      dsimp only [Span.union]
      omega
    · rwa [h]
    · rwa [h]
  · obtain h | h : (s.union t).stop = s.stop ∨ (s.union t).stop = t.stop := by
      dsimp only [Span.union]
      omega
    · rwa [h]
    · rwa [h]

end Span.Fits

/-! ### Pieces -/

/-- The piece `cs` of the text starts at the offset `n`. -/
def Text.StandsAt (content : List Char) (n : Nat) (cs : List Char) : Prop :=
  ∃ before after, content = before ++ (cs ++ after) ∧ byteLength before = n

namespace Text.StandsAt

variable {as bs cs : List Char} {c : Char}

theorem whole (content : List Char) : StandsAt content 0 content := ⟨[], [], by simp, rfl⟩

theorem left (h : StandsAt content n (as ++ bs)) : StandsAt content n as := by
  obtain ⟨before, after, rfl, rfl⟩ := h
  exact ⟨before, bs ++ after, by simp, rfl⟩

theorem right (h : StandsAt content n (as ++ bs)) : StandsAt content (n + byteLength as) bs := by
  obtain ⟨before, after, rfl, rfl⟩ := h
  exact ⟨before ++ as, after, by simp, byteLength_append before as⟩

/-- The range of the piece. -/
theorem fits (h : StandsAt content n cs) : Span.Fits content ⟨n, n + byteLength cs⟩ := by
  obtain ⟨before, after, rfl, rfl⟩ := h
  have hstop : before ++ (cs ++ after) = (before ++ cs) ++ after := (List.append_assoc ..).symm
  exact ⟨Nat.le_add_right _ _, ⟨before, _, rfl, rfl⟩, _, after, hstop, byteLength_append before cs⟩

theorem take (h : StandsAt content n cs) (k : Nat) : StandsAt content n (cs.take k) := by
  rw [← List.take_append_drop k cs] at h
  exact h.left

theorem drop (h : StandsAt content n cs) (k : Nat) :
    StandsAt content (n + byteLength (cs.take k)) (cs.drop k) := by
  rw [← List.take_append_drop k cs] at h
  exact h.right

theorem shorten (h : StandsAt content n cs) (hfront : as <+: cs) : StandsAt content n as := by
  obtain ⟨bs, rfl⟩ := hfront
  exact h.left

end Text.StandsAt

/-! ### Points -/

/-- The line and the column at which a text stops: a line for every break, and the bytes since the last
one. -/
def Point.after (before : List Char) : Point :=
  ⟨before.count '\n' + 1, byteLength (before.rtakeWhile (· != '\n')) + 1⟩

/-- The point is the one at which the bytes of the text stop. -/
theorem Point.afterBytes_flatMap_utf8EncodeChar (before : List Char) :
    afterBytes (before.flatMap String.utf8EncodeChar) = after before := by
  induction before using List.reverseRecOn with
  | nil => rfl
  | append_singleton before c ih =>
    rw [List.flatMap_append, List.flatMap_singleton, after, List.count_append]
    -- at its end a text grows by a new line or in its last one
    by_cases hc : c = '\n'
    · subst hc
      rw [utf8EncodeChar_break, afterBytes_append_break, ih, List.rtakeWhile_concat_neg _ _ _ (by simp)]
      rfl
    · rw [afterBytes_append_of_notMem _ (mt breakByte_mem_utf8EncodeChar.mp hc), ih, String.length_utf8EncodeChar,
        List.rtakeWhile_concat_pos _ _ _ (by simpa using hc), byteLength_append, List.count_singleton,
        if_neg (by simpa using hc), Point.mk.injEq]
      dsimp only [after, byteLength_cons, byteLength_nil]
      omega

/-- **The point of a boundary** is where the text before it stops. -/
theorem LineTable.point_ofText (before after : List Char) :
    (ofText (before ++ after)).point (byteLength before) = .after before := by
  rw [ofText_eq_ofBytes, List.flatMap_append, ← length_flatMap_utf8EncodeChar, (line_ofBytes _ _).2,
    Point.afterBytes_flatMap_utf8EncodeChar]

/-- **The location of a range that fits** goes from where the text before it stops to where the range
itself does. -/
theorem Span.Fits.exists_location {source : SourceText} (h : s.Fits source.content.toList) :
    ∃ before range after, source.content.toList = before ++ range ++ after ∧
      s = ⟨byteLength before, byteLength (before ++ range)⟩ ∧
      source.location s = ⟨source.path, .after before, .after (before ++ range), some s⟩ := by
  obtain ⟨hle, ⟨before, rest, hcontent, hstart⟩, ⟨upTo, after, hcontent', hstop⟩⟩ := h
  have hbefore : before <+: source.content.toList := ⟨rest, hcontent.symm⟩
  have hupTo : upTo <+: source.content.toList := ⟨after, hcontent'.symm⟩
  -- of two texts that a text starts with, the shorter one starts the longer one
  obtain ⟨range, rfl⟩ : before <+: upTo := by
    obtain h | ⟨more, h⟩ := List.prefix_or_prefix_of_prefix hbefore hupTo
    · exact h
    · -- the text up to the stop is as long as the other, so nothing is missing from it
      rw [← h] at hstart
      have hmore : more = [] := by
        by_contra hne
        have := byteLength_pos hne
        rw [byteLength_append] at hstart
        omega
      rw [hmore, List.append_nil] at h
      exact h ▸ List.prefix_rfl
  -- the points of the location are those of the two texts
  have hstartPoint := LineTable.point_ofText before rest
  have hstopPoint := LineTable.point_ofText (before ++ range) after
  rw [← hcontent, hstart] at hstartPoint
  rw [← hcontent', hstop] at hstopPoint
  refine ⟨before, range, after, hcontent', ?_, ?_⟩
  · rw [hstart, hstop]
  · rw [SourceText.location, LineTable.location, hstartPoint, hstopPoint]

end TemplateFrontend
