import Mathlib.Data.List.DropRight
import TemplateFrontend.Source.Position
import TemplateFrontend.Text.Chars
/-!
# The lines of a text

A point is looked up: a search among the offsets at which lines start gives the line, and the distance from the
start of that line gives the column. The same point can be counted from the bytes before the offset, with a line for
every break among them and a column for every byte since the last one, and both ways agree at every offset, also
inside of a character.

* `SearchResult.Answers` — what a search tells of a number among ascending ones, which leaves one result only
  (`SearchResult.Answers.unique`);
* `Text.breakEnds` — the offsets right after the breaks among some bytes;
* `Point.afterBytes` — the point at which some bytes stop, which moves on with every byte
  (`Point.precedes_afterBytes`);
* `LineTable.line_ofBytes` — the point that is looked up is the one that is counted;
* `LineTable.points_exact` — the points of a text.
-/

namespace TemplateFrontend

open Text

/-! ### Searching -/

/-- What the result of a search says about the number `n` and the ascending numbers `ns`: it stands at the index
found, or it lies above those before the index and below those from it on. -/
def SearchResult.Answers (ns : List Nat) (n : Nat) : SearchResult → Prop
  | .found i => ns[i]? = some n
  | .missing i => i ≤ ns.length ∧ (∀ m ∈ ns.take i, m < n) ∧ ∀ m ∈ ns.drop i, n < m

namespace SearchResult

variable {ns : List Nat} {m n i j : Nat} {r r' : SearchResult}

/-- A number before some place is one of those before it. -/
theorem mem_take_of_getElem? (h : ns[i]? = some m) (hij : i < j) : m ∈ ns.take j :=
  List.mem_of_getElem? ((List.getElem?_take_of_lt hij).trans h)

/-- A number at or behind some place is one of those that are left there. -/
theorem mem_drop_of_getElem? (h : ns[i]? = some m) (hji : j ≤ i) : m ∈ ns.drop j := by
  refine List.mem_of_getElem? (i := i - j) ?_
  rwa [List.getElem?_drop, Nat.add_sub_cancel' hji]

/-- A number that is found is not missing. -/
theorem Answers.not_missing (h : (found i).Answers ns n) : ¬ (missing j).Answers ns n := by
  rintro ⟨-, hbelow, habove⟩
  obtain hij | hji := Nat.lt_or_ge i j
  · exact Nat.lt_irrefl n (hbelow n (mem_take_of_getElem? h hij))
  · exact Nat.lt_irrefl n (habove n (mem_drop_of_getElem? h hji))

/-- Of two places for a missing number neither is behind the other. -/
theorem Answers.missing_le (h : (missing i).Answers ns n) (h' : (missing j).Answers ns n) : j ≤ i := by
  by_contra hlt
  obtain ⟨m, hm⟩ : ∃ m, ns[i]? = some m := by
    have := h'.1
    exact ⟨_, List.getElem?_eq_getElem (by omega)⟩
  -- the number at the smaller index would be above `n` and below it
  have habove := h.2.2 m (mem_drop_of_getElem? hm (Nat.le_refl i))
  have hbelow := h'.2.1 m (mem_take_of_getElem? hm (by omega))
  omega

/-- A number stands in one place only, as the numbers ascend. -/
theorem Answers.found_le (hasc : ns.Pairwise (· < ·)) (h : (found i).Answers ns n) (h' : (found j).Answers ns n) :
    j ≤ i := by
  by_contra hlt
  obtain ⟨hi, hni⟩ := List.getElem?_eq_some_iff.mp h
  obtain ⟨hj, hnj⟩ := List.getElem?_eq_some_iff.mp h'
  have := List.pairwise_iff_getElem.mp hasc i j hi hj (by omega)
  omega

/-- **A search has one result.** -/
theorem Answers.unique (hasc : ns.Pairwise (· < ·)) (h : r.Answers ns n) (h' : r'.Answers ns n) : r = r' := by
  cases r with
  | found i =>
    cases r' with
    | found j => exact congrArg found (Nat.le_antisymm (found_le hasc h' h) (found_le hasc h h'))
    | missing j => exact absurd h' h.not_missing
  | missing i =>
    cases r' with
    | found j => exact absurd h h'.not_missing
    | missing j => exact congrArg missing (Nat.le_antisymm (missing_le h' h) (missing_le h h'))

end SearchResult

namespace LineTable

/-- What a search gives says the truth about the number. -/
theorem search_answers {ns : List Nat} (hasc : ns.Pairwise (· < ·)) (n : Nat) : (search ns n).Answers ns n := by
  have hsplit : ns.takeWhile (· < n) ++ ns.dropWhile (· < n) = ns := List.takeWhile_append_dropWhile
  have htake : ns.take (ns.takeWhile (· < n)).length = ns.takeWhile (· < n) :=
    (List.prefix_iff_eq_take.mp (List.takeWhile_prefix _)).symm
  have hdrop : ns.drop (ns.takeWhile (· < n)).length = ns.dropWhile (· < n) := by
    nth_rewrite 2 [← hsplit]
    exact List.drop_left
  unfold search
  dsimp only
  split
  -- found: the number stands at the place that was counted
  · next hfound => exact hfound
  · next hmissing =>
    refine ⟨(List.takeWhile_prefix _).length_le, ?_, ?_⟩
    -- those before the place found are below `n`
    · rw [htake]
      intro m hm
      simpa using List.mem_takeWhile_imp hm
    · rw [← List.head?_drop] at hmissing
      rw [hdrop] at hmissing ⊢
      have hrest : (ns.dropWhile (· < n)).Pairwise (· < ·) := hasc.sublist (List.dropWhile_sublist _)
      have hfirst := List.head?_dropWhile_not (· < n) ns
      -- the first number that is not below `n` is above it, and the others are above that one
      cases hcons : ns.dropWhile (· < n) with
      | nil => simp
      | cons m ms =>
        rw [hcons] at hmissing hrest hfirst
        have hm : n < m := by
          have hne : m ≠ n := fun h => hmissing (congrArg some h)
          have hle : n ≤ m := by simpa using hfirst
          omega
        rw [List.forall_mem_cons]
        exact ⟨hm, fun k hk => hm.trans (List.rel_of_pairwise_cons hrest hk)⟩

/-- **What a search gives** is told by what its result says. -/
theorem answers_iff_eq_search {ns : List Nat} (hasc : ns.Pairwise (· < ·)) {n : Nat} {r : SearchResult} :
    r.Answers ns n ↔ r = search ns n := by
  constructor
  · intro h
    exact h.unique hasc (search_answers hasc n)
  · rintro rfl
    exact search_answers hasc n

variable {t : LineTable} {low high : List Nat} {start n : Nat}

/-- **The line of an offset** is the last one that does not start after it, whether the offset is found among the
starts or missing there. -/
theorem line_eq (hstarts : t.starts = low ++ start :: high) (hasc : t.starts.Pairwise (· < ·)) (hstart : start ≤ n)
    (hhigh : ∀ m ∈ high, n < m) : t.line n = low.length := by
  obtain rfl | hlt := Nat.eq_or_lt_of_le hstart
  -- the offset is the start of the line
  · have hfound : (SearchResult.found low.length).Answers t.starts start := by
      rw [hstarts, SearchResult.Answers, List.getElem?_append_right (Nat.le_refl _), Nat.sub_self]
      rfl
    rw [line, ← (answers_iff_eq_search hasc).mp hfound]
  -- the offset is inside the line, and would have to be put in behind its start
  · have hmissing : (SearchResult.missing (low.length + 1)).Answers t.starts n := by
      have hlength : low.length + 1 = (low ++ [start]).length := by simp
      rw [hstarts, List.append_cons, List.pairwise_append, List.pairwise_append] at hasc
      rw [hstarts, List.append_cons, hlength]
      refine ⟨(List.prefix_append _ _).length_le, ?_, ?_⟩
      · rw [List.take_left]
        intro m hm
        obtain hm | hm := List.mem_append.mp hm
        · exact (hasc.1.2.2 m hm start (List.mem_singleton_self _)).trans hlt
        · exact List.mem_singleton.mp hm ▸ hlt
      · rwa [List.drop_left]
    rw [line, ← (answers_iff_eq_search hasc).mp hmissing]
    rfl

end LineTable

/-! ### Breaks among bytes -/

/-- The byte that ends a line. -/
def Text.breakByte : UInt8 := '\n'.toUInt8

/-- The offsets right after the breaks among some bytes, the first of which stands at `offset`. -/
def Text.breakEnds (offset : Nat) (bytes : List UInt8) : List Nat :=
  ((bytes.zipIdx offset).filter (·.1 == breakByte)).map (·.2 + 1)

namespace Text

variable {offset n : Nat} {bytes : List UInt8}

/-- Breaks of two runs of bytes, the second of which is further on. -/
theorem breakEnds_append (offset : Nat) (as bs : List UInt8) :
    breakEnds offset (as ++ bs) = breakEnds offset as ++ breakEnds (offset + as.length) bs := by
  simp only [breakEnds, List.zipIdx_append, List.filter_append, List.map_append]

theorem breakEnds_singleton (offset : Nat) : breakEnds offset [breakByte] = [offset + 1] := rfl

/-- Without a break no line ends. -/
theorem breakEnds_of_notMem (h : breakByte ∉ bytes) : breakEnds offset bytes = [] := by
  rw [breakEnds, List.map_eq_nil_iff, List.filter_eq_nil_iff]
  rintro ⟨b, i⟩ hmem hb
  exact h (eq_of_beq hb ▸ List.fst_mem_of_mem_zipIdx hmem)

/-- A line ends behind the first byte, and with the last one at most. -/
theorem lt_of_mem_breakEnds (h : n ∈ breakEnds offset bytes) : offset < n ∧ n ≤ offset + bytes.length := by
  obtain ⟨⟨b, i⟩, hmem, rfl⟩ := List.mem_map.mp h
  obtain ⟨hmem, -⟩ := List.mem_filter.mp hmem
  have hle := List.le_snd_of_mem_zipIdx hmem
  have hlt := List.snd_lt_add_of_mem_zipIdx hmem
  dsimp only at hle hlt ⊢
  omega

/-- Lines end one after the other. -/
theorem pairwise_breakEnds (offset : Nat) (bytes : List UInt8) : (breakEnds offset bytes).Pairwise (· < ·) := by
  induction bytes generalizing offset with
  | nil => exact .nil
  | cons b bytes ih =>
    rw [← List.singleton_append, breakEnds_append, List.pairwise_append]
    have hfirst : (breakEnds offset [b]).Pairwise (· < ·) := by
      cases hb : b == breakByte <;> simp [breakEnds, hb]
    refine ⟨hfirst, ih _, ?_⟩
    intro m hm n hn
    exact (lt_of_mem_breakEnds hm).2.trans_lt (lt_of_mem_breakEnds hn).1

/-- A break is a byte of its own, and no byte of another character is one. -/
theorem breakByte_mem_utf8EncodeChar {c : Char} : breakByte ∈ String.utf8EncodeChar c ↔ c = '\n' := by
  have hbyte (k : Nat) : breakByte = UInt8.ofNat k ↔ k % 256 = 10 := by
    rw [← UInt8.toNat_inj, UInt8.toNat_ofNat', eq_comm]
    rfl
  constructor
  · intro hmem
    unfold String.utf8EncodeChar at hmem
    dsimp only at hmem
    -- the bytes of a longer form are all above those of the characters that take one byte
    split_ifs at hmem <;> simp only [List.mem_cons, List.not_mem_nil, or_false, hbyte] at hmem
    · have hcode : c.val.toNat = 10 := by omega
      exact Char.ext (UInt32.toNat_inj.mp hcode)
    all_goals omega
  · rintro rfl
    decide

theorem utf8EncodeChar_break : String.utf8EncodeChar '\n' = [breakByte] := rfl

/-- The lines of a text start right after the breaks among its bytes. -/
theorem startsFrom_eq_breakEnds (offset : Nat) (cs : List Char) :
    LineTable.startsFrom offset cs = breakEnds offset (cs.flatMap String.utf8EncodeChar) := by
  induction cs generalizing offset with
  | nil => rfl
  | cons c cs ih =>
    rw [List.flatMap_cons, breakEnds_append, String.length_utf8EncodeChar, ← ih, LineTable.startsFrom]
    split
    · next hc =>
      rw [hc, utf8EncodeChar_break, breakEnds_singleton]
      rfl
    · next hc =>
      rw [breakEnds_of_notMem (mt breakByte_mem_utf8EncodeChar.mp hc), List.nil_append]

/-- The characters have as many bytes as they are counted to have. -/
theorem length_flatMap_utf8EncodeChar (cs : List Char) :
    (cs.flatMap String.utf8EncodeChar).length = byteLength cs := by
  induction cs with
  | nil => rfl
  | cons c cs ih => rw [List.flatMap_cons, List.length_append, String.length_utf8EncodeChar, ih, byteLength_cons]

/-- The bytes of a text are those of its characters, one after the other. -/
theorem toList_toUTF8 (text : String) : text.toUTF8.data.toList = text.toList.flatMap String.utf8EncodeChar := by
  rw [String.toUTF8, ← String.utf8Encode_toList, List.utf8Encode, List.toList_data_toByteArray]

end Text

/-! ### Points among bytes -/

namespace Point

/-- The line and the column at which some bytes stop: a line for every break, and the bytes since the last one. -/
def afterBytes (before : List UInt8) : Point :=
  ⟨before.count breakByte + 1, (before.rtakeWhile (· != breakByte)).length + 1⟩

/-- Lines are compared first, then columns. -/
def Precedes (p q : Point) : Prop := p.line < q.line ∨ p.line = q.line ∧ p.column < q.column

/-- A point before another one is before all that this one is before. -/
theorem Precedes.trans {p q r : Point} (h : p.Precedes q) (h' : q.Precedes r) : p.Precedes r := by
  unfold Precedes at *
  omega

/-- No point is before itself. -/
theorem Precedes.ne {p q : Point} (h : p.Precedes q) : p ≠ q := by
  rintro rfl
  unfold Precedes at h
  omega

variable {bs : List UInt8}

/-- A break starts a line. -/
theorem afterBytes_append_break (as : List UInt8) :
    afterBytes (as ++ [breakByte]) = ⟨(afterBytes as).line + 1, 1⟩ := by
  rw [afterBytes, List.count_append, List.rtakeWhile_concat_neg _ _ _ (by simp)]
  rfl

/-- Any other byte stays in its line. -/
theorem afterBytes_append_of_ne (as : List UInt8) {b : UInt8} (hb : b ≠ breakByte) :
    afterBytes (as ++ [b]) = ⟨(afterBytes as).line, (afterBytes as).column + 1⟩ := by
  rw [afterBytes, List.rtakeWhile_concat_pos _ _ _ (by simpa using hb), List.length_append, List.count_append,
    List.count_singleton, if_neg (by simpa using hb)]
  rfl

/-- Bytes without a break stay in the line, a column each. -/
theorem afterBytes_append_of_notMem (as : List UInt8) (h : breakByte ∉ bs) :
    afterBytes (as ++ bs) = ⟨(afterBytes as).line, (afterBytes as).column + bs.length⟩ := by
  induction bs using List.reverseRecOn with
  | nil =>
    rw [List.append_nil]
    rfl
  | append_singleton bs b ih =>
    rw [List.mem_append, not_or, List.mem_singleton] at h
    rw [← List.append_assoc, afterBytes_append_of_ne _ (Ne.symm h.2), ih h.1, List.length_append]
    rfl

/-- **One more byte** moves the point on. -/
theorem precedes_afterBytes_concat (as : List UInt8) (b : UInt8) :
    (afterBytes as).Precedes (afterBytes (as ++ [b])) := by
  by_cases hb : b = breakByte
  · rw [hb, afterBytes_append_break]
    exact .inl (Nat.lt_succ_self _)
  · rw [afterBytes_append_of_ne as hb]
    exact .inr ⟨rfl, Nat.lt_succ_self _⟩

/-- **More bytes** move the point on. -/
theorem precedes_afterBytes (as : List UInt8) (h : bs ≠ []) : (afterBytes as).Precedes (afterBytes (as ++ bs)) := by
  induction bs using List.reverseRecOn with
  | nil => exact absurd rfl h
  | append_singleton bs b ih =>
    have hstep := precedes_afterBytes_concat (as ++ bs) b
    rw [List.append_assoc] at hstep
    by_cases hbs : bs = []
    · subst hbs
      rwa [List.append_nil] at hstep
    · exact (ih hbs).trans hstep

/-- Each byte counts for a line or for a column. -/
theorem line_add_column_afterBytes_le (bytes : List UInt8) :
    (afterBytes bytes).line + (afterBytes bytes).column ≤ bytes.length + 2 := by
  induction bytes using List.reverseRecOn with
  | nil => exact Nat.le_refl _
  | append_singleton bytes b ih =>
    rw [List.length_append, List.length_singleton]
    -- a break adds a line and takes back columns, any other byte adds a column
    by_cases hb : b = breakByte
    · have hcolumn : 1 ≤ (afterBytes bytes).column := Nat.le_add_left _ _
      rw [hb, afterBytes_append_break]
      dsimp only
      omega
    · rw [afterBytes_append_of_ne bytes hb]
      dsimp only
      omega

end Point

namespace LineTable

/-- The table of some bytes. -/
def ofBytes (bytes : List UInt8) : LineTable := ⟨0 :: breakEnds 0 bytes⟩

/-- The table of a text is that of its bytes. -/
theorem ofText_eq_ofBytes (cs : List Char) : ofText cs = ofBytes (cs.flatMap String.utf8EncodeChar) := by
  rw [ofText, ofBytes, startsFrom_eq_breakEnds]

/-- The starts of lines ascend. -/
theorem pairwise_starts_ofBytes (bytes : List UInt8) : (ofBytes bytes).starts.Pairwise (· < ·) :=
  .cons (fun _ h => (lt_of_mem_breakEnds h).1) (pairwise_breakEnds 0 bytes)

/-- More bytes add the lines that start in them. -/
theorem starts_ofBytes_append (as bs : List UInt8) :
    (ofBytes (as ++ bs)).starts = (ofBytes as).starts ++ breakEnds as.length bs := by
  rw [ofBytes, ofBytes, breakEnds_append, Nat.zero_add, List.cons_append]

/-- The last line that starts among some bytes is the one they stop in. -/
theorem exists_starts_ofBytes (bytes : List UInt8) :
    ∃ low start, (ofBytes bytes).starts = low ++ [start] ∧ start ≤ bytes.length ∧
      Point.afterBytes bytes = ⟨low.length + 1, bytes.length - start + 1⟩ := by
  induction bytes using List.reverseRecOn with
  | nil => exact ⟨[], 0, rfl, Nat.le_refl _, rfl⟩
  | append_singleton bytes b ih =>
    obtain ⟨low, start, hstarts, hle, hafter⟩ := ih
    by_cases hb : b = breakByte
    · -- a line starts at the very end
      subst hb
      refine ⟨low ++ [start], bytes.length + 1, ?_, ?_, ?_⟩
      · rw [starts_ofBytes_append, hstarts, breakEnds_singleton]
      · rw [List.length_append, List.length_singleton]
      · rw [Point.afterBytes_append_break, hafter]
        simp
    · -- the last line goes on
      refine ⟨low, start, ?_, ?_, ?_⟩
      -- no line starts behind this byte, and the column is one more
      · rw [starts_ofBytes_append, hstarts, breakEnds_of_notMem (by simpa using Ne.symm hb), List.append_nil]
      · rw [List.length_append]
        omega
      · rw [Point.afterBytes_append_of_ne bytes hb, hafter, List.length_append, List.length_singleton, Point.mk.injEq]
        dsimp only
        omega

/-- The line that is looked up starts at or before the offset, and the point is the one that is counted. -/
theorem line_ofBytes (as bs : List UInt8) :
    let table := ofBytes (as ++ bs)
    table.lineStart (table.line as.length) ≤ as.length ∧ table.point as.length = .afterBytes as := by
  intro table
  obtain ⟨low, start, hstarts, hle, hafter⟩ := exists_starts_ofBytes as
  -- the starts up to here, and those of lines further on
  have htable : table.starts = low ++ start :: breakEnds as.length bs := by
    rw [starts_ofBytes_append, hstarts, List.append_assoc, List.singleton_append]
  -- the search ends at the last start that is not behind the offset
  have hline : table.line as.length = low.length :=
    line_eq htable (pairwise_starts_ofBytes _) hle fun _ h => (lt_of_mem_breakEnds h).1
  have hstart : table.lineStart low.length = start := by
    rw [lineStart, htable, List.getD_eq_getElem?_getD, List.getElem?_append_right (Nat.le_refl _), Nat.sub_self]
    rfl
  rw [point, hline, hstart, hafter]
  exact ⟨hle, rfl⟩

/-- Only the start of the first line could be put in before the first line, and it is there. -/
theorem search_ofBytes_ne (bytes : List UInt8) (n : Nat) : search (ofBytes bytes).starts n ≠ .missing 0 := by
  intro hmissing
  obtain ⟨-, -, habove⟩ := (answers_iff_eq_search (pairwise_starts_ofBytes bytes)).mpr hmissing.symm
  exact Nat.not_lt_zero n (habove 0 List.mem_cons_self)

/-! ### Points of a text -/

/-- The bytes of a text before an offset. -/
theorem length_take_toUTF8 {text : String} {n : Nat} (hn : n ≤ text.utf8ByteSize) :
    (text.toUTF8.data.toList.take n).length = n :=
  List.length_take_of_le hn

/-- At an offset of a text, the line starts there or before it, and the point is counted up to it. -/
theorem line_ofText {text : String} {n : Nat} (hn : n ≤ text.utf8ByteSize) :
    let table := ofText text.toList
    table.lineStart (table.line n) ≤ n ∧ table.point n = .afterBytes (text.toUTF8.data.toList.take n) := by
  have h := line_ofBytes (text.toUTF8.data.toList.take n) (text.toUTF8.data.toList.drop n)
  rwa [List.take_append_drop, length_take_toUTF8 hn, toList_toUTF8, ← ofText_eq_ofBytes, ← toList_toUTF8] at h

/-- **A later offset has a later point.** -/
theorem precedes_point {text : String} {m n : Nat} (hmn : m < n) (hn : n ≤ text.utf8ByteSize) :
    ((ofText text.toList).point m).Precedes ((ofText text.toList).point n) := by
  -- the bytes before the later offset are those before the earlier one and at least one more
  have hsplit := List.take_append_drop m (text.toUTF8.data.toList.take n)
  rw [List.take_take, Nat.min_eq_left hmn.le] at hsplit
  rw [(line_ofText (hmn.le.trans hn)).2, (line_ofText hn).2, ← hsplit]
  refine Point.precedes_afterBytes _ (List.ne_nil_of_length_pos ?_)
  rw [List.length_drop, length_take_toUTF8 hn]
  exact Nat.sub_pos_of_lt hmn

/-- Neither number of a point is larger than the offset counted from one. -/
theorem point_le {text : String} {n : Nat} (hn : n ≤ text.utf8ByteSize) :
    ((ofText text.toList).point n).line ≤ n + 1 ∧ ((ofText text.toList).point n).column ≤ n + 1 := by
  have hsum := Point.line_add_column_afterBytes_le (text.toUTF8.data.toList.take n)
  rw [← (line_ofText hn).2, length_take_toUTF8 hn] at hsum
  have hline : 1 ≤ ((ofText text.toList).point n).line := Nat.le_add_left _ _
  have hcolumn : 1 ≤ ((ofText text.toList).point n).column := Nat.le_add_left _ _
  omega

/-- **The points of a text are exact.** At every offset, the line is counted by the breaks before it and the column by
the bytes since the last break. On the way, any search that tells what it has to has the same result. Nothing below
zero is met: no line could be put in before the first one, and the line that is looked up does not start after the
offset. Both numbers fit 32 bits if the bytes before the offset can be counted from one in them. A later offset has a
later point, so no two offsets share one. -/
theorem points_exact (text : String) :
    let table := ofText text.toList
    (∀ n ≤ text.utf8ByteSize,
      let before := text.toUTF8.data.toList.take n
      table.point n = ⟨before.count breakByte + 1, (before.rtakeWhile (· != breakByte)).length + 1⟩ ∧
        (∀ r : SearchResult, r.Answers table.starts n ↔ r = search table.starts n) ∧
        search table.starts n ≠ .missing 0 ∧ table.lineStart (table.line n) ≤ n ∧
        (n + 1 < UInt32.size → (table.point n).line < UInt32.size ∧ (table.point n).column < UInt32.size)) ∧
      (∀ m n, m < n → n ≤ text.utf8ByteSize → (table.point m).Precedes (table.point n)) ∧
      ∀ m n, m ≤ text.utf8ByteSize → n ≤ text.utf8ByteSize → table.point m = table.point n → m = n := by
  intro table
  have htable : table = ofBytes (text.toList.flatMap String.utf8EncodeChar) := ofText_eq_ofBytes text.toList
  refine ⟨?_, fun m n => precedes_point, ?_⟩
  · intro n hn
    refine ⟨(line_ofText hn).2, ?_, ?_, (line_ofText hn).1, ?_⟩
    -- the starts ascend, so the search has one answer
    · rw [htable]
      exact fun r => answers_iff_eq_search (pairwise_starts_ofBytes _)
    · rw [htable]
      exact search_ofBytes_ne _ n
    · intro hsize
      obtain ⟨hline, hcolumn⟩ := point_le hn
      exact ⟨hline.trans_lt hsize, hcolumn.trans_lt hsize⟩
  · intro m n hm hn hpoint
    -- of two different offsets one is the later one, and has the later point
    obtain h | rfl | h := Nat.lt_trichotomy m n
    · exact absurd hpoint (precedes_point h hn).ne
    · rfl
    · exact absurd hpoint.symm (precedes_point h hm).ne

/-- A break is still in the line that it ends, and an offset may lie inside of a character. -/
example : [0, 2, 3, 4, 5].map (ofText "ab\nö".toList).point = [⟨1, 1⟩, ⟨1, 3⟩, ⟨2, 1⟩, ⟨2, 2⟩, ⟨2, 3⟩] := by
  decide

end LineTable

end TemplateFrontend
