import TemplateFrontend.Text.Chars
/-!
# Runs of characters

What readers of text need to know of the classes of characters and of the runs that they cut a text
into.

* `toNat_of_isNameChar` — the characters of names as numbers;
* `takeWhile_run` — a run ends where another character stands;
* `exists_trimmed` — a text cut into the blanks around it and what is between them.
-/

namespace TemplateFrontend.Text

/-! ### Classes -/

/-- The characters of names are at most one of three runs of the ASCII table, or the underscore. -/
theorem toNat_of_isNameChar {c : Char} (h : isNameChar c = true) :
    (48 ≤ c.toNat ∧ c.toNat ≤ 57) ∨ (65 ≤ c.toNat ∧ c.toNat ≤ 90) ∨ c.toNat = 95 ∨
      (97 ≤ c.toNat ∧ c.toNat ≤ 122) := by
  have hclasses : isNameChar c = (((decide (65 ≤ c.toNat ∧ c.toNat ≤ 90) ||
      (decide (97 ≤ c.toNat) && decide (c.toNat ≤ 122))) ||
      (decide (48 ≤ c.toNat) && decide (c.toNat ≤ 57))) || c == '_') := rfl
  simp only [hclasses, Bool.or_eq_true, Bool.and_eq_true, decide_eq_true_eq, beq_iff_eq] at h
  obtain ((h | h) | h) | rfl := h
  · exact .inr (.inl h)
  · exact .inr (.inr (.inr h))
  · exact .inl h
  · exact .inr (.inr (.inl rfl))

theorem isNameChar_of_isDigit {c : Char} (h : c.isDigit = true) : isNameChar c = true := by
  simp [isNameChar, Char.isAlphanum, h]

theorem isBlank_of_isNameChar {c : Char} (h : isNameChar c = true) : isBlank c = false := by
  have hc := toNat_of_isNameChar h
  simp only [isBlank, Bool.or_eq_false_iff, Bool.and_eq_false_iff, decide_eq_false_iff_not,
    beq_eq_false_iff_ne]
  omega

/-! ### Runs -/

theorem mem_takeWhile_imp {p : Char → Bool} {x : Char} {cs : List Char} (h : x ∈ cs.takeWhile p) :
    p x = true :=
  List.all_eq_true.mp List.all_takeWhile x h

/-- A run of characters of a class ends where another character stands, or nothing. -/
theorem takeWhile_run {p : Char → Bool} {run rest : List Char} (hrun : ∀ c ∈ run, p c = true)
    (hrest : ∀ c ∈ rest.head?, p c = false) :
    (run ++ rest).takeWhile p = run ∧ (run ++ rest).dropWhile p = rest := by
  rw [List.takeWhile_append_of_pos hrun, List.dropWhile_append_of_pos hrun]
  cases rest with
  | nil => exact ⟨List.append_nil run, rfl⟩
  | cons c rest =>
    have hc : ¬ p c = true := by simp [hrest c rfl]
    rw [List.takeWhile_cons_of_neg hc, List.dropWhile_cons_of_neg hc]
    exact ⟨List.append_nil run, rfl⟩

/-! ### Trimming -/

theorem trimEnd_append_blanks {bs : List Char} (hbs : ∀ b ∈ bs, isBlank b = true) (cs : List Char) :
    trimEnd (cs ++ bs) = trimEnd cs := by
  rw [trimEnd, trimEnd, List.reverse_append,
    List.dropWhile_append_of_pos fun b hb => hbs b (List.mem_reverse.mp hb)]

theorem trimEnd_of_getLast? {cs : List Char} {c : Char} (h : cs.getLast? = some c)
    (hc : isBlank c = false) : trimEnd cs = cs := by
  obtain ⟨ds, rfl⟩ := List.getLast?_eq_some_iff.mp h
  simp [trimEnd, hc]

/-- A text with a character that is not blank, cut at the first one. -/
theorem exists_trimStart {cs : List Char} (h : ¬ ∀ c ∈ cs, isBlank c = true) :
    ∃ as c rest, cs = as ++ c :: rest ∧ (∀ a ∈ as, isBlank a = true) ∧ isBlank c = false := by
  induction cs with
  | nil => exact absurd (fun _ hc => nomatch hc) h
  | cons c cs ih =>
    by_cases hc : isBlank c = true
    · obtain ⟨as, d, rest, rfl, has, hd⟩ := ih fun hcs => h (List.forall_mem_cons.mpr ⟨hc, hcs⟩)
      exact ⟨c :: as, d, rest, rfl, List.forall_mem_cons.mpr ⟨hc, has⟩, hd⟩
    · exact ⟨[], c, cs, rfl, (fun _ ha => nomatch ha), by simpa using hc⟩

/-- A text with a character that is not blank, cut into the blanks around it and the text between. -/
theorem exists_trimmed {cs : List Char} (h : ¬ ∀ c ∈ cs, isBlank c = true) :
    ∃ as core bs, cs = as ++ core ++ bs ∧ (∀ a ∈ as, isBlank a = true) ∧
      (∀ b ∈ bs, isBlank b = true) ∧ (∃ c, core.head? = some c ∧ isBlank c = false) ∧
      ∃ c, core.getLast? = some c ∧ isBlank c = false := by
  obtain ⟨as, c, rest, rfl, has, hc⟩ := exists_trimStart h
  have hrest : ¬ ∀ d ∈ (c :: rest).reverse, isBlank d = true := fun hall => by
    rw [hall c (by simp)] at hc
    cases hc
  -- the same cut from the other end
  obtain ⟨bs, d, ds, hds, hbs, hd⟩ := exists_trimStart hrest
  have hcore : c :: rest = ds.reverse ++ [d] ++ bs.reverse := by
    rw [← List.reverse_reverse (c :: rest), hds]
    simp
  refine ⟨as, ds.reverse ++ [d], bs.reverse, by rw [hcore]; simp, has,
    fun b hb => hbs b (List.mem_reverse.mp hb), ⟨c, ?_, hc⟩, d, by simp, hd⟩
  cases hrev : ds.reverse with
  | nil =>
    rw [hrev] at hcore
    -- the first character is also the last one
    obtain ⟨rfl, -⟩ := List.cons.inj hcore
    rfl
  | cons x xs =>
    rw [hrev] at hcore
    obtain ⟨rfl, -⟩ := List.cons.inj hcore
    rfl

end TemplateFrontend.Text
