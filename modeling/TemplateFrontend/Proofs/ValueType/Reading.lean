import TemplateFrontend.Proofs.Readers
import TemplateFrontend.Proofs.Text.Runs
import TemplateFrontend.ValueType.Reader
/-!
# Which type expressions denote which types

A type is written as a row of words and marks, and blanks may stand around each of them. The reader finds the
type of every text that is written like this, and of no other.

* `ValueType.Writes` — the rows of words and marks that write a type;
* `Text.Spaced` — such a row at the front of a text, with blanks before each of its items;
* `TypeRegistry.readType_of_spaced` — what is written at the front of a text is read, by induction on how it
  is written;
* `TypeRegistry.spaced_of_readType` — what is read at the front of a text is written there, by induction on
  the depth of the reading;
* `TypeRegistry.resolve_text` — the written form of a type denotes that type;
* `TypeRegistry.resolve_spelled` — a text denotes a type if and only if it spells it.
-/

namespace TemplateFrontend

open Text TypeRegistry

/-! ### Words and marks -/

namespace Text

/-- The text starts with the words, blanks before each of them, and goes on with `rest`. -/
def Spaced : (words : List String) → (cs rest : List Char) → Prop
  | [], cs, rest => cs = rest
  | w :: ws, cs, rest => ∃ blanks mid, (∀ b ∈ blanks, isBlank b = true) ∧
      cs = blanks ++ (w.toList ++ mid) ∧ Spaced ws mid rest

section Spaced

variable {w : String} {ws us : List String} {cs rest : List Char}

/-- One word stands behind blanks. -/
theorem spaced_singleton : Spaced [w] cs rest ↔
    ∃ blanks, (∀ b ∈ blanks, isBlank b = true) ∧ cs = blanks ++ (w.toList ++ rest) := by
  constructor
  · rintro ⟨blanks, mid, hblanks, hcs, rfl⟩
    exact ⟨blanks, hblanks, hcs⟩
  · rintro ⟨blanks, hblanks, hcs⟩
    exact ⟨blanks, rest, hblanks, hcs, rfl⟩

/-- A row in two parts stands part by part. -/
theorem spaced_append :
    Spaced (ws ++ us) cs rest ↔ ∃ mid, Spaced ws cs mid ∧ Spaced us mid rest := by
  induction ws generalizing cs with
  | nil => exact ⟨fun h => ⟨cs, rfl, h⟩, fun ⟨_, heq, h⟩ => heq ▸ h⟩
  | cons w ws ih =>
    constructor
    · rintro ⟨blanks, mid, hblanks, hcs, h⟩
      obtain ⟨last, hws, hus⟩ := ih.mp h
      exact ⟨last, ⟨blanks, mid, hblanks, hcs, hws⟩, hus⟩
    · rintro ⟨last, ⟨blanks, mid, hblanks, hcs, hws⟩, hus⟩
      exact ⟨blanks, mid, hblanks, hcs, ih.mpr ⟨last, hws, hus⟩⟩

/-- The first word of a row, and then the others. -/
theorem spaced_cons :
    Spaced (w :: ws) cs rest ↔ ∃ mid, Spaced [w] cs mid ∧ Spaced ws mid rest := by
  rw [← spaced_append, List.singleton_append]

/-- Words without any blanks. -/
theorem spaced_words (ws : List String) (rest : List Char) :
    Spaced ws (ws.flatMap String.toList ++ rest) rest := by
  induction ws with
  | nil => rfl
  | cons w ws ih =>
    refine ⟨[], ws.flatMap String.toList ++ rest, List.forall_mem_nil _, ?_, ih⟩
    rw [List.flatMap_cons, List.append_assoc, List.nil_append]

/-- More blanks in front of the first word. -/
theorem Spaced.append_blanks (blanks : List Char) (hblanks : ∀ b ∈ blanks, isBlank b = true)
    (hne : ws ≠ []) (h : Spaced ws cs rest) : Spaced ws (blanks ++ cs) rest := by
  obtain ⟨w, ws, rfl⟩ := List.exists_cons_of_ne_nil hne
  obtain ⟨bs, mid, hbs, rfl, h⟩ := h
  refine ⟨blanks ++ bs, mid, fun b hb => ?_, (List.append_assoc ..).symm, h⟩
  exact (List.mem_append.mp hb).elim (hblanks b) (hbs b)

/-- A row has no more words than the text has characters, if no word is empty. -/
theorem Spaced.length_le (hne : ∀ w ∈ ws, w ≠ "") (h : Spaced ws cs rest) :
    ws.length + rest.length ≤ cs.length := by
  induction ws generalizing cs with
  | nil =>
    obtain rfl : cs = rest := h
    exact Nat.le_of_eq (Nat.zero_add _)
  | cons w ws ih =>
    obtain ⟨blanks, mid, -, rfl, h⟩ := h
    obtain ⟨hw, hws⟩ := List.forall_mem_cons.mp hne
    -- a word has a character at least
    have hpos : 0 < w.toList.length := by
      rw [List.length_pos_iff]
      exact fun hnil => hw (String.toList_eq_nil_iff.mp hnil)
    have hmid := ih hws h
    rw [List.length_cons, List.length_append, List.length_append]
    omega

/-- Blanks in front are trimmed, however many. -/
theorem trimStart_append_blanks {blanks : List Char} (hblanks : ∀ b ∈ blanks, isBlank b = true)
    (cs : List Char) : trimStart (blanks ++ cs) = trimStart cs :=
  List.dropWhile_append_of_pos hblanks

/-- A text is its leading blanks with what is left without them. -/
theorem exists_blanks_trimStart (cs : List Char) :
    ∃ blanks, (∀ b ∈ blanks, isBlank b = true) ∧ cs = blanks ++ trimStart cs :=
  ⟨cs.takeWhile isBlank, fun _ hb => mem_takeWhile_imp hb, List.takeWhile_append_dropWhile.symm⟩

end Spaced

end Text

namespace ValueType

/-- Whether the type is written as one word, or as the sign of the unknown type. -/
def isWord : ValueType → Bool
  | .list _ | .map _ _ => false
  | _ => true

/-- The rows of words and marks that write a type. The floating-point type has a second word. -/
inductive Writes : ValueType → List String → Prop
  | word {t : ValueType} (h : t.isWord = true) : Writes t [t.text]
  | number : Writes .float ["number"]
  | list {e : ValueType} {ws : List String} (element : Writes e ws) :
      Writes (.list e) ("list" :: "<" :: (ws ++ [">"]))
  | map {k v : ValueType} {ks vs : List String} (key : Writes k ks) (value : Writes v vs) :
      Writes (.map k v) ("map" :: "<" :: (ks ++ "," :: (vs ++ [">"])))

/-- The text writes the type, with blanks anywhere around its words and marks. -/
def SpelledBy (t : ValueType) (s : String) : Prop :=
  ∃ ws blanks, t.Writes ws ∧ Spaced ws s.toList blanks ∧ ∀ b ∈ blanks, isBlank b = true

section Writes

variable {t : ValueType} {ws : List String}

/-- A type is not written with no words at all. -/
theorem Writes.ne_nil (h : t.Writes ws) : ws ≠ [] := by cases h <;> exact List.cons_ne_nil _ _

/-- None of the words is empty. -/
theorem Writes.ne_empty (h : t.Writes ws) : ∀ w ∈ ws, w ≠ "" := by
  induction h with
  -- lists and maps are not written as one word
  | @word t h =>
    refine List.forall_mem_singleton.mpr ?_
    cases t with
    | list | map => cases h
    | _ => decide
  | number => decide
  | list _ ih =>
    simp only [List.forall_mem_cons, List.forall_mem_append]
    exact ⟨by decide, by decide, ih, by decide⟩
  | map _ _ ihk ihv =>
    simp only [List.forall_mem_cons, List.forall_mem_append]
    exact ⟨by decide, by decide, ihk, by decide, ihv, by decide⟩

/-- **The written form** of a type writes it. -/
theorem exists_writes_text (t : ValueType) (rest : List Char) :
    ∃ ws, t.Writes ws ∧ Spaced ws (t.text.toList ++ rest) rest := by
  induction t generalizing rest with
  -- the name, the bracket, the type of the elements and the other bracket
  | list e ih =>
    obtain ⟨ws, hws, helement⟩ := ih ('>' :: rest)
    have htext : (list e).text.toList ++ rest =
        ["list", "<"].flatMap String.toList ++ (e.text.toList ++ '>' :: rest) := by
      simp [text]
    refine ⟨_, .list hws, ?_⟩
    rw [htext]
    exact spaced_append.mpr ⟨_, spaced_words ["list", "<"] _,
      spaced_append.mpr ⟨_, helement, spaced_words [">"] rest⟩⟩
  | map k v ihk ihv =>
    obtain ⟨ks, hks, hkey⟩ := ihk (',' :: ' ' :: (v.text.toList ++ '>' :: rest))
    obtain ⟨vs, hvs, hvalue⟩ := ihv ('>' :: rest)
    have htext : (map k v).text.toList ++ rest = ["map", "<"].flatMap String.toList ++
        (k.text.toList ++ ',' :: ' ' :: (v.text.toList ++ '>' :: rest)) := by
      simp [text]
    -- the blank behind the comma stands before the type of the values
    have hvalue : Spaced vs (' ' :: (v.text.toList ++ '>' :: rest)) ('>' :: rest) :=
      hvalue.append_blanks [' '] (List.forall_mem_singleton.mpr rfl) hvs.ne_nil
    refine ⟨_, .map hks hvs, ?_⟩
    rw [htext]
    exact spaced_append.mpr ⟨_, spaced_words ["map", "<"] _, spaced_append.mpr ⟨_, hkey,
      spaced_append.mpr ⟨_, spaced_words [","] _,
        spaced_append.mpr ⟨_, hvalue, spaced_words [">"] rest⟩⟩⟩⟩
  | _ => exact ⟨_, .word rfl, spaced_singleton.mpr ⟨[], List.forall_mem_nil _, rfl⟩⟩

end Writes

end ValueType

/-! ### Reading -/

/-- The text does not go on with characters of type names. -/
def EndsTypeName (rest : List Char) : Prop := ∀ c ∈ rest.head?, isTypeNameChar c = false

/-- Another character ends a name. -/
theorem endsTypeName_cons {c : Char} (hc : isTypeNameChar c = false) (rest : List Char) :
    EndsTypeName (c :: rest) := by
  intro d hd
  cases hd
  exact hc

namespace TypeRegistry

/-- No character of type names is a blank. -/
theorem isBlank_of_isTypeNameChar {c : Char} (hc : isTypeNameChar c = true) : isBlank c = false := by
  simp only [isTypeNameChar, Bool.or_eq_true, beq_iff_eq] at hc
  obtain hc | rfl := hc
  · exact isBlank_of_isNameChar hc
  · decide

/-- No blank is a character of type names. -/
theorem isTypeNameChar_of_isBlank {c : Char} (hc : isBlank c = true) : isTypeNameChar c = false := by
  by_contra h
  rw [isBlank_of_isTypeNameChar (by simpa using h)] at hc
  cases hc

/-- Neither blanks nor a mark go on with a name. -/
theorem endsTypeName_of_spaced {m : String} (mark : Char) (hm : m.toList = [mark])
    (hmark : isTypeNameChar mark = false) {cs rest : List Char} (h : Spaced [m] cs rest) :
    EndsTypeName cs := by
  obtain ⟨blanks, hblanks, rfl⟩ := spaced_singleton.mp h
  rw [hm]
  cases blanks with
  | nil => exact endsTypeName_cons hmark _
  | cons b blanks => exact endsTypeName_cons (isTypeNameChar_of_isBlank (hblanks b List.mem_cons_self)) _

/-- Where no blank stands first nothing is trimmed. -/
theorem trimStart_cons_of_not_isBlank {c : Char} (hc : isBlank c = false) (cs : List Char) :
    trimStart (c :: cs) = c :: cs := by
  simp [trimStart, hc]

/-- **A mark** is skipped exactly if it is there. -/
theorem skipMark_eq_ok_iff {expr m : String} {mark : Char} (hm : m.toList = [mark])
    (hmark : isBlank mark = false) {cs rest : List Char} :
    skipMark expr mark cs = .ok rest ↔ Spaced [m] cs rest := by
  rw [spaced_singleton, hm]
  constructor
  · intro h
    -- what stands behind the blanks is the mark
    obtain ⟨blanks, hblanks, hcs⟩ := exists_blanks_trimStart cs
    rw [skipMark] at h
    split at h
    · next c cs' htrim =>
      split at h
      · next heq =>
        obtain rfl := Except.ok.inj h
        exact ⟨blanks, hblanks, by rw [hcs, htrim, heq, List.singleton_append]⟩
      · cases h
    · cases h
  -- back: the blanks are skipped, and the mark is no blank
  · rintro ⟨blanks, hblanks, rfl⟩
    rw [skipMark, trimStart_append_blanks hblanks, List.singleton_append,
      trimStart_cons_of_not_isBlank hmark]
    exact if_pos rfl

/-- An opening angle bracket. -/
theorem skipMark_lt {expr : String} {cs rest : List Char} :
    skipMark expr '<' cs = .ok rest ↔ Spaced ["<"] cs rest := skipMark_eq_ok_iff rfl (by decide)

/-- A comma. -/
theorem skipMark_comma {expr : String} {cs rest : List Char} :
    skipMark expr ',' cs = .ok rest ↔ Spaced [","] cs rest := skipMark_eq_ok_iff rfl (by decide)

/-- A closing angle bracket. -/
theorem skipMark_gt {expr : String} {cs rest : List Char} :
    skipMark expr '>' cs = .ok rest ↔ Spaced [">"] cs rest := skipMark_eq_ok_iff rfl (by decide)

/-- Blanks in front of a type do not matter. -/
theorem readType_blanks (r : TypeRegistry) (expr : String) (n : Nat) {blanks : List Char}
    (hblanks : ∀ b ∈ blanks, isBlank b = true) (cs : List Char) :
    r.readType expr n (blanks ++ cs) = r.readType expr n cs := by
  cases n with
  | zero => rfl
  | succ n => rw [readType, readType, trimStart_append_blanks hblanks]

/-- What is read at the front of a text that starts with a name. -/
theorem readType_name (r : TypeRegistry) (expr : String) (n : Nat) {name rest : List Char}
    (hne : name ≠ []) (hall : name.all isTypeNameChar = true) (hrest : EndsTypeName rest) :
    r.readType expr (n + 1) (name ++ rest) =
      if name = "list".toList then do
        let rest ← skipMark expr '<' rest
        let (element, rest) ← r.readType expr n rest
        let rest ← skipMark expr '>' rest
        pure (.list element, rest)
      else if name = "map".toList then do
        let rest ← skipMark expr '<' rest
        let (key, rest) ← r.readType expr n rest
        let rest ← skipMark expr ',' rest
        let (value, rest) ← r.readType expr n rest
        let rest ← skipMark expr '>' rest
        pure (.map key value, rest)
      else match r.lookup (String.ofList name) with
        | some type => .ok (type, rest)
        | none => .error (.unknownName (String.ofList name)) := by
  have hname : ∀ c ∈ name, isTypeNameChar c = true := List.all_eq_true.mp hall
  obtain ⟨c, cs, rfl⟩ := List.exists_cons_of_ne_nil hne
  have hc : isTypeNameChar c = true := hname c List.mem_cons_self
  have htrim : trimStart (c :: cs ++ rest) = c :: cs ++ rest :=
    trimStart_cons_of_not_isBlank (isBlank_of_isTypeNameChar hc) _
  -- the text does not start with the sign of the unknown type, which is no character of names
  have hquestion : ∀ more, c :: cs ++ rest ≠ '?' :: more := by
    rintro more h
    obtain ⟨rfl, -⟩ := List.cons.inj h
    exact absurd hc (by decide)
  -- the name is all of the characters that were given for it
  obtain ⟨htake, hdrop⟩ := takeWhile_run hname hrest
  rw [readType, htrim]
  split
  · next more heq => exact absurd heq (hquestion more)
  · rw [htake, hdrop]
    rfl

/-- **What is written is read**, whatever follows it but more of a name. -/
theorem readType_of_spaced (expr : String) {t : ValueType} {ws : List String} (hws : t.Writes ws)
    {n : Nat} {cs rest : List Char} (hn : ws.length ≤ n) (hcs : Spaced ws cs rest)
    (hrest : EndsTypeName rest) : builtin.readType expr n cs = .ok (t, rest) := by
  induction hws generalizing n cs rest with
  | @word t h =>
    obtain ⟨n, rfl⟩ : ∃ k, n = k + 1 := ⟨n - 1, by simp at hn; omega⟩
    obtain ⟨blanks, hblanks, rfl⟩ := spaced_singleton.mp hcs
    rw [readType_blanks builtin expr _ hblanks]
    cases t with
    -- these two are not written as one word
    | list | map => cases h
    | unknown => rfl
    | _ =>
      rw [readType_name builtin expr n (by decide) (by decide) hrest]
      rfl
  | number =>
    obtain ⟨n, rfl⟩ : ∃ k, n = k + 1 := ⟨n - 1, by simp at hn; omega⟩
    obtain ⟨blanks, hblanks, rfl⟩ := spaced_singleton.mp hcs
    rw [readType_blanks builtin expr _ hblanks,
      readType_name builtin expr n (by decide) (by decide) hrest]
    rfl
  | @list e ws _ ih =>
    rw [List.length_cons, List.length_cons, List.length_append] at hn
    obtain ⟨n, rfl⟩ : ∃ k, n = k + 1 := ⟨n - 1, by omega⟩
    obtain ⟨blanks, mid, hblanks, rfl, hcs⟩ := hcs
    -- behind `list` come the bracket, the type of the elements and the other bracket
    obtain ⟨inside, hopen, hcs⟩ := spaced_cons.mp hcs
    obtain ⟨last, helement, hclose⟩ := spaced_append.mp hcs
    rw [readType_blanks builtin expr _ hblanks, readType_name builtin expr n (by decide) (by decide)
      (endsTypeName_of_spaced '<' rfl (by decide) hopen), if_pos rfl,
      skipMark_lt.mpr hopen, ok_bind,
      ih (by omega) helement (endsTypeName_of_spaced '>' rfl (by decide) hclose), ok_bind]
    dsimp only
    rw [skipMark_gt.mpr hclose]
    rfl
  | @map k v ks vs _ _ ihk ihv =>
    rw [List.length_cons, List.length_cons, List.length_append, List.length_cons,
      List.length_append] at hn
    obtain ⟨n, rfl⟩ : ∃ k, n = k + 1 := ⟨n - 1, by omega⟩
    obtain ⟨blanks, mid, hblanks, rfl, hcs⟩ := hcs
    -- behind `map` there are two types, and a comma between them
    obtain ⟨inside, hopen, hcs⟩ := spaced_cons.mp hcs
    obtain ⟨middle, hkey, hcs⟩ := spaced_append.mp hcs
    obtain ⟨second, hcomma, hcs⟩ := spaced_cons.mp hcs
    obtain ⟨last, hvalue, hclose⟩ := spaced_append.mp hcs
    rw [readType_blanks builtin expr _ hblanks, readType_name builtin expr n (by decide) (by decide)
      (endsTypeName_of_spaced '<' rfl (by decide) hopen), if_neg (by decide), if_pos rfl,
      skipMark_lt.mpr hopen, ok_bind,
      ihk (by omega) hkey (endsTypeName_of_spaced ',' rfl (by decide) hcomma), ok_bind]
    dsimp only
    rw [skipMark_comma.mpr hcomma, ok_bind,
      ihv (by omega) hvalue (endsTypeName_of_spaced '>' rfl (by decide) hclose), ok_bind]
    dsimp only
    rw [skipMark_gt.mpr hclose]
    rfl

/-- The names of the primitive types write them. -/
theorem writes_of_lookup {name : String} {t : ValueType} (h : builtin.lookup name = some t) :
    t.Writes [name] := by
  have hmem : (name, t) ∈ primitives := by
    obtain ⟨l, r, heq, -⟩ := List.lookup_eq_some_iff.mp h
    change primitives = _ at heq
    rw [heq]
    exact List.mem_append_right _ List.mem_cons_self
  simp only [primitives, List.mem_cons, List.not_mem_nil, or_false, Prod.mk.injEq] at hmem
  rcases hmem with ⟨rfl, rfl⟩ | ⟨rfl, rfl⟩ | ⟨rfl, rfl⟩ | ⟨rfl, rfl⟩ | ⟨rfl, rfl⟩ | ⟨rfl, rfl⟩ |
    ⟨rfl, rfl⟩ | ⟨rfl, rfl⟩ | ⟨rfl, rfl⟩ | ⟨rfl, rfl⟩ | ⟨rfl, rfl⟩ | ⟨rfl, rfl⟩ | ⟨rfl, rfl⟩ <;>
    first | exact .number | exact .word rfl

/-- **What is read is written** there. -/
theorem spaced_of_readType (expr : String) {n : Nat} {cs rest : List Char} {t : ValueType}
    (h : builtin.readType expr n cs = .ok (t, rest)) : ∃ ws, t.Writes ws ∧ Spaced ws cs rest := by
  induction n generalizing cs rest t with
  | zero => cases h
  | succ n ih =>
    obtain ⟨blanks, hblanks, hcs⟩ := exists_blanks_trimStart cs
    rw [readType] at h
    split at h
    · next more htrim =>
      obtain ⟨rfl, rfl⟩ := Prod.mk.inj (Except.ok.inj h)
      rw [htrim] at hcs
      exact ⟨_, .word rfl, spaced_singleton.mpr ⟨blanks, hblanks, hcs⟩⟩
    · -- the text starts with a name
      generalize trimStart cs = text at h hcs
      have hname : ∀ {name : String}, text.takeWhile isTypeNameChar = name.toList →
          Spaced [name] cs (text.dropWhile isTypeNameChar) := by
        intro name heq
        refine spaced_singleton.mpr ⟨blanks, hblanks, ?_⟩
        rw [hcs, ← heq, List.takeWhile_append_dropWhile]
      dsimp only at h
      split at h
      -- no name, no type
      · cases h
      · split at h
        · next heq =>
          obtain ⟨inside, hopen, h⟩ := exists_of_bind_ok h
          obtain ⟨⟨e, last⟩, helement, h⟩ := exists_of_bind_ok h
          obtain ⟨after, hclose, h⟩ := exists_of_bind_ok h
          obtain ⟨rfl, rfl⟩ := Prod.mk.inj (Except.ok.inj h)
          -- inside a list the type of the elements was read
          obtain ⟨ws, hws, hspaced⟩ := ih helement
          refine ⟨_, .list hws, spaced_cons.mpr ⟨_, hname heq, spaced_cons.mpr ⟨_,
            skipMark_lt.mp hopen, spaced_append.mpr ⟨_, hspaced, ?_⟩⟩⟩⟩
          exact skipMark_gt.mp hclose
        · split at h
          · next heq =>
            obtain ⟨inside, hopen, h⟩ := exists_of_bind_ok h
            obtain ⟨⟨k, middle⟩, hkey, h⟩ := exists_of_bind_ok h
            obtain ⟨second, hcomma, h⟩ := exists_of_bind_ok h
            obtain ⟨⟨v, last⟩, hvalue, h⟩ := exists_of_bind_ok h
            obtain ⟨after, hclose, h⟩ := exists_of_bind_ok h
            obtain ⟨rfl, rfl⟩ := Prod.mk.inj (Except.ok.inj h)
            -- inside a map there were two types to read
            obtain ⟨ks, hks, hspacedKey⟩ := ih hkey
            obtain ⟨vs, hvs, hspacedValue⟩ := ih hvalue
            refine ⟨_, .map hks hvs, spaced_cons.mpr ⟨_, hname heq, spaced_cons.mpr ⟨_,
              skipMark_lt.mp hopen, spaced_append.mpr ⟨_, hspacedKey,
              spaced_cons.mpr ⟨_, skipMark_comma.mp hcomma,
              spaced_append.mpr ⟨_, hspacedValue, ?_⟩⟩⟩⟩⟩⟩
            exact skipMark_gt.mp hclose
          · split at h
            · next hlookup =>
              obtain ⟨rfl, rfl⟩ := Prod.mk.inj (Except.ok.inj h)
              exact ⟨_, writes_of_lookup hlookup, hname (String.toList_ofList).symm⟩
            · cases h

/-! ### Type expressions -/

/-- **A text denotes what it spells**, and nothing else. -/
theorem resolve_eq_ok_iff {s : String} {t : ValueType} :
    builtin.resolve s = .ok t ↔ t.SpelledBy s := by
  have hresolve : builtin.resolve s =
      (builtin.readType s (s.toList.length + 1) s.toList).bind fun p =>
        if allBlank p.2 then .ok p.1 else .error (.malformed s .trailingInput) := rfl
  constructor
  · intro h
    rw [hresolve] at h
    obtain ⟨⟨t', rest⟩, hread, h⟩ := exists_of_bind_ok h
    dsimp only at h
    split at h
    · next hblank =>
      obtain rfl := Except.ok.inj h
      -- all of the text was read, but for blanks at its end
      obtain ⟨ws, hws, hspaced⟩ := spaced_of_readType s hread
      exact ⟨ws, rest, hws, hspaced, List.all_eq_true.mp hblank⟩
    · cases h
  · rintro ⟨ws, blanks, hws, hspaced, hblanks⟩
    have hends : EndsTypeName blanks := fun c hc =>
      isTypeNameChar_of_isBlank (hblanks c (List.mem_of_mem_head? hc))
    -- the characters of the text are more than enough steps for its words
    have hlength := hspaced.length_le hws.ne_empty
    have hread := readType_of_spaced s hws (n := s.toList.length + 1) (by omega) hspaced hends
    rw [hresolve, hread]
    exact if_pos (List.all_eq_true.mpr hblanks)

/-- The written form of a type denotes that type. -/
theorem resolve_text (t : ValueType) : builtin.resolve t.text = .ok t := by
  obtain ⟨ws, hws, hspaced⟩ := t.exists_writes_text []
  rw [List.append_nil] at hspaced
  exact resolve_eq_ok_iff.mpr ⟨ws, [], hws, hspaced, List.forall_mem_nil _⟩

/-- **Type expressions.** A text denotes a type if and only if it is the written form of the type with blanks
anywhere around its words and marks, and `number` for the floating-point type; so the written form itself
denotes it. A text that spells no type is an error, and no text spells two. -/
theorem resolve_spelled :
    (∀ (s : String) (t : ValueType), builtin.resolve s = .ok t ↔ t.SpelledBy s) ∧
      (∀ t : ValueType, builtin.resolve t.text = .ok t) ∧
      ∀ s : String, (∃ e, builtin.resolve s = .error e) ↔ ∀ t : ValueType, ¬t.SpelledBy s := by
  refine ⟨fun s t => resolve_eq_ok_iff, resolve_text, fun s => ?_⟩
  simp only [← resolve_eq_ok_iff]
  cases builtin.resolve s with
  | ok t => simp
  | error e => simp

example : builtin.resolve " map<string ,list< number>>\n" = .ok (.map .string (.list .float)) := by cbv

end TypeRegistry

end TemplateFrontend
