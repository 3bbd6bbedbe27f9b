import TemplateFrontend.Proofs.Expr.Lexemes
import TemplateFrontend.Proofs.Expr.Parsing
/-!
# Expressions further on in a file

The same text is read as the same expression wherever it stands, with the places of its parts moved
along.

* `Expr.shift` — an expression further on in a file;
* `Expr.Derives.shift` — a derivation moves with its tokens;
* `Expr.parse_shift` — an expression moves with its text, and blanks around the text do not matter;
* `Expr.getLast?_ne_slash_of_parse` — the text of an expression does not end in a slash.
-/

namespace TemplateFrontend

open Text

theorem Span.shift_union (d : Nat) (a b : Span) : (a.union b).shift d = (a.shift d).union (b.shift d) := by
  simp only [shift, union, Nat.add_min_add_right, Nat.add_max_add_right]

namespace Expr

open Reader (place fields)

/-- An expression further on in a file. -/
def shift (d : Nat) (e : Expr) : Expr :=
  e.mapParts fun e => e.withNote ⟨e.note.span.shift d, e.note.type⟩

section Shift

variable (d : Nat)

@[simp] theorem shift_literal (s : Span) (v : Literal) :
    shift d (.literal (place s) v) = .literal (place (s.shift d)) v := rfl

@[simp] theorem shift_var (s : Span) (x : String) :
    shift d (.var (place s) x) = .var (place (s.shift d)) x := rfl

@[simp] theorem shift_global (s : Span) (x : String) :
    shift d (.global (place s) x) = .global (place (s.shift d)) x := rfl

@[simp] theorem shift_field (s : Span) (b : Expr) (x : String) :
    shift d (.field (place s) b x) = .field (place (s.shift d)) (b.shift d) x := rfl

@[simp] theorem shift_call (s : Span) (x : String) (args : List Expr) (c : Option Callee) :
    shift d (.call (place s) x args c) = .call (place (s.shift d)) x (args.map (shift d)) c := by
  simp only [shift, mapParts, mapPartsOf_eq_map]
  rfl

@[simp] theorem shift_method (s : Span) (b : Expr) (x : String) (args : List Expr)
    (c : Option Callee) :
    shift d (.method (place s) b x args c) =
      .method (place (s.shift d)) (b.shift d) x (args.map (shift d)) c := by
  simp only [shift, mapParts, mapPartsOf_eq_map]
  rfl

@[simp] theorem shift_list (s : Span) (es : List Expr) :
    shift d (.list (place s) es) = .list (place (s.shift d)) (es.map (shift d)) := by
  simp only [shift, mapParts, mapPartsOf_eq_map]
  rfl

@[simp] theorem shift_unary (s : Span) (op : UnaryOp) (e : Expr) :
    shift d (.unary (place s) op e) = .unary (place (s.shift d)) op (e.shift d) := rfl

@[simp] theorem shift_binary (s : Span) (op : BinaryOp) (a b : Expr) :
    shift d (.binary (place s) op a b) = .binary (place (s.shift d)) op (a.shift d) (b.shift d) := rfl

@[simp] theorem span_shift (e : Expr) : (e.shift d).span = e.span.shift d := by
  cases e <;> simp [shift, mapParts, span, withNote, note]

theorem shift_fields (s : Span) (names : List String) (b : Expr) :
    shift d (fields s b names) = fields (s.shift d) (b.shift d) names := by
  induction names generalizing b with
  | nil => rfl
  | cons name names ih =>
    change shift d (fields s (.field (place (b.span.union s)) b name) names) = _
    rw [ih, shift_field, Span.shift_union, ← span_shift]
    rfl

theorem CommaSeparated.shift {tss : List (List Token)} {ts : List Token}
    (h : CommaSeparated tss ts) :
    CommaSeparated (tss.map (List.map (Token.shift d))) (ts.map (Token.shift d)) := by
  induction h with
  | nil => exact .nil
  | one ts => exact .one _
  | cons _ ih =>
    rw [List.map_append]
    exact .cons ih

/-- An item of a list with its tokens, further on in a file. -/
def shiftItem : List Token × Expr → List Token × Expr :=
  Prod.map (List.map (Token.shift d)) (Expr.shift d)

theorem map_snd_shiftItem (items : List (List Token × Expr)) :
    (items.map (·.2)).map (Expr.shift d) = (items.map (shiftItem d)).map (·.2) := by
  rw [List.map_map, List.map_map]
  rfl

theorem CommaSeparated.shiftItem {items : List (List Token × Expr)} {ts : List Token}
    (h : CommaSeparated (items.map (·.1)) ts) :
    CommaSeparated ((items.map (shiftItem d)).map (·.1)) (ts.map (Token.shift d)) := by
  have hshift := h.shift d
  rw [List.map_map] at hshift ⊢
  exact hshift

/-- A derivation moves with its tokens. -/
theorem Derives.shift {s : Symbol} {ts : List Token} {e : Expr} (h : Derives s ts e) :
    Derives s (ts.map (Token.shift d)) (e.shift d) := by
  induction h with
  | operand _ ih => exact .operand ih
  | binary hop ht _ _ iha ihb =>
    rw [List.map_append, shift_binary, Span.shift_union, ← span_shift, ← span_shift]
    exact .binary hop ht iha ihb
  | @unary _ t _ _ ht _ ih =>
    rw [shift_unary, Span.shift_union, ← span_shift]
    exact .unary (t := t.shift d) ht ih
  | unprefixed _ ih => exact .unprefixed ih
  -- where a rule joins spans, the union of the moved ones is the moved union
  | fields _ ih =>
    rw [List.map_append, ← Reader.fields_eq_foldl, shift_fields]
    exact .fields ih
  -- the receiver of a method carries the names before the last, at one span
  | method _ _ hinner hbase ih ihargs =>
    subst hbase
    rw [← Reader.fields_eq_foldl, shift_method, shift_fields, Span.shift_union, Span.shift_union, ← span_shift,
      shift_fields, map_snd_shiftItem]
    simp only [List.map_append, List.map_cons, List.map_nil]
    exact .method ih (List.forall_mem_map.mpr ihargs) (hinner.shiftItem d) rfl
  | unselected _ ih => exact .unselected ih
  | @constant t _ h => exact .constant (t := t.shift d) h
  | var => exact .var
  | global hw => exact .global hw
  | call hw _ hinner ihargs =>
    rw [shift_call, Span.shift_union, map_snd_shiftItem]
    simp only [List.map_append, List.map_cons, List.map_nil]
    exact .call hw (List.forall_mem_map.mpr ihargs) (hinner.shiftItem d)
  | parens _ ih =>
    simp only [List.map_append, List.map_cons, List.map_nil]
    exact .parens ih
  -- commas move with their items
  | list _ hinner ihitems =>
    rw [shift_list, Span.shift_union, map_snd_shiftItem]
    simp only [List.map_append, List.map_cons, List.map_nil]
    exact .list (List.forall_mem_map.mpr ihitems) (hinner.shiftItem d)
  | listComma hne _ hinner ihitems =>
    rw [shift_list, Span.shift_union, map_snd_shiftItem]
    simp only [List.map_append, List.map_cons, List.map_nil]
    exact .listComma (by simpa using hne) (List.forall_mem_map.mpr ihitems) (hinner.shiftItem d)

end Shift

/-- An expression moves with its text, and blanks after the text do not matter. -/
theorem parse_shift {offset : Nat} {cs bs : List Char} {e : Expr}
    (hbs : ∀ b ∈ bs, isBlank b = true) (h : parse offset (cs ++ bs) = .ok e) (d : Nat) :
    parse (offset + d) cs = .ok (e.shift d) := by
  obtain ⟨ts, hts, he⟩ := parse_eq_ok_iff.mp h
  exact parse_eq_ok_iff.mpr ⟨ts.map (Token.shift d),
    tokens_eq_ok_iff.mpr ((tokens_eq_ok_iff.mp hts).shift hbs d), Derives.shift d he⟩

/-- Blanks before the text of an expression only move it. -/
theorem parse_of_blanks_append {offset : Nat} {bs cs : List Char} {e : Expr}
    (hbs : ∀ b ∈ bs, isBlank b = true) (h : parse offset (bs ++ cs) = .ok e) :
    parse (offset + byteLength bs) cs = .ok e := by
  obtain ⟨ts, hts, he⟩ := parse_eq_ok_iff.mp h
  refine parse_eq_ok_iff.mpr ⟨ts, ?_, he⟩
  rw [tokens_eq_ok_iff] at hts ⊢
  clear h
  induction bs generalizing offset with
  | nil => exact hts
  | cons b bs ih =>
    rw [byteLength_cons, ← Nat.add_assoc]
    exact ih (fun c hc => hbs c (List.mem_cons_of_mem b hc)) (hts.of_blank (hbs b List.mem_cons_self))

/-! ### The end of an expression -/

/-- No expression ends in the token of a slash, which wants an operand. -/
theorem Derives.getLast?_ne_slash {s : Symbol} {ts : List Token} {e : Expr} (h : Derives s ts e) :
    ∃ t, ts.getLast? = some t ∧ t.lexeme ≠ .mark .slash := by
  induction h with
  | operand _ ih | unprefixed _ ih | unselected _ ih => exact ih
  -- the last token is the last operand's, a constant, or closes something
  | binary _ _ _ _ _ ih =>
    obtain ⟨t, hlast, ht⟩ := ih
    exact ⟨t, by simp [List.getLast?_append, List.getLast?_cons, hlast], ht⟩
  | unary _ _ ih =>
    obtain ⟨t, hlast, ht⟩ := ih
    exact ⟨t, by simp [List.getLast?_cons, hlast], ht⟩
  | @constant t _ h =>
    refine ⟨t, rfl, fun hslash => ?_⟩
    rw [hslash] at h
    cases h
  | fields | method | var | global | call | parens | list | listComma =>
    simp [List.getLast?_append, List.getLast?_cons]

/-- The text of an expression does not end in a slash. -/
theorem getLast?_ne_slash_of_parse {offset : Nat} {cs : List Char} {e : Expr}
    (h : parse offset cs = .ok e) : cs.getLast? ≠ some '/' := by
  obtain ⟨ts, hts, he⟩ := parse_eq_ok_iff.mp h
  obtain ⟨t, ht, hne⟩ := Derives.getLast?_ne_slash he
  intro hslash
  obtain ⟨s, hs⟩ := (tokens_eq_ok_iff.mp hts).exists_slash hslash
  rw [ht] at hs
  cases hs
  exact hne rfl

end Expr

end TemplateFrontend
