import TemplateFrontend.Proofs.Expr.Lexemes
import TemplateFrontend.Proofs.Expr.Parsing
import TemplateFrontend.Proofs.Expr.Parts
import TemplateFrontend.Resolve.Names
import TemplateFrontend.Typing.Infer
/-!
# The ranges that expressions take up

An expression that was read takes up a range of the text, not an empty one, and the parts directly
below it stand in that range one after the other. Expressions that were read one after the other take
up ranges one after the other. An expression is known by its place in the file: what the passes make of
it takes up the same range, and its parts stand in that range as those of the expression did.

* `Span.InOrder` — ranges one after the other between two offsets;
* `Expr.Enclosed` — the parts of an expression stand in order in its own range, and so do theirs;
* `Expr.InOrder` — expressions one after the other between two offsets;
* `Directive.InOrder` — print directives one after the other, each with its arguments in its range;
* `Expr.Derives.inside` — what tokens derive stands where the tokens do;
* `Expr.inOrder_of_parse`, `Expr.inOrder_of_parsePrint`, `Expr.inOrder_of_parseLoop` — what is read
  from a text stands in it;
* `Expr.InPlace` — an expression and what was made of it;
* `Expr.inPlace_of_children` — parts rewritten in place;
* `Expr.inPlace_mapParts` — the same for a step that is applied to every part;
* `Expr.inPlace_inlineGlobals`, `Expr.inPlace_bindFunctions`, `Expr.inPlace_infer`,
  `Expr.inPlace_fold` — resolution, typing and folding.
-/

namespace TemplateFrontend

open Text

/-- Items with places stand one after the other between two offsets, and no place is empty. -/
def Span.InOrder {α : Type} (place : α → Span) (lo hi : Nat) : List α → Prop
  | [] => lo ≤ hi
  | a :: as =>
    lo ≤ (place a).start ∧ (place a).start < (place a).stop ∧ InOrder place (place a).stop hi as

namespace Span.InOrder

variable {α : Type} {place : α → Span} {lo hi : Nat} {as bs : List α} {a : α}

/-- No item stands in an empty place. -/
theorem nonempty (h : InOrder place lo hi as) (ha : a ∈ as) : (place a).start < (place a).stop := by
  induction as generalizing lo with
  | nil => cases ha
  | cons b as ih =>
    obtain rfl | ha := List.mem_cons.mp ha
    · exact h.2.1
    · exact ih h.2.2 ha

/-- Items stand in order in two lists if some offset lies between the two. -/
theorem append_iff : InOrder place lo hi (as ++ bs) ↔
    ∃ mid, InOrder place lo mid as ∧ InOrder place mid hi bs := by
  -- by induction on the first list, where the offset between the two is found at its end
  induction as generalizing lo with
  | nil =>
    constructor
    · intro h
      exact ⟨lo, Nat.le_refl lo, h⟩
    · rintro ⟨mid, hlo, hbs⟩
      cases bs with
      | nil => exact Nat.le_trans hlo hbs
      | cons b bs => exact ⟨Nat.le_trans hlo hbs.1, hbs.2⟩
  | cons a as ih =>
    rw [List.cons_append, InOrder, ih]
    constructor
    · rintro ⟨hlo, hlt, mid, has, hbs⟩
      exact ⟨mid, ⟨hlo, hlt, has⟩, hbs⟩
    · rintro ⟨mid, ⟨hlo, hlt, has⟩, hbs⟩
      exact ⟨hlo, hlt, mid, has, hbs⟩

end Span.InOrder

/-- The range from the start of the first to the stop of the second. -/
theorem Span.union_eq {s t : Span} (hstart : s.start ≤ t.start) (hstop : s.stop ≤ t.stop) :
    s.union t = ⟨s.start, t.stop⟩ := by
  rw [union, Nat.min_eq_left hstart, Nat.max_eq_right hstop]

/-! ### Tokens -/

/-- The tokens stand one after the other between two offsets. -/
abbrev Token.InOrder (lo hi : Nat) (ts : List Token) : Prop := Span.InOrder Token.span lo hi ts

/-- The tokens of a text stand in it one after the other. -/
theorem SplitsInto.inOrder {offset : Nat} {cs : List Char} {ts : List Token}
    (h : SplitsInto offset cs ts) : Token.InOrder offset (offset + byteLength cs) ts := by
  induction h with
  | nil offset => exact Nat.le_refl offset
  | @blank offset c cs ts _ _ ih =>
    rw [Nat.add_assoc] at ih
    exact (@Span.InOrder.append_iff _ _ _ _ [] _).mpr
      ⟨offset + c.utf8Size, Nat.le_add_right _ _, by rwa [byteLength_cons]⟩
  | @token offset c w rest l ts _ _ _ ih =>
    refine ⟨Nat.le_refl offset, ?_, ?_⟩
    · exact Nat.lt_add_of_pos_right (byteLength_pos (List.cons_ne_nil c w))
    · rwa [Nat.add_assoc, ← byteLength_append] at ih

/-! ### Expressions -/

namespace Expr

/-- The expression takes up a range that is not empty. Every part of it has the parts directly below
it in its own range, one after the other. -/
structure Enclosed (e : Expr) : Prop where
  nonempty : e.span.start < e.span.stop
  ordered : ∀ p ∈ e.subexprs, Span.InOrder span p.span.start p.span.stop p.children

/-- The expression, with all its parts, stands between two offsets. -/
structure Inside (lo hi : Nat) (e : Expr) : Prop where
  enclosed : e.Enclosed
  le_start : lo ≤ e.span.start
  stop_le : e.span.stop ≤ hi

/-- The expressions stand one after the other between two offsets. -/
def InOrder (lo hi : Nat) : List Expr → Prop
  | [] => lo ≤ hi
  | e :: es => lo ≤ e.span.start ∧ e.Enclosed ∧ InOrder e.span.stop hi es

/-- What stands between two offsets stands between wider ones. -/
theorem Inside.mono {lo lo' hi hi' : Nat} {e : Expr} (h : e.Inside lo hi) (hlo : lo' ≤ lo)
    (hhi : hi ≤ hi') : e.Inside lo' hi' :=
  ⟨h.enclosed, Nat.le_trans hlo h.le_start, Nat.le_trans h.stop_le hhi⟩

namespace InOrder

variable {lo mid hi : Nat} {es fs : List Expr} {e : Expr}

/-- The first of the two offsets comes first. -/
theorem le (h : InOrder lo hi es) : lo ≤ hi := by
  induction es generalizing lo with
  | nil => exact h
  | cons e es ih =>
    obtain ⟨hlo, he, hrest⟩ := h
    exact Nat.le_trans hlo (Nat.le_trans (Nat.le_of_lt he.nonempty) (ih hrest))

/-- What stands in order between two offsets does so between wider ones. -/
theorem mono {lo' hi' : Nat} (h : InOrder lo hi es) (hlo : lo' ≤ lo) (hhi : hi ≤ hi') :
    InOrder lo' hi' es := by
  induction es generalizing lo lo' with
  | nil => exact Nat.le_trans hlo (Nat.le_trans h hhi)
  | cons e es ih => exact ⟨Nat.le_trans hlo h.1, h.2.1, ih h.2.2 (Nat.le_refl _)⟩

/-- Expressions in order behind others in order. -/
theorem append (h : InOrder lo mid es) (h' : InOrder mid hi fs) : InOrder lo hi (es ++ fs) := by
  induction es generalizing lo with
  | nil => exact h'.mono h (Nat.le_refl hi)
  | cons e es ih => exact ⟨h.1, h.2.1, ih h.2.2⟩

/-- A single expression only has to stand between the offsets. -/
theorem singleton_iff : InOrder lo hi [e] ↔ e.Inside lo hi :=
  ⟨fun ⟨hlo, he, hhi⟩ => ⟨he, hlo, hhi⟩, fun ⟨he, hlo, hhi⟩ => ⟨hlo, he, hhi⟩⟩

/-- Every one of the expressions stands between the offsets. -/
theorem inside (h : InOrder lo hi es) (he : e ∈ es) : e.Inside lo hi := by
  induction es generalizing lo with
  | nil => cases he
  | cons e' es ih =>
    obtain ⟨hlo, he', hrest⟩ := h
    obtain rfl | he := List.mem_cons.mp he
    · exact ⟨he', hlo, hrest.le⟩
    · exact (ih hrest he).mono (Nat.le_trans hlo (Nat.le_of_lt he'.nonempty)) (Nat.le_refl hi)

/-- Of two of the expressions the first one stops before the second one starts. -/
theorem pairwise (h : InOrder lo hi es) : es.Pairwise fun e e' => e.span.stop ≤ e'.span.start := by
  induction es generalizing lo with
  | nil => exact .nil
  | cons e es ih => exact .cons (fun e' he' => (h.2.2.inside he').le_start) (ih h.2.2)

end InOrder

end Expr

/-- Directives stand one after the other between two offsets, and the arguments of each in its range. -/
def Directive.InOrder (lo hi : Nat) : List Directive → Prop
  | [] => lo ≤ hi
  | d :: ds =>
    lo ≤ d.span.start ∧ Expr.InOrder d.span.start d.span.stop d.args ∧ InOrder d.span.stop hi ds

namespace Directive.InOrder

variable {lo hi : Nat} {ds : List Directive}

/-- Directives may start further on than they have to. -/
theorem mono {lo' : Nat} (h : InOrder lo hi ds) (hlo : lo' ≤ lo) : InOrder lo' hi ds := by
  cases ds with
  | nil => exact Nat.le_trans hlo h
  | cons d ds => exact ⟨Nat.le_trans hlo h.1, h.2⟩

/-- The arguments of all directives stand one after the other. -/
theorem args (h : InOrder lo hi ds) : Expr.InOrder lo hi (ds.flatMap (·.args)) := by
  induction ds generalizing lo with
  | nil => exact h
  | cons d ds ih =>
    obtain ⟨hlo, hargs, hrest⟩ := h
    rw [List.flatMap_cons]
    exact (hargs.mono hlo (Nat.le_refl _)).append (ih hrest)

end Directive.InOrder

namespace Expr

/-! ### Enclosed expressions part by part -/

/-- Expressions stand in order if their ranges do and each encloses its parts. -/
theorem inOrder_iff {lo hi : Nat} {es : List Expr} :
    InOrder lo hi es ↔ Span.InOrder span lo hi es ∧ ∀ e ∈ es, e.Enclosed := by
  induction es generalizing lo with
  | nil => simp [InOrder, Span.InOrder]
  | cons e es ih =>
    rw [InOrder, ih, Span.InOrder, List.forall_mem_cons]
    constructor
    · rintro ⟨hlo, he, hspans, hes⟩
      exact ⟨⟨hlo, he.nonempty, hspans⟩, he, hes⟩
    · rintro ⟨⟨hlo, -, hspans⟩, he, hes⟩
      exact ⟨hlo, he, hspans, hes⟩

/-- An expression is enclosed if the parts directly below it are, one after the other. -/
theorem enclosed_iff {e : Expr} :
    e.Enclosed ↔ e.span.start < e.span.stop ∧ InOrder e.span.start e.span.stop e.children := by
  constructor
  · intro h
    -- the whole is one of its parts, the children hold the others
    have hspans := h.ordered e (by rw [subexprs_eq]; exact List.mem_cons_self)
    refine ⟨h.nonempty, inOrder_iff.mpr ⟨hspans, fun c hc => ⟨?_, fun p hp => h.ordered p ?_⟩⟩⟩
    · exact hspans.nonempty hc
    · rw [subexprs_eq]
      exact List.mem_cons_of_mem _ (mem_subexprsOf.mpr ⟨c, hc, hp⟩)
  · rintro ⟨hne, hchildren⟩
    obtain ⟨hspans, hes⟩ := inOrder_iff.mp hchildren
    refine ⟨hne, fun p hp => ?_⟩
    rw [subexprs_eq] at hp
    -- a part is the whole or a part of one child
    obtain rfl | hp := List.mem_cons.mp hp
    · exact hspans
    · obtain ⟨c, hc, hp⟩ := mem_subexprsOf.mp hp
      exact (hes c hc).ordered p hp

/-- An expression whose parts stand in its own range. -/
theorem Inside.of_span {lo hi p q : Nat} {e : Expr} (hspan : e.span = ⟨p, q⟩) (hne : p < q)
    (hlo : lo ≤ p) (hhi : q ≤ hi) (hchildren : InOrder p q e.children) : e.Inside lo hi := by
  refine ⟨enclosed_iff.mpr ⟨?_, ?_⟩, ?_, ?_⟩ <;> rwa [hspan]

/-! ### Derived expressions -/

/-- The fields of a dotted name stand where the name and what they belong to do. -/
theorem Inside.fields {lo hi : Nat} {b : Expr} {s : Span} (hb : b.Inside lo hi)
    (hstart : b.span.start ≤ s.start) (hstop : b.span.stop ≤ s.stop) (hhi : s.stop ≤ hi)
    (names : List String) : (Reader.fields s b names).Inside lo hi ∧
      (Reader.fields s b names).span.start = b.span.start ∧
      (Reader.fields s b names).span.stop ≤ s.stop := by
  induction names generalizing b with
  | nil => exact ⟨hb, rfl, hstop⟩
  | cons name names ih =>
    have hspan : (Expr.field (Reader.place (b.span.union s)) b name).span =
        ⟨b.span.start, s.stop⟩ := Span.union_eq hstart hstop
    -- each field encloses what stands before it and stops where the whole name does
    have hfield : (Expr.field (Reader.place (b.span.union s)) b name).Inside lo hi := by
      refine .of_span hspan (Nat.lt_of_lt_of_le hb.enclosed.nonempty hstop) hb.le_start hhi ?_
      exact InOrder.singleton_iff.mpr ⟨hb.enclosed, Nat.le_refl _, hstop⟩
    have hend : (Expr.field (Reader.place (b.span.union s)) b name).span.stop = s.stop := by
      rw [hspan]
    obtain ⟨hinside, hsame, hbefore⟩ := ih hfield (by rwa [hspan]) (Nat.le_of_eq hend)
    exact ⟨hinside, hsame.trans (by rw [hspan]), hbefore⟩

/-- Items with commas between them stand one after the other if each stands where its tokens do. -/
theorem CommaSeparated.inOrder {items : List (List Token × Expr)} {all : List Token}
    (h : CommaSeparated (items.map (·.1)) all)
    (hitems : ∀ x ∈ items, ∀ lo hi, Token.InOrder lo hi x.1 → x.2.Inside lo hi) {lo hi : Nat}
    (hall : Token.InOrder lo hi all) : InOrder lo hi (items.map (·.2)) := by
  induction items generalizing all lo with
  | nil =>
    cases h
    exact hall
  | cons x items ih =>
    obtain ⟨hx, hrest⟩ := List.forall_mem_cons.mp hitems
    cases items with
    | nil =>
      cases h
      exact InOrder.singleton_iff.mpr (hx lo hi hall)
    | cons y items =>
      cases h with
      | cons h =>
        -- the comma stands between this item and the next one
        obtain ⟨mid, hts, hcomma, hlt, hmore⟩ := Span.InOrder.append_iff.mp hall
        have hfirst := hx lo mid hts
        have hnext : x.2.span.stop ≤ _ :=
          Nat.le_trans hfirst.stop_le (Nat.le_trans hcomma (Nat.le_of_lt hlt))
        exact ⟨hfirst.le_start, hfirst.enclosed, (ih h hrest hmore).mono hnext (Nat.le_refl hi)⟩

/-- What stands between two marks, or between a name and a mark. -/
theorem Inside.of_ends {lo hi p q : Nat} {e : Expr} {s c : Span} (hspan : e.span = s.union c)
    (hes : InOrder p q e.children) (hlo : lo ≤ s.start) (hs : s.start < s.stop) (hsp : s.stop ≤ p)
    (hqc : q ≤ c.start) (hc : c.start < c.stop) (hhi : c.stop ≤ hi) : e.Inside lo hi := by
  have hpq := hes.le
  rw [Span.union_eq (by omega) (by omega)] at hspan
  exact .of_span hspan (by omega) hlo hhi (hes.mono (by omega) (by omega))

/-- **Derived expressions** stand where their tokens do. -/
theorem Derives.inside {s : Symbol} {ts : List Token} {e : Expr} (h : Derives s ts e) :
    ∀ lo hi, Token.InOrder lo hi ts → e.Inside lo hi := by
  induction h with
  | operand _ ih | unprefixed _ ih | unselected _ ih => exact ih
  | @binary r op t ts us a b _ _ _ _ iha ihb =>
    intro lo hi hts
    -- the operator stands between the operands, and the range goes from one to the other
    obtain ⟨mid, ha, hop, hlt, hb⟩ := Span.InOrder.append_iff.mp hts
    have ha := iha lo mid ha
    have hb := ihb _ hi hb
    have hbetween : a.span.stop ≤ b.span.start :=
      Nat.le_trans ha.stop_le (Nat.le_trans hop (Nat.le_trans (Nat.le_of_lt hlt) hb.le_start))
    have hstart := ha.enclosed.nonempty
    have hstop := hb.enclosed.nonempty
    refine .of_span (Span.union_eq (by omega) (by omega)) (by omega) ha.le_start hb.stop_le ?_
    exact ⟨Nat.le_refl _, ha.enclosed, hbetween, hb.enclosed, Nat.le_refl _⟩
  -- an operator in front opens the range
  | @unary op t ts e _ _ ih =>
    intro lo hi hts
    obtain ⟨hlo, hlt, hrest⟩ := hts
    have he := ih _ hi hrest
    have hafter := he.le_start
    have hstop := he.enclosed.nonempty
    refine .of_span (Span.union_eq (by omega) (by omega)) (by omega) hlo he.stop_le ?_
    exact InOrder.singleton_iff.mpr ⟨he.enclosed, by omega, Nat.le_refl _⟩
  -- names behind a dot make the range longer
  | @fields ts b d s w _ ih =>
    intro lo hi hts
    obtain ⟨mid, hb, hdot, hlt, hword, hlt', hend⟩ := Span.InOrder.append_iff.mp hts
    dsimp only [Span.InOrder] at hdot hlt hword hlt' hend
    have hb := ih lo mid hb
    have hstart := hb.enclosed.nonempty
    have hstop := hb.stop_le
    exact (Inside.fields (hb.mono (Nat.le_refl lo) (by omega)) (by omega) (by omega) hend _).1
  | @method ts inner b base d s o c w args _ _ hinner hbase ih ihargs =>
    intro lo hi hts
    obtain ⟨mid, hb, hdot, hd, hword, hs, hopen, ho, hinside⟩ := Span.InOrder.append_iff.mp hts
    obtain ⟨stop, hargs, hclose, hc, hend⟩ := Span.InOrder.append_iff.mp hinside
    dsimp only [Span.InOrder] at hdot hd hword hs hopen ho hargs hclose hc hend
    have hb := ih lo mid hb
    have hargs := hinner.inOrder ihargs hargs
    have hle := hargs.le
    have hstart := hb.enclosed.nonempty
    have hstop := hb.stop_le
    -- the names before the last one are fields, to which the method belongs
    obtain ⟨hinside, hsame, hbefore⟩ := Inside.fields (hb.mono (Nat.le_refl lo) (by omega : mid ≤ hi))
      (by omega) (by omega) (by omega : s.stop ≤ hi) (dottedNames w).dropLast
    rw [Reader.fields_eq_foldl, ← hbase] at hinside hsame hbefore
    have hspan : (base.span.union s).union c = ⟨base.span.start, c.stop⟩ := by
      rw [Span.union_eq (by omega) hbefore]
      exact Span.union_eq (by dsimp only; omega) (by dsimp only; omega)
    refine .of_span hspan (by omega) hinside.le_start hend ?_
    exact ⟨Nat.le_refl _, hinside.enclosed, hargs.mono (by omega) (by omega)⟩
  -- one token is the whole range
  | constant _ | var | global _ =>
    intro lo hi hts
    obtain ⟨hlo, hlt, hhi⟩ := hts
    exact .of_span rfl hlt hlo hhi (Nat.le_of_lt hlt)
  | @call inner w s o c args _ _ hinner ihargs =>
    intro lo hi hts
    obtain ⟨hword, hs, hopen, ho, hinside⟩ := hts
    obtain ⟨stop, hargs, hclose, hc, hend⟩ := Span.InOrder.append_iff.mp hinside
    exact .of_ends rfl (hinner.inOrder ihargs hargs) hword hs
      (Nat.le_trans hopen (Nat.le_of_lt ho)) hclose hc hend
  -- parentheses leave the expression the range that it has inside of them
  | parens _ ih =>
    intro lo hi hts
    obtain ⟨hopen, ho, hinside⟩ := hts
    obtain ⟨stop, he, hclose, hc, hend⟩ := Span.InOrder.append_iff.mp hinside
    exact (ih _ stop he).mono (Nat.le_trans hopen (Nat.le_of_lt ho))
      (Nat.le_trans hclose (Nat.le_trans (Nat.le_of_lt hc) hend))
  -- brackets belong to the range of a list
  | list _ hinner ihitems =>
    intro lo hi hts
    obtain ⟨hopen, ho, hinside⟩ := hts
    obtain ⟨stop, hitems, hclose, hc, hend⟩ := Span.InOrder.append_iff.mp hinside
    exact .of_ends rfl (hinner.inOrder ihitems hitems) hopen ho (Nat.le_refl _) hclose hc hend
  | listComma _ _ hinner ihitems =>
    intro lo hi hts
    obtain ⟨hopen, ho, hinside⟩ := hts
    obtain ⟨stop, hitems, hcomma, hd, hclose, hc, hend⟩ := Span.InOrder.append_iff.mp hinside
    exact .of_ends rfl (hinner.inOrder ihitems hitems) hopen ho (Nat.le_refl _)
      (Nat.le_trans hcomma (Nat.le_trans (Nat.le_of_lt hd) hclose)) hc hend

/-! ### Expressions that are read -/

/-- An expression stands in the text that it is read from. -/
theorem inOrder_of_parse {offset : Nat} {cs : List Char} {e : Expr} (h : parse offset cs = .ok e) :
    InOrder offset (offset + byteLength cs) [e] := by
  obtain ⟨ts, hts, he⟩ := parse_eq_ok_iff.mp h
  exact InOrder.singleton_iff.mpr (he.inside _ _ (tokens_eq_ok_iff.mp hts).inOrder)

/-- Arguments stand where their tokens do. -/
theorem Reader.Itemized.inOrder {args : List (List Token × Expr)} {inner : List Token}
    (h : Reader.Itemized args inner) {lo hi : Nat} (hinner : Token.InOrder lo hi inner) :
    InOrder lo hi (args.map (·.2)) :=
  h.separated.inOrder (fun x hx => (h.derives x hx).inside) hinner

/-- The range of a name with arguments after it stops where they do. -/
theorem InOrder.exists_foldl_union {lo hi : Nat} {args : List Expr} {s : Span} (h : InOrder lo hi args)
    (hs : s.start ≤ s.stop) (hlo : s.stop ≤ lo) :
    ∃ q, args.foldl (fun s e => s.union e.span) s = ⟨s.start, q⟩ ∧ InOrder s.stop q args ∧ q ≤ hi := by
  induction args generalizing lo s with
  | nil => exact ⟨s.stop, rfl, Nat.le_refl _, Nat.le_trans hlo h⟩
  | cons e es ih =>
    obtain ⟨hstart, he, hrest⟩ := h
    have hne := he.nonempty
    have hunion : s.union e.span = ⟨s.start, e.span.stop⟩ := Span.union_eq (by omega) (by omega)
    rw [List.foldl_cons, hunion]
    have hwide : s.start ≤ e.span.stop := by omega
    obtain ⟨q, hq, horder, hle⟩ := ih (s := ⟨s.start, e.span.stop⟩) hrest hwide (Nat.le_refl _)
    exact ⟨q, hq, ⟨Nat.le_trans hlo hstart, he, horder⟩, hle⟩

/-- Directives stand where their tokens do. -/
theorem AreDirectives.inOrder {ts : List Token} {ds : List Directive} (h : AreDirectives ts ds) {lo hi : Nat}
    (hts : Token.InOrder lo hi ts) : Directive.InOrder lo hi ds := by
  induction h generalizing lo with
  | nil => exact hts
  | @plain bar s name ts ds _ ih =>
    obtain ⟨hlo, hlt, hlo', hlt', hts⟩ := hts
    dsimp only at hlo hlt hlo' hlt'
    have hunion : bar.union s = ⟨bar.start, s.stop⟩ := Span.union_eq (by omega) (by omega)
    -- a directive without arguments ends with its name
    have hnone : InOrder bar.start s.stop [] := by
      change bar.start ≤ s.stop
      omega
    rw [hunion]
    exact ⟨hlo, hnone, ih hts⟩
  | @args bar s c name ts inner args ds hargs _ ih =>
    obtain ⟨hlo, hlt, hlo', hlt', hc, hclt, hts⟩ := hts
    obtain ⟨mid, hinner, hrest⟩ := Span.InOrder.append_iff.mp hts
    dsimp only at hlo hlt hlo' hlt' hc hclt
    have hunion : bar.union s = ⟨bar.start, s.stop⟩ := Span.union_eq (by omega) (by omega)
    have hwide : bar.start ≤ s.stop := by omega
    have hafter : s.stop ≤ c.stop := by omega
    -- the range of the directive goes on to its last argument, not to the parenthesis behind it
    obtain ⟨q, hq, horder, hle⟩ := (hargs.inOrder hinner).exists_foldl_union (s := ⟨bar.start, s.stop⟩) hwide hafter
    rw [hunion, hq]
    exact ⟨hlo, horder.mono hwide (Nat.le_refl q), (ih hrest).mono hle⟩

/-- The expression of a print command stands in its text before the directives. -/
theorem exists_of_parsePrint {offset : Nat} {cs : List Char} {e : Expr} {ds : List Directive}
    (h : parsePrint offset cs = .ok (e, ds)) : ∃ mid, InOrder offset mid [e] ∧
      Directive.InOrder mid (offset + byteLength cs) ds := by
  obtain ⟨ts, us, htokens, he, hds⟩ := exists_of_parsePrint_ok h
  obtain ⟨mid, hbefore, hafter⟩ := Span.InOrder.append_iff.mp (tokens_eq_ok_iff.mp htokens).inOrder
  exact ⟨mid, InOrder.singleton_iff.mpr (he.inside _ _ hbefore), hds.inOrder hafter⟩

/-- The expressions of a print command stand in its text one after the other. -/
theorem inOrder_of_parsePrint {offset : Nat} {cs : List Char} {e : Expr} {ds : List Directive}
    (h : parsePrint offset cs = .ok (e, ds)) :
    InOrder offset (offset + byteLength cs) (e :: ds.flatMap (·.args)) := by
  obtain ⟨mid, he, hds⟩ := exists_of_parsePrint h
  exact he.append hds.args

/-- The list of a loop stands in the text of the command. -/
theorem inOrder_of_parseLoop {offset : Nat} {cs : List Char} {x : String} {e : Expr}
    (h : parseLoop offset cs = .ok (x, e)) : InOrder offset (offset + byteLength cs) [e] := by
  obtain ⟨s, t, ts, htokens, he⟩ := exists_of_parseLoop_ok h
  obtain ⟨hlo, hlt, hlo', hlt', hts⟩ := (tokens_eq_ok_iff.mp htokens).inOrder
  refine (InOrder.singleton_iff.mpr (he.inside _ _ hts)).mono ?_ (Nat.le_refl _)
  exact Nat.le_trans hlo (Nat.le_trans (Nat.le_of_lt hlt) (Nat.le_trans hlo' (Nat.le_of_lt hlt')))

/-! ### Expressions rewritten in place -/

/-- The second expression stands where the first one does, with its parts in order if those of the
first one are. -/
structure InPlace (e e' : Expr) : Prop where
  span_eq : e'.span = e.span
  enclosed : e.Enclosed → e'.Enclosed

section InPlace

variable {e e' : Expr} {es es' : List Expr} {lo hi : Nat}

/-- An expression stands where it stands. -/
theorem InPlace.refl (e : Expr) : InPlace e e := ⟨rfl, id⟩

/-- Rewritten in place twice. -/
theorem InPlace.trans {e'' : Expr} (h : InPlace e e') (h' : InPlace e' e'') : InPlace e e'' :=
  ⟨h'.span_eq.trans h.span_eq, h'.enclosed ∘ h.enclosed⟩

/-- Expressions in order stay in order when each is rewritten in place. -/
theorem InOrder.inPlace (h : InOrder lo hi es) (hes : List.Forall₂ InPlace es es') :
    InOrder lo hi es' := by
  induction hes generalizing lo with
  | nil => exact h
  | cons he _ ih =>
    obtain ⟨hlo, henclosed, hrest⟩ := h
    refine ⟨?_, he.enclosed henclosed, ?_⟩
    · rwa [he.span_eq]
    · rw [he.span_eq]
      exact ih hrest

/-- The parts directly below the expression were rewritten in place. -/
theorem inPlace_of_children (hspan : e'.span = e.span)
    (hchildren : List.Forall₂ InPlace e.children e'.children) : InPlace e e' where
  span_eq := hspan
  enclosed h := by
    obtain ⟨hne, horder⟩ := enclosed_iff.mp h
    rw [enclosed_iff, hspan]
    exact ⟨hne, horder.inPlace hchildren⟩

/-- The expression was replaced by one without parts. -/
theorem inPlace_of_leaf (hspan : e'.span = e.span) (hchildren : e'.children = []) :
    InPlace e e' where
  span_eq := hspan
  enclosed h := by
    rw [enclosed_iff, hspan, hchildren]
    exact ⟨h.nonempty, Nat.le_of_lt h.nonempty⟩

/-- No expression of a list is rewritten. -/
theorem forall₂_inPlace_refl (es : List Expr) : List.Forall₂ InPlace es es :=
  List.forall₂_same.mpr fun e _ => .refl e

/-- Each expression of a list is rewritten in place twice. -/
theorem forall₂_inPlace_trans {es'' : List Expr} (h : List.Forall₂ InPlace es es')
    (h' : List.Forall₂ InPlace es' es'') : List.Forall₂ InPlace es es'' := by
  induction h generalizing es'' with
  | nil => exact h'
  | cons he _ ih =>
    obtain ⟨e'', rest, he', hrest, rfl⟩ := List.forall₂_cons_left_iff.mp h'
    exact .cons (he.trans he') (ih hrest)

/-- Something about the whole was written down. -/
theorem inPlace_of_same_children (hspan : e'.span = e.span) (hchildren : e'.children = e.children) :
    InPlace e e' :=
  inPlace_of_children hspan (hchildren ▸ forall₂_inPlace_refl e.children)

end InPlace

/-! ### Parts replaced one by one -/

section MapParts

variable {g : Expr → Expr}

/-- **Parts replaced.** A step that rewrites every part in place rewrites the whole in place. -/
theorem inPlace_mapParts (hg : ∀ e, InPlace e (g e)) (e : Expr) : InPlace e (e.mapParts g) := by
  induction e using children_induct with
  | h e ih =>
    have hparts : InPlace e (e.mapChildren (mapParts g)) := by
      refine inPlace_of_children (congrArg Note.span (note_mapChildren _ e)) ?_
      rw [children_mapChildren, List.forall₂_map_right_iff]
      exact List.forall₂_same.mpr ih
    rw [mapParts_eq]
    exact hparts.trans (hg _)

end MapParts

/-- Values stand where the names of constants stood. -/
theorem inPlace_inlineGlobals (globals : Globals) (e : Expr) :
    InPlace e (e.mapParts (inlineGlobal globals)) := by
  refine inPlace_mapParts (fun e => ?_) e
  cases e with
  | global n name =>
    rw [inlineGlobal]
    split
    · exact inPlace_of_leaf rfl rfl
    · exact .refl _
  | _ => exact .refl _

/-- Calls stay in their places when they are bound. -/
theorem inPlace_bindFunctions (r : Resolver) (e : Expr) :
    InPlace e (e.mapParts (bindFunction r)) := by
  refine inPlace_mapParts (fun e => ?_) e
  cases e with
  | call n name args callee =>
    rw [bindFunction]
    split <;> exact inPlace_of_same_children rfl rfl
  | _ => exact .refl _

/-- A constant stands where the operator stood that yields it. -/
theorem inPlace_fold (e : Expr) : InPlace e e.fold := by
  refine inPlace_mapParts (fun e => ?_) e
  unfold foldPart
  split
  · exact inPlace_of_leaf rfl rfl
  · exact .refl e

/-! ### Typing -/

/-- **Typing** rewrites in place. -/
theorem inPlace_infer (r : Resolver) (scope : TypeScope) (e : Expr) : InPlace e (e.infer r scope).1 := by
  induction e using children_induct with
  | h e ih =>
    refine inPlace_of_children (span_infer r scope e) ?_
    rw [children_infer, List.forall₂_map_right_iff]
    exact List.forall₂_same.mpr ih

end Expr

end TemplateFrontend
