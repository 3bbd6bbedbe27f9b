import TemplateFrontend.Proofs.Transform.ConstantPrints
import TemplateFrontend.Proofs.Typing.Scopes
/-!
# Types of folded expressions

What type an operator yields is inferred from the types of its operands, what constant it yields is computed
from their values. Both ways end at the same type, whatever the operands are: where integers would leave
their range, or a divisor is zero, there is no constant at all. So a constant that stands for an operator has
the type that was inferred for the operator, and folding changes the type of no part that it leaves.

* `Literal.type_negate?`, `Literal.type_applyBinary` — the types of the constants that operators yield;
* `Expr.ruleType?`, `Expr.FollowsRules` — types that constants and operators have by the rules;
* `Expr.followsRules_infer` — inference follows the rules;
* `Expr.FollowsRules.note_fold` — folding keeps the type of an expression that follows them;
* `Expr.FollowsRules.exists_at?_of_fold` — and that of each part that it leaves, with its place.
-/

namespace TemplateFrontend

/-! ### Constants that operators yield -/

/-- What an operator yields for two numbers. -/
theorem ValueType.binary?_of_isNumeric {op : BinaryOp} {l r : ValueType} (hl : l.isNumeric = true)
    (hr : r.isNumeric = true) :
    binary? op l r = some (if op.isLogical || op.isComparison then .bool
      else if op = .div ∨ ¬(l = .int ∧ r = .int) then .float else .int) := by
  have hstring : ¬(l = .string ∨ r = .string) := by
    rintro (rfl | rfl)
    · cases hl
    · cases hr
  rw [binary?, if_neg (fun h => hstring h.2 : ¬(op = .add ∧ (l = .string ∨ r = .string))), hl, hr]
  split <;> rfl

namespace Literal

variable {op : BinaryOp} {a b v : Literal}

/-- What counts as a number has the type of one. -/
theorem isNumeric_of_number? {x : Float} (h : a.number? = some x) : a.type.isNumeric = true := by
  cases a with
  | int | float => rfl
  | _ => cases h

/-- A constant of the integers is an integer. -/
theorem exists_int_of_type (h : a.type = .int) : ∃ n, a = .int n := by
  cases a with
  | int n => exact ⟨n, rfl⟩
  | _ => cases h

/-- A string has the type of strings. -/
theorem type_of_isString (h : a.isString = true) : a.type = .string := by
  cases a with
  | string s => rfl
  | _ => cases h

/-- An operator on integers yields a constant of the type that the rules give. -/
theorem type_foldInts {m n : Int64} (h : foldInts op m n = some v) :
    ValueType.binary? op .int .int = some v.type := by
  rw [ValueType.binary?_of_isNumeric rfl rfl]
  cases op with
  | add | sub | mul | mod =>
    obtain ⟨k, -, rfl⟩ := Option.map_eq_some_iff.mp h
    rfl
  | div =>
    -- the quotient of integers is no integer, and by zero there is none
    rw [foldInts] at h
    split at h
    · cases h
    · obtain rfl := Option.some.inj h
      rfl
  | lt | gt | le | ge =>
    obtain rfl := Option.some.inj h
    rfl
  | _ => cases h

/-- So does an operator on numbers of which one is no integer. -/
theorem type_foldFloats {x y : Float} {l r : ValueType} (hl : l.isNumeric = true)
    (hr : r.isNumeric = true) (hne : ¬(l = .int ∧ r = .int)) (h : foldFloats op x y = some v) :
    ValueType.binary? op l r = some v.type := by
  rw [ValueType.binary?_of_isNumeric hl hr, if_pos (.inr hne : op = .div ∨ _)]
  cases op with
  | add | sub | mul | lt | gt | le | ge =>
    obtain rfl := Option.some.inj h
    rfl
  -- a division is not folded where the divisor is zero
  | div =>
    rw [foldFloats] at h
    split at h
    · cases h
    · obtain rfl := Option.some.inj h
      rfl
  | _ => cases h

/-- So does an operator on numbers of either type. -/
theorem type_foldNumbers (h : foldNumbers op a b = some v) :
    ValueType.binary? op a.type b.type = some v.type := by
  unfold foldNumbers at h
  split at h
  · exact type_foldInts h
  · next hne =>
    split at h
    · next x y hx hy =>
      refine type_foldFloats (isNumeric_of_number? hx) (isNumeric_of_number? hy) ?_ h
      -- two integers would have been folded as integers
      rintro ⟨ha, hb⟩
      obtain ⟨m, rfl⟩ := exists_int_of_type ha
      obtain ⟨n, rfl⟩ := exists_int_of_type hb
      exact hne m n rfl rfl
    · cases h

/-- **A constant that an operator yields** for two constants has the type that the operator yields for
theirs. -/
theorem type_applyBinary (h : applyBinary op a b = some v) :
    ValueType.binary? op a.type b.type = some v.type := by
  cases op with
  | and | or | eq | ne =>
    obtain rfl := Option.some.inj h
    rfl
  | add =>
    rw [applyBinary] at h
    split at h
    · -- a string with anything behind or before it is a string
      next hstring =>
      obtain rfl := Option.some.inj h
      have htype : a.type = .string ∨ b.type = .string :=
        (Bool.or_eq_true_iff.mp hstring).imp type_of_isString type_of_isString
      rw [ValueType.binary?, if_neg (by simp [BinaryOp.isLogical, BinaryOp.isComparison]),
        if_pos ⟨rfl, htype⟩]
      rfl
    · exact type_foldNumbers h
  -- the others take numbers only
  | _ => exact type_foldNumbers h

/-- So does a sign. -/
theorem type_negate? (h : a.negate? = some v) : a.type.negated? = some v.type := by
  cases a with
  | int k =>
    obtain ⟨k, -, rfl⟩ := Option.map_eq_some_iff.mp h
    rfl
  | float x =>
    obtain rfl := Option.some.inj h
    rfl
  | _ => cases h

end Literal

namespace Expr

/-! ### Types by the rules -/

/-- The type that an expression has by the rules for constants and operators: a constant has its own, an
operator has that which it yields for the types of its operands. -/
def ruleType? : Expr → Option ValueType
  | .literal _ v => some v.type
  | .unary _ .not _ => some .bool
  | .unary _ .neg a => a.type.negated?
  | .binary _ op a b => ValueType.binary? op a.type b.type
  | _ => none

/-- The constants and operators in the expression have the types that the rules give them. -/
def FollowsRules (e : Expr) : Prop :=
  ∀ p ∈ e.subexprs, ∀ t, p.ruleType? = some t → p.note.type = some t

section Rules

variable {e c p : Expr} {t : ValueType}

/-- An expression follows the rules if it does at its top and its parts do. -/
theorem followsRules_iff : e.FollowsRules ↔
    (∀ t, e.ruleType? = some t → e.note.type = some t) ∧ ∀ c ∈ e.children, c.FollowsRules := by
  rw [FollowsRules, subexprs_eq, List.forall_mem_cons]
  refine and_congr_right fun _ => ⟨fun h c hc p hp => ?_, fun h p hp => ?_⟩
  · exact h p (mem_subexprsOf.mpr ⟨c, hc, hp⟩)
  · obtain ⟨c, hc, hp⟩ := mem_subexprsOf.mp hp
    exact h c hc p hp

/-- The parts right below it do. -/
theorem FollowsRules.child (h : e.FollowsRules) (hc : c ∈ e.children) : c.FollowsRules :=
  (followsRules_iff.mp h).2 c hc

/-- All of its parts do. -/
theorem FollowsRules.part (h : e.FollowsRules) (hp : p ∈ e.subexprs) : p.FollowsRules := by
  induction e using children_induct with
  | h e ih =>
    rw [subexprs_eq] at hp
    obtain rfl | hp := List.mem_cons.mp hp
    · exact h
    · obtain ⟨c, hc, hp⟩ := mem_subexprsOf.mp hp
      exact ih c hc (h.child hc) hp

/-- The type of an expression that has one by the rules. -/
theorem FollowsRules.type_eq (h : e.FollowsRules) (ht : e.ruleType? = some t) : e.type = t := by
  rw [type, (followsRules_iff.mp h).1 t ht, Option.getD_some]

/-- The rules look at the types of the operands only. -/
theorem ruleType?_mapChildren {g : Expr → Expr} (hg : ∀ c ∈ e.children, (g c).type = c.type) :
    (e.mapChildren g).ruleType? = e.ruleType? := by
  cases e with
  | unary n op a =>
    cases op with
    | not => rfl
    | neg => exact congrArg ValueType.negated? (hg a List.mem_cons_self)
  | binary n op a b =>
    obtain ⟨ha, hb⟩ := List.forall_mem_cons.mp hg
    exact congrArg₂ (ValueType.binary? op) ha (hb b List.mem_cons_self)
  | _ => rfl

/-- **Inference follows the rules.** -/
theorem followsRules_infer (r : Resolver) (scope : TypeScope) (e : Expr) :
    (e.infer r scope).1.FollowsRules := by
  intro p hp t ht
  rw [subexprs_infer] at hp
  obtain ⟨q, -, rfl⟩ := List.mem_map.mp hp
  cases q with
  | literal n v => exact ht
  | unary n op a =>
    cases op with
    | not => exact ht
    | neg =>
      -- the rule gave the type, so the operator has it
      have hneg : (a.infer r scope).1.type.negated? = some t := ht
      rw [infer]
      dsimp only
      rw [hneg]
      rfl
  -- the operator was typed by the rule for the types of its operands
  | binary n op a b =>
    have hyields : ValueType.binary? op (a.infer r scope).1.type (b.infer r scope).1.type = some t := ht
    rw [infer]
    dsimp only
    rw [hyields]
    rfl
  | call n x as c => cases c <;> cases ht
  | method n b x as c =>
    rw [infer] at ht
    dsimp only at ht
    split at ht <;> cases ht
  | _ => cases ht

/-- A step that writes down nothing about types keeps to the rules. -/
theorem FollowsRules.mapParts {g : Expr → Expr} (hnote : ∀ e, (g e).note = e.note)
    (hchildren : ∀ e, (g e).children = e.children) (hrule : ∀ e, (g e).ruleType? = e.ruleType?)
    (h : e.FollowsRules) : (e.mapParts g).FollowsRules := by
  have hparts : ∀ e : Expr, (e.mapParts g).note = e.note := fun e => by
    rw [mapParts_eq, hnote, note_mapChildren]
  induction e using children_induct with
  | h e ih =>
    rw [followsRules_iff, hparts, mapParts_eq, hrule, hchildren, children_mapChildren,
      ruleType?_mapChildren fun c _ => congrArg (fun n => n.type.getD .unknown) (hparts c)]
    refine ⟨(followsRules_iff.mp h).1, List.forall_mem_map.mpr fun c hc => ih c hc (h.child hc)⟩

/-- Binding functions keeps to the rules. -/
theorem FollowsRules.bindFunctions (h : e.FollowsRules) (r : Resolver) :
    (e.mapParts (bindFunction r)).FollowsRules := by
  -- only the callee of a call is written down
  have hbind : ∀ e : Expr, bindFunction r e = e ∨ ∃ n x as c c', e = .call n x as c ∧
      bindFunction r e = .call n x as c' := by
    intro e
    cases e with
    | call n x as c =>
      rw [bindFunction]
      split
      · exact .inr ⟨n, x, as, c, _, rfl, rfl⟩
      · exact .inl rfl
    | _ => exact .inl rfl
  refine h.mapParts (fun e => ?_) (fun e => ?_) fun e => ?_ <;>
    obtain heq | ⟨n, x, as, c, c', rfl, heq⟩ := hbind e <;> rw [heq] <;> rfl

end Rules

/-! ### Folding -/

section Fold

variable {e : Expr} {v : Literal}

theorem literal?_mapChildren (g : Expr → Expr) (e : Expr) : (e.mapChildren g).literal? = e.literal? := by
  cases e <;> rfl

/-- A folded expression is a constant, or the expression with its parts folded. -/
theorem fold_cases (e : Expr) :
    (∃ v, (e.mapChildren fold).folded? = some v ∧ e.fold = .literal ⟨e.span, some v.type⟩ v) ∨
      e.fold = e.mapChildren fold := by
  rw [fold_eq]
  cases hv : (e.mapChildren fold).folded? with
  | some v =>
    refine .inl ⟨v, rfl, ?_⟩
    rw [foldPart, hv, span, note_mapChildren]
    rfl
  | none => exact .inr (foldPart_eq_self hv)

/-- **One operator.** If the operands become constants of their types, the constant that the operator yields
has the type of the operator. -/
theorem ruleType?_of_folded? (hv : (e.mapChildren fold).folded? = some v)
    (hparts : ∀ c ∈ e.children, ∀ w, c.fold.literal? = some w → c.type = w.type) :
    e.ruleType? = some v.type := by
  cases e with
  | unary n op a =>
    obtain ⟨w, hw, hv⟩ := Option.bind_eq_some_iff.mp hv
    -- the operand has the type of its constant
    have ha : a.type = w.type := hparts a List.mem_cons_self w hw
    cases op with
    | not =>
      obtain rfl := Option.some.inj hv
      rfl
    | neg =>
      rw [ruleType?, ha]
      exact Literal.type_negate? hv
  -- both operands become constants, of their own types
  | binary n op a b =>
    obtain ⟨w, hw, hv⟩ := Option.bind_eq_some_iff.mp hv
    obtain ⟨u, hu, hv⟩ := Option.bind_eq_some_iff.mp hv
    obtain ⟨ha, hb⟩ := List.forall_mem_cons.mp hparts
    rw [ruleType?, ha w hw, hb b List.mem_cons_self u hu]
    exact Literal.type_applyBinary hv
  | _ => cases hv

/-- **A constant has the type of what it stands for.** Whatever becomes a constant by folding has the type of
the constant by the rules. -/
theorem FollowsRules.ruleType?_of_fold (h : e.FollowsRules) (hv : e.fold.literal? = some v) :
    e.ruleType? = some v.type := by
  induction e using children_induct generalizing v with
  | h e ih =>
    obtain ⟨w, hw, heq⟩ | heq := e.fold_cases
    · rw [heq] at hv
      obtain rfl : w = v := Option.some.inj hv
      exact ruleType?_of_folded? hw fun c hc u hu => (h.child hc).type_eq (ih c hc (h.child hc) hu)
    · -- what was not folded is a constant only if it was one
      rw [heq, literal?_mapChildren] at hv
      cases e with
      | literal n w => exact congrArg (Option.map Literal.type) hv
      | _ => cases hv

/-- **Folding keeps the type** of the whole, and its place. -/
theorem FollowsRules.note_fold (h : e.FollowsRules) : e.fold.note = e.note := by
  obtain ⟨v, -, heq⟩ | heq := e.fold_cases
  · have htype : e.note.type = some v.type :=
      (followsRules_iff.mp h).1 _ (h.ruleType?_of_fold (by rw [heq]; rfl))
    rw [heq, ← htype]
    rfl
  · rw [heq, note_mapChildren]

/-- What is folded follows the rules. -/
theorem FollowsRules.fold (h : e.FollowsRules) : e.fold.FollowsRules := by
  induction e using children_induct with
  | h e ih =>
    obtain ⟨v, -, heq⟩ | heq := e.fold_cases
    · rw [heq, followsRules_iff]
      exact ⟨fun t ht => ht, List.forall_mem_nil _⟩
    · rw [heq, followsRules_iff, note_mapChildren, children_mapChildren,
        ruleType?_mapChildren fun c hc => congrArg (fun n => n.type.getD .unknown) (h.child hc).note_fold]
      exact ⟨(followsRules_iff.mp h).1, List.forall_mem_map.mpr fun c hc => ih c hc (h.child hc)⟩

/-- The part that stands at some place of the expression: the path goes from each part to one of those
directly below it. -/
def at? : Expr → List Nat → Option Expr
  | e, [] => some e
  | e, i :: path => (e.children[i]?).bind (at? · path)

/-- **Folding keeps the type of each part** that it leaves. -/
theorem FollowsRules.exists_at?_of_fold (h : e.FollowsRules) {path : List Nat} {p : Expr}
    (hp : e.fold.at? path = some p) : ∃ q, e.at? path = some q ∧ p.note = q.note := by
  induction path generalizing e with
  | nil =>
    obtain rfl := Option.some.inj hp
    exact ⟨e, rfl, h.note_fold⟩
  | cons i path ih =>
    obtain ⟨d, hd, hp⟩ := Option.bind_eq_some_iff.mp hp
    obtain ⟨v, -, heq⟩ | heq := e.fold_cases
    · -- there is nothing below a constant
      rw [heq] at hd
      cases hd
    · rw [heq, children_mapChildren, List.getElem?_map] at hd
      obtain ⟨c, hc, rfl⟩ := Option.map_eq_some_iff.mp hd
      obtain ⟨q, hq, hnote⟩ := ih (h.child (List.mem_of_getElem? hc)) hp
      exact ⟨q, Option.bind_eq_some_iff.mpr ⟨c, hc, hq⟩, hnote⟩

end Fold

end Expr

end TemplateFrontend
