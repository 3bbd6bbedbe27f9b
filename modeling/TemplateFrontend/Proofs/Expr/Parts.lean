import TemplateFrontend.Transform.Folding
import TemplateFrontend.Typing.Infer
import Mathlib.Data.List.Basic
import TemplateFrontend.Check.Variables
/-!
# Expressions part by part

What is done to an expression from its innermost parts outwards is done to the parts directly below it
first, and then to what that leaves. So a proof about it is one induction over parts, with a step that
does not depend on which kind of expression it is about.

* `Expr.children_induct` — induction over parts;
* `Expr.mapChildren` — an expression with the parts directly below it replaced;
* `Expr.mapParts_eq` — parts are replaced below an expression before it is;
* `Expr.subexprs_mapParts` — the parts of an expression with its parts replaced;
* `Expr.subexprs_infer` — the parts of a typed expression are its parts, typed;
* `Expr.folded?_of_mem_fold` — no part of a folded expression can be folded;
* `Expr.fold_eq_self` — an expression without such parts is folded already;
* `Expr.refs_fold` — folding keeps the references to variables, with their places and in order;
* `NodeKind.mapExprs_fold_fold`, `NodeKind.varRefs_mapExprs_fold` — the same for all expressions of a
  node.
-/

namespace TemplateFrontend

namespace Expr

/-! ### Parts -/

/-- An expression, and the parts of what is right below it. -/
theorem subexprs_eq (e : Expr) : e.subexprs = e :: subexprsOf e.children := by
  cases e <;> simp [subexprs, subexprsOf, children]

/-- The parts of several expressions are parts of one of them. -/
theorem mem_subexprsOf {es : List Expr} {p : Expr} :
    p ∈ subexprsOf es ↔ ∃ e ∈ es, p ∈ e.subexprs := by
  induction es with
  | nil => simp [subexprsOf]
  | cons e es ih => simp [subexprsOf, ih]

/-- They are listed expression by expression. -/
theorem subexprsOf_eq_flatMap (es : List Expr) : subexprsOf es = es.flatMap subexprs := by
  induction es with
  | nil => rfl
  | cons e es ih => rw [subexprsOf, ih, List.flatMap_cons]

section Parts

variable {e p : Expr}

/-- A part is smaller than its owner. -/
theorem sizeOf_lt_of_mem_children (h : p ∈ e.children) : sizeOf p < sizeOf e := by
  -- one of several operands is smaller than their list
  have hlist : ∀ {es : List Expr}, p ∈ es → sizeOf p < sizeOf es := List.sizeOf_lt_of_mem
  cases e with
  | literal | var | global => cases h
  | field n b x =>
    obtain rfl := List.mem_singleton.mp h
    rw [field.sizeOf_spec]
    omega
  | call n x as c =>
    have hlt : sizeOf p < sizeOf as := hlist h
    rw [call.sizeOf_spec]
    omega
  | method n b x as c =>
    rw [method.sizeOf_spec]
    -- the receiver, or one of the arguments
    obtain rfl | h := List.mem_cons.mp h
    · omega
    · have hlt := hlist h
      omega
  | list n es =>
    have hlt : sizeOf p < sizeOf es := hlist h
    rw [list.sizeOf_spec]
    omega
  | unary n op a =>
    obtain rfl := List.mem_singleton.mp h
    rw [unary.sizeOf_spec]
    omega
  | binary n op a b =>
    rw [binary.sizeOf_spec]
    obtain rfl | rfl : p = a ∨ p = b := by simpa [children] using h
    · omega
    · omega

/-- **Induction over parts.** What holds of an expression once it holds of the parts directly below
it, holds of every expression. -/
theorem children_induct {P : Expr → Prop} (h : ∀ e, (∀ c ∈ e.children, P c) → P e) (e : Expr) : P e :=
  h e fun c _ => children_induct h c
termination_by sizeOf e
decreasing_by exact sizeOf_lt_of_mem_children ‹_›

end Parts

/-! ### Parts replaced -/

/-- The expression with the parts directly below it replaced. -/
def mapChildren (g : Expr → Expr) : Expr → Expr
  | .literal n v => .literal n v
  | .var n x => .var n x
  | .global n x => .global n x
  | .field n b x => .field n (g b) x
  | .call n x as c => .call n x (as.map g) c
  | .method n b x as c => .method n (g b) x (as.map g) c
  | .list n es => .list n (es.map g)
  | .unary n op a => .unary n op (g a)
  | .binary n op a b => .binary n op (g a) (g b)

section MapChildren

variable {g h : Expr → Expr} {e p : Expr}

/-- **Parts are replaced** below an expression before the expression is. -/
theorem mapParts_eq (f : Expr → Expr) (e : Expr) :
    e.mapParts f = f (e.mapChildren (mapParts f)) := by
  cases e <;> simp only [mapParts, mapChildren, mapPartsOf_eq_map]

/-- The parts right below are the replaced ones. -/
theorem children_mapChildren (g : Expr → Expr) (e : Expr) :
    (e.mapChildren g).children = e.children.map g := by
  cases e <;> rfl

@[simp] theorem note_mapChildren (g : Expr → Expr) (e : Expr) : (e.mapChildren g).note = e.note := by
  cases e <;> rfl

/-- Parts may be replaced twice. -/
theorem mapChildren_mapChildren (g h : Expr → Expr) (e : Expr) :
    (e.mapChildren g).mapChildren h = e.mapChildren (h ∘ g) := by
  cases e <;> simp only [mapChildren, List.map_map, Function.comp_apply]

/-- Only what becomes of the parts directly below the expression matters. -/
theorem mapChildren_congr (hgh : ∀ c ∈ e.children, g c = h c) : e.mapChildren g = e.mapChildren h := by
  cases e with
  | literal | var | global => rfl
  | field n b x => exact congrArg (field n · x) (hgh b List.mem_cons_self)
  | call n x as c => exact congrArg (call n x · c) (List.map_congr_left hgh)
  -- the receiver is the first child
  | method n b x as c =>
    obtain ⟨hb, has⟩ := List.forall_mem_cons.mp hgh
    exact congrArg₂ (method n · x · c) hb (List.map_congr_left has)
  | list n es => exact congrArg (list n) (List.map_congr_left hgh)
  | unary n op a => exact congrArg (unary n op) (hgh a List.mem_cons_self)
  | binary n op a b =>
    obtain ⟨ha, hb⟩ := List.forall_mem_cons.mp hgh
    exact congrArg₂ (binary n op) ha (hb b List.mem_cons_self)

/-- **The parts of an expression with its parts replaced** are its parts, each of them with its own parts
replaced, if what replaces a part has what is below that part below it. -/
theorem subexprs_mapParts (hg : ∀ e : Expr, (g e).children = e.children) (e : Expr) :
    (e.mapParts g).subexprs = e.subexprs.map (mapParts g) := by
  induction e using children_induct with
  | h e ih =>
    have hbelow : subexprsOf (e.mapParts g).children = (subexprsOf e.children).map (mapParts g) :=
      calc subexprsOf (e.mapParts g).children
          = e.children.flatMap fun c => (c.mapParts g).subexprs := by
            rw [mapParts_eq, hg, children_mapChildren, subexprsOf_eq_flatMap, List.flatMap_map]
        _ = e.children.flatMap fun c => c.subexprs.map (mapParts g) := List.flatMap_congr ih
        _ = (subexprsOf e.children).map (mapParts g) := by rw [subexprsOf_eq_flatMap, List.map_flatMap]
    rw [subexprs_eq, hbelow, subexprs_eq e, List.map_cons]

/-- With each part replaced by itself nothing changes. -/
theorem mapChildren_eq_self (hg : ∀ c ∈ e.children, g c = c) : e.mapChildren g = e := by
  rw [mapChildren_congr hg]
  cases e <;> simp only [mapChildren, List.map_id']

end MapChildren

/-! ### Typing -/

section Infer

variable (r : Resolver) (scope : TypeScope)

/-- Several expressions are typed one by one. -/
theorem inferAll_fst (es : List Expr) : (inferAll r scope es).1 = es.map fun e => (e.infer r scope).1 := by
  induction es with
  | nil => rfl
  | cons e es ih => exact congrArg ((e.infer r scope).1 :: ·) ih

/-- The parts right below a typed expression are typed. -/
theorem children_infer (e : Expr) :
    (e.infer r scope).1.children = e.children.map fun c => (c.infer r scope).1 := by
  cases e with
  | literal | var | global | field | binary => rfl
  | call n name args callee => cases callee <;> exact inferAll_fst r scope args
  | method n b name args callee =>
    have hparts := congrArg ((b.infer r scope).1 :: ·) (inferAll_fst r scope args)
    rw [infer]
    dsimp only
    -- whether the method is found or not, the parts are the same
    split <;> exact hparts
  | list n es => exact inferAll_fst r scope es
  | unary n op a => cases op <;> rfl

/-- **The parts of a typed expression** are the parts of the expression, each of them typed. -/
theorem subexprs_infer (e : Expr) :
    (e.infer r scope).1.subexprs = e.subexprs.map fun p => (p.infer r scope).1 := by
  induction e using children_induct with
  | h e ih =>
    -- the parts directly below are the typed children, and the parts of those are known
    have hbelow : subexprsOf (e.infer r scope).1.children =
        (subexprsOf e.children).map fun p => (p.infer r scope).1 :=
      calc subexprsOf (e.infer r scope).1.children
          = e.children.flatMap fun c => (c.infer r scope).1.subexprs := by
            rw [children_infer, subexprsOf_eq_flatMap, List.flatMap_map]
        _ = e.children.flatMap fun c => c.subexprs.map fun p => (p.infer r scope).1 :=
            List.flatMap_congr ih
        _ = (subexprsOf e.children).map fun p => (p.infer r scope).1 := by
            rw [subexprsOf_eq_flatMap, List.map_flatMap]
    rw [subexprs_eq, hbelow, subexprs_eq e, List.map_cons]

end Infer

/-! ### Folding -/

section Fold

variable {e p : Expr}

/-- An expression is folded after its parts. -/
theorem fold_eq (e : Expr) : e.fold = (e.mapChildren fold).foldPart := mapParts_eq foldPart e

/-- What cannot be folded is left as it is. -/
theorem foldPart_eq_self (h : e.folded? = none) : e.foldPart = e := by
  rw [foldPart, h]

/-- **A folded expression** has no part that can be folded. -/
theorem folded?_of_mem_fold (hp : p ∈ e.fold.subexprs) : p.folded? = none := by
  induction e using children_induct with
  | h e ih =>
    rw [fold_eq] at hp
    cases hv : (e.mapChildren fold).folded? with
    | some v =>
      rw [foldPart, hv] at hp
      obtain rfl := List.mem_singleton.mp hp
      rfl
    | none =>
      rw [foldPart_eq_self hv, subexprs_eq, children_mapChildren] at hp
      obtain rfl | hp := List.mem_cons.mp hp
      · exact hv
      -- the part is below an operand, which was folded before
      · obtain ⟨d, hd, hp⟩ := mem_subexprsOf.mp hp
        obtain ⟨c, hc, rfl⟩ := List.mem_map.mp hd
        exact ih c hc hp

/-- An expression without parts that can be folded stays as it is. -/
theorem fold_eq_self (h : ∀ p ∈ e.subexprs, p.folded? = none) : e.fold = e := by
  induction e using children_induct with
  | h e ih =>
    rw [subexprs_eq] at h
    obtain ⟨hself, hparts⟩ := List.forall_mem_cons.mp h
    have hchildren : e.mapChildren fold = e := mapChildren_eq_self fun c hc =>
      ih c hc fun p hp => hparts p (mem_subexprsOf.mpr ⟨c, hc, hp⟩)
    rw [fold_eq, hchildren, foldPart_eq_self hself]

/-- **Folding twice.** -/
theorem fold_fold (e : Expr) : e.fold.fold = e.fold := fold_eq_self fun _ hp => folded?_of_mem_fold hp

end Fold

/-! ### References -/

/-- The references in an expression, in source order. -/
def refs (e : Expr) : List VarRef := e.subexprs.filterMap (·.varRef?)

/-- The references of the first expression come first. -/
theorem varRefs_cons (e : Expr) (es : List Expr) :
    TemplateFile.varRefs (e :: es) = e.refs ++ TemplateFile.varRefs es := by
  rw [TemplateFile.varRefs, subexprsOf, List.filterMap_append]
  rfl

/-- References are listed expression by expression. -/
theorem varRefs_eq_flatMap (es : List Expr) : TemplateFile.varRefs es = es.flatMap refs := by
  induction es with
  | nil => rfl
  | cons e es ih => rw [varRefs_cons, ih, List.flatMap_cons]

/-- The references in an expression are the expression itself, if it is one, and those in its parts. -/
theorem refs_eq (e : Expr) : e.refs = e.varRef?.toList ++ TemplateFile.varRefs e.children := by
  rw [refs, subexprs_eq, List.filterMap_cons]
  cases e.varRef? <;> rfl

/-- The references stay if those of each part do. -/
theorem refs_mapChildren {g : Expr → Expr} {e : Expr} (hg : ∀ c ∈ e.children, (g c).refs = c.refs) :
    (e.mapChildren g).refs = e.refs := by
  have hself : (e.mapChildren g).varRef? = e.varRef? := by cases e <;> rfl
  rw [refs_eq, refs_eq e, hself, children_mapChildren, varRefs_eq_flatMap, varRefs_eq_flatMap,
    List.flatMap_map]
  exact congrArg _ (List.flatMap_congr hg)

/-! ### One part -/

/-- A constant refers to nothing. -/
theorem refs_of_literal? {e : Expr} {v : Literal} (h : e.literal? = some v) : e.refs = [] := by
  cases e with
  | literal => rfl
  | _ => cases h

/-- Only operators on constants become constants, and there are no variables in those. -/
theorem refs_foldPart (e : Expr) : e.foldPart.refs = e.refs := by
  cases hv : e.folded? with
  | none => rw [foldPart_eq_self hv]
  | some v =>
    -- a constant refers to nothing, and neither did the operands it was folded from
    have hleaf : e.foldPart.refs = [] := by rw [foldPart, hv]; rfl
    rw [hleaf, refs_eq, varRefs_eq_flatMap]
    cases e with
    | unary n op a =>
      obtain ⟨w, hw, -⟩ := Option.bind_eq_some_iff.mp hv
      simp [varRef?, children, refs_of_literal? hw]
    | binary n op a b =>
      obtain ⟨w, hw, hv⟩ := Option.bind_eq_some_iff.mp hv
      obtain ⟨u, hu, -⟩ := Option.bind_eq_some_iff.mp hv
      simp [varRef?, children, refs_of_literal? hw, refs_of_literal? hu]
    | _ => cases hv

/-! ### The whole expression -/

/-- **Folding keeps references.** -/
theorem refs_fold (e : Expr) : e.fold.refs = e.refs := by
  induction e using children_induct with
  | h e ih => rw [fold_eq, refs_foldPart, refs_mapChildren ih]

/-- Folding keeps the references of several expressions. -/
theorem varRefs_map_fold (es : List Expr) :
    TemplateFile.varRefs (es.map fold) = TemplateFile.varRefs es := by
  rw [varRefs_eq_flatMap, varRefs_eq_flatMap, List.flatMap_map]
  exact List.flatMap_congr fun e _ => refs_fold e

end Expr

namespace NodeKind

open TemplateFrontend.Expr

/-- The expressions of a node may be rewritten twice. -/
theorem mapExprs_mapExprs (g h : Expr → Expr) (k : NodeKind) :
    (k.mapExprs g).mapExprs h = k.mapExprs (h ∘ g) := by
  cases k with
  | binding x b => cases b <;> rfl
  | call c =>
    simp only [mapExprs, List.map_map]
    refine congrArg (fun ps => NodeKind.call { c with passed := ps }) ?_
    refine List.map_congr_left fun p _ => ?_
    cases hb : p.bound <;> simp [hb, Bound.mapExpr]
  | template t => simp only [mapExprs, List.map_map]; rfl
  | print e ds => simp only [mapExprs, List.map_map, Function.comp_def]
  | conditional bs o => simp only [mapExprs, List.map_map]; rfl
  | _ => rfl

/-- Folding the expressions of a node twice. -/
theorem mapExprs_fold_fold (k : NodeKind) : (k.mapExprs fold).mapExprs fold = k.mapExprs fold := by
  rw [mapExprs_mapExprs]
  exact congrArg (k.mapExprs ·) (funext fold_fold)

/-- A node holds the rewritten expressions. -/
theorem exprs_mapExprs (g : Expr → Expr) (k : NodeKind) : (k.mapExprs g).exprs = k.exprs.map g := by
  cases k with
  | binding x b => cases b <;> rfl
  | call c =>
    rw [mapExprs, exprs, exprs, List.filterMap_map, List.map_filterMap]
    refine List.filterMap_congr fun p _ => ?_
    cases hb : p.bound <;> simp [hb, Bound.mapExpr, Bound.expr?]
  | template t => simp only [mapExprs, exprs, List.map_map]; rfl
  | print e ds =>
    simp only [mapExprs, exprs, List.map_cons, List.flatMap_map, List.map_flatMap]
  | conditional bs o => simp only [mapExprs, exprs, List.map_map]; rfl
  | _ => rfl

/-- Folding the expressions of a node keeps its references. -/
theorem varRefs_mapExprs_fold (k : NodeKind) :
    TemplateFile.varRefs (k.mapExprs fold).exprs = TemplateFile.varRefs k.exprs := by
  rw [exprs_mapExprs, varRefs_map_fold]

end NodeKind

end TemplateFrontend
