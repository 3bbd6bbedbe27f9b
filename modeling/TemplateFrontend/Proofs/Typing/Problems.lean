import TemplateFrontend.Proofs.Expr.Parts
import TemplateFrontend.Proofs.Transform.Retouching
import TemplateFrontend.Proofs.Tree.Arena
/-!
# What typing finds wrong

Typing an expression lists what is wrong with it, part by part, and the walk over the nodes hands these lists
on: nothing that is found anywhere gets lost on the way to the diagnostics of the file. The walk comes to every
node of the forest, so every expression in the file is typed in the end, and what is wrong with it is listed.

* `Expr.problems_infer_subset` — what is wrong with a part is wrong with the whole;
* `Expr.bound_of_infer_method` — a call of a method is bound, or it is listed;
* `Expr.TypedAmong`, `NodeKind.TypedAmong` — typed, with what is wrong among some problems;
* `TemplateFile.TypesAmong` — what a step of the walk does to any node, which `runAll` keeps;
* `TemplateFile.typeNodes_cons_cases` — one node of the walk;
* `TemplateFile.typeNodes_covers` — the walk comes to every node, by induction on the forest;
* `TemplateFile.Planted.resolveTypes_covers` — the same for a file.
-/

namespace TemplateFrontend

open Forest

/-! ### Expressions -/

namespace Expr

section Infer

variable {r : Resolver} {scope : TypeScope} {e p : Expr} {ps qs : TypeProblems}

/-- What is wrong with several expressions is what is wrong with each. -/
theorem inferAll_snd (r : Resolver) (scope : TypeScope) (es : List Expr) :
    (inferAll r scope es).2 = es.flatMap fun e => (e.infer r scope).2 := by
  induction es with
  | nil => rfl
  | cons e es ih =>
    rw [inferAll, List.flatMap_cons, ← ih]

/-- A typed expression has a type. -/
theorem isSome_type_infer (r : Resolver) (scope : TypeScope) (e : Expr) :
    (e.infer r scope).1.note.type.isSome = true := by
  -- every branch ends by giving a type
  have hwith : ∀ (t : ValueType) (e : Expr), (e.withType t).note.type.isSome = true := fun t e => by
    rw [withType, note_withNote]
    rfl
  cases e with
  | unary n op a => cases op <;> simp only [infer, hwith]
  | call n x as c => cases c <;> simp only [infer, hwith]
  | method n b x as c =>
    rw [infer]
    dsimp only
    split <;> simp only [hwith]
  | _ => simp only [infer, hwith]

/-- What is wrong with a part directly below is wrong with the whole. -/
theorem problems_infer_child (hp : p ∈ e.children) : (p.infer r scope).2 ⊆ (e.infer r scope).2 := by
  have hargs : ∀ {es : List Expr}, p ∈ es → (p.infer r scope).2 ⊆ (inferAll r scope es).2 := by
    intro es hp x hx
    rw [inferAll_snd]
    exact List.mem_flatMap.mpr ⟨p, hp, hx⟩
  -- every form keeps what was found in its parts and adds at most one problem of its own
  cases e with
  | literal | var | global => cases hp
  | field n b x =>
    obtain rfl := List.mem_singleton.mp hp
    exact List.subset_append_left _ _
  | call n x as c =>
    cases c with
    | none => exact hargs hp
    | some c => exact List.subset_append_of_subset_left _ (hargs hp)
  -- the problems of the base come before those of the arguments
  | method n b x as c =>
    have hparts : (p.infer r scope).2 ⊆ (b.infer r scope).2 ++ (inferAll r scope as).2 := by
      obtain rfl | hp := List.mem_cons.mp hp
      · exact List.subset_append_left _ _
      · exact List.subset_append_of_subset_right _ (hargs hp)
    rw [infer]
    dsimp only
    split <;> exact List.subset_append_of_subset_left _ hparts
  | list n es => exact hargs hp
  | unary n op a =>
    obtain rfl := List.mem_singleton.mp hp
    cases op with
    | not => exact List.Subset.refl _
    | neg => exact List.subset_append_left _ _
  | binary n op a b =>
    obtain rfl | hp := List.mem_cons.mp hp
    · exact List.subset_append_of_subset_left _ (List.subset_append_left _ _)
    · obtain rfl := List.mem_singleton.mp hp
      exact List.subset_append_of_subset_left _ (List.subset_append_right _ _)

/-- **What is wrong with a part** is wrong with the whole. -/
theorem problems_infer_subset (hp : p ∈ e.subexprs) : (p.infer r scope).2 ⊆ (e.infer r scope).2 := by
  induction e using children_induct with
  | h e ih =>
    rw [subexprs_eq] at hp
    obtain rfl | hp := List.mem_cons.mp hp
    · exact List.Subset.refl _
    · obtain ⟨c, hc, hp⟩ := mem_subexprsOf.mp hp
      exact List.Subset.trans (ih c hc hp) (problems_infer_child hc)

/-- The expression was typed, and what was wrong with it is among the problems. -/
def TypedAmong (r : Resolver) (ps : TypeProblems) (e : Expr) : Prop :=
  ∃ scope e₀, e = (infer r scope e₀).1 ∧ (infer r scope e₀).2 ⊆ ps

/-- There may be more problems. -/
theorem TypedAmong.mono (h : e.TypedAmong r ps) (hps : ps ⊆ qs) : e.TypedAmong r qs := by
  obtain ⟨scope, e₀, heq, hsub⟩ := h
  exact ⟨scope, e₀, heq, List.Subset.trans hsub hps⟩

/-- The parts of an expression were typed with it. -/
theorem TypedAmong.part (h : e.TypedAmong r ps) (hp : p ∈ e.subexprs) : p.TypedAmong r ps := by
  obtain ⟨scope, e₀, rfl, hsub⟩ := h
  rw [subexprs_infer] at hp
  obtain ⟨q, hq, rfl⟩ := List.mem_map.mp hp
  exact ⟨scope, q, rfl, List.Subset.trans (problems_infer_subset hq) hsub⟩

/-- **A call of a method** is bound to what the resolver finds for it, or what it says is listed. -/
theorem TypedAmong.method {n : Note} {b : Expr} {name : String} {args : List Expr} {callee : Option Callee}
    (h : (Expr.method n b name args callee).TypedAmong r ps) :
    (∃ c, callee = some c ∧ r.method name b.type args.length = .ok c) ∨
      ∃ err, r.method name b.type args.length = .error err ∧ (n.span, .method err) ∈ ps := by
  obtain ⟨scope, e₀, heq, hsub⟩ := h
  -- what is typed as a method was one before, with the same name and arguments that are typed
  cases e₀ with
  | method m b₀ x as c =>
    rw [infer] at heq hsub
    dsimp only at heq hsub
    split at heq
    · next c' hfound =>
      obtain ⟨-, rfl, rfl, rfl, rfl⟩ := Expr.method.inj heq
      exact .inl ⟨c', rfl, hfound⟩
    · next err hfound =>
      obtain ⟨rfl, rfl, rfl, rfl, rfl⟩ := Expr.method.inj heq
      rw [hfound] at hsub
      exact .inr ⟨err, hfound, hsub (List.mem_append_right _ (List.mem_singleton_self _))⟩
  | call m x as c => cases c <;> cases heq
  | unary m op a => cases op <;> cases heq
  | _ => cases heq

end Infer

end Expr

/-! ### Nodes -/

/-- The expressions of the node were typed, and what was wrong with them is among the problems. -/
def NodeKind.TypedAmong (r : Resolver) (ps : TypeProblems) (k : NodeKind) : Prop :=
  ∀ e ∈ k.exprs, e.TypedAmong r ps

section Nodes

variable {r : Resolver} {ps qs : TypeProblems}

/-- There may be more problems than those of the node. -/
theorem NodeKind.TypedAmong.mono {k : NodeKind} (h : k.TypedAmong r ps) (hps : ps ⊆ qs) :
    k.TypedAmong r qs := fun e he => (h e he).mono hps

/-- A node with its expressions typed. -/
theorem NodeKind.typedAmong_mapExprs {scope : TypeScope} {k : NodeKind}
    (h : (k.exprs.flatMap fun e => (e.infer r scope).2) ⊆ ps) :
    (k.mapExprs fun e => (e.infer r scope).1).TypedAmong r ps := by
  intro e he
  rw [exprs_mapExprs] at he
  obtain ⟨e₀, he₀, rfl⟩ := List.mem_map.mp he
  exact ⟨scope, e₀, rfl, fun x hx => h (List.mem_flatMap.mpr ⟨e₀, he₀, hx⟩)⟩

end Nodes

namespace TemplateFile

/-! ### Steps of the walk -/

/-- A step, which finds problems, for each of some things, one after the other. -/
def runAll {α : Type} (step : TemplateFile → α → TemplateFile × TypeProblems) :
    TemplateFile → List α → TemplateFile × TypeProblems
  | f, [] => (f, [])
  | f, a :: as =>
    ((runAll step (step f a).1 as).1, (step f a).2 ++ (runAll step (step f a).1 as).2)

/-- What was found before is kept in front. -/
theorem foldl_eq_runAll {α : Type} (step : TemplateFile → α → TemplateFile × TypeProblems) (as : List α)
    (f : TemplateFile) (ps : TypeProblems) :
    as.foldl (fun (x : TemplateFile × TypeProblems) a => ((step x.1 a).1, x.2 ++ (step x.1 a).2)) (f, ps) =
      ((runAll step f as).1, ps ++ (runAll step f as).2) := by
  induction as generalizing f ps with
  | nil => rw [runAll, List.append_nil, List.foldl_nil]
  | cons a as ih => rw [List.foldl_cons, ih, runAll, List.append_assoc]

/-- What a step of the walk does to any node: it leaves it as it is, or it types its expressions and finds
what is wrong with them. -/
structure TypesAmong (r : Resolver) (ps : TypeProblems) (f g : TemplateFile) : Prop where
  size_eq : g.nodes.size = f.nodes.size
  bodies_eq : ∀ x, (g.kind x).bodies = (f.kind x).bodies
  kind_cases : ∀ x, g.kind x = f.kind x ∨ (g.kind x).TypedAmong r ps

section Steps

variable {r : Resolver} {ps qs : TypeProblems} {f g h : TemplateFile}

/-- Nothing is done to any node. -/
theorem TypesAmong.refl (f : TemplateFile) : TypesAmong r ps f f := ⟨rfl, fun _ => rfl, fun _ => .inl rfl⟩

/-- There may be more problems than the step found. -/
theorem TypesAmong.mono (hfg : TypesAmong r ps f g) (hps : ps ⊆ qs) : TypesAmong r qs f g :=
  ⟨hfg.size_eq, hfg.bodies_eq, fun x => (hfg.kind_cases x).imp_right (·.mono hps)⟩

/-- One step after the other: what was typed by the first one stays typed. -/
theorem TypesAmong.trans (hfg : TypesAmong r ps f g) (hgh : TypesAmong r ps g h) : TypesAmong r ps f h where
  size_eq := hgh.size_eq.trans hfg.size_eq
  bodies_eq x := (hgh.bodies_eq x).trans (hfg.bodies_eq x)
  kind_cases x := by
    obtain heq | htyped := hgh.kind_cases x
    · rw [heq]
      exact hfg.kind_cases x
    · exact .inr htyped

/-- A typed node stays typed. -/
theorem TypesAmong.keeps (hfg : TypesAmong r ps f g) {x : NodeId} (hx : (f.kind x).TypedAmong r ps) :
    (g.kind x).TypedAmong r ps := by
  obtain heq | htyped := hfg.kind_cases x
  · rwa [heq]
  · exact htyped

/-- A node is set to a typed form of what it was. -/
theorem TypesAmong.setKind {id : NodeId} {k : NodeKind} (hbodies : k.bodies = (f.kind id).bodies)
    (hk : k.TypedAmong r ps) : TypesAmong r ps f (f.setKind id k) where
  size_eq := size_setKind ..
  bodies_eq x := by
    obtain ⟨rfl, heq⟩ | heq := kind_setKind_cases f id k x
    · rw [heq, hbodies]
    · rw [heq]
  kind_cases x := by
    obtain ⟨rfl, heq⟩ | heq := kind_setKind_cases f id k x
    · rw [heq]
      exact .inr hk
    · exact .inl heq

/-- A node has its expressions typed. -/
theorem TypesAmong.typed {scope : TypeScope} {id : NodeId} {k : NodeKind} (hk : (f.kind id).bodies = k.bodies)
    (hown : (k.exprs.flatMap fun e => (e.infer r scope).2) ⊆ ps) :
    TypesAmong r ps f (f.setKind id (k.mapExprs fun e => (e.infer r scope).1)) :=
  .setKind ((NodeKind.bodies_mapExprs _ k).trans hk.symm) (NodeKind.typedAmong_mapExprs hown)

section RunAll

variable {α : Type} {step : TemplateFile → α → TemplateFile × TypeProblems}
  (hstep : ∀ f a, TypesAmong r (step f a).2 f (step f a).1)

include hstep

/-- **Steps one after the other.** -/
theorem runAll_typesAmong (as : List α) (f : TemplateFile) :
    TypesAmong r (runAll step f as).2 f (runAll step f as).1 := by
  induction as generalizing f with
  | nil => exact .refl f
  | cons a as ih =>
    rw [runAll]
    exact ((hstep f a).mono (List.subset_append_left _ _)).trans
      ((ih _).mono (List.subset_append_right _ _))

/-- A node that one of the steps comes to is typed in the end, if the step comes to it in whatever file the
steps before it leave. -/
theorem runAll_covers {P : TemplateFile → Prop} {x : NodeId} {a : α} {as : List α} (ha : a ∈ as)
    (hkeep : ∀ {f g ps}, P f → TypesAmong r ps f g → P g)
    (hcover : ∀ f, P f → ((step f a).1.kind x).TypedAmong r (step f a).2) (hf : P f) :
    ((runAll step f as).1.kind x).TypedAmong r (runAll step f as).2 := by
  induction as generalizing f with
  | nil => cases ha
  | cons b as ih =>
    rw [runAll]
    obtain rfl | ha := List.mem_cons.mp ha
    · have hrest := runAll_typesAmong hstep as (step f a).1
      exact (hrest.mono (List.subset_append_right _ _)).keeps
        ((hcover f hf).mono (List.subset_append_left _ _))
    · exact (ih ha (hkeep hf (hstep f b))).mono (List.subset_append_right _ _)

end RunAll

end Steps

/-! ### One node -/

section Node

variable {r : Resolver} {scope : TypeScope} {f g : TemplateFile} {id : NodeId} {ps : TypeProblems}
  {types : TemplateFile → List NodeId → TemplateFile × TypeProblems}

/-- One node of the walk: its expressions are typed before the lists inside it are walked, or after that, and
what is found in them is among the problems. -/
inductive NodeStep (r : Resolver) (scope : TypeScope)
    (types : TemplateFile → List NodeId → TemplateFile × TypeProblems) (f : TemplateFile) (id : NodeId)
    (ps : TypeProblems) : TemplateFile → Prop
  | first {k : NodeKind} {inside : TemplateFile × TypeProblems} (hk : f.kind id = k)
      (hinside : runAll types (f.setKind id (k.mapExprs fun e => (e.infer r scope).1)) k.bodies = inside)
      (hown : (k.exprs.flatMap fun e => (e.infer r scope).2) ⊆ ps) (hlists : inside.2 ⊆ ps) :
      NodeStep r scope types f id ps inside.1
  | last {k : NodeKind} {inside : TemplateFile × TypeProblems} (hk : f.kind id = k)
      (hinside : runAll types f k.bodies = inside)
      (hown : (k.exprs.flatMap fun e => (e.infer r scope).2) ⊆ ps) (hlists : inside.2 ⊆ ps) :
      NodeStep r scope types f id ps (inside.1.setKind id (k.mapExprs fun e => (e.infer r scope).1))

/-- The parameters of a call: their contents one after the other, and among what is found what is wrong with
their values. -/
theorem foldl_typeBound (r : Resolver) (scope : TypeScope)
    (types : TemplateFile → List NodeId → TemplateFile × TypeProblems) (passed : List Passed)
    (x : TemplateFile × List Passed × TypeProblems) :
    ∃ qs, passed.foldl (fun (x : TemplateFile × List Passed × TypeProblems) p =>
        ((typeBound r scope types x.1 p.bound).1,
          x.2.1 ++ [{ p with bound := (typeBound r scope types x.1 p.bound).2.1 }],
          x.2.2 ++ (typeBound r scope types x.1 p.bound).2.2)) x =
      ((runAll types x.1 (passed.filterMap (·.bound.body?))).1,
        x.2.1 ++ passed.map (fun p => { p with bound := p.bound.mapExpr fun e => (e.infer r scope).1 }),
        x.2.2 ++ qs) ∧
      ((passed.filterMap (·.bound.expr?)).flatMap fun e => (e.infer r scope).2) ⊆ qs ∧
      (runAll types x.1 (passed.filterMap (·.bound.body?))).2 ⊆ qs := by
  induction passed generalizing x with
  | nil => exact ⟨[], by simp [runAll], List.Subset.refl _, List.Subset.refl _⟩
  | cons p passed ih =>
    obtain ⟨name, bound, span⟩ := p
    -- a value is typed in its place, and a content is walked
    cases bound with
    | value e =>
      obtain ⟨qs, heq, hexprs, hbodies⟩ :=
        ih (x.1, x.2.1 ++ [⟨name, .value (e.infer r scope).1, span⟩], x.2.2 ++ (e.infer r scope).2)
      refine ⟨(e.infer r scope).2 ++ qs, ?_, ?_, List.subset_append_of_subset_right _ hbodies⟩
      · refine heq.trans ?_
        rw [List.append_assoc, List.append_assoc]
        rfl
      · exact List.append_subset.mpr ⟨List.subset_append_left _ _,
          List.subset_append_of_subset_right _ hexprs⟩
    -- its problems are those of the nodes in it
    | content kind body =>
      obtain ⟨qs, heq, hexprs, hbodies⟩ := ih ((types x.1 body).1,
        x.2.1 ++ [⟨name, .content kind body, span⟩], x.2.2 ++ (types x.1 body).2)
      refine ⟨(types x.1 body).2 ++ qs, ?_, List.subset_append_of_subset_right _ hexprs, ?_⟩
      · refine heq.trans ?_
        rw [List.append_assoc, List.append_assoc]
        rfl
      · exact List.append_subset.mpr ⟨List.subset_append_left _ _,
          List.subset_append_of_subset_right _ hbodies⟩

/-- **One node of the walk**, and what is found goes in front of what is found in the nodes after it. -/
theorem typeNodes_cons_cases (r : Resolver) (scope : TypeScope) (fuel : Nat) (f : TemplateFile)
    (id : NodeId) (ids : List NodeId) :
    ∃ inner after g ps, NodeStep r scope (typeNodes r fuel inner) f id ps g ∧
      typeNodes r (fuel + 1) scope f (id :: ids) =
        ((typeNodes r fuel after g ids).1, ps ++ (typeNodes r fuel after g ids).2) := by
  -- one list inside a node is walked by itself
  have hsingle : ∀ (inner : TypeScope) (f : TemplateFile) (body : List NodeId),
      runAll (typeNodes r fuel inner) f [body] = typeNodes r fuel inner f body := fun inner f body => by
    rw [runAll, runAll, List.append_nil]
  have hone : ∀ e : Expr, ([e].flatMap fun e => (e.infer r scope).2) = (e.infer r scope).2 := fun e =>
    List.flatMap_singleton ..
  rw [typeNodes]
  -- a loop, a binding and a call each have their own way; every other node is typed before its lists
  cases hk : f.kind id with
  | loop x list body =>
    refine ⟨_, _, _, _, .first hk (hsingle ((x, (loopItem (list.infer r scope).1).1) :: scope) _ body) ?_
      (List.subset_append_right _ _), rfl⟩
    rw [NodeKind.exprs, hone]
    exact List.subset_append_of_subset_left _ (List.subset_append_left _ _)
  | binding x b =>
    cases b with
    | value e =>
      refine ⟨scope, _, _, (e.infer r scope).2, .last hk rfl ?_ (List.nil_subset _), rfl⟩
      exact fun p hp => (hone e).subst hp
    | content kind body =>
      exact ⟨scope, _, _, _, .last hk (hsingle scope f body) (List.nil_subset _) (List.Subset.refl _), rfl⟩
  | call c =>
    -- the parameters in order, each with its problems
    obtain ⟨qs, heq, hexprs, hbodies⟩ :=
      foldl_typeBound r scope (typeNodes r fuel scope) c.passed (f, [], [])
    dsimp only
    rw [heq]
    exact ⟨scope, scope, _, _, .last hk rfl hexprs hbodies, rfl⟩
  | _ =>
    dsimp only
    rw [foldl_eq_runAll]
    exact ⟨scope, scope, _, _, .first hk rfl (List.subset_append_left _ _)
      (List.subset_append_right _ _), rfl⟩

section Step

variable (htypes : ∀ f ids, TypesAmong r (types f ids).2 f (types f ids).1)

include htypes

/-- The step for one node does to any node what steps may do. -/
theorem NodeStep.typesAmong (h : NodeStep r scope types f id ps g) : TypesAmong r ps f g := by
  cases h with
  | first hk hinside hown hlists =>
    subst hk hinside
    exact (TypesAmong.typed rfl hown).trans ((runAll_typesAmong htypes _ _).mono hlists)
  | last hk hinside hown hlists =>
    subst hk hinside
    have hrun := (runAll_typesAmong htypes (f.kind id).bodies f).mono hlists
    exact hrun.trans (.typed (hrun.bodies_eq id) hown)

/-- The node of the step is typed. -/
theorem NodeStep.covers (h : NodeStep r scope types f id ps g) (hid : id < f.nodes.size) :
    (g.kind id).TypedAmong r ps := by
  -- the node is set before the lists below it are typed, or after
  cases h with
  | first hk hinside hown hlists =>
    subst hinside
    refine ((runAll_typesAmong htypes _ _).mono hlists).keeps ?_
    rw [kind_setKind_self f _ hid]
    exact NodeKind.typedAmong_mapExprs hown
  | @last k inside hk hinside hown hlists =>
    subst hinside
    have hsize := (runAll_typesAmong htypes k.bodies f).size_eq
    rw [kind_setKind_self _ _ (hsize ▸ hid)]
    exact NodeKind.typedAmong_mapExprs hown

/-- So is every node that the walk over one of the lists inside it comes to. -/
theorem NodeStep.covers_inside {P : TemplateFile → Prop} {x : NodeId} {body : List NodeId}
    (h : NodeStep r scope types f id ps g) (hbody : body ∈ (f.kind id).bodies)
    (hkeep : ∀ {f g ps}, P f → TypesAmong r ps f g → P g)
    (hcover : ∀ f, P f → ((types f body).1.kind x).TypedAmong r (types f body).2) (hf : P f) :
    (g.kind x).TypedAmong r ps := by
  cases h with
  -- the node was typed before the list was walked, which leaves the list where it was
  | first hk hinside hown hlists =>
    subst hk hinside
    have htyped : P (f.setKind id ((f.kind id).mapExprs fun e => (e.infer r scope).1)) :=
      hkeep hf (TypesAmong.typed rfl hown)
    exact (runAll_covers htypes hbody hkeep hcover htyped).mono hlists
  | last hk hinside hown hlists =>
    subst hk hinside
    have hbodies := (runAll_typesAmong htypes (f.kind id).bodies f).bodies_eq id
    exact (TypesAmong.typed hbodies hown).keeps
      ((runAll_covers htypes hbody hkeep hcover hf).mono hlists)

end Step

end Node

/-! ### The walk -/

section Walk

variable {r : Resolver} {scope : TypeScope} {f g : TemplateFile} {ps : TypeProblems} {ts : Forest}

/-- **The walk** types nodes, one after the other, and says what is wrong with them. -/
theorem typeNodes_typesAmong (r : Resolver) (fuel : Nat) (scope : TypeScope) (f : TemplateFile)
    (ids : List NodeId) :
    TypesAmong r (typeNodes r fuel scope f ids).2 f (typeNodes r fuel scope f ids).1 := by
  induction fuel generalizing scope f ids with
  | zero => exact .refl f
  | succ fuel ih =>
    cases ids with
    | nil => exact .refl f
    | cons id ids =>
      obtain ⟨inner, after, g, ps, hstep, heq⟩ := typeNodes_cons_cases r scope fuel f id ids
      rw [heq]
      exact ((hstep.typesAmong (ih inner)).mono (List.subset_append_left _ _)).trans
        ((ih after g ids).mono (List.subset_append_right _ _))

/-- The nodes of the forest stand in the table, with the lists that the forest has inside them. -/
def Carries (f : TemplateFile) (ts : Forest) : Prop :=
  ∀ t ∈ subtrees ts, t.id < f.nodes.size ∧ (f.kind t.id).bodies = t.bodies.map roots

/-- A list stands in the table if its first node does, and what is inside it, and the other nodes. -/
theorem carries_cons {id : NodeId} {k : NodeKind} {bs : List Forest} :
    f.Carries (.node id k bs :: ts) ↔ (id < f.nodes.size ∧ (f.kind id).bodies = bs.map roots) ∧
      (∀ b ∈ bs, f.Carries b) ∧ f.Carries ts :=
  forall_subtrees_cons

/-- What the table holds stands in it. -/
theorem Holds.carries (h : f.Holds ts) : f.Carries ts := fun t ht =>
  ⟨h.lt_size _ (List.mem_map_of_mem ht), by rw [h.shows_nodes t ht, h.labelled t ht]⟩

/-- Typing leaves the lists where they stand. -/
theorem Carries.after (h : f.Carries ts) (hfg : TypesAmong r ps f g) : g.Carries ts := fun t ht =>
  ⟨hfg.size_eq ▸ (h t ht).1, (hfg.bodies_eq t.id).trans (h t ht).2⟩

/-- **The walk comes to every node**, whatever the fuel is, if it is enough. -/
theorem typeNodes_covers (r : Resolver) (scope : TypeScope) {fuel : Nat} {x : NodeId}
    (hf : f.Carries ts) (hfuel : (ids ts).length ≤ fuel) (hx : x ∈ ids ts) :
    ((typeNodes r fuel scope f (roots ts)).1.kind x).TypedAmong r
      (typeNodes r fuel scope f (roots ts)).2 := by
  induction ts using Forest.induct generalizing f scope fuel with
  | nil => cases hx
  | cons id k bs ts ihb iht =>
    obtain ⟨⟨hid, hbodies⟩, hbs, hts⟩ := carries_cons.mp hf
    rw [ids_cons] at hx hfuel
    rw [List.length_cons, List.length_append] at hfuel
    obtain ⟨fuel, rfl⟩ : ∃ n, fuel = n + 1 := ⟨fuel - 1, by omega⟩
    obtain ⟨inner, after, g, ps, hstep, heq⟩ := typeNodes_cons_cases r scope fuel f id (roots ts)
    -- what comes after the node finds the rest of the forest as it was, and keeps what is typed by then
    have hnode := hstep.typesAmong (typeNodes_typesAmong r fuel inner)
    have hrest := (typeNodes_typesAmong r fuel after g (roots ts)).mono
      (List.subset_append_right ps _)
    rw [roots_cons, NodeTree.id_node, heq]
    -- the node is the first one, or inside it, or in the rest of the list
    obtain rfl | hx := List.mem_cons.mp hx
    · exact hrest.keeps ((hstep.covers (typeNodes_typesAmong r fuel inner) hid).mono
        (List.subset_append_left _ _))
    obtain hx | hx := List.mem_append.mp hx
    · obtain ⟨b, hb, hx⟩ := List.mem_flatMap.mp hx
      have hlen := (sublist_flatMap ids hb).length_le
      have hbody : roots b ∈ (f.kind id).bodies := hbodies ▸ List.mem_map_of_mem hb
      have hinside := hstep.covers_inside (typeNodes_typesAmong r fuel inner) hbody
        (P := (Carries · b)) Carries.after (fun f hf => ihb b hb inner hf (by omega) hx) (hbs b hb)
      exact hrest.keeps (hinside.mono (List.subset_append_left _ _))
    · exact (iht after (hts.after hnode) (by omega) hx).mono (List.subset_append_right _ _)

end Walk

/-! ### Files -/

section Files

variable {s : Settings} {f g : TemplateFile} {ts : Forest} {ps : TypeProblems}

/-- The initial values in a typed header are typed. -/
theorem typedAmong_typeState (types : TypeRegistry) (r : Resolver) (scope : TypeScope)
    (ds : List StateDecl) :
    ∀ d ∈ (typeState types r scope ds).1, d.initial.TypedAmong r (typeState types r scope ds).2.2 := by
  induction ds generalizing scope with
  | nil => exact List.forall_mem_nil _
  | cons d ds ih =>
    refine List.forall_mem_cons.mpr ⟨⟨scope, d.initial, rfl, ?_⟩, fun d' hd' => ?_⟩
    · exact List.subset_append_of_subset_left _ (List.subset_append_left _ _)
    · exact (ih _ d' hd').mono (List.subset_append_right _ _)

/-- The header of a template is typed with the values in it. -/
theorem typedAmong_typeHeader (s : Settings) (t : Template) :
    (NodeKind.template (typeHeader s.types s.plugins t).1).TypedAmong s.plugins
      (typeHeader s.types s.plugins t).2.2 := by
  intro e he
  obtain ⟨d, hd, rfl⟩ := List.mem_map.mp he
  exact (typedAmong_typeState _ _ _ _ d hd).mono (List.subset_append_right _ _)

/-- **One template.** -/
theorem typeTemplate_typesAmong {id : NodeId} {t : Template} (ht : (f.kind id).bodies = [t.body]) :
    TypesAmong s.plugins (f.typeTemplate s id t).2 f (f.typeTemplate s id t).1 := by
  have hset : TypesAmong s.plugins (typeHeader s.types s.plugins t).2.2 f
      (f.setKind id (.template (typeHeader s.types s.plugins t).1)) :=
    .setKind ht.symm (typedAmong_typeHeader s t)
  exact (hset.mono (List.subset_append_left _ _)).trans
    ((typeNodes_typesAmong _ _ _ _ _).mono (List.subset_append_right _ _))

/-- Typing a template types its header and every node of its body. -/
theorem typeTemplate_covers {id x : NodeId} {k : NodeKind} {t : Template} {b : Forest}
    (hf : f.Carries [.node id k [b]]) (hb : t.body = roots b) (hlen : (ids b).length ≤ f.nodes.size)
    (hx : x = id ∨ x ∈ ids b) :
    ((f.typeTemplate s id t).1.kind x).TypedAmong s.plugins (f.typeTemplate s id t).2 := by
  obtain ⟨⟨hid, hbodies⟩, hbs, -⟩ := carries_cons.mp hf
  have ht : (f.kind id).bodies = [t.body] := by
    rw [hbodies, hb]
    rfl
  -- the first step sets the template with its header typed
  have hset : TypesAmong s.plugins (typeHeader s.types s.plugins t).2.2 f
      (f.setKind id (.template (typeHeader s.types s.plugins t).1)) :=
    .setKind ht.symm (typedAmong_typeHeader s t)
  -- the header was typed before the walk, which leaves it typed
  obtain rfl | hx := hx
  · have hself : ((f.setKind x (.template (typeHeader s.types s.plugins t).1)).kind x).TypedAmong
        s.plugins (typeHeader s.types s.plugins t).2.2 := by
      rw [kind_setKind_self f _ hid]
      exact typedAmong_typeHeader s t
    exact ((typeNodes_typesAmong _ _ _ _ _).mono (List.subset_append_right _ _)).keeps
      (hself.mono (List.subset_append_left _ _))
  · have hbody : f.Carries b := hbs b (List.mem_singleton_self b)
    have hwalk := typeNodes_covers s.plugins (typeHeader s.types s.plugins t).2.1 (hbody.after hset) hlen hx
    rw [← hb] at hwalk
    exact hwalk.mono (List.subset_append_right _ _)

/-- The templates of a file, one after the other: every node of the forest is typed. -/
theorem typeTemplates_covers {us : Forest} {declared : List (NodeId × Template)} (hf : f.Carries us)
    (hlabels : Labelled us) (hlen : (ids us).length ≤ f.nodes.size)
    (hdeclared : us.map (fun u => (u.id, u.kind)) = declared.map fun p => (p.1, .template p.2)) :
    let run := runAll (fun g p => typeTemplate s g p.1 p.2) f declared
    TypesAmong s.plugins run.2 f run.1 ∧ ∀ x ∈ ids us, (run.1.kind x).TypedAmong s.plugins run.2 := by
  intro run
  induction us generalizing f declared with
  | nil =>
    obtain rfl := List.map_eq_nil_iff.mp hdeclared.symm
    exact ⟨.refl f, fun _ hx => nomatch hx⟩
  | cons u us ih =>
    cases declared with
    | nil => cases hdeclared
    | cons p declared =>
      obtain ⟨hhead, htail⟩ := List.cons.inj hdeclared
      obtain ⟨i, k, bs⟩ := u
      obtain ⟨i', t⟩ := p
      obtain ⟨rfl, rfl⟩ : i = i' ∧ k = .template t := Prod.mk.inj hhead
      obtain ⟨hbodies, -, hlrest⟩ := labelled_cons.mp hlabels
      -- a template has one list
      obtain ⟨b, rfl, hb⟩ := List.map_eq_singleton_iff.mp hbodies.symm
      obtain ⟨⟨hid, hroots⟩, hbs, hrest⟩ := carries_cons.mp hf
      rw [ids_cons, List.flatMap_singleton, List.length_cons, List.length_append] at hlen
      have hone : TypesAmong s.plugins (f.typeTemplate s i t).2 f (f.typeTemplate s i t).1 :=
        typeTemplate_typesAmong (hroots.trans hbodies.symm)
      obtain ⟨hothers, hcovers⟩ := ih (hrest.after hone) hlrest (by rw [hone.size_eq]; omega) htail
      refine ⟨(hone.mono (List.subset_append_left _ _)).trans
        (hothers.mono (List.subset_append_right _ _)), fun x hx => ?_⟩
      rw [ids_cons, List.flatMap_singleton, ← List.cons_append] at hx
      -- what is typed in this template stays typed when the later ones are
      obtain hx | hx := List.mem_append.mp hx
      · have hself : f.Carries [.node i (.template t) [b]] :=
          carries_cons.mpr ⟨⟨hid, hroots⟩, hbs, fun _ ht => nomatch ht⟩
        have htyped := typeTemplate_covers (s := s) hself hb.symm (by omega) (List.mem_cons.mp hx)
        exact (hothers.mono (List.subset_append_right _ _)).keeps
          (htyped.mono (List.subset_append_left _ _))
      · exact (hcovers x hx).mono (List.subset_append_right _ _)

/-- **Typing a file** types every expression in it, and it reports what is wrong with them. -/
theorem Planted.resolveTypes_covers (hf : f.Planted ts) (s : Settings) :
    ∃ ps, (f.resolveTypes s).2 = ps.map (fun p =>
        .errorAt Pass.resolveTypes.name p.2.message ((f.resolveTypes s).1.location p.1)) ∧
      ∀ x ∈ ids ts, ((f.resolveTypes s).1.kind x).TypedAmong s.plugins ps := by
  obtain ⟨-, hcovers⟩ := typeTemplates_covers (s := s) hf.holds.carries hf.holds.labelled
    hf.holds.length_ids_le (hf.holds.shows_nodes.declared_eq hf.roots_eq hf.areTemplates)
  unfold resolveTypes
  dsimp only
  rw [foldl_eq_runAll fun (g : TemplateFile) (p : NodeId × Template) => typeTemplate s g p.1 p.2]
  exact ⟨_, rfl, hcovers⟩

end Files

end TemplateFile

end TemplateFrontend
