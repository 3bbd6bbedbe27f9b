import TemplateFrontend.Proofs.Tree.Retouching
import TemplateFrontend.Resolve.Names
import TemplateFrontend.Transform.Escaping
import TemplateFrontend.Typing.File
/-!
# Passes that only retouch nodes

* `TemplateFile.resolveImports_rel`, `TemplateFile.resolveImports_retouched` — resolution of callees, by the
  steps that it consists of, and what these keep;
* `TemplateFile.resolveGlobals_rewritten`, `TemplateFile.resolvePlugins_rewritten` — resolution in
  expressions, which rewrites those and nothing else;
* `TemplateFile.typeNodes_rel` — what typing keeps, by induction on the fuel of its walk;
* `TemplateFile.typeNodes_rewritten` — typing, which rewrites expressions too;
* `TemplateFile.resolveTypes_rel`, `TemplateFile.resolveTypes_retouched` — the same for a file with its
  declarations;
* `TemplateFile.insertEscapingDirectives_rel`, `TemplateFile.insertEscapingDirectives_retouched` — escaping,
  by induction on fuel too.
-/

namespace TemplateFrontend

namespace TemplateFile

/-! ### Resolution -/

section Steps

variable {R : TemplateFile → TemplateFile → Prop} (hrefl : ∀ f, R f f)
  (htrans : ∀ {f g h}, R f g → R g h → R f h)

include hrefl htrans

/-- What every step keeps, one after the other. -/
theorem foldl_rel {α : Type} {step : TemplateFile → α → TemplateFile} (hstep : ∀ f a, R f (step f a))
    (as : List α) (f : TemplateFile) : R f (as.foldl step f) := by
  induction as generalizing f with
  | nil => exact hrefl f
  | cons a as ih => exact htrans (hstep f a) (ih _)

/-- **Resolving callees** sets calls to what they were, with other names of what they call. So it keeps
whatever such a step keeps. -/
theorem resolveImports_rel
    (hset : ∀ {f : TemplateFile} {id : NodeId} {c : Call} (callee : String), f.kind id = .call c →
      c.delegate = false → R f (f.setKind id (.call { c with callee })))
    (f : TemplateFile) : R f f.resolveImports.1 := by
  refine foldl_rel hrefl htrans (fun g id => ?_) f.reachable f
  unfold qualifyCall directCall?
  cases hk : g.kind id with
  | call c =>
    dsimp only
    -- only the name of a direct call is set, and only where it stands for another one
    cases hdelegate : c.delegate with
    | true => exact hrefl g
    | false =>
      rw [if_neg Bool.false_ne_true]
      dsimp only
      split
      · exact hset _ hk hdelegate
      · exact hrefl g
  | _ => exact hrefl g

end Steps

theorem resolveImports_retouched (f : TemplateFile) : Retouched f f.resolveImports.1 := by
  refine resolveImports_rel Retouched.refl Retouched.trans (fun {f id c} callee hk _ => ?_) f
  refine (Retouched.refl f).retouch ?_
  rw [hk]
  exact .of_content rfl (Expr.forall₂_inPlace_refl _) (fun _ => rfl) (fun _ => rfl) rfl rfl

/-! ### Expressions -/

theorem mapExprs_rewritten {e : Expr → Expr} (he : ∀ x, Expr.InPlace x (e x))
    (f : TemplateFile) : Rewritten f (f.mapExprs e) :=
  Rewritten.foldl (fun id _ _ hg => hg.rewrite he id) (.refl f)

theorem mapExprs_retouched {e : Expr → Expr} (he : ∀ x, Expr.InPlace x (e x))
    (f : TemplateFile) : Retouched f (f.mapExprs e) :=
  (mapExprs_rewritten he f).retouched

theorem resolveGlobals_rewritten (s : Settings) (f : TemplateFile) :
    Rewritten f (f.resolveGlobals s).1 := by
  unfold resolveGlobals
  dsimp only
  split
  · exact mapExprs_rewritten (Expr.inPlace_inlineGlobals s.globals) f
  · exact .refl f

theorem resolvePlugins_rewritten (s : Settings) (f : TemplateFile) :
    Rewritten f (f.resolvePlugins s).1 :=
  mapExprs_rewritten (Expr.inPlace_bindFunctions s.plugins) f

/-! ### Typing -/

section Types

variable (r : Resolver) (scope : TypeScope) {R : TemplateFile → TemplateFile → Prop}
  {types : TemplateFile → List NodeId → TemplateFile × TypeProblems}

/-- What is bound has its expression typed, content is typed in the file. -/
theorem typeBound_rel (hrefl : ∀ f, R f f) (htypes : ∀ f ids, R f (types f ids).1) (f : TemplateFile)
    (b : Bound) : R f (typeBound r scope types f b).1 ∧
      (typeBound r scope types f b).2.1 = b.mapExpr fun e => (e.infer r scope).1 := by
  cases b with
  | value e => exact ⟨hrefl f, rfl⟩
  | content kind body => exact ⟨htypes f body, rfl⟩

/-- The parameters of a call typed, one after the other. -/
theorem typePassed_rel (hrefl : ∀ f, R f f) (htrans : ∀ {f g h}, R f g → R g h → R f h)
    (htypes : ∀ f ids, R f (types f ids).1) {f : TemplateFile} (ps : List Passed)
    {x : TemplateFile × List Passed × TypeProblems} (hx : R f x.1) :
    ∃ y, ps.foldl (fun (x : TemplateFile × List Passed × TypeProblems) p =>
        ((typeBound r scope types x.1 p.bound).1,
          x.2.1 ++ [{ p with bound := (typeBound r scope types x.1 p.bound).2.1 }],
          x.2.2 ++ (typeBound r scope types x.1 p.bound).2.2)) x = y ∧ R f y.1 ∧
      y.2.1 = x.2.1 ++ ps.map fun p =>
        { p with bound := p.bound.mapExpr fun e => (e.infer r scope).1 } := by
  induction ps generalizing x with
  | nil => exact ⟨x, rfl, hx, (List.append_nil _).symm⟩
  | cons p ps ih =>
    obtain ⟨hfile, hbound⟩ := typeBound_rel r scope hrefl htypes x.1 p.bound
    obtain ⟨y, hy, hrel, hps⟩ := @ih ((typeBound r scope types x.1 p.bound).1, _, _) (htrans hx hfile)
    refine ⟨y, hy, hrel, ?_⟩
    rw [hps, List.append_assoc, hbound]
    rfl

/-- **Typing a list of nodes** sets one node after the other to what it was, with its expressions typed.
So it keeps whatever such a step keeps. -/
theorem typeNodes_rel (hrefl : ∀ f, R f f) (htrans : ∀ {f g h}, R f g → R g h → R f h)
    (hset : ∀ (scope : TypeScope) {f g : TemplateFile} (id : NodeId), R f g →
      R f (g.setKind id ((f.kind id).mapExprs fun e => (e.infer r scope).1)))
    (fuel : Nat) (f : TemplateFile) (ids : List NodeId) : R f (typeNodes r fuel scope f ids).1 := by
  induction fuel generalizing scope f ids with
  | zero => exact hrefl f
  | succ fuel ih =>
    -- the nodes of a list inside a node, and what comes after it
    have hbodies : ∀ (k : NodeKind) {g : TemplateFile} {ps : TypeProblems}, R f g →
        R f (k.bodies.foldl (fun (x : TemplateFile × TypeProblems) body =>
          ((typeNodes r fuel scope x.1 body).1,
            x.2 ++ (typeNodes r fuel scope x.1 body).2)) (g, ps)).1 := by
      intro k
      induction k.bodies with
      | nil => exact fun hg => hg
      | cons body bodies ihb => exact fun hg => ihb (htrans hg (ih scope _ body))
    -- a node is set to its kind with the expressions typed
    have hkind : ∀ {g : TemplateFile} (id : NodeId) {k : NodeKind}, f.kind id = k → R f g →
        R f (g.setKind id (k.mapExprs fun e => (e.infer r scope).1)) := by
      rintro g id _ rfl hg
      exact hset scope id hg
    cases ids with
    | nil => exact hrefl f
    | cons id ids =>
      rw [typeNodes]
      refine htrans ?_ (ih _ _ ids)
      cases hk : f.kind id with
      -- the expression of the loop first, then its body
      | loop x list body => exact htrans (hkind id hk (hrefl f)) (ih _ _ body)
      | binding x b =>
        obtain ⟨hfile, hbound⟩ := typeBound_rel r scope hrefl (ih scope) f b
        dsimp only
        rw [hbound]
        exact hkind id hk hfile
      | call c =>
        obtain ⟨y, hy, hrel, hps⟩ :=
          @typePassed_rel r scope R _ hrefl htrans (ih scope) f c.passed (f, [], []) (hrefl f)
        dsimp only
        rw [hy, hps]
        exact hkind id hk hrel
      | _ => exact hbodies _ (hkind id hk (hrefl f))

end Types

/-- Typing a list of nodes only rewrites expressions. -/
theorem typeNodes_rewritten (r : Resolver) (fuel : Nat) (scope : TypeScope) (f : TemplateFile)
    (ids : List NodeId) : Rewritten f (typeNodes r fuel scope f ids).1 :=
  typeNodes_rel r scope Rewritten.refl Rewritten.trans
    (fun scope _ _ id hg => hg.setKind (Expr.inPlace_infer r scope) id) fuel f ids

/-- The header of a template typed. -/
theorem alike_typeHeader (types : TypeRegistry) (r : Resolver) (t : Template) :
    (NodeKind.template t).Alike (.template (typeHeader types r t).1) where
  bodies_eq := rfl
  exprs := by
    -- the initial values are typed where they are, each in the scope of those before it
    have hstate : ∀ (ds : List StateDecl) (scope : TypeScope),
        List.Forall₂ Expr.InPlace (ds.map (·.initial))
          ((typeState types r scope ds).1.map (·.initial)) := by
      intro ds
      induction ds with
      | nil => exact fun _ => .nil
      | cons d ds ih => exact fun scope => .cons (Expr.inPlace_infer r scope d.initial) (ih _)
    exact hstate t.state _
  key_eq := fun _ => rfl
  fitsValue_eq := rfl
  eq_of_openTag := fun _ _ _ heq => nomatch heq

/-- **Typing a file** sets the templates to what they were, with their headers typed, and other nodes to
what they were, with their expressions typed. So it keeps whatever such steps keep. -/
theorem resolveTypes_rel {s : Settings} {R : TemplateFile → TemplateFile → Prop} (hrefl : ∀ f, R f f)
    (htrans : ∀ {f g h}, R f g → R g h → R f h)
    (hset : ∀ (scope : TypeScope) {f g : TemplateFile} (id : NodeId), R f g →
      R f (g.setKind id ((f.kind id).mapExprs fun e => (e.infer s.plugins scope).1)))
    (hheader : ∀ {f g : TemplateFile} {id : NodeId} {t : Template}, f.kind id = .template t → R f g →
      R f (g.setKind id (.template (typeHeader s.types s.plugins t).1)))
    (f : TemplateFile) : R f (f.resolveTypes s).1 := by
  -- one template after the other: its header, then the nodes below it
  have hfold : ∀ (declared : List (NodeId × Template)) (x : TemplateFile × TypeProblems),
      (∀ p ∈ declared, f.kind p.1 = .template p.2) → R f x.1 →
      R f (declared.foldl (fun (x : TemplateFile × TypeProblems) p =>
        ((x.1.typeTemplate s p.1 p.2).1, x.2 ++ (x.1.typeTemplate s p.1 p.2).2)) x).1 := by
    intro declared
    induction declared with
    | nil => exact fun _ _ hx => hx
    | cons p declared ih =>
      intro x hdeclared hx
      obtain ⟨hp, hrest⟩ := List.forall_mem_cons.mp hdeclared
      exact ih _ hrest (htrans (hheader hp hx) (typeNodes_rel _ _ hrefl htrans hset _ _ _))
  exact hfold f.declared (f, []) (fun p hp => (kind_of_mem_declared hp).2) (hrefl f)

theorem resolveTypes_retouched (s : Settings) (f : TemplateFile) :
    Retouched f (f.resolveTypes s).1 := by
  refine resolveTypes_rel Retouched.refl Retouched.trans (fun scope f g id hg => ?_) ?_ f
  · exact hg.setKind (NodeKind.alike_mapExprs (Expr.inPlace_infer s.plugins scope) _)
  · intro f g id t hk hg
    refine hg.setKind ?_
    rw [hk]
    exact alike_typeHeader s.types s.plugins t

/-! ### Escaping -/

/-- The directives of a context have no arguments. -/
theorem exprs_escaped (context : OutputContext) (place : Span) (e : Expr) (ds : List Directive) :
    (NodeKind.print e (escapedBy context place ds)).exprs = (NodeKind.print e ds).exprs := by
  unfold escapedBy
  split
  · rfl
  · have hnone : (context.directives.map fun name => (⟨name, [], place⟩ : Directive)).flatMap
        (·.args) = [] := by
      rw [List.flatMap_eq_nil_iff]
      intro d hd
      obtain ⟨name, -, rfl⟩ := List.mem_map.mp hd
      rfl
    rw [NodeKind.exprs, NodeKind.exprs, List.flatMap_append, hnone, List.append_nil]

theorem alike_escaped (context : OutputContext) (place : Span) (e : Expr) (ds : List Directive) :
    (NodeKind.print e ds).Alike (.print e (escapedBy context place ds)) := by
  refine .of_content rfl ?_ (fun _ => rfl) (fun _ => rfl) rfl rfl
  rw [exprs_escaped]
  exact Expr.forall₂_inPlace_refl _

section Escaping

variable {R : TemplateFile → TemplateFile → Prop} (hrefl : ∀ f, R f f)
  (htrans : ∀ {f g h}, R f g → R g h → R f h)
  (hset : ∀ {f : TemplateFile} {id : NodeId} {e : Expr} {ds : List Directive} (context : OutputContext)
    (place : Span), f.kind id = .print e ds → R f (f.setKind id (.print e (escapedBy context place ds))))

include hrefl htrans hset

theorem escapeList_rel (fuel : Nat) (context : OutputContext) (f : TemplateFile) (ids : List NodeId) :
    R f (f.escapeList fuel context ids) := by
  induction fuel generalizing context f ids with
  | zero => exact hrefl f
  | succ fuel ih =>
    cases ids with
    | nil => exact hrefl f
    | cons id ids =>
      rw [escapeList]
      refine htrans ?_ (ih context _ ids)
      -- below a node the same holds with less fuel
      have hbodies : ∀ k : NodeKind, R f ((k.bodiesWithContext context).foldl
          (fun f x => escapeList fuel x.2 f x.1) f) := fun k =>
        foldl_rel hrefl htrans (fun g (x : List NodeId × OutputContext) => ih x.2 g x.1) _ f
      cases hk : f.kind id with
      | print e ds => exact hset context (f.span id) hk
      | _ => exact hbodies _

/-- **Escaping** sets prints to what they were, with directives added. So it keeps whatever such a step
keeps. -/
theorem insertEscapingDirectives_rel (f : TemplateFile) : R f f.insertEscapingDirectives := by
  refine foldl_rel hrefl htrans (fun g id => ?_) f.templates f
  split
  · exact escapeList_rel hrefl htrans hset ..
  · exact hrefl g

end Escaping

theorem insertEscapingDirectives_retouched (f : TemplateFile) :
    Retouched f f.insertEscapingDirectives := by
  refine insertEscapingDirectives_rel Retouched.refl Retouched.trans
    (fun {f id e ds} context place hk => ?_) f
  refine (Retouched.refl f).retouch ?_
  rw [hk]
  exact alike_escaped context place e ds

end TemplateFile

end TemplateFrontend
