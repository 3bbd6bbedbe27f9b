import TemplateFrontend.Proofs.Compiler.SimplifiedRuns
import TemplateFrontend.Proofs.Tree.AsWritten
import TemplateFrontend.Proofs.Typing.Problems
/-!
# Plugins and types everywhere

Once plugins were bound and types were inferred, nothing in a file is left open: every expression that can be
reached from a template has a type, every call of a function or a method is bound to what the resolver answers,
or the error that it answers is reported there, and so is every declaration typed. That is all that happens.

* `TemplateFile.Answered` — a call bound to an answer of the resolver, or the error reported;
* `TemplateFile.Planted.answered_function`, `TemplateFile.Planted.answered_method` — calls in a file;
* `Template.isSome_type_typeHeader` — declarations in a header;
* `parse_resolved` — every source that is read without error, in every run.
-/

namespace TemplateFrontend

open Forest TemplateFile

/-! ### Calls of functions -/

namespace Expr

section Calls

variable {r : Resolver} {scope : TypeScope} {e : Expr} {n : Note} {name : String} {args : List Expr}
  {callee : Option Callee}

/-- Binding a call leaves its arguments alone. -/
theorem children_bindFunction (r : Resolver) (e : Expr) : (e.bindFunction r).children = e.children := by
  cases e with
  | call n name args callee =>
    rw [bindFunction]
    split <;> rfl
  | _ => rfl

/-- Only the call of a function becomes one by being typed. -/
theorem call_of_infer (h : (e.infer r scope).1 = .call n name args callee) :
    ∃ m as, e = .call m name as callee ∧ m.span = n.span ∧ as.length = args.length := by
  -- a call stays a call under typing, and nothing else becomes one
  cases e with
  | call m x as c =>
    cases c <;>
    · obtain ⟨rfl, rfl, rfl, rfl⟩ := Expr.call.inj h
      refine ⟨m, as, rfl, rfl, ?_⟩
      rw [inferAll_fst, List.length_map]
  | method m b x as c =>
    rw [infer] at h
    dsimp only at h
    split at h <;> cases h
  | unary m op a => cases op <;> cases h
  | _ => cases h

/-- So it is when functions are bound, and then it is bound to what the resolver answers. -/
theorem call_of_bindFunctions (h : e.mapParts (bindFunction r) = .call n name args callee) :
    ∃ as c, e = .call n name as c ∧ as.length = args.length ∧
      ∀ found, r.function name args.length = .ok found → callee = some found := by
  rw [mapParts_eq] at h
  cases e with
  | call m x as c =>
    rw [mapChildren, bindFunction] at h
    split at h
    · next bound hbound =>
      obtain ⟨rfl, rfl, rfl, rfl⟩ := Expr.call.inj h
      refine ⟨as, c, rfl, (List.length_map _).symm, fun found hfound => ?_⟩
      rw [hbound] at hfound
      exact congrArg some (Except.ok.inj hfound)
    -- without a function the callee is left open
    · next err hbound =>
      obtain ⟨rfl, rfl, rfl, rfl⟩ := Expr.call.inj h
      refine ⟨as, c, rfl, (List.length_map _).symm, fun found hfound => ?_⟩
      rw [hbound] at hfound
      cases hfound
  | _ => cases h

end Calls

end Expr

/-! ### Declarations -/

namespace Template

/-- **Every declaration** of a typed header has a type. -/
theorem isSome_type_typeHeader (types : TypeRegistry) (r : Resolver) (t : Template) :
    (∀ d ∈ (typeHeader types r t).1.params, d.type.isSome = true) ∧
      ∀ d ∈ (typeHeader types r t).1.state, d.type.isSome = true := by
  have hparams : ∀ (scope : TypeScope) (ps : List ParamDecl),
      ∀ d ∈ (typeParams types scope ps).1, d.type.isSome = true := by
    intro scope ps
    induction ps generalizing scope with
    | nil => exact List.forall_mem_nil _
    | cons p ps ih => exact List.forall_mem_cons.mpr ⟨rfl, ih _⟩
  -- each declaration is given a type before the next one is typed
  have hstate : ∀ (scope : TypeScope) (ds : List StateDecl),
      ∀ d ∈ (typeState types r scope ds).1, d.type.isSome = true := by
    intro scope ds
    induction ds generalizing scope with
    | nil => exact List.forall_mem_nil _
    | cons d ds ih => exact List.forall_mem_cons.mpr ⟨rfl, ih _⟩
  exact ⟨hparams [] t.params, hstate _ t.state⟩

end Template

/-! ### Files -/

namespace TemplateFile

/-- A call at some place is bound to the plugin that the resolver answers with, or the error that it answers
with was reported there by a pass. -/
def Answered (f : TemplateFile) (ds : Diagnostics) (pass : Pass) (place : Span) (callee : Option Callee) :
    Except ResolveError Callee → Prop
  | .ok found => callee = some found
  | .error e => .errorAt pass.name e.message (f.location place) ∈ ds

section Files

variable {f g : TemplateFile} {ts : Forest} {s : Settings} {ds es : Diagnostics} {pass : Pass} {place : Span}
  {callee : Option Callee} {answer : Except ResolveError Callee}

/-- A place is where it was as long as only nodes change. -/
theorem location_of_rest (hrest : { g with nodes := f.nodes } = f) (place : Span) :
    g.location place = f.location place := by
  have hlocation := congrArg (fun x : TemplateFile => x.location place) hrest
  exact hlocation

theorem Answered.mono (h : f.Answered ds pass place callee answer)
    (hrest : { g with nodes := f.nodes } = f) (hds : ds ⊆ es) :
    g.Answered es pass place callee answer := by
  cases answer with
  | ok found => exact h
  | error e =>
    rw [Answered, location_of_rest hrest]
    exact hds h

/-- **Functions.** After plugins were bound. -/
theorem Planted.answered_function (hf : f.Planted ts) {n : Expr.Note} {name : String} {args : List Expr}
    (h : .call n name args callee ∈ (f.resolvePlugins s).1.reachableExprs) :
    f.Answered (f.resolvePlugins s).2 .resolvePlugins n.span callee
      (s.plugins.function name args.length) := by
  rw [reachableExprs_eq, resolvePlugins, hf.unshared.heldExprs_mapExprs] at h
  obtain ⟨bound, hbound, h⟩ := Expr.mem_subexprsOf.mp h
  obtain ⟨e, he, rfl⟩ := List.mem_map.mp hbound
  rw [Expr.subexprs_mapParts (Expr.children_bindFunction s.plugins)] at h
  obtain ⟨p, hp, heq⟩ := List.mem_map.mp h
  -- back to the call as it stood before the pass
  obtain ⟨as, c, rfl, hlength, hfound⟩ := Expr.call_of_bindFunctions heq
  cases hanswer : s.plugins.function name args.length with
  | ok found => exact hfound found hanswer
  -- the pass reports the error for that call
  | error err =>
    have hreachable : .call n name as c ∈ f.reachableExprs := by
      rw [reachableExprs_eq]
      exact Expr.mem_subexprsOf.mpr ⟨e, he, hp⟩
    refine List.mem_map.mpr ⟨(n.span, err), List.mem_append_left _ ?_, rfl⟩
    refine List.mem_filterMap.mpr ⟨_, hreachable, ?_⟩
    rw [Expr.functionError?, hlength, hanswer]
    rfl

/-- Whatever can be reached in a typed file was there before, and was typed. -/
theorem Planted.exists_infer_of_mem_reachableExprs (hf : f.Planted ts) {e : Expr}
    (he : e ∈ (f.resolveTypes s).1.reachableExprs) :
    ∃ e₀ ∈ f.reachableExprs, ∃ scope, e = (e₀.infer s.plugins scope).1 := by
  rw [reachableExprs_eq] at he
  obtain ⟨p, hp, he⟩ := Expr.mem_subexprsOf.mp he
  obtain ⟨p₀, hp₀, scope, rfl⟩ := hf.exists_infer_of_mem_heldExprs s hp
  rw [Expr.subexprs_infer] at he
  obtain ⟨e₀, he₀, rfl⟩ := List.mem_map.mp he
  refine ⟨e₀, ?_, scope, rfl⟩
  rw [reachableExprs_eq]
  exact Expr.mem_subexprsOf.mpr ⟨p₀, hp₀, he₀⟩

/-- **Methods.** After types were inferred. -/
theorem Planted.answered_method (hf : f.Planted ts) {n : Expr.Note} {b : Expr} {name : String}
    {args : List Expr} (h : .method n b name args callee ∈ (f.resolveTypes s).1.reachableExprs) :
    (f.resolveTypes s).1.Answered (f.resolveTypes s).2 .resolveTypes n.span callee
      (s.plugins.method name b.type args.length) := by
  obtain ⟨ps, hps, htyped⟩ := hf.resolveTypes_covers s
  obtain ⟨id, hid, h⟩ := List.mem_flatMap.mp h
  rw [(resolveTypes_retouched s f).reachable_eq, hf.reachable_eq] at hid
  obtain ⟨e, he, h⟩ := Expr.mem_subexprsOf.mp h
  obtain ⟨c, rfl, hfound⟩ | ⟨err, hfound, hlisted⟩ := ((htyped id hid e he).part h).method
  · rw [hfound]
    rfl
  · rw [hfound, Answered, hps]
    exact List.mem_map.mpr ⟨_, hlisted, rfl⟩

end Files

end TemplateFile

/-! ### Sources -/

section Sources

variable {source : SourceText} {f g h : TemplateFile} {ds : Diagnostics}

/-- **Plugins and types everywhere.** Whatever passes on single files ran on a parsed source before: after
plugins were bound and types were inferred, every expression that can be reached has a type; every call of a
function or a method is bound to the plugin that the resolver answers with, or the error that it answers with
is reported where the call stands; every declaration has a type; and types and plugins of what can be reached
are all that was changed. -/
theorem parse_resolved (hparse : parse source = .ok f) (s : Settings) (before : List Pass)
    (hg : g = (f.runPasses s before).1)
    (hrun : g.runPasses s [.resolvePlugins, .resolveTypes] = (h, ds)) :
    (∀ e ∈ h.reachableExprs, e.note.type.isSome = true) ∧
      (∀ n name args callee, .call n name args callee ∈ h.reachableExprs →
        h.Answered ds .resolvePlugins n.span callee (s.plugins.function name args.length)) ∧
      (∀ n b name args callee, .method n b name args callee ∈ h.reachableExprs →
        h.Answered ds .resolveTypes n.span callee (s.plugins.method name b.type args.length)) ∧
      (∀ id t, (id, t) ∈ h.declared →
        (∀ d ∈ t.params, d.type.isSome = true) ∧ ∀ d ∈ t.state, d.type.isSome = true) ∧
      h.untyped = g.untyped ∧
      ∀ id < g.nodes.size, id ∉ g.reachable → h.kind id = g.kind id := by
  obtain ⟨ts, hts, -⟩ : g.Rooted := hg ▸ (rooted_of_parse hparse).runPasses s before
  have hbound : (g.resolvePlugins s).1.Planted _ := hts.mapExprs _
  -- the two passes by their results
  obtain ⟨rfl, rfl⟩ : ((g.resolvePlugins s).1.resolveTypes s).1 = h ∧
      (g.resolvePlugins s).2 ++ ((g.resolvePlugins s).1.resolveTypes s).2 = ds := Prod.mk.inj hrun
  refine ⟨fun e he => ?_, fun n name args callee he => ?_, fun n b name args callee he => ?_,
    fun id t hid => ?_, ?_, fun id hid hnot => ?_⟩
  · obtain ⟨e₀, -, scope, rfl⟩ := hbound.exists_infer_of_mem_reachableExprs he
    exact Expr.isSome_type_infer s.plugins scope e₀
  · -- the call was there when functions were bound, and typing left its answer alone
    obtain ⟨e₀, he₀, scope, heq⟩ := hbound.exists_infer_of_mem_reachableExprs he
    obtain ⟨m, as, rfl, hspan, hlength⟩ := Expr.call_of_infer heq.symm
    have hanswered := hts.answered_function he₀
    rw [hspan, hlength] at hanswered
    exact hanswered.mono (rest_trans (resolvePlugins_rewritten s g).rest_eq
      (resolveTypes_retouched s _).rest_eq) (List.subset_append_left _ _)
  · exact (hbound.answered_method he).mono rfl (List.subset_append_right _ _)
  -- a declared template was declared before, and its header is the typed one
  · obtain ⟨htemplate, hkind⟩ := kind_of_mem_declared hid
    rw [(resolveTypes_retouched s _).templates_eq] at htemplate
    obtain ⟨t₀, b, hm, -, -⟩ := hbound.exists_node htemplate
    obtain rfl := NodeKind.template.inj (hkind.symm.trans (hbound.resolveTypes_typed s hm).1)
    exact Template.isSome_type_typeHeader s.types s.plugins t₀
  · exact (untyped_resolveTypes s _).trans (untyped_resolvePlugins s g)
  -- both passes write at reachable nodes only
  · have hsize := (resolvePlugins_rewritten s g).size_eq
    have hplugins := (foldl_setKind (NodeKind.mapExprs (·.mapParts (.bindFunction s.plugins)))
      hts.holds.nodup hts.holds.lt_size).1
    rw [hts.reachable_eq] at hnot
    rw [(hbound.resolveTypes_changes s).kind_eq id (hsize ▸ hid) (by rwa [ids_mapKinds]), resolvePlugins,
      mapExprs, foldReachable, hts.reachable_eq]
    exact hplugins.kind_eq id hid hnot

/-- A call of a function in the header, calls of methods inside a loop and behind it, and a function that
nothing declares. -/
def unboundCalls : SourceText :=
  ⟨"a.st", "\x7bnamespace a\x7d\x7belement .e\x7d\x7b@state n = max(1, 2)\x7d" ++
    "\x7bfor $x in ['a']\x7d\x7b$x.trim()\x7d\x7bmissing($x)\x7d\x7b/for\x7d\x7b$n.trim()\x7d" ++
    "\x7b/element\x7d"⟩

/-- Settings with the bundled plugins. -/
def bundledOnly : Settings := { Settings.default default with plugins := (Resolver.ofUser false .empty).1 }

theorem parse_resolved_unboundCalls : ∃ f h ds, parse unboundCalls = .ok f ∧
    f.runPasses bundledOnly [.resolvePlugins, .resolveTypes] = (h, ds) ∧
    h.reachableExprs.map (·.note.type) = [some .float, some .int, some .int, some (.list .string),
      some .string, some .string, some .string, some .unknown, some .string, some .unknown,
      some .float] ∧
    ds.map (·.message) = ["unknown function 'missing'", "unknown method 'trim' on float"] ∧
    (∀ n name args callee, .call n name args callee ∈ h.reachableExprs →
      h.Answered ds .resolvePlugins n.span callee (bundledOnly.plugins.function name args.length)) ∧
    (∀ n b name args callee, .method n b name args callee ∈ h.reachableExprs →
      h.Answered ds .resolveTypes n.span callee (bundledOnly.plugins.method name b.type args.length)) ∧
    h.untyped = f.untyped := by
  have hrun : (parse unboundCalls).toOption.map (fun f =>
      ((f.runPasses bundledOnly [.resolvePlugins, .resolveTypes]).1.reachableExprs.map (·.note.type),
        (f.runPasses bundledOnly [.resolvePlugins, .resolveTypes]).2.map (·.message))) =
      some ([some .float, some .int, some .int, some (.list .string), some .string, some .string,
        some .string, some .unknown, some .string, some .unknown, some .float],
        ["unknown function 'missing'", "unknown method 'trim' on float"]) := by decide +kernel
  obtain ⟨f, hp, hf⟩ := exists_of_toOption_map hrun
  obtain ⟨htypes, hmessages⟩ := Prod.mk.inj hf
  obtain ⟨-, hfunctions, hmethods, -, hframe, -⟩ := parse_resolved hp bundledOnly [] rfl rfl
  exact ⟨f, _, _, hp, rfl, htypes, hmessages, hfunctions, hmethods, hframe⟩

end Sources

end TemplateFrontend
