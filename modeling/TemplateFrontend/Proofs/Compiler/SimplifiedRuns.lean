import TemplateFrontend.Proofs.Compiler.Forests
import TemplateFrontend.Proofs.Transform.NormalForms
import TemplateFrontend.Proofs.Tree.Walks
import TemplateFrontend.Proofs.Typing.FoldedTypes
/-!
# Simplification in a run

What simplification does to files that passes went over before, in whatever order. Files are forests then, so
that the results on forests hold of them. Once types were inferred, the constants and operators in a file have
the types that the rules give them, and no pass but the one that puts values in place of names changes that.

* `optimize_isNormal` — one run of the simplification is enough;
* `TemplateFile.FollowsRules` — files whose constants and operators have the types that the rules give them;
* `TemplateFile.followsRules_runPass`, `FileSet.followsRules_runPass` — what one pass keeps of that;
* `TemplateFile.Planted.keepsTypes` — simplification keeps the types of such a file;
* `optimize_keepsTypes` — and so it does in every run.
-/

namespace TemplateFrontend

open Forest

/-! ### Normal forms -/

/-- **One run of the simplification is enough.** Whatever passes came before it on parsed sources, it
leaves files in normal form: no expression in them can be folded, no condition is a constant, no text stands
beside another, and a constant that is printed as it is has characters that would have to be escaped. A
second run leaves the files as they are. -/
theorem optimize_isNormal {fs : FileSet} (h : ∀ f ∈ fs, ∃ source, parse source = .ok f)
    (s : Settings) (r : Registry) (ps qs : List Pass) :
    let gs := (FileSet.runPass s r .optimize (FileSet.runPasses s r qs (fs.runFilePasses s ps).1).1).1
    (∀ g ∈ gs, g.IsNormal) ∧ FileSet.runPass s r .optimize gs = (gs, []) := by
  intro gs
  -- whatever ran before, each file is still a forest
  have hrooted := rooted_of_passes h s r ps qs
  have hnormal : ∀ g ∈ gs, g.IsNormal := List.forall_mem_map.mpr fun g hg =>
    let ⟨_, hts, _⟩ := hrooted g hg
    hts.isNormal_optimize
  -- and a file in normal form is left as it is
  have hagain : ∀ g ∈ gs, g.optimize = g := List.forall_mem_map.mpr fun g hg =>
    let ⟨_, hts, _⟩ := hrooted g hg
    hts.optimize.optimize_eq_self hts.isNormal_optimize
  refine ⟨hnormal, ?_⟩
  show (gs.map (·.optimize), []) = (gs, [])
  rw [List.map_congr_left hagain, List.map_id']

/-- Branches that constants choose, one inside the other, between texts and prints of constants. -/
def nestedConstants : SourceText :=
  ⟨"a.st", "\x7bnamespace a\x7d\x7btemplate .t\x7d\x7b@param x: string\x7da\x7bif 1 < 2\x7db" ++
    "\x7bif not true\x7dc\x7b/if\x7d\x7b1 + 2\x7d\x7b/if\x7d\x7b'<' + 'd'\x7d" ++
    "\x7bif $x\x7d\x7b2 * 3\x7d\x7b/if\x7d\x7b/template\x7d"⟩

/-- The branches are chosen and the texts joined at once. -/
theorem optimize_isNormal_nestedConstants :
    ∃ f g, parse nestedConstants = .ok f ∧
      f.reachable.filterMap (fun id => (f.kind id).text?) = ["a", "b", "c"] ∧
      (FileSet.runPass (.default default) .empty .optimize [f]).1 = [g] ∧
      g.reachable.filterMap (fun id => (g.kind id).text?) = ["ab3", "6"] ∧
      g.IsNormal ∧ FileSet.runPass (.default default) .empty .optimize [g] = ([g], []) := by
  have hrun : (parse nestedConstants).toOption.map (fun f =>
      (f.reachable.filterMap (fun id => (f.kind id).text?),
        f.optimize.reachable.filterMap fun id => (f.optimize.kind id).text?)) =
      some (["a", "b", "c"], ["ab3", "6"]) := by decide +kernel
  obtain ⟨f, hp, hf⟩ := exists_of_toOption_map hrun
  obtain ⟨hbefore, hafter⟩ := Prod.mk.inj hf
  obtain ⟨hnormal, hagain⟩ := optimize_isNormal (List.forall_mem_singleton.mpr ⟨nestedConstants, hp⟩)
    (.default default) .empty [] []
  exact ⟨f, f.optimize, hp, hbefore, rfl, hafter, hnormal _ (List.mem_singleton_self _), hagain⟩

/-! ### Files that follow the rules -/

namespace TemplateFile

/-- The constants and operators in the file have the types that the rules give them. -/
def FollowsRules (f : TemplateFile) : Prop := ∀ e ∈ f.heldExprs, e.FollowsRules

section Held

variable {f g : TemplateFile} {ts us : Forest}

/-- A node gets another kind with the expressions that it had. -/
theorem exprs_setKind {id : NodeId} {k : NodeKind} (hk : k.exprs = (f.kind id).exprs) (x : NodeId) :
    ((f.setKind id k).kind x).exprs = (f.kind x).exprs := by
  obtain ⟨rfl, hkind⟩ | hkind := kind_setKind_cases f id k x
  · rw [hkind, hk]
  · rw [hkind]

/-- Qualified names change no expression. -/
theorem exprs_resolveImports (f : TemplateFile) (x : NodeId) :
    (f.resolveImports.1.kind x).exprs = (f.kind x).exprs := by
  refine resolveImports_rel (R := fun f g => ∀ x, (g.kind x).exprs = (f.kind x).exprs) (fun _ _ => rfl)
    (fun h h' x => (h' x).trans (h x)) (fun callee hk _ => exprs_setKind ?_) f x
  rw [hk]
  rfl

/-- Directives for escaping have no arguments. -/
theorem exprs_insertEscapingDirectives (f : TemplateFile) (x : NodeId) :
    (f.insertEscapingDirectives.kind x).exprs = (f.kind x).exprs := by
  refine insertEscapingDirectives_rel (R := fun f g => ∀ x, (g.kind x).exprs = (f.kind x).exprs)
    (fun _ _ => rfl) (fun h h' x => (h' x).trans (h x))
    (fun context place hk => exprs_setKind ?_) f x
  rw [exprs_escaped, hk]

/-- With the same expressions in every node a file holds the same. -/
theorem Retouched.heldExprs_eq (hr : Retouched f g) (hexprs : ∀ x, (g.kind x).exprs = (f.kind x).exprs) :
    g.heldExprs = f.heldExprs := by
  rw [TemplateFile.heldExprs, TemplateFile.heldExprs, hr.reachable_eq]
  exact List.flatMap_congr fun x _ => hexprs x

/-- Expressions are only lost when the forest is rebuilt. -/
theorem FollowsRules.of_descends (h : f.FollowsRules) (hf : f.Planted ts) (hd : Descends f ts g us) :
    g.FollowsRules := fun e he => h e ((hd.heldExprs_subperm hf).subset he)

/-- Expressions that are rewritten by a step that keeps to the rules. -/
theorem FollowsRules.mapExprs (h : f.FollowsRules) (hf : f.Planted ts) {step : Expr → Expr}
    (hstep : ∀ e : Expr, e.FollowsRules → (step e).FollowsRules) : (f.mapExprs step).FollowsRules := by
  rw [FollowsRules, hf.unshared.heldExprs_mapExprs]
  exact List.forall_mem_map.mpr fun e he => hstep e (h e he)

end Held

/-! ### Inference in a file -/

section Inference

variable {f : TemplateFile} {ts : Forest} {id : NodeId}

/-- A node of a forest of templates is a template, or it stands in the body of one. -/
theorem exists_template_of_mem_ids (hl : Labelled ts) (htemplates : AreTemplates ts) (hid : id ∈ ids ts) :
    ∃ i t b, .node i (.template t) [b] ∈ ts ∧ (id = i ∨ id ∈ ids b) := by
  induction ts with
  | nil => cases hid
  | cons u ts ih =>
    obtain ⟨⟨t, ht⟩, hrest⟩ := List.forall_mem_cons.mp htemplates
    obtain ⟨i, k, bs⟩ := u
    obtain rfl : k = .template t := ht
    obtain ⟨hbodies, -, hlrest⟩ := labelled_cons.mp hl
    obtain ⟨b, rfl, -⟩ := List.map_eq_singleton_iff.mp hbodies.symm
    rw [ids_cons, List.flatMap_singleton] at hid
    -- the node is the template itself, in its body, or in another template
    obtain rfl | hid := List.mem_cons.mp hid
    · exact ⟨id, t, b, List.mem_cons_self, .inl rfl⟩
    · obtain hid | hid := List.mem_append.mp hid
      · exact ⟨i, t, b, List.mem_cons_self, .inr hid⟩
      · obtain ⟨j, t', c, hm, hc⟩ := ih hlrest hrest hid
        exact ⟨j, t', c, List.mem_cons_of_mem _ hm, hc⟩

/-- The initial values in a typed header were typed. -/
theorem exists_infer_of_mem_typeState (types : TypeRegistry) (r : Resolver) (scope : TypeScope)
    (ds : List StateDecl) :
    ∀ d ∈ (typeState types r scope ds).1, ∃ d₀ ∈ ds, ∃ scope, d.initial = (d₀.initial.infer r scope).1 := by
  induction ds generalizing scope with
  | nil => exact List.forall_mem_nil _
  | cons d ds ih =>
    refine List.forall_mem_cons.mpr ⟨⟨d, List.mem_cons_self, scope, rfl⟩, fun d' hd' => ?_⟩
    obtain ⟨d₀, hd₀, heq⟩ := ih _ d' hd'
    exact ⟨d₀, List.mem_cons_of_mem _ hd₀, heq⟩

/-- **Inference in a file.** What a typed file holds is what the file held, typed. -/
theorem Planted.exists_infer_of_mem_heldExprs (hf : f.Planted ts) (s : Settings) {e : Expr}
    (he : e ∈ (f.resolveTypes s).1.heldExprs) :
    ∃ e₀ ∈ f.heldExprs, ∃ scope, e = (e₀.infer s.plugins scope).1 := by
  -- what a node of the forest held, the file held
  have hheld : ∀ {id : NodeId}, id ∈ ids ts → ∀ e₀ ∈ (f.kind id).exprs, e₀ ∈ f.heldExprs :=
    fun hid e₀ he₀ => List.mem_flatMap.mpr ⟨_, hf.reachable_eq ▸ hid, he₀⟩
  rw [heldExprs, (resolveTypes_retouched s f).reachable_eq, hf.reachable_eq] at he
  obtain ⟨id, hid, he⟩ := List.mem_flatMap.mp he
  obtain ⟨i, t, b, hm, rfl | hbody⟩ := exists_template_of_mem_ids hf.holds.labelled hf.areTemplates hid
  · -- the initial values in the header
    rw [(hf.resolveTypes_typed s hm).1] at he
    obtain ⟨d, hd, rfl⟩ := List.mem_map.mp he
    obtain ⟨d₀, hd₀, hscope⟩ := exists_infer_of_mem_typeState _ _ _ _ d hd
    have hkind : f.kind id = .template t := hf.holds.shows_nodes _ (mem_subtrees_self hm)
    refine ⟨d₀.initial, hheld hid _ ?_, hscope⟩
    rw [hkind]
    exact List.mem_map_of_mem hd₀
  · -- a node of the body, typed in its own scope
    rw [← map_id_scopes [] b] at hbody
    obtain ⟨p, hp, rfl⟩ := List.mem_map.mp hbody
    rw [(hf.resolveTypes_typed s hm).2 p hp, NodeKind.exprs_mapExprs] at he
    obtain ⟨e₀, he₀, rfl⟩ := List.mem_map.mp he
    exact ⟨e₀, hheld hid e₀ he₀, _, rfl⟩

/-- Whatever the file held, its constants and operators get the types that the rules give them. -/
theorem Planted.followsRules_resolveTypes (hf : f.Planted ts) (s : Settings) :
    (f.resolveTypes s).1.FollowsRules := by
  intro e he
  obtain ⟨e₀, -, scope, rfl⟩ := hf.exists_infer_of_mem_heldExprs s he
  exact Expr.followsRules_infer s.plugins scope e₀

end Inference

/-! ### Passes -/

section Passes

variable {f : TemplateFile}

/-- **A pass on single files** keeps to the rules, unless it puts constants in place of their names. -/
theorem followsRules_runPass (h : f.Rooted) (hrules : f.FollowsRules) (s : Settings) {p : Pass}
    (hp : p ≠ .resolveGlobals) : (f.runPass s p).1.FollowsRules := by
  obtain ⟨ts, hts, -⟩ := h
  cases p with
  | desugarSyntax =>
    obtain ⟨us, hus⟩ := exists_descends_desugarSyntax hts
    exact hrules.of_descends hts hus
  -- imports change callee names only and leave the expressions alone
  | resolveImports =>
    have hheld := (resolveImports_retouched f).heldExprs_eq (exprs_resolveImports f)
    exact fun e he => hrules e (hheld ▸ he)
  | resolveGlobals => exact absurd rfl hp
  | resolvePlugins => exact hrules.mapExprs hts fun e he => he.bindFunctions s.plugins
  | resolveTypes => exact hts.followsRules_resolveTypes s
  | _ => exact hrules

/-- So do several passes on single files. -/
theorem followsRules_runPasses (h : f.Rooted) (hrules : f.FollowsRules) (s : Settings) {ps : List Pass}
    (hps : .resolveGlobals ∉ ps) : (f.runPasses s ps).1.FollowsRules := by
  induction ps generalizing f with
  | nil => exact hrules
  | cons p ps ih =>
    rw [List.mem_cons, not_or] at hps
    rw [runPasses_cons]
    exact ih (h.runPass s p) (followsRules_runPass h hrules s (Ne.symm hps.1)) hps.2

/-- Whatever runs before inference, and whatever runs after it but for that one pass. -/
theorem followsRules_of_inferred (h : f.Rooted) (s : Settings) (before : List Pass) {after : List Pass}
    (hafter : .resolveGlobals ∉ after) :
    (f.runPasses s (before ++ .resolveTypes :: after)).1.FollowsRules := by
  induction before generalizing f with
  | nil =>
    rw [List.nil_append, runPasses_cons]
    obtain ⟨ts, hts, -⟩ := id h
    exact followsRules_runPasses (h.runPass s .resolveTypes) (hts.followsRules_resolveTypes s) s hafter
  | cons p before ih =>
    rw [List.cons_append, runPasses_cons]
    exact ih (h.runPass s p)

end Passes

end TemplateFile

namespace FileSet

open TemplateFile

variable {fs : FileSet}

/-- **A pass on all files** keeps to the rules. -/
theorem followsRules_runPass (h : ∀ f ∈ fs, f.Rooted) (hrules : ∀ f ∈ fs, f.FollowsRules) (s : Settings)
    (r : Registry) (p : Pass) : ∀ g ∈ (FileSet.runPass s r p fs).1, g.FollowsRules := by
  -- each of these passes goes through the files one by one
  have hmap : ∀ {pass : TemplateFile → TemplateFile},
      (∀ {f : TemplateFile} {ts}, f.Planted ts → f.FollowsRules → (pass f).FollowsRules) →
      ∀ g ∈ fs.map pass, g.FollowsRules := fun hpass => List.forall_mem_map.mpr fun f hf =>
    let ⟨_, hts, _⟩ := h f hf
    hpass hts (hrules f hf)
  cases p with
  | optimize =>
    refine hmap fun {f ts} hts hf => ?_
    have hfolded : (f.mapExprs Expr.fold).FollowsRules := hf.mapExprs hts fun e he => he.fold
    exact hfolded.of_descends (hts.mapExprs Expr.fold) (descends_simplify (hts.mapExprs Expr.fold))
  | insertEscapingDirectives =>
    -- directives are added, but they have no arguments
    refine hmap fun {f ts} hts hf => ?_
    have hheld := (insertEscapingDirectives_retouched f).heldExprs_eq (exprs_insertEscapingDirectives f)
    exact fun e he => hf e (hheld ▸ he)
  | addDebugAttributes =>
    refine hmap fun hts hf => ?_
    obtain ⟨us, hus⟩ := exists_descends_addDebugAttributes hts
    exact hf.of_descends hts hus
  | desugarHtmlAndState =>
    -- the initial values of the header are values of bindings afterwards
    refine hmap fun hts hf => ?_
    obtain ⟨hlowered, hheld⟩ := hts.lowerStates
    obtain ⟨us, hus⟩ := lowerBody_regrows.editBodies hlowered
    exact FollowsRules.of_descends (fun e he => hf e (hheld ▸ he)) hlowered hus
  | _ => exact hrules

/-- So do several passes on all files. -/
theorem followsRules_runPasses (h : ∀ f ∈ fs, f.Rooted) (hrules : ∀ f ∈ fs, f.FollowsRules)
    (s : Settings) (r : Registry) (ps : List Pass) :
    ∀ g ∈ (FileSet.runPasses s r ps fs).1, g.FollowsRules := by
  induction ps generalizing fs with
  | nil => exact hrules
  | cons p ps ih =>
    rw [runPasses_cons]
    exact ih (rooted_runPass h s r p) (followsRules_runPass h hrules s r p)

end FileSet

/-! ### Types of a simplified file -/

namespace TemplateFile

/-- Simplification keeps the types of the expressions that it leaves in the file. -/
structure KeepsTypes (f : TemplateFile) : Prop where
  /-- A node that is left could be reached before, and holds expressions that it held, folded. -/
  held : ∀ id ∈ f.optimize.reachable, id ∈ f.reachable ∧
    ∃ es : List Expr, es.Sublist (f.kind id).exprs ∧ (f.optimize.kind id).exprs = es.map Expr.fold
  /-- A part that is left of an expression has the place and the type of the part that stood there. -/
  notes : ∀ e ∈ f.heldExprs, ∀ path p, e.fold.at? path = some p →
    ∃ q, e.at? path = some q ∧ p.note = q.note
  /-- A constant has the type that the rules gave to what it stands for. -/
  constants : ∀ e ∈ f.reachableExprs, ∀ v, e.fold.literal? = some v →
    e.ruleType? = some v.type ∧ e.note.type = some v.type

/-- A file that follows the rules keeps its types. -/
theorem Planted.keepsTypes {f : TemplateFile} {ts : Forest} (h : f.Planted ts) (hf : f.FollowsRules) :
    f.KeepsTypes where
  held id hid := by
    have hfold := h.mapExprs Expr.fold
    rw [h.optimize.reachable_eq] at hid
    -- a node that is left was there before,
    have hbefore : id ∈ ids ts := by
      rw [← ids_mapKinds (NodeKind.mapExprs Expr.fold) ts]
      exact (ids_simplify hfold.holds.labelled).subset hid
    -- with the expressions that it still has, before they were folded
    have hexprs := (descends_simplify hfold).sheds.exprs id
    rw [h.kind_mapExprs Expr.fold (h.reaches_iff.mpr hbefore), NodeKind.exprs_mapExprs] at hexprs
    exact ⟨h.reachable_eq ▸ hbefore, List.sublist_map_iff.mp hexprs⟩
  notes e he path p hp := (hf e he).exists_at?_of_fold hp
  constants e he v hv := by
    have hrules : e.FollowsRules := by
      obtain ⟨id, hid, he⟩ := List.mem_flatMap.mp he
      obtain ⟨e', he', he⟩ := Expr.mem_subexprsOf.mp he
      exact (hf e' (List.mem_flatMap.mpr ⟨id, hid, he'⟩)).part he
    -- a part that becomes a constant was typed by the rules
    have hrule := hrules.ruleType?_of_fold hv
    exact ⟨hrule, (Expr.followsRules_iff.mp hrules).1 _ hrule⟩

end TemplateFile

/-- **Folding keeps types.** Types were inferred in some run over parsed sources, and values were put in place
of names before that, if at all; whatever other passes ran before and after, simplification keeps the type of
every expression that it leaves, and a constant that it puts in place of an operator has the type that the
operator has by the rules. -/
theorem optimize_keepsTypes {fs : FileSet} (h : ∀ f ∈ fs, ∃ source, parse source = .ok f)
    (s : Settings) (r : Registry) (before : List Pass) {after : List Pass}
    (hafter : .resolveGlobals ∉ after) (qs : List Pass) :
    ∀ f ∈ (FileSet.runPasses s r qs (fs.runFilePasses s (before ++ .resolveTypes :: after)).1).1,
      f.KeepsTypes := by
  have hparsed : ∀ f ∈ fs, f.Rooted := fun f hf => (h f hf).elim fun _ hf => rooted_of_parse hf
  have hfiles : ∀ f ∈ (fs.runFilePasses s (before ++ .resolveTypes :: after)).1, f.FollowsRules := by
    rw [FileSet.runFilePasses_eq]
    exact List.forall_mem_map.mpr fun f hf =>
      TemplateFile.followsRules_of_inferred (hparsed f hf) s before hafter
  intro f hf
  have hrules := FileSet.followsRules_runPasses (FileSet.rooted_runFilePasses hparsed s _) hfiles s r qs f hf
  obtain ⟨ts, hts, -⟩ := rooted_of_passes h s r (before ++ .resolveTypes :: after) qs f hf
  exact hts.keepsTypes hrules

/-- Operators on constants, one of which has a name, in a condition and in prints. -/
def typedConstants : SourceText :=
  ⟨"a.st", "\x7bnamespace a\x7d\x7btemplate .t\x7d\x7b@param x: int\x7d\x7bif $x < 2 * LIMIT\x7d" ++
    "\x7b'a' + 1\x7d\x7b/if\x7d\x7b$x + (1 + 2)\x7d\x7b/template\x7d"⟩

/-- Settings with the value of the name. -/
def limited : Settings := { Settings.default default with globals := ⟨[("LIMIT", .int 3)]⟩ }

/-- The operators become constants of the types that were inferred. -/
theorem optimize_keepsTypes_typedConstants :
    ∃ f g, parse typedConstants = .ok f ∧ .resolveGlobals ∉ [Pass.validateVisualElements] ∧
      (FileSet.runPasses limited .empty [.checkCalls, .checkHeaderVars]
        (FileSet.runFilePasses limited
          ([.desugarSyntax, .resolveImports, .resolveGlobals, .resolvePlugins] ++
            .resolveTypes :: [.validateVisualElements]) [f]).1).1 = [g] ∧
      g.reachableExprs.map (·.type) =
        [.bool, .int, .int, .int, .int, .string, .string, .int, .int, .int, .int, .int, .int] ∧
      g.optimize.reachableExprs.map (fun e => (e.type, e.literal?)) =
        [(.bool, none), (.int, none), (.int, some (.int 6)), (.int, none), (.int, none),
          (.int, some (.int 3))] ∧
      g.KeepsTypes := by
  -- the types before and after are evaluated together
  have hrun : (parse typedConstants).toOption.map (fun f =>
      (FileSet.runPasses limited .empty [.checkCalls, .checkHeaderVars]
        (FileSet.runFilePasses limited
          ([.desugarSyntax, .resolveImports, .resolveGlobals, .resolvePlugins] ++
            .resolveTypes :: [.validateVisualElements]) [f]).1).1.map fun g =>
        (g.reachableExprs.map (·.type), g.optimize.reachableExprs.map fun e => (e.type, e.literal?))) =
      some [([.bool, .int, .int, .int, .int, .string, .string, .int, .int, .int, .int, .int, .int],
        [(.bool, none), (.int, none), (.int, some (.int 6)), (.int, none), (.int, none),
          (.int, some (.int 3))])] := by decide +kernel
  obtain ⟨f, hp, hf⟩ := exists_of_toOption_map hrun
  obtain ⟨g, hfiles, hg⟩ := List.map_eq_singleton_iff.mp hf
  obtain ⟨hbefore, hafter⟩ := Prod.mk.inj hg
  have hglobals : .resolveGlobals ∉ [Pass.validateVisualElements] := by decide
  refine ⟨f, g, hp, hglobals, hfiles, hbefore, hafter, ?_⟩
  refine optimize_keepsTypes (List.forall_mem_singleton.mpr ⟨typedConstants, hp⟩) limited .empty
    [.desugarSyntax, .resolveImports, .resolveGlobals, .resolvePlugins] hglobals
    [.checkCalls, .checkHeaderVars] g ?_
  exact hfiles ▸ List.mem_singleton_self g

end TemplateFrontend
