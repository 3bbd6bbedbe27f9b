import TemplateFrontend.Proofs.Compiler.Parsed
import TemplateFrontend.Proofs.Compiler.Phases
import TemplateFrontend.Proofs.Transform.Rebuilt
import TemplateFrontend.Proofs.Transform.Retouching
/-!
# Files stay forests

The table of a source that parses holds the forest of its templates, and the expressions in it were read
one after the other. Each pass retouches nodes or rebuilds the forest, so both stay true whatever passes
run, and in which order.

* `rooted_of_parse` — the forest of a source;
* `TemplateFile.Rooted.runPass`, `FileSet.rooted_runPass` — what one pass keeps;
* `rooted_of_passes`, `isForest_of_passes` — the files after passes.
-/

namespace TemplateFrontend

namespace TemplateFile

open Forest

variable {f : TemplateFile} {ts : Forest}

/-! ### Sources -/

/-- The forest of the templates holds expressions of the table, each at most as often. -/
theorem Planted.heldExprs_subperm (hf : f.Planted ts) : f.heldExprs.Subperm f.exprs := by
  have htable : f.exprs = (List.range f.nodes.size).flatMap fun id => (f.kind id).exprs := by
    rw [exprs, List.flatMap_def, List.flatMap_def]
    refine congrArg List.flatten (List.ext_getElem (by simp) fun id hid _ => ?_)
    have hlt : id < f.nodes.size := by simpa using hid
    simp [kind, hlt]
  have hsub : (ids ts).Subperm (List.range f.nodes.size) :=
    List.Nodup.subperm hf.holds.nodup fun x hx => List.mem_range.mpr (hf.holds.lt_size x hx)
  obtain ⟨l, hperm, hl⟩ := hsub
  rw [htable, heldExprs, hf.reachable_eq]
  exact ⟨_, hperm.flatMap_right _, hl.flatMap _⟩

end TemplateFile

/-- **The forest of a source.** -/
theorem rooted_of_parse {source : SourceText} {f : TemplateFile} (h : parse source = .ok f) :
    f.Rooted := by
  obtain ⟨ts, hts, hroots, htemplates, -⟩ := parse_forest h
  obtain ⟨es, stop, hsub, hes⟩ := exprs_of_parse h
  have hplanted : f.Planted ts := ⟨hts, hroots, htemplates⟩
  exact ⟨ts, hplanted, hes.separate.subperm (hplanted.heldExprs_subperm.trans hsub)⟩

/-- The file of a source is a forest, whether it comes from the cache or not. -/
theorem rooted_of_readSource {cache : Option ParseCache} {source : SourceText} {f : TemplateFile}
    (h : readSource cache source = .ok f) : f.Rooted := by
  cases cache with
  | none => exact rooted_of_parse h
  | some cache =>
    change (cache.parse source).2 = .ok f at h
    rw [ParseCache.parse_snd_eq] at h
    split at h
    · next g hfind =>
      obtain rfl := Except.ok.inj h
      -- a file of the cache came from a parse too
      obtain ⟨t, -, -, hparse⟩ := ParseCache.parse_of_find? hfind
      exact rooted_of_parse hparse
    · exact rooted_of_parse h

namespace TemplateFile

variable {f : TemplateFile}

/-! ### Passes -/

theorem rooted_desugarSyntax (h : f.Rooted) : f.desugarSyntax.Rooted :=
  h.of_descends fun _ hts => exists_descends_desugarSyntax hts

theorem rooted_optimize (h : f.Rooted) : f.optimize.Rooted := by
  have hfold : (f.mapExprs Expr.fold).Rooted := h.retouched (mapExprs_retouched Expr.inPlace_fold f)
  exact hfold.of_descends fun _ hts => ⟨_, descends_simplify hts⟩

theorem rooted_addDebugAttributes (h : f.Rooted) : f.addDebugAttributes.Rooted :=
  h.of_descends fun _ hts => exists_descends_addDebugAttributes hts

theorem rooted_desugarHtmlAndState (h : f.Rooted) : f.desugarHtmlAndState.Rooted :=
  (rooted_lowerStates h).of_descends fun _ hts => lowerBody_regrows.editBodies hts

/-- **A pass on single files** keeps the forest of a file. -/
theorem Rooted.runPass (h : f.Rooted) (s : Settings) (p : Pass) : (f.runPass s p).1.Rooted := by
  cases p with
  | desugarSyntax => exact rooted_desugarSyntax h
  | resolveImports => exact h.retouched (resolveImports_retouched f)
  | resolveGlobals => exact h.retouched (resolveGlobals_rewritten s f).retouched
  | resolvePlugins => exact h.retouched (resolvePlugins_rewritten s f).retouched
  | resolveTypes => exact h.retouched (resolveTypes_retouched s f)
  | _ => exact h

theorem Rooted.runPasses (h : f.Rooted) (s : Settings) (ps : List Pass) :
    (f.runPasses s ps).1.Rooted := by
  induction ps generalizing f with
  | nil => exact h
  | cons p ps ih =>
    rw [runPasses_cons]
    exact ih (h.runPass s p)

end TemplateFile

namespace FileSet

variable {fs : FileSet}

/-- **A pass on all files** keeps the forests of the files. -/
theorem rooted_runPass (h : ∀ f ∈ fs, f.Rooted) (s : Settings) (r : Registry) (p : Pass) :
    ∀ g ∈ (FileSet.runPass s r p fs).1, g.Rooted := by
  have hmap : ∀ {pass : TemplateFile → TemplateFile}, (∀ {f}, f.Rooted → (pass f).Rooted) →
      ∀ g ∈ fs.map pass, g.Rooted := fun hpass => List.forall_mem_map.mpr fun f hf => hpass (h f hf)
  cases p with
  | optimize => exact hmap TemplateFile.rooted_optimize
  | insertEscapingDirectives =>
    exact hmap fun {f} hf => hf.retouched (TemplateFile.insertEscapingDirectives_retouched f)
  | addDebugAttributes => exact hmap TemplateFile.rooted_addDebugAttributes
  | desugarHtmlAndState => exact hmap TemplateFile.rooted_desugarHtmlAndState
  | _ => exact h

theorem rooted_runPasses (h : ∀ f ∈ fs, f.Rooted) (s : Settings) (r : Registry) (ps : List Pass) :
    ∀ g ∈ (FileSet.runPasses s r ps fs).1, g.Rooted := by
  induction ps generalizing fs with
  | nil => exact h
  | cons p ps ih =>
    rw [runPasses_cons]
    exact ih (rooted_runPass h s r p)

theorem rooted_runFilePasses (h : ∀ f ∈ fs, f.Rooted) (s : Settings) (ps : List Pass) :
    ∀ g ∈ (fs.runFilePasses s ps).1, g.Rooted := by
  rw [runFilePasses_eq]
  exact List.forall_mem_map.mpr fun f hf => (h f hf).runPasses s ps

end FileSet

/-! ### Runs -/

/-- Passes over parsed sources leave forests. -/
theorem rooted_of_passes {fs : FileSet} (h : ∀ f ∈ fs, ∃ source, parse source = .ok f)
    (s : Settings) (r : Registry) (ps qs : List Pass) :
    ∀ g ∈ (FileSet.runPasses s r qs (fs.runFilePasses s ps).1).1, g.Rooted := by
  have hparsed : ∀ f ∈ fs, f.Rooted := fun f hf => (h f hf).elim fun _ hf => rooted_of_parse hf
  exact FileSet.rooted_runPasses (FileSet.rooted_runFilePasses hparsed s ps) s r qs

/-- **Files stay forests.** Whatever passes on single files and on all files run over parsed sources,
in whatever order, each file is a forest: every node that can be reached stands in one list, and every
expression in one place. -/
theorem isForest_of_passes {fs : FileSet} (h : ∀ f ∈ fs, ∃ source, parse source = .ok f)
    (s : Settings) (r : Registry) (ps qs : List Pass) :
    ∀ g ∈ (FileSet.runPasses s r qs (fs.runFilePasses s ps).1).1, g.IsForest := by
  intro g hg
  exact (rooted_of_passes h s r ps qs g hg).isForest

/-- A tag around a branch that a constant takes, with a special character and a print in it. -/
def taggedBranch : SourceText :=
  ⟨"a.st", "\x7bnamespace a\x7d\x7btemplate .t\x7d\x7b@param x: string\x7d<p>" ++
    "\x7bif true\x7da\x7bsp\x7d\x7b$x\x7d\x7b/if\x7d</p>\x7b/template\x7d"⟩

theorem isForest_of_passes_taggedBranch :
    ∃ f g, parse taggedBranch = .ok f ∧ f.reachable = [6, 0, 4, 1, 2, 3, 5] ∧
      (FileSet.runPasses (.default default) .empty
          [.optimize, .insertEscapingDirectives, .addDebugAttributes, .desugarHtmlAndState]
        (FileSet.runFilePasses (.default default) [.desugarSyntax] [f]).1).1 = [g] ∧
      g.reachable = [6, 8, 3, 10] ∧ g.IsForest := by
  have hrun : (parse taggedBranch).toOption.map (fun f => (f.reachable,
      (FileSet.runPasses (.default default) .empty
          [.optimize, .insertEscapingDirectives, .addDebugAttributes, .desugarHtmlAndState]
        (FileSet.runFilePasses (.default default) [.desugarSyntax] [f]).1).1.map (·.reachable))) =
      some ([6, 0, 4, 1, 2, 3, 5], [[6, 8, 3, 10]]) := by decide +kernel
  obtain ⟨f, hp, hf⟩ := exists_of_toOption_map hrun
  obtain ⟨hbefore, hafter⟩ := Prod.mk.inj hf
  obtain ⟨g, hfiles, hg⟩ := List.map_eq_singleton_iff.mp hafter
  refine ⟨f, g, hp, hbefore, hfiles, hg, ?_⟩
  refine isForest_of_passes (List.forall_mem_singleton.mpr ⟨taggedBranch, hp⟩)
    (.default default) .empty [.desugarSyntax]
    [.optimize, .insertEscapingDirectives, .addDebugAttributes, .desugarHtmlAndState] g ?_
  exact hfiles ▸ List.mem_singleton_self g

end TemplateFrontend
