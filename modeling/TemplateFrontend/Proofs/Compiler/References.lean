import TemplateFrontend.Proofs.Compiler.Forests
import TemplateFrontend.Proofs.Transform.Captures
/-!
# References in optimized files

The scopes of a template are checked before it is simplified, and simplification moves the nodes of
constant branches into the lists around them. A reference behind such a branch that has the name of a
`{let}` at the top of the branch means that `{let}` afterwards, if nothing binds the name in between; all
other references keep their meaning.

* `TemplateFile.captured` — the references of a template that simplification makes mean other nodes;
* `TemplateFile.Planted.rebinds_optimize` — a template before and after `TemplateFile.optimize`;
* `parse_references_optimize` — the same for every source that is read without error.
-/

namespace TemplateFrontend

open Forest

namespace TemplateFile

/-- The references of a template that simplification makes mean other nodes: with constants folded, those
behind a constant branch that have the name of a `{let}` at the top of it, if nothing in between binds
that name. -/
def captured (f : TemplateFile) (id : NodeId) : List (NodeId × VarRef) :=
  Forest.captured (mapKinds (NodeKind.mapExprs Expr.fold) (f.forest [id])) []

/-- Each template is simplified by itself. -/
theorem exists_simplify_template {ts : Forest} (htemplates : AreTemplates ts) {t : NodeTree}
    (ht : t ∈ ts) : ∃ u ∈ simplify (mapKinds (NodeKind.mapExprs Expr.fold) ts),
      simplify (mapKinds (NodeKind.mapExprs Expr.fold) [t]) = [u] ∧ u.id = t.id := by
  induction ts with
  | nil => cases ht
  | cons v ts ih =>
    obtain ⟨⟨x, hx⟩, hts⟩ := List.forall_mem_cons.mp htemplates
    obtain ⟨id, k, bs⟩ := v
    obtain rfl : k = .template x := hx
    rw [mapKinds_cons, NodeKind.mapExprs, simplify_cons_template]
    -- a template is never spliced into its list, so its position stays too
    obtain rfl | ht := List.mem_cons.mp ht
    · refine ⟨_, List.mem_cons_self, ?_, rfl⟩
      rw [mapKinds_cons, NodeKind.mapExprs, simplify_cons_template]
      rfl
    · obtain ⟨u, hu, hspec⟩ := ih hts ht
      exact ⟨u, List.mem_cons_of_mem _ hu, hspec⟩

section Optimize

variable {f : TemplateFile} {ts : Forest} {id : NodeId}

/-- **A template before and after.** -/
theorem Planted.rebinds_optimize (hf : f.Planted ts) (hid : id ∈ f.templates) :
    Rebinds (f.references id) (f.optimize.references id) (f.captured id) ∧
      (∀ r ∈ f.references id, ∀ s ∈ f.references id, r.occurrence = s.occurrence → r = s) ∧
      ∀ r ∈ f.optimize.references id, ∀ s ∈ f.optimize.references id,
        r.occurrence = s.occurrence → r = s := by
  obtain ⟨t, ht, rfl⟩ := List.mem_map.mp (hf.roots_eq.symm ▸ hid : id ∈ roots ts)
  obtain ⟨u, hu, hsimp, hroot⟩ := exists_simplify_template hf.areTemplates ht
  have hafter := (hf.holds.optimize hf.roots_eq hf.areTemplates).1
  -- read from its root, the one template comes back before and after the pass
  have hread : f.forest [t.id] = [t] := (hf.holds.of_mem ht).forest_roots
  have hread' : f.optimize.forest [t.id] = [u] := hroot ▸ (hafter.of_mem hu).forest_roots
  have hl : Labelled (mapKinds (NodeKind.mapExprs Expr.fold) [t]) :=
    labelled_mapKinds (NodeKind.bodies_mapExprs Expr.fold) (hf.holds.of_mem ht).labelled
  have hn : (ids (mapKinds (NodeKind.mapExprs Expr.fold) [t])).Nodup := by
    rw [ids_mapKinds]
    exact (hf.holds.of_mem ht).nodup
  -- folding constants moves no reference, so the simplification alone decides
  have hrebinds := rebinds_simplify hl hn
  rw [references_mapKinds_fold, hsimp] at hrebinds
  rw [references, references, captured, hread, hread']
  exact ⟨hrebinds, fun r hr s hs => reference_unique (hf.holds.of_mem ht).nodup hr hs,
    fun r hr s hs => reference_unique (hafter.of_mem hu).nodup hr hs⟩

end Optimize

end TemplateFile

/-! ### Sources -/

section Sources

variable {source : SourceText} {f g : TemplateFile} {id : NodeId}

/-- **References of what was parsed.** Whatever passes on single files ran before, a reference that is
left in a simplified template was in the template before, and it means the same as it did if and only if
it is not captured; so all references keep their meaning if and only if none is captured. -/
theorem parse_references_optimize (h : parse source = .ok f) (s : Settings) (ps : List Pass)
    (hg : g = (f.runPasses s ps).1) (hid : id ∈ g.templates) :
    (∀ r' ∈ g.optimize.references id, ∃ r ∈ g.references id, r.occurrence = r'.occurrence ∧
      (r'.binder = r.binder ↔ r'.occurrence ∉ g.captured id)) ∧
    ((∀ r' ∈ g.optimize.references id, r' ∈ g.references id) ↔ g.captured id = []) := by
  have hrooted : g.Rooted := hg ▸ (rooted_of_parse h).runPasses s ps
  obtain ⟨ts, hts, -⟩ := hrooted
  obtain ⟨hrebinds, hbefore, hafter⟩ := hts.rebinds_optimize hid
  exact hrebinds.spec hbefore hafter

/-- A parameter of the name of a `{let}` in a constant branch, read behind the branch. -/
def capturedParam : SourceText :=
  ⟨"a.st", "\x7bnamespace a\x7d\x7btemplate .t\x7d\x7b@param x: string\x7d" ++
    "\x7bif true\x7d\x7blet $x: 1 /\x7d\x7b/if\x7d\x7b$x\x7d\x7b/template\x7d"⟩

theorem parse_capturedParam : ∃ f, parse capturedParam = .ok f ∧ f.templates = [3] ∧
    f.references 3 = [⟨2, ⟨"x", ⟨72, 74⟩⟩, none⟩] ∧
    f.optimize.references 3 = [⟨2, ⟨"x", ⟨72, 74⟩⟩, some 0⟩] ∧
    f.captured 3 = [(2, ⟨"x", ⟨72, 74⟩⟩)] := by
  have hrun : (parse capturedParam).toOption.map (fun f => (f.templates, f.references 3,
      f.optimize.references 3, f.captured 3)) = some ([3], [⟨2, ⟨"x", ⟨72, 74⟩⟩, none⟩],
        [⟨2, ⟨"x", ⟨72, 74⟩⟩, some 0⟩], [(2, ⟨"x", ⟨72, 74⟩⟩)]) := by decide +kernel
  obtain ⟨f, hp, hf⟩ := exists_of_toOption_map hrun
  obtain ⟨htemplates, hf⟩ := Prod.mk.inj hf
  obtain ⟨hbefore, hf⟩ := Prod.mk.inj hf
  obtain ⟨hafter, hcaptured⟩ := Prod.mk.inj hf
  exact ⟨f, hp, htemplates, hbefore, hafter, hcaptured⟩

theorem parse_references_optimize_capturedParam : ∃ f, parse capturedParam = .ok f ∧
    3 ∈ f.templates ∧
    (∀ r' ∈ f.optimize.references 3, ∃ r ∈ f.references 3, r.occurrence = r'.occurrence ∧
      (r'.binder = r.binder ↔ r'.occurrence ∉ f.captured 3)) ∧
    ((∀ r' ∈ f.optimize.references 3, r' ∈ f.references 3) ↔ f.captured 3 = []) := by
  obtain ⟨f, hp, htemplates, -⟩ := parse_capturedParam
  have hid : 3 ∈ f.templates := by rw [htemplates]; exact List.mem_singleton.mpr rfl
  exact ⟨f, hp, hid, parse_references_optimize hp (.default default) [] rfl hid⟩

/-- The parameter is read before simplification, and the `{let}` of the branch afterwards. -/
theorem optimize_captures_capturedParam : ∃ f r r', parse capturedParam = .ok f ∧
    3 ∈ f.templates ∧ r ∈ f.references 3 ∧ r' ∈ f.optimize.references 3 ∧
    r.occurrence = r'.occurrence ∧ r.binder = none ∧ r'.binder = some 0 ∧
    ¬ ∀ r' ∈ f.optimize.references 3, r' ∈ f.references 3 := by
  obtain ⟨f, hp, htemplates, hbefore, hafter, -⟩ := parse_capturedParam
  refine ⟨f, ⟨2, ⟨"x", ⟨72, 74⟩⟩, none⟩, ⟨2, ⟨"x", ⟨72, 74⟩⟩, some 0⟩, hp, ?_, ?_, ?_, rfl, rfl, rfl, ?_⟩
  · rw [htemplates]
    exact List.mem_singleton.mpr rfl
  · rw [hbefore]
    exact List.mem_singleton.mpr rfl
  · rw [hafter]
    exact List.mem_singleton.mpr rfl
  · rw [hbefore, hafter]
    decide

end Sources

end TemplateFrontend
