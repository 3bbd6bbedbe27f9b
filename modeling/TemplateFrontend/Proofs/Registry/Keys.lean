import TemplateFrontend.Pipeline
import TemplateFrontend.Proofs.Transform.Retouching
/-!
# Keys of the templates of a file

The key of a template is settled when its file is read: no pass on single files changes it, nor the
path of the file.

* `TemplateFile.keys` — the keys of the templates of a file;
* `TemplateFile.SameKeys` — the invariant of the passes on single files;
* `TemplateFile.runPasses_sameKeys` — what several of them keep.
-/

namespace TemplateFrontend

namespace TemplateFile

/-- The keys under which the templates of the file are registered. -/
def keys (f : TemplateFile) : List String :=
  f.templates.filterMap fun id => (f.kind id).key? f.delegatePackage

theorem key_mem_keys {f : TemplateFile} {p : NodeId × Template} (hp : p ∈ f.declared) :
    p.2.key f.delegatePackage ∈ f.keys := by
  obtain ⟨hid, hkind⟩ := kind_of_mem_declared hp
  refine List.mem_filterMap.mpr ⟨p.1, hid, ?_⟩
  rw [hkind]
  rfl

/-- The second file has the templates of the first one under the same keys, and is the same but for
its nodes. -/
structure SameKeys (f g : TemplateFile) : Prop where
  key_eq : ∀ id package, (g.kind id).key? package = (f.kind id).key? package
  rest_eq : { g with nodes := f.nodes } = f

namespace SameKeys

variable {f g h : TemplateFile}

theorem refl (f : TemplateFile) : SameKeys f f := ⟨fun _ _ => rfl, rfl⟩

theorem trans (h₁ : SameKeys f g) (h₂ : SameKeys g h) : SameKeys f h where
  key_eq := fun id package => (h₂.key_eq id package).trans (h₁.key_eq id package)
  rest_eq := rest_trans h₁.rest_eq h₂.rest_eq

theorem of_retouched (h : Retouched f g) : SameKeys f g :=
  ⟨fun id package => (h.alike id).key_eq package, h.rest_eq⟩

theorem setKind {id : NodeId} {k : NodeKind}
    (hk : ∀ package, k.key? package = (f.kind id).key? package) : SameKeys f (f.setKind id k) where
  key_eq := fun other package => by
    obtain ⟨rfl, hkind⟩ | hkind := kind_setKind_cases f id k other
    · rw [hkind]
      exact hk package
    · rw [hkind]
  rest_eq := rfl

theorem foldl {α : Type} {step : TemplateFile → α → TemplateFile}
    (hstep : ∀ g a, SameKeys g (step g a)) (f : TemplateFile) (as : List α) :
    SameKeys f (as.foldl step f) := by
  induction as generalizing f with
  | nil => exact .refl f
  | cons a as ih => exact (hstep f a).trans (ih (step f a))

theorem path_eq (h : SameKeys f g) : g.path = f.path := by
  have hpath := congrArg TemplateFile.path h.rest_eq
  exact hpath

theorem keys_eq (h : SameKeys f g) : g.keys = f.keys := by
  have hpackage := congrArg TemplateFile.delegatePackage h.rest_eq
  dsimp only at hpackage
  unfold keys
  rw [templates_of_rest h.rest_eq, hpackage]
  exact List.filterMap_congr fun id _ => h.key_eq id f.delegatePackage

end SameKeys

/-- Lists put into a template leave its key alone. -/
theorem key?_withBodies (k : NodeKind) (lists : List (List NodeId)) (package : Option String) :
    (k.withBodies lists).key? package = k.key? package := by
  cases k with
  | binding x b => cases b <;> rfl
  | _ => rfl

/-- Editing lists keeps keys if each edit does. -/
theorem editBodies_sameKeys {edit : BodyEdit} (hedit : ∀ f ids, SameKeys f (edit f ids).1)
    (f : TemplateFile) : SameKeys f (f.editBodies edit) := by
  refine SameKeys.foldl (fun g id => SameKeys.foldl (fun g slot => ?_) g _) f _
  unfold editBody
  split
  · exact .refl g
  · next body _ =>
    exact (hedit g body).trans (.setKind fun package => key?_withBodies _ _ package)

theorem expandSpecials_sameKeys (f : TemplateFile) (ids : List NodeId) :
    SameKeys f (expandSpecials f ids).1 := by
  induction ids generalizing f with
  | nil => exact .refl f
  | cons id ids ih =>
    rw [expandSpecials]
    split
    · next c hk => exact (SameKeys.setKind fun package => by rw [hk]; rfl).trans (ih _)
    · exact ih f

/-- **A pass on single files** keeps the keys of templates. -/
theorem runPass_sameKeys (s : Settings) (p : Pass) (f : TemplateFile) :
    SameKeys f (f.runPass s p).1 := by
  cases p with
  | desugarSyntax => exact editBodies_sameKeys expandSpecials_sameKeys f
  | resolveImports => exact .of_retouched (resolveImports_retouched f)
  | resolveGlobals => exact .of_retouched (resolveGlobals_rewritten s f).retouched
  | resolvePlugins => exact .of_retouched (resolvePlugins_rewritten s f).retouched
  | resolveTypes => exact .of_retouched (resolveTypes_retouched s f)
  | _ => exact .refl f

/-- Several passes on single files. -/
theorem runPasses_foldl (s : Settings) (ps : List Pass) (f : TemplateFile) (ds : Diagnostics) :
    ps.foldl (fun (x : TemplateFile × Diagnostics) p =>
        ((x.1.runPass s p).1, x.2 ++ (x.1.runPass s p).2)) (f, ds) =
      ((f.runPasses s ps).1, ds ++ (f.runPasses s ps).2) := by
  induction ps generalizing f ds with
  | nil => simp [runPasses]
  | cons p ps ih =>
    simp only [runPasses, List.foldl_cons, List.nil_append] at ih ⊢
    rw [ih, ih _ (f.runPass s p).2, List.append_assoc]

@[simp] theorem runPasses_nil (s : Settings) (f : TemplateFile) : f.runPasses s [] = (f, []) := rfl

theorem runPasses_cons (s : Settings) (p : Pass) (ps : List Pass) (f : TemplateFile) :
    f.runPasses s (p :: ps) = (((f.runPass s p).1.runPasses s ps).1,
      (f.runPass s p).2 ++ ((f.runPass s p).1.runPasses s ps).2) :=
  runPasses_foldl s ps (f.runPass s p).1 (f.runPass s p).2

theorem runPasses_sameKeys (s : Settings) (ps : List Pass) (f : TemplateFile) :
    SameKeys f (f.runPasses s ps).1 := by
  induction ps generalizing f with
  | nil => exact .refl f
  | cons p ps ih =>
    rw [runPasses_cons]
    exact (runPass_sameKeys s p f).trans (ih _)

end TemplateFile

end TemplateFrontend
