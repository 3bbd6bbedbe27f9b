import TemplateFrontend.Pipeline
import TemplateFrontend.Proofs.Readers
/-!
# Calls that fit their callees

With external calls disallowed nothing is reported about the calls of some files if and only if every call
fits: a delegate that is called has an implementation, and any other callee is a registered template that
may be called here, takes what it is passed and gets what it requires.

What a call may not pass on its own are injected parameters, which the runtime supplies. Nobody looks for
those: a call fits, and is accepted, whether or not some of the parameters that it passes are injected.

* `Call.Fits` — a call of a template from a file;
* `Call.problemsWith_eq_nil_iff`, `Call.problems_eq_nil_iff` — the calls without problems;
* `FileSet.runPass_checkCalls_eq_nil_iff` — every file set, against every registry.
-/

namespace TemplateFrontend

namespace Call

/-- A call fits a template, from the file with a path. -/
structure Fits (c : Call) (path : String) (t : Interface) : Prop where
  /-- Templates of indirect dependencies are out of reach. -/
  direct : t.origin ≠ .indirectDependency
  visible : t.visibility = .everyone ∨ t.location.path = path
  /-- What is passed is declared and of a type that is assignable to the declared one. -/
  passed : ∀ p ∈ c.passed, ∃ d, t.parameter? p.name = some d ∧ d.type.accepts p.bound.type = true
  /-- What is required and not injected is passed, unless all data are passed on. -/
  complete : c.passesAll = false → ∀ d ∈ t.parameters, d.required = true → d.injected = false →
    ∃ p ∈ c.passed, p.name = d.name

/-- A call that may stand in the file with a path. -/
def Accepted (c : Call) (r : Registry) (path : String) : Prop :=
  if c.delegate then r.hasDelegate c.callee = true
  else ∃ t, r.get? c.callee = some t ∧ c.Fits path t

/-- Whether a call passes a parameter that the runtime supplies. -/
def passesInjected (c : Call) (t : Interface) : Bool :=
  c.passed.any fun p => (t.parameter? p.name).any (·.injected)

/-! ### The problems of one call -/

section Problems

variable {c : Call} {t : Interface} {r : Registry} {path : String} {p : Passed}

theorem passesInjected_iff : c.passesInjected t = true ↔
    ∃ p ∈ c.passed, ∃ d, t.parameter? p.name = some d ∧ d.injected = true := by
  rw [passesInjected, List.any_eq_true]
  refine exists_congr fun p => and_congr_right fun _ => ?_
  rw [Option.any_eq_true]

theorem passedProblem?_eq_none_iff : c.passedProblem? t p = none ↔
    ∃ d, t.parameter? p.name = some d ∧ d.type.accepts p.bound.type = true := by
  rw [passedProblem?]
  cases t.parameter? p.name with
  | none => simp
  | some d =>
    simp only [Option.some.injEq, exists_eq_left']
    split <;> simp_all

theorem missing_eq_nil_iff : c.missing t = [] ↔ (c.passesAll = false → ∀ d ∈ t.parameters,
    d.required = true → d.injected = false → ∃ p ∈ c.passed, p.name = d.name) := by
  rw [missing]
  split
  · next hall => simp [hall]
  · next hall =>
    simp only [List.map_eq_nil_iff, List.filter_eq_nil_iff, Interface.requiredParameters, List.mem_filter,
      Bool.not_eq_true', Bool.eq_false_iff, hall]
    simp [and_imp]

/-- Each part of the check is one clause of fitting. -/
theorem problemsWith_eq_nil_iff : c.problemsWith path t = [] ↔ c.Fits path t := by
  -- the two checks that report one problem at most
  have hdirect : (if t.origin = .indirectDependency then [CallProblem.indirect c.callee] else []) = [] ↔
      t.origin ≠ .indirectDependency := by simp
  have hvisible : (if t.visibility = .sameFile ∧ t.location.path ≠ path then
      [CallProblem.hidden c.callee t.location.path] else []) = [] ↔
        (t.visibility = .everyone ∨ t.location.path = path) := by
    cases t.visibility <;> simp
  rw [problemsWith, List.append_eq_nil_iff, List.append_eq_nil_iff, List.append_eq_nil_iff, hdirect, hvisible,
    List.filterMap_eq_nil_iff, missing_eq_nil_iff]
  simp only [passedProblem?_eq_none_iff]
  constructor
  · rintro ⟨⟨⟨hdirect, hvisible⟩, hpassed⟩, hcomplete⟩
    exact ⟨hdirect, hvisible, hpassed, hcomplete⟩
  · rintro ⟨hdirect, hvisible, hpassed, hcomplete⟩
    exact ⟨⟨⟨hdirect, hvisible⟩, hpassed⟩, hcomplete⟩

theorem problems_eq_nil_iff : c.problems r false path = [] ↔ c.Accepted r path := by
  rw [problems, Accepted, Bool.false_or]
  split
  · simp
  · cases r.get? c.callee with
    | none => simp
    | some t => simp [problemsWith_eq_nil_iff]

end Problems

end Call

/-! ### Files -/

section Files

variable {s : Settings} {r : Registry}

theorem TemplateFile.checkCalls_eq_nil_iff (hs : s.allowExternalCalls = false) {f : TemplateFile} :
    f.checkCalls s r = [] ↔
      ∀ id ∈ f.reachable, ∀ c, f.kind id = .call c → c.Accepted r f.path := by
  rw [checkCalls, List.flatMap_eq_nil_iff]
  refine forall₂_congr fun id _ => ?_
  cases hkind : f.kind id with
  | call c =>
    simp only [hs, List.map_eq_nil_iff, Call.problems_eq_nil_iff, NodeKind.call.injEq, forall_eq']
  | _ => simp

/-- **Calls fit their callees.** With external calls disallowed nothing is reported, for any files and any
registry, if and only if every call that can be reached fits: a delegate has an implementation; any other
callee is a registered template, of no indirect dependency and public or of the same file, that declares
every parameter that is passed, with a type to which the passed one is assignable; and without all data
being passed on, whatever it requires and does not inject is passed. Such a call may still pass a parameter
that is injected. -/
theorem FileSet.runPass_checkCalls_eq_nil_iff (hs : s.allowExternalCalls = false) (fs : FileSet) :
    (fs.runPass s r .checkCalls).2 = [] ↔
      ∀ f ∈ fs, ∀ id ∈ f.reachable, ∀ c, f.kind id = .call c →
        (c.delegate = true → r.hasDelegate c.callee = true) ∧
        (c.delegate = false → ∃ t ∈ r.interfaces, t.key = c.callee ∧ r.get? c.callee = some t ∧
          c.Fits f.path t) := by
  have hpass : (fs.runPass s r .checkCalls).2 = fs.flatMap (·.checkCalls s r) := rfl
  rw [hpass, List.flatMap_eq_nil_iff]
  refine forall₂_congr fun f _ => (TemplateFile.checkCalls_eq_nil_iff hs).trans ?_
  refine forall₂_congr fun id _ => forall₂_congr fun c _ => ?_
  rw [Call.Accepted]
  cases c.delegate with
  | true => simp
  | false =>
    simp only [Bool.false_eq_true, if_false, false_implies, true_and, true_implies]
    refine exists_congr fun t => ⟨fun ⟨hget, hfits⟩ => ?_, fun ⟨_, _, hget, hfits⟩ => ⟨hget, hfits⟩⟩
    -- a lookup gives a template of the registry under the name asked for
    have hkey : t.key = c.callee := by simpa using List.find?_some hget
    exact ⟨List.mem_of_find?_eq_some hget, hkey, hget, hfits⟩

end Files

/-- A call of a template with an injected parameter, which passes it. -/
def injectedLocale : SourceText :=
  ⟨"a.st", "\x7bnamespace a\x7d\x7btemplate .t\x7d\x7bcall .card\x7d\x7bparam locale: 'x' /\x7d\x7b/call\x7d" ++
    "\x7b/template\x7d\x7btemplate .card\x7d\x7b@inject locale: string\x7d\x7b$locale\x7d\x7b/template\x7d"⟩

/-- Settings under which every callee has to be known. -/
def closedWorld : Settings := { Settings.default default with allowExternalCalls := false }

/-- The files of one source after the passes that calls are checked after. -/
def TemplateFile.typedAlone (f : TemplateFile) : FileSet :=
  (FileSet.runFilePasses closedWorld [.resolveImports, .resolveTypes] [f]).1

/-- The templates called in some files that get an injected parameter from their callers. -/
def FileSet.injectedInto (fs : FileSet) (r : Registry) : List String :=
  fs.flatMap fun f => (f.reachable.filterMap f.directCall?).filterMap fun c =>
    (r.get? c.callee).bind fun t => if c.passesInjected t then some c.callee else none

theorem TemplateFile.kind_of_directCall? {f : TemplateFile} {id : NodeId} {c : Call}
    (h : f.directCall? id = some c) : f.kind id = .call c ∧ c.delegate = false := by
  rw [directCall?] at h
  split at h
  · next c' hkind =>
    rw [Option.ite_none_left_eq_some] at h
    obtain ⟨hdirect, h⟩ := h
    obtain rfl := Option.some.inj h
    exact ⟨hkind, Bool.eq_false_iff.mpr hdirect⟩
  · cases h

theorem FileSet.mem_injectedInto {fs : FileSet} {r : Registry} {key : String}
    (h : key ∈ fs.injectedInto r) : ∃ f ∈ fs, ∃ id ∈ f.reachable, ∃ c t, f.kind id = .call c ∧
      c.delegate = false ∧ c.callee = key ∧ r.get? key = some t ∧
      ∃ p ∈ c.passed, ∃ d, t.parameter? p.name = some d ∧ d.injected = true := by
  obtain ⟨f, hf, h⟩ := List.mem_flatMap.mp h
  obtain ⟨c, hc, h⟩ := List.mem_filterMap.mp h
  obtain ⟨id, hid, hcall⟩ := List.mem_filterMap.mp hc
  obtain ⟨t, hget, h⟩ := Option.bind_eq_some_iff.mp h
  rw [Option.ite_none_right_eq_some] at h
  obtain ⟨hinjected, h⟩ := h
  obtain rfl := Option.some.inj h
  obtain ⟨hkind, hdirect⟩ := TemplateFile.kind_of_directCall? hcall
  exact ⟨f, hf, id, hid, c, t, hkind, hdirect, rfl, hget, Call.passesInjected_iff.mp hinjected⟩

theorem parse_injectedLocale : ∃ f, parse injectedLocale = .ok f ∧
    (f.typedAlone.runPass closedWorld (Registry.build f.typedAlone []).1 .checkCalls).2 = [] ∧
    f.typedAlone.injectedInto (Registry.build f.typedAlone []).1 = ["a.card"] := by
  have hrun : (parse injectedLocale).toOption.map (fun f => decide
      ((f.typedAlone.runPass closedWorld (Registry.build f.typedAlone []).1 .checkCalls).2 = [] ∧
        f.typedAlone.injectedInto (Registry.build f.typedAlone []).1 = ["a.card"])) = some true := by
    decide +kernel
  obtain ⟨f, hp, hf⟩ := exists_of_toOption_map hrun
  exact ⟨f, hp, of_decide_eq_true hf⟩

/-- The call of the card fits. -/
theorem runPass_checkCalls_eq_nil_iff_injectedLocale : ∃ f, parse injectedLocale = .ok f ∧
    closedWorld.allowExternalCalls = false ∧
    ∃ g ∈ f.typedAlone, ∃ id ∈ g.reachable, ∃ c t, g.kind id = .call c ∧ c.callee = "a.card" ∧
      (Registry.build f.typedAlone []).1.get? "a.card" = some t ∧ c.Fits g.path t := by
  obtain ⟨f, hp, hcheck, hinjected⟩ := parse_injectedLocale
  have hmem : "a.card" ∈ f.typedAlone.injectedInto (Registry.build f.typedAlone []).1 := by
    rw [hinjected]
    exact List.mem_singleton_self _
  obtain ⟨g, hg, id, hid, c, -, hkind, hdirect, hcallee, -⟩ := FileSet.mem_injectedInto hmem
  obtain ⟨-, hfits⟩ := (FileSet.runPass_checkCalls_eq_nil_iff rfl f.typedAlone).mp hcheck g hg id hid c hkind
  obtain ⟨t, -, -, hget, hfits⟩ := hfits hdirect
  exact ⟨f, hp, rfl, g, hg, id, hid, c, t, hkind, hcallee, hcallee ▸ hget, hfits⟩

/-- Nothing is reported about a caller that supplies an injected parameter itself. -/
theorem checkCalls_misses_injectedLocale : ∃ f, parse injectedLocale = .ok f ∧
    (f.typedAlone.runPass closedWorld (Registry.build f.typedAlone []).1 .checkCalls).2 = [] ∧
    ∃ g ∈ f.typedAlone, ∃ id ∈ g.reachable, ∃ c t, g.kind id = .call c ∧ c.delegate = false ∧
      c.callee = "a.card" ∧ (Registry.build f.typedAlone []).1.get? "a.card" = some t ∧
      ∃ p ∈ c.passed, ∃ d, t.parameter? p.name = some d ∧ d.injected = true := by
  obtain ⟨f, hp, hcheck, hinjected⟩ := parse_injectedLocale
  refine ⟨f, hp, hcheck, FileSet.mem_injectedInto ?_⟩
  rw [hinjected]
  exact List.mem_singleton_self _

end TemplateFrontend
