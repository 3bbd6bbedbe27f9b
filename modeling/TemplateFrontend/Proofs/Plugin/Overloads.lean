import Mathlib.Data.List.Nodup
import TemplateFrontend.Proofs.Readers
import TemplateFrontend.Plugin.Resolver
/-!
# Overloads of a method

Methods of one name are overloads of each other, one for each receiver. A call looks at all those whose
receiver accepts the value, in the order in which they were registered, and is bound to the first signature
with the right number of parameters. Two signatures of one overload have different numbers of parameters,
but those of two overloads need not, and receivers may overlap: the floating-point type accepts the
integers, a list of anything accepts each list. An overload that was registered before another one and
accepts its receiver then answers the calls of that one.

* `Resolver.Registers` — what holds of the overloads while plugins are registered;
* `Resolver.registers_ofUser` — it holds of the resolver for the plugins of a user;
* `Resolver.rivals` — the signatures of earlier overloads that a call may be bound to;
* `Resolver.method_eq` — what a call on the receiver of an overload is bound to;
* `Resolver.method_of_registered` — which overloads answer the calls on their receivers.
-/

namespace TemplateFrontend

namespace Signature

/-- A signature of each number of parameters, apart from those that were seen. -/
theorem nodup_of_repeatedArity? {seen : List Nat} {ss : List Signature}
    (h : repeatedArity? seen ss = none) : (ss.map arity).Nodup ∧ ∀ s ∈ ss, s.arity ∉ seen := by
  induction ss generalizing seen with
  | nil => exact ⟨.nil, fun s hs => nomatch hs⟩
  | cons s ss ih =>
    rw [repeatedArity?] at h
    split at h
    · cases h
    -- the arity is new and counts as seen for the others
    · next hs =>
      obtain ⟨hnodup, hseen⟩ := ih h
      refine ⟨List.nodup_cons.mpr ⟨fun hmem => ?_, hnodup⟩, List.forall_mem_cons.mpr ⟨hs, fun t ht hmem => ?_⟩⟩
      · obtain ⟨t, ht, harity⟩ := List.mem_map.mp hmem
        exact hseen t ht (List.mem_cons.mpr (.inl harity))
      · exact hseen t ht (List.mem_cons_of_mem _ hmem)

/-- The signatures of a plugin without a problem have different numbers of parameters. -/
theorem nodup_of_problem? {label : String} {ss : List Signature} (h : problem? label ss = none) :
    (ss.map arity).Nodup := by
  unfold problem? at h
  split at h
  · cases h
  · exact (nodup_of_repeatedArity? (Option.map_eq_none_iff.mp h)).1

/-- A signature without a rival is found by its number of parameters. -/
theorem forArity?_of_mem {label : String} {ss : List Signature} (h : problem? label ss = none)
    {s : Signature} (hs : s ∈ ss) : forArity? ss s.arity = some s :=
  find?_eq_some_of_unique hs (beq_self_eq_true _) fun _ ht harity =>
    List.inj_on_of_nodup_map (nodup_of_problem? h) ht hs (eq_of_beq harity)

/-- The first signatures are looked at first. -/
theorem forArity?_append (ss ts : List Signature) (n : Nat) :
    forArity? (ss ++ ts) n = (forArity? ss n).or (forArity? ts n) := List.find?_append ..

end Signature

namespace Resolver

variable {r : Resolver} {name : String} {l k new : Listed MethodPlugin}

/-! ### Methods by name -/

/-- Setting the overloads of a name changes what is found under that name, and under no other. -/
theorem lookup_setOverloads (name other : String) (ms : List (Listed MethodPlugin))
    (table : List (String × List (Listed MethodPlugin))) :
    (setOverloads name ms table).lookup other = if other = name then some ms else table.lookup other := by
  have hne {a b : String} (h : ¬a = b) : (a == b) = false := beq_false_of_ne h
  induction table with
  | nil => by_cases h : other = name <;> simp [setOverloads, List.lookup_cons, h, hne]
  | cons entry table ih =>
    obtain ⟨n, old⟩ := entry
    -- the first entry of the name is replaced; the others keep their place
    by_cases hn : n = name
    · subst hn
      by_cases h : other = n <;> simp [setOverloads, List.lookup_cons, h, hne]
    · by_cases h : other = n
      · subst h
        simp [setOverloads, hn]
      · simp [setOverloads, hn, List.lookup_cons, hne h, ih]

/-- A name gets an entry if it has none. -/
theorem keys_setOverloads (n : String) (ms : List (Listed MethodPlugin))
    (table : List (String × List (Listed MethodPlugin))) :
    (setOverloads n ms table).map (·.1) =
      if n ∈ table.map (·.1) then table.map (·.1) else table.map (·.1) ++ [n] := by
  induction table with
  | nil => rfl
  | cons entry table ih =>
    obtain ⟨n', old⟩ := entry
    rw [setOverloads]
    split
    · next heq => simp [heq]
    · next hne =>
      rw [List.map_cons, ih]
      split <;> simp_all [Ne.symm hne]

/-- All methods that were accepted. -/
def registeredMethods (r : Resolver) : List (Listed MethodPlugin) := r.methods.flatMap (·.2)

/-- The resolver with other overloads of a name. -/
def withOverloads (r : Resolver) (name : String) (ms : List (Listed MethodPlugin)) : Resolver :=
  { r with methods := setOverloads name ms r.methods }

/-- So it is for the overloads of a resolver. -/
theorem overloads_withOverloads (name other : String) (ms : List (Listed MethodPlugin)) :
    (r.withOverloads name ms).overloads other = if other = name then ms else r.overloads other := by
  rw [overloads, overloads, withOverloads, lookup_setOverloads]
  split <;> rfl

/-- Every name still has one entry. -/
theorem nodup_withOverloads (h : (r.methods.map (·.1)).Nodup) (name : String)
    (ms : List (Listed MethodPlugin)) : ((r.withOverloads name ms).methods.map (·.1)).Nodup := by
  rw [withOverloads, keys_setOverloads]
  split
  · exact h
  · next hname =>
    refine List.nodup_append.mpr ⟨h, List.nodup_singleton name, fun n hn n' hn' heq => hname ?_⟩
    rwa [← List.mem_singleton.mp hn', ← heq]

/-- **Registering a method.** Another one has its receiver already, or its signatures are refused, or it
comes behind the other overloads of its name. -/
theorem addMethod_cases (r : Resolver) (new : Listed MethodPlugin) :
    (∃ kept ∈ r.overloads new.plugin.name, kept.plugin.receiver = new.plugin.receiver ∧
        r.addMethod new = (r, clash new.plugin.label kept new)) ∨
      (∃ problem, r.addMethod new =
        (r.withOverloads new.plugin.name (r.overloads new.plugin.name), [problem])) ∨
      (Signature.problem? new.plugin.label new.plugin.signatures = none ∧ r.addMethod new =
        (r.withOverloads new.plugin.name (r.overloads new.plugin.name ++ [new]), [])) := by
  unfold addMethod
  dsimp only
  cases hknown : (r.overloads new.plugin.name).find? (·.plugin.receiver == new.plugin.receiver) with
  | some kept =>
    have hreceiver := List.find?_some hknown
    exact .inl ⟨kept, List.mem_of_find?_eq_some hknown, eq_of_beq hreceiver, rfl⟩
  | none =>
    cases hproblem : Signature.problem? new.plugin.label new.plugin.signatures with
    | some problem => exact .inr (.inl ⟨problem, rfl⟩)
    | none => exact .inr (.inr ⟨rfl, rfl⟩)

/-! ### Registration -/

/-- What holds of the overloads of a resolver, and of the problems that were found, when some methods were
registered: the overloads of each name are methods of that name without a problem, in the order in which they
were registered; and if there are no problems, each method is one of them, maybe in another listing. -/
structure Registers (x : Resolver × List DeclarationProblem) (listed : List (Listed MethodPlugin)) : Prop where
  nodup : (x.1.methods.map (·.1)).Nodup
  sublist : ∀ name, (x.1.overloads name).Sublist listed
  name_eq : ∀ name, ∀ l ∈ x.1.overloads name, l.plugin.name = name
  sound : ∀ name, ∀ l ∈ x.1.overloads name, Signature.problem? l.plugin.label l.plugin.signatures = none
  complete : x.2 = [] → ∀ l ∈ listed, ∃ kept ∈ x.1.overloads l.plugin.name,
    kept.plugin.receiver = l.plugin.receiver ∧ kept.declared = l.declared

namespace Registers

variable {x : Resolver × List DeclarationProblem} {listed : List (Listed MethodPlugin)}

/-- Overloads that are the same as before, with what was reported on a new method. -/
theorem of_overloads_eq (h : Registers x listed) {r : Resolver} {more : List DeclarationProblem}
    (hnodup : (r.methods.map (·.1)).Nodup) (heq : ∀ name, r.overloads name = x.1.overloads name)
    (hnew : more = [] → ∃ kept ∈ x.1.overloads new.plugin.name,
      kept.plugin.receiver = new.plugin.receiver ∧ kept.declared = new.declared) :
    Registers (r, x.2 ++ more) (listed ++ [new]) where
  nodup := hnodup
  sublist := fun name => heq name ▸ (h.sublist name).trans (List.sublist_append_left listed [new])
  name_eq := fun name => heq name ▸ h.name_eq name
  sound := fun name => heq name ▸ h.sound name
  complete := by
    intro hnil l hl
    obtain ⟨hnil, hmore⟩ := List.append_eq_nil_iff.mp hnil
    rw [heq]
    obtain hl | hl := List.mem_append.mp hl
    · exact h.complete hnil l hl
    · rw [List.mem_singleton.mp hl]
      exact hnew hmore

/-- **One more method** keeps what holds of the overloads. -/
theorem addMethod (h : Registers x listed) (new : Listed MethodPlugin) :
    Registers ((x.1.addMethod new).1, x.2 ++ (x.1.addMethod new).2) (listed ++ [new]) := by
  obtain ⟨kept, hkept, hreceiver, heq⟩ | ⟨problem, heq⟩ | ⟨hproblem, heq⟩ := addMethod_cases x.1 new
  · -- nothing is reported only if the method is the one that has the receiver, declared once more
    rw [heq]
    refine h.of_overloads_eq h.nodup (fun _ => rfl) fun hnil => ⟨kept, hkept, hreceiver, ?_⟩
    unfold clash at hnil
    split at hnil
    · assumption
    · cases hnil
  · -- the name may get an entry without overloads, which answers as no entry does
    rw [heq]
    refine h.of_overloads_eq (nodup_withOverloads h.nodup _ _) (fun name => ?_) (fun hnil => nomatch hnil)
    rw [overloads_withOverloads]
    split
    · next hname => rw [hname]
    · rfl
  · -- only the overloads of the name of the method change
    rw [heq]
    -- in turn: the order of declaration, the names, what is recorded, and that nothing is missing
    refine ⟨nodup_withOverloads h.nodup _ _, fun name => ?_, fun name l hl => ?_, fun name l hl => ?_, ?_⟩
    · rw [overloads_withOverloads]
      split
      · exact (h.sublist _).append (List.Sublist.refl _)
      · exact (h.sublist name).trans (List.sublist_append_left listed [new])
    · rw [overloads_withOverloads] at hl
      split at hl
      · next hname =>
        obtain hl | hl := List.mem_append.mp hl
        · exact (h.name_eq _ l hl).trans hname.symm
        · rw [List.mem_singleton.mp hl, hname]
      · exact h.name_eq name l hl
    · rw [overloads_withOverloads] at hl
      split at hl
      · obtain hl | hl := List.mem_append.mp hl
        · exact h.sound _ l hl
        · rwa [List.mem_singleton.mp hl]
      · exact h.sound name l hl
    · intro hnil l hl
      rw [List.append_nil] at hnil
      rw [overloads_withOverloads]
      obtain hl | hl := List.mem_append.mp hl
      -- methods that were accepted before stay where they were
      · obtain ⟨kept, hkept, hsame⟩ := h.complete hnil l hl
        refine ⟨kept, ?_, hsame⟩
        split
        · next hname => exact List.mem_append_left _ (hname ▸ hkept)
        · exact hkept
      -- and the new one is the last overload of its name
      · obtain rfl := List.mem_singleton.mp hl
        rw [if_pos rfl]
        exact ⟨l, List.mem_append_right _ (List.mem_singleton_self l), rfl, rfl⟩

/-- Plugins of other kinds leave the methods alone. -/
theorem of_methods_eq (h : Registers x listed) {r : Resolver} (heq : r.methods = x.1.methods)
    (more : List DeclarationProblem) : Registers (r, x.2 ++ more) listed := by
  -- what is registered is read off the table of methods
  have hoverloads : ∀ name, r.overloads name = x.1.overloads name := fun name => by
    rw [overloads, overloads, heq]
  refine ⟨heq ▸ h.nodup, fun name => ?_, fun name => ?_, fun name => ?_, fun hnil l hl => ?_⟩
  · rw [hoverloads]
    exact h.sublist name
  · rw [hoverloads]
    exact h.name_eq name
  · rw [hoverloads]
    exact h.sound name
  · rw [hoverloads]
    exact h.complete (List.append_eq_nil_iff.mp hnil).1 l hl

end Registers

/-- Before any method is registered. -/
theorem Registers.of_methods_nil {x : Resolver × List DeclarationProblem} (h : x.1.methods = []) :
    Registers x [] := by
  have hoverloads : ∀ name, x.1.overloads name = [] := fun name => by
    rw [overloads, h]
    rfl
  refine ⟨h ▸ .nil, fun name => hoverloads name ▸ .slnil, fun name l hl => ?_, fun name l hl => ?_, ?_⟩
  · rw [hoverloads] at hl
    cases hl
  · rw [hoverloads] at hl
    cases hl
  · exact fun _ l hl => nomatch hl

/-- A function changes no method. -/
theorem methods_addFunction (r : Resolver) (new : Listed FunctionPlugin) :
    (r.addFunction new).1.methods = r.methods := by
  unfold addFunction
  dsimp only
  split
  · rfl
  · split <;> rfl

/-- Nor does a directive. -/
theorem methods_addDirective (r : Resolver) (new : Listed DirectivePlugin) :
    (r.addDirective new).1.methods = r.methods := by
  unfold addDirective
  dsimp only
  split
  · rfl
  · split <;> rfl

/-- **A run of registrations** keeps what each of them keeps. -/
theorem addAll_keeps {α : Type} {add : Resolver → Listed α → Resolver × List DeclarationProblem}
    {P : Resolver × List DeclarationProblem → List (Listed α) → Prop}
    (hstep : ∀ x seen p, P x seen → P ((add x.1 p).1, x.2 ++ (add x.1 p).2) (seen ++ [p]))
    (start : Resolver × List DeclarationProblem) (seen : List (Listed α)) (h : P start seen)
    (new : List (Listed α)) : P (addAll add start new) (seen ++ new) := by
  -- what was registered grows along with what has been seen of the list
  induction new generalizing start seen with
  | nil => rwa [List.append_nil]
  | cons p new ih =>
    rw [List.append_cons]
    exact ih _ _ (hstep start seen p h)

/-- The overloads of the resolver for the plugins of a user. -/
theorem registers_ofUser (lenient : Bool) (user : UserPlugins) :
    Registers (ofUser lenient user) (Listed.bundled Bundled.methods ++ user.methods) := by
  let withFunctions := addAll addFunction (⟨lenient, [], [], []⟩, [])
    (Listed.bundled Bundled.functions ++ user.functions)
  let withMethods := addAll addMethod withFunctions (Listed.bundled Bundled.methods ++ user.methods)
  -- functions and directives leave the methods alone
  have hfunctions : withFunctions.1.methods = [] :=
    addAll_keeps (P := fun x _ => x.1.methods = [])
      (fun x _ p hx => (methods_addFunction x.1 p).trans hx) (⟨lenient, [], [], []⟩, []) [] rfl _
  have hstart : Registers withFunctions [] := .of_methods_nil hfunctions
  have hmethods : Registers withMethods (Listed.bundled Bundled.methods ++ user.methods) :=
    addAll_keeps (P := Registers) (fun _ _ p hx => hx.addMethod p) withFunctions [] hstart _
  exact addAll_keeps (P := fun x _ => Registers x (Listed.bundled Bundled.methods ++ user.methods))
    (fun x _ p hx => hx.of_methods_eq (methods_addDirective x.1 p) _) withMethods [] hmethods _

/-- What was accepted is among the overloads of its name. -/
theorem Registers.mem_registeredMethods_iff {x : Resolver × List DeclarationProblem}
    {listed : List (Listed MethodPlugin)} (h : Registers x listed) :
    l ∈ x.1.registeredMethods ↔ l ∈ x.1.overloads l.plugin.name := by
  constructor
  · intro hl
    obtain ⟨⟨n, ms⟩, hentry, hl⟩ := List.mem_flatMap.mp hl
    have hlookup : x.1.methods.lookup n = some ms := by
      -- a name has one entry
      obtain ⟨first, rest, hsplit⟩ := List.append_of_mem hentry
      have hnodup := h.nodup
      rw [hsplit, List.map_append, List.nodup_append] at hnodup
      refine List.lookup_eq_some_iff.mpr ⟨first, rest, hsplit, fun p hp => ?_⟩
      have hne : p.1 ≠ n := hnodup.2.2 p.1 (List.mem_map_of_mem hp) n List.mem_cons_self
      exact bne_iff_ne.mpr hne.symm
    have hoverloads : x.1.overloads n = ms := by rw [overloads, hlookup, Option.getD_some]
    rw [← hoverloads] at hl
    rwa [h.name_eq n l hl]
  · intro hl
    unfold overloads at hl
    cases hlookup : x.1.methods.lookup l.plugin.name with
    | none =>
      rw [hlookup] at hl
      cases hl
    | some ms =>
      rw [hlookup] at hl
      -- the other way round, what is found under the name is in the entry of the name
      obtain ⟨first, rest, hsplit, -⟩ := List.lookup_eq_some_iff.mp hlookup
      refine List.mem_flatMap.mpr ⟨(l.plugin.name, ms), ?_, hl⟩
      rw [hsplit]
      exact List.mem_append_right _ List.mem_cons_self

/-! ### Calls -/

/-- The signatures with a number of parameters, of those overloads whose receivers accept a type. -/
def rivals (overloads : List (Listed MethodPlugin)) (receiver : ValueType) (arity : Nat) : List Signature :=
  ((overloads.filter (·.plugin.receiver.accepts receiver)).flatMap (·.plugin.signatures)).filter
    (·.arity == arity)

/-- **A call on the receiver of an overload** is bound to the first signature of its earlier rivals, else to
that of the overload. -/
theorem method_eq {before after : List (Listed MethodPlugin)} {s : Signature}
    (hsplit : r.overloads name = before ++ l :: after)
    (hsound : Signature.problem? l.plugin.label l.plugin.signatures = none) (hs : s ∈ l.plugin.signatures) :
    r.method name l.plugin.receiver s.arity =
      .ok (.plugin name ((rivals before l.plugin.receiver s.arity).headD s)) := by
  let earlier := (before.filter (·.plugin.receiver.accepts l.plugin.receiver)).flatMap (·.plugin.signatures)
  let later := (after.filter (·.plugin.receiver.accepts l.plugin.receiver)).flatMap (·.plugin.signatures)
  -- the overload stands between those before it and those behind it
  have hall : r.methodSignatures name l.plugin.receiver = earlier ++ (l.plugin.signatures ++ later) := by
    have hself : l.plugin.receiver.accepts l.plugin.receiver = true := ValueType.accepts_self _
    rw [methodSignatures, hsplit, List.filter_append, List.filter_cons, if_pos hself, List.flatMap_append,
      List.flatMap_cons]
  -- the overload accepts its own receiver, so the signature is found if none of `earlier` is
  have hfound : Signature.forArity? (r.methodSignatures name l.plugin.receiver) s.arity =
      some ((rivals before l.plugin.receiver s.arity).headD s) := by
    rw [hall, Signature.forArity?_append, Signature.forArity?_append, Signature.forArity?_of_mem hsound hs,
      List.headD_eq_head?_getD, rivals, List.head?_filter]
    change (Signature.forArity? earlier s.arity).or _ = some ((Signature.forArity? earlier s.arity).getD s)
    cases Signature.forArity? earlier s.arity <;> rfl
  -- so the receiver has a method of the name
  have hsome : r.methodSignatures name l.plugin.receiver ≠ [] := by
    intro hnil
    rw [hnil] at hfound
    cases hfound
  unfold method
  rw [if_neg (by simpa using hsome), hfound]

/-- **Methods that are callable.** If nothing is reported on the plugins of a user, all methods are
registered, those of one name in the order in which they are listed. For each of their signatures, a call on
the receiver of the method with the right number of arguments is bound to the first signature of its earlier
rivals, if there is one: overloads of the same name that were registered before and accept the receiver. So
it is bound to the signature itself exactly if there is none, or if that one is the same. -/
theorem method_of_registered {lenient : Bool} {user : UserPlugins} (h : (ofUser lenient user).2 = []) :
    (∀ l ∈ Listed.bundled Bundled.methods ++ user.methods,
      ∃ kept ∈ (ofUser lenient user).1.registeredMethods, kept.plugin.name = l.plugin.name ∧
        kept.plugin.receiver = l.plugin.receiver ∧ kept.declared = l.declared) ∧
    ∀ l ∈ (ofUser lenient user).1.registeredMethods, ∀ s ∈ l.plugin.signatures, ∃ before after,
      (ofUser lenient user).1.overloads l.plugin.name = before ++ l :: after ∧
      (before ++ l :: after).Sublist (Listed.bundled Bundled.methods ++ user.methods) ∧
      (ofUser lenient user).1.method l.plugin.name l.plugin.receiver s.arity =
        .ok (.plugin l.plugin.name ((rivals before l.plugin.receiver s.arity).headD s)) ∧
      ((ofUser lenient user).1.method l.plugin.name l.plugin.receiver s.arity =
          .ok (.plugin l.plugin.name s) ↔
        ∀ s' ∈ (rivals before l.plugin.receiver s.arity).head?, s' = s) := by
  have hregisters := registers_ofUser lenient user
  refine ⟨fun l hl => ?_, fun l hl s hs => ?_⟩
  · obtain ⟨kept, hkept, hreceiver, hdeclared⟩ := hregisters.complete h l hl
    have hname := hregisters.name_eq _ kept hkept
    refine ⟨kept, hregisters.mem_registeredMethods_iff.mpr ?_, hname, hreceiver, hdeclared⟩
    rwa [hname]
  · have hmem := hregisters.mem_registeredMethods_iff.mp hl
    -- the overloads before this one are asked first
    obtain ⟨before, after, hsplit⟩ := List.append_of_mem hmem
    have hmethod := method_eq hsplit (hregisters.sound _ l hmem) hs
    refine ⟨before, after, hsplit, hsplit ▸ hregisters.sublist _, hmethod, ?_⟩
    rw [hmethod, List.headD_eq_head?_getD]
    cases (rivals before l.plugin.receiver s.arity).head? with
    | none => simp
    | some s' => simp

/-- A method of floating-point numbers. -/
def floatRounding : Listed MethodPlugin := ⟨.byUser 0, ⟨"round", .float, [⟨[], .float⟩], none⟩⟩

/-- A method of integers with the same name. -/
def intRounding : Listed MethodPlugin := ⟨.byUser 1, ⟨"round", .int, [⟨[], .int⟩], none⟩⟩

/-- Both methods, that of the wider receiver first. -/
def roundings : UserPlugins := ⟨[], [floatRounding, intRounding], []⟩

/-- What is known of the call on an integer: it depends on what stands before the method of integers. -/
theorem method_of_registered_roundings :
    (ofUser false roundings).2 = [] ∧ intRounding ∈ (ofUser false roundings).1.registeredMethods ∧
      ∃ before after, (ofUser false roundings).1.overloads "round" = before ++ intRounding :: after ∧
        (ofUser false roundings).1.method "round" .int 0 =
          .ok (.plugin "round" ((rivals before .int 0).headD ⟨[], .int⟩)) := by
  have hnone : (ofUser false roundings).2 = [] := by decide
  obtain ⟨-, hcalls⟩ := method_of_registered hnone
  have hmem : intRounding ∈ (ofUser false roundings).1.registeredMethods := by decide
  obtain ⟨before, after, hsplit, -, hmethod, -⟩ := hcalls intRounding hmem ⟨[], .int⟩ (List.mem_singleton_self _)
  exact ⟨hnone, hmem, before, after, hsplit, hmethod⟩

/-- The method of integers is registered and nothing is reported, but calls on integers go to the method of
floating-point numbers. -/
theorem method_bypasses_roundings :
    (ofUser false roundings).2 = [] ∧ intRounding ∈ (ofUser false roundings).1.registeredMethods ∧
      (⟨[], .int⟩ : Signature) ∈ intRounding.plugin.signatures ∧
      (ofUser false roundings).1.method "round" .int 0 = .ok (.plugin "round" ⟨[], .float⟩) ∧
      (ofUser false roundings).1.method "round" .int 0 ≠ .ok (.plugin "round" ⟨[], .int⟩) := by
  have hcall : (ofUser false roundings).1.method "round" .int 0 = .ok (.plugin "round" ⟨[], .float⟩) := by decide
  refine ⟨by decide, by decide, List.mem_singleton_self _, hcall, ?_⟩
  rw [hcall]
  decide

end Resolver

end TemplateFrontend
