import TemplateFrontend.Source.Position
import TemplateFrontend.ValueType.Basic
/-!
# Interfaces of templates

An `Interface` is everything another file needs to know to call a template. It is built from an
`InterfaceDraft`, in which the parts of a delegate template may be missing or out of place. The sets
of names that are part of it are `NameSet`s: strictly ascending lists of names, so that two sets with
the same members are equal and are written alike.

* `NameSet.ofList_toList` — building the set of the members of a set gives the set;
* `InterfaceDraft.build_eq_ok_iff` — which drafts build, and into what;
* `build_draft` — the draft of an interface builds that interface.
-/

namespace TemplateFrontend

/-! ### Sets of names -/

/-- A finite set of names, in ascending order. -/
structure NameSet where
  toList : List String
  ascending : toList.Pairwise (· < ·)
  deriving DecidableEq, Repr

namespace NameSet

instance : Inhabited NameSet := ⟨⟨[], .nil⟩⟩

/-- The empty set. -/
def empty : NameSet := ⟨[], .nil⟩

/-- A name put in its place in an ascending list, unless it is there. -/
def insertSorted (x : String) : List String → List String
  | [] => [x]
  | y :: ys => if x < y then x :: y :: ys else if x = y then y :: ys else y :: insertSorted x ys

theorem mem_insertSorted {x z : String} {ys : List String} :
    z ∈ insertSorted x ys ↔ z = x ∨ z ∈ ys := by
  induction ys with
  | nil => simp [insertSorted]
  | cons y ys ih =>
    unfold insertSorted
    split
    · simp
    · split
      -- the name is there already and is not put in again
      · next h => subst h; simp
      · simp only [List.mem_cons, ih]
        constructor
        · rintro (h | h | h) <;> simp [h]
        · rintro (h | h | h) <;> simp [h]

theorem lt_of_not_lt_of_ne {x y : String} (h : ¬ x < y) (hne : x ≠ y) : y < x := by
  rcases Std.le_total (a := x) (b := y) with hle | hle
  · exact absurd (Std.lt_of_le_of_ne hle hne) h
  · exact Std.lt_of_le_of_ne hle hne.symm

theorem insertSorted_ascending {x : String} {ys : List String} (h : ys.Pairwise (· < ·)) :
    (insertSorted x ys).Pairwise (· < ·) := by
  induction ys with
  | nil => simp [insertSorted]
  | cons y ys ih =>
    have ⟨hy, hys⟩ := List.pairwise_cons.1 h
    unfold insertSorted
    split
    -- put in front: below the head, hence below the whole list
    · next hxy =>
      refine List.pairwise_cons.2 ⟨fun z hz => ?_, h⟩
      rcases List.mem_cons.1 hz with rfl | hz
      · exact hxy
      · exact String.lt_trans hxy (hy z hz)
    · next hxy =>
      split
      · exact h
      · next hne =>
        refine List.pairwise_cons.2 ⟨fun z hz => ?_, ih hys⟩
        -- what stands in the new tail is the name or was in the old one
        rcases mem_insertSorted.1 hz with rfl | hz
        · exact lt_of_not_lt_of_ne hxy hne
        · exact hy z hz

/-- The set with one more member. -/
def insert (s : NameSet) (x : String) : NameSet :=
  ⟨insertSorted x s.toList, insertSorted_ascending s.ascending⟩

/-- The set of the names in a list. -/
def ofList (xs : List String) : NameSet := xs.foldl insert empty

theorem insertSorted_of_forall_lt {x : String} {ys : List String} (h : ∀ y ∈ ys, y < x) :
    insertSorted x ys = ys ++ [x] := by
  induction ys with
  | nil => rfl
  | cons y ys ih =>
    have hy : y < x := h y (List.mem_cons_self ..)
    have h1 : ¬ x < y := fun hxy => String.lt_irrefl x (String.lt_trans hxy hy)
    have h2 : x ≠ y := fun he => String.lt_irrefl x (he ▸ hy)
    simp [insertSorted, h1, h2, ih fun z hz => h z (List.mem_cons_of_mem _ hz)]

theorem toList_foldl_insert (xs : List String) (s : NameSet)
    (h : (s.toList ++ xs).Pairwise (· < ·)) : (xs.foldl insert s).toList = s.toList ++ xs := by
  induction xs generalizing s with
  | nil => simp
  | cons x xs ih =>
    have hlt : ∀ y ∈ s.toList, y < x := fun y hy =>
      (List.pairwise_append.1 h).2.2 y hy x (List.mem_cons_self ..)
    have hs : (s.insert x).toList = s.toList ++ [x] := insertSorted_of_forall_lt hlt
    rw [List.foldl_cons, ih]
    · simp [hs]
    · simpa [hs] using h

theorem eq_of_toList_eq {s t : NameSet} (h : s.toList = t.toList) : s = t := by
  cases s
  cases t
  simpa using h

theorem ofList_toList (s : NameSet) : ofList s.toList = s :=
  eq_of_toList_eq (toList_foldl_insert s.toList empty (by simpa [empty] using s.ascending))

end NameSet

/-! ### Interfaces and their drafts -/

/-- A parameter that a template declares. -/
structure Parameter where
  name : String
  kind : ParamKind
  type : ValueType
  required : Bool
  /-- Supplied by the runtime, never by callers. -/
  injected : Bool
  description : Option String
  deriving DecidableEq, Repr, Inhabited

/-- A call that passes all data of its caller on. -/
structure Forwarding where
  callee : String
  delegate : Bool
  /-- Parameters that the call passes itself, in place of the data of the caller. -/
  overridden : NameSet
  deriving DecidableEq, Repr, Inhabited

/-- How a template is selected. -/
inductive Role where
  | basic
  | element
  | delegate (name variant : String)
  deriving DecidableEq, Repr, Inhabited

namespace Role

/-- The kind of template that has the role. -/
def kind : Role → TemplateKind
  | .basic => .basic
  | .element => .element
  | .delegate _ _ => .delegate

/-- The name of the delegate that the template implements. -/
def delegateName? : Role → Option String
  | .delegate name _ => some name
  | _ => none

/-- The variant for which the template implements its delegate. -/
def variant? : Role → Option String
  | .delegate _ variant => some variant
  | _ => none

end Role

/-- What callers need to know of a template. -/
structure Interface where
  /-- The key under which the template is registered. -/
  key : String
  location : Location
  origin : Origin
  role : Role
  contentKind : ContentKind
  strictHtml : Bool
  visibility : Visibility
  /-- The package of the file of the template. -/
  package : Option String
  parameters : List Parameter
  forwardings : List Forwarding
  key_ne_empty : key ≠ ""
  deriving DecidableEq, Repr

namespace Interface

/-- The parameter with a name. -/
def parameter? (t : Interface) (name : String) : Option Parameter :=
  t.parameters.find? (·.name == name)

/-- The parameters that a caller has to pass. -/
def requiredParameters (t : Interface) : List Parameter :=
  t.parameters.filter fun p => p.required && !p.injected

end Interface

/-- Why a draft is no interface. -/
inductive InterfaceError where
  | missingName
  | missingDelegateName (key : String)
  | missingVariant (key : String)
  | unexpectedDelegate (key : String) (kind : TemplateKind)
  deriving DecidableEq, Repr

/-- The error in words. -/
def InterfaceError.message : InterfaceError → String
  | .missingName => "template metadata requires a name"
  | .missingDelegateName key => "delegate template '" ++ key ++ "' has no delegate name"
  | .missingVariant key => "delegate template '" ++ key ++ "' has no variant"
  | .unexpectedDelegate key kind =>
    kind.command ++ " '" ++ key ++ "' must not carry delegate information"

/-- The parts of an interface, not checked yet. -/
structure InterfaceDraft where
  key : String
  location : Option Location
  origin : Origin
  kind : TemplateKind
  contentKind : ContentKind
  strictHtml : Bool
  visibility : Visibility
  package : Option String
  delegateName : Option String
  delegateVariant : Option String
  parameters : List Parameter
  forwardings : List Forwarding
  deriving DecidableEq, Repr

namespace InterfaceDraft

/-- The draft of a public template of strict HTML without parameters, defined in this
compilation. -/
def ofName (key : String) (kind : TemplateKind) : InterfaceDraft :=
  ⟨key, none, .source, kind, .html, true, .everyone, none, none, none, [], []⟩

/-- How the template is selected: delegate templates have both a name and a variant, others
neither. -/
def role (d : InterfaceDraft) : Except InterfaceError Role :=
  match d.kind, d.delegateName, d.delegateVariant with
  | .delegate, some name, some variant => .ok (.delegate name variant)
  | .delegate, none, _ => .error (.missingDelegateName d.key)
  | .delegate, some _, none => .error (.missingVariant d.key)
  | .basic, none, none => .ok .basic
  | .element, none, none => .ok .element
  | kind, _, _ => .error (.unexpectedDelegate d.key kind)

/-- The interface, if the parts fit together. A template without a location gets one without a
path. -/
def build (d : InterfaceDraft) : Except InterfaceError Interface :=
  if h : d.key = "" then .error .missingName
  else do
    pure {
      key := d.key, location := d.location.getD (.ofPath ""), origin := d.origin, role := ← d.role
      contentKind := d.contentKind, strictHtml := d.strictHtml, visibility := d.visibility
      package := d.package, parameters := d.parameters, forwardings := d.forwardings
      key_ne_empty := h }

end InterfaceDraft

/-- The parts of an interface. -/
def Interface.draft (t : Interface) : InterfaceDraft :=
  ⟨t.key, some t.location, t.origin, t.role.kind, t.contentKind, t.strictHtml, t.visibility,
    t.package, t.role.delegateName?, t.role.variant?, t.parameters, t.forwardings⟩

theorem Interface.role_draft (t : Interface) : t.draft.role = .ok t.role := by
  cases t with
  | mk key location origin role => cases role <;> rfl

theorem Interface.build_draft (t : Interface) : t.draft.build = .ok t := by
  have h : t.draft.key ≠ "" := t.key_ne_empty
  simp only [InterfaceDraft.build, dif_neg h, role_draft]
  rfl

/-- Which drafts build, and into what. -/
theorem InterfaceDraft.build_eq_ok_iff {d : InterfaceDraft} {t : Interface} :
    d.build = .ok t ↔
      d.key ≠ "" ∧ t.draft = { d with location := some (d.location.getD (.ofPath "")) } := by
  constructor
  · intro h
    unfold build at h
    split at h
    · cases h
    · next hkey =>
      refine ⟨hkey, ?_⟩
      cases hr : d.role with
      | error e => simp [hr, bind, Except.bind] at h
      | ok r =>
        simp only [hr, bind, Except.bind, pure, Except.pure, Except.ok.injEq] at h
        subst h
        -- a role says of itself which kind, delegate and variant the draft had
        unfold InterfaceDraft.role at hr
        split at hr <;> cases hr <;> simp_all [Interface.draft, Role.kind, Role.delegateName?,
          Role.variant?]
  -- a unit's own draft builds it again
  · rintro ⟨hkey, h⟩
    have := t.build_draft
    rw [h] at this
    simpa [build, InterfaceDraft.role] using this

end TemplateFrontend
