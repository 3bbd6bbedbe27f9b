import TemplateFrontend.Interface.Unit
import TemplateFrontend.Proofs.Json.Decoding
import TemplateFrontend.Proofs.ValueType.Reading
/-!
# Compilation units are read back

What `CompilationUnit.render` writes, `CompilationUnit.parse` reads as the same unit, as long as the
numbers in it fit the words of a machine; and what it reads, from whatever text, are interfaces whose
parts fit together.

* `UnitDecoder.reads_draft` — the parts of an interface are read back, part by part;
* `CompilationUnit.parse_render` — a unit is read back from its text;
* `InterfaceDraft.exists_build_iff` — which drafts build;
* `CompilationUnit.exists_drafts_of_parse` — the interfaces that are read are built from their parts.
-/

namespace TemplateFrontend

/-! ### Words of a machine -/

/-- The line and the column are numbers of 32 bits. -/
structure Point.InRange (p : Point) : Prop where
  line : p.line < UInt32.size
  column : p.column < UInt32.size

/-- Both offsets are numbers of 64 bits. -/
structure Span.InRange (s : Span) : Prop where
  start : s.start < UInt64.size
  stop : s.stop < UInt64.size

/-- All numbers of the location fit the words of a machine. -/
structure Location.InRange (l : Location) : Prop where
  start : l.start.InRange
  stop : l.stop.InRange
  span : ∀ s ∈ l.span, s.InRange

/-- All numbers of the unit fit the words of a machine. -/
def CompilationUnit.InRange (u : CompilationUnit) : Prop := ∀ t ∈ u, t.location.InRange

namespace JsonValue

/-- The numbers of an array are those of its items. -/
theorem fitAll_map_iff {α : Type} {encode : α → JsonValue} {as : List α} :
    FitAll (as.map encode) ↔ ∀ a ∈ as, (encode a).Fits := by
  induction as with
  | nil => simp [FitAll]
  | cons a as ih => simp [FitAll, ih]

/-- The numbers of an object are those of its entries. -/
theorem fits_ofMembers_iff {entries : List (String × Option JsonValue)} :
    (ofMembers entries).Fits ↔ ∀ e ∈ entries, ∀ v ∈ e.2, v.Fits := by
  rw [ofMembers, Fits]
  induction entries with
  | nil => simp [FitAllMembers]
  | cons e entries ih =>
    obtain ⟨key, v⟩ := e
    cases v with
    | none => simpa using ih
    | some v => simp [FitAllMembers, ih]

/-- A number below a bound of no more than 64 bits fits a word. -/
theorem fitsWord_ofNat {n bound : Nat} (hbound : bound ≤ 2 ^ 64) (hn : n < bound) :
    FitsWord (n : Int) := by
  unfold FitsWord
  omega

end JsonValue

open JsonValue

/-- A point in range is written with numbers that fit. -/
theorem Point.fits_toJson {p : Point} (hp : p.InRange) : p.toJson.Fits :=
  ⟨fitsWord_ofNat (by decide) hp.line, fitsWord_ofNat (by decide) hp.column, trivial⟩

/-- So is a range of offsets. -/
theorem Span.fits_toJson {s : Span} (hs : s.InRange) : s.toJson.Fits :=
  ⟨fitsWord_ofNat (by decide) hs.start, fitsWord_ofNat (by decide) hs.stop, trivial⟩

/-- So is a location. -/
theorem Location.fits_toJson {l : Location} (hl : l.InRange) : l.toJson.Fits := by
  refine fits_ofMembers_iff.mpr ?_
  simp only [List.forall_mem_cons, Option.mem_def, Option.some.injEq, Option.map_eq_some_iff,
    forall_eq', forall_exists_index, and_imp]
  refine ⟨trivial, Point.fits_toJson hl.start, Point.fits_toJson hl.stop, ?_, nofun⟩
  rintro v s hs rfl
  exact Span.fits_toJson (hl.span s hs)

/-- A parameter has no numbers. -/
theorem Parameter.fits_toJson (p : Parameter) : p.toJson.Fits := by
  refine fits_ofMembers_iff.mpr ?_
  simp only [List.forall_mem_cons, Option.mem_def, Option.some.injEq, Option.map_eq_some_iff,
    forall_eq', forall_exists_index, and_imp]
  refine ⟨trivial, trivial, trivial, trivial, trivial, ?_, nofun⟩
  rintro v s - rfl
  trivial

/-- Nor has a forwarding call. -/
theorem Forwarding.fits_toJson (f : Forwarding) : f.toJson.Fits :=
  ⟨trivial, trivial, fitAll_map_iff.mpr fun _ _ => trivial, trivial⟩

/-- The numbers of an interface are those of its location. -/
theorem InterfaceDraft.fits_toJson {d : InterfaceDraft} (hd : ∀ l ∈ d.location, l.InRange) :
    d.toJson.Fits := by
  refine fits_ofMembers_iff.mpr ?_
  -- a field that holds a string has no numbers
  have hstring : ∀ (o : Option String) (v : JsonValue) (s : String),
      o = some s → .string s = v → v.Fits := by
    rintro o v s - rfl
    trivial
  simp only [List.forall_mem_cons, Option.mem_def, Option.some.injEq, Option.map_eq_some_iff,
    forall_eq', forall_exists_index, and_imp]
  refine ⟨trivial, ?_, trivial, trivial, trivial, trivial, trivial, hstring _, hstring _, hstring _,
    fitAll_map_iff.mpr fun p _ => p.fits_toJson, ?_, nofun⟩
  · rintro v l hl rfl
    exact Location.fits_toJson (hd l hl)
  · intro v hv
    split at hv
    · cases hv
    · obtain rfl := Option.some.inj hv
      exact fitAll_map_iff.mpr fun f _ => f.fits_toJson

/-- A unit in range is written with numbers that fit. -/
theorem CompilationUnit.fits_toJson {u : CompilationUnit} (hu : u.InRange) : u.toJson.Fits := by
  refine ⟨fitAll_map_iff.mpr fun t ht => ?_, trivial⟩
  exact InterfaceDraft.fits_toJson (d := t.draft) fun l hl => Option.some.inj hl ▸ hu t ht

/-! ### The parts of an interface -/

theorem TemplateKind.ofWord?_word (k : TemplateKind) : ofWord? k.word = some k := by
  cases k <;> rfl

namespace UnitDecoder

open Decoder

/-- A point is read back. -/
theorem reads_point {p : Point} (hp : p.InRange) : point.Reads p.toJson p := by
  change point.Reads (.ofMembers [("line", some (.number p.line)),
    ("column", some (.number p.column))]) p
  refine reads_record ?_ (by decide)
  exact .cons (Field.takes_of (reads_natural hp.line) _)
    (.cons (Field.takes_of (reads_natural hp.column) _) (.nil p))

/-- A range of offsets is read back. -/
theorem reads_span {s : Span} (hs : s.InRange) : span.Reads s.toJson s := by
  have hpair := reads_pair (ε := UnitRefusal) (reads_natural hs.start) (reads_natural hs.stop)
  unfold Reads at hpair ⊢
  rw [span, Span.toJson, hpair]
  rfl

/-- A location is read back. -/
theorem reads_location {l : Location} (hl : l.InRange) : location.Reads l.toJson l := by
  refine reads_record ?_ (by decide)
  exact .cons (Field.takes_of (reads_string l.path) _)
    (.cons (Field.takes_of (reads_point hl.start) _)
    (.cons (Field.takes_of (reads_point hl.stop) _)
    (.cons (Field.takes_optional (by nofun) (fun s hs => reads_span (hl.span s hs)) rfl)
    (.nil l))))

/-- Types travel as their written form. -/
theorem reads_type (t : ValueType) : type.Reads (.string t.text) t := by
  refine reads_refined ?_
  rw [TypeRegistry.resolve_text]
  rfl

/-- A parameter is read back. -/
theorem reads_parameter (p : Parameter) : parameter.Reads p.toJson p := by
  refine reads_record ?_ (by decide)
  exact .cons (Field.takes_of (reads_string p.name) _)
    (.cons (Field.takes_of (reads_word p.kind.ofWord?_word) _)
    (.cons (Field.takes_of (reads_type p.type) _)
    (.cons (Field.takes_of (reads_bool p.required) _)
    (.cons (Field.takes_of (reads_bool p.injected) _)
    (.cons (Field.takes_optional (by nofun) (fun s _ => reads_string s) rfl)
    (.nil p))))))

/-- A forwarding call is read back. -/
theorem reads_forwarding (f : Forwarding) : forwarding.Reads f.toJson f := by
  change forwarding.Reads (.ofMembers [("template_name", some (.string f.callee)),
    ("delegate_call", some (.bool f.delegate)),
    ("explicitly_passed", some (.array (f.overridden.toList.map .string)))]) f
  refine reads_record ?_ (by decide)
  -- the names come back as the same set
  have hoverridden : (⟨f.callee, f.delegate, .ofList f.overridden.toList⟩ : Forwarding) = f := by
    rw [NameSet.ofList_toList]
  refine .cons (Field.takes_of (reads_string f.callee) _)
    (.cons (Field.takes_of (reads_bool f.delegate) _)
    (.cons (Field.takes_of (reads_list fun s _ => reads_string s) _) ?_))
  change Fills [] [] (⟨f.callee, f.delegate, .ofList f.overridden.toList⟩ : Forwarding) f
  rw [hoverridden]
  exact .nil f

/-- The parts of an interface are read back, those that are left out as what they start out as. -/
theorem reads_draft {d : InterfaceDraft} (hd : ∀ l ∈ d.location, l.InRange) :
    draft.Reads d.toJson d := by
  refine reads_record ?_ (by decide)
  -- the record is written out after every few fields, each of which is an update of the one before
  refine .cons (Field.takes_of (reads_string d.key) _) ?_
  refine .cons (Field.takes_optional (by nofun) (fun l hl => reads_location (hd l hl)) rfl) ?_
  refine .cons (Field.takes_of (reads_word d.origin.ofWord?_word) _) ?_
  dsimp only [InterfaceDraft.ofName]
  refine .cons (Field.takes_of (reads_word d.kind.ofWord?_word) _) ?_
  refine .cons (Field.takes_of (reads_word d.contentKind.ofWord?_word) _) ?_
  refine .cons (Field.takes_of (reads_bool d.strictHtml) _) ?_
  refine .cons (Field.takes_of (reads_word d.visibility.ofWord?_word) _) ?_
  dsimp only
  refine .cons (Field.takes_optional (by nofun) (fun s _ => reads_string s) rfl) ?_
  dsimp only
  refine .cons (Field.takes_optional (by nofun) (fun s _ => reads_string s) rfl) ?_
  dsimp only
  refine .cons (Field.takes_optional (by nofun) (fun s _ => reads_string s) rfl) ?_
  dsimp only
  refine .cons (Field.takes_of (reads_list fun p _ => reads_parameter p) _) ?_
  dsimp only
  refine .cons ?_ (.nil d)
  -- a list of forwarding calls that is empty is not written
  split
  · next hempty => exact ⟨rfl, by rw [← List.isEmpty_iff.mp hempty]⟩
  · exact Field.takes_of (reads_list fun f _ => reads_forwarding f) _

/-- An interface is read back from its parts. -/
theorem reads_interface {t : Interface} (ht : t.location.InRange) :
    interface.Reads t.toJson t := by
  have hdraft : draft.Reads t.toJson t.draft :=
    reads_draft fun l hl => Option.some.inj hl ▸ ht
  unfold Reads at hdraft ⊢
  rw [interface, hdraft, ok_bind, Interface.build_draft]
  rfl

/-- A unit is read back, interface by interface. -/
theorem reads_unit {u : CompilationUnit} (hu : u.InRange) : unit.Reads u.toJson u := by
  change unit.Reads (.ofMembers [("templates", some (.array (u.map Interface.toJson)))]) u
  refine reads_record ?_ (by decide)
  exact .cons (Field.takes_of (reads_list fun t ht => reads_interface (hu t ht)) _) (.nil u)

end UnitDecoder

/-- A unit is read back from its text. -/
theorem CompilationUnit.parse_render {u : CompilationUnit} (hu : u.InRange) :
    parse u.render = .ok u :=
  Decoder.run_render (fits_toJson hu) (UnitDecoder.reads_unit hu)

/-! ### Drafts -/

/-- The parts of a draft fit together: it has a name, and it has the name of a delegate and a variant
just if it is one of a delegate template. -/
structure InterfaceDraft.WellFormed (d : InterfaceDraft) : Prop where
  named : d.key ≠ ""
  delegateName : d.delegateName.isSome ↔ d.kind = .delegate
  delegateVariant : d.delegateVariant.isSome ↔ d.kind = .delegate

/-- The parts of an interface fit together. -/
theorem Interface.wellFormed_draft (t : Interface) : t.draft.WellFormed := by
  cases hrole : t.role <;>
    exact ⟨t.key_ne_empty, by simp [draft, hrole, Role.delegateName?, Role.kind],
      by simp [draft, hrole, Role.variant?, Role.kind]⟩

/-- A draft builds just if its parts fit together. -/
theorem InterfaceDraft.exists_build_iff {d : InterfaceDraft} :
    (∃ t, d.build = .ok t) ↔ d.WellFormed := by
  constructor
  · rintro ⟨t, h⟩
    obtain ⟨-, hdraft⟩ := build_eq_ok_iff.mp h
    have ht := t.wellFormed_draft
    rw [hdraft] at ht
    exact ⟨ht.named, ht.delegateName, ht.delegateVariant⟩
  · intro hd
    -- the kind and the names of a delegate decide the role
    have hrole : ∃ r, d.role = .ok r := by
      obtain ⟨-, hname, hvariant⟩ := hd
      unfold role
      cases hkind : d.kind <;> cases hn : d.delegateName <;> cases hv : d.delegateVariant <;>
        simp_all
    obtain ⟨r, hr⟩ := hrole
    exact ⟨_, by rw [build, dif_neg hd.named, hr]; rfl⟩

namespace UnitDecoder

open Decoder

/-- An interface that is read is built from a draft that is read. -/
theorem exists_draft_of_interface_ok {v : JsonScan} {t : Interface} (h : interface v = .ok t) :
    ∃ d, draft v = .ok d ∧ d.build = .ok t := by
  obtain ⟨d, hd, h⟩ := exists_of_bind_ok h
  refine ⟨d, hd, ?_⟩
  split at h
  · next t' hbuild =>
    obtain rfl : t' = t := Except.ok.inj h
    exact hbuild
  · cases h

/-- The parts of the interfaces of a unit, which need not fit together. -/
def drafts : UnitDecoder (List InterfaceDraft) := single "templates" (list draft) []

end UnitDecoder

/-- The interfaces of the unit are built from the drafts, one from each and in their order. -/
def CompilationUnit.BuiltFrom (u : CompilationUnit) (ds : List InterfaceDraft) : Prop :=
  ds.map InterfaceDraft.build = u.map .ok

/-- A unit is read from a text by reading the parts of its interfaces and building each. -/
theorem CompilationUnit.exists_drafts_of_parse {text : String} {u : CompilationUnit}
    (h : parse text = .ok u) :
    ∃ ds, UnitDecoder.drafts.run text = .ok ds ∧ u.BuiltFrom ds := by
  cases hscan : JsonScan.ofText text with
  | mk v more =>
    rw [parse, Decoder.run, hscan] at h
    obtain ⟨u', hu', h⟩ := exists_of_bind_ok h
    -- each interface that was read came from a draft
    obtain ⟨ds, hds, hbuild⟩ := Decoder.exists_single_of_ok (R := CompilationUnit.BuiltFrom)
      (fun v ts hts => Decoder.exists_list_of_ok
        (fun w t ht => UnitDecoder.exists_draft_of_interface_ok ht) hts) hu'
      (rfl : CompilationUnit.BuiltFrom [] [])
    -- text behind the unit is an error in both readings
    cases more with
    | true => cases h
    | false =>
      obtain rfl : u' = u := Except.ok.inj h
      refine ⟨ds, ?_, hbuild⟩
      rw [Decoder.run, hscan]
      change (UnitDecoder.drafts v >>= fun a => pure a) = _
      rw [UnitDecoder.drafts, hds]
      rfl

/-- Units are read back from their text: nothing of an interface is lost, and no part of one takes the
place of another. And a unit is read from a text only if the parts of each of its templates fit
together, of which the interfaces are then built. -/
theorem CompilationUnit.parse_render_and_parts_fit :
    (∀ u : CompilationUnit, u.InRange → parse u.render = .ok u) ∧
      ∀ (text : String) (u : CompilationUnit), parse text = .ok u →
        (∀ t ∈ u, t.draft.WellFormed) ∧
          ∃ ds, UnitDecoder.drafts.run text = .ok ds ∧ (∀ d ∈ ds, d.WellFormed) ∧ u.BuiltFrom ds := by
  refine ⟨fun u hu => parse_render hu, fun text u h => ?_⟩
  obtain ⟨ds, hds, hbuild⟩ := exists_drafts_of_parse h
  refine ⟨fun t _ => t.wellFormed_draft, ds, hds, fun d hd => ?_, hbuild⟩
  -- each draft builds into one of the interfaces
  have hmem : d.build ∈ u.map .ok := hbuild ▸ List.mem_map_of_mem hd
  obtain ⟨t, -, ht⟩ := List.mem_map.mp hmem
  exact InterfaceDraft.exists_build_iff.mp ⟨t, ht.symm⟩

/-- Two templates, one of them of a delegate, with all that a unit can say of them. -/
def CompilationUnit.sample : CompilationUnit :=
  [{ key := "a.b", location := ⟨"a.st", ⟨1, 2⟩, ⟨3, 4⟩, some ⟨1, 40⟩⟩, origin := .source
     role := .basic, contentKind := .html, strictHtml := true, visibility := .everyone
     package := none
     parameters := [⟨"x", .param, .map .string (.list .unknown), true, false, some "\"π\"\n"⟩]
     forwardings := [⟨"a.c", false, .ofList ["y", "x"]⟩], key_ne_empty := by decide },
   { key := "d:v", location := .ofPath "a.st", origin := .dependency, role := .delegate "d" "v"
     contentKind := .text, strictHtml := false, visibility := .sameFile, package := some "p"
     parameters := [], forwardings := [], key_ne_empty := by decide }]

/-- The numbers of the sample fit. -/
theorem CompilationUnit.inRange_sample : sample.InRange := by
  have hunknown : (Location.ofPath "a.st").InRange :=
    ⟨⟨by decide, by decide⟩, ⟨by decide, by decide⟩, fun _ hs => nomatch hs⟩
  refine List.forall_mem_cons.mpr ⟨⟨⟨by decide, by decide⟩, ⟨by decide, by decide⟩, ?_⟩,
    List.forall_mem_cons.mpr ⟨hunknown, fun _ ht => nomatch ht⟩⟩
  intro s hs
  obtain rfl := Option.some.inj hs
  exact ⟨by decide, by decide⟩

/-- A unit of two templates is read back, and its drafts fit together. -/
theorem CompilationUnit.parse_render_and_parts_fit_sample :
    sample.InRange ∧ parse sample.render = .ok sample ∧
      ∃ ds, UnitDecoder.drafts.run sample.render = .ok ds ∧ ∀ d ∈ ds, d.WellFormed := by
  have hread := parse_render_and_parts_fit.1 sample inRange_sample
  obtain ⟨-, ds, hds, hfit, -⟩ := parse_render_and_parts_fit.2 sample.render sample hread
  exact ⟨inRange_sample, hread, ds, hds, hfit⟩

end TemplateFrontend
