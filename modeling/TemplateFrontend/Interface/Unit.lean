import TemplateFrontend.Interface.Basic
import TemplateFrontend.Json.Decoder
import TemplateFrontend.Json.Value
import TemplateFrontend.ValueType.Reader
/-!
# Compilation units

A compilation unit is the list of interfaces that a compilation leaves for later ones.
`CompilationUnit.render` writes it as JSON, in which parts that an interface does not have are left
out. `CompilationUnit.parse` reads what is written so, and more: parts may be left out where a
template need not state them, and keys that nobody asks for are skipped. Types are read with the
primitive types only, and the parts of every template are checked as those of a new one are.
-/

namespace TemplateFrontend

/-- The interfaces of the templates of one compilation. -/
abbrev CompilationUnit := List Interface

/-- The JSON of a point. -/
def Point.toJson (p : Point) : JsonValue :=
  .object [("line", .number p.line), ("column", .number p.column)]

/-- The JSON of a range. -/
def Span.toJson (s : Span) : JsonValue := .array [.number s.start, .number s.stop]

/-- The JSON of a location. -/
def Location.toJson (l : Location) : JsonValue :=
  .ofMembers [("path", some (.string l.path)), ("begin", some l.start.toJson),
    ("end", some l.stop.toJson), ("span", l.span.map (·.toJson))]

/-- The JSON of a parameter. -/
def Parameter.toJson (p : Parameter) : JsonValue :=
  .ofMembers [("name", some (.string p.name)), ("kind", some (.string p.kind.word)),
    ("type", some (.string p.type.text)), ("required", some (.bool p.required)),
    ("implicit", some (.bool p.injected)), ("description", p.description.map .string)]

/-- The JSON of a forwarding call. -/
def Forwarding.toJson (f : Forwarding) : JsonValue :=
  .object [("template_name", .string f.callee), ("delegate_call", .bool f.delegate),
    ("explicitly_passed", .array (f.overridden.toList.map .string))]

/-- The JSON of the parts of an interface. -/
def InterfaceDraft.toJson (d : InterfaceDraft) : JsonValue :=
  .ofMembers [("template_name", some (.string d.key)),
    ("source_location", d.location.map (·.toJson)),
    ("file_kind", some (.string d.origin.word)), ("kind", some (.string d.kind.word)),
    ("content_kind", some (.string d.contentKind.word)), ("strict_html", some (.bool d.strictHtml)),
    ("visibility", some (.string d.visibility.word)), ("delegate_package", d.package.map .string),
    ("delegate_name", d.delegateName.map .string),
    ("delegate_variant", d.delegateVariant.map .string),
    ("parameters", some (.array (d.parameters.map (·.toJson)))),
    ("data_all_calls",
      if d.forwardings.isEmpty then none else some (.array (d.forwardings.map (·.toJson))))]

/-- The JSON of an interface. -/
def Interface.toJson (t : Interface) : JsonValue := t.draft.toJson

namespace CompilationUnit

/-- The JSON of a unit. -/
def toJson (u : CompilationUnit) : JsonValue :=
  .object [("templates", .array (u.map Interface.toJson))]

/-- The text of a unit. -/
def render (u : CompilationUnit) : String := u.toJson.render

end CompilationUnit

/-! ### Reading compilation units -/

/-- What a unit holds that no unit can hold. -/
inductive UnitRefusal where
  | type (e : TypeError)
  | interface (e : InterfaceError)
  deriving DecidableEq, Repr

/-- The refusal in words. -/
def UnitRefusal.message : UnitRefusal → String
  | .type e => e.message
  | .interface e => e.message

/-- Why a text is no unit. -/
abbrev UnitError := DecodeError UnitRefusal

/-- A reader of parts of units. -/
abbrev UnitDecoder (α : Type) := Decoder UnitRefusal α

namespace UnitDecoder

open Decoder

/-- A line and a column, each of 32 bits. -/
def point : UnitDecoder Point :=
  record [.of "line" true (natural UInt32.size) fun p n => { p with line := n },
    .of "column" true (natural UInt32.size) fun p n => { p with column := n }] .unknown

/-- Two offsets of 64 bits. -/
def span : UnitDecoder Span := fun v => do
  let (start, stop) ← pair (natural UInt64.size) v
  pure ⟨start, stop⟩

/-- A location. -/
def location : UnitDecoder Location :=
  record [.of "path" true string fun l s => { l with path := s },
    .of "begin" true point fun l p => { l with start := p },
    .of "end" true point fun l p => { l with stop := p },
    .of "span" false (optional span) fun l s => { l with span := s }] (.ofPath "")

/-- A type over the primitive types. -/
def type : UnitDecoder ValueType :=
  refined fun text => (TypeRegistry.builtin.resolve text).mapError .type

/-- A parameter. -/
def parameter : UnitDecoder Parameter :=
  record [.of "name" true string fun p s => { p with name := s },
    .of "kind" true (word ParamKind.ofWord?) fun p k => { p with kind := k },
    .of "type" true type fun p t => { p with type := t },
    .of "required" true bool fun p b => { p with required := b },
    .of "implicit" false bool fun p b => { p with injected := b },
    .of "description" false (optional string) fun p s => { p with description := s }]
    ⟨"", .param, .unknown, false, false, none⟩

/-- A forwarding call. -/
def forwarding : UnitDecoder Forwarding :=
  record [.of "template_name" true string fun f s => { f with callee := s },
    .of "delegate_call" true bool fun f b => { f with delegate := b },
    .of "explicitly_passed" false (list string) fun f ns => { f with overridden := .ofList ns }]
    ⟨"", false, .empty⟩

/-- The parts of an interface. -/
def draft : UnitDecoder InterfaceDraft :=
  record [.of "template_name" true string fun d s => { d with key := s },
    .of "source_location" false (optional location) fun d l => { d with location := l },
    .of "file_kind" false (word Origin.ofWord?) fun d o => { d with origin := o },
    .of "kind" true (word TemplateKind.ofWord?) fun d k => { d with kind := k },
    .of "content_kind" false (word ContentKind.ofWord?) fun d k => { d with contentKind := k },
    .of "strict_html" false bool fun d b => { d with strictHtml := b },
    .of "visibility" false (word Visibility.ofWord?) fun d x => { d with visibility := x },
    .of "delegate_package" false (optional string) fun d s => { d with package := s },
    .of "delegate_name" false (optional string) fun d s => { d with delegateName := s },
    .of "delegate_variant" false (optional string) fun d s => { d with delegateVariant := s },
    .of "parameters" false (list parameter) fun d ps => { d with parameters := ps },
    .of "data_all_calls" false (list forwarding) fun d fs => { d with forwardings := fs }]
    (.ofName "" .basic)

/-- An interface. -/
def interface : UnitDecoder Interface := fun v => do
  match (← draft v).build with
  | .ok t => pure t
  | .error e => .error (.refused (.interface e))

/-- A unit. -/
def unit : UnitDecoder CompilationUnit :=
  record [.of "templates" false (list interface) fun _ ts => ts] []

end UnitDecoder

/-- The unit that a text holds. -/
def CompilationUnit.parse (text : String) : Except UnitError CompilationUnit :=
  UnitDecoder.unit.run text

end TemplateFrontend
