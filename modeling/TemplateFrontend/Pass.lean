/-!
# Passes

The fourteen passes in the order in which they run. The first six look at one file at a time, before
the registry exists; the others see all files together with the registry. Cuts end the order early.

* `Pass.ofName?_name` — a pass is found by its name;
* `Pass.planned_sublist` — what is planned keeps the order of the passes.
-/

namespace TemplateFrontend

/-- One step of a compilation, in the order in which the steps run. -/
inductive Pass where
  | desugarSyntax
  | resolveImports
  | resolveGlobals
  | resolvePlugins
  | resolveTypes
  | validateVisualElements
  | checkCalls
  | conformance
  | checkHeaderVars
  | validateCss
  | optimize
  | insertEscapingDirectives
  | addDebugAttributes
  | desugarHtmlAndState
  deriving DecidableEq, Repr, Inhabited

/-- What a pass works on. -/
inductive PassScope where
  | file
  | fileSet
  deriving DecidableEq, Repr, Inhabited

namespace Pass

/-- Every pass, in the order in which they run. -/
def all : List Pass :=
  [.desugarSyntax, .resolveImports, .resolveGlobals, .resolvePlugins, .resolveTypes,
    .validateVisualElements, .checkCalls, .conformance, .checkHeaderVars, .validateCss, .optimize,
    .insertEscapingDirectives, .addDebugAttributes, .desugarHtmlAndState]

/-- The name of a pass, which is also the phase of its diagnostics. -/
def name : Pass → String
  | .desugarSyntax => "desugar-syntax"
  | .resolveImports => "resolve-imports"
  | .resolveGlobals => "resolve-globals"
  | .resolvePlugins => "resolve-plugins"
  | .resolveTypes => "resolve-types"
  | .validateVisualElements => "validate-velog"
  | .checkCalls => "check-calls"
  | .conformance => "conformance"
  | .checkHeaderVars => "check-header-vars"
  | .validateCss => "validate-css"
  | .optimize => "optimize"
  | .insertEscapingDirectives => "insert-escaping-directives"
  | .addDebugAttributes => "add-debug-attributes"
  | .desugarHtmlAndState => "desugar-html-and-state"

/-- What the pass works on. -/
def scope : Pass → PassScope
  | .desugarSyntax | .resolveImports | .resolveGlobals | .resolvePlugins | .resolveTypes
  | .validateVisualElements => .file
  | _ => .fileSet

/-- The number of passes that run before the pass. -/
def position (p : Pass) : Nat := all.idxOf p

/-- The pass with a name. -/
def ofName? (name : String) : Option Pass := all.find? (·.name == name)

/-- The error for a name that no pass has. -/
def unknownName (name : String) : String := "unknown pass '" ++ name ++ "'"

theorem ofName?_name (p : Pass) : ofName? p.name = some p := by cases p <;> rfl

theorem mem_all (p : Pass) : p ∈ all := by cases p <;> decide

end Pass

/-- Where the order of passes is cut. -/
inductive Cut where
  | before (p : Pass)
  | after (p : Pass)
  deriving DecidableEq, Repr, Inhabited

/-- The number of passes that a cut leaves. -/
def Cut.limit : Cut → Nat
  | .before p => p.position
  | .after p => p.position + 1

namespace Pass

/-- The number of passes that all cuts leave. -/
def limit (cuts : List Cut) : Nat := cuts.foldl (fun n c => min n c.limit) all.length

/-- The passes that are enabled and not cut off. -/
def planned (enabled : Pass → Bool) (cuts : List Cut) : List Pass :=
  (all.take (limit cuts)).filter enabled

theorem planned_sublist (enabled : Pass → Bool) (cuts : List Cut) :
    (planned enabled cuts).Sublist all :=
  List.filter_sublist.trans (List.take_sublist _ _)

end Pass

end TemplateFrontend
