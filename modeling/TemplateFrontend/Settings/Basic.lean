import TemplateFrontend.Pass
import TemplateFrontend.Plugin.Resolver
import TemplateFrontend.Settings.Rules
import TemplateFrontend.ValueType.Reader
/-!
# Settings of one run

Everything that the passes of one run are told besides the files. `Settings.planned` is the list of
passes that the run takes.
-/

namespace TemplateFrontend

/-- What the passes of one run are told. -/
structure Settings where
  types : TypeRegistry
  plugins : Resolver
  conformance : Conformance
  visualElements : VisualElements
  /-- The known CSS classes; without them classes are not checked. -/
  css : Option CssClasses
  globals : Globals
  /-- Whether templates may be called that nobody defines here. -/
  allowExternalCalls : Bool
  allowUnknownGlobals : Bool
  checkTypes : Bool
  optimize : Bool
  desugarHtmlAndState : Bool
  insertEscapingDirectives : Bool
  addDebugAttributes : Bool
  /-- Whether the tree may be changed where it only writes things in another way. -/
  desugarSyntax : Bool
  cuts : List Cut

namespace Settings

/-- The settings that hold if nothing else is said. -/
def default (plugins : Resolver) : Settings where
  types := .builtin
  plugins
  conformance := []
  visualElements := []
  css := none
  globals := .empty
  allowExternalCalls := true
  allowUnknownGlobals := false
  checkTypes := true
  optimize := true
  desugarHtmlAndState := true
  insertEscapingDirectives := true
  addDebugAttributes := false
  desugarSyntax := true
  cuts := []

/-- Whether a pass is wanted, cuts apart. -/
def enables (s : Settings) : Pass → Bool
  | .desugarSyntax => s.desugarSyntax
  | .resolveTypes | .validateVisualElements | .checkCalls | .checkHeaderVars => s.checkTypes
  | .optimize => s.optimize
  | .insertEscapingDirectives => s.insertEscapingDirectives
  | .addDebugAttributes => s.addDebugAttributes
  | .desugarHtmlAndState => s.desugarHtmlAndState
  | .resolveImports | .resolveGlobals | .resolvePlugins | .conformance | .validateCss => true

/-- The passes of the run, in order. -/
def planned (s : Settings) : List Pass := Pass.planned s.enables s.cuts

end Settings

end TemplateFrontend
