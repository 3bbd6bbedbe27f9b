import TemplateFrontend.Diagnostic
/-!
# Failures of a compilation

A compilation fails because of problems in the sources, because of settings that do not go together,
or because something broke after problems had been reported.
-/

namespace TemplateFrontend

/-- Why a compilation has no result. -/
inductive CompileFailure where
  /-- The problems that were found, at least one of them fatal. -/
  | problems (found : Diagnostics)
  /-- Settings that do not go together, found before any source is read. -/
  | configuration (reason : String)
  /-- A failure after the given problems, most likely because of them. -/
  | broken (found : Diagnostics)
  deriving DecidableEq, Repr

namespace CompileFailure

/-- The failure in words. -/
def message : CompileFailure → String
  | .problems ds =>
    "compilation failed with " ++ toString (Diagnostics.errors ds).length ++ " error(s):\n" ++
      Diagnostics.render ds
  | .configuration reason => "invalid configuration: " ++ reason
  | .broken ds => "internal compiler error; previously reported:\n" ++ Diagnostics.render ds

/-- The problems that the failure carries. -/
def diagnostics : CompileFailure → Diagnostics
  | .problems ds | .broken ds => ds
  | .configuration _ => []

end CompileFailure

end TemplateFrontend
