import TemplateFrontend.Source.Position
/-!
# Diagnostics

What a compilation has to say about the sources. A `Diagnostic` names the phase that found a problem
and, where it can, the place. The problems of one compilation are kept in the order in which they
were found.
-/

namespace TemplateFrontend

/-- How bad a problem is: an error fails the compilation. -/
inductive Severity where
  | error
  | warning
  deriving DecidableEq, Repr, Inhabited

/-- The word for the severity. -/
def Severity.word : Severity → String
  | .error => "error"
  | .warning => "warning"

/-- A problem in the sources. -/
structure Diagnostic where
  severity : Severity
  /-- The pass or stage that found it. -/
  phase : String
  message : String
  location : Option Location
  deriving DecidableEq, Repr, Inhabited

namespace Diagnostic

/-- An error at a location. -/
def errorAt (phase message : String) (l : Location) : Diagnostic := ⟨.error, phase, message, some l⟩

/-- A warning at a location. -/
def warningAt (phase message : String) (l : Location) : Diagnostic :=
  ⟨.warning, phase, message, some l⟩

/-- An error without a location. -/
def error (phase message : String) : Diagnostic := ⟨.error, phase, message, none⟩

/-- Whether the problem fails the compilation. -/
def isError (d : Diagnostic) : Bool := d.severity == .error

/-- Whether the problem is only reported. -/
def isWarning (d : Diagnostic) : Bool := d.severity == .warning

/-- One line: severity, message and, if known, place. -/
def text (d : Diagnostic) : String :=
  let line := d.severity.word ++ ": " ++ d.message
  match d.location with
  | some l => line ++ " (at " ++ l.text ++ ")"
  | none => line

end Diagnostic

/-- The problems of one compilation, in the order in which they were found. -/
abbrev Diagnostics := List Diagnostic

namespace Diagnostics

/-- The problems that fail the compilation. -/
def errors (ds : Diagnostics) : Diagnostics := ds.filter (·.isError)

/-- The problems that are only reported. -/
def warnings (ds : Diagnostics) : Diagnostics := ds.filter (·.isWarning)

/-- Whether the compilation fails. -/
def hasErrors (ds : Diagnostics) : Bool := ds.any (·.isError)

/-- The same problems, none of them an error. -/
def downgraded (ds : Diagnostics) : Diagnostics := ds.map fun d => { d with severity := .warning }

/-- One line for each problem. -/
def render (ds : Diagnostics) : String := "\n".intercalate (ds.map (·.text))

end Diagnostics

end TemplateFrontend
