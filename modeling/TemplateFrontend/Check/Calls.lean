import TemplateFrontend.Registry
import TemplateFrontend.Settings.Basic
/-!
# Calls

A call names a template that the registry knows, unless external calls are allowed, and that may be
called from here; it passes parameters that the template declares, with values that they accept, and
all that the template requires. Calls of delegates are only looked up.
-/

namespace TemplateFrontend

/-- What is wrong with a call. -/
inductive CallProblem where
  | undefinedDelegate (name : String)
  | undefinedTemplate (name : String)
  | indirect (name : String)
  /-- The template may only be called in the file with the path. -/
  | hidden (name path : String)
  | noParameter (name parameter : String)
  | wrongType (name parameter : String) (expected found : ValueType)
  | missing (name parameter : String)
  deriving DecidableEq, Repr

/-- The problem in words. -/
def CallProblem.message : CallProblem → String
  | .undefinedDelegate name => "delcall to undefined delegate '" ++ name ++ "'"
  | .undefinedTemplate name => "call to undefined template '" ++ name ++ "'"
  | .indirect name =>
    "template '" ++ name ++ "' comes from an indirect dependency and cannot be called directly"
  | .hidden name path => "template '" ++ name ++ "' is private to " ++ path
  | .noParameter name p => "'" ++ name ++ "' has no parameter '" ++ p ++ "'"
  | .wrongType name p expected found =>
    "parameter '" ++ p ++ "' of '" ++ name ++ "' expects " ++ expected.text ++ ", found " ++
      found.text
  | .missing name p => "call to '" ++ name ++ "' is missing required parameter '" ++ p ++ "'"

namespace Call

/-- What is wrong with a parameter that the call passes to a template. -/
def passedProblem? (c : Call) (callee : Interface) (p : Passed) : Option CallProblem :=
  match callee.parameter? p.name with
  | none => some (.noParameter c.callee p.name)
  | some declared =>
    if declared.type.accepts p.bound.type then none
    else some (.wrongType c.callee p.name declared.type p.bound.type)

/-- The required parameters that the call does not pass, unless it passes all data on. -/
def missing (c : Call) (callee : Interface) : List CallProblem :=
  if c.passesAll then []
  else (callee.requiredParameters.filter fun r => !c.passed.any (·.name == r.name)).map fun r =>
    .missing c.callee r.name

/-- What is wrong with a call of a known template from the file with a path. -/
def problemsWith (c : Call) (path : String) (callee : Interface) : List CallProblem :=
  (if callee.origin = .indirectDependency then [.indirect c.callee] else []) ++
    (if callee.visibility = .sameFile ∧ callee.location.path ≠ path then
      [.hidden c.callee callee.location.path] else []) ++
    c.passed.filterMap (c.passedProblem? callee) ++ c.missing callee

/-- What is wrong with a call in the file with a path. -/
def problems (c : Call) (r : Registry) (allowExternal : Bool) (path : String) : List CallProblem :=
  if c.delegate then
    if allowExternal || r.hasDelegate c.callee then [] else [.undefinedDelegate c.callee]
  else match r.get? c.callee with
    | some callee => c.problemsWith path callee
    | none => if allowExternal then [] else [.undefinedTemplate c.callee]

end Call

/-- What is wrong with the calls of a file. -/
def TemplateFile.checkCalls (s : Settings) (r : Registry) (f : TemplateFile) : Diagnostics :=
  f.reachable.flatMap fun id =>
    match f.kind id with
    | .call c =>
      (c.problems r s.allowExternalCalls f.path).map fun p =>
        .errorAt Pass.checkCalls.name p.message (f.location (f.span id))
    | _ => []

end TemplateFrontend
