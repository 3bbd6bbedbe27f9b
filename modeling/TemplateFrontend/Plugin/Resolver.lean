import TemplateFrontend.Diagnostic
import TemplateFrontend.Plugin.Basic
/-!
# Resolving plugins

A `Resolver` knows the bundled plugins and those of the user, and says what a use of a name with a
number of arguments is bound to. A lenient resolver answers `Callee.unknown` where a strict one
reports an error.

* `Resolver.ofUser` — the resolver for the plugins of a user, with the problems of their
  declarations;
* `Resolver.function`, `Resolver.method`, `Resolver.directive` — what a use is bound to.
-/

namespace TemplateFrontend

/-! ### Problems -/

/-- Why a declaration is not accepted. -/
inductive DeclarationProblem where
  | duplicate (label : String)
  | noSignatures (label : String)
  | sameArity (label : String) (arity : Nat)
  | noArities (label : String)
  deriving DecidableEq, Repr

namespace DeclarationProblem

/-- The problem in words. -/
def message : DeclarationProblem → String
  | .duplicate label => label ++ " is registered more than once"
  | .noSignatures label => label ++ " declares no signatures"
  | .sameArity label n => label ++ " declares two signatures with " ++ toString n ++ " parameter(s)"
  | .noArities label => label ++ " declares no arities"

/-- The phase of problems with declarations. -/
def phase : String := "plugins"

/-- The problem as an error. -/
def diagnostic (p : DeclarationProblem) : Diagnostic := .error phase p.message

end DeclarationProblem

/-- Why a use of a plugin is not bound. -/
inductive ResolveError where
  | unknownFunction (name : String)
  | functionArity (name : String) (given : Nat) (expected : List Nat)
  | unknownMethod (name : String) (receiver : ValueType)
  | methodArity (name : String) (given : Nat) (expected : List Nat)
  | unknownDirective (name : String)
  | directiveArity (name : String) (given : Nat) (expected : List Nat)
  deriving DecidableEq, Repr

namespace ResolveError

/-- Numbers of arguments, the alternatives of each other. -/
def alternatives (ns : List Nat) : String := " or ".intercalate (ns.map toString)

/-- The error in words. -/
def message : ResolveError → String
  | .unknownFunction name => "unknown function '" ++ name ++ "'"
  | .functionArity name given expected =>
    "function '" ++ name ++ "' called with " ++ toString given ++ " argument(s); expected " ++
      alternatives expected
  | .unknownMethod name receiver => "unknown method '" ++ name ++ "' on " ++ receiver.text
  | .methodArity name given expected =>
    "method '" ++ name ++ "' called with " ++ toString given ++ " argument(s); expected " ++
      alternatives expected
  | .unknownDirective name => "unknown print directive '" ++ name ++ "'"
  | .directiveArity name given expected =>
    "print directive '" ++ name ++ "' takes " ++ alternatives expected ++ " argument(s), not " ++
      toString given

end ResolveError

/-! ### Signatures -/

namespace Signature

/-- The first signature that takes a number of arguments. -/
def forArity? (ss : List Signature) (n : Nat) : Option Signature := ss.find? (·.arity == n)

/-- The numbers of arguments that the signatures take, in ascending order. -/
def arities (ss : List Signature) : List Nat :=
  ((ss.map arity).mergeSort (· ≤ ·)).eraseDups

/-- The number of arguments that a second signature takes as well. -/
def repeatedArity? : (seen : List Nat) → List Signature → Option Nat
  | _, [] => none
  | seen, s :: ss => if s.arity ∈ seen then some s.arity else repeatedArity? (s.arity :: seen) ss

/-- What is wrong with the signatures of one plugin. -/
def problem? (label : String) (ss : List Signature) : Option DeclarationProblem :=
  if ss.isEmpty then some (.noSignatures label)
  else (repeatedArity? [] ss).map (.sameArity label)

end Signature

/-! ### The resolver -/

/-- The plugins that uses are bound to. -/
structure Resolver where
  /-- Whether uses that nothing declares are tolerated. -/
  lenient : Bool
  /-- One function for each name. -/
  functions : List (Listed FunctionPlugin)
  /-- Names with their methods, one for each receiver. A name is listed once it was declared, even
  if none of its declarations was accepted. -/
  methods : List (String × List (Listed MethodPlugin))
  /-- One directive for each name. -/
  directives : List (Listed DirectivePlugin)
  deriving Repr, Inhabited

namespace Resolver

/-- The problem of declaring what another declaration declared already. -/
def clash {α : Type} (label : String) (kept new : Listed α) : List DeclarationProblem :=
  if kept.declared = new.declared then [] else [.duplicate label]

/-- The resolver with one more function, unless it is refused. -/
def addFunction (r : Resolver) (new : Listed FunctionPlugin) : Resolver × List DeclarationProblem :=
  let p := new.plugin
  match r.functions.find? (·.plugin.name == p.name) with
  | some kept => (r, clash p.label kept new)
  | none =>
    match Signature.problem? p.label p.signatures with
    | some problem => (r, [problem])
    | none => ({ r with functions := r.functions ++ [new] }, [])

/-- The methods with a name. -/
def overloads (r : Resolver) (name : String) : List (Listed MethodPlugin) :=
  (r.methods.lookup name).getD []

/-- The methods by name, those with one name replaced. -/
def setOverloads (name : String) (ms : List (Listed MethodPlugin)) :
    List (String × List (Listed MethodPlugin)) → List (String × List (Listed MethodPlugin))
  | [] => [(name, ms)]
  | (n, old) :: rest => if n = name then (n, ms) :: rest else (n, old) :: setOverloads name ms rest

/-- The resolver with one more method, unless it is refused. -/
def addMethod (r : Resolver) (new : Listed MethodPlugin) : Resolver × List DeclarationProblem :=
  let p := new.plugin
  let known := r.overloads p.name
  let keep (ms : List (Listed MethodPlugin)) : Resolver :=
    { r with methods := setOverloads p.name ms r.methods }
  match known.find? (·.plugin.receiver == p.receiver) with
  | some kept => (r, clash p.label kept new)
  | none =>
    match Signature.problem? p.label p.signatures with
    | some problem => (keep known, [problem])
    | none => (keep (known ++ [new]), [])

/-- The resolver with one more directive, unless it is refused. -/
def addDirective (r : Resolver) (new : Listed DirectivePlugin) :
    Resolver × List DeclarationProblem :=
  let p := new.plugin
  match r.directives.find? (·.plugin.name == p.name) with
  | some kept => (r, clash p.label kept new)
  | none =>
    if p.arities.isEmpty then (r, [.noArities p.label])
    else ({ r with directives := r.directives ++ [new] }, [])

/-- The resolver with many plugins of one kind, and what is wrong with them. -/
def addAll {α : Type} (add : Resolver → Listed α → Resolver × List DeclarationProblem)
    (start : Resolver × List DeclarationProblem) (new : List (Listed α)) :
    Resolver × List DeclarationProblem :=
  new.foldl (fun (r, ps) p =>
    let (r, more) := add r p
    (r, ps ++ more)) start

/-- The resolver for the bundled plugins and those of the user. -/
def ofUser (lenient : Bool) (user : UserPlugins) : Resolver × List DeclarationProblem :=
  let withFunctions :=
    addAll addFunction (⟨lenient, [], [], []⟩, [])
      (Listed.bundled Bundled.functions ++ user.functions)
  let withMethods :=
    addAll addMethod withFunctions (Listed.bundled Bundled.methods ++ user.methods)
  addAll addDirective withMethods (Listed.bundled Bundled.directives ++ user.directives)

/-! ### Uses -/

/-- The answer to a use that nothing declares. -/
def undeclared (r : Resolver) (e : ResolveError) : Except ResolveError Callee :=
  if r.lenient then .ok .unknown else .error e

/-- What a call of a function with a number of arguments is bound to. -/
def function (r : Resolver) (name : String) (arity : Nat) : Except ResolveError Callee :=
  match r.functions.find? (·.plugin.name == name) with
  | none => r.undeclared (.unknownFunction name)
  | some l =>
    match Signature.forArity? l.plugin.signatures arity with
    | some s => .ok (.plugin name s)
    | none => r.undeclared (.functionArity name arity (Signature.arities l.plugin.signatures))

/-- The signatures of the methods with a name whose receiver accepts a type. -/
def methodSignatures (r : Resolver) (name : String) (receiver : ValueType) : List Signature :=
  ((r.overloads name).filter (·.plugin.receiver.accepts receiver)).flatMap (·.plugin.signatures)

/-- What a call of a method with a number of arguments is bound to. Of several receivers that accept
the type, the first with a fitting signature is taken. -/
def method (r : Resolver) (name : String) (receiver : ValueType) (arity : Nat) :
    Except ResolveError Callee :=
  let ss := r.methodSignatures name receiver
  if ss.isEmpty then r.undeclared (.unknownMethod name receiver)
  else match Signature.forArity? ss arity with
    | some s => .ok (.plugin name s)
    | none => r.undeclared (.methodArity name arity (Signature.arities ss))

/-- Why a directive may not be used with a number of arguments. -/
def directive (r : Resolver) (name : String) (arity : Nat) : Except ResolveError Unit :=
  match r.directives.find? (·.plugin.name == name) with
  | none => (r.undeclared (.unknownDirective name)).map fun _ => ()
  | some l =>
    if arity ∈ l.plugin.arities then .ok ()
    else (r.undeclared (.directiveArity name arity l.plugin.arities)).map fun _ => ()

/-! ### Plugins of the user -/

/-- The accepted functions of the user. -/
def userFunctions (r : Resolver) : List FunctionPlugin :=
  (r.functions.filter (·.isUser)).map (·.plugin)

/-- The accepted methods of the user, those of one name together. -/
def userMethods (r : Resolver) : List MethodPlugin :=
  ((r.methods.flatMap (·.2)).filter (·.isUser)).map (·.plugin)

/-- The accepted directives of the user. -/
def userDirectives (r : Resolver) : List DirectivePlugin :=
  (r.directives.filter (·.isUser)).map (·.plugin)

end Resolver

end TemplateFrontend
