import TemplateFrontend.Diagnostic
import TemplateFrontend.Pass
import TemplateFrontend.Settings.Basic
import TemplateFrontend.Text.Pieces
import TemplateFrontend.Tree.File
/-!
# Names in files

What the names of callees, constants and plugins in a file mean.

A call names its template in one of three ways: by its qualified name, by a name that starts with a
dot and is looked for in the namespace of the file, or by a name that starts with an alias. Names of
delegates are always qualified.

Names of constants become their values, unless the tree is to be kept as written; names that nobody
defines are errors, unless they are allowed. Calls of functions are bound to plugins and print
directives are checked. Calls of methods are bound when types are known.
-/

namespace TemplateFrontend

/-! ### Qualified names of callees -/

namespace TemplateFile

open Text

/-- The qualified name that a call in the file means, or nothing if it needs a namespace that the
file does not have. -/
def qualified? (f : TemplateFile) (callee : String) : Option String :=
  match callee.toList with
  | '.' :: name => f.namespaceName.map fun ns => ns ++ "." ++ String.ofList name
  | cs =>
    let (head, rest) := match splitAt? ['.'] cs with
      | some (head, rest) => (head, rest.tail)
      | none => (cs, [])
    match f.aliases.lookup (String.ofList head) with
    | none => some callee
    | some target =>
      if rest.isEmpty then some target else some (target ++ "." ++ String.ofList rest)

/-- The error of a call that needs a namespace. -/
def needsNamespace (callee : String) : String :=
  "relative call '" ++ callee ++ "' requires a \x7bnamespace\x7d declaration"

/-- The call that a node is, unless it calls a delegate. -/
def directCall? (f : TemplateFile) (id : NodeId) : Option Call :=
  match f.kind id with
  | .call c => if c.delegate then none else some c
  | _ => none

/-- The node with a qualified callee, if it is a call that can be qualified. -/
def qualifyCall (f : TemplateFile) (id : NodeId) : TemplateFile :=
  match f.directCall? id with
  | none => f
  | some c =>
    match f.qualified? c.callee with
    | some callee => f.setKind id (.call { c with callee })
    | none => f

/-- The file with qualified callees, and the calls that need a namespace. -/
def resolveImports (f : TemplateFile) : TemplateFile × Diagnostics :=
  (f.foldReachable qualifyCall,
    f.reachable.filterMap fun id =>
      match f.directCall? id with
      | none => none
      | some c =>
        if (f.qualified? c.callee).isSome then none
        else some (.errorAt Pass.resolveImports.name (needsNamespace c.callee)
          (f.location (f.span id))))

end TemplateFile

/-! ### Values of constants -/

/-- The value in place of the name of a known constant. -/
def Expr.inlineGlobal (globals : Globals) : Expr → Expr
  | .global n name =>
    match globals.find? name with
    | some v => .literal n v
    | none => .global n name
  | e => e

/-- The name, if the expression is the name of an unknown constant. -/
def Expr.unknownGlobal? (globals : Globals) : Expr → Option String
  | .global _ name => if (globals.find? name).isSome then none else some name
  | _ => none

/-- The file with known constants in place of their names, and the names of unknown ones. -/
def TemplateFile.resolveGlobals (s : Settings) (f : TemplateFile) : TemplateFile × Diagnostics :=
  (if s.desugarSyntax then f.mapExprs (·.mapParts (.inlineGlobal s.globals)) else f,
    if s.allowUnknownGlobals then []
    else f.reachableExprs.filterMap fun e =>
      (e.unknownGlobal? s.globals).map fun name =>
        .errorAt Pass.resolveGlobals.name ("unknown global '" ++ name ++ "'") (f.location e.span))

/-! ### Plugins of calls and prints -/

namespace Expr

/-- The call of a function bound to its plugin, if it has one. -/
def bindFunction (r : Resolver) : Expr → Expr
  | .call n name args callee =>
    match r.function name args.length with
    | .ok bound => .call n name args (some bound)
    | .error _ => .call n name args callee
  | e => e

/-- Why the call of a function has no plugin. -/
def functionError? (r : Resolver) : Expr → Option ResolveError
  | .call _ name args _ =>
    match r.function name args.length with
    | .ok _ => none
    | .error e => some e
  | _ => none

end Expr

namespace TemplateFile

/-- What is wrong with the directives of a node. -/
def directiveErrors (r : Resolver) (f : TemplateFile) (id : NodeId) : List (Span × ResolveError) :=
  match f.kind id with
  | .print _ ds =>
    ds.filterMap fun d =>
      match r.directive d.name d.args.length with
      | .ok () => none
      | .error e => some (d.span, e)
  | _ => []

/-- The file with calls of functions bound, and the plugins that are not there: those of calls, then
those of directives. -/
def resolvePlugins (s : Settings) (f : TemplateFile) : TemplateFile × Diagnostics :=
  let calls := f.reachableExprs.filterMap fun e => (e.functionError? s.plugins).map (e.span, ·)
  let directives := f.reachable.flatMap (f.directiveErrors s.plugins)
  (f.mapExprs (·.mapParts (.bindFunction s.plugins)),
    (calls ++ directives).map fun (place, e) =>
      .errorAt Pass.resolvePlugins.name e.message (f.location place))

end TemplateFile

end TemplateFrontend
