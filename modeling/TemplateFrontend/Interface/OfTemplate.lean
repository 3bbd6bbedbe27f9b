import TemplateFrontend.Interface.Basic
import TemplateFrontend.Tree.File
/-!
# The interface of a template in a file

The parameters come from the header of the template, the forwardings from the calls in its body that
pass all data on, each distinct one once, in the order of the calls.
-/

namespace TemplateFrontend.Interface

/-- The parameter that a declaration declares. -/
def ofDecl (p : ParamDecl) : Parameter :=
  ⟨p.name, p.kind, p.type.getD .unknown, p.required, p.injected, p.doc⟩

/-- The forwarding that a call is, if it passes all data on. -/
def forwarding? (c : Call) : Option Forwarding :=
  if c.passesAll then some ⟨c.callee, c.delegate, .ofList (c.passed.map (·.name))⟩ else none

/-- The distinct forwardings below a template. -/
def forwardingsOf (f : TemplateFile) (id : NodeId) : List Forwarding :=
  let all := (f.descendants id).filterMap fun id =>
    match f.kind id with
    | .call c => forwarding? c
    | _ => none
  all.foldl (fun found x => if x ∈ found then found else found ++ [x]) []

/-- The parts of the interface of a template. -/
def draftOf (f : TemplateFile) (id : NodeId) (t : Template) : InterfaceDraft :=
  { key := t.key f.delegatePackage, location := some (f.location (f.span id)), origin := .source
    kind := t.kind, contentKind := t.contentKind, strictHtml := t.strictHtml
    visibility := t.visibility, package := f.delegatePackage
    delegateName := if t.kind = .delegate then some t.name else none
    delegateVariant := if t.kind = .delegate then some (t.variant.getD "") else none
    parameters := t.params.map ofDecl, forwardings := forwardingsOf f id }

/-- The interface of a template that is defined in this compilation. -/
def ofTemplate (f : TemplateFile) (id : NodeId) (t : Template) : Except InterfaceError Interface :=
  (draftOf f id t).build

end TemplateFrontend.Interface
