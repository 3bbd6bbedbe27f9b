import TemplateFrontend.Tree.File
/-!
# Scopes of names

A loop binds its variable inside its body. A `{let}` binds its variable in the rest of the list that
it stands in, with everything below, but not in its own content. `withScopes` lists the nodes of a
list with the names that are bound where they stand, the innermost first.
-/

namespace TemplateFrontend.TemplateFile

/-- The names that a node binds for the nodes after it in its list. -/
def bindsAfter : NodeKind → List String
  | .binding x _ => [x]
  | _ => []

/-- The names that a node binds for the nodes inside it. -/
def bindsInside : NodeKind → List String
  | .loop x _ _ => [x]
  | _ => []

/-- The nodes of a list and everything below them, in order, each with the names in its scope;
`fuel` bounds the number of nodes. -/
def withScopes (f : TemplateFile) : (fuel : Nat) → (scope : List String) → List NodeId →
    List (NodeId × List String)
  | 0, _, _ => []
  | _ + 1, _, [] => []
  | fuel + 1, scope, id :: ids =>
    let k := f.kind id
    (id, scope) ::
      (k.bodies.flatMap (f.withScopes fuel (bindsInside k ++ scope)) ++
        f.withScopes fuel (bindsAfter k ++ scope) ids)

/-- The nodes below a list with their scopes. -/
def scopedNodes (f : TemplateFile) (ids : List NodeId) : List (NodeId × List String) :=
  f.withScopes f.nodes.size [] ids

end TemplateFrontend.TemplateFile
