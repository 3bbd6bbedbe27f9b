import TemplateFrontend.Proofs.Expr.Parts
import TemplateFrontend.Proofs.Transform.Retouching
/-!
# Trees as written

What resolution and typing find out is written down in the tree: the names of callees are qualified, calls
are bound to plugins, and declarations and expressions get types. The tree without all this is the tree as
written, and it says whether a pass has changed anything else.

* `Expr.asWritten`, `NodeKind.asWritten`, `TemplateFile.asWritten` — expressions, nodes and files;
* `NodeKind.untyped`, `TemplateFile.untyped` — nodes and files without types and without what calls of plugins
  are bound to, but with the names of callees as they are;
* `Expr.asWritten_mapParts`, `Expr.asWritten_infer` — steps on expressions that keep them as written;
* `TemplateFile.viewed_setKind` — a node is set to one that looks the same;
* `TemplateFile.untyped_resolvePlugins`, `TemplateFile.untyped_resolveTypes` — types and plugins;
* `TemplateFile.asWritten_resolveImports`, `TemplateFile.asWritten_resolvePlugins`,
  `TemplateFile.asWritten_resolveTypes` — the passes that only write down what they find out.
-/

namespace TemplateFrontend

/-! ### Expressions -/

namespace Expr

/-- The part without its type and, if it is a call, without what it is bound to. -/
def unnoted : Expr → Expr
  | .call n name args _ => .call { n with type := none } name args none
  | .method n b name args _ => .method { n with type := none } b name args none
  | e => e.withNote { e.note with type := none }

/-- The expression as written, without types and without what calls are bound to. -/
def asWritten (e : Expr) : Expr := e.mapParts unnoted

theorem asWritten_eq (e : Expr) : e.asWritten = (e.mapChildren asWritten).unnoted := mapParts_eq ..

/-- **Parts replaced** by others that are written in the same way. -/
theorem asWritten_mapParts {g : Expr → Expr} (hg : ∀ e, (g e).asWritten = e.asWritten) (e : Expr) :
    (e.mapParts g).asWritten = e.asWritten := by
  induction e using children_induct with
  | h e ih =>
    have hparts : (e.mapChildren (mapParts g)).mapChildren asWritten = e.mapChildren asWritten := by
      rw [mapChildren_mapChildren]
      exact mapChildren_congr ih
    rw [mapParts_eq, hg, asWritten_eq, hparts, ← asWritten_eq]

theorem asWritten_asWritten (e : Expr) : e.asWritten.asWritten = e.asWritten := by
  refine asWritten_mapParts (fun e => ?_) e
  rw [asWritten_eq, asWritten_eq]
  cases e <;> rfl

/-- Calls of functions are written as before when they are bound. -/
theorem asWritten_bindFunctions (r : Resolver) (e : Expr) :
    (e.mapParts (bindFunction r)).asWritten = e.asWritten := by
  refine asWritten_mapParts (fun e => ?_) e
  cases e with
  | call n name args callee =>
    rw [bindFunction]
    split <;> rfl
  | _ => rfl

/-- What typing writes down about the whole is its type and, for a method, what it is bound to. -/
theorem unnoted_infer (r : Resolver) (scope : TypeScope) (g : Expr → Expr) (e : Expr) :
    ((e.infer r scope).1.mapChildren g).unnoted =
      (e.mapChildren fun c => g (c.infer r scope).1).unnoted := by
  have hargs : ∀ es : List Expr, (inferAll r scope es).1.map g =
      es.map fun c => g (c.infer r scope).1 := fun es => by
    rw [inferAll_fst, List.map_map]
    rfl
  cases e with
  | literal | var | global | field | binary => rfl
  | call n name args callee =>
    cases callee <;> exact congrArg (fun as => unnoted (.call n name as none)) (hargs args)
  | method n b name args callee =>
    have hparts := congrArg (fun as => unnoted (.method n (g (b.infer r scope).1) name as none))
      (hargs args)
    rw [infer]
    dsimp only
    -- whether the method is found or not, only the type and the callee are new
    split <;> exact hparts
  | list n es => exact congrArg (fun es => unnoted (.list n es)) (hargs es)
  | unary n op a => cases op <;> rfl

/-- **Typing** writes nothing in another way. -/
theorem asWritten_infer (r : Resolver) (scope : TypeScope) (e : Expr) :
    (e.infer r scope).1.asWritten = e.asWritten := by
  induction e using children_induct with
  | h e ih => rw [asWritten_eq, unnoted_infer, mapChildren_congr ih, ← asWritten_eq]

end Expr

/-! ### Nodes -/

namespace NodeKind

/-- The node without the types of its declarations and, if it calls a template directly, without the name
of that template. -/
def unresolved : NodeKind → NodeKind
  | .template t => .template { t with
      params := t.params.map fun p => { p with type := none }
      state := t.state.map fun d => { d with type := none } }
  | .call c => .call { c with callee := if c.delegate then c.callee else "" }
  | k => k

/-- The node as written, but for the names of templates that it calls directly. -/
def asWritten (k : NodeKind) : NodeKind := k.unresolved.mapExprs Expr.asWritten

/-- The node without the types of its declarations. -/
def withoutTypes : NodeKind → NodeKind
  | .template t => .template { t with
      params := t.params.map fun p => { p with type := none }
      state := t.state.map fun d => { d with type := none } }
  | k => k

/-- The node without types and without what calls of plugins are bound to. -/
def untyped (k : NodeKind) : NodeKind := k.withoutTypes.mapExprs Expr.asWritten

theorem unresolved_mapExprs (e : Expr → Expr) (k : NodeKind) :
    (k.mapExprs e).unresolved = k.unresolved.mapExprs e := by
  cases k with
  | template t =>
    simp only [mapExprs, unresolved, List.map_map]
    rfl
  | _ => rfl

/-- **Expressions replaced** by others that are written in the same way. -/
theorem asWritten_mapExprs {e : Expr → Expr} (he : ∀ x, (e x).asWritten = x.asWritten) (k : NodeKind) :
    (k.mapExprs e).asWritten = k.asWritten := by
  have hcomp : Expr.asWritten ∘ e = Expr.asWritten := funext he
  rw [asWritten, unresolved_mapExprs, mapExprs_mapExprs, hcomp]
  rfl

/-- The callee of a call is no delegate, and gets another name. -/
theorem asWritten_call {c : Call} (h : c.delegate = false) (callee : String) :
    (NodeKind.call { c with callee }).asWritten = (NodeKind.call c).asWritten := by
  simp only [asWritten, unresolved, h, Bool.false_eq_true, if_false]

theorem withoutTypes_mapExprs (e : Expr → Expr) (k : NodeKind) :
    (k.mapExprs e).withoutTypes = k.withoutTypes.mapExprs e := by
  cases k with
  | template t =>
    simp only [mapExprs, withoutTypes, List.map_map]
    rfl
  | _ => rfl

/-- **Expressions replaced** by others that are written in the same way. -/
theorem untyped_mapExprs {e : Expr → Expr} (he : ∀ x, (e x).asWritten = x.asWritten) (k : NodeKind) :
    (k.mapExprs e).untyped = k.untyped := by
  have hcomp : Expr.asWritten ∘ e = Expr.asWritten := funext he
  rw [untyped, withoutTypes_mapExprs, mapExprs_mapExprs, hcomp]
  rfl

/-- The declarations of a header get types. -/
theorem untyped_typeHeader (types : TypeRegistry) (r : Resolver) (t : Template) :
    (NodeKind.template (typeHeader types r t).1).untyped = (NodeKind.template t).untyped := by
  have hparams : ∀ (scope : TypeScope) (ps : List ParamDecl),
      (typeParams types scope ps).1.map (fun p => { p with type := none }) =
        ps.map fun p => { p with type := none } := by
    intro scope ps
    induction ps generalizing scope with
    | nil => rfl
    -- whatever the scope is by then
    | cons p ps ih => exact congrArg (_ :: ·) (ih _)
  -- each initial value is typed in the scope of those before it, and typing is all that happens to it
  have hstate : ∀ (scope : TypeScope) (ds : List StateDecl),
      (typeState types r scope ds).1.map
          (fun d => { d with type := none, initial := d.initial.asWritten }) =
        ds.map fun d => { d with type := none, initial := d.initial.asWritten } := by
    intro scope ds
    induction ds generalizing scope with
    | nil => rfl
    | cons d ds ih =>
      refine congrArg₂ List.cons ?_ (ih _)
      exact congrArg (fun e => ({ d with type := none, initial := e } : StateDecl))
        (Expr.asWritten_infer r scope d.initial)
  simp only [untyped, withoutTypes, mapExprs, List.map_map, typeHeader]
  refine congrArg₂ (fun params state => NodeKind.template { t with params, state }) (hparams _ _) ?_
  exact hstate _ _

/-- Types and plugins are no part of what is written. -/
theorem asWritten_untyped (k : NodeKind) : k.untyped.asWritten = k.asWritten := by
  have hunresolved : k.withoutTypes.unresolved = k.unresolved := by
    cases k with
    | template t =>
      simp only [withoutTypes, unresolved, List.map_map]
      rfl
    | _ => rfl
  rw [untyped, asWritten_mapExprs Expr.asWritten_asWritten, asWritten, hunresolved]
  rfl

end NodeKind

/-! ### Files -/

namespace TemplateFile

/-- The file as written, but for the names of templates that are called directly. -/
def asWritten (f : TemplateFile) : TemplateFile :=
  { f with nodes := f.nodes.map fun n => { n with kind := n.kind.asWritten } }

/-- The file without types and without what calls of plugins are bound to. -/
def untyped (f : TemplateFile) : TemplateFile :=
  { f with nodes := f.nodes.map fun n => { n with kind := n.kind.untyped } }

/-! ### Views of all nodes -/

section Viewed

variable {v w : NodeKind → NodeKind} {f g : TemplateFile}

/-- The file with a view of each node in place of the node. -/
def viewed (v : NodeKind → NodeKind) (f : TemplateFile) : TemplateFile :=
  { f with nodes := f.nodes.map fun n => { n with kind := v n.kind } }

theorem viewed_viewed (f : TemplateFile) : (f.viewed v).viewed w = f.viewed (w ∘ v) :=
  congrArg (fun nodes => { f with nodes }) (Array.map_map ..)

theorem kind_viewed (hv : v (.text "") = .text "") (f : TemplateFile) (id : NodeId) :
    (f.viewed v).kind id = v (f.kind id) := by
  unfold viewed kind
  rw [Array.getElem?_map]
  cases f.nodes[id]? with
  | none => exact hv.symm
  | some n => rfl

/-- Files that look the same have nodes that look the same. -/
theorem viewed_kind_eq (hv : v (.text "") = .text "") (h : g.viewed v = f.viewed v) (id : NodeId) :
    v (g.kind id) = v (f.kind id) := by
  rw [← kind_viewed hv, h, kind_viewed hv]

theorem span_viewed (f : TemplateFile) (id : NodeId) : (f.viewed v).span id = f.span id := by
  unfold viewed span
  rw [Array.getElem?_map]
  cases f.nodes[id]? <;> rfl

/-- **A node is set** to one that looks the same. -/
theorem viewed_setKind (hv : v (.text "") = .text "") {id : NodeId} {k : NodeKind}
    (hk : v k = v (f.kind id)) : (f.setKind id k).viewed v = f.viewed v := by
  have hset : (f.setKind id k).viewed v = (f.viewed v).setKind id (v k) := by
    rw [setKind, setKind, setNode, setNode, span_viewed]
    exact congrArg (fun nodes => { f with nodes }) (Array.map_setIfInBounds ..)
  rw [hset, hk, ← kind_viewed hv]
  exact setKind_kind ..

end Viewed

variable {f g : TemplateFile}

/-- Types and plugins are no part of what is written. -/
theorem asWritten_of_untyped (h : g.untyped = f.untyped) : g.asWritten = f.asWritten := by
  have hviews : NodeKind.asWritten ∘ NodeKind.untyped = NodeKind.asWritten :=
    funext NodeKind.asWritten_untyped
  have hfile : ∀ f : TemplateFile, f.untyped.asWritten = f.asWritten := fun f =>
    (viewed_viewed f).trans (congrArg (viewed · f) hviews)
  rw [← hfile g, h, hfile f]

/-! ### Passes that write down what they find out -/

/-- **Callees** are qualified, names of delegates apart. -/
theorem asWritten_resolveImports (f : TemplateFile) : f.resolveImports.1.asWritten = f.asWritten := by
  refine resolveImports_rel (R := fun f g => g.asWritten = f.asWritten) (fun _ => rfl)
    (fun h h' => h'.trans h) (fun {f id c} callee hk hdelegate => viewed_setKind rfl ?_) f
  rw [hk]
  exact NodeKind.asWritten_call hdelegate callee

/-- **Calls of functions** are bound, and nothing else is done. -/
theorem untyped_resolvePlugins (s : Settings) (f : TemplateFile) :
    (f.resolvePlugins s).1.untyped = f.untyped :=
  foldl_rel (R := fun f g => g.untyped = f.untyped) (fun _ => rfl) (fun h h' => h'.trans h)
    (fun g id => viewed_setKind rfl
      ((g.kind id).untyped_mapExprs (Expr.asWritten_bindFunctions s.plugins))) f.reachable f

/-- **Types** are written down, calls of methods are bound, and nothing else is done. -/
theorem untyped_resolveTypes (s : Settings) (f : TemplateFile) :
    (f.resolveTypes s).1.untyped = f.untyped := by
  refine resolveTypes_rel (R := fun f g => g.untyped = f.untyped) (fun _ => rfl)
    (fun h h' => h'.trans h) (fun scope f g id h => ?_) ?_ f
  -- the node that is set differs from the old one in types only
  · have hk : ((f.kind id).mapExprs fun e => (e.infer s.plugins scope).1).untyped =
        (g.kind id).untyped := by
      rw [NodeKind.untyped_mapExprs (Expr.asWritten_infer s.plugins scope)]
      exact (viewed_kind_eq rfl h id).symm
    exact (viewed_setKind rfl hk).trans h
  · intro f g id t hid h
    have hk : (NodeKind.template (typeHeader s.types s.plugins t).1).untyped = (g.kind id).untyped := by
      rw [NodeKind.untyped_typeHeader, ← hid]
      exact (viewed_kind_eq rfl h id).symm
    exact (viewed_setKind rfl hk).trans h

theorem asWritten_resolvePlugins (s : Settings) (f : TemplateFile) :
    (f.resolvePlugins s).1.asWritten = f.asWritten :=
  asWritten_of_untyped (untyped_resolvePlugins s f)

theorem asWritten_resolveTypes (s : Settings) (f : TemplateFile) :
    (f.resolveTypes s).1.asWritten = f.asWritten :=
  asWritten_of_untyped (untyped_resolveTypes s f)

end TemplateFile

end TemplateFrontend
