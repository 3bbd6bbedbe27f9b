import TemplateFrontend.Proofs.Compiler.Forests
/-!
# What a file tells the registry

The interface of a template is built from its header, its place and the calls below it that pass all
data on. Expressions, texts and state play no part in it. So of the passes on single files only two
change what is registered: the one that qualifies callees and the one that resolves the types of
parameters, and what each of them does to it does not depend on the other passes.

* `Outline`, `TemplateFile.interfaces_eq` — what the registry is told of a template;
* `TemplateFile.outlines_map` — the outlines of a file of which headers and calls were changed;
* `TemplateFile.Planted.outlines_desugarSyntax`, `TemplateFile.Planted.outlines_resolveImports`,
  `TemplateFile.Planted.outlines_resolveTypes` — the passes that change a file;
* `TemplateFile.Rooted.outlines_runPasses` — several passes on single files, one after the other.
-/

namespace TemplateFrontend

/-! ### Outlines -/

/-- The template without its state and its body. -/
def Template.header (t : Template) : Template := { t with state := [], body := [] }

namespace NodeKind

/-- The header of a template; other nodes have none. -/
def header? : NodeKind → Option Template
  | .template t => some t.header
  | _ => none

/-- The forwarding that a call is, if it passes all data on; other nodes are none. -/
def forwarding? : NodeKind → Option Forwarding
  | .call c => Interface.forwarding? c
  | _ => none

/-- What the registry sees of a node. -/
def profile (k : NodeKind) : Option Template × Option Forwarding := (k.header?, k.forwarding?)

/-- The registry sees no expressions. -/
theorem profile_mapExprs (k : NodeKind) (e : Expr → Expr) : (k.mapExprs e).profile = k.profile := by
  cases k with
  | call c =>
    have hnames : (c.passed.map fun p => { p with bound := p.bound.mapExpr e }).map (·.name) =
        c.passed.map (·.name) := by
      rw [List.map_map]
      rfl
    unfold profile mapExprs header? forwarding? Interface.forwarding?
    dsimp only
    rw [hnames]
  | _ => rfl

/-- The names of parameters stay when their contents change. -/
theorem map_name_fillPassed (ps : List Passed) (ls : List (List NodeId)) :
    (fillPassed ps ls).map (·.name) = ps.map (·.name) := by
  induction ps generalizing ls with
  | nil => rfl
  | cons p ps ih =>
    unfold fillPassed
    split
    · exact congrArg (p.name :: ·) (ih _)
    · exact congrArg (p.name :: ·) (ih _)

/-- The registry sees no lists of nodes. -/
theorem profile_withBodies (k : NodeKind) (ls : List (List NodeId)) :
    (k.withBodies ls).profile = k.profile := by
  cases k with
  | binding x b => cases b <;> rfl
  | call c =>
    unfold profile withBodies header? forwarding? Interface.forwarding?
    dsimp only
    rw [map_name_fillPassed]
  | _ => rfl

end NodeKind

/-- What the registry is told of a template. -/
structure Outline where
  place : Span
  header : Template
  /-- The calls in the template that pass all data on, in order. -/
  calls : List Forwarding

namespace Outline

/-- The parts of the interface, in a file. -/
def draft (f : TemplateFile) (x : Outline) : InterfaceDraft :=
  { key := x.header.key f.delegatePackage, location := some (f.location x.place), origin := .source
    kind := x.header.kind, contentKind := x.header.contentKind, strictHtml := x.header.strictHtml
    visibility := x.header.visibility, package := f.delegatePackage
    delegateName := if x.header.kind = .delegate then some x.header.name else none
    delegateVariant := if x.header.kind = .delegate then some (x.header.variant.getD "") else none
    parameters := x.header.params.map Interface.ofDecl
    forwardings := x.calls.foldl (fun found c => if c ∈ found then found else found ++ [c]) [] }

/-- The interface, if the parts fit together. -/
def interface? (f : TemplateFile) (x : Outline) : Option Interface := (x.draft f).build.toOption

/-- The outline with another header and other calls. -/
def map (header : Template → Template) (call : Forwarding → Forwarding) (x : Outline) : Outline :=
  ⟨x.place, header x.header, x.calls.map call⟩

/-- Nothing is changed. -/
@[simp] theorem map_id (x : Outline) : x.map id id = x := by
  rw [map, List.map_id]
  rfl

end Outline

namespace TemplateFile

/-- The calls below a template that pass all data on. -/
def forwardings (f : TemplateFile) (id : NodeId) : List Forwarding :=
  (f.descendants id).filterMap fun x => (f.kind x).forwarding?

/-- The outline of the template that a number names, if it names one. -/
def outline? (f : TemplateFile) (id : NodeId) : Option Outline :=
  (f.kind id).header?.map fun header => ⟨f.span id, header, f.forwardings id⟩

/-- The outlines of the templates of a file. -/
def outlines (f : TemplateFile) : List Outline := f.templates.filterMap f.outline?

variable {f g : TemplateFile} {ts : Forest}

/-- The parts of an interface are those of the outline. -/
theorem draftOf_eq (f : TemplateFile) (id : NodeId) (t : Template) :
    Interface.draftOf f id t = Outline.draft f ⟨f.span id, t.header, f.forwardings id⟩ := by
  have hcalls : (f.descendants id).filterMap (fun x => match f.kind x with
      | .call c => Interface.forwarding? c
      | _ => none) = f.forwardings id := by
    refine List.filterMap_congr fun x _ => ?_
    cases f.kind x <;> rfl
  have hforwardings : Interface.forwardingsOf f id =
      (f.forwardings id).foldl (fun found c => if c ∈ found then found else found ++ [c]) [] :=
    congrArg (List.foldl (fun found c => if c ∈ found then found else found ++ [c]) []) hcalls
  rw [Interface.draftOf, hforwardings]
  rfl

/-- **Interfaces** are built from outlines. -/
theorem interfaces_eq (f : TemplateFile) : f.interfaces = f.outlines.filterMap (·.interface? f) := by
  unfold interfaces declared outlines
  -- number by number: those that name no template have neither an interface nor an outline
  induction f.templates with
  | nil => rfl
  | cons id ids ih =>
    cases hk : f.kind id with
    | template t =>
      have hdeclared : (f.template? id).map (id, ·) = some (id, t) := by
        rw [template?_eq_some.mpr hk]
        rfl
      have houtline : f.outline? id = some ⟨f.span id, t.header, f.forwardings id⟩ := by
        rw [outline?, hk]
        rfl
      -- the outline holds all that the interface is made of
      have hinterface : (Interface.ofTemplate f id t).toOption =
          Outline.interface? f ⟨f.span id, t.header, f.forwardings id⟩ := by
        rw [Interface.ofTemplate, draftOf_eq]
        rfl
      simp only [List.filterMap_cons, hdeclared, houtline, List.flatMap_cons, ih, hinterface]
      cases Outline.interface? f ⟨f.span id, t.header, f.forwardings id⟩ <;> rfl
    | _ =>
      have hdeclared : (f.template? id).map (id, ·) = none := by
        rw [template?, hk]
        rfl
      have houtline : f.outline? id = none := by
        rw [outline?, hk]
        rfl
      simp only [List.filterMap_cons, hdeclared, houtline, ih]

/-- The same outlines are the same interfaces in files that differ in their nodes only. -/
theorem interfaces_congr (hrest : { g with nodes := f.nodes } = f) (h : g.outlines = f.outlines) :
    g.interfaces = f.interfaces := by
  have hinterface : Outline.interface? g = Outline.interface? f := by
    have hsame : Outline.interface? g = Outline.interface? { g with nodes := f.nodes } := rfl
    rw [hsame, hrest]
  rw [interfaces_eq, interfaces_eq, h, hinterface]

/-- **Outlines** of which headers and calls were changed. -/
theorem outlines_map {header : Template → Template} {call : Forwarding → Forwarding}
    (htemplates : g.templates = f.templates) (hspan : ∀ id, g.span id = f.span id)
    (hheader : ∀ id ∈ f.templates, (g.kind id).header? = (f.kind id).header?.map header)
    (hcalls : ∀ id ∈ f.templates, g.forwardings id = (f.forwardings id).map call) :
    g.outlines = f.outlines.map (·.map header call) := by
  unfold outlines
  rw [htemplates, List.map_filterMap]
  refine List.filterMap_congr fun id hid => ?_
  rw [outline?, outline?, hheader id hid, hspan, hcalls id hid, Option.map_map, Option.map_map]
  rfl

/-! ### Passes that leave headers and calls alone -/

/-- The headers are part of the profiles. -/
theorem Keeps.header?_eq (hk : Keeps NodeKind.profile f g) (id : NodeId) :
    (g.kind id).header? = (f.kind id).header? :=
  congrArg Prod.fst (hk.view_eq id)

/-- The calls that pass all data on are part of the profiles. -/
theorem Keeps.forwarding?_eq (hk : Keeps NodeKind.profile f g) (id : NodeId) :
    (g.kind id).forwarding? = (f.kind id).forwarding? :=
  congrArg Prod.snd (hk.view_eq id)

/-- Nodes with the same profiles, and the same calls below the templates. -/
theorem Keeps.outlines_eq (hk : Keeps NodeKind.profile f g)
    (hcalls : ∀ id ∈ f.templates, g.forwardings id = f.forwardings id) : g.outlines = f.outlines := by
  have hmap : g.outlines = f.outlines.map (·.map id id) := by
    refine outlines_map hk.templates_eq hk.span_eq (fun id _ => ?_) fun id hid => ?_
    · rw [hk.header?_eq, Option.map_id]
      rfl
    · rw [hcalls id hid, List.map_id]
  rw [hmap, funext Outline.map_id, List.map_id']

/-- Rewriting expressions leaves the outlines as they were. -/
theorem Rewritten.outlines_eq (hr : Rewritten f g) : g.outlines = f.outlines := by
  have hkeeps := hr.keeps NodeKind.profile_mapExprs
  refine hkeeps.outlines_eq fun id _ => ?_
  rw [forwardings, forwardings, hr.retouched.descendants_eq]
  exact List.filterMap_congr fun x _ => hkeeps.forwarding?_eq x

/-! ### Special characters written out -/

/-- Writing special characters out changes no header and no call. -/
theorem expandSpecials_keeps (f : TemplateFile) (ids : List NodeId) :
    Keeps NodeKind.profile f (expandSpecials f ids).1 := by
  induction ids generalizing f with
  | nil => exact .refl _ f
  | cons id ids ih =>
    rw [expandSpecials]
    split
    · next c hk =>
      have hset : Keeps NodeKind.profile f (f.setKind id (.text c.text)) := .setKind (by rw [hk]; rfl)
      exact hset.trans (ih _)
    · exact ih f

end TemplateFile

/-- Nodes that are not shown as anything are dropped from a list without a trace. -/
theorem Forest.filterMap_ids_writeOut {α : Type} {show? : NodeId → Option α} {ts : Forest}
    (hl : Forest.Labelled ts)
    (hblank : ∀ t ∈ Forest.subtrees ts, t.kind.isBlank = true → show? t.id = none) :
    (Forest.ids (Forest.writeOut ts)).filterMap show? = (Forest.ids ts).filterMap show? := by
  induction ts using Forest.induct with
  | nil => rfl
  | cons id k bs ts ihb iht =>
    obtain ⟨hk, hbs, hts⟩ := Forest.labelled_cons.mp hl
    rw [Forest.subtrees_cons] at hblank
    obtain ⟨hself, hbelow⟩ := List.forall_mem_cons.mp hblank
    have hrest := iht hts fun t ht => hbelow t (List.mem_append_right _ ht)
    cases hb : k.isBlank with
    | true =>
      -- a node that is blank has no lists
      obtain rfl : bs = [] := by
        cases k with
        | special c => exact List.map_eq_nil_iff.mp hk.symm
        | _ => cases hb
      have hnone : show? id = none := hself hb
      rw [Forest.writeOut_cons_blank hb, hrest, Forest.ids_cons, List.flatMap_nil, List.nil_append,
        List.filterMap_cons_none hnone]
    | false =>
      -- the lists of a node that stays are written out one by one
      have hinside : ((bs.map Forest.writeOut).flatMap Forest.ids).filterMap show? =
          (bs.flatMap Forest.ids).filterMap show? := by
        rw [List.flatMap_map, List.filterMap_flatMap, List.filterMap_flatMap]
        refine List.flatMap_congr fun b hb => ihb b hb (hbs b hb) fun t ht => ?_
        exact hbelow t (List.mem_append_left _ (List.mem_flatMap.mpr ⟨b, hb, ht⟩))
      rw [Forest.writeOut_cons hb, Forest.ids_cons, Forest.ids_cons, List.filterMap_cons,
        List.filterMap_cons, List.filterMap_append, List.filterMap_append, hrest, hinside]

/-- A node that is written out is in the forest that is written out, with its lists written out. -/
theorem Forest.mem_writeOut {ts : Forest} {id : NodeId} {k : NodeKind} {bs : List Forest}
    (hk : k.isBlank = false) (h : .node id k bs ∈ ts) :
    .node id (k.writtenOut.withBodies ((bs.map writeOut).map roots)) (bs.map writeOut) ∈ writeOut ts := by
  induction ts with
  | nil => cases h
  | cons t ts ih =>
    obtain ⟨id', k', bs'⟩ := t
    obtain heq | h := List.mem_cons.mp h
    · obtain ⟨rfl, rfl, rfl⟩ := NodeTree.node.inj heq
      rw [writeOut_cons hk]
      exact List.mem_cons_self
    -- the node is not blank, so it is not the one that is dropped here
    · cases hk' : k'.isBlank with
      | true =>
        rw [writeOut_cons_blank hk']
        exact ih h
      | false =>
        rw [writeOut_cons hk']
        exact List.mem_cons_of_mem _ (ih h)

namespace TemplateFile

variable {f g : TemplateFile} {ts : Forest}

/-- What is below a node of a forest that the table holds. -/
theorem Holds.descendants_of_mem (h : f.Holds ts) {id : NodeId} {k : NodeKind} {bs : List Forest}
    (hmem : .node id k bs ∈ ts) : f.descendants id = bs.flatMap Forest.ids :=
  (h.of_mem hmem).descendants_eq

/-- **Special characters written out** change no outline. -/
theorem Planted.outlines_desugarSyntax (h : f.Planted ts) : f.desugarSyntax.outlines = f.outlines := by
  have hkeeps : Keeps NodeKind.profile f f.desugarSyntax :=
    .editBodies expandSpecials_keeps NodeKind.profile_withBodies f
  obtain ⟨hafter, -⟩ := h.holds.desugarSyntax h.roots_eq h.areTemplates
  refine hkeeps.outlines_eq fun id hid => ?_
  obtain ⟨x, b, hmem, -⟩ := h.exists_node hid
  have hbelow := hafter.descendants_of_mem (Forest.mem_writeOut rfl hmem)
  rw [List.map_singleton, List.flatMap_singleton] at hbelow
  have hbefore := h.holds.descendants_of_mem hmem
  rw [List.flatMap_singleton] at hbefore
  -- below a template the walk meets the same nodes, without those that were blank
  have hlabelled : Forest.Labelled b := fun t ht =>
    h.holds.labelled t (Forest.mem_subtrees_below hmem List.mem_cons_self ht)
  rw [forwardings, forwardings, hbelow, hbefore, funext hkeeps.forwarding?_eq]
  refine Forest.filterMap_ids_writeOut hlabelled fun t ht hblank => ?_
  -- what is blank is no call
  rw [h.holds.shows_nodes t (Forest.mem_subtrees_below hmem List.mem_cons_self ht)]
  revert hblank
  cases t.kind with
  | call c => exact fun hblank => nomatch hblank
  | _ => exact fun _ => rfl

end TemplateFile

/-! ### Qualified callees -/

/-- The call with its callee qualified, where that is possible. Names of delegates are qualified. -/
def Call.qualify (qualified? : String → Option String) (c : Call) : Call :=
  if c.delegate then c else { c with callee := (qualified? c.callee).getD c.callee }

/-- The forwarding with its callee qualified in the same way. -/
def Forwarding.qualify (qualified? : String → Option String) (x : Forwarding) : Forwarding :=
  if x.delegate then x else { x with callee := (qualified? x.callee).getD x.callee }

/-- The node with its callee qualified, if it is a call. -/
def NodeKind.qualify (qualified? : String → Option String) : NodeKind → NodeKind
  | .call c => .call (c.qualify qualified?)
  | k => k

namespace NodeKind

variable (qualified? : String → Option String)

theorem header?_qualify (k : NodeKind) : (k.qualify qualified?).header? = k.header? := by
  cases k <;> rfl

/-- A call that passes all data on still does so, with its callee qualified. -/
theorem forwarding?_qualify (k : NodeKind) :
    (k.qualify qualified?).forwarding? = k.forwarding?.map (·.qualify qualified?) := by
  cases k with
  | call c =>
    unfold qualify forwarding? Interface.forwarding? Call.qualify
    cases hdelegate : c.delegate <;> cases hall : c.passesAll <;>
      simp [hdelegate, hall, Forwarding.qualify]
  | _ => rfl

end NodeKind

namespace TemplateFile

variable {f g : TemplateFile} {ts : Forest}

/-- The step for one node qualifies its callee, whatever the node is. -/
theorem qualifyCall_eq (f : TemplateFile) (id : NodeId) :
    f.qualifyCall id = f.setKind id ((f.kind id).qualify f.qualified?) := by
  unfold qualifyCall directCall? NodeKind.qualify Call.qualify
  cases hk : f.kind id with
  | call c =>
    dsimp only
    -- delegates are called by the name as it is written
    by_cases hdelegate : c.delegate = true
    · rw [if_pos hdelegate, if_pos hdelegate, ← hk, setKind_kind]
    · rw [if_neg hdelegate, if_neg hdelegate]
      dsimp only
      cases f.qualified? c.callee with
      | some callee => rfl
      | none =>
        dsimp only [Option.getD_none]
        rw [← hk, setKind_kind]
  | _ =>
    dsimp only
    rw [← hk, setKind_kind]

/-- Names are qualified by what the file declares, not by its nodes. -/
theorem qualified?_congr (hrest : { g with nodes := f.nodes } = f) : g.qualified? = f.qualified? := by
  have hsame : g.qualified? = TemplateFile.qualified? { g with nodes := f.nodes } := rfl
  rw [hsame, hrest]

/-- Qualifying callees one after the other, in the file as it is then, qualifies each in the file as it
was at first. -/
theorem resolveImports_eq (f : TemplateFile) : f.resolveImports.1 =
    f.foldReachable fun g id => g.setKind id ((g.kind id).qualify f.qualified?) := by
  -- what names stand for is read from the header of the file, which the pass leaves alone
  have hfold : ∀ (ids : List NodeId) (g : TemplateFile), { g with nodes := f.nodes } = f →
      ids.foldl qualifyCall g =
        ids.foldl (fun g id => g.setKind id ((g.kind id).qualify f.qualified?)) g := by
    intro ids
    induction ids with
    | nil => exact fun _ _ => rfl
    | cons id ids ih =>
      intro g hg
      rw [List.foldl_cons, List.foldl_cons, qualifyCall_eq, qualified?_congr hg]
      exact ih _ hg
  exact hfold f.reachable f rfl

/-- **Imports resolved**: the callees of the outlines are qualified. -/
theorem Planted.outlines_resolveImports (h : f.Planted ts) : f.resolveImports.1.outlines =
    f.outlines.map (·.map id (·.qualify f.qualified?)) := by
  have hretouched := resolveImports_retouched f
  have hkeeps : Keeps NodeKind.header? f f.resolveImports.1 := by
    rw [resolveImports_eq]
    exact Keeps.foldl (fun g id => .setKind (NodeKind.header?_qualify ..)) f _
  -- every reachable node is qualified once
  have hkind : ∀ x ∈ f.reachable, f.resolveImports.1.kind x = (f.kind x).qualify f.qualified? := by
    rw [resolveImports_eq, foldReachable, h.reachable_eq]
    exact (foldl_setKind (NodeKind.qualify f.qualified?) h.holds.nodup h.holds.lt_size).2
  refine outlines_map hkeeps.templates_eq hkeeps.span_eq (fun id _ => ?_) fun id hid => ?_
  · rw [hkeeps.view_eq, Option.map_id]
    rfl
  · rw [forwardings, forwardings, hretouched.descendants_eq, List.map_filterMap]
    refine List.filterMap_congr fun x hx => ?_
    have hreachable : x ∈ f.reachable :=
      List.mem_flatMap.mpr ⟨id, hid, List.mem_cons_of_mem id hx⟩
    rw [hkind x hreachable, NodeKind.forwarding?_qualify]

/-! ### Types of parameters -/

end TemplateFile

/-- The declaration with its type resolved. -/
def ParamDecl.resolved (types : TypeRegistry) (p : ParamDecl) : ParamDecl :=
  { p with type := some (resolveType types p.span p.typeExpr).1 }

/-- The header with the types of its parameters resolved. -/
def Template.resolved (types : TypeRegistry) (t : Template) : Template :=
  { t with params := t.params.map (·.resolved types) }

/-- The types of the parameters are resolved one by one. -/
theorem typeParams_fst (types : TypeRegistry) (scope : TypeScope) (ps : List ParamDecl) :
    (typeParams types scope ps).1 = ps.map (·.resolved types) := by
  induction ps generalizing scope with
  | nil => rfl
  | cons p ps ih => exact congrArg (p.resolved types :: ·) (ih _)

/-- Typing a header resolves it. -/
theorem header_typeHeader (types : TypeRegistry) (r : Resolver) (t : Template) :
    (typeHeader types r t).1.header = t.header.resolved types :=
  congrArg (fun params => { t with params, state := [], body := [] }) (typeParams_fst types [] t.params)

/-- What has a header is a template. -/
theorem NodeKind.exists_of_header? {k : NodeKind} {header : Template} (h : k.header? = some header) :
    ∃ t, k = .template t ∧ t.header = header := by
  cases k with
  | template t => exact ⟨t, rfl, Option.some.inj h⟩
  | _ => cases h

namespace TemplateFile

variable {f g : TemplateFile} {ts : Forest}

/-- Only nodes in the table have headers. -/
theorem lt_size_of_header? {id : NodeId} {header : Template}
    (h : (f.kind id).header? = some header) : id < f.nodes.size := by
  by_contra hle
  rw [kind_of_size_le (Nat.not_lt.mp hle)] at h
  cases h

/-- **Typing one template** resolves its header and leaves the other headers and all calls alone. -/
theorem typeTemplate_headers {s : Settings} {id : NodeId} {t : Template}
    (hid : (g.kind id).header? = some t.header) :
    Keeps NodeKind.forwarding? g (g.typeTemplate s id t).1 ∧
      ((g.typeTemplate s id t).1.kind id).header? = some (t.header.resolved s.types) ∧
      ∀ x, x ≠ id → ((g.typeTemplate s id t).1.kind x).header? = (g.kind x).header? := by
  -- the header is set first; typing the nodes below it changes expressions only
  obtain ⟨t', ht', scope, hfile⟩ : ∃ t', t'.header = t.header.resolved s.types ∧ ∃ scope,
      (g.typeTemplate s id t).1 =
        (typeNodes s.plugins g.nodes.size scope (g.setKind id (.template t')) t'.body).1 :=
    ⟨_, header_typeHeader s.types s.plugins t, _, rfl⟩
  have hnodes : Keeps NodeKind.profile (g.setKind id (.template t')) (g.typeTemplate s id t).1 := by
    rw [hfile]
    exact (typeNodes_rewritten ..).keeps NodeKind.profile_mapExprs
  obtain ⟨u, hu, -⟩ := NodeKind.exists_of_header? hid
  refine ⟨?_, ?_, fun x hx => ?_⟩
  · have hset : Keeps NodeKind.forwarding? g (g.setKind id (.template t')) := .setKind (by rw [hu]; rfl)
    exact hset.trans (hnodes.comp Prod.snd)
  · rw [hnodes.header?_eq, kind_setKind_self g _ (lt_size_of_header? hid), ← ht']
    rfl
  · rw [hnodes.header?_eq, kind_setKind_of_ne g _ (Ne.symm hx)]

/-- **Typing templates** one after the other resolves the header of each. -/
theorem typeTemplates_headers {s : Settings} {ps : List (NodeId × Template)}
    {x : TemplateFile × TypeProblems} (hnodup : (ps.map (·.1)).Nodup)
    (hps : ∀ p ∈ ps, (x.1.kind p.1).header? = some p.2.header) :
    ∃ y : TemplateFile × TypeProblems, ps.foldl (fun (x : TemplateFile × TypeProblems) p =>
        ((x.1.typeTemplate s p.1 p.2).1, x.2 ++ (x.1.typeTemplate s p.1 p.2).2)) x = y ∧
      Keeps NodeKind.forwarding? x.1 y.1 ∧
      (∀ p ∈ ps, (y.1.kind p.1).header? = some (p.2.header.resolved s.types)) ∧
      ∀ id, id ∉ ps.map (·.1) → (y.1.kind id).header? = (x.1.kind id).header? := by
  induction ps generalizing x with
  | nil => exact ⟨x, rfl, .refl _ _, fun _ hp => (nomatch hp), fun _ _ => rfl⟩
  | cons p ps ih =>
    obtain ⟨hp, hnodup⟩ := List.nodup_cons.mp hnodup
    obtain ⟨hhead, hrest⟩ := List.forall_mem_cons.mp hps
    obtain ⟨hkeeps, hset, hothers⟩ := typeTemplate_headers (s := s) hhead
    -- the templates are different ones, so the others still have their headers after this one
    have hne : ∀ q ∈ ps, q.1 ≠ p.1 := fun q hq heq => hp (List.mem_map.mpr ⟨q, hq, heq⟩)
    obtain ⟨y, hy, hkeeps', hset', hothers'⟩ := @ih
      ((x.1.typeTemplate s p.1 p.2).1, x.2 ++ (x.1.typeTemplate s p.1 p.2).2) hnodup
      fun q hq => (hothers q.1 (hne q hq)).trans (hrest q hq)
    refine ⟨y, hy, hkeeps.trans hkeeps', List.forall_mem_cons.mpr ⟨?_, hset'⟩, fun id hid => ?_⟩
    · rw [hothers' p.1 hp]
      exact hset
    · obtain ⟨hid, hids⟩ := List.ne_and_not_mem_of_not_mem_cons hid
      rw [hothers' id hids]
      exact hothers id hid

/-- The declared templates are those that the file lists and the table has. -/
theorem mem_declared {id : NodeId} {t : Template} :
    (id, t) ∈ f.declared ↔ id ∈ f.templates ∧ f.kind id = .template t := by
  refine ⟨kind_of_mem_declared, fun ⟨hid, hkind⟩ => List.mem_filterMap.mpr ⟨id, hid, ?_⟩⟩
  rw [template?_eq_some.mpr hkind]
  rfl

/-- They come in the order of the file. -/
theorem map_fst_declared_sublist (f : TemplateFile) : (f.declared.map (·.1)).Sublist f.templates := by
  unfold declared
  induction f.templates with
  | nil => exact .slnil
  | cons id ids ih =>
    -- an id is kept if its node is a template
    cases htemplate : f.template? id with
    | none =>
      simp only [List.filterMap_cons, htemplate, Option.map_none]
      exact ih.cons id
    | some t =>
      simp only [List.filterMap_cons, htemplate, Option.map_some, List.map_cons]
      exact ih.cons_cons id

/-- **Types resolved**: the types in the headers of the outlines are. -/
theorem Planted.outlines_resolveTypes (h : f.Planted ts) (s : Settings) :
    (f.resolveTypes s).1.outlines = f.outlines.map (·.map (·.resolved s.types) id) := by
  have hdeclared : ∀ p ∈ f.declared, (f.kind p.1).header? = some p.2.header := by
    intro p hp
    rw [(kind_of_mem_declared hp).2]
    rfl
  have hnodup : (f.declared.map (·.1)).Nodup :=
    f.map_fst_declared_sublist.nodup (h.roots_eq ▸ h.holds.nodup.sublist (Forest.roots_sublist_ids ts))
  obtain ⟨y, hy, hkeeps, hset, hothers⟩ :=
    @typeTemplates_headers s f.declared (f, []) hnodup hdeclared
  have hfile : (f.resolveTypes s).1 = y.1 := by
    rw [← hy]
    rfl
  have hretouched := resolveTypes_retouched s f
  rw [hfile] at hretouched ⊢
  refine outlines_map hkeeps.templates_eq hkeeps.span_eq (fun id hid => ?_) fun id _ => ?_
  -- a number that names no template is none of those that were typed
  · cases hheader : (f.kind id).header? with
    | none =>
      rw [hothers id, hheader]
      · rfl
      · intro hmem
        obtain ⟨p, hp, rfl⟩ := List.mem_map.mp hmem
        rw [hdeclared p hp] at hheader
        cases hheader
    -- a template has its header typed
    | some header =>
      obtain ⟨t, ht, rfl⟩ := NodeKind.exists_of_header? hheader
      rw [hset (id, t) (mem_declared.mpr ⟨hid, ht⟩)]
      rfl
  · rw [forwardings, forwardings, hretouched.descendants_eq, List.map_id]
    exact List.filterMap_congr fun x _ => hkeeps.view_eq x

end TemplateFile

/-! ### Passes on single files -/

/-- The outline of a template of a file after a pass. -/
def Outline.after (s : Settings) (f : TemplateFile) (x : Outline) : Pass → Outline
  | .resolveImports => x.map id (·.qualify f.qualified?)
  | .resolveTypes => x.map (·.resolved s.types) id
  | _ => x

/-- The outline of a template of a file after several passes. -/
def Outline.afterAll (s : Settings) (f : TemplateFile) (ps : List Pass) (x : Outline) : Outline :=
  ps.foldl (·.after s f) x

/-- Whether the pass changes what the registry is told. -/
def Pass.changesOutlines : Pass → Bool
  | .resolveImports | .resolveTypes => true
  | _ => false

/-- Passes that leave outlines alone can be left out. -/
theorem Outline.afterAll_filter (s : Settings) (f : TemplateFile) (ps : List Pass) (x : Outline) :
    x.afterAll s f (ps.filter Pass.changesOutlines) = x.afterAll s f ps := by
  unfold afterAll
  rw [List.foldl_filter]
  congr 1
  funext x p
  cases p <;> rfl

namespace TemplateFile

variable {f g : TemplateFile}

/-- **One pass on single files**, seen by the registry. -/
theorem Rooted.outlines_runPass (h : f.Rooted) (s : Settings) (p : Pass) :
    (f.runPass s p).1.outlines = f.outlines.map (·.after s f p) := by
  obtain ⟨ts, hts, -⟩ := h
  cases p with
  | desugarSyntax => exact hts.outlines_desugarSyntax.trans (List.map_id' _).symm
  | resolveImports => exact hts.outlines_resolveImports
  | resolveGlobals => exact (resolveGlobals_rewritten s f).outlines_eq.trans (List.map_id' _).symm
  | resolvePlugins => exact (resolvePlugins_rewritten s f).outlines_eq.trans (List.map_id' _).symm
  | resolveTypes => exact hts.outlines_resolveTypes s
  | _ => exact (List.map_id' _).symm

/-- What a pass does to an outline depends on the names that the file declares, not on its nodes. -/
theorem after_congr (hrest : { g with nodes := f.nodes } = f) (s : Settings) (x : Outline) (p : Pass) :
    x.after s g p = x.after s f p := by
  cases p with
  | resolveImports =>
    unfold Outline.after
    rw [qualified?_congr hrest]
  | _ => rfl

/-- **Passes on single files**, one after the other, seen by the registry. -/
theorem Rooted.outlines_runPasses (h : f.Rooted) (s : Settings) (ps : List Pass) :
    (f.runPasses s ps).1.outlines = f.outlines.map (·.afterAll s f ps) := by
  induction ps generalizing f with
  | nil => exact (List.map_id' _).symm
  | cons p ps ih =>
    have hsame : Outline.after s (f.runPass s p).1 = Outline.after s f :=
      funext₂ fun x q => after_congr (runPass_sameKeys s p f).rest_eq s x q
    rw [runPasses_cons, ih (h.runPass s p), h.outlines_runPass, List.map_map]
    unfold Outline.afterAll
    rw [hsame]
    rfl

end TemplateFile

namespace Settings

/-- Files are registered alike with both settings: the types that they know are the same, and so are
the passes that change what the registry is told. -/
structure RegistersAs (s s' : Settings) : Prop where
  types_eq : s.types = s'.types
  passes_eq : (s.planned.filter (·.scope == .file)).filter Pass.changesOutlines =
    (s'.planned.filter (·.scope == .file)).filter Pass.changesOutlines

/-- **Prepared in two ways**, a file has the same interfaces. -/
theorem RegistersAs.interfaces_prepared {s s' : Settings} (h : s.RegistersAs s') {f : TemplateFile}
    (hf : f.Rooted) : (s.prepared f).interfaces = (s'.prepared f).interfaces := by
  -- of the settings a pass needs only the types, which are the same
  have hafter : ∀ x : Outline, ∀ p, x.after s f p = x.after s' f p := by
    intro x p
    cases p with
    | resolveTypes =>
      unfold Outline.after
      rw [h.types_eq]
    | _ => rfl
  have houtlines : (s.prepared f).outlines = (s'.prepared f).outlines := by
    rw [prepared, prepared, hf.outlines_runPasses, hf.outlines_runPasses]
    refine List.map_congr_left fun x _ => ?_
    rw [← Outline.afterAll_filter, h.passes_eq, Outline.afterAll_filter, Outline.afterAll,
      Outline.afterAll, funext₂ hafter]
  have hrest := TemplateFile.rest_trans (TemplateFile.rest_symm (s'.prepared_sameKeys f).rest_eq)
    (s.prepared_sameKeys f).rest_eq
  exact TemplateFile.interfaces_congr hrest houtlines

end Settings

end TemplateFrontend
