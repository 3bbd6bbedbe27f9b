import TemplateFrontend.Proofs.Transform.ConstantPrints
import TemplateFrontend.Proofs.Compiler.Forests
import TemplateFrontend.Proofs.Transform.Escaped
/-!
# Escaping the prints of constants

Simplification turns the print of a constant into text if HTML needs no other way to write it, whatever
the context of the print asks for. Escaping then finds a print only where the constant holds one of the
five characters that HTML writes in another way.

* `escaped_of_passes` — what escaping leaves of the files of a run, whatever passes ran before;
* `TemplateFile.ConstantEscaped` — what becomes of the print of a constant that is simplified and escaped;
* `constantEscaped_of_passes` — this is so for the files of a run, whatever passes ran before.
-/

namespace TemplateFrontend

open Forest

namespace TemplateFile

theorem Rooted.escaped {f : TemplateFile} (h : f.Rooted) :
    Escaped f f.insertEscapingDirectives ∧
      f.insertEscapingDirectives.insertEscapingDirectives = f.insertEscapingDirectives := by
  obtain ⟨ts, hts, -⟩ := h
  exact ⟨hts.escaped, hts.insertEscapingDirectives_twice⟩

end TemplateFile

/-- **Every print is escaped.** Whatever passes on single files and on all files run over parsed sources, in
whatever order, escaping then gives each reachable print the directives of its context, unless it has some
about escaping, leaves everything else alone, and changes nothing the second time. -/
theorem escaped_of_passes {fs : FileSet} (h : ∀ f ∈ fs, ∃ source, parse source = .ok f)
    (s : Settings) (r : Registry) (ps qs : List Pass) :
    ∀ g ∈ (FileSet.runPasses s r qs (fs.runFilePasses s ps).1).1,
      TemplateFile.Escaped g g.insertEscapingDirectives ∧
        g.insertEscapingDirectives.insertEscapingDirectives = g.insertEscapingDirectives := by
  intro g hg
  exact (rooted_of_passes h s r ps qs g hg).escaped

/-- Prints in an address, in a branch inside a parameter, in the content of a `{let}`, with a directive of
their own, and at the top of a template. -/
def nestedPrints : SourceText :=
  ⟨"a.st", "\x7bnamespace a\x7d\x7btemplate .t\x7d\x7b@param x: string\x7d<a HREF=\"\x7b$x\x7d\">" ++
    "\x7bcall .t\x7d\x7bparam x kind=\"js\"\x7d\x7bif $x\x7d\x7b$x\x7d\x7b/if\x7d\x7b/param\x7d" ++
    "\x7b/call\x7d\x7blet $y kind=\"css\"\x7d\x7b$x\x7d\x7b/let\x7d\x7b$x |noAutoescape\x7d" ++
    "\x7b$x\x7d\x7b/template\x7d"⟩

/-- The directives of the reachable prints of a file. -/
def TemplateFile.printDirectives (f : TemplateFile) : List (List String) :=
  f.reachable.filterMap fun id =>
    match f.kind id with
    | .print _ ds => some (ds.map (·.name))
    | _ => none

theorem escaped_of_passes_nestedPrints : ∃ f g, parse nestedPrints = .ok f ∧
    (FileSet.runPasses (.default default) .empty [.optimize]
      (FileSet.runFilePasses (.default default) [.desugarSyntax] [f]).1).1 = [g] ∧
    g.printDirectives = [[], [], [], ["noAutoescape"], []] ∧
    g.insertEscapingDirectives.printDirectives =
      [["filterNormalizeUri", "escapeHtmlAttribute"], ["escapeJsValue"], ["filterCssValue"],
        ["noAutoescape"], ["escapeHtml"]] ∧
    TemplateFile.Escaped g g.insertEscapingDirectives ∧
      g.insertEscapingDirectives.insertEscapingDirectives = g.insertEscapingDirectives := by
  -- both lists of directives, before and after the pass, by one evaluation
  have hrun : (parse nestedPrints).toOption.map (fun f =>
      (FileSet.runPasses (.default default) .empty [.optimize]
        (FileSet.runFilePasses (.default default) [.desugarSyntax] [f]).1).1.map fun g =>
          (g.printDirectives, g.insertEscapingDirectives.printDirectives)) =
      some [([[], [], [], ["noAutoescape"], []],
        [["filterNormalizeUri", "escapeHtmlAttribute"], ["escapeJsValue"], ["filterCssValue"],
          ["noAutoescape"], ["escapeHtml"]])] := by decide +kernel
  obtain ⟨f, hp, hf⟩ := exists_of_toOption_map hrun
  obtain ⟨g, hfiles, hg⟩ := List.map_eq_singleton_iff.mp hf
  obtain ⟨hbefore, hafter⟩ := Prod.mk.inj hg
  refine ⟨f, g, hp, hfiles, hbefore, hafter, ?_⟩
  refine escaped_of_passes (List.forall_mem_singleton.mpr ⟨nestedPrints, hp⟩)
    (.default default) .empty [.desugarSyntax] [.optimize] g ?_
  exact hfiles ▸ List.mem_singleton_self g

/-! ### Prints of constants -/

namespace NodeKind

variable {e : Expr} {v : Literal}

/-- What is to be done with the print depends on its text only. -/
theorem verdict_print (hv : e.literal? = some v) : (print e []).verdict =
    if needsEscaping v.output then .kept (.print e [])
    else if v.output = "" then .dropped else .text v.output := by
  rw [verdict, hv]

theorem keptPrint?_print (hv : e.literal? = some v) : (print e []).keptPrint? =
    if needsEscaping v.output then some (e, []) else none := by
  rw [keptPrint?, verdict_print hv]
  by_cases hneeds : needsEscaping v.output = true
  · rw [if_pos hneeds, if_pos hneeds]
    rfl
  · rw [if_neg hneeds, if_neg hneeds]
    by_cases hempty : v.output = ""
    · rw [if_pos hempty]
    · rw [if_neg hempty]

end NodeKind

namespace TemplateFile

/-- **The print of a constant** in a context, from a file to the file simplified and then escaped. -/
structure ConstantEscaped (f g : TemplateFile) (id : NodeId) (c : OutputContext) (e : Expr) (v : Literal) :
    Prop where
  /-- It is a print afterwards if constants leave it and HTML writes it in another way. -/
  print_iff : (∃ e' ds, g.Reaches id ∧ g.kind id = .print e' ds) ↔
    (f.mapExprs Expr.fold).Remains id ∧ needsEscaping v.output = true
  /-- That print has the directives of the context. -/
  kind_eq : (f.mapExprs Expr.fold).Remains id → needsEscaping v.output = true →
    g.InContext id c ∧
      g.kind id = .print e.fold (c.directives.map fun name => ⟨name, [], g.span id⟩)
  /-- Otherwise it is plain text in the same context. -/
  exists_text : (f.mapExprs Expr.fold).Remains id → needsEscaping v.output = false → v.output ≠ "" →
    ∃ i front back, g.InContext i c ∧ g.kind i = .text (front ++ v.output ++ back)

section Constant

variable {f : TemplateFile} {ts : Forest} {id : NodeId} {c : OutputContext} {e : Expr} {v : Literal}

/-- The print of a constant that needs escaping, after both passes. -/
theorem Planted.kind_of_needsEscaping (h : f.Planted ts) (hc : f.InContext id c)
    (hk : f.kind id = .print e []) (hv : e.fold.literal? = some v)
    (hremains : (f.mapExprs Expr.fold).Remains id) (hneeds : needsEscaping v.output = true) :
    f.optimize.insertEscapingDirectives.InContext id c ∧
      f.optimize.insertEscapingDirectives.kind id = .print e.fold (c.directives.map fun name =>
        ⟨name, [], f.optimize.insertEscapingDirectives.span id⟩) := by
  have hopt := h.optimize
  have hkept : ((f.kind id).mapExprs Expr.fold).keptPrint? = some (e.fold, []) := by
    rw [hk]
    exact (NodeKind.keptPrint?_print hv).trans (if_pos hneeds)
  obtain ⟨hcontext, hprint⟩ := h.print_optimize_iff.mpr ⟨hc, hremains, hkept⟩
  refine ⟨hopt.inContext_insertEscapingDirectives hcontext, ?_⟩
  rw [hopt.escaped.span_eq]
  exact hopt.escaped.kind_of_print (hopt.reaches_of_inContext hcontext) hprint hcontext rfl

/-- A print after both passes is one that simplification kept. -/
theorem Planted.needsEscaping_of_print (h : f.Planted ts) (hk : f.kind id = .print e [])
    (hv : e.fold.literal? = some v) (hid : f.optimize.insertEscapingDirectives.Reaches id) {e' : Expr}
    {ds : List Directive} (hprint : f.optimize.insertEscapingDirectives.kind id = .print e' ds) :
    (f.mapExprs Expr.fold).Remains id ∧ needsEscaping v.output = true := by
  have hescaped := h.optimize.escaped
  -- escaping makes no prints
  obtain ⟨e₁, ds₁, hbefore⟩ : ∃ e₁ ds₁, f.optimize.kind id = .print e₁ ds₁ := by
    by_contra hne
    rw [hescaped.kind_of_ne_print fun e₁ ds₁ heq => hne ⟨e₁, ds₁, heq⟩] at hprint
    exact hne ⟨e', ds, hprint⟩
  have hreach := (insertEscapingDirectives_retouched f.optimize).reaches_iff.mp hid
  obtain ⟨d, hd, -⟩ := hescaped.existsUnique_inContext hreach hbefore
  obtain ⟨-, hremains, hkept⟩ := h.print_optimize_iff.mp ⟨hd, hbefore⟩
  refine ⟨hremains, ?_⟩
  by_contra hneeds
  rw [hk] at hkept
  cases hkept.symm.trans ((NodeKind.keptPrint?_print hv).trans (if_neg hneeds))

/-- The print of any other constant is part of a text. -/
theorem Planted.exists_text_of_constant (h : f.Planted ts) (hc : f.InContext id c)
    (hk : f.kind id = .print e []) (hv : e.fold.literal? = some v)
    (hremains : (f.mapExprs Expr.fold).Remains id) (hneeds : needsEscaping v.output = false)
    (hne : v.output ≠ "") : ∃ i front back, f.optimize.insertEscapingDirectives.InContext i c ∧
      f.optimize.insertEscapingDirectives.kind i = .text (front ++ v.output ++ back) := by
  have hverdict : ((f.kind id).mapExprs Expr.fold).verdict = .text v.output := by
    rw [hk]
    refine (NodeKind.verdict_print hv).trans ?_
    rw [if_neg (by rw [hneeds]; exact Bool.false_ne_true), if_neg hne]
  obtain ⟨i, front, back, hi, htext⟩ := h.exists_text_optimize hc hremains hverdict
  refine ⟨i, front, back, h.optimize.inContext_insertEscapingDirectives hi, ?_⟩
  rw [h.optimize.escaped.kind_of_ne_print (by rw [htext]; intro _ _ heq; cases heq), htext]

theorem Planted.constantEscaped (h : f.Planted ts) (hc : f.InContext id c)
    (hk : f.kind id = .print e []) (hv : e.fold.literal? = some v) :
    ConstantEscaped f f.optimize.insertEscapingDirectives id c e v where
  print_iff := by
    constructor
    · rintro ⟨e', ds, hid, hprint⟩
      exact h.needsEscaping_of_print hk hv hid hprint
    · rintro ⟨hremains, hneeds⟩
      obtain ⟨hcontext, hprint⟩ := h.kind_of_needsEscaping hc hk hv hremains hneeds
      have hplanted := (insertEscapingDirectives_retouched f.optimize).planted h.optimize
      exact ⟨_, _, hplanted.reaches_of_inContext hcontext, hprint⟩
  kind_eq := h.kind_of_needsEscaping hc hk hv
  exists_text := h.exists_text_of_constant hc hk hv

end Constant

end TemplateFile

/-! ### Files -/

/-- **Constants are printed or plain.** Whatever passes ran over parsed sources, escaping gives the print of
a constant without directives those of its context. If the file is simplified first, this is so if and only
if constants leave the print and the constant holds a character that HTML writes in another way; every other
constant that is left becomes plain text, in whatever context. -/
theorem constantEscaped_of_passes {fs : FileSet} (h : ∀ f ∈ fs, ∃ source, parse source = .ok f)
    (s : Settings) (r : Registry) (ps qs : List Pass) {g : TemplateFile}
    (hg : g ∈ (FileSet.runPasses s r qs (fs.runFilePasses s ps).1).1) {id : NodeId} {c : OutputContext}
    {e : Expr} {v : Literal} (hc : g.InContext id c) (hk : g.kind id = .print e [])
    (hv : e.fold.literal? = some v) :
    g.insertEscapingDirectives.kind id =
        .print e (c.directives.map fun name => ⟨name, [], g.span id⟩) ∧
      TemplateFile.ConstantEscaped g g.optimize.insertEscapingDirectives id c e v := by
  obtain ⟨ts, hts, -⟩ := rooted_of_passes h s r ps qs g hg
  refine ⟨?_, hts.constantEscaped hc hk hv⟩
  exact hts.escaped.kind_of_print (hts.reaches_of_inContext hc) hk hc rfl

/-- A script as the address of a link. -/
def scriptAddress : SourceText :=
  ⟨"a.st", "\x7bnamespace a\x7d\x7btemplate .t\x7d<a href=\"\x7b'javascript:alert(1)'\x7d\"></a>" ++
    "\x7b/template\x7d"⟩

theorem parse_scriptAddress : ∃ f e, parse scriptAddress = .ok f ∧
    f.InContext 0 (.attribute true) ∧ f.kind 0 = .print e [] ∧
    e.fold.literal? = some (.string "javascript:alert(1)") ∧
    f.insertEscapingDirectives.printDirectives = [["filterNormalizeUri", "escapeHtmlAttribute"]] ∧
    f.optimize.insertEscapingDirectives.reachable = [3, 1, 0, 2] ∧
    f.optimize.insertEscapingDirectives.kind 0 = .text "javascript:alert(1)" ∧
    f.optimize.insertEscapingDirectives.printDirectives = [] := by
  -- what the source gives: contexts, the print and its constant
  have hsource : (parse scriptAddress).toOption.map (fun f => (f.contextTable,
      (f.kind 0).print?.map fun x => (x.1.fold.literal?, x.2.length))) =
      some ([(1, .html), (0, .attribute true), (2, .html)],
        some (some (.string "javascript:alert(1)"), 0)) := by decide +kernel
  -- the same print escaped without Optimize, and gone with it
  have hescaped : (parse scriptAddress).toOption.map (fun f => (
      f.insertEscapingDirectives.printDirectives, f.optimize.insertEscapingDirectives.reachable,
      (f.optimize.insertEscapingDirectives.kind 0).text?,
      f.optimize.insertEscapingDirectives.printDirectives)) =
      some ([["filterNormalizeUri", "escapeHtmlAttribute"]], [3, 1, 0, 2],
        some "javascript:alert(1)", []) := by decide +kernel
  obtain ⟨f, hp, hf⟩ := exists_of_toOption_map hsource
  obtain ⟨hcontexts, hprint⟩ := Prod.mk.inj hf
  rw [hp] at hescaped
  obtain ⟨hoff, hf⟩ := Prod.mk.inj (Option.some.inj hescaped)
  obtain ⟨hreach, hf⟩ := Prod.mk.inj hf
  obtain ⟨htext, hon⟩ := Prod.mk.inj hf
  obtain ⟨e, hprint, hv⟩ : ∃ e, (f.kind 0).print? = some (e, []) ∧
      e.fold.literal? = some (.string "javascript:alert(1)") := by
    simpa [Prod.ext_iff] using hprint
  obtain ⟨ts, hts, -⟩ := rooted_of_parse hp
  have hc : f.InContext 0 (.attribute true) := hts.mem_contextTable.mp (by rw [hcontexts]; decide)
  exact ⟨f, e, hp, hc, NodeKind.print?_eq_some.mp hprint, hv, hoff, hreach,
    NodeKind.eq_text_of_text? htext, hon⟩

/-- Without simplification the address is filtered, and with it the script stays as it is. -/
theorem constantEscaped_of_passes_scriptAddress : ∃ f e, parse scriptAddress = .ok f ∧
    f.InContext 0 (.attribute true) ∧ f.kind 0 = .print e [] ∧
    e.fold.literal? = some (.string "javascript:alert(1)") ∧
    f.insertEscapingDirectives.kind 0 =
      .print e ((OutputContext.attribute true).directives.map fun name => ⟨name, [], f.span 0⟩) ∧
    TemplateFile.ConstantEscaped f f.optimize.insertEscapingDirectives 0 (.attribute true) e
      (.string "javascript:alert(1)") := by
  obtain ⟨f, e, hp, hc, hk, hv, -⟩ := parse_scriptAddress
  have hspec := constantEscaped_of_passes (List.forall_mem_singleton.mpr ⟨scriptAddress, hp⟩)
    (.default default) .empty [] [] (List.mem_singleton_self f) hc hk hv
  exact ⟨f, e, hp, hc, hk, hv, hspec⟩

/-- The simplified file has the script as plain text in an address, and no print. -/
theorem optimize_unfilters_scriptAddress : ∃ f e, parse scriptAddress = .ok f ∧
    f.InContext 0 (.attribute true) ∧ f.kind 0 = .print e [] ∧
    e.fold.literal? = some (.string "javascript:alert(1)") ∧
    f.insertEscapingDirectives.printDirectives = [["filterNormalizeUri", "escapeHtmlAttribute"]] ∧
    0 ∈ f.optimize.insertEscapingDirectives.reachable ∧
    f.optimize.insertEscapingDirectives.kind 0 = .text "javascript:alert(1)" ∧
    f.optimize.insertEscapingDirectives.printDirectives = [] ∧
    ¬ ∃ e' ds, f.optimize.insertEscapingDirectives.Reaches 0 ∧
      f.optimize.insertEscapingDirectives.kind 0 = .print e' ds := by
  obtain ⟨f, e, hp, hc, hk, hv, hoff, hreach, htext, hon⟩ := parse_scriptAddress
  refine ⟨f, e, hp, hc, hk, hv, hoff, ?_, htext, hon, ?_⟩
  · rw [hreach]
    decide
  · rintro ⟨e', ds, -, hprint⟩
    rw [htext] at hprint
    cases hprint

end TemplateFrontend
