import TemplateFrontend.Proofs.Transform.Simplified
import TemplateFrontend.Proofs.Transform.Spelling
import TemplateFrontend.Proofs.Tree.Contexts
/-!
# Runs of texts

Which texts a simplified forest has, and where. Once constants are texts and the nodes of constant branches
stand in the lists around them, the texts that follow each other directly are one run, and every text of the
simplified forest is a run, or one that ends with repeated text.

* `Forest.leveled` — a forest simplified, except that its texts are not joined;
* `Forest.runs`, `Forest.texts` — the runs, and the texts, of a forest, each with its context;
* `Forest.extends_simplify` — the runs of the leveled forest are the texts of the simplified one;
* `Forest.remaining` — the nodes of a forest outside of the branches that constants drop;
* `Forest.prints_simplify` — the prints of the simplified forest.
-/

namespace TemplateFrontend

namespace NodeKind

/-- The text of a node that is one. -/
def text? : NodeKind → Option String
  | .text s => some s
  | _ => none

/-- The expression of a print, with its directives. -/
def print? : NodeKind → Option (Expr × List Directive)
  | .print e ds => some (e, ds)
  | _ => none

/-- The same for a print that simplification keeps. -/
def keptPrint? (k : NodeKind) : Option (Expr × List Directive) :=
  match k.verdict with
  | .kept k' => k'.print?
  | _ => none

/-- What simplification makes of a node, given what it makes of the lists inside it. -/
def level (id : NodeId) (k : NodeKind) (inner : List Forest) : Forest :=
  match k.verdict with
  | .text s => [.node id (.text s) []]
  | .kept k' => [.node id (k'.withBodies ((k.live inner).map Forest.roots)) (k.live inner)]
  | .dropped => []
  | .spliced => (k.live inner).flatten

section Live

variable {k k' : NodeKind} {bs : List Forest} {c : OutputContext}

/-- What is no text has none. -/
theorem text?_eq_none (h : ∀ s, k ≠ .text s) : k.text? = none := by
  cases k with
  | text s => exact absurd rfl (h s)
  | _ => rfl

/-- What has a text is one. -/
theorem eq_text_of_text? {s : String} (h : k.text? = some s) : k = .text s := by
  cases k with
  | text u => exact congrArg NodeKind.text (Option.some.inj h)
  | _ => cases h

/-- Other lists do not make a node a text. -/
theorem text?_withBodies (k : NodeKind) (ls : List (List NodeId)) : (k.withBodies ls).text? = k.text? := by
  cases k with
  | binding x b => cases b <;> rfl
  | _ => rfl

/-- The context of the value of an attribute depends on its name only. -/
theorem contexts_fillAttributes (as : List Attribute) (ls : List (List NodeId)) :
    ((fillAttributes as ls).filterMap fun a => a.value.map (·, OutputContext.ofAttribute a.name)).map
        Prod.snd =
      (as.filterMap fun a => a.value.map (·, OutputContext.ofAttribute a.name)).map Prod.snd := by
  induction as generalizing ls with
  | nil => rfl
  | cons a as ih =>
    obtain ⟨name, value, span⟩ := a
    cases value with
    | none => exact ih ls
    | some body =>
      cases ls with
      | nil => exact congrArg (OutputContext.ofAttribute name :: ·) (ih [])
      | cons l ls => exact congrArg (OutputContext.ofAttribute name :: ·) (ih ls)

/-- The context of a parameter depends on the kind of its content only. -/
theorem contexts_fillPassed (call : Call) (ls : List (List NodeId)) :
    ((NodeKind.call { call with passed := fillPassed call.passed ls }).contextsInside c) =
      (NodeKind.call call).contextsInside c := by
  obtain ⟨callee, delegate, variant, passesAll, ps⟩ := call
  rw [contextsInside, contextsInside, bodiesWithContext, bodiesWithContext]
  dsimp only
  induction ps generalizing ls with
  | nil => rfl
  | cons p ps ih =>
    obtain ⟨name, bound, span⟩ := p
    -- a value has no list of its own, and the context of content is that of its kind
    cases bound with
    | value e => exact ih ls
    | content kind body =>
      cases ls with
      | nil => exact congrArg (OutputContext.ofContent kind :: ·) (ih [])
      | cons l ls => exact congrArg (OutputContext.ofContent kind :: ·) (ih ls)

/-- Other lists do not make a node a print. -/
theorem print?_withBodies (k : NodeKind) (ls : List (List NodeId)) :
    (k.withBodies ls).print? = k.print? := by
  cases k with
  | binding x b => cases b <;> rfl
  | _ => rfl

/-- A print is what has the expression of one. -/
theorem print?_eq_some {e : Expr} {ds : List Directive} : k.print? = some (e, ds) ↔ k = .print e ds := by
  cases k <;> simp [print?]

/-- Other lists in a node have the contexts of the lists before. -/
theorem contextsInside_withBodies (c : OutputContext) (k : NodeKind) {ls : List (List NodeId)}
    (hlen : ls.length = k.bodies.length) : (k.withBodies ls).contextsInside c = k.contextsInside c := by
  -- most kinds hand on their context; tags, bindings and calls choose one for each list
  by_cases hk : k.isTransparent = true
  · have hk' : (k.withBodies ls).isTransparent = true := by
      cases k with
      | openTag | binding | call => cases hk
      | _ => rfl
    rw [contextsInside_of_transparent hk, contextsInside_of_transparent hk', k.bodies_withBodies ls hlen,
      hlen]
  · cases k with
    | openTag name attributes closed => exact contexts_fillAttributes attributes ls
    | binding x b => cases b <;> rfl
    | call call => exact contexts_fillPassed call ls
    | _ => exact absurd rfl hk

/-- The lists of a node that is kept have the same contexts, whatever became of the nodes in them. -/
theorem contextsInside_of_kept (h : k.verdict = .kept k') (hlen : bs.length = k.bodies.length)
    (g : Forest → Forest) (c : OutputContext) :
    (k'.withBodies (((k.live bs).map g).map Forest.roots)).contextsInside c = k'.contextsInside c := by
  refine contextsInside_withBodies c k' ?_
  rw [List.length_map, List.length_map, bodies_of_kept h, k.length_live hlen]

/-- A node without lists has no live ones. -/
theorem live_zip_of_leaf (hk : k.bodies = []) (hlen : bs.length = k.bodies.length) :
    k.live (bs.zip (k.contextsInside c)) = [] := by
  rw [hk] at hlen
  rw [List.length_eq_zero_iff.mp hlen, List.zip_nil_left]
  exact List.sublist_nil.mp (k.live_sublist [])

/-- The live lists of a node that is kept, with their contexts. -/
theorem live_zip_of_kept (h : k.verdict = .kept k') (hlen : bs.length = k.bodies.length) :
    k.live (bs.zip (k.contextsInside c)) = (k.live bs).zip (k'.contextsInside c) := by
  -- a kind that is left as it is keeps all lists; a conditional hands on its context to those it keeps
  rcases verdict_eq_kept h with ⟨rfl, -, hcond⟩ | ⟨branches, o, rfl, rfl⟩
  · have hlive : ∀ {α : Type} (ls : List α), k'.live ls = ls := fun ls => by
      unfold live
      split
      · exact absurd rfl (hcond _ _)
      · rfl
    rw [hlive, hlive]
  · have hlen' : ((NodeKind.conditional branches o).live bs).length =
        (NodeKind.conditional (prune branches o).1 (prune branches o).2).bodies.length := by
      rw [length_live _ hlen, ← bodies_of_kept h]
    rw [zip_contextsInside_of_transparent rfl hlen, zip_contextsInside_of_transparent rfl hlen',
      live_map]

/-- The live list of a node that makes way for the nodes inside it has the context of the node. -/
theorem live_zip_of_spliced (h : k.verdict = .spliced) (hlen : bs.length = k.bodies.length) :
    k.live (bs.zip (k.contextsInside c)) = (k.live bs).map (·, c) := by
  obtain ⟨branches, o, rfl, -⟩ := verdict_eq_spliced h
  rw [zip_contextsInside_of_transparent rfl hlen, live_map]

end Live

end NodeKind

mutual

/-- What simplification makes of a node, with texts as they are before they are joined. -/
def NodeTree.leveled : NodeTree → Forest
  | .node id k bodies => k.level id (Forest.leveledAll bodies)

/-- What simplification makes of a list of nodes, with texts as they are before they are joined. -/
def Forest.leveled : Forest → Forest
  | [] => []
  | t :: ts => t.leveled ++ Forest.leveled ts

/-- What simplification makes of several lists. -/
def Forest.leveledAll : List Forest → List Forest
  | [] => []
  | b :: bs => Forest.leveled b :: Forest.leveledAll bs

end

mutual

/-- The runs of texts inside a node, each with its context. -/
def NodeTree.runs (c : OutputContext) : NodeTree → List (String × OutputContext)
  | .node _ k bodies => Forest.runsAll (k.contextsInside c) bodies

/-- The runs of texts in a list and below it, each with its context; `after` tells that the list follows a
text, which the texts at its start belong to. -/
def Forest.runs (c : OutputContext) : (after : Bool) → Forest → List (String × OutputContext)
  | _, [] => []
  | after, t :: ts =>
    match t.kind.text? with
    | some s => (if after then [] else [(s ++ Forest.lead ts, c)]) ++ Forest.runs c true ts
    | none => t.runs c ++ Forest.runs c false ts

/-- The runs of texts in several lists, each list in a context of its own. -/
def Forest.runsAll : List OutputContext → List Forest → List (String × OutputContext)
  | c :: cs, b :: bs => Forest.runs c false b ++ Forest.runsAll cs bs
  | _, _ => []

end

mutual

/-- The node and what constants leave of the nodes below it, each with its context. -/
def NodeTree.remaining (c : OutputContext) : NodeTree → List (NodeTree × OutputContext)
  | .node id k bodies =>
    (.node id k bodies, c) :: (k.live (Forest.remainingAll (k.contextsInside c) bodies)).flatten

/-- The nodes of a list and what constants leave of the nodes below it, each with its context. -/
def Forest.remaining (c : OutputContext) : Forest → List (NodeTree × OutputContext)
  | [] => []
  | t :: ts => t.remaining c ++ Forest.remaining c ts

/-- What constants leave of several lists, each list in a context of its own. -/
def Forest.remainingAll : List OutputContext → List Forest → List (List (NodeTree × OutputContext))
  | c :: cs, b :: bs => Forest.remaining c b :: Forest.remainingAll cs bs
  | _, _ => []

end

namespace Forest

/-- The texts of a forest, each with its context. -/
def texts (c : OutputContext) (ts : Forest) : List (String × OutputContext) :=
  (contexts c ts).filterMap fun p => p.1.kind.text?.map (·, p.2)

section Equations

variable {c : OutputContext} {ts us : Forest} {id : NodeId} {k k' : NodeKind} {s : String}

/-- Several lists are leveled one by one. -/
theorem leveledAll_eq_map (bs : List Forest) : leveledAll bs = bs.map leveled := by
  induction bs with
  | nil => rfl
  | cons b bs ih => rw [leveledAll, ih, List.map_cons]

/-- The first node is leveled, with what is made of its lists, and then the others. -/
@[simp] theorem leveled_cons (id : NodeId) (k : NodeKind) (bs : List Forest) (ts : Forest) :
    leveled (.node id k bs :: ts) = k.level id (bs.map leveled) ++ leveled ts := by
  rw [leveled, NodeTree.leveled, leveledAll_eq_map]

/-- A text stays by itself. -/
theorem level_of_text (h : k.verdict = .text s) (inner : List Forest) :
    k.level id inner = [.node id (.text s) []] := by
  rw [NodeKind.level, h]

/-- What is dropped leaves nothing. -/
theorem level_of_dropped (h : k.verdict = .dropped) (inner : List Forest) : k.level id inner = [] := by
  rw [NodeKind.level, h]

/-- What is kept has its live lists leveled. -/
theorem level_of_kept (h : k.verdict = .kept k') (bs : List Forest) :
    k.level id (bs.map leveled) =
      [.node id (k'.withBodies (((k.live bs).map leveled).map roots)) ((k.live bs).map leveled)] := by
  rw [NodeKind.level, h, k.live_map]

/-- What makes way leaves what its live list is leveled to. -/
theorem level_of_spliced (h : k.verdict = .spliced) (bs : List Forest) :
    k.level id (bs.map leveled) = (k.live bs).flatMap leveled := by
  rw [NodeKind.level, h, k.live_map, List.flatMap_def]

/-- The runs of several lists, each in its own context. -/
theorem runsAll_eq_flatMap (cs : List OutputContext) (bs : List Forest) :
    runsAll cs bs = (bs.zip cs).flatMap fun p => runs p.2 false p.1 := by
  induction bs generalizing cs with
  | nil => cases cs <;> rfl
  | cons b bs ih =>
    cases cs with
    | nil => rfl
    | cons c cs => rw [runsAll, ih, List.zip_cons_cons, List.flatMap_cons]

/-- A list that starts with no text leads with none. -/
theorem lead_of_text?_eq_none {t : NodeTree} (ht : t.kind.text? = none) (ts : Forest) :
    lead (t :: ts) = "" := by
  obtain ⟨id, k, bs⟩ := t
  cases k with
  | text s => cases ht
  | _ => rfl

@[simp] theorem runs_nil (c : OutputContext) (after : Bool) : runs c after [] = [] := by
  cases after <;> rfl

/-- A text starts a run with the texts behind it, unless it is part of one already. -/
theorem runs_text (c : OutputContext) (after : Bool) (id : NodeId) (s : String) (bs : List Forest)
    (ts : Forest) : runs c after (.node id (.text s) bs :: ts) =
      (if after then [] else [(s ++ lead ts, c)]) ++ runs c true ts := rfl

/-- Any other node ends a run, and has the runs inside it. -/
theorem runs_other (c : OutputContext) (after : Bool) {t : NodeTree} (ht : t.kind.text? = none)
    (ts : Forest) : runs c after (t :: ts) = t.runs c ++ runs c false ts := by
  rw [runs, ht]

/-- What constants leave of several lists, each in its own context. -/
theorem remainingAll_eq_map (cs : List OutputContext) (bs : List Forest) :
    remainingAll cs bs = (bs.zip cs).map fun p => remaining p.2 p.1 := by
  induction bs generalizing cs with
  | nil => cases cs <;> rfl
  | cons b bs ih =>
    cases cs with
    | nil => rfl
    | cons c cs => rw [remainingAll, ih, List.zip_cons_cons, List.map_cons]

@[simp] theorem remaining_nil (c : OutputContext) : remaining c [] = [] := rfl

/-- The first node remains, with what remains of its live lists, and then the others. -/
@[simp] theorem remaining_cons (c : OutputContext) (id : NodeId) (k : NodeKind) (bs : List Forest)
    (ts : Forest) : remaining c (.node id k bs :: ts) =
      (.node id k bs, c) :: ((k.live (bs.zip (k.contextsInside c))).flatMap
        (fun p => remaining p.2 p.1) ++ remaining c ts) := by
  rw [remaining, NodeTree.remaining, remainingAll_eq_map, k.live_map, List.flatMap_def]
  rfl

/-- The texts of two lists are those of the one and then those of the other. -/
theorem texts_append (c : OutputContext) (ts us : Forest) :
    texts c (ts ++ us) = texts c ts ++ texts c us := by
  rw [texts, contexts_append, List.filterMap_append]
  rfl

/-- The texts of the first node come first. -/
theorem texts_cons (c : OutputContext) (t : NodeTree) (ts : Forest) :
    texts c (t :: ts) = texts c [t] ++ texts c ts := texts_append c [t] ts

theorem texts_text (c : OutputContext) (id : NodeId) (s : String) :
    texts c [.node id (.text s) []] = [(s, c)] := rfl

/-- The texts inside a node that is none. -/
theorem texts_other (c : OutputContext) (id : NodeId) (hk : k.text? = none) (bs : List Forest) :
    texts c [.node id k bs] = (bs.zip (k.contextsInside c)).flatMap fun p => texts p.2 p.1 := by
  rw [texts, contexts_cons, contexts_nil, List.append_nil,
    List.filterMap_cons_none (by rw [NodeTree.kind_node, hk]; rfl), List.filterMap_flatMap]
  rfl

end Equations

/-! ### Runs become texts -/

/-- To every element of the one list belongs one of the other. -/
theorem exists_mem_of_forall₂ {α β : Type} {R : α → β → Prop} {as : List α} {bs : List β}
    (h : List.Forall₂ R as bs) : ∀ a ∈ as, ∃ b ∈ bs, R a b := by
  induction h with
  | nil => exact fun _ ha => absurd ha List.not_mem_nil
  | cons hab _ ih =>
    refine List.forall_mem_cons.mpr ⟨⟨_, List.mem_cons_self, hab⟩, fun a ha => ?_⟩
    obtain ⟨b, hb, hR⟩ := ih a ha
    exact ⟨b, List.mem_cons_of_mem _ hb, hR⟩

/-- The texts are the runs, one by one, each perhaps with more behind it; with nothing more if nothing is
repeated. -/
abbrev Extends (repeats : Bool) : List (String × OutputContext) → List (String × OutputContext) → Prop :=
  List.Forall₂ fun run text =>
    ∃ again, text = (run.1 ++ again, run.2) ∧ (repeats = false → again = "")

section Extends

variable {r r' : Bool} {runs texts runs' texts' : List (String × OutputContext)}

/-- It may be allowed that more is repeated. -/
theorem Extends.mono (h : Extends r runs texts) (hr : r' = false → r = false) :
    Extends r' runs texts :=
  h.imp fun _ _ ⟨again, htext, hagain⟩ => ⟨again, htext, fun h => hagain (hr h)⟩

/-- Runs after runs, and texts after texts. -/
theorem Extends.append (h : Extends r runs texts) (h' : Extends r' runs' texts') :
    Extends (r || r') (runs ++ runs') (texts ++ texts') :=
  List.rel_append (h.mono fun hr => (Bool.or_eq_false_iff.mp hr).1)
    (h'.mono fun hr => (Bool.or_eq_false_iff.mp hr).2)

/-- The same for as many lists as there are. -/
theorem Extends.flatMap {α : Type} {l : List α} {p : α → Bool}
    {f g : α → List (String × OutputContext)} (h : ∀ a ∈ l, Extends (p a) (f a) (g a)) :
    Extends (l.any p) (l.flatMap f) (l.flatMap g) := by
  induction l with
  | nil => exact .nil
  | cons a l ih =>
    obtain ⟨ha, hl⟩ := List.forall_mem_cons.mp h
    rw [List.flatMap_cons, List.flatMap_cons, List.any_cons]
    exact ha.append (ih hl)

/-- Every run is the start of a text. -/
theorem Extends.exists_text (h : Extends r runs texts) {run : String × OutputContext}
    (hrun : run ∈ runs) : ∃ again, (run.1 ++ again, run.2) ∈ texts := by
  obtain ⟨_, htext, again, rfl, -⟩ := exists_mem_of_forall₂ h run hrun
  exact ⟨again, htext⟩

end Extends

/-- What a piece and a node of a leveled list have in common: a text is the same, and another node has the
runs of the leveled node as its texts. -/
inductive Levels (c : OutputContext) : Piece → NodeTree → Prop
  | text (i : NodeId) (s again : String) : Levels c (.text i s again) (.node i (.text s) [])
  | other {t u : NodeTree} {r : Bool} (hu : u.kind.text? = none)
      (hruns : Extends r (u.runs c) (texts c [t])) : Levels c (.other t r) u

section Levels

variable {c : OutputContext} {ps : List Piece} {us ts : Forest}

/-- Both lead with the same text. -/
theorem lead_eq (h : List.Forall₂ (Levels c) ps us) : Piece.lead ps = lead us := by
  induction h with
  | nil => rfl
  | cons hp _ ih =>
    cases hp with
    | text i s again => exact congrArg (s ++ ·) ih
    | other hu hruns => rw [Piece.lead, lead_of_text?_eq_none hu]

/-- A second visit repeats text in the pieces only. -/
theorem levels_echoAfter (h : List.Forall₂ (Levels c) ps us) (after : Bool) :
    List.Forall₂ (Levels c) (Piece.echoAfter after ps) us := by
  induction h generalizing after with
  | nil => rw [Piece.echoAfter_nil]; exact .nil
  | cons hp _ ih =>
    cases hp with
    | text i s again => cases after <;> exact .cons (.text ..) (ih true)
    | other hu hruns =>
      rw [Piece.echoAfter_other]
      exact .cons (.other hu hruns) (ih false)

/-- **A list that is joined.** Its texts are the runs of the leveled list. -/
theorem extends_finishAfter (h : List.Forall₂ (Levels c) ps us) (after : Bool) :
    Extends (Piece.repeatsAfter after ps) (runs c after us) (texts c (Piece.finishAfter after ps)) := by
  induction h generalizing after with
  | nil => rw [Piece.repeatsAfter_nil, runs_nil, Piece.finishAfter_nil]; exact .nil
  | @cons p u ps us hp hps ih =>
    cases hp with
    | text i s again =>
      rw [runs_text]
      cases after with
      -- behind a text this one has become part of the text before
      | true => exact ih true
      | false =>
        rw [Piece.finishAfter, texts_cons, texts_text, Piece.repeatsAfter]
        refine Extends.append (.cons ⟨again, ?_, fun hr => ?_⟩ .nil) (ih true)
        · rw [lead_eq hps, String.append_assoc]
        · simpa using hr
    | @other t u r hu hruns =>
      rw [runs_other c after hu, Piece.finishAfter_other, texts_cons, Piece.repeatsAfter_other]
      exact hruns.append (ih false)

/-- The pieces of a forest and its nodes leveled. -/
theorem levels_simplified (hl : Labelled ts) (c : OutputContext) :
    List.Forall₂ (Levels c) (simplified ts) (leveled ts) := by
  induction ts using Forest.induct generalizing c with
  | nil => exact .nil
  | cons id k bs ts ihb iht =>
    obtain ⟨hk, hbs, hts⟩ := labelled_cons.mp hl
    have hlen : bs.length = k.bodies.length := by rw [hk, List.length_map]
    -- both sides treat a node by its verdict, and only a node that is kept has lists of its own
    rw [simplified_cons, leveled_cons]
    refine List.rel_append ?_ (iht hts c)
    cases hv : k.verdict with
    | text s =>
      rw [pieces_of_text hv, level_of_text hv]
      exact .cons (.text ..) .nil
    | dropped =>
      rw [pieces_of_dropped hv, level_of_dropped hv]
      exact .nil
    | kept k' =>
      rw [pieces_of_kept hv, level_of_kept hv]
      -- a node that is kept is no text
      have hnone : k'.text? = none := NodeKind.text?_eq_none (NodeKind.ne_text_of_kept hv)
      refine .cons (.other ((NodeKind.text?_withBodies ..).trans hnone) ?_) .nil
      rw [NodeTree.runs, runsAll_eq_flatMap,
        texts_other c id ((NodeKind.text?_withBodies ..).trans hnone),
        NodeKind.contextsInside_of_kept hv hlen leveled, NodeKind.contextsInside_of_kept hv hlen simplify,
        List.zip_map_left, List.zip_map_left, List.flatMap_map, List.flatMap_map]
      refine (Extends.flatMap (p := fun p => repeatsText p.1) fun p hp => ?_).mono fun hr => ?_
      · have hb : p.1 ∈ bs := (k.live_sublist bs).subset (List.of_mem_zip hp).1
        exact extends_finishAfter (ihb p.1 hb (hbs p.1 hb) p.2) false
      · rw [List.any_eq_false] at hr ⊢
        exact fun p hp => hr p.1 (List.of_mem_zip hp).1
    | spliced =>
      rw [level_of_spliced hv]
      obtain ⟨hlive, hp⟩ | ⟨b, hb, hlive, hp⟩ := pieces_of_spliced id hv hlen
      · rw [hp, hlive]
        exact .nil
      · rw [hp, hlive, List.flatMap_singleton]
        -- the live list is visited a second time where it now stands
        exact levels_echoAfter (ihb b hb (hbs b hb) c) false

/-- **Runs become texts.** The texts of the simplified forest are the runs of the leveled one, and nothing
more unless text is repeated. -/
theorem extends_simplify (hl : Labelled ts) (c : OutputContext) :
    Extends (repeatsText ts) (runs c false (leveled ts)) (texts c (simplify ts)) :=
  extends_finishAfter (levels_simplified hl c) false

end Levels

/-! ### Texts in runs -/

section Texts

variable {c c' : OutputContext} {ts us : Forest} {t : NodeTree} {id : NodeId} {bs : List Forest}
  {s : String}

/-- A text is part of a run in its context, or of the text before the list that it is in. -/
theorem mem_runs_of_mem_contexts (after : Bool) (ht : (.node id (.text s) bs, c') ∈ contexts c us) :
    (∃ front back, (front ++ s ++ back, c') ∈ runs c after us) ∨
      after = true ∧ c' = c ∧ ∃ front back, lead us = front ++ s ++ back := by
  induction us using Forest.induct generalizing c after with
  | nil => cases ht
  | cons i k cs us ihb iht =>
    rw [contexts_cons] at ht
    -- a node that is no text ends the run before it
    cases hk : k.text? with
    | none =>
      rw [runs_other (t := .node i k cs) c after hk, NodeTree.runs, runsAll_eq_flatMap]
      obtain heq | ht := List.mem_cons.mp ht
      · -- the node itself is no text
        obtain ⟨-, rfl, -⟩ := NodeTree.node.inj (congrArg Prod.fst heq)
        cases hk
      · obtain ht | ht := List.mem_append.mp ht
        -- inside the node a run of its own starts with each list
        · obtain ⟨p, hp, ht⟩ := List.mem_flatMap.mp ht
          obtain ⟨front, back, hrun⟩ | ⟨hfalse, -, -⟩ := ihb p.1 (List.of_mem_zip hp).1 false ht
          · exact .inl ⟨front, back, List.mem_append_left _ (List.mem_flatMap.mpr ⟨p, hp, hrun⟩)⟩
          · cases hfalse
        · obtain ⟨front, back, hrun⟩ | ⟨hfalse, -⟩ := iht false ht
          · exact .inl ⟨front, back, List.mem_append_right _ hrun⟩
          · cases hfalse
    | some u =>
      obtain rfl := NodeKind.eq_text_of_text? hk
      have hnone : (cs.zip ((NodeKind.text u).contextsInside c)) = [] := List.zip_nil_right
      rw [hnone, List.flatMap_nil, List.nil_append] at ht
      -- the text is in the run that starts here, or that started before the list
      have hrun : (∃ front back, (front ++ s ++ back, c') ∈ runs c true us) ∨
          c' = c ∧ ∃ front back, u ++ lead us = front ++ s ++ back := by
        obtain heq | ht := List.mem_cons.mp ht
        · obtain ⟨hnode, rfl⟩ := Prod.mk.inj heq
          obtain rfl := NodeKind.text.inj (NodeTree.node.inj hnode).2.1
          exact .inr ⟨rfl, "", lead us, by rw [String.empty_append]⟩
        · obtain hrun | ⟨-, hc, front, back, hlead⟩ := iht true ht
          · exact .inl hrun
          · exact .inr ⟨hc, u ++ front, back, by rw [hlead]; simp only [String.append_assoc]⟩
      rw [runs_text]
      obtain ⟨front, back, hrun⟩ | ⟨rfl, front, back, hlead⟩ := hrun
      · exact .inl ⟨front, back, List.mem_append_right _ hrun⟩
      · cases after with
        | true => exact .inr ⟨rfl, rfl, front, back, hlead⟩
        | false =>
          exact .inl ⟨front, back, List.mem_append_left _ (List.mem_singleton.mpr (by rw [hlead]))⟩

/-- A node that constants leave and that becomes a text is a text of the leveled forest. -/
theorem mem_contexts_leveled (hl : Labelled ts) (ht : (t, c') ∈ remaining c ts)
    (hv : t.kind.verdict = .text s) : (.node t.id (.text s) [], c') ∈ contexts c (leveled ts) := by
  induction ts using Forest.induct generalizing c with
  | nil => cases ht
  | cons i k bs ts ihb iht =>
    obtain ⟨hk, hbs, hts⟩ := labelled_cons.mp hl
    have hlen : bs.length = k.bodies.length := by rw [hk, List.length_map]
    rw [leveled_cons, contexts_append]
    rw [remaining_cons] at ht
    -- the node is the first of the list, or below it, or behind it
    obtain heq | ht := List.mem_cons.mp ht
    · obtain ⟨rfl, rfl⟩ := Prod.mk.inj heq
      -- it becomes a text in the place it has
      rw [level_of_text (k := k) hv]
      exact List.mem_append_left _ List.mem_cons_self
    · obtain ht | ht := List.mem_append.mp ht
      · obtain ⟨p, hp, ht⟩ := List.mem_flatMap.mp ht
        refine List.mem_append_left _ ?_
        -- only a node that is kept or makes way has live lists for a node to be in
        cases hk' : k.verdict with
        | text u =>
          rw [NodeKind.live_zip_of_leaf (NodeKind.bodies_of_text hk') hlen] at hp
          cases hp
        | dropped =>
          rw [NodeKind.live_zip_of_leaf (NodeKind.bodies_of_dropped hk') hlen] at hp
          cases hp
        | kept k' =>
          rw [NodeKind.live_zip_of_kept hk' hlen] at hp
          have hb : p.1 ∈ bs := (k.live_sublist bs).subset (List.of_mem_zip hp).1
          rw [level_of_kept hk', contexts_cons, NodeKind.contextsInside_of_kept hk' hlen leveled,
            List.zip_map_left, List.flatMap_map]
          refine List.mem_cons_of_mem _ (List.mem_append_left _ ?_)
          exact List.mem_flatMap.mpr ⟨p, hp, ihb p.1 hb (hbs p.1 hb) ht⟩
        | spliced =>
          rw [NodeKind.live_zip_of_spliced hk' hlen] at hp
          obtain ⟨b, hlive, rfl⟩ := List.mem_map.mp hp
          have hb : b ∈ bs := (k.live_sublist bs).subset hlive
          rw [level_of_spliced hk', contexts_flatMap]
          exact List.mem_flatMap.mpr ⟨b, hlive, ihb b hb (hbs b hb) ht⟩
      · exact List.mem_append_right _ (iht hts ht)

end Texts

/-! ### Prints -/

/-- The prints of a forest, each with its number and its context. -/
def prints (c : OutputContext) (ts : Forest) :
    List (NodeId × (Expr × List Directive) × OutputContext) :=
  (contexts c ts).flatMap fun p => (p.1.kind.print?.map (p.1.id, ·, p.2)).toList

/-- The prints that simplification keeps, of the nodes that constants leave. -/
def keptPrints (c : OutputContext) (ts : Forest) :
    List (NodeId × (Expr × List Directive) × OutputContext) :=
  (remaining c ts).flatMap fun p => (p.1.kind.keptPrint?.map (p.1.id, ·, p.2)).toList

section Prints

variable {c : OutputContext} {ts us : Forest} {k k' : NodeKind}

/-- The prints of a list: the first node, if it is one, then those in its lists, then the others. -/
theorem prints_cons (c : OutputContext) (id : NodeId) (k : NodeKind) (bs : List Forest) (ts : Forest) :
    prints c (.node id k bs :: ts) = (k.print?.map (id, ·, c)).toList ++
      ((bs.zip (k.contextsInside c)).flatMap (fun p => prints p.2 p.1) ++ prints c ts) := by
  rw [prints, contexts_cons, List.flatMap_cons, List.flatMap_append, List.flatMap_assoc]
  rfl

/-- The same of the prints that are kept, in the live lists only. -/
theorem keptPrints_cons (c : OutputContext) (id : NodeId) (k : NodeKind) (bs : List Forest)
    (ts : Forest) : keptPrints c (.node id k bs :: ts) = (k.keptPrint?.map (id, ·, c)).toList ++
      ((k.live (bs.zip (k.contextsInside c))).flatMap (fun p => keptPrints p.2 p.1) ++
        keptPrints c ts) := by
  rw [keptPrints, remaining_cons, List.flatMap_cons, List.flatMap_append, List.flatMap_assoc]
  rfl

/-- The prints of two lists are those of the one and then those of the other. -/
theorem prints_append (c : OutputContext) (ts us : Forest) :
    prints c (ts ++ us) = prints c ts ++ prints c us := by
  rw [prints, contexts_append, List.flatMap_append]
  rfl

/-- The prints of a node that is no text. -/
def printsOfPiece (c : OutputContext) : Piece → List (NodeId × (Expr × List Directive) × OutputContext)
  | .text _ _ _ => []
  | .other t _ => prints c [t]

/-- Joining texts does not touch prints. -/
theorem prints_finishAfter (c : OutputContext) (after : Bool) (ps : List Piece) :
    prints c (Piece.finishAfter after ps) = ps.flatMap (printsOfPiece c) := by
  induction ps generalizing after with
  | nil => rw [Piece.finishAfter_nil]; rfl
  | cons p ps ih =>
    rw [List.flatMap_cons]
    cases p with
    | other t r => rw [Piece.finishAfter_other, ← ih false]; exact prints_append c [t] _
    | text i s again =>
      cases after with
      | true => exact ih true
      | false => rw [Piece.finishAfter, prints_cons, ih true]; rfl

/-- Nor does text that is repeated. -/
theorem printsOfPiece_echoAfter (c : OutputContext) (after : Bool) (ps : List Piece) :
    (Piece.echoAfter after ps).flatMap (printsOfPiece c) = ps.flatMap (printsOfPiece c) := by
  induction ps generalizing after with
  | nil => rw [Piece.echoAfter_nil]
  | cons p ps ih =>
    cases p with
    | other t r => rw [Piece.echoAfter_other, List.flatMap_cons, List.flatMap_cons, ih]
    | text i s again => cases after <;> exact ih true

/-- The pieces of a list have the prints that are kept of it. -/
theorem printsOfPiece_simplified (hl : Labelled ts) (c : OutputContext) :
    (simplified ts).flatMap (printsOfPiece c) = keptPrints c ts := by
  induction ts using Forest.induct generalizing c with
  | nil => rfl
  | cons id k bs ts ihb iht =>
    obtain ⟨hk, hbs, hts⟩ := labelled_cons.mp hl
    have hlen : bs.length = k.bodies.length := by rw [hk, List.length_map]
    rw [simplified_cons, List.flatMap_append, iht hts, keptPrints_cons, ← List.append_assoc]
    congr 1
    -- texts are no prints, and a node that makes way leaves those of its live list
    cases hv : k.verdict with
    | text s =>
      rw [pieces_of_text hv, NodeKind.keptPrint?, hv,
        NodeKind.live_zip_of_leaf (NodeKind.bodies_of_text hv) hlen]
      rfl
    | dropped =>
      rw [pieces_of_dropped hv, NodeKind.keptPrint?, hv,
        NodeKind.live_zip_of_leaf (NodeKind.bodies_of_dropped hv) hlen]
      rfl
    | kept k' =>
      rw [pieces_of_kept hv, List.flatMap_singleton, printsOfPiece, prints_cons,
        NodeKind.print?_withBodies, NodeKind.contextsInside_of_kept hv hlen simplify, List.zip_map_left,
        List.flatMap_map, NodeKind.live_zip_of_kept hv hlen, NodeKind.keptPrint?, hv]
      -- its own print, and those inside of it by induction
      refine congrArg (_ ++ ·) ((List.append_nil _).trans (List.flatMap_congr fun p hp => ?_))
      have hb : p.1 ∈ bs := (k.live_sublist bs).subset (List.of_mem_zip hp).1
      exact (prints_finishAfter p.2 false _).trans (ihb p.1 hb (hbs p.1 hb) p.2)
    | spliced =>
      rw [NodeKind.keptPrint?, hv, NodeKind.live_zip_of_spliced hv hlen, List.flatMap_map]
      obtain ⟨hlive, hp⟩ | ⟨b, hb, hlive, hp⟩ := pieces_of_spliced id hv hlen
      · rw [hp, hlive]
        rfl
      · rw [hp, hlive, printsOfPiece_echoAfter, List.flatMap_singleton, ihb b hb (hbs b hb)]
        rfl

/-- **Prints of the simplified forest.** -/
theorem prints_simplify (hl : Labelled ts) (c : OutputContext) :
    prints c (simplify ts) = keptPrints c ts :=
  (prints_finishAfter c false _).trans (printsOfPiece_simplified hl c)

end Prints

end Forest

end TemplateFrontend
