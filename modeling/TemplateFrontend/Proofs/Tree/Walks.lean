import TemplateFrontend.Proofs.Compiler.Forests
import TemplateFrontend.Proofs.Expr.Places
import Mathlib.Data.Fintype.Card
/-!
# Walks over a file

A walk over a file follows the numbers in its nodes. It ends, and meets every node once, if the nodes that can be
reached share nothing: each stands in one list at most, and no descent leads back to where it was. What bounds a walk
is then the number of nodes in the table, which is not seen in the numbers themselves: without cycles a descent among
finitely many nodes comes to an end (`Unshared.acc`), and no node is met twice (`Unshared.nodup_of_depthFirst`).

* `TemplateFile.Unshared.walked_descendants`, `TemplateFile.Unshared.walked_reachable` — the nodes below a node, and
  those of a file;
* `TemplateFile.Unshared.heldExprs_mapExprs` — the expressions of a file, replaced one by one;
* `TemplateFile.Unshared.walks_inOrder` — the order of nodes and expressions, and what it is good for.
-/

namespace TemplateFrontend

namespace TemplateFile

variable {f : TemplateFile} {id a b : NodeId} {items met : List NodeId}

/-! ### Walks over the nodes -/

namespace Unshared

theorem children_nodup (h : f.Unshared) (hid : f.Reaches id) : (f.children id).Nodup := by
  refine List.nodup_flatten.mpr ⟨fun body hbody => h.bodies_nodup hid hbody, ?_⟩
  refine List.pairwise_iff_getElem.mpr fun i j hi hj hij x hx hx' => ?_
  -- a node in two lists would stand in two places
  have hs : f.StandsIn x id i := ⟨hid, _, List.getElem?_eq_getElem hi, hx⟩
  have hs' : f.StandsIn x id j := ⟨hid, _, List.getElem?_eq_getElem hj, hx'⟩
  exact absurd (h.standsIn_inj hs hs').2 (Nat.ne_of_lt hij)

theorem owner_eq (h : f.Unshared) (ha : f.Reaches a) (hb : f.Reaches b) (hida : id ∈ f.children a)
    (hidb : id ∈ f.children b) : b = a := by
  obtain ⟨slot, hs⟩ := exists_standsIn ha hida
  obtain ⟨slot', hs'⟩ := exists_standsIn hb hidb
  exact (h.standsIn_inj hs' hs).1

/-- **No descent goes on forever**: the nodes that can be reached are finitely many, and being below is a strict order
on them. -/
theorem acc (h : f.Unshared) (hid : f.Reaches id) : Acc (fun b a => b ∈ f.children a) id := by
  -- finitely many nodes and no cycle: the way down ends
  have hfinite : Finite {x // f.Reaches x} := by
    refine Finite.of_injective (fun x => (⟨x.1, h.lt_size x.2⟩ : Fin f.nodes.size)) ?_
    intro x y hxy
    exact Subtype.ext (Fin.mk.inj hxy)
  have htrans : IsTrans {x // f.Reaches x}
      fun b a => Relation.TransGen (fun a b => b ∈ f.children a) a.1 b.1 := ⟨fun _ _ _ hcb hba => hba.trans hcb⟩
  have hirrefl : Std.Irrefl fun b a : {x // f.Reaches x} =>
      Relation.TransGen (fun a b => b ∈ f.children a) a.1 b.1 := ⟨fun x => h.acyclic x.2⟩
  have hwf := Finite.wellFounded_of_trans_of_irrefl fun b a : {x // f.Reaches x} =>
    Relation.TransGen (fun a b => b ∈ f.children a) a.1 b.1
  have hacc : ∀ x : {x // f.Reaches x}, Acc (fun b a => b ∈ f.children a) x.1 := by
    intro x
    induction x using hwf.induction with
    | h x ih => exact ⟨_, fun b hb => ih ⟨b, .inside x.2 hb⟩ (.single hb)⟩
  exact hacc ⟨id, hid⟩

theorem exists_depthFirst (h : f.Unshared) (hitems : ∀ a ∈ items, f.Reaches a) :
    ∃ met, DepthFirst f.children items met :=
  DepthFirst.exists_of_forall fun a ha => DepthFirst.exists_of_acc (h.acc (hitems a ha))

theorem reaches_of_mem (hwalk : DepthFirst f.children items met) (hitems : ∀ a ∈ items, f.Reaches a) (hb : b ∈ met) :
    f.Reaches b := by
  obtain ⟨a, ha, hpath⟩ := hwalk.mem_iff.mp hb
  exact (hitems a ha).of_path hpath

/-- A walk meets every node once, if it starts at nodes that it does not meet further down. -/
theorem nodup_of_depthFirst (h : f.Unshared) (hwalk : DepthFirst f.children items met) (hnodup : items.Nodup)
    (hitems : ∀ a ∈ items, f.Reaches a) (hroot : ∀ a ∈ met, ∀ x ∈ f.children a, x ∉ items) : met.Nodup := by
  have hreached : ∀ {a}, a ∈ met → f.Reaches a := fun ha => reaches_of_mem hwalk hitems ha
  refine hwalk.nodup hnodup (fun a ha => h.children_nodup (hreached ha)) hroot ?_
  intro a ha b hb x hxa hxb
  exact h.owner_eq (hreached ha) (hreached hb) hxa hxb

theorem nodup_below (h : f.Unshared) (hid : f.Reaches id) (hwalk : DepthFirst f.children (f.children id) met) :
    met.Nodup := by
  have hchildren : ∀ a ∈ f.children id, f.Reaches a := fun a ha => .inside hid ha
  refine h.nodup_of_depthFirst hwalk (h.children_nodup hid) hchildren ?_
  intro a ha x hxa hx
  -- the owner of a node inside this one is this one, which is not below itself
  obtain rfl := h.owner_eq (reaches_of_mem hwalk hchildren ha) hid hxa hx
  obtain ⟨c, hc, hpath⟩ := hwalk.mem_iff.mp ha
  exact h.acyclic hid (.head' hc hpath)

theorem length_le (h : f.Unshared) (hitems : ∀ a ∈ items, f.Reaches a) (hwalk : DepthFirst f.children items met)
    (hnodup : met.Nodup) : met.length ≤ f.nodes.size := by
  have hsub : met ⊆ List.range f.nodes.size := by
    intro x hx
    exact List.mem_range.mpr (h.lt_size (reaches_of_mem hwalk hitems hx))
  have hle := (hnodup.subperm hsub).length_le
  rwa [List.length_range] at hle

/-- **The nodes below a node.** -/
theorem walked_descendants (h : f.Unshared) (hid : f.Reaches id) :
    Walked f.children (f.children id) (f.descendants id) := by
  have hchildren : ∀ a ∈ f.children id, f.Reaches a := fun a ha => .inside hid ha
  obtain ⟨met, hwalk⟩ := h.exists_depthFirst hchildren
  have hfuel := h.length_le hchildren hwalk (h.nodup_below hid hwalk)
  rw [descendants, preorder_eq hwalk hfuel]
  exact hwalk.walked

/-- **The nodes of a file.** -/
theorem walked_reachable (h : f.Unshared) : Walked f.children f.templates f.reachable := by
  refine DepthFirst.walked (DepthFirst.of_forall fun id hid => ?_)
  exact (h.walked_descendants (.template hid)).depthFirst.singleton

theorem mem_reachable (h : f.Unshared) : id ∈ f.reachable ↔ f.Reaches id := by
  rw [h.walked_reachable.depthFirst.mem_iff]
  constructor
  · rintro ⟨t, ht, hpath⟩
    exact (Reaches.template ht).of_path hpath
  · intro hid
    induction hid with
    | template hid => exact ⟨_, hid, .refl⟩
    | inside _ hid ih =>
      obtain ⟨t, ht, hpath⟩ := ih
      exact ⟨t, ht, hpath.tail hid⟩

theorem reachable_nodup (h : f.Unshared) : f.reachable.Nodup := by
  refine h.nodup_of_depthFirst h.walked_reachable.depthFirst h.templates_nodup (fun _ ht => .template ht) ?_
  intro a ha x hx ht
  obtain ⟨slot, hs⟩ := exists_standsIn (h.mem_reachable.mp ha) hx
  exact h.not_standsIn_of_template ht hs

/-! ### Expressions replaced -/

/-- **The expressions of a file, replaced one by one**, are the expressions replaced. -/
theorem heldExprs_mapExprs (h : f.Unshared) (step : Expr → Expr) :
    (f.mapExprs step).heldExprs = f.heldExprs.map step := by
  obtain ⟨hchange, hkind⟩ := foldl_setKind (NodeKind.mapExprs step) h.reachable_nodup
    fun x hx => h.lt_size (h.mem_reachable.mp hx)
  -- no list is changed, so both walks meet the same nodes
  have hchildren : ∀ x ∈ f.reachable, (f.mapExprs step).children x = f.children x := by
    intro x hx
    rw [children, children, TemplateFile.mapExprs, foldReachable, hkind x hx, NodeKind.bodies_mapExprs]
  have hreachable : (f.mapExprs step).reachable = f.reachable := by
    rw [reachable, reachable, TemplateFile.mapExprs, foldReachable, hchange.templates_eq]
    refine List.flatMap_congr fun id hid => congrArg (id :: ·) ?_
    have hreached : f.Reaches id := .template hid
    have hwalk := (h.walked_descendants hreached).depthFirst
    have hitems : ∀ a ∈ f.children id, f.Reaches a := fun a ha => .inside hreached ha
    have hagain : DepthFirst (f.mapExprs step).children (f.children id) (f.descendants id) :=
      hwalk.congr fun x hx => hchildren x (h.mem_reachable.mpr (reaches_of_mem hwalk hitems hx))
    -- and the fuel, which is the size of the table, is enough for both
    have hfuel := h.length_le hitems hwalk (h.nodup_below hreached hwalk)
    rw [← hchildren id (h.mem_reachable.mpr hreached)] at hagain
    exact preorder_eq hagain (Nat.le_trans hfuel hchange.size_le)
  calc (f.mapExprs step).heldExprs
      = f.reachable.flatMap fun x => ((f.mapExprs step).kind x).exprs := by rw [heldExprs, hreachable]
    _ = f.reachable.flatMap fun x => (f.kind x).exprs.map step := by
        refine List.flatMap_congr fun x hx => ?_
        rw [← NodeKind.exprs_mapExprs, ← hkind x hx]
        rfl
    _ = f.heldExprs.map step := by rw [heldExprs, List.map_flatMap]

end Unshared

/-! ### Nodes and expressions in order -/

/-- The places of the expressions in a file, in the order of these. -/
def exprPlaces (f : TemplateFile) : List (List Nat) := Expr.places f.heldExprs

/-- **Nodes and expressions in order.** If nothing is shared, the walks over a file end, with a stack as by recursion:
those below a node, those over all nodes, and those over the parts of expressions. Every node that can be reached is
met once. The parts of the expressions are met by their places, each once, and an operand after the part that it
belongs to. So a sweep from the last place to the first finds the operands of a part folded already, and leaves what
folding of every expression from its innermost parts outwards leaves. -/
theorem Unshared.walks_inOrder (h : f.Unshared) :
    (∀ id, f.Reaches id → Walked f.children (f.children id) (f.descendants id) ∧ (f.descendants id).Nodup) ∧
      Walked f.children f.templates f.reachable ∧ f.reachable.Nodup ∧ (∀ id, id ∈ f.reachable ↔ f.Reaches id) ∧
      (∀ e : Expr, Walked Expr.children [e] e.subexprs) ∧
      Walked Expr.children f.heldExprs f.reachableExprs ∧
      f.exprPlaces.map (Expr.partAt? f.heldExprs) = f.reachableExprs.map some ∧ f.exprPlaces.Nodup ∧
      (∀ place, place ∈ f.exprPlaces ↔ ∃ e, Expr.partAt? f.heldExprs place = some e) ∧
      (∀ place ∈ f.exprPlaces, ∀ operand ∈ Expr.operandPlaces f.heldExprs place,
        [place, operand].Sublist f.exprPlaces) ∧
      (f.mapExprs Expr.fold).heldExprs = Expr.sweep Expr.foldPart f.heldExprs := by
  refine ⟨?_, h.walked_reachable, h.reachable_nodup, fun _ => h.mem_reachable, ?_, ?_, ?_, ?_, ?_, ?_, ?_⟩
  · intro id hid
    have hwalk := h.walked_descendants hid
    exact ⟨hwalk, h.nodup_below hid hwalk.depthFirst⟩
  · exact fun e => (Expr.depthFirst_subexprs e).walked
  · rw [reachableExprs_eq]
    exact (Expr.depthFirst_subexprsOf f.heldExprs).walked
  · rw [reachableExprs_eq]
    exact Expr.map_partAt?_places f.heldExprs
  · exact Expr.places_nodup f.heldExprs
  · exact fun _ => Expr.mem_places_iff
  · intro place hplace operand hoperand
    exact (Expr.places_walked f.heldExprs).depthFirst.before hplace hoperand
  · rw [h.heldExprs_mapExprs, Expr.sweep_eq_map]
    rfl

end TemplateFile

/-- A branch whose condition compares a sum, and a print after it. -/
def comparedSum : SourceText :=
  ⟨"a.st", "\x7bnamespace a\x7d\x7btemplate .t\x7d\x7bif 1 + 2 > $x\x7d<b>\x7b/if\x7d\x7bprint 3\x7d\x7b/template\x7d"⟩

theorem TemplateFile.walks_inOrder_comparedSum : ∃ f, parse comparedSum = .ok f ∧ f.Unshared ∧
    f.reachable = [3, 1, 0, 2] ∧ StackWalk f.children [2, 1] (f.descendants 3) ∧
      [[0], [0, 0]].Sublist f.exprPlaces := by
  have hrun : (parse comparedSum).toOption.map (fun f => (f.reachable, f.children 3,
      Expr.operandPlaces f.heldExprs [0])) = some ([3, 1, 0, 2], [1, 2], [[0, 0], [0, 1]]) := by decide +kernel
  obtain ⟨f, hp, hf⟩ := exists_of_toOption_map hrun
  obtain ⟨hnodes, hf⟩ := Prod.mk.inj hf
  obtain ⟨hchildren, hoperands⟩ := Prod.mk.inj hf
  -- a file that was parsed shares no node
  have hunshared : f.Unshared := (rooted_of_parse hp).isForest.unshared
  obtain ⟨hbelow, -, -, hmem, -, -, -, -, hplaces, hbefore, -⟩ := Unshared.walks_inOrder hunshared
  refine ⟨f, hp, hunshared, hnodes, ?_, ?_⟩
  · have hroot : f.Reaches 3 := (hmem 3).mp (by rw [hnodes]; decide)
    have hwalk := (hbelow 3 hroot).1.stackWalk_iff.mpr rfl
    rwa [hchildren] at hwalk
  · have hoperand : [0, 0] ∈ Expr.operandPlaces f.heldExprs [0] := by
      rw [hoperands]
      decide
    obtain ⟨e, -, he, -, -⟩ := Expr.mem_operandPlaces.mp hoperand
    exact hbefore [0] ((hplaces [0]).mpr ⟨e, he⟩) [0, 0] hoperand

end TemplateFrontend
