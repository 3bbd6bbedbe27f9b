import TemplateFrontend.Proofs.Tree.DepthFirst
import TemplateFrontend.Proofs.Typing.FoldedTypes
/-!
# Places of parts

Where a part stands in a list of expressions: the number of an expression, and the path to a part of it. Two parts may
be the same expression, but they are not in the same place, so what is said of the order of parts is said of places.

The places in the order of the parts are a walk in depth first (`places_walked`), so each is there once and after that
of the part it belongs to. Going through them from the last to the first, a step that edits the part at each place
finds all operands of a part edited already; what is left in the end is what recursion makes of the expressions
(`sweep_eq_map`).

* `Expr.partAt?`, `Expr.operandPlaces`, `Expr.places` — places of parts;
* `Expr.depthFirst_subexprs` — the parts of an expression, as a walk;
* `Expr.places_nodup`, `Expr.mem_places_iff` — every part has one place;
* `Expr.sweep` — a step done at every place, the last place first.
-/

namespace TemplateFrontend.Expr

variable {e : Expr} {es front : List Expr} {place : List Nat} {i : Nat}

/-! ### Parts in depth first -/

/-- The parts of an expression are met in depth first. -/
theorem depthFirst_subexprs (e : Expr) : DepthFirst children [e] e.subexprs := by
  induction e using children_induct with
  | h e ih =>
    rw [subexprs_eq, subexprsOf_eq_flatMap]
    exact (DepthFirst.of_forall ih).singleton

/-- So are the parts of several expressions. -/
theorem depthFirst_subexprsOf (es : List Expr) : DepthFirst children es (subexprsOf es) := by
  rw [subexprsOf_eq_flatMap]
  exact .of_forall fun e _ => depthFirst_subexprs e

/-- The first expression, its parts, and those of the others. -/
theorem subexprsOf_cons_eq (e : Expr) (es : List Expr) :
    subexprsOf (e :: es) = e :: (subexprsOf e.children ++ subexprsOf es) := by
  rw [subexprsOf, subexprs_eq, List.cons_append]

/-- There are fewer parts in the operands of an expression, and in those after it, than there are from it on. -/
theorem length_subexprsOf_children_lt (e : Expr) (es : List Expr) :
    (subexprsOf e.children).length < (subexprsOf (e :: es)).length := by
  rw [subexprsOf_cons_eq, List.length_cons, List.length_append]
  omega

/-- There are fewer parts without the first expression. -/
theorem length_subexprsOf_lt (e : Expr) (es : List Expr) :
    (subexprsOf es).length < (subexprsOf (e :: es)).length := by
  rw [subexprsOf_cons_eq, List.length_cons, List.length_append]
  omega

/-! ### Places -/

/-- The part at a place. -/
def partAt? (es : List Expr) : List Nat → Option Expr
  | [] => none
  | i :: path => (es[i]?).bind (·.at? path)

/-- The places of the operands of a part, in source order. -/
def operandPlaces (es : List Expr) (place : List Nat) : List (List Nat) :=
  match partAt? es place with
  | none => []
  | some e => (List.range e.children.length).map fun i => place ++ [i]

/-- The places of the expressions themselves, the first of which has the number `i`. -/
def rootPlaces (i : Nat) (es : List Expr) : List (List Nat) := (List.range' i es.length).map fun j => [j]

/-- The places of all parts of expressions, the first of which has the number `i`. -/
def placesFrom (i : Nat) : List Expr → List (List Nat)
  | [] => []
  | e :: es => [i] :: ((placesFrom 0 e.children).map (i :: ·) ++ placesFrom (i + 1) es)
termination_by es => (subexprsOf es).length
decreasing_by
  · exact length_subexprsOf_children_lt e es
  · exact length_subexprsOf_lt e es

/-- The places of all parts, each before those of its operands. -/
def places (es : List Expr) : List (List Nat) := placesFrom 0 es

/-- **Induction over parts and the expressions after them.** -/
theorem parts_induct {P : List Expr → Prop} (nil : P []) (cons : ∀ e es, P e.children → P es → P (e :: es))
    (es : List Expr) : P es :=
  match es with
  | [] => nil
  | e :: es => cons e es (parts_induct nil cons e.children) (parts_induct nil cons es)
termination_by (subexprsOf es).length
decreasing_by
  · exact length_subexprsOf_children_lt e es
  · exact length_subexprsOf_lt e es

/-- No place is empty: it says which expression the part belongs to. -/
theorem ne_nil_of_mem_placesFrom {es : List Expr} (h : place ∈ placesFrom i es) : place ≠ [] := by
  induction es generalizing i with
  | nil =>
    rw [placesFrom] at h
    cases h
  | cons e es ih =>
    rw [placesFrom] at h
    obtain rfl | h := List.mem_cons.mp h
    · simp
    -- below the head, or a place of the rest of the list
    · obtain h | h := List.mem_append.mp h
      · obtain ⟨path, -, rfl⟩ := List.mem_map.mp h
        simp
      · exact ih h

/-- The expression behind the first ones. -/
theorem getElem?_front (front es : List Expr) (e : Expr) : (front ++ e :: es)[front.length]? = some e := by
  rw [List.getElem?_append_right (Nat.le_refl _), Nat.sub_self]
  rfl

/-- Below an expression, its parts are those of its operands. -/
theorem partAt?_cons (hplace : place ≠ []) :
    partAt? (front ++ e :: es) (front.length :: place) = partAt? e.children place := by
  rw [partAt?, getElem?_front, Option.bind_some]
  cases place with
  | nil => exact absurd rfl hplace
  | cons i path => rfl

/-- Below an expression, places are those among its operands. -/
theorem operandPlaces_cons (hplace : place ≠ []) : operandPlaces (front ++ e :: es) (front.length :: place) =
    (operandPlaces e.children place).map (front.length :: ·) := by
  rw [operandPlaces, operandPlaces, partAt?_cons hplace]
  cases partAt? e.children place with
  | none => rfl
  | some c => simp

/-- The operands of an expression itself. -/
theorem operandPlaces_root : operandPlaces (front ++ e :: es) [front.length] =
    (rootPlaces 0 e.children).map (front.length :: ·) := by
  have hpart : partAt? (front ++ e :: es) [front.length] = some e := by
    rw [partAt?, getElem?_front]
    rfl
  rw [operandPlaces, hpart, rootPlaces, ← List.range_eq_range', List.map_map]
  rfl

/-- **Places in depth first.** -/
theorem depthFirst_placesFrom (front es : List Expr) :
    DepthFirst (operandPlaces (front ++ es)) (rootPlaces front.length es) (placesFrom front.length es) := by
  induction es using parts_induct generalizing front with
  | nil =>
    rw [placesFrom]
    exact .nil
  | cons e es ihe ihes =>
    -- what is below the first expression is seen from there
    have hview : ∀ place ∈ placesFrom 0 e.children, operandPlaces (front ++ e :: es) (front.length :: place) =
        (operandPlaces e.children place).map (front.length :: ·) :=
      fun _ hplace => operandPlaces_cons (ne_nil_of_mem_placesFrom hplace)
    have hbelow := (ihe []).map (front.length :: ·) hview
    have hafter := ihes (front ++ [e])
    rw [List.append_assoc, List.singleton_append, List.length_append, List.length_singleton] at hafter
    rw [List.length_nil, ← operandPlaces_root] at hbelow
    rw [placesFrom, rootPlaces, List.length_cons, List.range'_succ, List.map_cons]
    exact .cons hbelow hafter

/-- The parts at the places, one by one. -/
theorem map_partAt?_placesFrom (front es : List Expr) :
    (placesFrom front.length es).map (partAt? (front ++ es)) = (subexprsOf es).map some := by
  induction es using parts_induct generalizing front with
  | nil =>
    rw [placesFrom]
    rfl
  | cons e es ihe ihes =>
    have hself : partAt? (front ++ e :: es) [front.length] = some e := by
      rw [partAt?, getElem?_front]
      rfl
    -- the operands of the first expression, one number further down
    have hbelow : ((placesFrom 0 e.children).map (front.length :: ·)).map (partAt? (front ++ e :: es)) =
        (subexprsOf e.children).map some := by
      rw [List.map_map, ← ihe []]
      refine List.map_congr_left fun place hplace => ?_
      exact partAt?_cons (ne_nil_of_mem_placesFrom hplace)
    have hafter := ihes (front ++ [e])
    rw [List.append_assoc, List.singleton_append, List.length_append, List.length_singleton] at hafter
    rw [placesFrom, List.map_cons, List.map_append, hself, hbelow, hafter, subexprsOf_cons_eq, List.map_cons,
      List.map_append]

/-- The places are those of a walk. -/
theorem places_walked (es : List Expr) : Walked (operandPlaces es) (rootPlaces 0 es) (places es) :=
  (depthFirst_placesFrom [] es).walked

/-- The parts at the places are the parts, in their order. -/
theorem map_partAt?_places (es : List Expr) : (places es).map (partAt? es) = (subexprsOf es).map some :=
  map_partAt?_placesFrom [] es

/-- At the end of a longer place there is an operand of the part. -/
theorem partAt?_concat (hplace : place ≠ []) :
    partAt? es (place ++ [i]) = (partAt? es place).bind (·.children[i]?) := by
  -- by induction on the way to the part
  have hat : ∀ (path : List Nat) (e : Expr), e.at? (path ++ [i]) = (e.at? path).bind (·.children[i]?) := by
    intro path
    induction path with
    | nil =>
      intro e
      rw [List.nil_append, at?, at?, Option.bind_some]
      cases e.children[i]? <;> rfl
    | cons j path ih =>
      intro e
      rw [List.cons_append, at?, at?, Option.bind_assoc]
      exact Option.bind_congr fun c _ => ih c
  cases place with
  | nil => exact absurd rfl hplace
  | cons j path =>
    rw [List.cons_append, partAt?, partAt?, Option.bind_assoc]
    exact Option.bind_congr fun c _ => hat path c

/-- The places of operands go on from that of their owner by a number. -/
theorem mem_operandPlaces {q : List Nat} :
    q ∈ operandPlaces es place ↔ ∃ e i, partAt? es place = some e ∧ i < e.children.length ∧ q = place ++ [i] := by
  unfold operandPlaces
  cases partAt? es place with
  | none => simp
  | some e => simp [eq_comm]

/-- **Every part has a place.** -/
theorem mem_places_iff : place ∈ places es ↔ ∃ e, partAt? es place = some e := by
  constructor
  · intro h
    -- the places name the parts in their order
    have hpart : partAt? es place ∈ (subexprsOf es).map some := map_partAt?_places es ▸ List.mem_map_of_mem h
    obtain ⟨e, -, he⟩ := List.mem_map.mp hpart
    exact ⟨e, he.symm⟩
  · induction place using List.reverseRecOn with
    | nil =>
      rintro ⟨e, he⟩
      cases he
    | append_singleton place i ih =>
      rintro ⟨e, he⟩
      have hwalk := (places_walked es).depthFirst
      -- the part is an expression itself, or an operand of a part that has a place
      by_cases hplace : place = []
      · subst hplace
        obtain ⟨e', he', -⟩ := Option.bind_eq_some_iff.mp he
        obtain ⟨hlt, -⟩ := List.getElem?_eq_some_iff.mp he'
        refine hwalk.items_sublist.subset (List.mem_map.mpr ⟨i, ?_, rfl⟩)
        rw [← List.range_eq_range']
        exact List.mem_range.mpr hlt
      · rw [partAt?_concat hplace] at he
        obtain ⟨owner, howner, he⟩ := Option.bind_eq_some_iff.mp he
        obtain ⟨hlt, -⟩ := List.getElem?_eq_some_iff.mp he
        exact hwalk.closed (ih ⟨owner, howner⟩) (mem_operandPlaces.mpr ⟨owner, i, howner, hlt, rfl⟩)

/-- **One place.** -/
theorem places_nodup (es : List Expr) : (places es).Nodup := by
  have hsingle : Function.Injective fun j : Nat => [j] := fun _ _ h => List.singleton_inj.mp h
  refine (places_walked es).depthFirst.nodup (List.Nodup.map hsingle List.nodup_range') ?_ ?_ ?_
  · intro place _
    unfold operandPlaces
    cases partAt? es place with
    | none => exact List.nodup_nil
    | some e => exact List.Nodup.map (fun _ _ h => List.singleton_inj.mp (List.append_cancel_left h)) List.nodup_range
  · intro place hplace q hq hroot
    -- the place of an operand has two numbers at least
    obtain ⟨e, i, -, -, rfl⟩ := mem_operandPlaces.mp hq
    obtain ⟨j, -, hj⟩ := List.mem_map.mp hroot
    have hlen := congrArg List.length hj
    rw [List.length_append, List.length_singleton] at hlen
    exact ne_nil_of_mem_placesFrom hplace (List.length_eq_zero_iff.mp (by simpa using hlen))
  -- a place names its owner: all of its numbers but the last
  · intro a _ b _ q hqa hqb
    obtain ⟨-, i, -, -, rfl⟩ := mem_operandPlaces.mp hqa
    obtain ⟨-, j, -, -, heq⟩ := mem_operandPlaces.mp hqb
    exact (List.append_inj' heq rfl).1.symm

/-! ### Edits at a place -/

/-- The expression with other operands. -/
def withChildren : Expr → List Expr → Expr
  | .literal n v, _ => .literal n v
  | .var n x, _ => .var n x
  | .global n x, _ => .global n x
  | .field n b x, cs => .field n (cs.headD b) x
  | .call n x _ c, cs => .call n x cs c
  | .method n b x _ c, cs => .method n (cs.headD b) x cs.tail c
  | .list n _, cs => .list n cs
  | .unary n op a, cs => .unary n op (cs.headD a)
  | .binary n op a b, cs => .binary n op (cs.headD a) (cs.tail.headD b)

/-- The expression with the part at the end of the path edited. -/
def editAt (step : Expr → Expr) : (path : List Nat) → Expr → Expr
  | [], e => step e
  | i :: path, e => e.withChildren (e.children.modify i (editAt step path))

/-- The expressions with the part at the place edited. -/
def editIn (step : Expr → Expr) : (place : List Nat) → List Expr → List Expr
  | [], es => es
  | i :: path, es => es.modify i (editAt step path)

/-- The expressions after a step at every place, the last place first. The places are those at the outset, whatever
the steps do. -/
def sweep (step : Expr → Expr) (es : List Expr) : List Expr :=
  (places es).reverse.foldl (fun es place => editIn step place es) es

variable {step : Expr → Expr} {cs cs' : List Expr}

/-- To rewrite the operands is to put others in their place. -/
theorem mapChildren_eq_withChildren (g : Expr → Expr) (e : Expr) :
    e.mapChildren g = e.withChildren (e.children.map g) := by
  cases e <;> rfl

theorem withChildren_children (e : Expr) : e.withChildren e.children = e := by
  cases e <;> rfl

/-- The new operands are there. -/
theorem children_withChildren (h : cs.length = e.children.length) : (e.withChildren cs).children = cs := by
  cases e with
  | literal | var | global => exact (List.length_eq_zero_iff.mp h).symm
  | call | list => rfl
  | field | unary =>
    obtain ⟨c, rfl⟩ := List.length_eq_one_iff.mp h
    rfl
  | binary =>
    obtain ⟨c, c', rfl⟩ := List.length_eq_two.mp h
    rfl
  -- a method call needs its receiver; the other operands may be of any number
  | method =>
    cases cs with
    | nil => cases h
    | cons c cs => rfl

/-- Of two changes of the operands the second one counts. -/
theorem withChildren_withChildren (h : cs'.length = e.children.length) :
    (e.withChildren cs).withChildren cs' = e.withChildren cs' := by
  cases e with
  | literal | var | global | call | list => rfl
  | field | unary =>
    obtain ⟨c, rfl⟩ := List.length_eq_one_iff.mp h
    rfl
  | binary =>
    obtain ⟨c, c', rfl⟩ := List.length_eq_two.mp h
    rfl
  | method =>
    cases cs' with
    | nil => cases h
    | cons c cs => rfl

/-- An edit leaves as many expressions. -/
theorem length_editIn (place : List Nat) (es : List Expr) : (editIn step place es).length = es.length := by
  cases place with
  | nil => rfl
  | cons i path => exact List.length_modify _ _ _

/-- So do any edits. -/
theorem length_foldr_editIn (ps : List (List Nat)) (es : List Expr) :
    (ps.foldr (editIn step) es).length = es.length := by
  induction ps with
  | nil => rfl
  | cons place ps ih => rw [List.foldr_cons, length_editIn, ih]

/-- Edits below one expression are edits of its operands. -/
theorem foldr_editIn_below (i : Nat) {ps : List (List Nat)} (hps : ∀ place ∈ ps, place ≠ []) (es : List Expr) :
    (ps.map (i :: ·)).foldr (editIn step) es =
      es.modify i fun e => e.withChildren (ps.foldr (editIn step) e.children) := by
  induction ps with
  | nil =>
    -- without places nothing changes, and putting the same children back is no change
    have hself : (fun e : Expr => e.withChildren (List.foldr (editIn step) e.children [])) = id :=
      funext withChildren_children
    rw [hself, List.modify_id]
    rfl
  | cons place ps ih =>
    obtain ⟨hplace, hps⟩ := List.forall_mem_cons.mp hps
    rw [List.map_cons, List.foldr_cons, ih hps, editIn, List.modify_modify_eq]
    congr 1
    funext e
    -- edits further down keep the number of operands, so the children read back
    have hlen : (ps.foldr (editIn step) e.children).length = e.children.length := length_foldr_editIn ps e.children
    cases place with
    | nil => exact absurd rfl hplace
    | cons j path =>
      rw [Function.comp_apply, editAt, children_withChildren hlen, List.foldr_cons, editIn,
        withChildren_withChildren ((List.length_modify _ _ _).trans hlen)]

/-- A change of the expression behind the first ones. -/
theorem modify_front (g : Expr → Expr) (front es : List Expr) (e : Expr) :
    (front ++ e :: es).modify front.length g = front ++ g e :: es := by
  induction front with
  | nil => rfl
  | cons c front ih => rw [List.cons_append, List.length_cons, List.modify_succ_cons, ih, List.cons_append]

/-- Edits at all places, the last place first. -/
theorem foldr_editIn_placesFrom (front es : List Expr) :
    (placesFrom front.length es).foldr (editIn step) (front ++ es) = front ++ es.map (mapParts step) := by
  induction es using parts_induct generalizing front with
  | nil =>
    rw [placesFrom]
    rfl
  | cons e es ihe ihes =>
    have hafter := ihes (front ++ [e])
    rw [List.append_assoc, List.singleton_append, List.length_append, List.length_singleton] at hafter
    -- the operands are a list of their own, with nothing before it
    have hbelow : (placesFrom 0 e.children).foldr (editIn step) e.children = e.children.map (mapParts step) := ihe []
    -- the expressions after this one first, then its operands, and then the expression
    calc (placesFrom front.length (e :: es)).foldr (editIn step) (front ++ e :: es)
        = editIn step [front.length] (((placesFrom 0 e.children).map (front.length :: ·)).foldr (editIn step)
            (front ++ e :: es.map (mapParts step))) := by
          rw [placesFrom, List.foldr_cons, List.foldr_append, hafter, List.append_assoc, List.singleton_append]
      _ = editIn step [front.length] (front ++ e.mapChildren (mapParts step) :: es.map (mapParts step)) := by
          rw [foldr_editIn_below _ fun _ => ne_nil_of_mem_placesFrom, modify_front, hbelow,
            mapChildren_eq_withChildren]
      _ = front ++ step (e.mapChildren (mapParts step)) :: es.map (mapParts step) := modify_front _ _ _ _
      _ = front ++ (e :: es).map (mapParts step) := by rw [List.map_cons, mapParts_eq]

/-- **A sweep from the last place to the first** does the step at the operands of a part before it does it at the part,
as the recursion does. -/
theorem sweep_eq_map (step : Expr → Expr) (es : List Expr) : sweep step es = es.map (mapParts step) := by
  rw [sweep, List.foldl_reverse]
  exact foldr_editIn_placesFrom [] es

end TemplateFrontend.Expr
