import Mathlib.Data.List.Nodup
import Mathlib.Logic.Relation
/-!
# Walks in depth first

Two ways to meet items and everything inside them: with a stack of the items that are still to be met, and by
recursion into each item. What is inside an item is given by a list, `inside`; nothing says that these lists come to
an end, so a walk is a relation between the items it starts at and those it meets, and a derivation is a walk that
ends.

The two are the same (`stackWalk_iff_depthFirst`): while the first one runs, its stack is, from the end, what the
second one has still to go through. What a walk meets is then read off the recursion.

* `StackWalk`, `DepthFirst` — the two walks;
* `DepthFirst.eq` — a walk meets one list of items only;
* `DepthFirst.exists_of_acc` — it ends if nothing is inside itself;
* `DepthFirst.mem_iff` — it meets what is inside, at any depth;
* `DepthFirst.nodup` — and meets it once, if no item is inside two others;
* `DepthFirst.before` — an item is met before those inside it.
-/

namespace TemplateFrontend

/-- The walk with a stack: the item at the end of the stack is taken off and met, and those inside it are put onto the
stack, the first of them last. It ends when there is nothing on the stack. -/
inductive StackWalk {α : Type} (inside : α → List α) : (stack met : List α) → Prop
  | done : StackWalk inside [] []
  | pop {a : α} {stack met : List α} (h : StackWalk inside (stack ++ (inside a).reverse) met) :
      StackWalk inside (stack ++ [a]) (a :: met)

/-- The walk by recursion: an item, then those inside it, then those after it. -/
inductive DepthFirst {α : Type} (inside : α → List α) : (items met : List α) → Prop
  | nil : DepthFirst inside [] []
  | cons {a : α} {items below after : List α} (hbelow : DepthFirst inside (inside a) below)
      (hafter : DepthFirst inside items after) : DepthFirst inside (a :: items) (a :: (below ++ after))

section Walks

variable {α β : Type} {inside : α → List α} {items items' met met' stack : List α} {a b : α}

namespace DepthFirst

theorem cons_iff : DepthFirst inside (a :: items) met ↔
    ∃ below after, met = a :: (below ++ after) ∧ DepthFirst inside (inside a) below ∧
      DepthFirst inside items after := by
  constructor
  · intro h
    cases h with
    | cons hbelow hafter => exact ⟨_, _, rfl, hbelow, hafter⟩
  · rintro ⟨below, after, rfl, hbelow, hafter⟩
    exact .cons hbelow hafter

theorem singleton (h : DepthFirst inside (inside a) met) : DepthFirst inside [a] (a :: met) := by
  have hcons := cons h nil
  rwa [List.append_nil] at hcons

theorem append_iff : DepthFirst inside (items ++ items') met ↔
    ∃ front rest, met = front ++ rest ∧ DepthFirst inside items front ∧ DepthFirst inside items' rest := by
  induction items generalizing met with
  | nil =>
    constructor
    · intro h
      exact ⟨[], met, rfl, nil, h⟩
    · rintro ⟨front, rest, rfl, hfront, hrest⟩
      cases hfront
      exact hrest
  | cons a items ih =>
    -- the first item with what is below it, and the others
    rw [List.cons_append, cons_iff]
    constructor
    · rintro ⟨below, after, rfl, hbelow, hafter⟩
      obtain ⟨front, rest, rfl, hfront, hrest⟩ := ih.mp hafter
      exact ⟨a :: (below ++ front), rest, by simp, cons hbelow hfront, hrest⟩
    · rintro ⟨front, rest, rfl, hfront, hrest⟩
      obtain ⟨below, after, rfl, hbelow, hafter⟩ := cons_iff.mp hfront
      exact ⟨below, after ++ rest, by simp, hbelow, ih.mpr ⟨after, rest, rfl, hafter, hrest⟩⟩

/-- Walks one after the other. -/
theorem flatMap {parts : List β} {start walk : β → List α} (h : ∀ b ∈ parts, DepthFirst inside (start b) (walk b)) :
    DepthFirst inside (parts.flatMap start) (parts.flatMap walk) := by
  induction parts with
  | nil => exact nil
  | cons b parts ih =>
    obtain ⟨hfirst, hparts⟩ := List.forall_mem_cons.mp h
    rw [List.flatMap_cons, List.flatMap_cons]
    exact append_iff.mpr ⟨_, _, rfl, hfirst, ih hparts⟩

theorem of_forall {walk : α → List α} (h : ∀ a ∈ items, DepthFirst inside [a] (walk a)) :
    DepthFirst inside items (items.flatMap walk) := by
  have hwalk := flatMap h
  rwa [List.flatMap_singleton'] at hwalk

/-- **One result.** -/
theorem eq (h : DepthFirst inside items met) (h' : DepthFirst inside items met') : met = met' := by
  induction h generalizing met' with
  | nil => cases h'; rfl
  | cons _ _ ihbelow ihafter =>
    obtain ⟨below, after, rfl, hbelow, hafter⟩ := cons_iff.mp h'
    rw [ihbelow hbelow, ihafter hafter]

end DepthFirst

/-! ### The stack -/

/-- What is put onto a stack is met first. -/
theorem DepthFirst.stackWalk_append (h : DepthFirst inside items met) (hstack : StackWalk inside stack met') :
    StackWalk inside (stack ++ items.reverse) (met ++ met') := by
  induction h generalizing stack met' with
  | nil =>
    rw [List.reverse_nil, List.append_nil]
    exact hstack
  | cons _ _ ihbelow ihafter =>
    -- the items after this one are still on the stack when those inside it are met
    have hwalk := ihbelow (ihafter hstack)
    rw [← List.append_assoc] at hwalk
    rw [List.reverse_cons, ← List.append_assoc, List.cons_append]
    exact .pop hwalk

/-- **The stack is what is left of the recursion.** -/
theorem StackWalk.depthFirst (h : StackWalk inside stack met) : DepthFirst inside stack.reverse met := by
  induction h with
  | done => exact .nil
  | pop _ ih =>
    rw [List.reverse_append, List.reverse_reverse, DepthFirst.append_iff] at ih
    obtain ⟨below, after, rfl, hbelow, hafter⟩ := ih
    rw [List.reverse_append, List.reverse_singleton, List.singleton_append]
    exact .cons hbelow hafter

theorem stackWalk_iff_depthFirst : StackWalk inside items.reverse met ↔ DepthFirst inside items met := by
  constructor
  · intro h
    rw [← List.reverse_reverse items]
    exact h.depthFirst
  · intro h
    have hwalk := h.stackWalk_append .done
    rwa [List.nil_append, List.append_nil] at hwalk

/-- The items are met in this order: both walks end, and this is the only result. -/
structure Walked (inside : α → List α) (items met : List α) : Prop where
  stackWalk_iff : ∀ {met'}, StackWalk inside items.reverse met' ↔ met' = met
  depthFirst : DepthFirst inside items met

theorem DepthFirst.walked (h : DepthFirst inside items met) : Walked inside items met where
  stackWalk_iff := by
    intro met'
    rw [stackWalk_iff_depthFirst]
    constructor
    · intro h'
      exact h'.eq h
    · rintro rfl
      exact h
  depthFirst := h

/-! ### Walks that end -/

namespace DepthFirst

theorem exists_of_forall (h : ∀ a ∈ items, ∃ met, DepthFirst inside [a] met) : ∃ met, DepthFirst inside items met := by
  induction items with
  | nil => exact ⟨[], nil⟩
  | cons a items ih =>
    obtain ⟨⟨front, hfront⟩, hitems⟩ := List.forall_mem_cons.mp h
    obtain ⟨rest, hrest⟩ := ih hitems
    exact ⟨front ++ rest, append_iff.mpr ⟨front, rest, rfl, hfront, hrest⟩⟩

/-- **The walk ends** at an item below which no descent goes on forever. -/
theorem exists_of_acc (h : Acc (fun b a => b ∈ inside a) a) : ∃ met, DepthFirst inside [a] met := by
  induction h with
  | intro a _ ih =>
    obtain ⟨below, hbelow⟩ := exists_of_forall ih
    exact ⟨a :: below, hbelow.singleton⟩

/-! ### What is met -/

theorem items_sublist (h : DepthFirst inside items met) : items.Sublist met := by
  induction h with
  | nil => exact .slnil
  | cons _ _ _ ihafter => exact (ihafter.trans (List.sublist_append_right _ _)).cons_cons _

/-- What is inside an item is met with it. -/
theorem closed (h : DepthFirst inside items met) (ha : a ∈ met) : inside a ⊆ met := by
  induction h with
  | nil => cases ha
  | cons hbelow _ ihbelow ihafter =>
    intro b hb
    obtain rfl | ha := List.mem_cons.mp ha
    · exact List.mem_cons_of_mem _ (List.mem_append_left _ (hbelow.items_sublist.subset hb))
    · obtain ha | ha := List.mem_append.mp ha
      · exact List.mem_cons_of_mem _ (List.mem_append_left _ (ihbelow ha hb))
      · exact List.mem_cons_of_mem _ (List.mem_append_right _ (ihafter ha hb))

/-- **What is met** are the items and what is inside them at any depth. -/
theorem mem_iff (h : DepthFirst inside items met) :
    b ∈ met ↔ ∃ a ∈ items, Relation.ReflTransGen (fun a b => b ∈ inside a) a b := by
  constructor
  · intro hb
    -- the path is found along the search, and the search follows every path
    induction h with
    | nil => cases hb
    | cons _ _ ihbelow ihafter =>
      obtain rfl | hb := List.mem_cons.mp hb
      · exact ⟨_, List.mem_cons_self, .refl⟩
      · obtain hb | hb := List.mem_append.mp hb
        · obtain ⟨c, hc, hpath⟩ := ihbelow hb
          exact ⟨_, List.mem_cons_self, .head hc hpath⟩
        · obtain ⟨c, hc, hpath⟩ := ihafter hb
          exact ⟨c, List.mem_cons_of_mem _ hc, hpath⟩
  · rintro ⟨a, ha, hpath⟩
    induction hpath with
    | refl => exact h.items_sublist.subset ha
    | tail _ hstep ih => exact h.closed ih hstep

/-- Another view of the items, if it agrees on what is inside those that are met. -/
theorem map (h : DepthFirst inside items met) {inside' : β → List β} (view : α → β)
    (hview : ∀ a ∈ met, inside' (view a) = (inside a).map view) :
    DepthFirst inside' (items.map view) (met.map view) := by
  induction h with
  | nil => exact nil
  | cons _ _ ihbelow ihafter =>
    obtain ⟨hself, hmet⟩ := List.forall_mem_cons.mp hview
    obtain ⟨hbelow, hafter⟩ := List.forall_mem_append.mp hmet
    have hinside := ihbelow hbelow
    rw [← hself] at hinside
    rw [List.map_cons, List.map_cons, List.map_append]
    exact cons hinside (ihafter hafter)

/-- Only what is inside of the items that are met matters. -/
theorem congr (h : DepthFirst inside items met) {inside' : α → List α} (hinside : ∀ a ∈ met, inside' a = inside a) :
    DepthFirst inside' items met := by
  have hview : ∀ a ∈ met, inside' (id a) = (inside a).map id := fun a ha => (hinside a ha).trans (List.map_id _).symm
  have hmap := h.map id hview
  rwa [List.map_id, List.map_id] at hmap

/-- **Before and after.** An item is met before each of those inside it. -/
theorem before (h : DepthFirst inside items met) (ha : a ∈ met) (hb : b ∈ inside a) : [a, b].Sublist met := by
  induction h with
  | nil => cases ha
  | cons hbelow _ ihbelow ihafter =>
    obtain rfl | ha := List.mem_cons.mp ha
    · have hmet := List.singleton_sublist.mpr (hbelow.items_sublist.subset hb)
      exact (hmet.trans (List.sublist_append_left _ _)).cons_cons _
    · refine .cons _ ?_
      obtain ha | ha := List.mem_append.mp ha
      · exact (ihbelow ha).trans (List.sublist_append_left _ _)
      · exact (ihafter ha).trans (List.sublist_append_right _ _)

/-! ### Each item once -/

/-- **Items and lists.** What is met are the items that the walk starts at and the lists inside those that are met. -/
theorem perm (h : DepthFirst inside items met) : (items ++ met.flatMap inside).Perm met := by
  induction h with
  | nil => exact .nil
  | @cons a items below after _ _ ihbelow ihafter =>
    classical
    refine List.perm_iff_count.mpr fun x => ?_
    have hbelow := ihbelow.count_eq x
    have hafter := ihafter.count_eq x
    simp only [List.flatMap_cons, List.flatMap_append, List.cons_append, List.count_cons, List.count_append]
      at hbelow hafter ⊢
    omega

/-- An item that is inside one other only is in the lists no more often than this one is met. -/
theorem count_flatMap_le [BEq α] [LawfulBEq α] (howner : ∀ c ∈ met, b ∈ inside c → c = a)
    (hnodup : (inside a).Nodup) : (met.flatMap inside).count b ≤ met.count a := by
  induction met with
  | nil => exact Nat.le_refl _
  | cons c met ih =>
    obtain ⟨hc, hmet⟩ := List.forall_mem_cons.mp howner
    have hrest := ih hmet
    rw [List.flatMap_cons, List.count_append]
    -- only the one owner holds it, and holds it once
    by_cases hb : b ∈ inside c
    · obtain rfl := hc hb
      have hself := List.nodup_iff_count_le_one.mp hnodup b
      rw [List.count_cons_self]
      omega
    · rw [List.count_eq_zero_of_not_mem hb, Nat.zero_add]
      exact Nat.le_trans hrest ((List.sublist_cons_self c met).count_le a)

/-- **Each item once**, if no item is inside two others, or twice inside one, and those that the walk starts at are
inside none. -/
theorem nodup (h : DepthFirst inside items met) (hitems : items.Nodup) (hinside : ∀ a ∈ met, (inside a).Nodup)
    (hroot : ∀ a ∈ met, ∀ x ∈ inside a, x ∉ items)
    (howner : ∀ a ∈ met, ∀ b ∈ met, ∀ x ∈ inside a, x ∈ inside b → b = a) : met.Nodup := by
  classical
  -- an item is met as a root, or in the list of an item that is met
  have hcount : ∀ x, met.count x = items.count x + (met.flatMap inside).count x := by
    intro x
    rw [← h.perm.count_eq x, List.count_append]
  -- along the path that leads to an item: its owner is met once, so it is
  have hpath : ∀ a ∈ items, ∀ x, Relation.ReflTransGen (fun a b => b ∈ inside a) a x → met.count x ≤ 1 := by
    intro a ha x hx
    induction hx with
    | refl =>
      have hself := List.nodup_iff_count_le_one.mp hitems a
      have hlists : a ∉ met.flatMap inside := by
        intro hmem
        obtain ⟨b, hb, hmem⟩ := List.mem_flatMap.mp hmem
        exact hroot b hb a hmem ha
      rw [hcount, List.count_eq_zero_of_not_mem hlists]
      exact hself
    | @tail b x hpath hstep ih =>
      have hb : b ∈ met := h.mem_iff.mpr ⟨a, ha, hpath⟩
      rw [hcount, List.count_eq_zero_of_not_mem (hroot b hb x hstep), Nat.zero_add]
      have hlists := count_flatMap_le (fun c hc hx => howner b hb c hc x hstep hx) (hinside b hb)
      exact Nat.le_trans hlists ih
  refine List.nodup_iff_count_le_one.mpr fun x => ?_
  by_cases hx : x ∈ met
  · obtain ⟨a, ha, hx⟩ := h.mem_iff.mp hx
    exact hpath a ha x hx
  · rw [List.count_eq_zero_of_not_mem hx]
    exact Nat.zero_le 1

end DepthFirst

end Walks

end TemplateFrontend
