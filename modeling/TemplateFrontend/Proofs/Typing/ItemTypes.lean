import Mathlib.Data.List.Perm.Subperm
import TemplateFrontend.Proofs.Expr.Parts
import TemplateFrontend.Proofs.ValueType.Order
/-!
# Types of items in different orders

The items of a list get one type by joining theirs one after the other, starting at the first. A join keeps
the type that it has if that accepts the next one, climbs to the next one if only that one accepts it, and else
ends at `any` for good. So the order of the items matters in two ways. Of two types that accept each other,
as loose types do, the one that comes first is kept; and a type that accepts all others helps only if it
comes before two of which neither accepts the other one.

* `ValueType.Under`, `ValueType.Apart` — a type stands under another one, or has nothing to do with it;
* `ValueType.join_cases` — the three things that a join does;
* `ValueType.joinAll_ne_any_iff` — the lists for which some order does not end at `any`;
* `ValueType.joinAll_eq_top` — a type above all others of a chain is found in every order;
* `ValueType.orderFree_iff` — the lists whose type is the same in every order;
* `ValueType.joinAll_orderFree_iff` — when two, three and more types can be joined in any order, and that the
  type of a list expression depends on the order of its items in the same way.
-/

namespace TemplateFrontend

namespace ValueType

variable {a b c t u : ValueType} {ts us : List ValueType}

/-! ### One join -/

/-- The type `any` accepts every type. -/
theorem any_accepts (b : ValueType) : any.accepts b = true := accepts_of_isLoose_left rfl b

theorem accepts_any (a : ValueType) : a.accepts .any = true := by cases a <;> rfl

/-- The second type accepts the first one, and not the other way round. -/
def Under (a b : ValueType) : Prop := b.accepts a = true ∧ a.accepts b = false

/-- Neither type accepts the other one. -/
def Apart (a b : ValueType) : Prop := a.accepts b = false ∧ b.accepts a = false

/-- No type is apart from itself. -/
theorem not_apart_self (t : ValueType) : ¬ Apart t t := fun h =>
  Bool.false_ne_true (h.1.symm.trans (accepts_self t))

/-- Nothing is above `any`. -/
theorem Under.left_ne_any (h : Under a b) : a ≠ .any := by
  rintro rfl
  exact Bool.false_ne_true (h.2.symm.trans (any_accepts b))

/-- The type `any` is above nothing, since every type accepts it. -/
theorem Under.right_ne_any (h : Under a b) : b ≠ .any := by
  rintro rfl
  exact Bool.false_ne_true (h.2.symm.trans (accepts_any a))

/-- The type `any` is apart from nothing. -/
theorem Apart.left_ne_any (h : Apart a b) : a ≠ .any := by
  rintro rfl
  exact Bool.false_ne_true (h.1.symm.trans (any_accepts b))

/-- A type that accepts the other one is kept. -/
theorem join_of_accepts (h : a.accepts b = true) : a.join b = a := by rw [join_eq, if_pos h]

/-- A type under the other one gives way to it. -/
theorem join_of_under (h : Under a b) : a.join b = b := by
  rw [join_eq, if_neg (Bool.eq_false_iff.mp h.2), if_pos h.1]

/-- Types that are apart are joined to `any`. -/
theorem join_of_apart (h : Apart a b) : a.join b = .any := by
  rw [join_eq, if_neg (Bool.eq_false_iff.mp h.1), if_neg (Bool.eq_false_iff.mp h.2)]

/-- The first type accepts the second one, is under it, or is apart from it. -/
theorem accepts_cases (a b : ValueType) : a.accepts b = true ∨ Under a b ∨ Apart a b := by
  cases hab : a.accepts b with
  | true => exact .inl rfl
  | false =>
    cases hba : b.accepts a with
    | true => exact .inr (.inl ⟨hba, hab⟩)
    | false => exact .inr (.inr ⟨hab, hba⟩)

/-- **What a join does**: it keeps the first type, climbs to the second one, or ends at `any`. -/
theorem join_cases (a b : ValueType) :
    (a.accepts b = true ∧ a.join b = a) ∨ (Under a b ∧ a.join b = b) ∨
      (Apart a b ∧ a.join b = .any) := by
  obtain h | h | h := accepts_cases a b
  · exact .inl ⟨h, join_of_accepts h⟩
  · exact .inr (.inl ⟨h, join_of_under h⟩)
  · exact .inr (.inr ⟨h, join_of_apart h⟩)

/-- What two types are joined to accepts the second one. -/
theorem join_accepts_right (a b : ValueType) : (a.join b).accepts b = true := by
  obtain ⟨h, heq⟩ | ⟨-, heq⟩ | ⟨-, heq⟩ := join_cases a b
  · rwa [heq]
  · rw [heq, accepts_self]
  · rw [heq, any_accepts]

/-- The first type is kept if it accepts the second one. -/
theorem join_eq_left_iff : a.join b = a ↔ a.accepts b = true := by
  refine ⟨fun heq => ?_, join_of_accepts⟩
  obtain ⟨h, -⟩ | ⟨-, h⟩ | ⟨-, h⟩ := join_cases a b
  · exact h
  · rw [← heq, h, accepts_self]
  · rw [← heq, h, any_accepts]

/-- The second type is what comes out if both are the same, or the first is under it. -/
theorem join_eq_right_iff : a.join b = b ↔ a = b ∨ Under a b := by
  constructor
  · intro heq
    obtain ⟨-, h⟩ | ⟨h, -⟩ | ⟨hapart, h⟩ := join_cases a b
    · exact .inl (h.symm.trans heq)
    · exact .inr h
    · -- what is joined to `any` is not `any`
      obtain rfl := heq.symm.trans h
      exact absurd (accepts_any a) (Bool.eq_false_iff.mp hapart.1)
  · rintro (rfl | h)
    · exact join_self a
    · exact join_of_under h

/-- The join is `any` if the first type is, or if both are apart. -/
theorem join_eq_any_iff : a.join b = .any ↔ a = .any ∨ Apart a b := by
  constructor
  · intro heq
    obtain ⟨-, h⟩ | ⟨hunder, h⟩ | ⟨h, -⟩ := join_cases a b
    · exact .inl (h.symm.trans heq)
    · exact absurd (h.symm.trans heq) hunder.right_ne_any
    · exact .inr h
  · rintro (rfl | h)
    · exact join_of_accepts (any_accepts b)
    · exact join_of_apart h

/-- The order of two types matters if they are different and accept each other. -/
theorem join_comm_iff : a.join b = b.join a ↔ a = b ∨ ¬ (a.accepts b = true ∧ b.accepts a = true) := by
  obtain h | h | h := accepts_cases a b
  · rw [join_of_accepts h, eq_comm, join_eq_right_iff, eq_comm, Under, h]
    simp
  · simp [join_of_under h, join_of_accepts h.1, h.2]
  · simp [join_of_apart h, join_of_apart h.symm, h.1]

/-- Three types can be joined in two ways, which agree if the last type is accepted where the first two
end, or stands above them. -/
theorem join_assoc_iff : (a.join b).join c = a.join (b.join c) ↔
    (a.accepts b = true ∧ (a.accepts c = true ∨ Under b c)) ∨
      (Under a b ∧ (b.accepts c = true ∨ (Under b c ∧ Under a c))) ∨
      (Apart a b ∧ (b.accepts c = true ∨ (Under b c ∧ Apart a c))) := by
  obtain h | h | h := accepts_cases a b
  · -- the first two types are joined to the first one
    rw [join_of_accepts h]
    obtain h' | h' | h' := accepts_cases b c
    · rw [join_of_accepts h', join_of_accepts h, join_eq_left_iff]
      simp [Under, Apart, h, h']
    · rw [join_of_under h']
      simp [h, h']
    · rw [join_of_apart h', join_of_accepts (accepts_any a), join_eq_left_iff]
      simp [Under, Apart, h, h'.1, h'.2]
  · -- they are joined to the second one
    rw [join_of_under h]
    obtain h' | h' | h' := accepts_cases b c
    · rw [join_of_accepts h', join_of_under h]
      simp [h, h']
    · have hne : a ≠ c := by
        rintro rfl
        exact Bool.false_ne_true (h'.2.symm.trans h.1)
      rw [join_of_under h', eq_comm, join_eq_right_iff]
      simp [h, h', h'.2, hne, Apart, h.1, h.2]
    · rw [join_of_apart h', join_of_accepts (accepts_any a)]
      simp [Under, Apart, h.1, h.2, h'.1, h'.2, h.left_ne_any.symm]
  · -- they are joined to `any`
    rw [join_of_apart h, join_of_accepts (any_accepts c)]
    obtain h' | h' | h' := accepts_cases b c
    · rw [join_of_accepts h', join_of_apart h]
      simp [h, h']
    · rw [join_of_under h', eq_comm, join_eq_any_iff]
      simp [h, h'.2, h.left_ne_any, Under, h.1, h.2, h'.1]
    · rw [join_of_apart h', join_of_accepts (accepts_any a)]
      simp [Under, h.1, h.2, h'.1, h'.2, h.left_ne_any.symm]

/-! ### Lists of items -/

theorem joinAll_cons (t : ValueType) (ts : List ValueType) : joinAll (t :: ts) = ts.foldl join t := rfl

/-- The item at the end is joined last. -/
theorem joinAll_concat (hts : ts ≠ []) (u : ValueType) : joinAll (ts ++ [u]) = (joinAll ts).join u := by
  cases ts with
  | nil => exact absurd rfl hts
  | cons t ts => rw [List.cons_append, joinAll_cons, joinAll_cons, List.foldl_append, List.foldl_cons, List.foldl_nil]

/-- From `any` no join leads away. -/
theorem foldl_join_any (ts : List ValueType) : ts.foldl join .any = .any := by
  induction ts with
  | nil => rfl
  | cons t ts ih => rw [List.foldl_cons, join_of_accepts (any_accepts t), ih]

/-- Items that a type accepts leave it as it is. -/
theorem foldl_join_of_accepts (h : ∀ u ∈ us, t.accepts u = true) : us.foldl join t = t := by
  induction us with
  | nil => rfl
  | cons u us ih =>
    rw [List.foldl_cons, join_of_accepts (h u List.mem_cons_self)]
    exact ih fun v hv => h v (List.mem_cons_of_mem u hv)

/-- Joins that do not end at `any` end at one of the items. -/
theorem foldl_join_mem (t : ValueType) (us : List ValueType) :
    us.foldl join t = .any ∨ us.foldl join t ∈ t :: us := by
  induction us generalizing t with
  | nil => exact .inr (List.mem_singleton_self t)
  | cons u us ih =>
    rw [List.foldl_cons]
    -- the join of two types is one of them, or `any`
    obtain ⟨-, h⟩ | ⟨-, h⟩ | ⟨-, h⟩ := join_cases t u
    · rw [h]
      refine (ih t).imp_right fun hmem => ?_
      exact (List.cons_subset_cons t (List.subset_cons_self u us)) hmem
    · rw [h]
      exact (ih u).imp_right (List.mem_cons_of_mem t)
    · rw [h]
      exact .inl (foldl_join_any us)

/-! ### Climbing -/

/-- Some of the items stand one above the other, `any` is not among them, and each item is accepted by one
of them. -/
def Climbs (ts : List ValueType) : Prop :=
  ∃ t chain, (t :: chain).Subperm ts ∧ (t :: chain).IsChain Under ∧ .any ∉ t :: chain ∧
    ∀ u ∈ ts, ∃ v ∈ t :: chain, v.accepts u = true

/-- The types at which joins stop on their way up. -/
theorem exists_chain_of_foldl (h : us.foldl join t ≠ .any) :
    ∃ chain, chain.Sublist us ∧ (t :: chain).IsChain Under ∧ .any ∉ t :: chain ∧
      ∀ u ∈ us, ∃ v ∈ t :: chain, v.accepts u = true := by
  induction us generalizing t with
  | nil =>
    refine ⟨[], .slnil, .singleton t, fun hmem => h ?_, fun u hu => nomatch hu⟩
    exact (List.mem_singleton.mp hmem).symm
  | cons u us ih =>
    rw [List.foldl_cons] at h
    obtain ⟨haccepts, heq⟩ | ⟨hunder, heq⟩ | ⟨-, heq⟩ := join_cases t u
    · -- the type stays, and accepts the item
      obtain ⟨chain, hsub, hchain, hany, hcover⟩ := ih (heq ▸ h)
      refine ⟨chain, hsub.cons u, hchain, hany, List.forall_mem_cons.mpr ⟨?_, hcover⟩⟩
      exact ⟨t, List.mem_cons_self, haccepts⟩
    · -- the item is the next stop
      obtain ⟨chain, hsub, hchain, hany, hcover⟩ := ih (heq ▸ h)
      refine ⟨u :: chain, hsub.cons_cons u, hchain.cons_cons hunder, ?_, List.forall_mem_cons.mpr ⟨?_, ?_⟩⟩
      · exact List.not_mem_cons_of_ne_of_not_mem hunder.left_ne_any.symm hany
      · exact ⟨u, List.mem_cons_of_mem t List.mem_cons_self, accepts_self u⟩
      · intro v hv
        obtain ⟨w, hw, hwv⟩ := hcover v hv
        exact ⟨w, List.mem_cons_of_mem t hw, hwv⟩
    · -- there is no way back from `any`
      rw [heq, foldl_join_any] at h
      exact absurd rfl h

/-- Items that are accepted along a chain can be put in between, so that the joins end at its top. -/
theorem exists_order_of_chain {chain others : List ValueType} (hchain : (t :: chain).IsChain Under)
    (hcover : ∀ u ∈ others, ∃ v ∈ t :: chain, v.accepts u = true) :
    ∃ us : List ValueType, us.Perm (chain ++ others) ∧ us.foldl join t ∈ t :: chain := by
  induction chain generalizing t others with
  | nil =>
    refine ⟨others, .refl _, ?_⟩
    have haccepts : ∀ u ∈ others, t.accepts u = true := by
      intro u hu
      obtain ⟨v, hv, hvu⟩ := hcover u hu
      rwa [List.mem_singleton.mp hv] at hvu
    rw [foldl_join_of_accepts haccepts]
    exact List.mem_singleton_self t
  | cons v chain ih =>
    -- what the bottom of the chain accepts comes first, then the next type of the chain
    obtain ⟨hunder, hchain⟩ := List.isChain_cons_cons.mp hchain
    let early := others.filter (t.accepts ·)
    let late := others.filter (!t.accepts ·)
    have hlate : ∀ u ∈ late, ∃ w ∈ v :: chain, w.accepts u = true := by
      intro u hu
      obtain ⟨hmem, hrefuses⟩ := List.mem_filter.mp hu
      obtain ⟨w, hw, hwu⟩ := hcover u hmem
      obtain rfl | hw := List.mem_cons.mp hw
      · simp [hwu] at hrefuses
      · exact ⟨w, hw, hwu⟩
    -- the others in an order that goes up the rest of the chain
    obtain ⟨us, hperm, hend⟩ := ih hchain hlate
    refine ⟨early ++ v :: us, ?_, ?_⟩
    · calc List.Perm (early ++ v :: us) (v :: (early ++ us)) := List.perm_middle
        List.Perm _ (v :: (early ++ (chain ++ late))) := (hperm.append_left early).cons v
        List.Perm _ (v :: (chain ++ (early ++ late))) := (List.perm_append_comm_assoc ..).cons v
        List.Perm _ (v :: (chain ++ others)) := ((List.filter_append_perm _ _).append_left chain).cons v
    · have hearly : ∀ u ∈ early, t.accepts u = true := fun u hu => (List.mem_filter.mp hu).2
      rw [List.foldl_append, foldl_join_of_accepts hearly, List.foldl_cons, join_of_under hunder]
      exact List.mem_cons_of_mem t hend

/-- **Lists that climb** are those that in some order do not end at `any`. -/
theorem climbs_iff : Climbs ts ↔ ∃ us, us.Perm ts ∧ us ≠ [] ∧ joinAll us ≠ .any := by
  constructor
  · rintro ⟨t, chain, hsub, hchain, hany, hcover⟩
    -- the items that are not in the chain are those to put in between
    obtain ⟨steps, hsteps, hsteps'⟩ := hsub
    obtain ⟨others, hothers⟩ := hsteps'.exists_perm_append
    have hall : ((t :: chain) ++ others).Perm ts :=
      calc List.Perm ((t :: chain) ++ others) (steps ++ others) := (hsteps.append_right others).symm
        List.Perm _ ts := hothers.symm
    obtain ⟨us, hperm, hend⟩ := exists_order_of_chain hchain fun u hu =>
      hcover u (hall.mem_iff.mp (List.mem_append_right _ hu))
    refine ⟨t :: us, (hperm.cons t).trans hall, List.cons_ne_nil t us, fun heq => hany ?_⟩
    rw [joinAll_cons] at heq
    rwa [← heq]
  -- back: the stops of such an order are a chain
  · rintro ⟨us, hperm, hne, hend⟩
    cases us with
    | nil => exact absurd rfl hne
    | cons t us =>
      obtain ⟨chain, hsub, hchain, hany, hcover⟩ := exists_chain_of_foldl hend
      refine ⟨t, chain, (hsub.cons_cons t).subperm.trans hperm.subperm, hchain, hany, fun u hu => ?_⟩
      obtain rfl | hu := List.mem_cons.mp (hperm.mem_iff.mpr hu)
      · exact ⟨u, List.mem_cons_self, accepts_self u⟩
      · exact hcover u hu

/-! ### Every order -/

/-- The type is one of the items and accepts all of them, and no other item accepts it. -/
def IsTop (t : ValueType) (ts : List ValueType) : Prop :=
  t ∈ ts ∧ ∀ u ∈ ts, t.accepts u = true ∧ (u.accepts t = true → u = t)

/-- Of any two items, one accepts the other one. -/
def Comparable (ts : List ValueType) : Prop := ∀ t ∈ ts, ∀ u ∈ ts, ¬ Apart t u

/-- Joins that start below the top of comparable items reach it, and stay there. -/
theorem foldl_join_eq_top (htop : IsTop t ts) (hts : Comparable ts) (hu : u ∈ ts) (hus : us ⊆ ts)
    (ht : t ∈ u :: us) : us.foldl join u = t := by
  induction us generalizing u with
  | nil => exact (List.mem_singleton.mp ht).symm
  | cons v us ih =>
    have hv : v ∈ ts := hus List.mem_cons_self
    have hrest : us ⊆ ts := fun w hw => hus (List.mem_cons_of_mem v hw)
    rw [List.foldl_cons]
    obtain ⟨haccepts, heq⟩ | ⟨hunder, heq⟩ | ⟨hapart, -⟩ := join_cases u v
    · rw [heq]
      refine ih hu hrest ?_
      obtain rfl | ht := List.mem_cons.mp ht
      · exact List.mem_cons_self
      · obtain rfl | ht := List.mem_cons.mp ht
        · -- only the top itself accepts the top
          rw [(htop.2 u hu).2 haccepts]
          exact List.mem_cons_self
        · exact List.mem_cons_of_mem u ht
    -- the next item takes over, and the top is it or comes later
    · rw [heq]
      refine ih hv hrest ?_
      obtain rfl | ht := List.mem_cons.mp ht
      · exact absurd (htop.2 v hv).1 (Bool.eq_false_iff.mp hunder.2)
      · exact ht
    -- comparable items are not apart
    · exact absurd hapart (hts u hu v hv)

/-- **The top of comparable items** is their type in every order. -/
theorem joinAll_eq_top (htop : IsTop t ts) (hts : Comparable ts) (hperm : us.Perm ts) :
    joinAll us = t := by
  have ht : t ∈ us := hperm.mem_iff.mpr htop.1
  cases us with
  | nil => cases ht
  | cons u us =>
    have hall : u :: us ⊆ ts := hperm.subset
    exact foldl_join_eq_top htop hts (hall List.mem_cons_self) (fun w hw => hall (List.mem_cons_of_mem u hw)) ht

/-- The type of the items is the same in every order. -/
def OrderFree (ts : List ValueType) : Prop := ∀ us, us.Perm ts → joinAll us = joinAll ts

section OrderFree

variable (h : OrderFree ts)

include h

/-- Each item could come last. -/
theorem OrderFree.accepts (hu : u ∈ ts) : (joinAll ts).accepts u = true := by
  have hperm : (ts.erase u ++ [u]).Perm ts :=
    (List.perm_append_singleton u _).trans (List.perm_cons_erase hu).symm
  rw [← h _ hperm]
  by_cases hrest : ts.erase u = []
  · rw [hrest]
    exact accepts_self u
  · rw [joinAll_concat hrest]
    exact join_accepts_right _ u

variable (hend : joinAll ts ≠ .any)

include hend

/-- Two items that have nothing to do with each other could come first. -/
theorem OrderFree.comparable : Comparable ts := by
  intro t ht u hu hapart
  have hne : u ≠ t := by
    rintro rfl
    exact not_apart_self u hapart
  have hmem : u ∈ ts.erase t := (List.mem_erase_of_ne hne).mpr hu
  have hperm : (t :: u :: (ts.erase t).erase u).Perm ts :=
    ((List.perm_cons_erase hmem).symm.cons t).trans (List.perm_cons_erase ht).symm
  have hany : joinAll (t :: u :: (ts.erase t).erase u) = .any := by
    rw [joinAll_cons, List.foldl_cons, join_of_apart hapart, foldl_join_any]
  exact hend ((h _ hperm).symm.trans hany)

/-- An item that accepts the type could come first, and then keep it out. -/
theorem OrderFree.eq_of_accepts (hu : u ∈ ts) (haccepts : u.accepts (joinAll ts) = true) :
    u = joinAll ts := by
  by_contra hne
  -- all items of the type itself come right behind the first one, so that none is left to climb to
  let same := (ts.erase u).filter (· == joinAll ts)
  let others := (ts.erase u).filter (!· == joinAll ts)
  have hperm : (u :: (same ++ others)).Perm ts :=
    ((List.filter_append_perm _ _).cons u).trans (List.perm_cons_erase hu).symm
  have hsame : ∀ v ∈ same, u.accepts v = true := by
    intro v hv
    rwa [eq_of_beq (List.mem_filter.mp hv).2]
  have hjoined : others.foldl join u = joinAll ts := by
    rw [← h _ hperm, joinAll_cons, List.foldl_append, foldl_join_of_accepts hsame]
  obtain hany | hmem := foldl_join_mem u others
  · exact hend (hjoined.symm.trans hany)
  · rw [hjoined] at hmem
    obtain heq | hmem := List.mem_cons.mp hmem
    · exact hne heq.symm
    · simpa using (List.mem_filter.mp hmem).2

end OrderFree

/-- **Lists whose type does not depend on the order**: either the items are comparable and one of them is
above all others, or no order keeps the joins from ending at `any`. -/
theorem orderFree_iff : OrderFree ts ↔ (∃ t, IsTop t ts) ∧ Comparable ts ∨ ¬ Climbs ts := by
  constructor
  · intro h
    refine or_iff_not_imp_right.mpr fun hclimbs => ?_
    obtain ⟨us, hperm, hne, hend⟩ := climbs_iff.mp (not_not.mp hclimbs)
    rw [h us hperm] at hend
    -- if some order does not end at `any`, all of them end at one item, which is the top
    have hmem : joinAll ts ∈ ts := by
      cases ts with
      | nil => exact absurd hperm.eq_nil hne
      | cons t ts => exact (foldl_join_mem t ts).resolve_left hend
    exact ⟨⟨joinAll ts, hmem, fun u hu => ⟨h.accepts hu, h.eq_of_accepts hend hu⟩⟩, h.comparable hend⟩
  · rintro (⟨⟨t, htop⟩, hts⟩ | hclimbs) us hperm
    -- with a top every order ends there
    · rw [joinAll_eq_top htop hts hperm, joinAll_eq_top htop hts (.refl ts)]
    · -- every order of a list that is not empty ends at `any`
      by_cases hne : us = []
      · rw [hne] at hperm
        rw [hne, hperm.symm.eq_nil]
      · have hend : ∀ vs, vs.Perm ts → vs ≠ [] → joinAll vs = .any := fun vs hvs hne =>
          by_contra fun h => hclimbs (climbs_iff.mpr ⟨vs, hvs, hne, h⟩)
        have hne' : ts ≠ [] := fun heq => hne (heq ▸ hperm).eq_nil
        rw [hend us hperm hne, hend ts (.refl ts) hne']

end ValueType

/-! ### Lists in expressions -/

/-- Items can be brought into the order of their types. -/
theorem exists_perm_map {α β : Type} {f : α → β} {as : List α} {bs : List β} (h : bs.Perm (as.map f)) :
    ∃ as' : List α, as'.Perm as ∧ as'.map f = bs := by
  have hmap : List.Forall₂ (fun b a => b = f a) (as.map f) as :=
    List.forall₂_map_left_iff.mpr (List.forall₂_same.mpr fun _ _ => rfl)
  obtain ⟨as', hall, hperm⟩ := List.perm_comp_forall₂ h hmap
  exact ⟨as', hperm, (List.forall₂_eq_eq_eq ▸ List.forall₂_map_right_iff.mpr hall).symm⟩

namespace Expr

open ValueType

variable (r : Resolver) (scope : TypeScope) (n : Note)

/-- A list has the type of its items joined. -/
theorem type_infer_list (es : List Expr) : ((list n es).infer r scope).1.type =
    .list (joinAll (es.map fun e => (e.infer r scope).1.type)) := by
  rw [infer]
  change (withType _ (list n (inferAll r scope es).1)).type = _
  rw [type_withType, inferAll_fst, List.map_map]
  rfl

/-- The type of a list is the same in every order of its items if that of their types is. -/
theorem type_list_perm_iff (es : List Expr) :
    (∀ fs : List Expr, fs.Perm es →
      ((list n fs).infer r scope).1.type = ((list n es).infer r scope).1.type) ↔
      OrderFree (es.map fun e => (e.infer r scope).1.type) := by
  simp only [type_infer_list, ValueType.list.injEq]
  constructor
  · intro h us hperm
    obtain ⟨fs, hfs, rfl⟩ := exists_perm_map hperm
    exact h fs hfs
  · intro h fs hperm
    exact h _ (hperm.map _)

end Expr

namespace ValueType

/-- **The order of joins.** Two types are joined to one type in both orders unless they are different and
accept each other, and three of them in both groupings as long as the last one is accepted or stands above.
The items of a list have one type in every order exactly if they are comparable with one of them above all
others, or if every order ends at `any`; and it is the order of its items that the type of a list expression
depends on in the same way. -/
theorem joinAll_orderFree_iff (a b c : ValueType) (ts : List ValueType) (r : Resolver) (scope : TypeScope)
    (n : Expr.Note) (es : List Expr) :
    (a.join b = b.join a ↔ a = b ∨ ¬ (a.accepts b = true ∧ b.accepts a = true)) ∧
    ((a.join b).join c = a.join (b.join c) ↔
      (a.accepts b = true ∧ (a.accepts c = true ∨ Under b c)) ∨
        (Under a b ∧ (b.accepts c = true ∨ (Under b c ∧ Under a c))) ∨
        (Apart a b ∧ (b.accepts c = true ∨ (Under b c ∧ Apart a c)))) ∧
    (OrderFree ts ↔ (∃ t, IsTop t ts) ∧ Comparable ts ∨ ¬ Climbs ts) ∧
    ((∀ fs : List Expr, fs.Perm es →
      ((Expr.list n fs).infer r scope).1.type = ((Expr.list n es).infer r scope).1.type) ↔
      OrderFree (es.map fun e => (e.infer r scope).1.type)) :=
  ⟨join_comm_iff, join_assoc_iff, orderFree_iff, Expr.type_list_perm_iff r scope n es⟩

/-- A loose type that comes second is dropped, and a type above two others helps only if it comes first. -/
theorem joinAll_heeds_order :
    (joinAll [.any, .int] = .any ∧ joinAll [.int, .any] = .int) ∧
      joinAll [.map .int .float, .map .float .int, .map .float .float] = .any ∧
      joinAll [.map .float .float, .map .int .float, .map .float .int] = .map .float .float ∧
      ¬ ∀ ts us : List ValueType, us.Perm ts → joinAll us = joinAll ts := by
  refine ⟨by decide, by decide, by decide, fun h => ?_⟩
  have hsame : joinAll [.any, .int] = joinAll [.int, .any] := h _ _ (List.Perm.swap ValueType.int ValueType.any [])
  revert hsame
  decide

end ValueType

end TemplateFrontend
