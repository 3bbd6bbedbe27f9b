import Mathlib.Order.Defs.PartialOrder
import TemplateFrontend.ValueType.Basic
import Mathlib.Order.Bounds.Basic
/-!
# The order of concrete types

A loose type goes with everything, in both directions, so acceptance is no order as long as such types take
part. Among the types in which none occurs it is one: the wider type accepts the narrower one, the
floating-point type stands above the integers, and lists and maps are ordered by their parts.

Two concrete types that some concrete type accepts differ only where one of them has the integers and the
other one the floating-point type. Taking the wider one in each of these places gives the narrowest type that
accepts both, `bound`. A join takes one of the two types as a whole, so it finds this type as long as all
the wider parts are on one side. Where each side is wider in another place, as in `map<int, float>` and
`map<float, int>`, the join gives up with `any`.

* `ValueType.isConcrete` — no loose type occurs in the type, at any depth;
* `ValueType.Narrower` — one type is narrower than another, by rules;
* `ValueType.accepts_iff` — concrete types accept what is narrower by the rules, and nothing else;
* `ConcreteType` — the concrete types with their partial order;
* `ValueType.accepts_isOrder` — acceptance is reflexive on all types, and an order on concrete ones;
* `ValueType.widens` — one type has the floating-point type where the other one has the integers;
* `ValueType.bound` — the wider part of each place;
* `ValueType.Narrower.iff_not_widens` — of types with a common bound, the narrower one is wider nowhere;
* `ValueType.join_narrowest` — when the join is the narrowest common type, and what it is else.
-/

namespace TemplateFrontend

namespace ValueType

/-- Whether the type is free of loose types, at any depth. -/
def isConcrete : ValueType → Bool
  | .unknown | .any => false
  | .list element => element.isConcrete
  | .map key value => key.isConcrete && value.isConcrete
  | _ => true

/-- A map is concrete if its keys and its values are. -/
theorem isConcrete_map {k v : ValueType} :
    (map k v).isConcrete = true ↔ k.isConcrete = true ∧ v.isConcrete = true := Bool.and_eq_true_iff

/-! ### Narrower types -/

/-- The first type is as narrow as the second one, or narrower. -/
inductive Narrower : ValueType → ValueType → Prop
  | refl (t : ValueType) : Narrower t t
  | int_float : Narrower .int .float
  | list {x y : ValueType} : Narrower x y → Narrower (.list x) (.list y)
  | map {k v k' v' : ValueType} : Narrower k k' → Narrower v v' → Narrower (.map k v) (.map k' v')

section Narrower

variable {a b c : ValueType}

/-- Narrower than a narrower type is narrower. -/
theorem Narrower.trans (hab : Narrower a b) (hbc : Narrower b c) : Narrower a c := by
  induction hab generalizing c with
  | refl t => exact hbc
  | int_float =>
    -- nothing else stands above the floating-point type
    cases hbc with
    | refl => exact .int_float
  | list hxy ih =>
    cases hbc with
    | refl => exact .list hxy
    | list hyz => exact .list (ih hyz)
  | map hk hv ihk ihv =>
    cases hbc with
    | refl => exact .map hk hv
    | map hk' hv' => exact .map (ihk hk') (ihv hv')

/-- Types of which each is narrower are the same. -/
theorem Narrower.antisymm (hab : Narrower a b) (hba : Narrower b a) : a = b := by
  induction hab with
  | refl t => rfl
  -- there is no way from float back to int
  | int_float => cases hba
  | list hxy ih =>
    cases hba with
    | refl => rfl
    | list hyx => rw [ih hyx]
  | map hk hv ihk ihv =>
    cases hba with
    | refl => rfl
    | map hk' hv' => rw [ihk hk', ihv hv']

/-- A type accepts those that are narrower. -/
theorem Narrower.accepts (h : Narrower a b) : b.accepts a = true := by
  induction h with
  | refl t => exact accepts_self t
  | int_float => rfl
  | list _ ih => exact ih
  | map _ _ ihk ihv => exact Bool.and_eq_true_iff.mpr ⟨ihk, ihv⟩

/-- What a concrete type accepts among concrete types is narrower by the rules. -/
theorem narrower_of_accepts (ha : a.isConcrete = true) (hb : b.isConcrete = true)
    (h : a.accepts b = true) : Narrower b a := by
  induction a generalizing b with
  | unknown | any => cases ha
  | list x ih =>
    cases b with
    | list y => exact .list (ih ha hb h)
    | unknown | any => cases hb
    | _ => cases h
  | map k v ihk ihv =>
    cases b with
    | map k' v' =>
      obtain ⟨hak, hav⟩ := isConcrete_map.mp ha
      obtain ⟨hbk, hbv⟩ := isConcrete_map.mp hb
      obtain ⟨hk, hv⟩ := Bool.and_eq_true_iff.mp h
      exact .map (ihk hak hbk hk) (ihv hav hbv hv)
    | unknown | any => cases hb
    | _ => cases h
  -- numbers with a point accept integers besides themselves
  | float =>
    cases b with
    | float => exact .refl _
    | int => exact .int_float
    | unknown | any => cases hb
    | _ => cases h
  | _ =>
    -- the other primitive types accept themselves only
    cases b with
    | unknown | any => cases hb
    | _ => first | exact .refl _ | cases h

/-- **What concrete types accept** is what the rules say. -/
theorem accepts_iff (ha : a.isConcrete = true) (hb : b.isConcrete = true) :
    a.accepts b = true ↔ Narrower b a :=
  ⟨narrower_of_accepts ha hb, Narrower.accepts⟩

end Narrower

end ValueType

/-! ### Concrete types -/

/-- A type in which no loose type occurs. -/
abbrev ConcreteType := { t : ValueType // t.isConcrete = true }

namespace ConcreteType

open ValueType

/-- The narrower type stands below the one that accepts it. -/
instance : PartialOrder ConcreteType where
  le a b := b.1.accepts a.1 = true
  le_refl a := accepts_self a.1
  le_trans a b c hab hbc :=
    (((accepts_iff b.2 a.2).mp hab).trans ((accepts_iff c.2 b.2).mp hbc)).accepts
  le_antisymm a b hab hba :=
    Subtype.ext (((accepts_iff b.2 a.2).mp hab).antisymm ((accepts_iff a.2 b.2).mp hba))

theorem le_iff {a b : ConcreteType} : a ≤ b ↔ b.1.accepts a.1 = true := Iff.rfl

end ConcreteType

namespace ValueType

/-- **Acceptance is an order.** Every type accepts its own values; and among types in which neither the
unknown type nor `any` occurs, acceptance can be chained, and types that accept each other are the same. -/
theorem accepts_isOrder :
    (∀ t : ValueType, t.accepts t = true) ∧
      ∀ a b c : ValueType, a.isConcrete = true → b.isConcrete = true → c.isConcrete = true →
        (a.accepts b = true → b.accepts c = true → a.accepts c = true) ∧
        (a.accepts b = true → b.accepts a = true → a = b) := by
  refine ⟨accepts_self, fun a b c ha hb hc => ⟨fun hab hbc => ?_, fun hab hba => ?_⟩⟩
  · have hcb : (⟨c, hc⟩ : ConcreteType) ≤ ⟨b, hb⟩ := hbc
    have hba : (⟨b, hb⟩ : ConcreteType) ≤ ⟨a, ha⟩ := hab
    exact ConcreteType.le_iff.mp (le_trans hcb hba)
  · have hle : (⟨a, ha⟩ : ConcreteType) ≤ ⟨b, hb⟩ := hba
    have hge : (⟨b, hb⟩ : ConcreteType) ≤ ⟨a, ha⟩ := hab
    exact congrArg Subtype.val (le_antisymm hle hge)

/-- Maps that are narrowed part by part, and one that is met again. -/
theorem accepts_isOrder_nestedMaps :
    let wide := map .float (list .float)
    let middle := map .int (list .float)
    let narrow := map .int (list .int)
    (wide.isConcrete = true ∧ middle.isConcrete = true ∧ narrow.isConcrete = true) ∧
      (wide.accepts middle = true ∧ middle.accepts narrow = true ∧ wide.accepts narrow = true) ∧
      middle.accepts wide = false ∧ wide.accepts wide = true ∧ wide = wide := by
  intro wide middle narrow
  obtain ⟨hself, horder⟩ := accepts_isOrder
  have htrans : wide.accepts narrow = true := (horder wide middle narrow rfl rfl rfl).1 rfl rfl
  have hantisymm : wide = wide := (horder wide wide narrow rfl rfl rfl).2 rfl rfl
  exact ⟨⟨rfl, rfl, rfl⟩, ⟨rfl, rfl, htrans⟩, rfl, hself wide, hantisymm⟩

/-- With loose types in between, acceptance cannot be chained. -/
example : int.accepts any = true ∧ any.accepts string = true ∧ int.accepts string = false := by decide

/-! ### Joins -/

/-- There are two types of numbers. -/
theorem eq_of_isNumeric {t : ValueType} (h : t.isNumeric = true) : t = .int ∨ t = .float := by
  cases t with
  | int => exact .inl rfl
  | float => exact .inr rfl
  | _ => cases h

/-- The case of numbers is one of those in which one type accepts the other. -/
theorem join_eq (a b : ValueType) :
    a.join b = if a.accepts b then a else if b.accepts a then b else .any := by
  unfold join
  split
  · next h => rw [h, accepts_self, if_pos rfl]
  · next hne =>
    split
    · next hnumeric =>
      -- of the four pairs of numbers, two are of one type, and in the others the wider one accepts
      obtain ⟨ha, hb⟩ := Bool.and_eq_true_iff.mp hnumeric
      obtain rfl | rfl := eq_of_isNumeric ha <;> obtain rfl | rfl := eq_of_isNumeric hb
      · exact absurd rfl hne
      · rfl
      · rfl
      · exact absurd rfl hne
    · rfl

/-! ### Wider parts -/

/-- In some place the first type has the floating-point type, and the second one the integers. -/
def widens : ValueType → ValueType → Bool
  | .float, .int => true
  | .list x, .list y => x.widens y
  | .map k v, .map k' v' => k.widens k' || v.widens v'
  | _, _ => false

/-- The wider part of each place. -/
def bound : ValueType → ValueType → ValueType
  | .int, .float => .float
  | .list x, .list y => .list (x.bound y)
  | .map k v, .map k' v' => .map (k.bound k') (v.bound v')
  | a, _ => a

namespace Narrower

variable {a b c x y k v k' v' : ValueType}

/-- Only lists are narrower than a list. -/
theorem exists_list (h : Narrower a (.list y)) : ∃ x, a = .list x ∧ Narrower x y := by
  cases h with
  | refl => exact ⟨y, rfl, .refl y⟩
  | list h => exact ⟨_, rfl, h⟩

/-- Only maps are narrower than a map. -/
theorem exists_map (h : Narrower a (.map k' v')) :
    ∃ k v, a = .map k v ∧ Narrower k k' ∧ Narrower v v' := by
  cases h with
  | refl => exact ⟨k', v', rfl, .refl k', .refl v'⟩
  | map hk hv => exact ⟨_, _, rfl, hk, hv⟩

/-- A type has no loose part more than a narrower one. -/
theorem isConcrete_eq (h : Narrower a b) : a.isConcrete = b.isConcrete := by
  induction h with
  | refl t => rfl
  | int_float => rfl
  | list _ ih => exact ih
  | map _ _ ihk ihv => exact congrArg₂ (· && ·) ihk ihv

/-- A narrower type is nowhere wider. -/
theorem not_widens (h : Narrower a b) : a.widens b = false := by
  induction h with
  | refl t =>
    induction t with
    | list x ih => exact ih
    | map k v ihk ihv => exact Bool.or_eq_false_iff.mpr ⟨ihk, ihv⟩
    | _ => rfl
  | int_float => rfl
  | list _ ih => exact ih
  | map _ _ ihk ihv => exact Bool.or_eq_false_iff.mpr ⟨ihk, ihv⟩

/-- Of a type with itself the wider parts are the type. -/
theorem bound_self (t : ValueType) : t.bound t = t := by
  induction t with
  | list x ih => exact congrArg ValueType.list ih
  | map k v ihk ihv => exact congrArg₂ ValueType.map ihk ihv
  | _ => rfl

/-- With a narrower type the wider parts are those of the first one. -/
theorem bound_eq_left (h : Narrower b a) : a.bound b = a := by
  induction h with
  | refl t => exact bound_self t
  | int_float => rfl
  | list _ ih => exact congrArg ValueType.list ih
  | map _ _ ihk ihv => exact congrArg₂ ValueType.map ihk ihv

/-- With a wider type the wider parts are those of the second one. -/
theorem bound_eq_right (h : Narrower a b) : a.bound b = b := by
  induction h with
  | refl t => exact bound_self t
  | int_float => rfl
  | list _ ih => exact congrArg ValueType.list ih
  | map _ _ ihk ihv => exact congrArg₂ ValueType.map ihk ihv

/-! ### Types with a common bound -/

/-- **The wider parts** of two types that have a common bound are a type between them and that bound. -/
theorem between (hac : Narrower a c) (hbc : Narrower b c) :
    Narrower a (a.bound b) ∧ Narrower b (a.bound b) ∧ Narrower (a.bound b) c := by
  -- by induction on how the first type is narrower than the bound, which gives the second one its shape
  induction hac generalizing b with
  | refl t =>
    rw [bound_eq_left hbc]
    exact ⟨.refl t, hbc, .refl t⟩
  | int_float =>
    cases hbc with
    | refl => exact ⟨.int_float, .refl _, .refl _⟩
    | int_float => exact ⟨.refl _, .refl _, .int_float⟩
  -- for lists and maps part by part
  | list hxy ih =>
    obtain ⟨z, rfl, hz⟩ := exists_list hbc
    obtain ⟨hx, hz, hy⟩ := ih hz
    exact ⟨.list hx, .list hz, .list hy⟩
  | map hk hv ihk ihv =>
    obtain ⟨k, v, rfl, hk, hv⟩ := exists_map hbc
    obtain ⟨hka, hkb, hkc⟩ := ihk hk
    obtain ⟨hva, hvb, hvc⟩ := ihv hv
    exact ⟨.map hka hva, .map hkb hvb, .map hkc hvc⟩

/-- **Of two types with a common bound**, one is narrower than the other if it is wider nowhere. -/
theorem iff_not_widens (hac : Narrower a c) (hbc : Narrower b c) :
    Narrower b a ↔ b.widens a = false := by
  refine ⟨not_widens, fun hwide => ?_⟩
  induction hac generalizing b with
  | refl t => exact hbc
  | int_float =>
    -- the second type is one of the numbers, and not the wider one
    cases hbc with
    | refl => cases hwide
    | int_float => exact .refl _
  | list hxy ih =>
    obtain ⟨z, rfl, hz⟩ := exists_list hbc
    exact .list (ih hz hwide)
  | map hk hv ihk ihv =>
    obtain ⟨k, v, rfl, hk, hv⟩ := exists_map hbc
    obtain ⟨hwidek, hwidev⟩ := Bool.or_eq_false_iff.mp hwide
    exact .map (ihk hk hwidek) (ihv hv hwidev)

end Narrower

section Join

variable {a b c : ValueType}

/-- Concrete types with a common bound are joined to the wider one, if one of them is that everywhere. -/
theorem join_of_narrower (ha : a.isConcrete = true) (hb : b.isConcrete = true) (hac : Narrower a c)
    (hbc : Narrower b c) :
    a.join b = if a.widens b && b.widens a then .any else a.bound b := by
  have hacc : a.accepts b = true ↔ b.widens a = false :=
    (accepts_iff ha hb).trans (Narrower.iff_not_widens hac hbc)
  have hacc' : b.accepts a = true ↔ a.widens b = false :=
    (accepts_iff hb ha).trans (Narrower.iff_not_widens hbc hac)
  rw [join_eq]
  cases hba : b.widens a with
  | false =>
    -- the first type accepts the second one
    have haccepts := hacc.mpr hba
    rw [if_pos haccepts, Bool.and_false, if_neg Bool.false_ne_true,
      Narrower.bound_eq_left ((accepts_iff ha hb).mp haccepts)]
  | true =>
    have hrefuses : ¬ a.accepts b = true := fun h => Bool.false_ne_true ((hacc.mp h).symm.trans hba)
    rw [if_neg hrefuses, Bool.and_true]
    cases hab : a.widens b with
    | false =>
      have haccepts := hacc'.mpr hab
      rw [if_pos haccepts, if_neg Bool.false_ne_true,
        Narrower.bound_eq_right ((accepts_iff hb ha).mp haccepts)]
    | true =>
      -- neither accepts the other one
      have hrefuses' : ¬ b.accepts a = true := fun h => Bool.false_ne_true ((hacc'.mp h).symm.trans hab)
      rw [if_neg hrefuses', if_pos rfl]

/-- **The narrowest common type.** Concrete types that a concrete type accepts have a narrowest one that
accepts both. The join is that type unless each of the two is wider than the other one in some place; then
it is `any`. -/
theorem join_narrowest (ha : a.isConcrete = true) (hb : b.isConcrete = true) (hc : c.isConcrete = true)
    (hac : c.accepts a = true) (hbc : c.accepts b = true) :
    (((a.join b).isConcrete = true ∧ (a.join b).accepts a = true ∧ (a.join b).accepts b = true ∧
        c.accepts (a.join b) = true) ↔ ¬ (a.widens b = true ∧ b.widens a = true)) ∧
      ∃ d : ConcreteType, IsLUB {⟨a, ha⟩, ⟨b, hb⟩} d ∧
        a.join b = if a.widens b && b.widens a then .any else d.1 := by
  have hnac := (accepts_iff hc ha).mp hac
  have hnbc := (accepts_iff hc hb).mp hbc
  -- both types are below a third one, so they differ in parts that are int or float
  have hjoin := join_of_narrower ha hb hnac hnbc
  obtain ⟨hleft, hright, hbound⟩ := Narrower.between hnac hnbc
  have hconcrete : (a.bound b).isConcrete = true := hleft.isConcrete_eq.symm.trans ha
  constructor
  · constructor
    · -- `any` is not concrete
      rintro ⟨hj, -⟩ ⟨hab, hba⟩
      rw [hjoin, hab, hba] at hj
      cases hj
    -- the wider parts are all on one side, so the bound is what they are joined to
    · intro hnot
      rw [hjoin, if_neg (by simpa using hnot)]
      exact ⟨hconcrete, hleft.accepts, hright.accepts, hbound.accepts⟩
  · refine ⟨⟨a.bound b, hconcrete⟩, ⟨?_, fun d hd => ?_⟩, hjoin⟩
    · rintro t (rfl | rfl)
      · exact hleft.accepts
      · exact hright.accepts
    · -- another common bound is above the wider parts as well
      have had : d.1.accepts a = true := hd (Set.mem_insert _ _)
      have hbd : d.1.accepts b = true := hd (Set.mem_insert_of_mem _ rfl)
      have hbetween := Narrower.between ((accepts_iff d.2 ha).mp had) ((accepts_iff d.2 hb).mp hbd)
      exact hbetween.2.2.accepts

/-- Maps of which each is wider in one part. -/
theorem join_narrowest_oppositeMaps :
    let a := map .int .float
    let b := map .float .int
    let c := map .float .float
    (a.isConcrete = true ∧ b.isConcrete = true ∧ c.isConcrete = true ∧ c.accepts a = true ∧
        c.accepts b = true) ∧
      (a.widens b = true ∧ b.widens a = true) ∧
      (∃ d : ConcreteType, IsLUB {⟨a, rfl⟩, ⟨b, rfl⟩} d ∧ a.join b = .any) ∧
      c.accepts (a.join c) = true := by
  intro a b c
  obtain ⟨-, d, hd, hjoin⟩ := @join_narrowest a b c rfl rfl rfl rfl rfl
  obtain ⟨hnarrowest, -⟩ := @join_narrowest a c c rfl rfl rfl rfl rfl
  exact ⟨⟨rfl, rfl, rfl, rfl, rfl⟩, ⟨rfl, rfl⟩, ⟨d, hd, hjoin⟩,
    (hnarrowest.mpr fun h => Bool.false_ne_true h.1).2.2.2⟩

/-- The join of these maps is not a concrete type, though there is one that accepts both. -/
theorem join_refuses_oppositeMaps :
    ¬ ∀ a b c : ValueType, a.isConcrete = true → b.isConcrete = true → c.isConcrete = true →
      c.accepts a = true → c.accepts b = true →
        (a.join b).isConcrete = true ∧ (a.join b).accepts a = true ∧ (a.join b).accepts b = true ∧
          c.accepts (a.join b) = true := by
  intro h
  have hconcrete := (h (map .int .float) (map .float .int) (map .float .float) rfl rfl rfl rfl rfl).1
  cases hconcrete

end Join

end ValueType

end TemplateFrontend
