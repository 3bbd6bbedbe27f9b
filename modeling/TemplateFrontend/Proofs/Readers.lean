import Mathlib.Data.List.Nodup
/-!
# Readers that may fail

A reader answers in `Except`. What is known of a reader that succeeded is taken apart here, for all
readers alike.

* `ok_bind`, `exists_of_bind_ok`, `bind_congr_of_ok` — readers one after the other;
* `foldlM_keeps` — what every step of a fold keeps;
* `Yields` — what is known of an answer and of a failure, with one lemma for each way in which readers
  are put together;
* `Maps` — two readers of which the second one answers with the image of what the first one answers;
* `find?_eq_some_of_unique`, `find?_eq_some_of_nodup` — what is found in a list.
-/

namespace TemplateFrontend

variable {ε α β : Type}

@[simp] theorem ok_bind (a : α) (g : α → Except ε β) : (Except.ok a >>= g) = g a := rfl

/-- A reader that goes on after another one succeeds only if both do. -/
theorem exists_of_bind_ok {x : Except ε α} {g : α → Except ε β} {b : β} :
    (x >>= g) = .ok b → ∃ a, x = .ok a ∧ g a = .ok b :=
  match x with
  | .error _ => fun h => nomatch h
  | .ok a => fun h => ⟨a, rfl, h⟩

/-- Two readers that go on after a third one agree if they do on what that one answers. -/
theorem bind_congr_of_ok {x : Except ε α} {g g' : α → Except ε β}
    (h : ∀ a, x = .ok a → g a = g' a) : (x >>= g) = (x >>= g') :=
  match x with
  | .error _ => rfl
  | .ok a => h a rfl

/-- A result that is changed is an error only if it was. -/
theorem eq_error_of_map {f : α → β} {x : Except ε α} {e : ε} (h : x.map f = .error e) :
    x = .error e := by
  cases x with
  | error e' => exact congrArg Except.error (Except.error.inj h)
  | ok a => cases h

theorem exists_of_map_ok {f : α → β} {x : Except ε α} {b : β} (h : x.map f = .ok b) :
    ∃ a, x = .ok a ∧ f a = b := by
  cases x with
  | error e => cases h
  | ok a => exact ⟨a, rfl, Except.ok.inj h⟩

theorem eq_ok_of_toOption {x : Except ε α} {a : α} (h : x.toOption = some a) : x = .ok a := by
  cases x with
  | error e => cases h
  | ok b => exact congrArg Except.ok (Option.some.inj h)

/-- What is known of an answer, if there is one, is known of an answer that there is. -/
theorem exists_of_toOption_map {x : Except ε α} {f : α → β} {b : β} (h : x.toOption.map f = some b) :
    ∃ a, x = .ok a ∧ f a = b := by
  cases x with
  | error e => cases h
  | ok a => exact ⟨a, rfl, Option.some.inj h⟩

/-- What every step of a fold keeps, the fold keeps. -/
theorem foldlM_keeps {g : β → α → Except ε β} {P : β → Prop}
    (hg : ∀ b a b', g b a = .ok b' → P b → P b') {as : List α} {b b' : β}
    (h : as.foldlM g b = .ok b') (hb : P b) : P b' := by
  induction as generalizing b with
  | nil =>
    obtain rfl : b = b' := Except.ok.inj h
    exact hb
  | cons a as ih =>
    rw [List.foldlM_cons] at h
    obtain ⟨c, hc, h⟩ := exists_of_bind_ok h
    exact ih h (hg b a c hc hb)

/-! ### Answers and failures -/

/-- The answer has the property `P`, or else the failure has the property `E`. -/
def Yields (E : ε → Prop) (P : α → Prop) : Except ε α → Prop
  | .ok a => P a
  | .error e => E e

namespace Yields

variable {E : ε → Prop} {P Q : α → Prop} {x : Except ε α}

/-- More is known of the answer. -/
theorem mono (h : Yields E P x) (hQ : ∀ a, x = .ok a → P a → Q a) : Yields E Q x := by
  cases x with
  | error e => exact h
  | ok a => exact hQ a rfl h

/-- A reader goes on from what another one answers. -/
theorem bind {R : β → Prop} {g : α → Except ε β} (h : Yields E P x)
    (hg : ∀ a, x = .ok a → P a → Yields E R (g a)) : Yields E R (x >>= g) := by
  cases x with
  | error e => exact h
  | ok a => exact hg a rfl h

/-- A fold goes on from what each step answers. -/
theorem foldlM {R : β → Prop} {g : β → α → Except ε β} {as : List α} {b : β}
    (hg : ∀ b, ∀ a ∈ as, R b → Yields E R (g b a)) (hb : R b) : Yields E R (as.foldlM g b) := by
  induction as generalizing b with
  | nil => exact hb
  | cons a as ih =>
    rw [List.foldlM_cons]
    refine (hg b a List.mem_cons_self hb).bind fun c _ hc => ih (fun b' a' ha' => ?_) hc
    exact hg b' a' (List.mem_cons_of_mem a ha')

end Yields

/-! ### Answers and their images -/

/-- Where the first reader answers, the second one answers with the image. -/
def Maps {α' : Type} (f : α → α') (x : Except ε α) (y : Except ε α') : Prop :=
  ∀ a, x = .ok a → y = .ok (f a)

namespace Maps

variable {α' β' : Type} {f : α → α'} {h : β → β'} {x : Except ε α} {y : Except ε α'}

theorem ok {a : α} {b : α'} (hab : f a = b) : Maps f (.ok a : Except ε α) (.ok b) := by
  rintro _ ⟨⟩
  rw [hab]

theorem error (e : ε) (y : Except ε α') : Maps f (.error e) y := fun _ h => nomatch h

/-- Both readers make the same choice. -/
theorem ite {c : Prop} [Decidable c] {x' : Except ε α} {y' : Except ε α'} (h : c → Maps f x y)
    (h' : ¬ c → Maps f x' y') : Maps f (if c then x else x') (if c then y else y') := by
  by_cases hc : c
  · rw [if_pos hc, if_pos hc]
    exact h hc
  · rw [if_neg hc, if_neg hc]
    exact h' hc

/-- A reader goes on from what another one answers. -/
theorem bind {g : α → Except ε β} {g' : α' → Except ε β'} (hx : Maps f x y)
    (hg : ∀ a, x = .ok a → Maps h (g a) (g' (f a))) : Maps h (x >>= g) (y >>= g') := by
  intro b hb
  obtain ⟨a, ha, hb⟩ := exists_of_bind_ok hb
  rw [hx a ha]
  exact hg a ha b hb

/-- A fold goes on from what each step answers. -/
theorem foldlM {k : α → α'} {g : β → α → Except ε β} {g' : β' → α' → Except ε β'}
    (hg : ∀ b a, Maps h (g b a) (g' (h b) (k a))) (as : List α) (b : β) :
    Maps h (as.foldlM g b) ((as.map k).foldlM g' (h b)) := by
  induction as generalizing b with
  | nil => exact ok rfl
  | cons a as ih =>
    rw [List.foldlM_cons, List.map_cons, List.foldlM_cons]
    exact (hg b a).bind fun c _ => ih c

end Maps

/-! ### What is found in a list -/

/-- What alone in a list has a property is what is found by it. -/
theorem find?_eq_some_of_unique {p : α → Bool} {as : List α} {a : α} (ha : a ∈ as) (hp : p a = true)
    (hunique : ∀ b ∈ as, p b = true → b = a) : as.find? p = some a := by
  induction as with
  | nil => cases ha
  | cons b as ih =>
    by_cases hb : p b = true
    · rw [List.find?_cons_of_pos hb, hunique b List.mem_cons_self hb]
    · rw [List.find?_cons_of_neg hb]
      obtain rfl | ha := List.mem_cons.mp ha
      · exact absurd hp hb
      · exact ih ha fun c hc => hunique c (List.mem_cons_of_mem b hc)

/-- In a list of different keys, what has a key is what is found by it. -/
theorem find?_eq_some_of_nodup {key : α → String} {as : List α} (h : (as.map key).Nodup) {a : α}
    (ha : a ∈ as) : as.find? (fun b => key b == key a) = some a :=
  find?_eq_some_of_unique ha (beq_self_eq_true (key a)) fun _ hb hkey =>
    List.inj_on_of_nodup_map h hb ha (eq_of_beq hkey)

end TemplateFrontend
