import TemplateFrontend.Proofs.Expr.Parts
import TemplateFrontend.Proofs.Number.Doubles
/-!
# Folded comparisons of integers

Two integers are ordered as integers, but they are equal if they are so as doubles. The order is exact, then,
and equality is that of the nearest integers of 53 digits: of two integers with the same nearest one, which are
both beyond `2 ^ 53`, one is less than the other and yet equal to it.

* `Expr.literal?_fold_binary` — an operator on constants is folded to what it yields for them;
* `Literal.equalAsNumbers_int` — equality of integers;
* `Expr.fold_intComparisons` — what comparisons of integers are folded to;
* `Expr.fold_equates_neighbours` — integers that are equal to their neighbour.
-/

namespace TemplateFrontend

open Integer (nearest)

/-! ### Constants -/

/-- **Equal integers.** They are compared as doubles. -/
theorem Literal.equalAsNumbers_int (a b : Int64) :
    (Literal.int a).equalAsNumbers (.int b) = decide (nearest a.toInt = nearest b.toInt) :=
  Double.toFloat_beq a b

namespace Expr

/-- **An operator on constants** becomes the constant that it yields for them, if it yields one. -/
theorem literal?_fold_binary (n m k : Note) (op : BinaryOp) (v w : Literal) :
    (Expr.binary n op (.literal m v) (.literal k w)).fold.literal? = Literal.applyBinary op v w := by
  have hfold : (Expr.binary n op (.literal m v) (.literal k w)).fold =
      (Expr.binary n op (.literal m v) (.literal k w)).foldPart := rfl
  have hfolded : (Expr.binary n op (.literal m v) (.literal k w)).folded? =
      Literal.applyBinary op v w := rfl
  rw [hfold, foldPart, hfolded]
  cases Literal.applyBinary op v w <;> rfl

/-! ### Comparisons -/

/-- Two of three comparisons exclude each other. The third one, which holds of equal integers at least, must be
wrong for different ones, for exactly one of the three to hold. -/
theorem existsUnique_comparison {x y : Int} {p : Prop} (hp : x = y → p) :
    (∃! op, (op = BinaryOp.lt ∧ x < y) ∨ (op = .eq ∧ p) ∨ (op = .gt ∧ y < x)) ↔ x = y ∨ ¬ p := by
  -- two of the three hold at once only for numbers that differ but are equal by `p`
  constructor
  · rintro ⟨op, -, hunique⟩
    by_contra hneither
    obtain ⟨hne, hp⟩ := not_or.mp hneither
    -- equal by `p` but not as numbers: `<` or `>` holds besides
    have heq := hunique .eq (.inr (.inl ⟨rfl, not_not.mp hp⟩))
    obtain hlt | hlt := Int.lt_or_gt_of_ne hne
    · exact absurd (heq.trans (hunique .lt (.inl ⟨rfl, hlt⟩)).symm) (by decide)
    · exact absurd (heq.trans (hunique .gt (.inr (.inr ⟨rfl, hlt⟩))).symm) (by decide)
  · intro h
    -- the order of the two numbers names the one that holds
    obtain hlt | heq | hlt := Int.lt_trichotomy x y
    · have hnot : ¬ p := h.resolve_left (Int.ne_of_lt hlt)
      refine ⟨.lt, .inl ⟨rfl, hlt⟩, ?_⟩
      rintro op (⟨rfl, -⟩ | ⟨-, h⟩ | ⟨-, h⟩)
      · rfl
      · exact absurd h hnot
      · exact absurd h (Int.lt_asymm hlt)
    · refine ⟨.eq, .inr (.inl ⟨rfl, hp heq⟩), ?_⟩
      rintro op (⟨-, h⟩ | ⟨rfl, -⟩ | ⟨-, h⟩)
      · exact absurd heq (Int.ne_of_lt h)
      · rfl
      · exact absurd heq.symm (Int.ne_of_lt h)
    · have hnot : ¬ p := h.resolve_left (Int.ne_of_gt hlt)
      refine ⟨.gt, .inr (.inr ⟨rfl, hlt⟩), ?_⟩
      rintro op (⟨-, h⟩ | ⟨-, h⟩ | ⟨rfl, -⟩)
      · exact absurd h (Int.lt_asymm hlt)
      · exact absurd h hnot
      · rfl

/-- **Comparisons of integers.** Wherever two integers stand: `<`, `>`, `<=` and `>=` are folded to what they
are on integers, `==` and `!=` to whether the nearest integers of 53 digits are the same. So exactly one of
`<`, `==` and `>` is folded to true just if the integers are the same, or the nearest ones are not. Up to
`2 ^ 53` equality is exact too. -/
theorem fold_intComparisons (n m k : Note) (a b : Int64) :
    let folded := fun op => (Expr.binary n op (.literal m (.int a)) (.literal k (.int b))).fold.literal?
    folded .lt = some (.bool (decide (a.toInt < b.toInt))) ∧
      folded .gt = some (.bool (decide (b.toInt < a.toInt))) ∧
      folded .le = some (.bool (decide (a.toInt ≤ b.toInt))) ∧
      folded .ge = some (.bool (decide (b.toInt ≤ a.toInt))) ∧
      folded .eq = some (.bool (decide (nearest a.toInt = nearest b.toInt))) ∧
      folded .ne = some (.bool (decide (nearest a.toInt ≠ nearest b.toInt))) ∧
      ((∃! op, op ∈ [BinaryOp.lt, .eq, .gt] ∧ folded op = some (.bool true)) ↔
        a = b ∨ nearest a.toInt ≠ nearest b.toInt) ∧
      (a.toInt.natAbs ≤ 2 ^ 53 → b.toInt.natAbs ≤ 2 ^ 53 →
        folded .eq = some (.bool (decide (a = b)))) := by
  intro folded
  -- both operands are constants, so folding is the operator on them
  have hfolded : ∀ op, folded op = Literal.applyBinary op (.int a) (.int b) := fun op =>
    literal?_fold_binary n m k op (.int a) (.int b)
  have horder : ∀ {p q : Prop} [Decidable p] [Decidable q], (p ↔ q) →
      some (Literal.bool (decide p)) = some (.bool (decide q)) := fun h => by rw [decide_eq_decide.mpr h]
  have hlt : folded .lt = some (.bool (decide (a.toInt < b.toInt))) :=
    (hfolded .lt).trans (horder Int64.lt_iff_toInt_lt)
  have hgt : folded .gt = some (.bool (decide (b.toInt < a.toInt))) :=
    (hfolded .gt).trans (horder Int64.lt_iff_toInt_lt)
  have hle : folded .le = some (.bool (decide (a.toInt ≤ b.toInt))) :=
    (hfolded .le).trans (horder Int64.le_iff_toInt_le)
  have hge : folded .ge = some (.bool (decide (b.toInt ≤ a.toInt))) :=
    (hfolded .ge).trans (horder Int64.le_iff_toInt_le)
  -- equality goes through doubles, the order does not
  have heq : folded .eq = some (.bool (decide (nearest a.toInt = nearest b.toInt))) := by
    rw [hfolded, Literal.applyBinary, Literal.equalAsNumbers_int]
  have hne : folded .ne = some (.bool (decide (nearest a.toInt ≠ nearest b.toInt))) := by
    rw [hfolded, Literal.applyBinary, Literal.equalAsNumbers_int, decide_not]
  refine ⟨hlt, hgt, hle, hge, heq, hne, ?_, fun ha hb => ?_⟩
  -- which of the three fold to true, as facts about numbers
  · have htrue : ∀ op, (op ∈ [BinaryOp.lt, .eq, .gt] ∧ folded op = some (.bool true)) ↔
        (op = .lt ∧ a.toInt < b.toInt) ∨ (op = .eq ∧ nearest a.toInt = nearest b.toInt) ∨
          (op = .gt ∧ b.toInt < a.toInt) := by
      intro op
      have hbool : ∀ {p : Prop} [Decidable p], some (Literal.bool (decide p)) = some (.bool true) ↔ p :=
        fun {p} _ => by simp only [Option.some.injEq, Literal.bool.injEq, decide_eq_true_iff]
      simp only [List.mem_cons, List.not_mem_nil, or_false, or_and_right]
      refine or_congr (and_congr_right ?_) (or_congr (and_congr_right ?_) (and_congr_right ?_))
      · rintro rfl
        rw [hlt, hbool]
      · rintro rfl
        rw [heq, hbool]
      · rintro rfl
        rw [hgt, hbool]
    simp only [htrue]
    rw [existsUnique_comparison (congrArg nearest), Int64.toInt_inj]
  · rw [heq, Integer.nearest_eq_self ha, Integer.nearest_eq_self hb]
    exact horder Int64.toInt_inj

/-- The last integers at which equality is exact. -/
theorem fold_intComparisons_limit :
    let folded := fun op => (Expr.binary default op (.literal default (.int 9007199254740992))
      (.literal default (.int 9007199254740991))).fold.literal?
    (9007199254740992 : Int64).toInt.natAbs ≤ 2 ^ 53 ∧ (9007199254740991 : Int64).toInt.natAbs ≤ 2 ^ 53 ∧
      folded .gt = some (.bool true) ∧ folded .eq = some (.bool false) := by
  obtain ⟨-, hgt, -, -, -, -, -, heq⟩ :=
    fold_intComparisons default default default 9007199254740992 9007199254740991
  exact ⟨by decide, by decide, hgt, heq (by decide) (by decide)⟩

/-- Two integers beyond `2 ^ 53` that are equal to each other, with one greater than the other. -/
theorem fold_equates_neighbours :
    let folded := fun op => (Expr.binary default op (.literal default (.int 9007199254740993))
      (.literal default (.int 9007199254740992))).fold.literal?
    (9007199254740993 : Int64) ≠ 9007199254740992 ∧ folded .eq = some (.bool true) ∧
      folded .ne = some (.bool false) ∧ folded .gt = some (.bool true) := by
  decide +kernel

end Expr

end TemplateFrontend
