import TemplateFrontend.Number.Decimal
import TemplateFrontend.Proofs.Number.Doubles
/-!
# Quotients as doubles

A quotient of two numbers is rounded to the nearest double. The mantissa is divided far enough to have all the
digits that the double has, and two bits remember how what is left over compares with a half; so a quotient that
lies in the interval of the numbers that round to a double becomes that double.

A numeral with digits behind the point is a quotient by a power of ten. Where both are doubles it is found by
dividing them, otherwise by dividing the numbers; either way it is the double that the quotient rounds to.

* `Decimal.Rounding.Contains` — the numbers that round to a double;
* `Double.Cuts` — what a mantissa and its two bits say of a quotient;
* `Double.Cuts.shiftRight`, `Double.Cuts.roundedMantissa_eq` — shifting and rounding it;
* `Double.roundWithAccuracy_of_contains` — rounding a quotient gives the double that it rounds to;
* `Double.div_of_contains` — so does dividing;
* `Double.StandsFor` — an unpacked double and the number that it stands for;
* `Double.ofScientific_of_contains` — numerals.
-/

namespace TemplateFrontend

/-- The number lies in the interval of those that round to the value. -/
def Decimal.Rounding.Contains (r : Decimal.Rounding) (v : ℚ) : Prop :=
  if r.closed then r.low * (2 : ℚ) ^ r.exponent ≤ v ∧ v ≤ r.high * (2 : ℚ) ^ r.exponent
  else r.low * (2 : ℚ) ^ r.exponent < v ∧ v < r.high * (2 : ℚ) ^ r.exponent

namespace Double

open Float.Model Float.Model.UnpackedFloat
open Decimal (Rounding)

/-! ### Mantissas of quotients -/

/-- The mantissa is the quotient without what is left over; of that the bits say whether it is at least a half,
and whether there is something besides the half. -/
structure Cuts (em : ExtendedMantissa) (a b : Nat) : Prop where
  mantissa : em.mantissa = a / b
  roundBit : em.roundBit = true ↔ b ≤ 2 * (a % b)
  stickyBit : em.stickyBit = true ↔ a % b ≠ 0 ∧ 2 * (a % b) ≠ b

section Cuts

variable {em : ExtendedMantissa} {a b : Nat}

/-- The quotient of two numbers is cut where its fraction begins. -/
theorem cuts_ofFraction (a : Nat) (hb : 0 < b) :
    Cuts (.ofMantissaAndAccuracy (a / b) (accuracyOfFraction (a % b) b)) a b := by
  rw [accuracyOfFraction]
  split
  · next hzero => exact ⟨rfl, by simp [ExtendedMantissa.ofMantissaAndAccuracy, hzero]; omega,
      by simp [ExtendedMantissa.ofMantissaAndAccuracy, hzero]⟩
  · next hrest =>
    -- the rest against one half decides which bits stand for it
    cases hc : compare (2 * (a % b)) b with
    | lt =>
      rw [Nat.compare_eq_lt] at hc
      exact ⟨rfl, by simp [ExtendedMantissa.ofMantissaAndAccuracy]; omega,
        by simp [ExtendedMantissa.ofMantissaAndAccuracy]; omega⟩
    | eq =>
      rw [Nat.compare_eq_eq] at hc
      exact ⟨rfl, by simp [ExtendedMantissa.ofMantissaAndAccuracy]; omega,
        by simp [ExtendedMantissa.ofMantissaAndAccuracy]; omega⟩
    | gt =>
      rw [Nat.compare_eq_gt] at hc
      exact ⟨rfl, by simp [ExtendedMantissa.ofMantissaAndAccuracy]; omega,
        by simp [ExtendedMantissa.ofMantissaAndAccuracy]; omega⟩

/-- A digit shifted out doubles what is divided by. -/
theorem Cuts.shiftRightOne (h : Cuts em a b) (hb : 0 < b) : Cuts em.shiftRightOne a (b * 2) := by
  have hrest : a % (b * 2) = a % b + b * (a / b % 2) := Nat.mod_mul
  have hlt : a % b < b := Nat.mod_lt a hb
  refine ⟨?_, ?_, ?_⟩
  · rw [ExtendedMantissa.shiftRightOne, h.mantissa, Nat.div_div_eq_div_mul]
  · rw [ExtendedMantissa.shiftRightOne, bne_iff_ne, h.mantissa, hrest]
    obtain hd | hd := Nat.mod_two_eq_zero_or_one (a / b) <;> rw [hd] <;> omega
  · rw [ExtendedMantissa.shiftRightOne, Bool.or_eq_true, h.roundBit, h.stickyBit, hrest]
    obtain hd | hd := Nat.mod_two_eq_zero_or_one (a / b) <;> rw [hd] <;> omega

/-- Several digits are shifted out one after the other. -/
theorem Cuts.shiftRight (h : Cuts em a b) (hb : 0 < b) (k : Nat) : Cuts (em >>> k) a (b * 2 ^ k) := by
  induction k with
  | zero =>
    rw [Nat.pow_zero, Nat.mul_one]
    exact h
  | succ k ih =>
    rw [Nat.pow_succ, ← Nat.mul_assoc]
    exact ih.shiftRightOne (Nat.mul_pos hb (Nat.two_pow_pos k))

/-- **Rounding** gives the number that the quotient is within a half of. Where it is half way between two numbers,
that is the even one. -/
theorem Cuts.roundedMantissa_eq {n : Nat} (h : Cuts em a b) (hb : 0 < b)
    (hlow : 2 * n * b ≤ 2 * a + b) (hhigh : 2 * a ≤ 2 * n * b + b)
    (hodd : n % 2 = 1 → 2 * n * b < 2 * a + b ∧ 2 * a < 2 * n * b + b) : em.roundedMantissa = n := by
  have ha : b * (a / b) + a % b = a := Nat.div_add_mod a b
  have hlt : a % b < b := Nat.mod_lt a hb
  obtain ⟨hmantissa, hround, hsticky⟩ := h
  obtain ⟨m, round, sticky⟩ := em
  obtain rfl : m = a / b := hmantissa
  generalize a / b = q, a % b = r at *
  -- the number is the quotient or the one after it
  have hn : n = q ∨ n = q + 1 := by
    have hle : n < q + 2 := by nlinarith
    have hge : q < n + 1 := by nlinarith
    omega
  -- which of them it is, what is left over decides
  have hbits : (n = q ∧ 2 * r ≤ b ∧ (n % 2 = 1 → 2 * r < b)) ∨
      (n = q + 1 ∧ b ≤ 2 * r ∧ (n % 2 = 1 → b < 2 * r)) := by
    obtain rfl | rfl := hn
    · exact .inl ⟨rfl, by nlinarith, fun h => by nlinarith [hodd h]⟩
    · exact .inr ⟨rfl, by nlinarith, fun h => by nlinarith [hodd h]⟩
  clear hn hlow hhigh hodd ha
  cases round <;> cases sticky <;>
    simp only [ExtendedMantissa.roundedMantissa, ExtendedMantissa.accuracy, Accuracy.roundToNearestEven,
      Bool.false_eq_true, false_iff, true_iff] at * <;> omega

end Cuts

/-! ### Doubles -/

/-- The digits and the exponent of a positive double: it has 53 digits, unless its exponent is the least one. -/
structure Canonical (m : Nat) (q : Int) : Prop where
  pos : 0 < m
  lt : m < 2 ^ 53
  least : -1074 ≤ q
  normal : 2 ^ 52 ≤ m ∨ q = -1074

/-- The numbers that round to a double. Below a power of two the neighbours lie twice as close. -/
def around (m : Nat) (q : Int) : Rounding :=
  ⟨if m = 2 ^ 52 ∧ -1074 < q then 4 * m - 1 else 4 * m - 2, 4 * m, 4 * m + 2, q - 2, m % 2 == 0⟩

/-- A quotient over a power of two, with as many digits as a double has there. -/
structure Placed (a b : Nat) (e : Int) : Prop where
  pos : 0 < b
  lt : a < 2 ^ 53 * b
  least : -1074 ≤ e
  normal : 2 ^ 52 * b ≤ a ∨ e = -1074

section Placed

variable {a b m : Nat} {e q : Int}

/-- Such a quotient has no more digits than a double. -/
theorem Placed.div_lt (h : Placed a b e) : (a / b : ℚ) < 2 ^ 53 := by
  have hb : (0 : ℚ) < b := by exact_mod_cast h.pos
  rw [div_lt_iff₀ hb]
  exact_mod_cast h.lt

/-- It has as many, unless the exponent is the least one. -/
theorem Placed.le_div (h : Placed a b e) (he : -1074 < e) : (2 : ℚ) ^ 52 ≤ a / b := by
  have hb : (0 : ℚ) < b := by exact_mod_cast h.pos
  rw [le_div_iff₀ hb]
  exact_mod_cast h.normal.resolve_right (by omega)

/-- The interval of a double starts no more than half a unit below it. -/
theorem le_low_around (m : Nat) (q : Int) : (4 * m - 2 : ℚ) ≤ (around m q).low := by
  have hle : 4 * m ≤ (around m q).low + 2 := by
    unfold around
    dsimp only
    split <;> omega
  have hle' : (4 * m : ℚ) ≤ (around m q).low + 2 := by exact_mod_cast hle
  linarith

/-- The bounds of the interval over another power of two. -/
theorem contains_around_iff {c : ℚ} {d : Int} (hq : q = e + d) :
    (around m q).Contains (c * 2 ^ e) ↔
      if m % 2 = 0 then (around m q).low * (2 : ℚ) ^ (d - 2) ≤ c ∧ c ≤ (4 * m + 2) * (2 : ℚ) ^ (d - 2)
      else (around m q).low * (2 : ℚ) ^ (d - 2) < c ∧ c < (4 * m + 2) * (2 : ℚ) ^ (d - 2) := by
  have hu : (0 : ℚ) < 2 ^ e := by positivity
  -- both bounds are multiples of a quarter of the unit
  have hunit : (2 : ℚ) ^ (around m q).exponent = 2 ^ (d - 2) * 2 ^ e := by
    rw [← zpow_add₀ two_ne_zero]
    congr 1
    change q - 2 = d - 2 + e
    omega
  have hhigh : ((around m q).high : ℚ) = 4 * m + 2 := by
    change ((4 * m + 2 : Nat) : ℚ) = _
    push_cast
    rfl
  have hclosed : (around m q).closed = true ↔ m % 2 = 0 := beq_iff_eq
  simp only [Rounding.Contains, hunit, hhigh, hclosed, ← mul_assoc, mul_le_mul_iff_left₀ hu,
    mul_lt_mul_iff_left₀ hu]

/-- A quotient that rounds to a double has the exponent of that double, or it lies below the power of two that the
double is. -/
theorem Placed.of_contains (h : Placed a b e) (hx : Canonical m q)
    (hv : (around m q).Contains (a / b * (2 : ℚ) ^ e)) :
    (q = e ∧ 2 * m * b ≤ 2 * a + b ∧ 2 * a ≤ 2 * m * b + b ∧
        (m % 2 = 1 → 2 * m * b < 2 * a + b ∧ 2 * a < 2 * m * b + b)) ∨
      (q = e + 1 ∧ m = 2 ^ 52 ∧ 2 ^ 54 * b ≤ 2 * a + b) := by
  have hb : (0 : ℚ) < b := by exact_mod_cast h.pos
  have hlt := h.div_lt
  have hmlt : (m : ℚ) + 1 ≤ 2 ^ 53 := by exact_mod_cast hx.lt
  have hlow := le_low_around m q
  -- `d` is how much further up the double lies
  obtain ⟨d, rfl⟩ : ∃ d, q = e + d := ⟨q - e, by omega⟩
  obtain ⟨c, hc⟩ : ∃ c : ℚ, c = a / b := ⟨_, rfl⟩
  have ha : (a : ℚ) = c * b := by rw [hc, div_mul_cancel₀ _ hb.ne']
  rw [← hc] at hv hlt
  -- in units of the exponent of the quotient
  rw [contains_around_iff rfl] at hv
  have hbounds : (around m (e + d)).low * (2 : ℚ) ^ (d - 2) ≤ c ∧ c ≤ (4 * m + 2) * (2 : ℚ) ^ (d - 2) := by
    split at hv
    · exact hv
    · exact ⟨hv.1.le, hv.2.le⟩
  obtain hd | rfl | rfl | hd : d < 0 ∨ d = 0 ∨ d = 1 ∨ 2 ≤ d := by omega
  · -- the double would be smaller than all quotients of this exponent
    exfalso
    have hge := h.le_div (by have := hx.least; omega)
    rw [← hc] at hge
    have hunit : (2 : ℚ) ^ (d - 2) ≤ 2 ^ (-3 : Int) := zpow_le_zpow_right₀ one_le_two (by omega)
    rw [show (2 : ℚ) ^ (-3 : Int) = 1 / 8 by norm_num] at hunit
    nlinarith [hbounds.2]
  · left
    -- both have the same exponent: the bounds say that the quotient is within a half
    have hunit : (2 : ℚ) ^ ((0 : Int) - 2) = 1 / 4 := by norm_num
    rw [hunit] at hv hbounds
    refine ⟨Int.add_zero e, ?_, ?_, fun hodd => ?_⟩
    · have hle : (2 * m * b : ℚ) ≤ 2 * a + b := by
        rw [ha]
        nlinarith [hbounds.1]
      exact_mod_cast hle
    · have hle : (2 * a : ℚ) ≤ 2 * m * b + b := by
        rw [ha]
        nlinarith [hbounds.2]
      exact_mod_cast hle
    · rw [if_neg (by omega)] at hv
      have hltlow : (2 * m * b : ℚ) < 2 * a + b := by
        rw [ha]
        nlinarith [hv.1]
      have hlthigh : (2 * a : ℚ) < 2 * m * b + b := by
        rw [ha]
        nlinarith [hv.2]
      exact ⟨by exact_mod_cast hltlow, by exact_mod_cast hlthigh⟩
  · right
    -- the double is one place further up, so that only the least one can be near
    have hleast := h.least
    have hunit : (2 : ℚ) ^ ((1 : Int) - 2) = 1 / 2 := by norm_num
    rw [hunit] at hbounds
    have hnormal := hx.normal.resolve_right (by omega)
    have hm : m = 2 ^ 52 := by
      have hle : (m : ℚ) < 2 ^ 52 + 1 := by linarith [hbounds.1]
      have hle' : m < 2 ^ 52 + 1 := by exact_mod_cast hle
      omega
    have hlow' : ((around m (e + 1)).low : ℚ) = 2 ^ 54 - 1 := by
      rw [around, if_pos ⟨hm, by omega⟩, hm]
      norm_num
    have hle : (2 ^ 54 * b : ℚ) ≤ 2 * a + b := by
      rw [ha]
      nlinarith [hbounds.1]
    exact ⟨rfl, hm, by exact_mod_cast hle⟩
  · -- the double would be larger than all quotients of this exponent
    exfalso
    have hleast := h.least
    have hunit : (1 : ℚ) ≤ 2 ^ (d - 2) := one_le_zpow₀ one_le_two (by omega)
    have hnormal : (2 : ℚ) ^ 52 ≤ m := by exact_mod_cast hx.normal.resolve_right (by omega)
    nlinarith [hbounds.1]

end Placed

/-! ### Rounding -/

section Round

variable {a b m : Nat} {t q : Int}

/-- A quotient with enough digits is cut to the digits of a double. -/
theorem exists_shiftToTargetExponent (hb : 0 < b) (hbits : 2 ^ 52 ≤ a / b ∨ t ≤ -1074) :
    ∃ em k, shiftToTargetExponent Format.binary64 (a / b) t (accuracyOfFraction (a % b) b) =
        (em, t + (k : Nat)) ∧
      Cuts em a (b * 2 ^ k) ∧ Placed a (b * 2 ^ k) (t + (k : Nat)) := by
  obtain ⟨T, hT⟩ : ∃ T, T = Format.binary64.targetExponent (totalExponent (a / b) t) := ⟨_, rfl⟩
  refine ⟨_, (T - t).toNat, by rw [hT]; rfl, (cuts_ofFraction a hb).shiftRight hb _, ?_⟩
  -- the exponent is that of the last digit that is kept
  have hmax : T = max ((a / b).log2 + t - 52) (-1074) := by
    rw [hT]
    simp only [Format.targetExponent, totalExponent, Format.mantissaBits, Format.minExponent]
    omega
  have hlog : 2 ^ 52 ≤ a / b → 52 ≤ (a / b).log2 := fun h => (Nat.le_log2 (by omega)).mpr h
  have hk : t + ((T - t).toNat : Int) = T := by omega
  have hrest : a < b * (a / b + 1) := Nat.lt_mul_div_succ a hb
  generalize (T - t).toNat = k at *
  rw [hk]
  refine ⟨Nat.mul_pos hb (Nat.two_pow_pos k), ?_, by omega, ?_⟩
  -- there are 53 digits at most
  · have hlt : a / b + 1 ≤ 2 ^ (53 + k) :=
      Nat.lt_of_lt_of_le Nat.lt_log2_self (Nat.pow_le_pow_right (by decide) (by omega))
    calc a < b * (a / b + 1) := hrest
      _ ≤ b * 2 ^ (53 + k) := Nat.mul_le_mul_left b hlt
      _ = 2 ^ 53 * (b * 2 ^ k) := by ring
  -- and there are 53, unless the least exponent stops the cut
  · obtain hleast | hgreater : T = -1074 ∨ (a / b).log2 = 52 + k := by omega
    · exact .inr hleast
    · left
      have hne : a / b ≠ 0 := by
        intro hzero
        rw [hzero, Nat.log2_zero] at hgreater
        omega
      calc 2 ^ 52 * (b * 2 ^ k) = b * 2 ^ (52 + k) := by ring
        _ ≤ b * (a / b) := Nat.mul_le_mul_left b (hgreater ▸ Nat.log2_self_le hne)
        _ ≤ a := Nat.mul_div_le a b

/-- A mantissa of no more than 53 digits is not cut. -/
theorem shiftToTargetExponent_of_lt (hm : m < 2 ^ 53) (ht : -1074 ≤ t) :
    shiftToTargetExponent Format.binary64 m t .exact = (⟨m, false, false⟩, t) := by
  have hlog : m.log2 ≤ 52 := by
    obtain rfl | hne := eq_or_ne m 0
    · decide
    · exact Nat.le_of_lt_succ ((Nat.log2_lt hne).mpr hm)
  have hshift : (Format.binary64.targetExponent (totalExponent m t) - t).toNat = 0 := by
    simp only [Format.targetExponent, totalExponent, Format.mantissaBits, Format.minExponent]
    omega
  rw [shiftToTargetExponent, shiftToExponent, hshift]
  simp [HShiftRight.hShiftRight, Nat.repeat, ExtendedMantissa.ofMantissaAndAccuracy]

/-- Of the next power of two one digit is cut. -/
theorem shiftToTargetExponent_two_pow (ht : -1074 ≤ t) :
    shiftToTargetExponent Format.binary64 (2 ^ 53) t .exact = (⟨2 ^ 52, false, false⟩, t + 1) := by
  have hshift : (Format.binary64.targetExponent (totalExponent (2 ^ 53) t) - t).toNat = 1 := by
    simp only [Format.targetExponent, totalExponent, Nat.log2_two_pow, Format.mantissaBits,
      Format.minExponent]
    omega
  rw [shiftToTargetExponent, shiftToExponent, hshift]
  simp [HShiftRight.hShiftRight, Nat.repeat, ExtendedMantissa.ofMantissaAndAccuracy,
    ExtendedMantissa.shiftRightOne]

/-- **Rounding** a quotient that has enough digits gives the double that the quotient rounds to. -/
theorem roundWithAccuracy_of_contains (s : Sign) (hb : 0 < b) (hbits : 2 ^ 52 ≤ a / b ∨ t ≤ -1074)
    (hx : Canonical m q) (hv : (around m q).Contains (a / b * (2 : ℚ) ^ t)) :
    roundWithAccuracy Format.binary64 s (a / b) t (accuracyOfFraction (a % b) b) =
      .finite s m q hx.pos := by
  obtain ⟨em, k, hfirst, hcuts, hplaced⟩ := exists_shiftToTargetExponent (t := t) hb hbits
  -- the cut changes neither the number nor what it rounds to
  have hvalue : (a / b * (2 : ℚ) ^ t) = a / (b * 2 ^ k : Nat) * (2 : ℚ) ^ (t + (k : Int)) := by
    push_cast
    rw [zpow_add₀ two_ne_zero, zpow_natCast]
    field_simp
  rw [hvalue] at hv
  rw [roundWithAccuracy, hfirst]
  dsimp only
  obtain ⟨rfl, hlow, hhigh, hodd⟩ | ⟨rfl, rfl, hlow⟩ := hplaced.of_contains hx hv
  -- it rounds to the mantissa of the double, which is kept as it is
  · rw [hcuts.roundedMantissa_eq hplaced.pos hlow hhigh hodd, shiftToTargetExponent_of_lt hx.lt hx.least]
    exact dif_neg (Nat.ne_of_gt hx.pos)
  · -- the mantissa is rounded to the next power of two
    have hlt := hplaced.lt
    have hnext : em.roundedMantissa = 2 ^ 53 :=
      hcuts.roundedMantissa_eq hplaced.pos (by omega) (by omega) (by omega)
    have hne : (2 : Nat) ^ 52 ≠ 0 := by decide
    rw [hnext, shiftToTargetExponent_two_pow hplaced.least]
    exact dif_neg hne

/-- A quotient is divided far enough. -/
theorem divCore_eq (m₁ m₂ : Nat) (e₁ e₂ : Int) (h₁ : 0 < m₁) (h₂ : 0 < m₂) :
    ∃ a t, divCore Format.binary64 m₁ e₁ m₂ e₂ = (a / m₂, t, accuracyOfFraction (a % m₂) m₂) ∧
      (2 ^ 52 ≤ a / m₂ ∨ t ≤ -1074) ∧
      (a / m₂ * (2 : ℚ) ^ t) = m₁ * (2 : ℚ) ^ e₁ / (m₂ * (2 : ℚ) ^ e₂) := by
  obtain ⟨T, hT⟩ : ∃ T, T = Format.binary64.targetExponent (totalExponent m₁ e₁ - totalExponent m₂ e₂) :=
    ⟨_, rfl⟩
  -- the dividend is shifted until the quotient has 53 digits
  have hmax : T = max ((m₁.log2 : Int) - m₂.log2 + (e₁ - e₂) - 53) (-1074) := by
    rw [hT]
    simp only [Format.targetExponent, totalExponent, Format.mantissaBits, Format.minExponent]
    omega
  refine ⟨m₁ * 2 ^ (e₁ - e₂ - min (e₁ - e₂) T).toNat, min (e₁ - e₂) T,
    by rw [divCore, hT, ← Nat.shiftLeft_eq], ?_, ?_⟩
  · refine or_iff_not_imp_right.mpr fun ht => ?_
    have hshift : 53 + m₂.log2 ≤ m₁.log2 + (e₁ - e₂ - min (e₁ - e₂) T).toNat := by omega
    rw [Nat.le_div_iff_mul_le h₂]
    calc 2 ^ 52 * m₂ ≤ 2 ^ 52 * 2 ^ (m₂.log2 + 1) := Nat.mul_le_mul_left _ (Nat.le_of_lt Nat.lt_log2_self)
      _ = 2 ^ (53 + m₂.log2) := by ring
      _ ≤ 2 ^ (m₁.log2 + (e₁ - e₂ - min (e₁ - e₂) T).toNat) := Nat.pow_le_pow_right (by decide) hshift
      _ = 2 ^ m₁.log2 * 2 ^ (e₁ - e₂ - min (e₁ - e₂) T).toNat := Nat.pow_add ..
      _ ≤ m₁ * 2 ^ (e₁ - e₂ - min (e₁ - e₂) T).toNat :=
        Nat.mul_le_mul_right _ (Nat.log2_self_le (Nat.ne_of_gt h₁))
  · have hshift : ((e₁ - e₂ - min (e₁ - e₂) T).toNat : Int) = e₁ - e₂ - min (e₁ - e₂) T := by omega
    have hne : (m₂ : ℚ) ≠ 0 := by exact_mod_cast Nat.ne_of_gt h₂
    -- the shift is taken back by the exponent
    have hpow : (2 : ℚ) ^ (e₁ - e₂ - min (e₁ - e₂) T).toNat * 2 ^ min (e₁ - e₂) T = 2 ^ e₁ / 2 ^ e₂ := by
      rw [← zpow_natCast, hshift, ← zpow_add₀ two_ne_zero, ← zpow_sub₀ two_ne_zero]
      congr 1
      omega
    push_cast
    calc (m₁ * 2 ^ (e₁ - e₂ - min (e₁ - e₂) T).toNat / m₂ * 2 ^ min (e₁ - e₂) T : ℚ)
        = m₁ / m₂ * (2 ^ (e₁ - e₂ - min (e₁ - e₂) T).toNat * 2 ^ min (e₁ - e₂) T) := by ring
      _ = m₁ * 2 ^ e₁ / (m₂ * 2 ^ e₂) := by rw [hpow, div_mul_div_comm]

/-- **Dividing** gives the double that the quotient rounds to. -/
theorem div_of_contains (s₁ s₂ : Sign) {m₁ m₂ : Nat} {e₁ e₂ : Int} (h₁ : 0 < m₁) (h₂ : 0 < m₂)
    (hx : Canonical m q)
    (hv : (around m q).Contains (m₁ * (2 : ℚ) ^ e₁ / (m₂ * (2 : ℚ) ^ e₂))) :
    UnpackedFloat.div Format.binary64 (.finite s₁ m₁ e₁ h₁) (.finite s₂ m₂ e₂ h₂) =
      .finite (s₁ / s₂) m q hx.pos := by
  obtain ⟨a, t, hcore, hbits, hvalue⟩ := divCore_eq m₁ m₂ e₁ e₂ h₁ h₂
  rw [← hvalue] at hv
  rw [UnpackedFloat.div, hcore]
  exact roundWithAccuracy_of_contains (s₁ / s₂) h₂ hbits hx hv

end Round

/-! ### Decimal numerals -/

/-- The unpacked double is positive and stands for the number. -/
def StandsFor (x : UnpackedFloat) (v : ℚ) : Prop :=
  ∃ m e hpos, x = .finite .positive m e hpos ∧ m * (2 : ℚ) ^ e = v

section StandsFor

variable {x y : UnpackedFloat} {n : Nat}

theorem Denotes.standsFor (h : Denotes x n) (hn : 0 < n) : StandsFor x n := by
  generalize ha : (n : Int) = a at h
  cases h with
  | zero s => omega
  | @finite s m k n' hpos _ _ _ hvalue =>
    cases s with
    | negative =>
      have hneg : (n : Int) = -n' := ha
      omega
    | positive =>
      obtain rfl : n = n' := Int.ofNat_inj.mp ha
      refine ⟨m, _, hpos, rfl, ?_⟩
      -- the same equation over the rationals, where the scale can be divided out
      have hvalue' : (m * 2 ^ k : ℚ) = n * 2 ^ 52 := by exact_mod_cast hvalue
      rw [zpow_sub₀ two_ne_zero, zpow_natCast, ← mul_div_assoc, hvalue']
      exact mul_div_cancel_right₀ _ (by norm_num)

/-- Whether an unpacked double with no more than 52 digits behind the point stands for the number. -/
def standsForNat (n : Nat) : UnpackedFloat → Bool
  | .finite .positive m e _ => decide (-52 ≤ e) && m * 2 ^ (e + 52).toNat == n * 2 ^ 52
  | _ => false

theorem standsFor_of_standsForNat (h : standsForNat n x = true) : StandsFor x n := by
  unfold standsForNat at h
  split at h
  · next m e hpos =>
    rw [Bool.and_eq_true, decide_eq_true_eq, beq_iff_eq] at h
    obtain ⟨he, hvalue⟩ := h
    -- the exponent as a power of two over `2 ^ 52`
    obtain ⟨k, rfl⟩ : ∃ k : Nat, e = k - 52 := ⟨(e + 52).toNat, by omega⟩
    rw [Int.sub_add_cancel, Int.toNat_natCast] at hvalue
    have hvalue' : (m * 2 ^ k : ℚ) = n * 2 ^ 52 := by exact_mod_cast hvalue
    refine ⟨m, _, hpos, rfl, ?_⟩
    rw [zpow_sub₀ two_ne_zero, zpow_natCast, ← mul_div_assoc, hvalue']
    exact mul_div_cancel_right₀ _ (by norm_num)
  · cases h

/-- The table of powers of ten holds them. -/
theorem standsForNat_powers : ∀ j (hj : j < Float.exactlyRepresentablePowersOfTen.size),
    standsForNat (10 ^ j) (Float.exactlyRepresentablePowersOfTen[j]).toModel.unpack = true := by
  decide +kernel

/-- **Dividing** gives the double that the quotient rounds to. -/
theorem StandsFor.div {v w : ℚ} {m : Nat} {q : Int} (hx : StandsFor x v) (hy : StandsFor y w)
    (hm : Canonical m q) (hv : (around m q).Contains (v / w)) :
    UnpackedFloat.div Format.binary64 x y = .finite .positive m q hm.pos := by
  obtain ⟨m₁, e₁, h₁, rfl, rfl⟩ := hx
  obtain ⟨m₂, e₂, h₂, rfl, rfl⟩ := hy
  exact div_of_contains .positive .positive h₁ h₂ hm hv

end StandsFor

/-- A double is what its unpacked form packs to. -/
theorem ofModel_pack_unpack (x : Float) : Float.ofModel (.pack x.toModel.unpack) = x := by
  have hbits : UnpackedFloat.pack Format.binary64 (UnpackedFloat.unpack Format.binary64 x.toModel.toBits.toBitVec) =
      x.toModel.toBits.toBitVec := pack_unpack_of_valid x.toModel.valid
  obtain ⟨⟨⟨bits⟩, valid⟩⟩ := x
  exact congrArg Float.ofModel (by simpa [Float.Model.pack, Float.Model.unpack] using hbits)

/-- **A numeral** with digits behind the point becomes the double that it rounds to. -/
theorem ofScientific_of_contains {x : Float} {m n k : Nat} {q : Int} (hm : Canonical m q)
    (hx : x.toModel.unpack = .finite .positive m q hm.pos) (hn : 0 < n) (hpos : 0 < k)
    (hk : k ≤ 2048) (hv : (around m q).Contains (n / 10 ^ k)) : Float.ofScientific n true k = x := by
  rw [← ofModel_pack_unpack x, hx, Float.ofScientific]
  split
  · next hfast =>
    have hsize : k < Float.exactlyRepresentablePowersOfTen.size := Nat.lt_succ_of_le hfast.2
    -- small enough for the table of powers: one exact division
    have hpower := standsFor_of_standsForNat (standsForNat_powers k hsize)
    push_cast at hpower
    rw [← ((denotes_toUInt64_toFloat hfast.1).standsFor hn).div hpower hm hv]
    rfl
  · have hn0 : n ≠ 0 := Nat.ne_of_gt hn
    have hten : 0 < 10 ^ k := Nat.pow_pos (by decide)
    -- otherwise number and power are made exactly and then divided
    have hnumber : StandsFor (.finite .positive n 0 hn) n := ⟨n, 0, hn, rfl, by simp⟩
    have hpower : StandsFor (.finite .positive (10 ^ k) 0 hten) (10 ^ k) :=
      ⟨10 ^ k, 0, hten, rfl, by push_cast; simp⟩
    have hexponent : (if true = true then Int.negOfNat k else Int.ofNat k) = -(k : Int) := by
      rw [if_pos rfl, Int.negOfNat_eq]
      rfl
    -- the two ways out for huge exponents are not taken
    have hlarge : ¬ -(k : Int) > 2 ^ Format.binary64.exponentBits := by
      change ¬ -(k : Int) > 2 ^ 11
      omega
    have hsmall : ¬ -(k : Int) < -(2 ^ Format.binary64.exponentBits + (n.log2 : Int)) := by
      change ¬ -(k : Int) < -(2 ^ 11 + (n.log2 : Int))
      omega
    have hnegative : ¬ 0 ≤ -(k : Int) := by omega
    have hnat : (- -(k : Int)).toNat = k := by omega
    dsimp only
    rw [← hnumber.div hpower hm hv, hexponent, Float.Model.ofScientific, UnpackedFloat.ofScientific, dif_neg hn0,
      if_neg hlarge, if_neg hsmall, if_neg hnegative]
    simp only [hnat]

end Double

end TemplateFrontend
