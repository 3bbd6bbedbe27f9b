import Mathlib
import TemplateFrontend.Number.Integer
/-!
# Integers as doubles

What integer a double stands for, and which double an integer becomes. A floating-point number of 64 bits has
53 binary digits. An integer with more digits than that is rounded to one that has zeros behind the first 53: to
the nearest one, and of two that are equally near to the one whose last digit is even.

Doubles are computed on in an unpacked form, with a mantissa of 53 binary digits; each operation shifts its
result to that length, with two bits that remember what was shifted out, and rounds it. So an integer becomes the
double that stands for the nearest one with 53 digits, and as a double with 53 digits stands for one integer only,
doubles are equal if and only if these are.

* `Integer.halfEven` — the quotient by a power of two, rounded;
* `Integer.halfEven_mul` — a common power of two does not matter;
* `Integer.nearest` — the rounded integer;
* `Integer.nearest_eq_self` — integers up to `2 ^ 53` stay what they are;
* `Double.shift_spec` — what the bits behind a shifted mantissa say;
* `Double.Denotes` — an unpacked double and the integer that it stands for;
* `Double.Denotes.beq` — equality of doubles;
* `Double.denotes_round` — rounding;
* `Double.Denotes.unpack_pack` — packing keeps what a double stands for;
* `Double.denotes_toFloat`, `Double.toFloat_beq` — integers as doubles, and their equality.
-/

namespace TemplateFrontend

namespace Integer

/-! ### Integers of 53 binary digits -/

/-- The quotient by a power of two, rounded to the nearest number, of two equally near to the even one. -/
def halfEven (n k : Nat) : Nat :=
  let q := n / 2 ^ k
  let r := n % 2 ^ k
  if 2 * r < 2 ^ k then q else if 2 * r = 2 ^ k then q + q % 2 else q + 1

/-- The number of binary digits behind the first 53. -/
def excess (n : Nat) : Nat := n.log2 - 52

/-- The number with at most 53 binary digits before its zeros that is nearest. -/
def nearestNat (n : Nat) : Nat := halfEven n (excess n) * 2 ^ excess n

/-- The integer with at most 53 binary digits before its zeros that is nearest. -/
def nearest (n : Int) : Int := n.sign * nearestNat n.natAbs

section Quotients

variable {n k : Nat}

/-- Nothing is left out, so nothing is rounded. -/
@[simp] theorem halfEven_zero (n : Nat) : halfEven n 0 = n := by
  simp [halfEven, Nat.mod_one]

/-- **A common power of two** does not matter. -/
theorem halfEven_mul (n k j : Nat) : halfEven (n * 2 ^ j) (k + j) = halfEven n k := by
  have hpos : 0 < 2 ^ j := Nat.two_pow_pos j
  have hq : n * 2 ^ j / 2 ^ (k + j) = n / 2 ^ k := by
    rw [Nat.pow_add, Nat.mul_div_mul_right _ _ hpos]
  have hr : n * 2 ^ j % 2 ^ (k + j) = n % 2 ^ k * 2 ^ j := by
    rw [Nat.pow_add, Nat.mul_mod_mul_right]
  have hlt : 2 * (n % 2 ^ k * 2 ^ j) < 2 ^ (k + j) ↔ 2 * (n % 2 ^ k) < 2 ^ k := by
    rw [Nat.pow_add, ← Nat.mul_assoc, Nat.mul_lt_mul_right hpos]
  have heq : 2 * (n % 2 ^ k * 2 ^ j) = 2 ^ (k + j) ↔ 2 * (n % 2 ^ k) = 2 ^ k := by
    rw [Nat.pow_add, ← Nat.mul_assoc, Nat.mul_left_inj (Nat.ne_of_gt hpos)]
  simp only [halfEven, hq, hr, hlt, heq]

/-- The quotient is rounded down if the rest is no more than a half, and up if it is no less. -/
theorem halfEven_cases (n k : Nat) :
    (halfEven n k = n / 2 ^ k ∧ 2 * (n % 2 ^ k) ≤ 2 ^ k) ∨
      (halfEven n k = n / 2 ^ k + 1 ∧ 2 ^ k ≤ 2 * (n % 2 ^ k)) := by
  rw [halfEven]
  split
  · next hlt => exact .inl ⟨rfl, Nat.le_of_lt hlt⟩
  split
  · omega
  · next hnot hne => exact .inr ⟨rfl, Nat.not_lt.mp hnot⟩

/-- A quotient of 53 digits has 53 digits when it is rounded, or it is the next power of two. -/
theorem halfEven_bounds (hlow : 2 ^ (52 + k) ≤ n) (hhigh : n < 2 ^ (53 + k)) :
    2 ^ 52 ≤ halfEven n k ∧ halfEven n k ≤ 2 ^ 53 := by
  have hpos : 0 < 2 ^ k := Nat.two_pow_pos k
  have hq : 2 ^ 52 ≤ n / 2 ^ k := (Nat.le_div_iff_mul_le hpos).mpr (Nat.pow_add .. ▸ hlow)
  have hq' : n / 2 ^ k < 2 ^ 53 := (Nat.div_lt_iff_lt_mul hpos).mpr (Nat.pow_add .. ▸ hhigh)
  have hcases := halfEven_cases n k
  omega

end Quotients

/-- Of a number without a sign. -/
@[simp] theorem nearest_natCast (n : Nat) : nearest n = nearestNat n := by
  obtain rfl | hpos := Nat.eq_zero_or_pos n
  · rfl
  · rw [nearest, Int.sign_natCast_of_ne_zero (Nat.ne_of_gt hpos), Int.natAbs_natCast, Int.one_mul]

/-- The sign does not matter. -/
@[simp] theorem nearest_neg (n : Int) : nearest (-n) = -nearest n := by
  rw [nearest, nearest, Int.sign_neg, Int.natAbs_neg, Int.neg_mul]

/-! ### Integers that stay what they are -/

/-- Numbers of at most 53 digits, and the first one with more, are the nearest ones themselves. -/
theorem nearestNat_eq_self {n : Nat} (h : n ≤ 2 ^ 53) : nearestNat n = n := by
  obtain hlt | rfl := Nat.lt_or_eq_of_le h
  · have hexcess : excess n = 0 := by
      obtain rfl | hpos := Nat.eq_zero_or_pos n
      · rfl
      · have hlog := (Nat.log2_lt (Nat.ne_of_gt hpos)).mpr hlt
        rw [excess]
        omega
    rw [nearestNat, hexcess, halfEven_zero, Nat.pow_zero, Nat.mul_one]
  · decide

/-- **Integers of at most 53 digits** are the nearest ones themselves. -/
theorem nearest_eq_self {n : Int} (h : n.natAbs ≤ 2 ^ 53) : nearest n = n := by
  rw [nearest, nearestNat_eq_self h, Int.sign_mul_natAbs]

/-- The integers next to `2 ^ 53`, which has 54 digits, are even. -/
example : nearest 9007199254740993 = 9007199254740992 ∧ nearest (-9007199254740995) = -9007199254740996 := by
  decide

end Integer

namespace Double

open Float.Model Float.Model.UnpackedFloat
open Integer (halfEven excess nearestNat nearest)

/-! ### Shifting and rounding -/

section Shift

variable (m k : Nat)

/-- **A mantissa shifted to the right.** The round bit says whether what was shifted out is at least one half,
the sticky bit whether there is something besides the half. -/
theorem shift_spec :
    ((⟨m, false, false⟩ : ExtendedMantissa) >>> k).mantissa = m / 2 ^ k ∧
      (((⟨m, false, false⟩ : ExtendedMantissa) >>> k).roundBit = true ↔ 2 ^ k ≤ 2 * (m % 2 ^ k)) ∧
      (((⟨m, false, false⟩ : ExtendedMantissa) >>> k).stickyBit = true ↔
        m % 2 ^ k ≠ 0 ∧ 2 * (m % 2 ^ k) ≠ 2 ^ k) := by
  induction k with
  | zero => simp [HShiftRight.hShiftRight, Nat.repeat, Nat.mod_one]
  | succ k ih =>
    obtain ⟨hmantissa, hround, hsticky⟩ := ih
    have hstep : (⟨m, false, false⟩ : ExtendedMantissa) >>> (k + 1) =
        ((⟨m, false, false⟩ : ExtendedMantissa) >>> k).shiftRightOne := rfl
    -- one more digit is shifted out, above those that were shifted out before
    have hrest : m % 2 ^ (k + 1) = m % 2 ^ k + 2 ^ k * (m / 2 ^ k % 2) := Nat.mod_pow_succ
    have hlt : m % 2 ^ k < 2 ^ k := Nat.mod_lt _ (Nat.two_pow_pos k)
    rw [hstep, ExtendedMantissa.shiftRightOne, hrest, Nat.pow_succ, hmantissa]
    refine ⟨Nat.div_div_eq_div_mul .., ?_, ?_⟩
    · rw [bne_iff_ne]
      obtain hd | hd := Nat.mod_two_eq_zero_or_one (m / 2 ^ k) <;> rw [hd] <;> omega
    · rw [Bool.or_eq_true, hround, hsticky]
      obtain hd | hd := Nat.mod_two_eq_zero_or_one (m / 2 ^ k) <;> rw [hd] <;> omega

/-- The two bits are what it takes to round the mantissa. -/
theorem roundedMantissa_shift :
    ((⟨m, false, false⟩ : ExtendedMantissa) >>> k).roundedMantissa = halfEven m k := by
  obtain ⟨hmantissa, hround, hsticky⟩ := shift_spec m k
  have hlt : m % 2 ^ k < 2 ^ k := Nat.mod_lt _ (Nat.two_pow_pos k)
  generalize (⟨m, false, false⟩ : ExtendedMantissa) >>> k = em at *
  obtain ⟨q, round, sticky⟩ := em
  obtain rfl : q = m / 2 ^ k := hmantissa
  rw [ExtendedMantissa.roundedMantissa, halfEven]
  cases round <;> cases sticky <;>
    simp only [ExtendedMantissa.accuracy, Accuracy.roundToNearestEven] at * <;> grind

end Shift

section Round

variable {m : Nat} {e : Int}

/-- A mantissa is shifted so far that 53 digits are left of it. -/
theorem shiftToTargetExponent_eq (hm : 52 ≤ m.log2) (he : -1074 ≤ e) :
    shiftToTargetExponent Format.binary64 m e .exact =
      ((⟨m, false, false⟩ : ExtendedMantissa) >>> (m.log2 - 52), e + ((m.log2 - 52 : Nat) : Int)) := by
  have htarget : Format.binary64.targetExponent (totalExponent m e) - e =
      ((m.log2 - 52 : Nat) : Int) := by
    simp only [Format.targetExponent, totalExponent, Format.mantissaBits, Format.minExponent]
    omega
  rw [shiftToTargetExponent, shiftToExponent, htarget, Int.toNat_natCast]
  rfl

/-- **Rounding** leaves a mantissa of 53 digits. If the rounded one is the next power of two, it is shifted
once more. -/
theorem roundWithAccuracy_eq (s : Sign) (hm : 52 ≤ m.log2) (he : -1074 ≤ e) :
    ∃ (q j : Nat) (hpos : 0 < q), roundWithAccuracy Format.binary64 s m e .exact =
        .finite s q (e + ((m.log2 - 52 : Nat) : Int) + (j : Int)) hpos ∧
      2 ^ 52 ≤ q ∧ q < 2 ^ 53 ∧ j ≤ 1 ∧ q * 2 ^ j = halfEven m (m.log2 - 52) := by
  have hm0 : m ≠ 0 := by
    rintro rfl
    exact absurd hm (by decide)
  obtain ⟨hlow, hhigh⟩ : 2 ^ 52 ≤ halfEven m (m.log2 - 52) ∧ halfEven m (m.log2 - 52) ≤ 2 ^ 53 := by
    refine Integer.halfEven_bounds ((Nat.le_log2 hm0).mp ?_) ((Nat.log2_lt hm0).mp ?_) <;> omega
  rw [roundWithAccuracy, shiftToTargetExponent_eq hm he]
  dsimp only
  rw [roundedMantissa_shift]
  generalize halfEven m (m.log2 - 52) = q at *
  -- the rounded mantissa is shifted by nothing, or by one if it is the next power of two
  have hq0 : q ≠ 0 := by omega
  have hlog : 52 ≤ q.log2 := (Nat.le_log2 hq0).mpr hlow
  obtain ⟨hmantissa, -, -⟩ := shift_spec q (q.log2 - 52)
  have hlast : 2 ^ 52 ≤ q / 2 ^ (q.log2 - 52) ∧ q / 2 ^ (q.log2 - 52) < 2 ^ 53 ∧ q.log2 - 52 ≤ 1 ∧
      q / 2 ^ (q.log2 - 52) * 2 ^ (q.log2 - 52) = q := by
    -- 53 digits, or the next power of two
    obtain hlt | rfl := Nat.lt_or_eq_of_le hhigh
    · have hlog' := (Nat.log2_lt hq0).mpr hlt
      have hzero : q.log2 - 52 = 0 := by omega
      rw [hzero, Nat.pow_zero, Nat.div_one]
      omega
    · rw [Nat.log2_two_pow]
      decide
  rw [shiftToTargetExponent_eq hlog (by omega)]
  dsimp only
  rw [← hmantissa] at hlast
  obtain ⟨hlow', hhigh', hj, hq⟩ := hlast
  have hpos : 0 < ((⟨q, false, false⟩ : ExtendedMantissa) >>> (q.log2 - 52)).mantissa := by omega
  exact ⟨_, _, hpos, dif_neg (Nat.ne_of_gt hpos), hlow', hhigh', hj, hq⟩

end Round

/-! ### Doubles that stand for integers -/

/-- The double stands for the integer: it is zero, or it has 53 digits and an exponent from `-52` to `12`. -/
inductive Denotes : UnpackedFloat → Int → Prop
  | zero (s : Sign) : Denotes (.zero s) 0
  | finite (s : Sign) {m k n : Nat} (hpos : 0 < m) (hlow : 2 ^ 52 ≤ m) (hhigh : m < 2 ^ 53) (hk : k ≤ 64)
      (hn : m * 2 ^ k = n * 2 ^ 52) : Denotes (.finite s m ((k : Int) - 52) hpos) (s.apply n)

section Denotes

variable {x y : UnpackedFloat} {a b : Int}

/-- A number has one form with 53 digits. -/
theorem eq_of_mul_two_pow_eq {m m' k k' : Nat} (hlow : 2 ^ 52 ≤ m) (hhigh : m < 2 ^ 53)
    (hlow' : 2 ^ 52 ≤ m') (hhigh' : m' < 2 ^ 53) (h : m * 2 ^ k = m' * 2 ^ k') : m = m' ∧ k = k' := by
  -- a larger exponent makes a larger number, whatever the digits are
  have hlt : ∀ {m m' k k' : Nat}, m < 2 ^ 53 → 2 ^ 52 ≤ m' → k < k' → m * 2 ^ k < m' * 2 ^ k' := by
    intro m m' k k' hm hm' hk
    calc m * 2 ^ k
        < 2 ^ 53 * 2 ^ k := Nat.mul_lt_mul_of_pos_right hm (Nat.two_pow_pos k)
      _ = 2 ^ 52 * 2 ^ (k + 1) := by
        rw [← Nat.pow_add, ← Nat.pow_add]
        congr 1
        omega
      _ ≤ m' * 2 ^ k' := Nat.mul_le_mul hm' (Nat.pow_le_pow_right (by decide) hk)
  obtain hk | rfl | hk := Nat.lt_trichotomy k k'
  · exact absurd h (Nat.ne_of_lt (hlt hhigh hlow' hk))
  · exact ⟨Nat.eq_of_mul_eq_mul_right (Nat.two_pow_pos k) h, rfl⟩
  · exact absurd h.symm (Nat.ne_of_lt (hlt hhigh' hlow hk))

/-- With the other sign the double stands for the other integer. -/
theorem Denotes.neg (h : Denotes x a) : Denotes x.neg (-a) := by
  cases h with
  | zero s => exact .zero (-s)
  | @finite s m k n hpos hlow hhigh hk hn =>
    have happly : -s.apply n = (-s).apply n := by
      cases s with
      | negative => exact Int.neg_neg n
      | positive => rfl
    rw [happly]
    exact .finite (-s) hpos hlow hhigh hk hn

/-- Positive numbers with signs are equal if both are. -/
theorem apply_eq_apply_iff {s t : Sign} {n n' : Nat} (hn : 0 < n) :
    s.apply n = t.apply n' ↔ s = t ∧ n = n' := by
  cases s <;> cases t <;> simp [Sign.apply] <;> omega

/-- Two doubles are equal if sign, exponent and mantissa are. -/
theorem compare_finite_iff {s t : Sign} {m m' : Nat} {e e' : Int} {hm : 0 < m} {hm' : 0 < m'} :
    (UnpackedFloat.finite s m e hm).compare (.finite t m' e' hm') = some .eq ↔
      s = t ∧ e = e' ∧ m = m' := by
  cases s <;> cases t <;>
    simp [UnpackedFloat.compare, Ordering.then_eq_eq]

/-- **Equality of doubles** is that of the integers that they stand for. -/
theorem Denotes.beq (hx : Denotes x a) (hy : Denotes y b) : x.beq y = decide (a = b) := by
  -- a mantissa that is not zero stands for a number that is not
  have hpos : ∀ {m k n : Nat}, 0 < m → m * 2 ^ k = n * 2 ^ 52 → 0 < n := by
    intro m k n hm hn
    have hlt : 0 < n * 2 ^ 52 := hn ▸ Nat.mul_pos hm (Nat.two_pow_pos k)
    exact Nat.pos_of_mul_pos_right hlt
  have hne : ∀ {s : Sign} {n : Nat}, 0 < n → s.apply n ≠ 0 := by
    intro s n hn
    cases s <;> simp only [Sign.apply] <;> omega
  rw [UnpackedFloat.beq, Bool.eq_iff_iff, beq_iff_eq, decide_eq_true_iff]
  -- zero has two signs, which are equal as doubles; other doubles have one form each
  cases hx with
  | zero s =>
    cases hy with
    | zero t => exact iff_of_true rfl rfl
    | finite t hm' _ _ _ hn' =>
      refine iff_of_false ?_ (hne (hpos hm' hn')).symm
      cases t <;> simp [UnpackedFloat.compare]
  | finite s hm hlow hhigh _ hn =>
    cases hy with
    | zero t =>
      refine iff_of_false ?_ (hne (hpos hm hn))
      cases s <;> simp [UnpackedFloat.compare]
    | finite t hm' hlow' hhigh' _ hn' =>
      rw [compare_finite_iff, apply_eq_apply_iff (hpos hm hn)]
      refine and_congr_right fun _ => ⟨?_, ?_⟩
      · -- the same digits and the same exponent
        rintro ⟨hk, rfl⟩
        obtain rfl := Int.ofNat_inj.mp ((Int.sub_left_inj _).mp hk)
        exact Nat.eq_of_mul_eq_mul_right (by decide) (hn.symm.trans hn')
      · rintro rfl
        obtain ⟨rfl, rfl⟩ := eq_of_mul_two_pow_eq hlow hhigh hlow' hhigh' (hn.trans hn'.symm)
        exact ⟨rfl, rfl⟩

/-- **Rounding** gives the integer with 53 digits. -/
theorem denotes_round (s : Sign) {m k n : Nat} {e : Int} (hm : 52 ≤ m.log2) (he : -1074 ≤ e)
    (hk : e + ((m.log2 - 52 : Nat) : Int) = (k : Int) - 52) (hk' : k ≤ 63)
    (hn : halfEven m (m.log2 - 52) * 2 ^ k = n * 2 ^ 52) :
    Denotes (roundWithAccuracy Format.binary64 s m e .exact) (s.apply n) := by
  obtain ⟨q, j, hpos, heq, hlow, hhigh, hj, hq⟩ := roundWithAccuracy_eq s hm he
  have hexponent : e + ((m.log2 - 52 : Nat) : Int) + (j : Int) = ((k + j : Nat) : Int) - 52 := by omega
  have hvalue : q * 2 ^ (k + j) = n * 2 ^ 52 := by
    rw [← hn, ← hq, Nat.pow_add, Nat.mul_assoc, Nat.mul_comm (2 ^ j)]
  rw [heq, hexponent]
  exact .finite s hpos hlow hhigh (by omega) hvalue

/-! ### Packing -/

/-- The sign is found again. -/
theorem unpackSign_packComponents {spec : Format} {sign : Sign} {exponent mantissa} :
    unpackSign (packComponents spec sign exponent mantissa) = sign.toBitVec := by
  ext i hi
  obtain rfl : i = 0 := by omega
  simp [unpackSign, packComponents, BitVec.getLsbD_append, BitVec.getElem_append]

theorem ofBitVec_toBitVec (s : Sign) : Sign.ofBitVec s.toBitVec = s := by
  cases s <;> rfl

/-- A packed double with an exponent between those of zero and of infinity. -/
theorem unpack_packComponents {spec : Format} (s : Sign) {exponent : BitVec spec.exponentBits}
    {mantissa : BitVec spec.mantissaBitsWithoutImplicit} (hinfinite : exponent ≠ -1#_)
    (hzero : exponent ≠ 0#_) :
    ∃ hpos, UnpackedFloat.unpack spec (packComponents spec s exponent mantissa) =
      .finite s (1#1 ++ mantissa).toNat
        (exponent.toNat - (spec.exponentBias + spec.mantissaBitsWithoutImplicit)) hpos := by
  refine ⟨by simp, ?_⟩
  rw [UnpackedFloat.unpack]
  simp only [unpackMantissa_packComponents, unpackExponent_packComponents, unpackSign_packComponents,
    ofBitVec_toBitVec, if_neg hinfinite, if_neg hzero]

/-- The digits after the first one and the exponent, with the bias, are what is packed of a number with 53
digits. -/
theorem pack_finite (s : Sign) {m k : Nat} (hpos : 0 < m) (hlow : 2 ^ 52 ≤ m) (hhigh : m < 2 ^ 53)
    (hk : k ≤ 64) :
    UnpackedFloat.pack Format.binary64 (.finite s m ((k : Int) - 52) hpos) =
      packComponents Format.binary64 s (BitVec.ofNat 11 (k + 1023)) (BitVec.ofNat 52 m) := by
  have hlog : m.log2 + 1 = Format.binary64.mantissaBits := by
    have hle := (Nat.le_log2 (Nat.ne_of_gt hpos)).mpr hlow
    have hlt := (Nat.log2_lt (Nat.ne_of_gt hpos)).mpr hhigh
    change m.log2 + 1 = 1 + 52
    omega
  have hbiased : ((k : Int) - 52 + Format.binary64.exponentBias +
      Format.binary64.mantissaBitsWithoutImplicit).toNat = k + 1023 := by
    simp only [Format.exponentBias]
    omega
  -- the exponent is far from that of infinity
  have hfits : ¬ 2 ^ 11 ≤ k + 1023 + 1 := by omega
  rw [UnpackedFloat.pack]
  dsimp only
  rw [hbiased, if_neg hfits, if_pos hlog]

/-- They are found again, and the first digit is put in front. -/
theorem unpack_finite (s : Sign) {m k : Nat} (hlow : 2 ^ 52 ≤ m) (hhigh : m < 2 ^ 53) (hk : k ≤ 64) :
    ∃ hpos, UnpackedFloat.unpack Format.binary64
        (packComponents Format.binary64 s (BitVec.ofNat 11 (k + 1023)) (BitVec.ofNat 52 m)) =
      .finite s m ((k : Int) - 52) hpos := by
  have hexponent : (BitVec.ofNat 11 (k + 1023)).toNat = k + 1023 := by
    rw [BitVec.toNat_ofNat]
    exact Nat.mod_eq_of_lt (by omega)
  have hother : ∀ v : BitVec 11, v.toNat ≠ k + 1023 → BitVec.ofNat 11 (k + 1023) ≠ v := by
    rintro _ hv rfl
    exact hv hexponent
  -- neither the exponent of infinities nor that of zero and the smallest doubles
  have hinfinite : BitVec.ofNat 11 (k + 1023) ≠ -1#_ := by
    refine hother _ ?_
    change 2047 ≠ k + 1023
    omega
  have hzero : BitVec.ofNat 11 (k + 1023) ≠ 0#_ := by
    refine hother _ ?_
    change 0 ≠ k + 1023
    omega
  -- the number is at least the power of two that its first digit stands for
  have hmantissa : (1#1 ++ BitVec.ofNat 52 m).toNat = m := by
    rw [BitVec.toNat_append, ← Nat.shiftLeft_add_eq_or_of_lt (BitVec.isLt _), BitVec.toNat_ofNat]
    change 1 <<< 52 + m % 2 ^ 52 = m
    omega
  have hbias : ((k + 1023 : Nat) : Int) - (Format.binary64.exponentBias +
      Format.binary64.mantissaBitsWithoutImplicit) = (k : Int) - 52 := by
    simp only [Format.exponentBias]
    omega
  obtain ⟨_, heq⟩ :=
    @unpack_packComponents Format.binary64 s _ (BitVec.ofNat 52 m) hinfinite hzero
  refine ⟨Nat.lt_of_lt_of_le (by decide) hlow, heq.trans ?_⟩
  rw [UnpackedFloat.finite.injEq, hexponent]
  exact ⟨rfl, hmantissa, hbias⟩

/-- **Packing** keeps what a double stands for. -/
theorem Denotes.unpack_pack (h : Denotes x a) : (Float.Model.pack x).unpack = x := by
  show UnpackedFloat.unpack Format.binary64 (UnpackedFloat.pack Format.binary64 x) = x
  cases h with
  | zero s => cases s <;> rfl
  | finite s hpos hlow hhigh hk _ =>
    obtain ⟨_, hunpack⟩ := unpack_finite s hlow hhigh hk
    rw [pack_finite s hpos hlow hhigh hk, hunpack]

end Denotes

/-! ### Integers as doubles -/

section Conversion

variable {x : UnpackedFloat} {n : Nat} {a : Int}

/-- The packed double stands for the same integer. -/
theorem Denotes.ofModel_pack (h : Denotes x a) : Denotes (Float.ofModel (.pack x)).toModel.unpack a := by
  show Denotes (Float.Model.pack x).unpack a
  rw [h.unpack_pack]
  exact h

/-- A power of two adds its exponent to the number of digits. -/
theorem log2_mul_two_pow (hn : 0 < n) (j : Nat) : (n * 2 ^ j).log2 = n.log2 + j := by
  refine (Nat.log2_eq_iff (Nat.ne_of_gt (Nat.mul_pos hn (Nat.two_pow_pos j)))).mpr ⟨?_, ?_⟩
  · rw [Nat.pow_add]
    exact Nat.mul_le_mul_right _ (Nat.log2_self_le (Nat.ne_of_gt hn))
  · rw [Nat.add_right_comm, Nat.pow_add]
    exact Nat.mul_lt_mul_of_pos_right Nat.lt_log2_self (Nat.two_pow_pos j)

/-- A number of at most 53 digits gets zeros behind them. -/
theorem denotes_normalize (hn : n < 2 ^ 53) :
    Denotes (normalize Format.binary64 n 0 .positive) n := by
  obtain rfl | hpos := Nat.eq_zero_or_pos n
  · exact .zero .positive
  have hlog : n.log2 ≤ 52 := Nat.le_of_lt_succ ((Nat.log2_lt (Nat.ne_of_gt hpos)).mpr hn)
  -- as many zeros are put behind the digits as are missing to 53
  have htarget : 0 - Format.binary64.targetExponent (totalExponent n 0) = ((52 - n.log2 : Nat) : Int) := by
    simp only [Format.targetExponent, totalExponent, Format.mantissaBits, Format.minExponent]
    omega
  have hcompare : compare (n : Int) 0 = .gt := by
    rw [compare_gt_iff_gt]
    exact Int.natCast_pos.mpr hpos
  have hdigits : (n <<< (52 - n.log2)).log2 = 52 := by
    rw [Nat.shiftLeft_eq, log2_mul_two_pow hpos]
    omega
  -- with the zeros behind them there are 53 digits, so nothing is rounded
  rw [UnpackedFloat.normalize, hcompare]
  dsimp only
  rw [Int.toNat_natCast, UnpackedFloat.round]
  dsimp only
  rw [decreaseExponent, htarget, Int.toNat_natCast]
  dsimp only
  refine denotes_round (k := n.log2) .positive (Nat.le_of_eq hdigits.symm) (by omega) (by omega)
    (by omega) ?_
  rw [hdigits, Integer.halfEven_zero, Nat.shiftLeft_eq, Nat.mul_assoc, ← Nat.pow_add]
  congr 2
  omega

/-- **Multiplication by one** changes nothing. -/
theorem Denotes.mul_one (h : Denotes x a) :
    UnpackedFloat.mul Format.binary64 x (.finite .positive (2 ^ 52) (-52) (by decide)) = x := by
  cases h with
  | zero s => cases s <;> rfl
  | @finite s m k n hpos hlow hhigh hk hn =>
    have hlog : (m * 2 ^ 52).log2 = 104 := by
      rw [log2_mul_two_pow hpos, (Nat.log2_eq_iff (Nat.ne_of_gt hpos)).mpr ⟨hlow, hhigh⟩]
    have hsign : s * .positive = s := by cases s <;> rfl
    obtain ⟨q, j, hq, heq, hqlow, -, hj, hvalue⟩ :=
      roundWithAccuracy_eq (m := m * 2 ^ 52) (e := (k : Int) - 52 + -52) s (by omega) (by omega)
    -- the 53 digits are the first ones of the product, and zeros are behind them
    have hm : halfEven (m * 2 ^ 52) 52 = m := by
      rw [← Nat.zero_add 52, Integer.halfEven_mul, Integer.halfEven_zero]
    rw [hlog, hm] at hvalue
    obtain rfl : j = 0 := by
      refine Nat.lt_one_iff.mp (Nat.lt_of_le_of_ne hj ?_)
      rintro rfl
      omega
    rw [UnpackedFloat.mul, hsign, heq, UnpackedFloat.finite.injEq]
    refine ⟨rfl, by omega, ?_⟩
    rw [hlog]
    omega

/-- A word with a number of at most 53 digits becomes a double that stands for it. -/
theorem denotes_toUInt64_toFloat (hn : n < 2 ^ 53) : Denotes n.toUInt64.toFloat.toModel.unpack n := by
  have hword : n.toUInt64.toNat = n := UInt64.toNat_ofNat_of_lt' (Nat.lt_trans hn (by decide))
  refine Denotes.ofModel_pack ?_
  rw [UnpackedFloat.ofUInt64, hword]
  exact denotes_normalize hn

/-- **A number of at most 53 digits** as a double. -/
theorem denotes_ofNat_small (hn : n < 2 ^ 53) : Denotes (Float.ofNat n).toModel.unpack n := by
  -- a numeral is its digits times a power of ten, which is one here
  have hfloat : Float.ofNat n = n.toUInt64.toFloat * Float.ofBits 4607182418800017408 := by
    change Float.ofScientific n false 0 = _
    rw [Float.ofScientific, dif_pos ⟨hn, by decide⟩]
    rfl
  have hdigits := denotes_toUInt64_toFloat hn
  have hone : (Float.ofBits 4607182418800017408).toModel.unpack =
      .finite .positive (2 ^ 52) (-52) (by decide) := by rfl
  rw [hfloat]
  refine Denotes.ofModel_pack ?_
  rw [hone, hdigits.mul_one]
  exact hdigits

/-- **A number of more digits** is rounded. -/
theorem denotes_ofNat_large (hn : 2 ^ 53 ≤ n) (hn' : n < 2 ^ 64) :
    Denotes (Float.ofNat n).toModel.unpack (nearestNat n) := by
  have hn0 : n ≠ 0 := by omega
  have hlow : 53 ≤ n.log2 := (Nat.le_log2 hn0).mpr hn
  have hhigh : n.log2 < 64 := (Nat.log2_lt hn0).mpr hn'
  have hfloat : Float.ofNat n = .ofModel (.ofScientific n 0) := by
    change Float.ofScientific n false 0 = _
    rw [Float.ofScientific, dif_neg fun h => Nat.not_lt.mpr hn h.1]
    rfl
  -- there is no decimal exponent, so the product is with one
  have hproduct : UnpackedFloat.ofScientific Format.binary64 n 0 =
      roundWithAccuracy Format.binary64 .positive (n * 2 ^ 53) (-53) .exact := by
    have hbits : Format.binary64.mantissaBits = 53 := rfl
    have hsign : Sign.positive * .positive = .positive := rfl
    have hsmall : ¬ (0 : Int) > 2 ^ Format.binary64.exponentBits := by decide
    have hlarge : ¬ (0 : Int) < -(2 ^ Format.binary64.exponentBits + (n.log2 : Int)) := by
      change ¬ (0 : Int) < -(2 ^ 11 + (n.log2 : Int))
      omega
    rw [UnpackedFloat.ofScientific, dif_neg hn0, if_neg hsmall, if_neg hlarge, if_pos (Int.le_refl 0),
      UnpackedFloat.mul, Nat.shiftLeft_eq, hbits, Int.toNat_zero, Nat.pow_zero, Nat.mul_one, hsign]
    rfl
  have hlog : (n * 2 ^ 53).log2 = n.log2 + 53 := log2_mul_two_pow (Nat.pos_of_ne_zero hn0) 53
  rw [hfloat]
  refine Denotes.ofModel_pack ?_
  rw [hproduct]
  refine denotes_round (k := n.log2) .positive (by omega) (by omega) (by omega) (by omega) ?_
  -- what was put behind the digits is shifted out again, with the digits behind the first 53
  have hshift : (n * 2 ^ 53).log2 - 52 = excess n + 53 := by
    rw [excess]
    omega
  rw [hshift, Integer.halfEven_mul, nearestNat, Nat.mul_assoc, ← Nat.pow_add, excess]
  congr 2
  omega

/-- **An integer of 64 bits** as a double. -/
theorem denotes_toFloat (a : Int64) : Denotes (Integer.toFloat a).toModel.unpack (nearest a.toInt) := by
  have hnat : ∀ {n : Nat}, n < 2 ^ 64 → Denotes (Float.ofNat n).toModel.unpack (nearestNat n) := by
    intro n hn
    obtain hsmall | hlarge := Nat.lt_or_ge n (2 ^ 53)
    · rw [Integer.nearestNat_eq_self (Nat.le_of_lt hsmall)]
      exact denotes_ofNat_small hsmall
    · exact denotes_ofNat_large hlarge hn
  have hlow := Int64.le_toInt a
  have hhigh := Int64.toInt_lt a
  rw [Integer.toFloat]
  generalize a.toInt = i at *
  -- the conversion goes by the sign, and rounds the number behind it
  cases i with
  | ofNat n =>
    have hn : (n : Int) < 2 ^ 63 := hhigh
    have hnearest : nearest (Int.ofNat n) = nearestNat n := Integer.nearest_natCast n
    rw [hnearest]
    exact hnat (by omega)
  | negSucc n =>
    have hnearest : nearest (Int.negSucc n) = -nearestNat (n + 1) := by
      rw [Int.negSucc_eq, Integer.nearest_neg, ← Int.natCast_succ, Integer.nearest_natCast]
    rw [hnearest]
    exact (hnat (n := n + 1) (by omega)).neg.ofModel_pack

/-- **Equality of integers as doubles.** -/
theorem toFloat_beq (a b : Int64) :
    (Integer.toFloat a == Integer.toFloat b) = decide (nearest a.toInt = nearest b.toInt) :=
  (denotes_toFloat a).beq (denotes_toFloat b)

end Conversion

end Double

end TemplateFrontend
