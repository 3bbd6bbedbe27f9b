import TemplateFrontend.Proofs.Number.Shortest
import TemplateFrontend.Proofs.Text.Runs
/-!
# Decimal text of doubles

The text of a double has a point if and only if the double is not a whole number, and then the digits before and
behind it are a numeral that becomes that double.

* `Decimal.renderDigits_cases` — the number that a text without an exponent denotes;
* `Decimal.Fractional` — positive numbers that are not whole;
* `Decimal.exists_point_of_fractional` — their texts are read back;
* `Decimal.fractional_of_point` — nothing else has a point, apart from what has a sign before it;
* `Decimal.count_point_le_one` — there is one point at most.
-/

namespace TemplateFrontend.Decimal

open Text

/-! ### Digits -/

section Digits

/-- Zeros behind the digits are powers of ten. -/
theorem natOfDigits_append_zeros (ds : List Char) (k : Nat) :
    natOfDigits (ds ++ List.replicate k '0') = 10 ^ k * natOfDigits ds :=
  calc natOfDigits (ds ++ List.replicate k '0')
      = Nat.ofDigitChars 10 (List.replicate k '0') (Nat.ofDigitChars 10 ds 0) := Nat.ofDigitChars_append 0
    _ = 10 ^ k * natOfDigits ds := Nat.ofDigitChars_replicate_zero

/-- Zeros before the digits do not matter. -/
theorem natOfDigits_zeros_append (ds : List Char) (k : Nat) :
    natOfDigits (List.replicate k '0' ++ ds) = natOfDigits ds :=
  calc natOfDigits (List.replicate k '0' ++ ds)
      = Nat.ofDigitChars 10 ds (Nat.ofDigitChars 10 (List.replicate k '0') 0) := Nat.ofDigitChars_append 0
    _ = natOfDigits ds := by rw [Nat.ofDigitChars_replicate_zero, Nat.mul_zero]; rfl

/-- The digits of a number denote it. -/
theorem natOfDigits_digits (d : Nat) : natOfDigits (digits d) = d := Nat.ofDigitChars_ten_toDigits

/-- They are digits. -/
theorem isDigit_of_mem_digits {d : Nat} {c : Char} (h : c ∈ digits d) : c.isDigit = true :=
  Nat.isDigit_of_mem_toDigits (by decide) (by decide) h

/-- A list without the zeros at its end. -/
theorem exists_zeros (ds : List Char) :
    ∃ z, ds = (ds.reverse.dropWhile (· == '0')).reverse ++ List.replicate z '0' := by
  refine ⟨(ds.reverse.takeWhile (· == '0')).length, ?_⟩
  have hzeros : (ds.reverse.takeWhile (· == '0')).reverse =
      List.replicate (ds.reverse.takeWhile (· == '0')).length '0' := by
    refine List.eq_replicate_iff.mpr ⟨List.length_reverse, fun c hc => ?_⟩
    have hzero : (c == '0') = true := mem_takeWhile_imp (p := (· == '0')) (List.mem_reverse.mp hc)
    exact beq_iff_eq.mp hzero
  rw [← hzeros, ← List.reverse_append, List.takeWhile_append_dropWhile, List.reverse_reverse]

/-- **A text without an exponent** has digits only and denotes a whole number, or it has digits before and behind a
point. -/
theorem renderDigits_cases (d : Nat) (grid : Int) :
    (renderDigits d grid ≠ [] ∧ (∀ c ∈ renderDigits d grid, c.isDigit = true) ∧
        (natOfDigits (renderDigits d grid) : ℚ) = d * 10 ^ grid) ∨
      ∃ whole fraction, grid < 0 ∧ renderDigits d grid = whole ++ '.' :: fraction ∧ whole ≠ [] ∧ fraction ≠ [] ∧
        (∀ c ∈ whole ++ fraction, c.isDigit = true) ∧ (fraction.length : Int) ≤ -grid ∧
        (natOfDigits (whole ++ fraction) : ℚ) / 10 ^ fraction.length = d * 10 ^ grid := by
  -- zeros in front are digits too
  have hdigits {k : Nat} : ∀ c ∈ List.replicate k '0' ++ digits d, c.isDigit = true := by
    intro c hc
    obtain hc | hc := List.mem_append.mp hc
    · rw [List.eq_of_mem_replicate hc]
      rfl
    · exact isDigit_of_mem_digits hc
  by_cases hgrid : 0 ≤ grid
  · left
    -- a whole number, with zeros behind its digits
    obtain ⟨k, rfl⟩ := Int.eq_ofNat_of_zero_le hgrid
    rw [renderDigits, if_pos hgrid, Int.toNat_natCast, natOfDigits_append_zeros, natOfDigits_digits]
    refine ⟨List.append_ne_nil_of_left_ne_nil Nat.toDigits_ne_nil _, fun c hc => ?_, ?_⟩
    · obtain hc | hc := List.mem_append.mp hc
      · exact isDigit_of_mem_digits hc
      · rw [List.eq_of_mem_replicate hc]
        rfl
    · push_cast
      rw [zpow_natCast, mul_comm]
  · obtain ⟨places, rfl⟩ : ∃ p : Nat, grid = -p := ⟨(-grid).toNat, by omega⟩
    have hplaces : (- -(places : Int)).toNat = places := by omega
    rw [renderDigits, if_neg hgrid, hplaces]
    dsimp only
    obtain ⟨padded, hpadded⟩ : ∃ ps, ps = List.replicate (places + 1 - (digits d).length) '0' ++ digits d := ⟨_, rfl⟩
    -- enough zeros in front that a digit stands before the point
    have hvalue : natOfDigits padded = d := by rw [hpadded, natOfDigits_zeros_append, natOfDigits_digits]
    have hlength : places + 1 ≤ padded.length := by
      rw [hpadded, List.length_append, List.length_replicate]
      omega
    have hall : ∀ c ∈ padded, c.isDigit = true := hpadded ▸ hdigits
    rw [← hpadded]
    -- the zeros at the end of what is behind the point are left out
    obtain ⟨z, hz⟩ := exists_zeros (padded.drop (padded.length - places))
    have hcut := List.take_append_drop (padded.length - places) padded
    have hwhole : (padded.take (padded.length - places)).length = padded.length - places := by
      rw [List.length_take]
      omega
    have hfraction : (padded.drop (padded.length - places)).length = places := by
      rw [List.length_drop]
      omega
    generalize padded.take (padded.length - places) = whole, padded.drop (padded.length - places) = behind at *
    generalize (behind.reverse.dropWhile (· == '0')).reverse = fraction at *
    subst hz
    rw [List.length_append, List.length_replicate] at hfraction
    rw [← hcut, ← List.append_assoc, natOfDigits_append_zeros] at hvalue
    have hne : whole ≠ [] := by
      rintro rfl
      rw [List.length_nil] at hwhole
      omega
    have hten : (10 : ℚ) ^ z ≠ 0 := by positivity
    -- without these zeros the value is the same
    have hvalue' : (natOfDigits (whole ++ fraction) : ℚ) / 10 ^ fraction.length = d * 10 ^ (-(places : Int)) := by
      rw [← hvalue, ← hfraction, zpow_neg, zpow_natCast]
      push_cast
      rw [pow_add]
      field_simp
    have hall' : ∀ c ∈ whole ++ fraction, c.isDigit = true := fun c hc => hall c (by
      rw [← hcut, ← List.append_assoc]
      exact List.mem_append_left _ hc)
    -- if nothing is left behind the point, the point is not written
    cases fraction with
    | nil =>
      left
      rw [List.append_nil] at hall' hvalue'
      rw [List.length_nil, pow_zero, div_one] at hvalue'
      exact ⟨hne, hall', hvalue'⟩
    | cons c cs =>
      right
      exact ⟨whole, c :: cs, by omega, rfl, hne, List.cons_ne_nil c cs, hall', by omega, hvalue'⟩

end Digits

/-! ### Bits -/

section Bits

open Float.Model Float.Model.UnpackedFloat
open Double (Canonical around)

/-- The fields of the bits of a double. -/
theorem unpack_bits (x : Float) :
    (@unpackExponent Format.binary64 x.toModel.toBits.toBitVec).toNat =
        x.toBits.toNat / Nat.pow 2 52 % Nat.pow 2 11 ∧
      (@unpackMantissa Format.binary64 x.toModel.toBits.toBitVec).toNat = x.toBits.toNat % Nat.pow 2 52 ∧
      (Sign.ofBitVec (@unpackSign Format.binary64 x.toModel.toBits.toBitVec) = .positive ↔
        x.toBits.toNat / Nat.pow 2 63 = 0) := by
  have hbits : x.toModel.toBits.toBitVec.toNat = x.toBits.toNat := rfl
  have hlt : x.toBits.toNat < 2 ^ 64 := x.toBits.toNat_lt
  refine ⟨?_, ?_, ?_⟩
  · rw [unpackExponent_def, BitVec.extractLsb'_toNat, hbits, Nat.shiftRight_eq_div_pow]
    rfl
  · rw [unpackMantissa_def, BitVec.extractLsb'_toNat, hbits]
    rfl
  -- the sign is the highest bit
  · have hsign : (@unpackSign Format.binary64 x.toModel.toBits.toBitVec).toNat =
        x.toBits.toNat / Nat.pow 2 63 := by
      rw [unpackSign_def, BitVec.extractLsb'_toNat, hbits, Nat.shiftRight_eq_div_pow]
      change x.toBits.toNat / 2 ^ 63 % 2 ^ 1 = x.toBits.toNat / 2 ^ 63
      omega
    rw [← hsign, Sign.ofBitVec]
    split
    · next hzero => simp [hzero]
    · next hne =>
      refine iff_of_false nofun fun hzero => hne ?_
      exact BitVec.eq_of_toNat_eq hzero

/-- The interval of a double, from its bits. -/
theorem ofBits_eq_around {e f m : Nat} {q : Int} (hf : f < 2 ^ 52)
    (h : e = 0 ∧ m = f ∧ q = -1074 ∨ 0 < e ∧ m = f + 2 ^ 52 ∧ q = e - 1075) :
    Rounding.ofBits e f = around m q := by
  obtain ⟨rfl, rfl, rfl⟩ | ⟨he, rfl, rfl⟩ := h
  · have hlow : ¬ (m = 2 ^ 52 ∧ (-1074 : Int) < -1074) := by omega
    rw [around, if_neg hlow]
    simp only [Rounding.ofBits, Nat.not_lt_zero, decide_false, Bool.and_false, Bool.false_eq_true, if_false, if_true]
    rfl
  · have hne : e ≠ 0 := Nat.ne_of_gt he
    have hlow : (f = 0 ∧ 1 < e) ↔ (f + 2 ^ 52 = 2 ^ 52 ∧ (-1074 : Int) < e - 1075) := by omega
    simp only [Rounding.ofBits, around, if_neg hne, Nat.pow_eq, Bool.and_eq_true, decide_eq_true_eq, hlow]

/-- **The bits of a finite number** other than zero. -/
theorem unpack_of_finite {x : Float} {e f : Nat} (he : e = x.toBits.toNat / Nat.pow 2 52 % Nat.pow 2 11)
    (hf : f = x.toBits.toNat % Nat.pow 2 52) (hfinite : e ≠ 2047) (hzero : ¬(e = 0 ∧ f = 0)) :
    ∃ s m q, ∃ hm : Canonical m q, x.toModel.unpack = .finite s m q hm.pos ∧
      Rounding.ofBits e f = around m q ∧ (s = .positive ↔ x.toBits.toNat / Nat.pow 2 63 = 0) := by
  obtain ⟨hexponent, hmantissa, hsign⟩ := unpack_bits x
  rw [← he] at hexponent
  rw [← hf] at hmantissa
  have hflt : f < 2 ^ 52 := hf ▸ Nat.mod_lt _ (by decide)
  have helt : e < 2 ^ 11 := he ▸ Nat.mod_lt _ (by decide)
  -- the exponent is not the one of infinities
  have hinfinite : @unpackExponent Format.binary64 x.toModel.toBits.toBitVec ≠ -1#11 := by
    intro h
    rw [h] at hexponent
    exact hfinite hexponent.symm
  have hunpack : x.toModel.unpack = UnpackedFloat.unpack Format.binary64 x.toModel.toBits.toBitVec := rfl
  rw [hunpack, UnpackedFloat.unpack]
  simp only [if_neg hinfinite]
  obtain he0 | hepos := Nat.eq_zero_or_pos e
  · have hexponent0 : @unpackExponent Format.binary64 x.toModel.toBits.toBitVec = 0#11 :=
      BitVec.eq_of_toNat_eq (by rw [hexponent, he0]; rfl)
    -- a small number has no hidden digit, and is not zero
    have hmantissa0 : @unpackMantissa Format.binary64 x.toModel.toBits.toBitVec ≠ 0#52 := by
      intro h
      rw [h] at hmantissa
      exact hzero ⟨he0, hmantissa.symm⟩
    have hm : Canonical f (-1074) := ⟨by omega, by omega, by decide, .inr rfl⟩
    refine ⟨_, f, -1074, hm, ?_, ofBits_eq_around hflt (.inl ⟨he0, rfl, rfl⟩), hsign⟩
    rw [if_pos hexponent0, dif_neg hmantissa0, UnpackedFloat.finite.injEq, hexponent, he0]
    exact ⟨rfl, hmantissa, rfl⟩
  · have hexponent0 : @unpackExponent Format.binary64 x.toModel.toBits.toBitVec ≠ 0#11 := by
      intro h
      rw [h] at hexponent
      exact Nat.ne_of_gt hepos hexponent.symm
    have hm : Canonical (f + 2 ^ 52) (e - 1075) := ⟨by omega, by omega, by omega, .inl (by omega)⟩
    -- any other number has a one before the digits that are stored
    have hdigits : (1#1 ++ @unpackMantissa Format.binary64 x.toModel.toBits.toBitVec).toNat = f + 2 ^ 52 := by
      rw [BitVec.toNat_append, ← Nat.shiftLeft_add_eq_or_of_lt (BitVec.isLt _), hmantissa]
      change 1 <<< 52 + f = f + 2 ^ 52
      omega
    refine ⟨_, f + 2 ^ 52, e - 1075, hm, ?_, ofBits_eq_around hflt (.inr ⟨hepos, rfl, rfl⟩), hsign⟩
    rw [if_neg hexponent0, UnpackedFloat.finite.injEq, hexponent]
    exact ⟨rfl, hdigits, rfl⟩

/-- Infinities, what is not a number, and zeros. -/
theorem unpack_ne_finite {x : Float} {e f : Nat} (he : e = x.toBits.toNat / Nat.pow 2 52 % Nat.pow 2 11)
    (hf : f = x.toBits.toNat % Nat.pow 2 52) (h : e = 2047 ∨ e = 0 ∧ f = 0) {s : Sign} {m : Nat} {q : Int}
    {hm : 0 < m} : x.toModel.unpack ≠ .finite s m q hm := by
  obtain ⟨hexponent, hmantissa, -⟩ := unpack_bits x
  rw [← he] at hexponent
  rw [← hf] at hmantissa
  have hunpack : x.toModel.unpack = UnpackedFloat.unpack Format.binary64 x.toModel.toBits.toBitVec := rfl
  rw [hunpack, UnpackedFloat.unpack]
  obtain rfl | ⟨rfl, rfl⟩ := h
  · have hinfinite : @unpackExponent Format.binary64 x.toModel.toBits.toBitVec = -1#11 :=
      BitVec.eq_of_toNat_eq hexponent
    -- with the highest exponent it is infinite or not a number
    simp only [if_pos hinfinite]
    split <;> exact nofun
  · have hexponent0 : @unpackExponent Format.binary64 x.toModel.toBits.toBitVec = 0#11 :=
      BitVec.eq_of_toNat_eq hexponent
    -- a zero has nothing stored
    have hmantissa0 : @unpackMantissa Format.binary64 x.toModel.toBits.toBitVec = 0#52 :=
      BitVec.eq_of_toNat_eq hmantissa
    have hinfinite : @unpackExponent Format.binary64 x.toModel.toBits.toBitVec ≠ -1#11 := by
      rw [hexponent0]
      decide
    simp only [if_neg hinfinite, if_pos hexponent0, dif_pos hmantissa0]
    exact nofun

end Bits

/-! ### Texts -/

/-- The double is a positive number that is not whole. -/
def Fractional (x : Float) : Prop := ∃ v, Double.StandsFor x.toModel.unpack v ∧ ∀ n : Nat, v ≠ n

section Render

open Float.Model.UnpackedFloat
open Double (Canonical around)

variable {x : Float}

/-- A finite number is written as its shortest digits, behind its sign. -/
theorem render_of_finite {e f d : Nat} {grid : Int} (he : e = x.toBits.toNat / Nat.pow 2 52 % Nat.pow 2 11)
    (hf : f = x.toBits.toNat % Nat.pow 2 52) (hfinite : e ≠ 2047) (hzero : ¬(e = 0 ∧ f = 0))
    (hshortest : shortest (.ofBits e f) = (d, grid)) :
    x.toBits.toNat / Nat.pow 2 63 = 0 ∧ (render x).toList = renderDigits d grid ∨
      x.toBits.toNat / Nat.pow 2 63 ≠ 0 ∧ (render x).toList = '-' :: renderDigits d grid := by
  have hzero' : ¬ (decide (e = 0) && decide (f = 0)) = true := by simpa using hzero
  rw [render, ← he, ← hf, if_neg hfinite, if_neg hzero', hshortest]
  by_cases hsign : x.toBits.toNat / Nat.pow 2 63 = 0
  · exact .inl ⟨hsign, by rw [if_pos hsign]; exact String.toList_ofList⟩
  · exact .inr ⟨hsign, by rw [if_neg hsign]; exact String.toList_ofList⟩

/-- Infinities, zeros and what is no number are written without a point. -/
theorem isNameChar_of_mem_render {e f : Nat} (he : e = x.toBits.toNat / Nat.pow 2 52 % Nat.pow 2 11)
    (hf : f = x.toBits.toNat % Nat.pow 2 52) (h : e = 2047 ∨ e = 0 ∧ f = 0) :
    ∀ c ∈ (render x).toList, isNameChar c = true ∨ c = '-' := by
  rw [render, ← he, ← hf]
  generalize shortest (.ofBits e f) = shortest, x.toBits.toNat / Nat.pow 2 63 = sign
  -- infinities and what is no number, then the two zeros
  obtain rfl | ⟨rfl, rfl⟩ := h
  · rw [if_pos rfl]
    split
    · rw [String.toList_ofList]
      split <;> simp [isNameChar]
    · simp [isNameChar]
  · have hzero : (decide (0 = 0) && decide (0 = 0)) = true := rfl
    rw [if_neg (by decide), if_pos hzero, String.toList_ofList]
    split <;> simp [isNameChar]

/-- What is not a positive finite number is not a positive number between whole ones. -/
theorem not_fractional_of_ne (h : ∀ m q hm, x.toModel.unpack ≠ .finite .positive m q hm) : ¬ Fractional x := by
  rintro ⟨_, ⟨m, q, hm, hx, -⟩, -⟩
  exact h m q hm hx

/-- A positive number is fractional if no natural number equals it. -/
theorem fractional_iff {m : Nat} {q : Int} {hm : 0 < m} (hx : x.toModel.unpack = .finite .positive m q hm) :
    Fractional x ↔ ¬ ∃ n : Nat, m * (2 : ℚ) ^ q = n := by
  constructor
  · rintro ⟨v, ⟨m', q', hm', hx', rfl⟩, hv⟩ ⟨n, hn⟩
    rw [hx] at hx'
    cases hx'
    exact hv n hn
  · intro h
    exact ⟨_, ⟨m, q, hm, hx, rfl⟩, fun n hn => h ⟨n, hn⟩⟩

/-- **The text of a double** has a point if the double is positive and not whole, and then it is read back. What else
has a point has a sign before it. -/
theorem render_cases (x : Float) :
    ((∀ c ∈ (render x).toList, isNameChar c = true ∨ c = '-') ∧ ¬ Fractional x) ∨
      ∃ whole fraction, whole ≠ [] ∧ fraction ≠ [] ∧ (∀ c ∈ whole ++ fraction, c.isDigit = true) ∧
        ((render x).toList = whole ++ '.' :: fraction ∧ Fractional x ∧
            ofScaled (natOfDigits (whole ++ fraction)) (-fraction.length) = x ∨
          (render x).toList = '-' :: (whole ++ '.' :: fraction) ∧ ¬ Fractional x) := by
  obtain ⟨e, he⟩ : ∃ e, e = x.toBits.toNat / Nat.pow 2 52 % Nat.pow 2 11 := ⟨_, rfl⟩
  obtain ⟨f, hf⟩ : ∃ f, f = x.toBits.toNat % Nat.pow 2 52 := ⟨_, rfl⟩
  -- zero, the infinities and not a number are written as words or single digits
  by_cases hspecial : e = 2047 ∨ e = 0 ∧ f = 0
  · exact .inl ⟨isNameChar_of_mem_render he hf hspecial,
      not_fractional_of_ne fun _ _ _ => unpack_ne_finite he hf hspecial⟩
  obtain ⟨hfinite, hzero⟩ := not_or.mp hspecial
  obtain ⟨s, m, q, hm, hx, haround, hsign⟩ := unpack_of_finite he hf hfinite hzero
  obtain ⟨d, grid, hshortest, hd, hgrid, hcontains, hwhole⟩ := shortest_around hm
  -- a negative number is not a positive one
  have hpositive : s ≠ .positive → ¬ Fractional x := fun hs =>
    not_fractional_of_ne fun m' q' hm' hx' => hs (by rw [hx] at hx'; cases hx'; rfl)
  -- a double that is not whole has a point, whatever its sign
  obtain ⟨-, hdigits, hvalue⟩ | ⟨whole, fraction, hneg, htext, hne, hne', hdigits, hlength, hvalue⟩ :=
    renderDigits_cases d grid
  · left
    rw [← hvalue] at hcontains
    have hchars : ∀ c ∈ renderDigits d grid, isNameChar c = true ∨ c = '-' :=
      fun c hc => .inl (isNameChar_of_isDigit (hdigits c hc))
    obtain ⟨hs, hrender⟩ | ⟨hs, hrender⟩ := render_of_finite he hf hfinite hzero (haround ▸ hshortest)
    · obtain rfl := hsign.mpr hs
      exact ⟨hrender ▸ hchars, fun h => (fractional_iff hx).mp h (exists_natCast_of_contains hcontains)⟩
    · rw [hrender]
      exact ⟨List.forall_mem_cons.mpr ⟨.inr rfl, hchars⟩, hpositive fun h => hs (hsign.mp h)⟩
  · right
    refine ⟨whole, fraction, hne, hne', hdigits, ?_⟩
    obtain ⟨hs, hrender⟩ | ⟨hs, hrender⟩ := render_of_finite he hf hfinite hzero (haround ▸ hshortest)
    · left
      obtain rfl := hsign.mpr hs
      rw [hrender]
      refine ⟨htext, (fractional_iff hx).mpr fun hn => absurd (hwhole hn) (by omega), ?_⟩
      -- the digits are not all zeros, so the number is read from them
      have hpos : 0 < natOfDigits (whole ++ fraction) := by
        have hq : (0 : ℚ) < natOfDigits (whole ++ fraction) / 10 ^ fraction.length := by
          rw [hvalue]
          positivity
        have hten : (0 : ℚ) < 10 ^ fraction.length := by positivity
        exact_mod_cast (div_pos_iff_of_pos_right hten).mp hq
      have hlen : 0 < fraction.length := List.length_pos_of_ne_nil hne'
      have hnat : (- -(fraction.length : Int)).toNat = fraction.length := by omega
      rw [ofScaled, if_neg (Nat.ne_of_gt hpos), if_pos (by omega), hnat]
      exact Double.ofScientific_of_contains hm hx hpos hlen (by omega) (hvalue ▸ hcontains)
    · right
      rw [hrender, htext]
      -- with a sign in front no number is read from the text
      exact ⟨rfl, hpositive fun h => hs (hsign.mp h)⟩

/-- **Numbers that are not whole** are read back from their texts. -/
theorem exists_point_of_fractional (h : Fractional x) : ∃ whole fraction, whole ≠ [] ∧ fraction ≠ [] ∧
    (∀ c ∈ whole ++ fraction, c.isDigit = true) ∧ (render x).toList = whole ++ '.' :: fraction ∧
      ofScaled (natOfDigits (whole ++ fraction)) (-fraction.length) = x := by
  obtain ⟨-, hnot⟩ | ⟨whole, fraction, hne, hne', hdigits, ⟨htext, -, hvalue⟩ | ⟨-, hnot⟩⟩ := render_cases x
  · exact absurd h hnot
  · exact ⟨whole, fraction, hne, hne', hdigits, htext, hvalue⟩
  · exact absurd h hnot

/-- There is one point in a text at most. -/
theorem count_point_le_one (x : Float) : (render x).toList.count '.' ≤ 1 := by
  have hpoint {ds : List Char} (hds : ∀ c ∈ ds, c.isDigit = true) : ds.count '.' = 0 :=
    List.count_eq_zero.mpr fun h => absurd (hds '.' h) (by decide)
  obtain ⟨hchars, -⟩ | ⟨whole, fraction, -, -, hdigits, ⟨htext, -⟩ | ⟨htext, -⟩⟩ := render_cases x
  · rw [List.count_eq_zero.mpr fun h => (hchars '.' h).elim (by decide) (by decide)]
    exact Nat.zero_le 1
  all_goals
    obtain ⟨hwhole, hfraction⟩ := List.forall_mem_append.mp hdigits
    rw [htext]
    simp [hpoint hwhole, hpoint hfraction]

/-- **Nothing else** has a point and no sign. -/
theorem fractional_of_count (hpoint : (render x).toList.count '.' = 1) (hsign : (render x).toList.count '-' = 0) :
    Fractional x := by
  obtain ⟨hchars, -⟩ | ⟨whole, fraction, -, -, -, ⟨-, h, -⟩ | ⟨htext, -⟩⟩ := render_cases x
  · rw [List.count_eq_zero.mpr fun h => (hchars '.' h).elim (by decide) (by decide)] at hpoint
    cases hpoint
  · exact h
  · rw [htext, List.count_cons_self] at hsign
    omega

/-- There is no backslash in a text. -/
theorem backslash_notMem_render (x : Float) : '\\' ∉ (render x).toList := by
  intro h
  obtain ⟨hchars, -⟩ | ⟨whole, fraction, -, -, hdigits, ⟨htext, -⟩ | ⟨htext, -⟩⟩ := render_cases x
  · exact (hchars _ h).elim (by decide) (by decide)
  all_goals
    obtain ⟨hwhole, hfraction⟩ := List.forall_mem_append.mp hdigits
    rw [htext] at h
    simp only [List.mem_cons, List.mem_append, Char.reduceEq, false_or] at h
    exact h.elim (fun h => absurd (hwhole _ h) (by decide)) (fun h => absurd (hfraction _ h) (by decide))

end Render

end TemplateFrontend.Decimal
