import TemplateFrontend.Proofs.Number.Rounding
/-!
# The shortest decimal of a double

The shortest decimal is searched for on grids of multiples of powers of ten, the coarsest first. On the finest one
every double is met, so there is a decimal for each, and it rounds to the double. A double that is a whole number is
met on the grid of whole numbers already, and a whole number rounds to no other double.

* `Decimal.Rounding.nearest?_eq_some` — what is met on a grid rounds to the value;
* `Decimal.Rounding.exists_search` — the search finds a grid no finer than one with a hit;
* `Decimal.shortest_around` — the shortest decimal of a double;
* `Decimal.exists_natCast_of_contains` — a whole number rounds to whole numbers only.
-/

namespace TemplateFrontend.Decimal

open Double (Canonical around contains_around_iff)

namespace Rounding

section Grid

variable {r : Rounding} {grid : Int} {d : Nat}

/-- The unit of the interval over that of the grid. -/
theorem scale_spec (r : Rounding) (grid : Int) : 0 < (r.scale grid).1 ∧ 0 < (r.scale grid).2 ∧
    ((r.scale grid).1 : ℚ) * 10 ^ grid = (r.scale grid).2 * 2 ^ r.exponent := by
  -- a power with a whole exponent is that of its positive part over that of its negative part
  have htwo (z : Int) : ((2 : ℚ) ^ z.toNat) = 2 ^ z * 2 ^ (-z).toNat := by
    rw [← zpow_natCast, ← zpow_natCast, ← zpow_add₀ two_ne_zero]
    congr 1
    omega
  have hten (z : Int) : ((10 : ℚ) ^ z.toNat) = 10 ^ z * 10 ^ (-z).toNat := by
    rw [← zpow_natCast, ← zpow_natCast, ← zpow_add₀ (by norm_num)]
    congr 1
    omega
  refine ⟨Nat.mul_pos (Nat.two_pow_pos _) (Nat.pow_pos (by decide)),
    Nat.mul_pos (Nat.two_pow_pos _) (Nat.pow_pos (by decide)), ?_⟩
  simp only [scale, Nat.pow_eq]
  push_cast
  rw [htwo r.exponent, hten grid]
  ring

/-- A bound of the interval and a multiple of the grid's unit, as numbers and as multiples of the denominators. -/
theorem le_iff (r : Rounding) (grid : Int) (a b : Nat) :
    (a * (2 : ℚ) ^ r.exponent ≤ b * (10 : ℚ) ^ grid ↔ a * (r.scale grid).1 ≤ b * (r.scale grid).2) ∧
      (b * (10 : ℚ) ^ grid ≤ a * (2 : ℚ) ^ r.exponent ↔ b * (r.scale grid).2 ≤ a * (r.scale grid).1) := by
  obtain ⟨-, hden, hscale⟩ := r.scale_spec grid
  generalize (r.scale grid).1 = num, (r.scale grid).2 = den at *
  have hten : (0 : ℚ) < 10 ^ grid := by positivity
  have hden' : (0 : ℚ) < den := by exact_mod_cast hden
  -- both sides times the denominator, where the scale turns twos into tens
  have ha : a * (2 : ℚ) ^ r.exponent * den = a * num * 10 ^ grid := by
    rw [mul_assoc, mul_assoc, hscale, mul_comm (den : ℚ)]
  have hb : b * (10 : ℚ) ^ grid * den = b * den * 10 ^ grid := by ring
  constructor
  · rw [← mul_le_mul_iff_left₀ hden', ha, hb, mul_le_mul_iff_left₀ hten]
    exact_mod_cast Iff.rfl
  · rw [← mul_le_mul_iff_left₀ hden', ha, hb, mul_le_mul_iff_left₀ hten]
    exact_mod_cast Iff.rfl

theorem admits_iff :
    r.admits (r.scale grid).1 (r.scale grid).2 d = true ↔ r.Contains (d * (10 : ℚ) ^ grid) := by
  obtain ⟨hlow, hlow'⟩ := r.le_iff grid r.low d
  obtain ⟨hhigh', hhigh⟩ := r.le_iff grid r.high d
  rw [admits, Contains]
  split
  · rw [Bool.and_eq_true, decide_eq_true_eq, decide_eq_true_eq, hlow, hhigh]
  · rw [Bool.and_eq_true, decide_eq_true_eq, decide_eq_true_eq, ← not_le, ← not_le, ← not_le, ← not_le, hlow', hhigh']

/-- **What is met on a grid** rounds to the value. -/
theorem nearest?_eq_some (h : r.nearest? grid = some d) :
    0 < d ∧ r.Contains (d * (10 : ℚ) ^ grid) := by
  unfold nearest? at h
  dsimp only at h
  generalize r.value * (r.scale grid).1 / (r.scale grid).2 = e at h
  -- whichever of the two candidates is taken, it has been admitted
  split at h
  -- both can be taken, and the nearer one is
  · next hbelow habove =>
    rw [Bool.and_eq_true, decide_eq_true_eq] at hbelow
    split at h
    · obtain rfl := Option.some.inj h
      exact ⟨hbelow.1, admits_iff.mp hbelow.2⟩
    · obtain rfl := Option.some.inj h
      exact ⟨Nat.succ_pos e, admits_iff.mp habove⟩
  · next hbelow _ =>
    rw [Bool.and_eq_true, decide_eq_true_eq] at hbelow
    obtain rfl := Option.some.inj h
    exact ⟨hbelow.1, admits_iff.mp hbelow.2⟩
  · next habove =>
    obtain rfl := Option.some.inj h
    exact ⟨Nat.succ_pos e, admits_iff.mp habove⟩
  · cases h

/-- A grid has a hit if the multiple below the value is one. -/
theorem isSome_nearest? (hpos : 0 < r.value * (r.scale grid).1 / (r.scale grid).2)
    (h : r.Contains ((r.value * (r.scale grid).1 / (r.scale grid).2 : Nat) * (10 : ℚ) ^ grid)) :
    (r.nearest? grid).isSome = true := by
  have hbelow := admits_iff.mpr h
  unfold nearest?
  dsimp only
  rw [decide_eq_true hpos, hbelow]
  split
  · split <;> rfl
  · rfl
  · rfl
  · next hnot _ => cases hnot

/-- **The search** finds a hit on a grid that is no finer than one with a hit. -/
theorem exists_search {n : Nat} {fine : Int} (grid : Int) (hfine : (r.nearest? fine).isSome = true)
    (hle : fine ≤ grid) (hlt : grid - n < fine) :
    ∃ d g, r.search n grid = some (d, g) ∧ r.nearest? g = some d ∧ fine ≤ g ∧ g ≤ grid := by
  induction n generalizing grid with
  | zero => omega
  | succ n ih =>
    rw [search]
    cases hd : r.nearest? grid with
    | some d => exact ⟨d, grid, rfl, hd, hle, Int.le_refl grid⟩
    | none =>
      -- this grid has no candidate, so the finest one is not reached yet
      have hne : fine ≠ grid := by
        rintro rfl
        rw [hd] at hfine
        cases hfine
      obtain ⟨d, g, hsearch, hg, hfine', hgrid⟩ := ih (grid - 1) (by omega) (by omega)
      exact ⟨d, g, hsearch, hg, hfine', by omega⟩

end Grid

end Rounding

/-! ### Doubles -/

section Doubles

variable {m n : Nat} {q grid : Int}

theorem low_around_lt (hm : 0 < m) (q : Int) : (around m q).low < 4 * m := by
  unfold around
  dsimp only
  split <;> omega

/-- What is between the bounds, whether they belong to the interval or not. -/
theorem Rounding.Contains.of_lt {r : Rounding} {v : ℚ} (hlow : r.low * (2 : ℚ) ^ r.exponent < v)
    (hhigh : v < r.high * (2 : ℚ) ^ r.exponent) : r.Contains v := by
  unfold Contains
  split
  · exact ⟨hlow.le, hhigh.le⟩
  · exact ⟨hlow, hhigh⟩

/-- **On a fine grid** every double is met. -/
theorem isSome_nearest?_of_fine (hm : 0 < m)
    (hfine : ((around m q).scale grid).2 ≤ ((around m q).scale grid).1) :
    ((around m q).nearest? grid).isSome = true := by
  obtain ⟨hnum, hden, -⟩ := (around m q).scale_spec grid
  have hlow := low_around_lt hm q
  -- on a fine grid the multiple below the value is positive and not far from it
  refine Rounding.isSome_nearest? ?_ (.of_lt ?_ ?_)
  · rw [Nat.div_pos_iff]
    change 0 < _ ∧ _ ≤ 4 * m * _
    exact ⟨hden, hfine.trans (Nat.le_mul_of_pos_left _ (by omega))⟩
  · rw [← not_le, ((around m q).le_iff grid _ _).2, not_le]
    change _ < 4 * m * _ / _ * _
    generalize ((around m q).scale grid).1 = num, ((around m q).scale grid).2 = den at *
    have hrest : 4 * m * num < den * (4 * m * num / den + 1) := Nat.lt_mul_div_succ _ hden
    generalize (around m q).low = low at *
    nlinarith
  · rw [← not_le, ((around m q).le_iff grid _ _).1, not_le]
    change 4 * m * _ / _ * _ < (4 * m + 2) * _
    have hle := Nat.div_mul_le_self (4 * m * ((around m q).scale grid).1) ((around m q).scale grid).2
    nlinarith

theorem two_pow_le_ten_pow {a b : Nat} (h : a ≤ 53 * (b / 16)) : 2 ^ a ≤ 10 ^ b :=
  calc 2 ^ a ≤ 2 ^ (53 * (b / 16)) := Nat.pow_le_pow_right (by decide) h
    _ = (2 ^ 53) ^ (b / 16) := Nat.pow_mul ..
    _ ≤ (10 ^ 16) ^ (b / 16) := Nat.pow_le_pow_left (by decide) _
    _ = 10 ^ (16 * (b / 16)) := (Nat.pow_mul ..).symm
    _ ≤ 10 ^ b := Nat.pow_le_pow_right (by decide) (Nat.mul_div_le b 16)

/-- A grid is fine if its unit is no larger than that of the interval. -/
theorem scale_le {k : Nat} (m : Nat) (hk : (2 - q).toNat ≤ 53 * (k / 16)) :
    ((around m q).scale (-k)).2 ≤ ((around m q).scale (-k)).1 := by
  have hexponent : (-(around m q).exponent).toNat = (2 - q).toNat := by
    change (-(q - 2)).toNat = _
    omega
  have hgrid : (- -(k : Int)).toNat = k := by omega
  have hgrid' : (-(k : Int)).toNat = 0 := by omega
  simp only [Rounding.scale, Nat.pow_eq, hexponent, hgrid, hgrid', Nat.pow_zero, Nat.mul_one]
  exact (two_pow_le_ten_pow hk).trans (Nat.le_mul_of_pos_left _ (Nat.two_pow_pos _))

/-- A whole number is met on the grid of whole numbers. -/
theorem isSome_nearest?_zero (hm : 0 < m) (hn : m * (2 : ℚ) ^ q = n) :
    ((around m q).nearest? 0).isSome = true := by
  obtain ⟨hnum, hden, hscale⟩ := (around m q).scale_spec 0
  have hu : (0 : ℚ) < 2 ^ (q - 2) := by positivity
  have hvalue : (4 * m : ℚ) * 2 ^ (q - 2) = n := by
    rw [← hn, zpow_sub₀ two_ne_zero]
    norm_num
    ring
  -- a whole value lies on the grid of ones, so the division leaves no rest
  have hquotient : (around m q).value * ((around m q).scale 0).1 = n * ((around m q).scale 0).2 := by
    have hq : ((around m q).value * ((around m q).scale 0).1 : ℚ) = n * ((around m q).scale 0).2 := by
      rw [← hvalue]
      change ((4 * m : Nat) : ℚ) * _ = _
      rw [zpow_zero, mul_one] at hscale
      rw [hscale]
      change _ = 4 * m * (2 : ℚ) ^ (around m q).exponent * _
      push_cast
      ring
    exact_mod_cast hq
  have hnpos : 0 < n := by
    have hpos : (0 : ℚ) < n := by
      rw [← hn]
      positivity
    exact_mod_cast hpos
  -- the interval reaches below the value
  have hlow : ((around m q).low : ℚ) < 4 * m := by exact_mod_cast low_around_lt hm q
  have hd : (around m q).value * ((around m q).scale 0).1 / ((around m q).scale 0).2 = n := by
    rw [hquotient, Nat.mul_div_cancel _ hden]
  -- and the value itself is in its own interval
  refine Rounding.isSome_nearest? (hd ▸ hnpos) ?_
  rw [hd, zpow_zero, mul_one, ← hvalue]
  refine .of_lt ?_ ?_
  · change _ * (2 : ℚ) ^ (q - 2) < _
    exact mul_lt_mul_of_pos_right hlow hu
  · change _ < ((4 * m + 2 : Nat) : ℚ) * (2 : ℚ) ^ (q - 2)
    push_cast
    linarith

/-- **The shortest decimal** of a double rounds to it, and it is a whole number if the double is one. -/
theorem shortest_around (hx : Canonical m q) : ∃ d grid, shortest (around m q) = (d, grid) ∧ 0 < d ∧
    -345 ≤ grid ∧ (around m q).Contains (d * (10 : ℚ) ^ grid) ∧
      ((∃ n : Nat, m * (2 : ℚ) ^ q = n) → 0 ≤ grid) := by
  have hleast := hx.least
  -- no double is so small that the grid of `10 ^ -345` is too coarse for it
  have hfine : ((around m q).scale (-345)).2 ≤ ((around m q).scale (-345)).1 :=
    scale_le (k := 345) m (by omega)
  obtain ⟨d, grid, hsearch, hd, hlow, hhigh⟩ :=
    Rounding.exists_search (n := 655) 309 (isSome_nearest?_of_fine hx.pos hfine) (by decide) (by decide)
  obtain ⟨hpos, hcontains⟩ := Rounding.nearest?_eq_some hd
  refine ⟨d, grid, by rw [shortest, hsearch]; rfl, hpos, hlow, hcontains, ?_⟩
  -- for a whole number the search ends at ones at the latest
  rintro ⟨n, hn⟩
  obtain ⟨d', grid', hsearch', -, hzero, -⟩ :=
    Rounding.exists_search (n := 655) 309 (isSome_nearest?_zero hx.pos hn) (by decide) (by decide)
  rw [hsearch] at hsearch'
  cases hsearch'
  exact hzero

/-- **A whole number** rounds to no double but a whole number. -/
theorem exists_natCast_of_contains (h : (around m q).Contains (n : ℚ)) : ∃ n' : Nat, m * (2 : ℚ) ^ q = n' := by
  obtain hq | hq := Int.le_total 0 q
  · obtain ⟨k, rfl⟩ := Int.eq_ofNat_of_zero_le hq
    exact ⟨m * 2 ^ k, by push_cast; rw [zpow_natCast]⟩
  · -- over the exponent of the double both are whole, and less than one apart
    obtain ⟨k, rfl⟩ : ∃ k : Nat, q = -k := ⟨(-q).toNat, by omega⟩
    have hpow : (2 : ℚ) ^ k * 2 ^ (-(k : Int)) = 1 := by
      rw [← zpow_natCast, ← zpow_add₀ two_ne_zero, Int.add_right_neg, zpow_zero]
    have hn : (n : ℚ) = n * 2 ^ k * 2 ^ (-(k : Int)) := by rw [mul_assoc, hpow, mul_one]
    have hlow := Double.le_low_around m (-(k : Int))
    rw [hn, contains_around_iff (d := 0) (Int.add_zero _).symm] at h
    have hunit : (2 : ℚ) ^ ((0 : Int) - 2) = 1 / 4 := by norm_num
    have hbounds : (4 * m - 2 : ℚ) * (1 / 4) ≤ n * 2 ^ k ∧ (n * 2 ^ k : ℚ) ≤ (4 * m + 2) * (1 / 4) := by
      rw [hunit] at h
      split at h
      · exact ⟨by linarith [h.1], h.2⟩
      · exact ⟨by linarith [h.1], h.2.le⟩
    -- less than one apart on either side
    have hlower : m < n * 2 ^ k + 1 := by
      have hlt : (m : ℚ) < n * 2 ^ k + 1 := by linarith [hbounds.1]
      exact_mod_cast hlt
    have hupper : n * 2 ^ k < m + 1 := by
      have hlt : (n * 2 ^ k : ℚ) < m + 1 := by linarith [hbounds.2]
      exact_mod_cast hlt
    obtain rfl : m = n * 2 ^ k := by omega
    refine ⟨n, ?_⟩
    push_cast
    rw [mul_assoc, hpow, mul_one]

end Doubles

end TemplateFrontend.Decimal
