import Mathlib.Data.Int.Log
import Mathlib.Data.Rat.Floor
import Mathlib.Tactic.FieldSimp
import Mathlib.Tactic.GCongr
import Mathlib.Tactic.Positivity
import Mathlib.Tactic.Ring
import Formula.Decimal.Shortest

/-!
# Rounding to a double

Rounding reads its fraction as a number: fractions of the same value round to the same pattern. The
exponent that it finds is the logarithm of the value, and a value that a finite pattern stands for
is rounded to that pattern.
-/

namespace Formula

/-- A power is a quotient of powers without a sign in the exponent. -/
theorem zpow_eq_div {b : ℚ} (hb : b ≠ 0) (e : ℤ) : b ^ e = b ^ e.toNat / b ^ (-e).toNat := by
  rw [eq_div_iff (pow_ne_zero _ hb), ← zpow_natCast, ← zpow_natCast, ← zpow_add₀ hb]
  congr 1
  omega

namespace Binary64

variable {num den num' den' bits : ℕ} {q : ℚ} {e grid : ℤ}

/-- A logarithm is known by the powers that the number lies between. -/
theorem eq_log_of_bounds (hlow : 2 ^ e ≤ q) (hhigh : q < 2 ^ (e + 1)) : e = Int.log 2 q := by
  have hpos : 0 < q := (zpow_pos two_pos e).trans_le hlow
  have hle := (Int.zpow_le_iff_le_log (b := 2) (by decide) hpos).mp (by exact_mod_cast hlow)
  have hlt := (Int.lt_zpow_iff_log_lt (b := 2) (by decide) hpos).mp (by exact_mod_cast hhigh)
  omega

/-- The comparison that decides between the two exponents that are left. -/
theorem mul_pow_lt_iff (hden : den ≠ 0) (e : ℤ) :
    num * Nat.pow 2 (-e).toNat < den * Nat.pow 2 e.toNat ↔ (num : ℚ) / den < 2 ^ e := by
  have hpos : (0 : ℚ) < den := by exact_mod_cast Nat.pos_of_ne_zero hden
  rw [zpow_eq_div two_ne_zero, div_lt_div_iff₀ hpos (by positivity), mul_comm _ (den : ℚ)]
  exact_mod_cast Iff.rfl

/-- The logarithms of numerator and denominator leave two exponents for their quotient. -/
theorem div_bounds (hnum : num ≠ 0) (hden : den ≠ 0) :
    (2 : ℚ) ^ ((num.log2 : ℤ) - den.log2 - 1) ≤ (num : ℚ) / den ∧
      (num : ℚ) / den < 2 ^ ((num.log2 : ℤ) - den.log2 + 1) := by
  have hpos : (0 : ℚ) < den := by exact_mod_cast Nat.pos_of_ne_zero hden
  have hnumLow : (2 : ℚ) ^ num.log2 ≤ num := by exact_mod_cast Nat.log2_self_le hnum
  have hnumHigh : (num : ℚ) < 2 ^ (num.log2 + 1) := by exact_mod_cast Nat.lt_log2_self
  have hdenLow : (2 : ℚ) ^ den.log2 ≤ den := by exact_mod_cast Nat.log2_self_le hden
  have hdenHigh : (den : ℚ) < 2 ^ (den.log2 + 1) := by exact_mod_cast Nat.lt_log2_self
  have hlow : (2 : ℚ) ^ ((num.log2 : ℤ) - den.log2 - 1) = 2 ^ num.log2 / 2 ^ (den.log2 + 1) := by
    rw [sub_sub, zpow_sub₀ two_ne_zero]
    exact_mod_cast rfl
  have hhigh : (2 : ℚ) ^ ((num.log2 : ℤ) - den.log2 + 1) = 2 ^ (num.log2 + 1) / 2 ^ den.log2 := by
    rw [sub_add_eq_add_sub, zpow_sub₀ two_ne_zero]
    exact_mod_cast rfl
  rw [hlow, hhigh, div_le_div_iff₀ (by positivity) hpos, div_lt_div_iff₀ hpos (by positivity)]
  constructor
  · gcongr
  · calc (num : ℚ) * 2 ^ den.log2 ≤ num * den := by gcongr
      _ < 2 ^ (num.log2 + 1) * den := by gcongr

/-- The exponent of a fraction is the logarithm of its value. -/
theorem floorLog2_eq_log (hnum : num ≠ 0) (hden : den ≠ 0) :
    floorLog2 num den = Int.log 2 ((num : ℚ) / den) := by
  obtain ⟨hlow, hhigh⟩ := div_bounds hnum hden
  unfold floorLog2
  dsimp only
  split
  · rename_i hbelow
    rw [mul_pow_lt_iff hden] at hbelow
    exact eq_log_of_bounds hlow (by rwa [sub_add_cancel])
  · rename_i habove
    rw [mul_pow_lt_iff hden, not_lt] at habove
    exact eq_log_of_bounds habove hhigh

theorem mul_pow_pos (hden : den ≠ 0) (k : ℕ) : 0 < den * Nat.pow 2 k :=
  Nat.mul_pos (Nat.pos_of_ne_zero hden) (Nat.pow_pos (by decide))

/-- Rounding to a whole number is not changed by a common factor. -/
theorem roundHalfEven_mul {k : ℕ} (hk : 0 < k) (num den : ℕ) :
    roundHalfEven (k * num) (k * den) = roundHalfEven num den := by
  have hbelow : 2 * (k * (num % den)) < k * den ↔ 2 * (num % den) < den := by
    rw [Nat.mul_left_comm]
    exact Nat.mul_lt_mul_left hk
  have habove : k * den < 2 * (k * (num % den)) ↔ den < 2 * (num % den) := by
    rw [Nat.mul_left_comm]
    exact Nat.mul_lt_mul_left hk
  simp only [roundHalfEven, Nat.mul_mod_mul_left, Nat.mul_div_mul_left _ _ hk, hbelow, habove]

/-- Rounding to a whole number looks at the quotient only. -/
theorem roundHalfEven_congr (hden : 0 < den) (hden' : 0 < den') (h : num * den' = num' * den) :
    roundHalfEven num den = roundHalfEven num' den' := by
  rw [← roundHalfEven_mul hden' num den, ← roundHalfEven_mul hden num' den', Nat.mul_comm den' num,
    Nat.mul_comm den num', h, Nat.mul_comm den' den]

/-- A whole number is rounded to itself. -/
theorem roundHalfEven_natural (n : ℕ) (hden : 0 < den) : roundHalfEven (n * den) den = n := by
  simp [roundHalfEven, hden]

/-- Fractions of the same value round to the same pattern. -/
theorem nearest_congr (hden : den ≠ 0) (hden' : den' ≠ 0)
    (h : (num : ℚ) / den = (num' : ℚ) / den') : nearest num den = nearest num' den' := by
  have hcross : num * den' = num' * den := by
    rw [div_eq_div_iff (by exact_mod_cast hden) (by exact_mod_cast hden')] at h
    exact_mod_cast h
  by_cases hnum : num = 0
  · have hnum' : num' = 0 := by simpa [hnum, hden] using hcross.symm
    rw [hnum, hnum', nearest_zero, nearest_zero]
  · have hnum' : num' ≠ 0 := by
      rintro rfl
      simp [hnum, hden'] at hcross
    have hround : ∀ a b : ℕ, roundHalfEven (num * Nat.pow 2 a) (den * Nat.pow 2 b) =
        roundHalfEven (num' * Nat.pow 2 a) (den' * Nat.pow 2 b) := fun a b =>
      roundHalfEven_congr (mul_pow_pos hden b) (mul_pow_pos hden' b)
        (by rw [Nat.mul_mul_mul_comm, hcross, Nat.mul_mul_mul_comm])
    simp only [nearest, if_neg hnum, if_neg hnum', floorLog2_eq_log hnum hden,
      floorLog2_eq_log hnum' hden', h, hround]

/-- The number that a finite pattern stands for. -/
def value (bits : ℕ) : ℚ :=
  significand bits * 2 ^ scale bits

/-- A finite pattern is its significand, counted from the octave that its scale is of. -/
theorem scale_mul_octave (bits : ℕ) :
    (scale bits + 1074).toNat * octave + significand bits = bits := by
  unfold scale significand octave
  split <;> omega

theorem neg_le_scale (bits : ℕ) : -1074 ≤ scale bits := by
  unfold scale
  omega

theorem significand_lt (bits : ℕ) : significand bits < 2 * octave := by
  unfold significand octave
  split <;> omega

/-- A significand has all its bits, unless its scale is the least. -/
theorem octave_le_significand (bits : ℕ) : octave ≤ significand bits ∨ scale bits = -1074 := by
  unfold scale significand octave
  split <;> omega

/-- The value of a pattern lies on the grid of the scale of the pattern. -/
theorem grid_of_value (hsome : significand bits ≠ 0) :
    max (Int.log 2 (value bits) - 52) (-1074) = scale bits := by
  have hpower : (0 : ℚ) < 2 ^ scale bits := zpow_pos two_pos _
  have hpos : 0 < value bits :=
    mul_pos (by exact_mod_cast Nat.pos_of_ne_zero hsome) hpower
  have hlt : Int.log 2 (value bits) < 53 + scale bits := by
    refine (Int.lt_zpow_iff_log_lt (b := 2) (by decide) hpos).mp ?_
    have hsmall : (significand bits : ℚ) < 2 ^ (53 : ℤ) :=
      calc (significand bits : ℚ) < (2 * octave : ℕ) := by exact_mod_cast significand_lt bits
        _ = 2 ^ (53 : ℤ) := by norm_num [octave]
    rw [Nat.cast_ofNat, zpow_add₀ two_ne_zero, value]
    exact mul_lt_mul_of_pos_right hsmall hpower
  have hle : octave ≤ significand bits → 52 + scale bits ≤ Int.log 2 (value bits) := by
    intro hfull
    refine (Int.zpow_le_iff_le_log (b := 2) (by decide) hpos).mp ?_
    have hlarge : (2 : ℚ) ^ (52 : ℤ) ≤ significand bits :=
      calc (2 : ℚ) ^ (52 : ℤ) = (octave : ℕ) := by norm_num [octave]
        _ ≤ significand bits := by exact_mod_cast hfull
    rw [Nat.cast_ofNat, zpow_add₀ two_ne_zero, value]
    exact mul_le_mul_of_nonneg_right hlarge hpower.le
  have hscale := neg_le_scale bits
  -- A significand without all its bits is on the least grid, whatever its logarithm is.
  rcases octave_le_significand bits with hfull | hleast
  · have := hle hfull
    omega
  · omega

/-- Only zero has the value zero. -/
theorem significand_ne_zero (hsome : bits ≠ 0) : significand bits ≠ 0 := by
  unfold significand octave
  split <;> omega

/-- A value that a finite pattern stands for is rounded to that pattern. -/
theorem nearest_of_value (hden : den ≠ 0) (hbits : bits < infinity)
    (h : (num : ℚ) / den = value bits) : nearest num den = bits := by
  have hcross : num * Nat.pow 2 (-scale bits).toNat =
      significand bits * (den * Nat.pow 2 (scale bits).toNat) := by
    rw [value, zpow_eq_div two_ne_zero, ← mul_div_assoc,
      div_eq_div_iff (by exact_mod_cast hden) (by positivity), mul_right_comm, mul_assoc] at h
    exact_mod_cast h
  by_cases hnum : num = 0
  · -- Zero is rounded without a grid, and the only pattern of value zero is zero.
    by_contra hne
    have hbits : bits ≠ 0 := fun hzero => hne (by rw [hnum, nearest_zero, hzero])
    rw [hnum, Nat.zero_mul] at hcross
    have hprod := Nat.mul_pos (Nat.pos_of_ne_zero (significand_ne_zero hbits))
      (mul_pow_pos hden (scale bits).toNat)
    omega
  · have hsome : significand bits ≠ 0 := by
      intro hnone
      rw [hnone, Nat.zero_mul] at hcross
      have := mul_pow_pos hnum (-scale bits).toNat
      omega
    rw [nearest, if_neg hnum]
    dsimp only
    rw [floorLog2_eq_log hnum hden, h, grid_of_value hsome, hcross,
      roundHalfEven_natural _ (mul_pow_pos hden _), scale_mul_octave, Nat.min_eq_left hbits.le]

end Binary64

namespace Decimal

variable {c d : Decimal} {bits : ℕ}

/-- The number that a decimal is. -/
def value (d : Decimal) : ℚ :=
  d.digits * 10 ^ d.exponent

theorem fraction_ne_zero (d : Decimal) : d.fraction.2 ≠ 0 :=
  Nat.ne_of_gt (Nat.pow_pos (by decide))

theorem fraction_eq_value (d : Decimal) : (d.fraction.1 : ℚ) / d.fraction.2 = d.value := by
  rw [value, zpow_eq_div (by decide), ← mul_div_assoc]
  simp [fraction]

/-- Decimals of the same value round to the same pattern. -/
theorem nearest_congr (h : c.value = d.value) : c.nearest = d.nearest :=
  Binary64.nearest_congr c.fraction_ne_zero d.fraction_ne_zero
    (by rw [fraction_eq_value, fraction_eq_value, h])

/-- Moving zeros into the exponent does not change the value. -/
theorem value_normalize (d : Decimal) : d.normalize.value = d.value := by
  fun_induction normalize d with
  | case1 d hzero => simp [value, hzero]
  | case2 d hsome hten ih =>
    have hdigits : ((d.digits / 10 : ℕ) : ℚ) * 10 = d.digits := by
      exact_mod_cast Nat.div_mul_cancel (Nat.dvd_of_mod_eq_zero hten)
    rw [ih, value, value, zpow_add_one₀ (by decide), ← hdigits]
    ring
  | case3 d hsome hten => rfl

/-- The exact decimal of a finite pattern has its value. -/
theorem value_exact (bits : ℕ) : (exact bits).value = Binary64.value bits := by
  have hten : (10 : ℚ) ^ (-((-Binary64.scale bits).toNat : ℤ)) =
      1 / (2 ^ (-Binary64.scale bits).toNat * 5 ^ (-Binary64.scale bits).toNat) := by
    rw [← mul_pow, zpow_neg, zpow_natCast, one_div]
    norm_num
  simp only [exact, value, Binary64.value, zpow_eq_div two_ne_zero (Binary64.scale bits), hten,
    Nat.pow_eq, Nat.cast_mul, Nat.cast_pow, Nat.cast_ofNat]
  field_simp

theorem nearest_exact (hbits : bits < Binary64.infinity) : (exact bits).nearest = bits :=
  Binary64.nearest_of_value (fraction_ne_zero _) hbits
    ((fraction_eq_value _).trans (value_exact bits))

/-- The shortest decimal of a finite pattern reads back as that pattern. -/
theorem nearest_shortest (tie : Tie) (hbits : bits < Binary64.infinity) :
    (shortest tie bits).nearest = bits := by
  rw [shortest, nearest_congr (value_normalize _)]
  cases hfound : (List.range' 1 17).findSome? (ofPlaces? tie bits) with
  | none => exact nearest_exact hbits
  | some d =>
    obtain ⟨places, -, hplaces⟩ := List.exists_of_findSome?_eq_some hfound
    exact ofPlaces?_nearest hplaces

end Decimal

end Formula
