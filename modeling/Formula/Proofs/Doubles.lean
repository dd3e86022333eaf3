import Mathlib
import Formula.Decimal.Numeral
import Formula.Proofs.Grammar

/-!
# Doubles and their patterns

A double is known by its sign and its magnitude. The magnitude tells what it is: a number below the
pattern of infinity, infinity at it, and no number above it. What a numeral spells is a number or
infinity.
-/

namespace Formula

namespace Binary64

open Float.Model (Format UnpackedFloat)
open Float.Model.UnpackedFloat (unpack unpackExponent unpackMantissa isNaNBits)

variable {x y : Float} {bits : ℕ}

theorem toNat_unpackExponent (b : BitVec 64) :
    (@unpackExponent .binary64 b).toNat = b.toNat % signBit / octave := by
  have hfield : (b.extractLsb' 52 11).toNat = b.toNat >>> 52 % 2 ^ 11 := BitVec.extractLsb'_toNat ..
  rw [Float.Model.UnpackedFloat.unpackExponent_def]
  refine hfield.trans ?_
  rw [Nat.shiftRight_eq_div_pow, signBit, octave]
  omega

theorem toNat_unpackMantissa (b : BitVec 64) :
    (@unpackMantissa .binary64 b).toNat = b.toNat % octave := by
  rw [Float.Model.UnpackedFloat.unpackMantissa_def]
  exact BitVec.extractLsb'_toNat ..

theorem isInf_unpack {spec : Format} (b : BitVec spec.numBits) :
    (unpack spec b).isInf = true ↔ unpackExponent b = -1#_ ∧ unpackMantissa b = 0#_ := by
  unfold unpack
  dsimp only
  split_ifs <;> simp [UnpackedFloat.isInf, Nat.ne_of_gt spec.he, *]

theorem isNaN_unpack {spec : Format} (b : BitVec spec.numBits) :
    (unpack spec b).isNaN = true ↔ isNaNBits b = true := by
  unfold unpack isNaNBits
  dsimp only
  split_ifs <;> simp [UnpackedFloat.isNaN, Nat.ne_of_gt spec.he, *]

/-- The patterns of no number are those above infinity. -/
theorem isNaNBits_iff (b : BitVec 64) :
    @isNaNBits .binary64 b = true ↔ infinity < b.toNat % signBit := by
  unfold isNaNBits
  rw [decide_eq_true_iff, ← BitVec.toNat_inj, ne_eq, ← BitVec.toNat_inj, toNat_unpackExponent,
    toNat_unpackMantissa]
  change _ = 2047 ∧ ¬_ = 0 ↔ _
  unfold signBit octave infinity
  omega

theorem isInf_iff : x.isInf = true ↔ magnitude x = infinity := by
  refine (@isInf_unpack .binary64 x.toBits.toBitVec).trans ?_
  rw [← BitVec.toNat_inj, ← BitVec.toNat_inj, toNat_unpackExponent, toNat_unpackMantissa]
  change _ = 2047 ∧ _ = 0 ↔ _
  rw [UInt64.toNat_toBitVec]
  unfold magnitude signBit octave infinity
  omega

theorem isNaN_iff : x.isNaN = true ↔ infinity < magnitude x :=
  (@isNaN_unpack .binary64 x.toBits.toBitVec).trans (isNaNBits_iff _)

/-- The magnitude of a number is below infinity. -/
theorem magnitude_lt_infinity (hnumber : x.isNaN = false) (hfinite : x.isInf = false) :
    magnitude x < infinity := by
  have hle : ¬infinity < magnitude x := by rw [← isNaN_iff, hnumber]; decide
  have hne : ¬magnitude x = infinity := by rw [← isInf_iff, hfinite]; decide
  omega

/-- A double is known by its sign and its magnitude. -/
theorem eq_of_magnitude_eq (hsign : isNegative x = isNegative y)
    (hmagnitude : magnitude x = magnitude y) : x = y := by
  rw [← Float.toBits_inj, ← UInt64.toNat_inj]
  have hx := x.toBits.toNat_lt
  have hy := y.toBits.toNat_lt
  rw [isNegative, isNegative, decide_eq_decide, signBit] at hsign
  rw [magnitude, magnitude, signBit] at hmagnitude
  omega

/-- The bits of a double are those it was made of, unless they stand for no number. -/
theorem toBits_ofBits {b : UInt64} (hnumber : ¬infinity < b.toNat % signBit) :
    (Float.ofBits b).toBits = b := by
  have hpack := @Float.Model.UnpackedFloat.pack_unpack .binary64 b.toBitVec
  rw [if_neg (by rwa [isNaNBits_iff])] at hpack
  exact UInt64.toBitVec_inj.mp hpack

/-- A double keeps the magnitude that it was made of, up to infinity. -/
theorem magnitude_ofMagnitude (negative : Bool) (hbits : bits ≤ infinity) :
    magnitude (ofMagnitude negative bits) = bits := by
  rw [infinity] at hbits
  have hpattern : ∃ n < 2 ^ 64, ofMagnitude negative bits = Float.ofBits (UInt64.ofNat n) ∧
      n % signBit = bits := by
    cases negative
    · exact ⟨bits, by omega, rfl, by unfold signBit; omega⟩
    · exact ⟨signBit + bits, by unfold signBit; omega, rfl, by unfold signBit; omega⟩
  obtain ⟨n, hn, heq, hmod⟩ := hpattern
  have hnat : (UInt64.ofNat n).toNat = n := UInt64.toNat_ofNat_of_lt' hn
  rw [heq, magnitude, toBits_ofBits, hnat, hmod]
  rw [hnat, hmod, infinity]
  omega

/-- What has a magnitude up to infinity is a number or infinity. -/
theorem isNaN_ofMagnitude (negative : Bool) (hbits : bits ≤ infinity) :
    (ofMagnitude negative bits).isNaN = false := by
  rw [← Bool.not_eq_true, isNaN_iff, magnitude_ofMagnitude negative hbits]
  omega

end Binary64

namespace Decimal

variable {cs : List Char} {bits : ℕ} {lexeme : String} {x : Float}

/-- What begins like a number is not read as the word for no number. -/
theorem le_infinity_of_readMagnitude? (h : readMagnitude? cs = some bits)
    (hhead : ∃ c tail, cs = c :: tail ∧ (c = '.' ∨ c.isDigit = true)) :
    bits ≤ Binary64.infinity := by
  obtain ⟨c, tail, rfl, hc⟩ := hhead
  unfold readMagnitude? at h
  dsimp only at h
  split at h
  · cases h
    exact Nat.le_refl _
  · split at h
    · rename_i hword
      have hletter : c.toLower = 'n' := by
        have hlist := congrArg String.toList hword
        rw [String.toList_ofList, List.map_cons] at hlist
        exact (List.cons.inj hlist).1
      have hsmall : c.toLower = c := by
        rcases hc with rfl | hdigit
        · decide
        · exact Lexeme.isSmall_of_isDigit (List.forall_mem_singleton.mpr hdigit) c (by simp)
      rw [hsmall.symm.trans hletter] at hc
      exact absurd hc (by decide)
    · obtain ⟨d, -, rfl⟩ := Option.map_eq_some_iff.mp h
      exact nearestBounded_le_infinity d

/-- A numeral is read as a number, or as infinity. -/
theorem isNaN_of_readNumeral? (hnumeral : Lexeme.IsNumeral lexeme.toList)
    (h : readNumeral? lexeme = some x) : x.isNaN = false := by
  have hhead : ∀ {digits power : List Char}, Lexeme.IsMantissa digits →
      ∃ c tail, digits ++ power = c :: tail ∧ (c = '.' ∨ c.isDigit = true) := by
    intro digits power hdigits
    obtain ⟨c, tail, rfl, hc⟩ := hdigits.exists_head
    exact ⟨c, tail ++ power, rfl, hc⟩
  unfold readNumeral? at h
  generalize lexeme.toList = cs at hnumeral h
  cases hnumeral with
  | unsigned hdigits hpower =>
    obtain ⟨c, tail, heq, hc⟩ := hhead hdigits
    have hunsigned : (readMagnitude? (c :: tail)).map (Binary64.ofMagnitude false) = some x := by
      rw [heq] at h
      split at h
      · rename_i hminus
        cases hminus
        exact absurd hc (by decide)
      · rename_i hplus
        cases hplus
        exact absurd hc (by decide)
      · exact h
    obtain ⟨bits, hbits, rfl⟩ := Option.map_eq_some_iff.mp hunsigned
    exact Binary64.isNaN_ofMagnitude _ (le_infinity_of_readMagnitude? hbits ⟨c, tail, rfl, hc⟩)
  | negative hdigits hpower =>
    obtain ⟨bits, hbits, rfl⟩ := Option.map_eq_some_iff.mp h
    exact Binary64.isNaN_ofMagnitude _ (le_infinity_of_readMagnitude? hbits (hhead hdigits))

end Decimal

end Formula
