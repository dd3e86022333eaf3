/-!
# Magnitudes of doubles

Without their sign, the doubles from zero to infinity are in increasing order the bit patterns
`0, 1, …, infinity`. A pattern below infinity is `significand * 2 ^ scale`. `nearest` rounds a
fraction to this ladder, a half going to the even neighbour.
-/

namespace Formula.Binary64

/-- The pattern of the sign alone, above all magnitudes. -/
def signBit : Nat := 0x8000000000000000

/-- The number of patterns from one power of two to the next. -/
def octave : Nat := 0x10000000000000

/-- The pattern of infinity; the larger ones stand for no number. -/
def infinity : Nat := 0x7ff0000000000000

/-- The pattern of the value that is not a number. -/
def notANumber : Nat := 0x7ff8000000000000

/-- The bits of `x` without its sign. -/
def magnitude (x : Float) : Nat :=
  x.toBits.toNat % signBit

/-- Whether the sign of `x` is set; it is for `-0`. -/
def isNegative (x : Float) : Bool :=
  signBit ≤ x.toBits.toNat

/-- The double with the given sign and magnitude. -/
def ofMagnitude (negative : Bool) (bits : Nat) : Float :=
  Float.ofBits (UInt64.ofNat (if negative then signBit + bits else bits))

/-- The whole number that a finite pattern multiplies by a power of two. -/
def significand (bits : Nat) : Nat :=
  if bits < octave then bits else octave + bits % octave

/-- The power of two by which a finite pattern multiplies its significand. -/
def scale (bits : Nat) : Int :=
  (max (bits / octave) 1 : Nat) - 1075

/-- The value of a finite pattern, as numerator and denominator. -/
def fraction (bits : Nat) : Nat × Nat :=
  (significand bits * Nat.pow 2 (scale bits).toNat, Nat.pow 2 (-scale bits).toNat)

/-- The whole number nearest to a quotient, a half going to the even neighbour. -/
def roundHalfEven (num den : Nat) : Nat :=
  let quotient := num / den
  let rest := num % den
  if 2 * rest < den then quotient
  else if den < 2 * rest then quotient + 1
  else quotient + quotient % 2

/-- The exponent `e` with `2 ^ e ≤ num / den < 2 ^ (e + 1)`. -/
def floorLog2 (num den : Nat) : Int :=
  let e : Int := num.log2 - den.log2
  if num * Nat.pow 2 (-e).toNat < den * Nat.pow 2 e.toNat then e - 1 else e

/-- The pattern nearest to `num / den`. The significand keeps 53 bits, fewer near zero, and what
rounds beyond the largest finite pattern is infinity. -/
def nearest (num den : Nat) : Nat :=
  if num = 0 then 0
  else
    let grid := max (floorLog2 num den - 52) (-1074)
    let steps := roundHalfEven (num * Nat.pow 2 (-grid).toNat) (den * Nat.pow 2 grid.toNat)
    min ((grid + 1074).toNat * octave + steps) infinity

theorem nearest_le_infinity (num den : Nat) : nearest num den ≤ infinity := by
  unfold nearest
  split
  · exact Nat.zero_le _
  · exact Nat.min_le_right _ _

theorem nearest_zero (den : Nat) : nearest 0 den = 0 := rfl

end Formula.Binary64
