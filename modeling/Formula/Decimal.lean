import Formula.Binary64

/-!
# Decimals

A decimal is a whole number of digits times a power of ten: what a numeral spells and what the
text of a double shows.
-/

namespace Formula

/-- The number `digits * 10 ^ exponent`. -/
structure Decimal where
  digits : Nat
  exponent : Int
  deriving Repr, DecidableEq

namespace Decimal

/-- The value as numerator and denominator. -/
def fraction (d : Decimal) : Nat × Nat :=
  (d.digits * Nat.pow 10 d.exponent.toNat, Nat.pow 10 (-d.exponent).toNat)

/-- The pattern of the double nearest to a decimal. -/
def nearest (d : Decimal) : Nat :=
  Binary64.nearest d.fraction.1 d.fraction.2

/-- The decimal digits of a number, the leading one not zero unless it is the only one. -/
def digitsOf (n : Nat) : List Char :=
  Nat.toDigits 10 n

/-- The number that a list of digits spells. -/
def ofDigits (cs : List Char) : Nat :=
  cs.foldl (fun n c => 10 * n + (c.toNat - '0'.toNat)) 0

/-- The same number with the zeros at the end of its digits moved into the exponent. -/
def normalize (d : Decimal) : Decimal :=
  if d.digits = 0 then ⟨0, 0⟩
  else if d.digits % 10 = 0 then normalize ⟨d.digits / 10, d.exponent + 1⟩
  else d
termination_by d.digits
decreasing_by omega

theorem nearest_le_infinity (d : Decimal) : d.nearest ≤ Binary64.infinity :=
  Binary64.nearest_le_infinity _ _

end Decimal

end Formula
