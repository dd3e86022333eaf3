import Formula.Decimal

/-!
# Reading numerals

A numeral is an optional sign, then digits with an optional point, at least one digit in all, and
an optional exponent; or one of the names of infinity and of the value that is not a number, in
any letter case. It stands for the double nearest to what it spells.
-/

namespace Formula.Decimal

/-- The exponent after its letter: an optional sign, then digits only, at least one. -/
def readExponent? (cs : List Char) : Option Int :=
  let (negative, digits) : Bool × List Char :=
    match cs with
    | '-' :: rest => (true, rest)
    | '+' :: rest => (false, rest)
    | rest => (false, rest)
  if digits.isEmpty || !digits.all Char.isDigit then none
  else some (if negative then -(ofDigits digits : Int) else ofDigits digits)

/-- The decimal that unsigned digits, point and exponent spell. -/
def readUnsigned? (cs : List Char) : Option Decimal :=
  let whole := cs.takeWhile Char.isDigit
  let (places, rest) : List Char × List Char :=
    match cs.dropWhile Char.isDigit with
    | '.' :: tail => (tail.takeWhile Char.isDigit, tail.dropWhile Char.isDigit)
    | tail => ([], tail)
  let mantissa : Decimal := ⟨ofDigits (whole ++ places), -places.length⟩
  if whole.isEmpty && places.isEmpty then none
  else
    match rest with
    | [] => some mantissa
    | c :: tail =>
      if c = 'e' ∨ c = 'E' then
        (readExponent? tail).map fun e => ⟨mantissa.digits, mantissa.exponent + e⟩
      else none

/-- The pattern of the double nearest to a decimal. A decimal of 311 places before its point is
above every finite double, and one that begins 330 places behind it is below half the smallest,
so no power of ten is formed for these. -/
def nearestBounded (d : Decimal) : Nat :=
  let order := (digitsOf d.digits).length + d.exponent
  if d.digits = 0 then 0
  else if 310 < order then Binary64.infinity
  else if order < -330 then 0
  else d.nearest

/-- The pattern that a numeral without its sign stands for. -/
def readMagnitude? (cs : List Char) : Option Nat :=
  let name := String.ofList (cs.map Char.toLower)
  if name = "inf" ∨ name = "infinity" then some Binary64.infinity
  else if name = "nan" then some Binary64.notANumber
  else (readUnsigned? cs).map nearestBounded

/-- The double that a text spells, if it is a numeral. -/
def readNumeral? (text : String) : Option Float :=
  match text.toList with
  | '-' :: rest => (readMagnitude? rest).map (Binary64.ofMagnitude true)
  | '+' :: rest => (readMagnitude? rest).map (Binary64.ofMagnitude false)
  | cs => (readMagnitude? cs).map (Binary64.ofMagnitude false)

theorem nearestBounded_le_infinity (d : Decimal) : d.nearestBounded ≤ Binary64.infinity := by
  unfold nearestBounded
  dsimp only
  split
  · exact Nat.zero_le _
  · split
    · exact Nat.le_refl _
    · split
      · exact Nat.zero_le _
      · exact nearest_le_infinity d

end Formula.Decimal
