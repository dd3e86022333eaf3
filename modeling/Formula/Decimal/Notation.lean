import Formula.Decimal

/-!
# Notations of decimals

Positional notation writes every place of a decimal; scientific notation writes one digit before
the point and the exponent behind the letter `e`.
-/

namespace Formula.Decimal

/-- The digits with the point in its place, zeros filling the gap to it on either side. -/
def positional (d : Decimal) : List Char :=
  let digits := digitsOf d.digits
  if 0 ≤ d.exponent then digits ++ List.replicate d.exponent.toNat '0'
  else
    let places := (-d.exponent).toNat
    if places < digits.length then
      digits.take (digits.length - places) ++ '.' :: digits.drop (digits.length - places)
    else '0' :: '.' :: List.replicate (places - digits.length) '0' ++ digits

/-- The exponent of the leading digit. -/
def leadingExponent (d : Decimal) : Int :=
  (digitsOf d.digits).length - 1 + d.exponent

/-- One digit, the others behind a point if there are any, and the signed exponent. -/
def scientific (d : Decimal) : List Char :=
  let mantissa :=
    match digitsOf d.digits with
    | first :: second :: rest => first :: '.' :: second :: rest
    | digits => digits
  let e := d.leadingExponent
  mantissa ++ 'e' :: (if e < 0 then '-' else '+') :: digitsOf e.natAbs

end Formula.Decimal
