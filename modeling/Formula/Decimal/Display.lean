import Formula.Decimal.Notation
import Formula.Decimal.Shortest

/-!
# The text of a double

A double is shown by its shortest decimal in positional notation, however long that is, without a
point when it is whole. The sign of a zero shows.
-/

namespace Formula.Decimal

/-- The shortest decimal of a double's magnitude in positional notation. -/
def displayFloat (x : Float) : String :=
  if x.isNaN then "NaN"
  else
    let digits :=
      if x.isInf then ['i', 'n', 'f'] else (shortest .above (Binary64.magnitude x)).positional
    String.ofList (if Binary64.isNegative x then '-' :: digits else digits)

end Formula.Decimal
