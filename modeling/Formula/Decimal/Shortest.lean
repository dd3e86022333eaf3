import Formula.Decimal

/-!
# Shortest decimals

The shortest decimal of a double is the one with the fewest digits that reads back as that double,
and of those the nearest to its exact value. For each number of digits only the two neighbours of
the exact value on that decimal grid can be it.
-/

namespace Formula.Decimal

/-- Which neighbour is taken when both read back and are equally near. -/
inductive Tie where
  | above
  | even
  deriving Repr, DecidableEq

/-- The exponent `e` with `10 ^ (e - 1) ≤ num / den < 10 ^ e`, for quotients from `10 ^ -330`. -/
def order (num den : Nat) : Int :=
  (digitsOf (num * Nat.pow 10 330 / den)).length - 330

/-- The two neighbours of `num / den` among the multiples of `10 ^ exponent`, the nearer first. -/
def neighbours (tie : Tie) (num den : Nat) (exponent : Int) : List Decimal :=
  let num := num * Nat.pow 10 (-exponent).toNat
  let den := den * Nat.pow 10 exponent.toNat
  let below : Decimal := ⟨num / den, exponent⟩
  let above : Decimal := ⟨num / den + 1, exponent⟩
  let rest := num % den
  let belowFirst :=
    2 * rest < den || (2 * rest == den && tie == .even && num / den % 2 == 0)
  if belowFirst then [below, above] else [above, below]

/-- The decimal of the given number of digits that reads back as `bits`, if there is one. -/
def ofPlaces? (tie : Tie) (bits : Nat) (places : Nat) : Option Decimal :=
  let (num, den) := Binary64.fraction bits
  (neighbours tie num den (order num den - places)).find? fun d => d.nearest = bits

/-- All digits of a finite pattern: `m / 2 ^ k` is `m * 5 ^ k / 10 ^ k`. -/
def exact (bits : Nat) : Decimal :=
  let scale := Binary64.scale bits
  ⟨Binary64.significand bits * Nat.pow 2 scale.toNat * Nat.pow 5 (-scale).toNat,
    -(-scale).toNat⟩

/-- The shortest decimal that reads back as the finite pattern `bits`. Seventeen digits suffice
for every double. -/
def shortest (tie : Tie) (bits : Nat) : Decimal :=
  (((List.range' 1 17).findSome? (ofPlaces? tie bits)).getD (exact bits)).normalize

theorem ofPlaces?_nearest {tie : Tie} {bits places : Nat} {d : Decimal}
    (h : ofPlaces? tie bits places = some d) : d.nearest = bits := by
  have hfound := List.find?_some h
  simpa using hfound

end Formula.Decimal
