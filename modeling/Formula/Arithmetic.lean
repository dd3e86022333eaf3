import Formula.Binary64

/-!
# Arithmetic of the built-in operations

The operations on doubles that the machine does not give directly. Truth is a number: zero and the
value that is not a number are false, and every other value is true.
-/

namespace Formula.Arithmetic

/-- The value that is not a number. -/
def nan : Float :=
  Binary64.ofMagnitude false Binary64.notANumber

/-- Neither a zero nor the value that is not a number. -/
def isTrue (value : Float) : Bool :=
  value != 0 && !value.isNaN

/-- One for true and zero for false. -/
def ofBool (b : Bool) : Float :=
  if b then 1 else 0

/-- What is left of `x` after taking away `y` as often as it goes, rounding toward zero. It is
exact and has the sign of `x`: with `x = a / c` and `y = b / d` it is `a * d` modulo `b * c`, over
`c * d`. -/
def remainder (x y : Float) : Float :=
  if x.isNaN || y.isNaN || x.isInf || y == 0 then nan
  else if y.isInf then x
  else
    let (a, c) := Binary64.fraction (Binary64.magnitude x)
    let (b, d) := Binary64.fraction (Binary64.magnitude y)
    Binary64.ofMagnitude (Binary64.isNegative x) (Binary64.nearest (a * d % (b * c)) (c * d))

/-- The power, except that an exponent that is not a number, and an infinite power of one or minus
one, give no number. -/
def power (base exponent : Float) : Float :=
  if exponent.isNaN || (base.abs == 1 && exponent.isInf) then nan
  else base.pow exponent

/-- The nearest whole number, a half going toward positive infinity. -/
def roundHalfUp (value : Float) : Float :=
  let floor := value.floor
  if value - floor ≥ 0.5 then floor + 1 else floor

/-- The natural logarithm of ten. -/
def lnTen : Float :=
  Float.ofBits 0x40026bb1bbb55516

theorem isTrue_ofBool (b : Bool) : isTrue (ofBool b) = b := by
  cases b <;> decide

end Formula.Arithmetic
