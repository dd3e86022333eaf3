import Formula.Stack

/-!
# Primitive operations

Every built-in operation is a constant, a function of one or two operands, or the choice between
two values. It takes its operands off the stack, the last written one first, and puts one result
back.
-/

namespace Formula

/-- The constants. -/
inductive Constant where
  | pi
  | e
  deriving Repr, DecidableEq

/-- The functions of one operand. -/
inductive Unary where
  | squareRoot
  | not
  | negate
  | sine
  | cosine
  | tangent
  | identity
  | absolute
  | log10
  | ln
  | exp
  | floor
  | ceil
  deriving Repr, DecidableEq

/-- The functions of two operands. -/
inductive Binary where
  | or
  | and
  | equal
  | notEqual
  | less
  | greater
  | lessOrEqual
  | greaterOrEqual
  | add
  | subtract
  | multiply
  | remainder
  | divide
  | power
  | round
  deriving Repr, DecidableEq

/-- A built-in operation. -/
inductive Primitive where
  | constant (c : Constant)
  | unary (f : Unary)
  | binary (f : Binary)
  | choice
  deriving Repr, DecidableEq

namespace Constant

/-- The double nearest to the constant. -/
def value : Constant → Float
  | .pi => Float.ofBits 0x400921fb54442d18
  | .e => Float.ofBits 0x4005bf0a8b145769

end Constant

namespace Unary

/-- The function itself. -/
def apply : Unary → Float → Float
  | .squareRoot, x => x.sqrt
  | .not, x => Arithmetic.ofBool (!Arithmetic.isTrue x)
  | .negate, x => -x
  | .sine, x => x.sin
  | .cosine, x => x.cos
  | .tangent, x => x.tan
  | .identity, x => x
  | .absolute, x => x.abs
  | .log10, x => x.log / Arithmetic.lnTen
  | .ln, x => x.log
  | .exp, x => x.exp
  | .floor, x => x.floor
  | .ceil, x => x.ceil

end Unary

namespace Binary

/-- The function of the left and the right operand. The logical ones return one of their operands
unchanged, and `round` rounds the left operand to a multiple of the right one. -/
def apply : Binary → Float → Float → Float
  | .or, x, y => if Arithmetic.isTrue x then x else y
  | .and, x, y => if Arithmetic.isTrue x then y else x
  | .equal, x, y => Arithmetic.ofBool (x == y)
  | .notEqual, x, y => Arithmetic.ofBool (x != y)
  | .less, x, y => Arithmetic.ofBool (x < y)
  | .greater, x, y => Arithmetic.ofBool (x > y)
  | .lessOrEqual, x, y => Arithmetic.ofBool (x ≤ y)
  | .greaterOrEqual, x, y => Arithmetic.ofBool (x ≥ y)
  | .add, x, y => x + y
  | .subtract, x, y => x - y
  | .multiply, x, y => x * y
  | .remainder, x, y => Arithmetic.remainder x y
  | .divide, x, y => x / y
  | .power, x, y => Arithmetic.power x y
  | .round, x, y => Arithmetic.roundHalfUp (x / y) * y

end Binary

namespace Primitive

/-- The number of operands. -/
def arity : Primitive → Nat
  | .constant _ => 0
  | .unary _ => 1
  | .binary _ => 2
  | .choice => 3

/-- Replaces the operands on the stack by the result. -/
def run (p : Primitive) (s : Stack) : Stack :=
  match p with
  | .constant c => s.push c.value
  | .unary f =>
    let (x, s) := s.pop
    s.push (f.apply x)
  | .binary f =>
    let (y, s) := s.pop
    let (x, s) := s.pop
    s.push (f.apply x y)
  | .choice =>
    let (otherwise, s) := s.pop
    let (chosen, s) := s.pop
    let (condition, s) := s.pop
    s.push (if Arithmetic.isTrue condition then chosen else otherwise)

end Primitive

end Formula
