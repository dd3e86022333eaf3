import Formula.Builtin.Primitive

/-!
# The built-in operations

The registry of the operations that every expression may use, in its order. Two names may share
one primitive, as `!=` and `<>` do.
-/

namespace Formula

/-- A built-in operation under the name that calls it. -/
structure Builtin where
  id : String
  primitive : Primitive
  deriving Repr

namespace Builtin

/-- The names are unique, so they tell the operations apart. -/
instance : BEq Builtin :=
  ⟨fun a b => a.id == b.id⟩

/-- The number of operands. -/
def arity (b : Builtin) : Nat :=
  b.primitive.arity

/-- The registry: logic, comparison, arithmetic, then what is written in front of its operands.
`u-` is the minus sign in front of one operand. -/
def all : List Builtin :=
  [⟨"||", .binary .or⟩, ⟨"&&", .binary .and⟩,
    ⟨"==", .binary .equal⟩, ⟨"!=", .binary .notEqual⟩, ⟨"<>", .binary .notEqual⟩,
    ⟨"<", .binary .less⟩, ⟨">", .binary .greater⟩,
    ⟨"<=", .binary .lessOrEqual⟩, ⟨">=", .binary .greaterOrEqual⟩,
    ⟨"+", .binary .add⟩, ⟨"-", .binary .subtract⟩, ⟨"*", .binary .multiply⟩,
    ⟨"%", .binary .remainder⟩, ⟨"/", .binary .divide⟩, ⟨"^", .binary .power⟩,
    ⟨"sqrt", .unary .squareRoot⟩, ⟨"!", .unary .not⟩, ⟨"u-", .unary .negate⟩,
    ⟨"sin", .unary .sine⟩, ⟨"cos", .unary .cosine⟩, ⟨"tan", .unary .tangent⟩,
    ⟨"round", .binary .round⟩, ⟨"pi", .constant .pi⟩, ⟨"e", .constant .e⟩,
    ⟨"identity", .unary .identity⟩, ⟨"abs", .unary .absolute⟩, ⟨"log", .unary .log10⟩,
    ⟨"ln", .unary .ln⟩, ⟨"exp", .unary .exp⟩, ⟨"floor", .unary .floor⟩,
    ⟨"ceil", .unary .ceil⟩, ⟨"if", .choice⟩]

/-- The operation of a name. -/
def find? (id : String) : Option Builtin :=
  all.find? (·.id == id)

theorem nodup_ids : (all.map id).Nodup := by decide

theorem id_of_find? {name : String} {b : Builtin} (h : find? name = some b) : b.id = name := by
  have hfound := List.find?_some h
  simpa using hfound

end Builtin

end Formula
