import Formula.Arithmetic

/-!
# The value stack

The stack that a program runs against. Popping an empty stack yields the value that is not a
number and leaves it empty, so every operation is defined on every stack.
-/

namespace Formula

/-- A stack of doubles; `values` lists them from the top. -/
@[ext] structure Stack where
  values : List Float
  deriving BEq

namespace Stack

/-- The stack without values. -/
def empty : Stack :=
  ⟨[]⟩

instance : EmptyCollection Stack :=
  ⟨empty⟩

/-- The stack with the listed values, the last one on top. -/
def ofList (values : List Float) : Stack :=
  ⟨values.reverse⟩

/-- The values from the bottom to the top. -/
def toList (s : Stack) : List Float :=
  s.values.reverse

/-- Puts a value on top. -/
def push (s : Stack) (value : Float) : Stack :=
  ⟨value :: s.values⟩

/-- Takes the top value off; an empty stack yields the value that is not a number. -/
def pop (s : Stack) : Float × Stack :=
  match s.values with
  | [] => (Arithmetic.nan, s)
  | value :: rest => (value, ⟨rest⟩)

/-- The top value, if there is one. -/
def peek? (s : Stack) : Option Float :=
  s.values.head?

/-- The number of values. -/
def size (s : Stack) : Nat :=
  s.values.length

/-- Whether the stack has no values. -/
def isEmpty (s : Stack) : Bool :=
  s.values.isEmpty

@[simp] theorem values_push (s : Stack) (value : Float) :
    (s.push value).values = value :: s.values := rfl

@[simp] theorem pop_push (s : Stack) (value : Float) : (s.push value).pop = (value, s) := rfl

@[simp] theorem size_push (s : Stack) (value : Float) : (s.push value).size = s.size + 1 := rfl

@[simp] theorem toList_push (s : Stack) (value : Float) :
    (s.push value).toList = s.toList ++ [value] := by
  simp [toList]

end Stack

end Formula
