import Formula.Decimal.Display
import Formula.Entry

/-!
# Programs

A program is a list of instructions in postfix order: a number goes on the stack, an operator
works on what is there. Running one part after another is running the whole.
-/

namespace Formula

/-- An operator or function of an expression, with the entry that its name stands for. -/
structure Operator where
  name : String
  entry : Entry

namespace Operator

/-- Operators are equal when name and arity are, since closures cannot be compared. -/
instance : BEq Operator :=
  ⟨fun a b => a.name == b.name && a.entry.arity == b.entry.arity⟩

end Operator

/-- One step of a program. -/
inductive Instruction where
  | number (value : Float)
  | operator (op : Operator)
  deriving BEq

/-- Instructions in the order in which they run. -/
abbrev Program := List Instruction

namespace Instruction

/-- A number by its digits, an operator by its name. -/
def display : Instruction → String
  | .number value => Decimal.displayFloat value
  | .operator op => op.name

/-- The name of an operator; a number has an empty one. -/
def name : Instruction → String
  | .number _ => ""
  | .operator op => op.name

/-- How many values the stack gains, as a signed machine word: an operator takes as many as its
arity says and leaves one. -/
def effect : Instruction → Int64
  | .number _ => 1
  | .operator op => 1 - op.entry.arity.toInt64

/-- Carries the instruction out. -/
def run : Instruction → Stack → Stack
  | .number value, s => s.push value
  | .operator op, s => op.entry.apply s

end Instruction

namespace Program

/-- The instructions on one line, a blank between them. -/
def display (p : Program) : String :=
  " ".intercalate (p.map Instruction.display)

/-- Runs the instructions one after another. -/
def run (p : Program) (s : Stack) : Stack :=
  p.foldl (fun s i => i.run s) s

/-- The value on top after a run from the empty stack. -/
def evaluate (p : Program) : Float :=
  (run p .empty).pop.1

@[simp] theorem run_nil (s : Stack) : run [] s = s := rfl

@[simp] theorem run_cons (i : Instruction) (p : Program) (s : Stack) :
    run (i :: p) s = run p (i.run s) := rfl

theorem run_append (p q : Program) (s : Stack) : run (p ++ q) s = run q (run p s) :=
  List.foldl_append

end Program

end Formula
