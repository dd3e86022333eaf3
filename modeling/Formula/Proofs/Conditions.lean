import Formula.Program
import Formula.Proofs.Tree

/-!
# Conditions

Truth is a number here, and the logical operations hand their operands on as they are: an
alternative is its first operand if that is true, else the second one. So the value of a condition
need be neither zero nor one. It is as true as the condition is, by the truth of the values that the
condition is built on, and it is one of these values unless a negation made it.
-/

namespace Formula

/-- A value in a condition: a literal, or a name that stands for a value. -/
inductive Source where
  | literal (value : Float)
  | constant (name : String) (identity : Nat) (value : Float)

namespace Source

/-- The value itself. -/
def value : Source → Float
  | literal value => value
  | constant _ _ value => value

/-- The instruction that puts the value on the stack. -/
def instruction : Source → Instruction
  | literal value => .number value
  | constant name identity value => .operator ⟨name, .constant identity value⟩

end Source

/-- Values under alternatives, conjunctions, negations and choices. -/
inductive Condition where
  | source (s : Source)
  | or (left right : Condition)
  | and (left right : Condition)
  | not (operand : Condition)
  | choice (test chosen otherwise : Condition)

namespace Condition

/-- The instruction of an operation that the registry has under its name. -/
def instruction (b : Builtin) (_hfind : Builtin.find? b.id = some b) : Instruction :=
  .operator ⟨b.id, .ofBuiltin b⟩

/-- The tree of a condition, its operations those of the registry. -/
def tree : Condition → Tree Instruction
  | source s => .node s.instruction []
  | or left right => .node (instruction ⟨"||", .binary .or⟩ rfl) [left.tree, right.tree]
  | and left right => .node (instruction ⟨"&&", .binary .and⟩ rfl) [left.tree, right.tree]
  | not operand => .node (instruction ⟨"!", .unary .not⟩ rfl) [operand.tree]
  | choice test chosen otherwise =>
    .node (instruction ⟨"if", .choice⟩ rfl) [test.tree, chosen.tree, otherwise.tree]

/-- The program of a condition. -/
def program (c : Condition) : Program :=
  c.tree.postorder

/-- Whether a condition is true, by the truth of its values. -/
def truth : Condition → Bool
  | source s => Arithmetic.isTrue s.value
  | or left right => left.truth || right.truth
  | and left right => left.truth && right.truth
  | not operand => !operand.truth
  | choice test chosen otherwise => if test.truth then chosen.truth else otherwise.truth

/-- The values that a condition is built on. -/
def values : Condition → List Float
  | source s => [s.value]
  | or left right => left.values ++ right.values
  | and left right => left.values ++ right.values
  | not operand => operand.values
  | choice test chosen otherwise => test.values ++ chosen.values ++ otherwise.values

/-- Whether there is a negation in a condition. -/
def negates : Condition → Bool
  | source _ => false
  | or left right => left.negates || right.negates
  | and left right => left.negates || right.negates
  | not _ => true
  | choice test chosen otherwise => test.negates || chosen.negates || otherwise.negates

/-- The value of a condition. An alternative and a conjunction hand one of their operands on, and a
choice one of its last two. -/
def value : Condition → Float
  | source s => s.value
  | or left right => if Arithmetic.isTrue left.value then left.value else right.value
  | and left right => if Arithmetic.isTrue left.value then right.value else left.value
  | not operand => Arithmetic.ofBool !Arithmetic.isTrue operand.value
  | choice test chosen otherwise =>
    if Arithmetic.isTrue test.value then chosen.value else otherwise.value

/-- A value that a condition may come to: one that it is built on, or zero or one if there is a
negation in it. -/
def Yields (c : Condition) (value : Float) : Prop :=
  value ∈ c.values ∨ c.negates = true ∧ (value = 0 ∨ value = 1)

/-- What a part yields the whole may yield. -/
theorem Yields.mono {c part : Condition} {value : Float} (h : part.Yields value)
    (hvalues : part.values ⊆ c.values) (hnegates : part.negates = true → c.negates = true) :
    c.Yields value :=
  h.imp (fun hvalue => hvalues hvalue) (And.imp_left hnegates)

/-- The operands come before their operation, the first one first. -/
theorem program_or (left right : Condition) :
    (or left right).program =
      left.program ++ (right.program ++ [instruction ⟨"||", .binary .or⟩ rfl]) := by
  simp [program, tree]

theorem program_and (left right : Condition) :
    (and left right).program =
      left.program ++ (right.program ++ [instruction ⟨"&&", .binary .and⟩ rfl]) := by
  simp [program, tree]

theorem program_not (operand : Condition) :
    (not operand).program = operand.program ++ [instruction ⟨"!", .unary .not⟩ rfl] := by
  simp [program, tree]

theorem program_choice (test chosen otherwise : Condition) :
    (choice test chosen otherwise).program =
      test.program ++
        (chosen.program ++ (otherwise.program ++ [instruction ⟨"if", .choice⟩ rfl])) := by
  simp [program, tree]

/-- A run of the program puts the value of the condition on the stack. -/
theorem run_program (c : Condition) (s : Stack) : Program.run c.program s = s.push c.value := by
  induction c generalizing s with
  | source source => cases source <;> rfl
  | or left right ihLeft ihRight =>
    -- Both operands are on the stack then, and the operation takes them off.
    rw [program_or, Program.run_append, Program.run_append, ihLeft, ihRight]
    rfl
  | and left right ihLeft ihRight =>
    rw [program_and, Program.run_append, Program.run_append, ihLeft, ihRight]
    rfl
  | not operand ih =>
    rw [program_not, Program.run_append, ih]
    rfl
  | choice test chosen otherwise ihTest ihChosen ihOtherwise =>
    rw [program_choice, Program.run_append, Program.run_append, Program.run_append, ihTest,
      ihChosen, ihOtherwise]
    rfl

/-- The value of a condition is as true as the condition is. -/
theorem isTrue_value (c : Condition) : Arithmetic.isTrue c.value = c.truth := by
  induction c with
  | source source => rfl
  | or left right ihLeft ihRight =>
    rw [value, truth, ← ihLeft, ← ihRight]
    by_cases hleft : Arithmetic.isTrue left.value = true <;> simp [hleft]
  | and left right ihLeft ihRight =>
    rw [value, truth, ← ihLeft, ← ihRight]
    by_cases hleft : Arithmetic.isTrue left.value = true <;> simp [hleft]
  | not operand ih => rw [value, truth, Arithmetic.isTrue_ofBool, ih]
  | choice test chosen otherwise ihTest ihChosen ihOtherwise =>
    rw [value, truth, ← ihTest, ← ihChosen, ← ihOtherwise]
    split <;> rfl

/-- Only a negation makes a value that is not among those below it. -/
theorem yields_value (c : Condition) : c.Yields c.value := by
  induction c with
  | source source => exact .inl (List.mem_singleton_self _)
  | or left right ihLeft ihRight =>
    rw [value]
    split
    · exact ihLeft.mono (by simp [values]) (by simp +contextual [negates])
    · exact ihRight.mono (by simp [values]) (by simp +contextual [negates])
  | and left right ihLeft ihRight =>
    rw [value]
    split
    · exact ihRight.mono (by simp [values]) (by simp +contextual [negates])
    · exact ihLeft.mono (by simp [values]) (by simp +contextual [negates])
  | not operand ih =>
    right
    rw [value]
    cases Arithmetic.isTrue operand.value
    · exact ⟨rfl, .inr rfl⟩
    · exact ⟨rfl, .inl rfl⟩
  | choice test chosen otherwise ihTest ihChosen ihOtherwise =>
    rw [value]
    split
    · exact ihChosen.mono (by simp [values]) (by simp +contextual [negates])
    · exact ihOtherwise.mono (by simp [values]) (by simp +contextual [negates])

/-- The program of a condition, run on any stack, puts one value on it, and that is its value when
it is evaluated. The value is as true as the condition by the truth of the values that it is built
on, and is one of these, unless there is a negation in it and the value is zero or one. -/
theorem evaluate_program (c : Condition) :
    (∀ s, Program.run c.program s = s.push (Program.evaluate c.program)) ∧
      Arithmetic.isTrue (Program.evaluate c.program) = c.truth ∧
      c.Yields (Program.evaluate c.program) := by
  have hvalue : Program.evaluate c.program = c.value := by
    rw [Program.evaluate, run_program, Stack.pop_push]
  rw [hvalue]
  exact ⟨c.run_program, c.isTrue_value, c.yields_value⟩

end Condition

end Formula
