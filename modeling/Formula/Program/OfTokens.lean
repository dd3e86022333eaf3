import Formula.Decimal.Numeral
import Formula.Precedence
import Formula.Program.Depth
import Formula.Scope

/-!
# Programs of tokens

Operators wait on a stack until what they apply to has gone to the program. An arriving operator
first sends those on that bind tighter; a closing parenthesis or a separator sends on all back to
the open parenthesis, which shields what waits below it.
-/

namespace Formula

/-- What waits while tokens are read: an open parenthesis, or an operator with its rank. -/
inductive Pending where
  | parenOpen
  | operator (op : Operator) (rank : Nat)

namespace Pending

/-- Takes off the operators on top whose ranks give way, the top one first. -/
def release (gives : Nat → Bool) : List Pending → List Operator × List Pending
  | .operator op rank :: rest =>
    if gives rank then
      let (ops, left) := release gives rest
      (op :: ops, left)
    else ([], .operator op rank :: rest)
  | stack => ([], stack)

/-- The operator that waits, if it is one. -/
def operator? : Pending → Option Operator
  | .parenOpen => none
  | .operator op _ => some op

end Pending

/-- What waits, the top first, and the program so far. -/
structure Yard where
  stack : List Pending
  output : Array Instruction

namespace Yard

/-- Nothing waits and the program is empty. -/
def start : Yard :=
  ⟨[], #[]⟩

/-- Adds a number to the program. -/
def emit (y : Yard) (value : Float) : Yard :=
  { y with output := y.output.push (.number value) }

/-- Sends on the operators on top whose ranks give way. -/
def release (y : Yard) (gives : Nat → Bool) : Yard :=
  let (ops, left) := Pending.release gives y.stack
  ⟨left, y.output ++ ops.map Instruction.operator⟩

/-- Lets something wait on top. -/
def wait (y : Yard) (pending : Pending) : Yard :=
  { y with stack := pending :: y.stack }

/-- Sends on all operators back to the nearest open parenthesis, which stays; without one there is
no such place. -/
def flush? (y : Yard) : Option Yard :=
  let flushed := y.release fun _ => true
  if flushed.stack.isEmpty then none else some flushed

/-- Lets an operator wait, behind those that go before it. -/
def arrive (y : Yard) (precedence : Precedence) (op : Operator) : Yard :=
  (y.release precedence.yields).wait (.operator op precedence.rank)

/-- Reads one token. -/
def step (scope : Scope) (y : Yard) (t : Token) : Except Fault Yard :=
  match t.kind with
  | .number =>
    match Decimal.readNumeral? t.lexeme with
    | some value => .ok (y.emit value)
    | none => .error ⟨.malformedToken, t.index, t.lexeme⟩
  | .infixOp =>
    match Precedence.ofInfix? t.lexeme, scope.lookup t.lexeme with
    | none, _ => .error ⟨.malformedToken, t.index, t.lexeme⟩
    | some _, none => .error ⟨.undefinedName, t.index, t.lexeme⟩
    | some precedence, some entry => .ok (y.arrive precedence ⟨t.lexeme, entry⟩)
  | .prefixOp =>
    match scope.lookup t.lexeme with
    | none => .error ⟨.undefinedName, t.index, t.lexeme⟩
    | some entry => .ok (y.arrive .ofPrefix ⟨t.lexeme, entry⟩)
  | .parenOpen => .ok (y.wait .parenOpen)
  | .parenClose =>
    match y.flush? with
    | none => .error ⟨.unmatchedParen, t.index, ")"⟩
    | some flushed => .ok { flushed with stack := flushed.stack.tail }
  | .separator =>
    match y.flush? with
    | none => .error ⟨.straySeparator, t.index, ","⟩
    | some flushed => .ok flushed

/-- The program with all that still waits behind it, open parentheses left out. -/
def finish (y : Yard) : Program :=
  y.output.toList ++ (y.stack.filterMap Pending.operator?).map Instruction.operator

end Yard

namespace Program

/-- Reads tokens into a program, whose arities need not come out. -/
def ofTokensUnchecked (scope : Scope) (tokens : List Token) : Except Fault Program :=
  (tokens.foldlM (Yard.step scope) Yard.start).map Yard.finish

/-- The program of a list of tokens: the first token that cannot be read is at fault, else the
arities must come out at one value. -/
def ofTokens (scope : Scope) (tokens : List Token) : Except Fault Program :=
  match ofTokensUnchecked scope tokens with
  | .error fault => .error fault
  | .ok program =>
    match checkArity program with
    | .error fault => .error fault
    | .ok () => .ok program

theorem checkArity_of_ofTokens {scope : Scope} {tokens : List Token} {program : Program}
    (h : ofTokens scope tokens = .ok program) : checkArity program = .ok () := by
  unfold ofTokens at h
  split at h
  · cases h
  · split at h
    · cases h
    · cases h
      assumption

end Program

end Formula
