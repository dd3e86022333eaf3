import Formula.Builtin

/-!
# Entries

What a name stands for: how many operands it takes and what it does to the stack. The declared
arity is what the arity check counts; nothing ties it to what the operation really takes.
-/

namespace Formula

/-- What an entry does. A closure is known by its identity alone, since functions cannot be
compared; a copy of it keeps the identity. -/
inductive Operation where
  | primitive (p : Primitive)
  | closure (identity : Nat) (run : Stack → Stack)

namespace Operation

/-- Carries the operation out. -/
def run : Operation → Stack → Stack
  | .primitive p => p.run
  | .closure _ run => run

/-- Primitives are equal as operations, closures when they are copies of one another. -/
instance : BEq Operation where
  beq
    | .primitive p, .primitive q => p == q
    | .closure a _, .closure b _ => a == b
    | _, _ => false

end Operation

/-- A meaning of a name. The arity is a machine word. -/
structure Entry where
  arity : UInt64
  operation : Operation
  deriving BEq

namespace Entry

/-- The entry that puts a value on the stack. -/
def constant (identity : Nat) (value : Float) : Entry :=
  ⟨0, .closure identity fun s => s.push value⟩

/-- The entry of a built-in operation. -/
def ofBuiltin (b : Builtin) : Entry :=
  ⟨UInt64.ofNat b.arity, .primitive b.primitive⟩

/-- Carries the operation out on a stack. -/
def apply (e : Entry) (s : Stack) : Stack :=
  e.operation.run s

@[simp] theorem apply_ofBuiltin (b : Builtin) (s : Stack) :
    (ofBuiltin b).apply s = b.primitive.run s := rfl

end Entry

end Formula
