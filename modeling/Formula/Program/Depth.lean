import Formula.Diagnostic
import Formula.Program

/-!
# The depth of the stack

The arity check follows the depth of the stack through a program without running it. The depth
must not fall below zero behind any instruction and must be one at the end.
-/

namespace Formula.Program

/-- The depth behind a program that starts at a given depth, unless it falls below zero; then the
fault names the instruction behind which it does. -/
def depthAfter (depth : Int64) : Program → Except Fault Int64
  | [] => .ok depth
  | i :: rest =>
    let next := depth + i.effect
    if next < 0 then .error ⟨.arityMismatch, 0, i.name⟩ else depthAfter next rest

/-- Accepts the programs that leave one value by the arities of their operators. -/
def checkArity (p : Program) : Except Fault Unit :=
  match depthAfter 0 p with
  | .error fault => .error fault
  | .ok depth => if depth = 1 then .ok () else .error ⟨.arityMismatch, 0, ""⟩

/-- The depth behind two parts is the depth behind the second, started behind the first. -/
theorem depthAfter_append (depth : Int64) (p q : Program) :
    depthAfter depth (p ++ q) =
      match depthAfter depth p with
      | .error fault => .error fault
      | .ok middle => depthAfter middle q := by
  induction p generalizing depth with
  | nil => rfl
  | cons i p ih =>
    simp only [List.cons_append, depthAfter]
    split
    · rfl
    · exact ih _

end Formula.Program
