import Formula.Program.OfTokens
import Formula.Scan

/-!
# Expressions

An expression is compiled once and evaluated as often as needed. Compiling scans the text and reads
its tokens into a program; the result keeps the text and the tokens, and a failure says how far the
text was understood.
-/

namespace Formula

/-- A compiled expression: the text, its tokens and the program to run. -/
structure Expression where
  text : String
  tokens : List Token
  program : Program

/-- The result of compiling: the names that the resolver was asked for, in order, and the
expression or what is wrong with the text. -/
structure Compilation where
  asked : List String
  outcome : Except Diagnostic Expression

namespace Expression

/-- The value of the expression. -/
def evaluate (e : Expression) : Float :=
  e.program.evaluate

end Expression

/-- Reads scanned tokens into an expression, with the names that the scan knew in the end. -/
def Scan.toExpression (scanned : Scan) (text : String) : Except Diagnostic Expression :=
  match scanned.outcome with
  | .error fault => .error ⟨fault, text, none⟩
  | .ok tokens =>
    match Program.ofTokens scanned.scope tokens with
    | .error fault => .error ⟨fault, text, some tokens⟩
    | .ok program => .ok ⟨text, tokens, program⟩

/-- Compiles a text with further functions and perhaps a resolver. -/
def compileWith (text : String) (functions : List (String × Entry)) (resolver : Option Resolver) :
    Compilation :=
  let scanned := scan text (.ofFunctions functions) resolver
  ⟨scanned.asked, scanned.toExpression text⟩

/-- Compiles a text with the built-in operations only. -/
def compile (text : String) : Except Diagnostic Expression :=
  (compileWith text [] none).outcome

/-- A program that was compiled leaves one value by the arities of its operators. -/
theorem checkArity_of_compileWith {text : String} {functions : List (String × Entry)}
    {resolver : Option Resolver} {e : Expression}
    (h : (compileWith text functions resolver).outcome = .ok e) :
    e.program.checkArity = .ok () := by
  unfold compileWith Scan.toExpression at h
  dsimp only at h
  split at h
  · cases h
  · split at h
    · cases h
    · rename_i hprogram
      cases h
      exact Program.checkArity_of_ofTokens hprogram

/-- An expression keeps the text that it was compiled from. -/
theorem text_of_compileWith {text : String} {functions : List (String × Entry)}
    {resolver : Option Resolver} {e : Expression}
    (h : (compileWith text functions resolver).outcome = .ok e) : e.text = text := by
  unfold compileWith Scan.toExpression at h
  dsimp only at h
  split at h
  · cases h
  · split at h
    · cases h
    · cases h
      rfl

end Formula
