import Formula.Console

/-!
# The command line

Reads a session line by line from standard input and prints each answer before it reads on.
-/

namespace Formula.Console

/-- Prints lines. -/
def printLines (output : IO.FS.Stream) (lines : List String) : IO Unit := do
  for line in lines do
    output.putStrLn line
  output.flush

/-- Answers lines until the session or the input ends. -/
partial def serve (input output : IO.FS.Stream) (s : State) : IO Unit := do
  let line ← input.getLine
  if line.isEmpty then printLines output [farewell]
  else
    let (lines, next) := respond s (Text.rubout line)
    printLines output lines
    match next with
    | none => return
    | some s => serve input output s

end Formula.Console

/-- Opens a session on standard input and output. -/
def main : IO Unit := do
  let input ← IO.getStdin
  let output ← IO.getStdout
  Formula.Console.printLines output Formula.Console.greeting
  Formula.Console.serve input output .start
