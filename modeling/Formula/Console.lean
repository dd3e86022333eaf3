import Formula.Report
import Formula.Text.Blank
import Formula.Text.Rubout

/-!
# The console

An interactive session: every line is a command or an expression, and the console answers it with
lines of text. The value of the last expression that compiled goes by the name `ans`.
-/

namespace Formula.Console

/-- What an answer can show beside the value, or instead of it. -/
inductive Display where
  | tokens
  | program
  | json
  deriving Repr, DecidableEq

/-- The commands. -/
inductive Command where
  | help
  | toggle (display : Display)
  | quit
  deriving Repr, DecidableEq

/-- The command that a line is. -/
def Command.ofLine? (line : String) : Option Command :=
  if line = ":help" then some .help
  else if line = ":tokens" then some (.toggle .tokens)
  else if line = ":postfix" then some (.toggle .program)
  else if line = ":json" then some (.toggle .json)
  else if line = ":quit" ∨ line = ":exit" then some .quit
  else none

/-- What a session remembers: the displays that are on and the value of `ans`. -/
structure State where
  showTokens : Bool
  showProgram : Bool
  showJson : Bool
  last : Float

/-- Nothing is shown beside values, and `ans` is not a number. -/
def State.start : State :=
  ⟨false, false, false, Arithmetic.nan⟩

/-- The lines that open a session. -/
def greeting : List String :=
  ["rpnexpr - infix expression compiler",
    "Enter expressions like: 100+5*2, round(pi, 0.01), if(2 > 1, 10, 20)",
    "Type :help for more commands, or Ctrl+C to exit.",
    ""]

/-- The line that ends a session. -/
def farewell : String :=
  "Goodbye!"

/-- The answer to the command for help. -/
def help : List String :=
  ["Commands:",
    "  :help     - Show this help message",
    "  :tokens   - Toggle display of the token sequence",
    "  :postfix  - Toggle display of the postfix program",
    "  :json     - Toggle JSON output",
    "  :quit     - Exit",
    "  :exit     - Exit",
    "",
    "Operators (lowest to highest precedence):",
    "  ||   &&   == != <>   < > <= >=   + -   * / %   ^ (right associative)",
    "  Prefix: - !  and any function name",
    "",
    "Functions:",
    "  sqrt abs exp ln log floor ceil sin cos tan identity",
    "  round(x, step)   if(cond, then, else)",
    "  Constants: pi e ans (previous result)",
    "",
    "Examples:",
    "  100+5*2",
    "  -(2+3) * 4",
    "  round(sqrt(2), 0.001)",
    "  if(ans > 10, 1, 0)",
    ""]

/-- How a display is called. -/
def Display.title : Display → String
  | .tokens => "Token display"
  | .program => "Postfix display"
  | .json => "JSON output"

/-- Whether a display is on. -/
def State.shows (s : State) : Display → Bool
  | .tokens => s.showTokens
  | .program => s.showProgram
  | .json => s.showJson

/-- Turns a display on or off. -/
def State.toggle (s : State) : Display → State
  | .tokens => { s with showTokens := !s.showTokens }
  | .program => { s with showProgram := !s.showProgram }
  | .json => { s with showJson := !s.showJson }

/-- The number of characters in front of a byte position, if it lies between two characters or at
an end of the text. -/
def column? (cs : List Char) (index : Nat) : Option Nat :=
  match index, cs with
  | 0, _ => some 0
  | _, [] => none
  | index, c :: rest =>
    if index < c.utf8Size then none else (column? rest (index - c.utf8Size)).map (· + 1)

/-- Shows the line, marks the position of the fault below it, and says what is wrong. -/
def complaint (line : String) (d : Diagnostic) : List String :=
  let column := (column? line.toList d.index).getD 0
  ["      " ++ line,
    "      " ++ String.ofList (List.replicate column ' ') ++ "^",
    "Error: " ++ d.message ++ " (" ++ d.kind.label ++ ")"]

/-- The answer to an expression that compiled. -/
def result (s : State) (e : Expression) : List String :=
  if s.showJson then [e.toJson.compress]
  else
    let tokens := "tokens:  " ++ " ".intercalate (e.tokens.map Token.display)
    let program := "postfix: " ++ e.program.display
    (if s.showTokens then [tokens] else []) ++ (if s.showProgram then [program] else []) ++
      [Decimal.displayFloat e.evaluate]

/-- Compiles a line in which `ans` is the last value. -/
def compileLine (s : State) (line : String) : Except Diagnostic Expression :=
  ((Compiler.new.define "ans" (.constant 0 s.last)).compile line).outcome

/-- Answers an expression. A failure changes nothing. -/
def answer (s : State) (line : String) : List String × State :=
  match compileLine s line with
  | .ok e => (result s e, { s with last := e.evaluate })
  | .error d => (if s.showJson then [d.toJson.compress] else complaint line d, s)

/-- The answer to a line and the state behind it; the session ends when there is none. Blank lines
are passed over. -/
def respond (s : State) (line : String) : List String × Option State :=
  let line := Text.trim line
  if line.isEmpty then ([], some s)
  else
    match Command.ofLine? line with
    | some .help => (help, some s)
    | some (.toggle display) =>
      let s := s.toggle display
      ([display.title ++ (if s.shows display then " on" else " off")], some s)
    | some .quit => ([farewell], none)
    | none =>
      let (lines, s) := answer s line
      (lines, some s)

/-- The answers to the lines of a session, which ends with its last line at the latest. -/
def replies (s : State) : List String → List String
  | [] => [farewell]
  | line :: rest =>
    match respond s line with
    | (lines, none) => lines
    | (lines, some s) => lines ++ replies s rest

/-- All lines that a session prints. The backspaces in a line are carried out as it is read. -/
def transcript (lines : List String) : List String :=
  greeting ++ replies .start (lines.map Text.rubout)

end Formula.Console
