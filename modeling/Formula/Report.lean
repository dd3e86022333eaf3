import Formula.Compiler
import Formula.Json

/-!
# Reports

What is known of an expression or of a failure, as a JSON object. The fields stand in the order of
their names.
-/

namespace Formula

/-- Class, lexeme and position. -/
def Token.toJson (t : Token) : Json :=
  .array [.string t.kind.label, .string t.lexeme, .natural t.index]

/-- The list of the tokens' reports. -/
def Token.listToJson (tokens : List Token) : Json :=
  .array (tokens.map Token.toJson)

/-- What is wrong with a text; the tokens are left out when there are none to show. -/
def Diagnostic.toJson (d : Diagnostic) : Json :=
  let tokens :=
    match d.tokens with
    | none => []
    | some tokens => [("tokens", Token.listToJson tokens)]
  .object ([("index", .natural d.index), ("text", .string d.text), ("token", .string d.token)] ++
    tokens ++ [("type", .string d.kind.label)])

/-- An expression with the value that it comes to. -/
def Expression.toJson (e : Expression) : Json :=
  .object [("postfix", .array (e.program.map fun i => .string i.display)),
    ("text", .string e.text), ("tokens", Token.listToJson e.tokens),
    ("value", .double e.evaluate)]

end Formula
