/-!
# Tokens

A token is a classified piece of the text. Its lexeme is in small letters, and the minus sign in
front of an operand is named `u-`, which sets it apart from the minus between two operands.
-/

namespace Formula

/-- The classes of tokens. -/
inductive TokenKind where
  | number
  | infixOp
  | prefixOp
  | parenOpen
  | parenClose
  | separator
  deriving Repr, DecidableEq

namespace TokenKind

/-- The name of the class; the two parentheses share one. -/
def label : TokenKind → String
  | .number => "number"
  | .infixOp => "infix"
  | .prefixOp => "prefix"
  | .parenOpen => "paren"
  | .parenClose => "paren"
  | .separator => "sep"

end TokenKind

/-- A piece of the text with its class and the byte position where it starts. -/
structure Token where
  kind : TokenKind
  lexeme : String
  index : Nat
  deriving Repr, DecidableEq

namespace Token

/-- Class, lexeme and position on one line, as in `number:12@0`. -/
def display (t : Token) : String :=
  t.kind.label ++ ":" ++ t.lexeme ++ "@" ++ toString t.index

end Token

end Formula
