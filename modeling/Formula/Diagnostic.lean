import Formula.Token

/-!
# Diagnostics

A fault says what is wrong with an expression, where, and at which token. A diagnostic adds the
text that the fault was found in and, once the text has been cut into tokens, those tokens.
-/

namespace Formula

/-- What is wrong with an expression. -/
inductive FaultKind where
  /-- A parenthesis without its partner. -/
  | unmatchedParen
  /-- A separator outside of parentheses. -/
  | straySeparator
  /-- Characters that begin no token here. -/
  | unrecognized
  /-- A name that stands for nothing. -/
  | undefinedName
  /-- Operands that do not come out at a single value. -/
  | arityMismatch
  /-- A token that its class does not allow. -/
  | malformedToken
  deriving Repr, DecidableEq

namespace FaultKind

/-- The short name of the kind. -/
def label : FaultKind → String
  | .unmatchedParen => "paren"
  | .straySeparator => "sep"
  | .unrecognized => "syntax"
  | .undefinedName => "undefined"
  | .arityMismatch => "arity"
  | .malformedToken => "unspecified"

/-- The kind in words. -/
def phrase : FaultKind → String
  | .unmatchedParen => "Unmatched parenthesis"
  | .straySeparator => "Separator outside of parentheses"
  | .unrecognized => "Syntax error"
  | .undefinedName => "Undefined identifier"
  | .arityMismatch => "Arity mismatch"
  | .malformedToken => "Internal error"

/-- The short names tell the kinds apart. -/
theorem label_injective {a b : FaultKind} (h : a.label = b.label) : a = b := by
  cases a <;> cases b <;> first | rfl | exact absurd h (by decide)

end FaultKind

/-- A fault at a byte position. The token is empty when no single token is to blame. -/
structure Fault where
  kind : FaultKind
  index : Nat
  token : String
  deriving Repr, DecidableEq

namespace Fault

/-- The fault in one sentence; an empty token is left out. -/
def message (f : Fault) : String :=
  let subject := if f.token.isEmpty then "" else " '" ++ f.token ++ "'"
  f.kind.phrase ++ subject ++ " at position " ++ toString f.index

end Fault

/-- A fault in a text. The tokens are there when the whole text could be cut into tokens. -/
structure Diagnostic extends Fault where
  text : String
  tokens : Option (List Token)
  deriving Repr, DecidableEq

end Formula
