import Formula.Diagnostic
import Formula.Piece
import Formula.Scope
import Formula.Text.Fold

/-!
# Scanning

A scan turns a text into tokens. Each name is looked up on the way, because an entry without
operands makes the name a value and decides how the text behind it is read. Names that the scope
does not know go to the resolver, and the scope keeps its answers.
-/

namespace Formula

/-- The result of a scan: the scope with what it learned, the names that the resolver was asked
for, in order, and the tokens or the first fault. -/
structure Scan where
  scope : Scope
  asked : List String
  outcome : Except Fault (List Token)

/-- A scan under way: what is known so far, the class of the last token, the number of open
parentheses and the byte position reached. -/
structure Scanner where
  scope : Scope
  asked : List String
  tokens : Array Token
  last : Preceding
  depth : Nat
  index : Nat

namespace Scanner

/-- At the beginning of a text. -/
def start (scope : Scope) : Scanner :=
  ⟨scope, [], #[], .separator, 0, 0⟩

/-- Ends the scan with a fault at the position reached. -/
def stop (s : Scanner) (kind : FaultKind) (token : String) : Scan :=
  ⟨s.scope, s.asked, .error ⟨kind, s.index, token⟩⟩

/-- Ends the scan at the end of the text, where every parenthesis must be closed. -/
def finish (s : Scanner) : Scan :=
  if s.depth = 0 then ⟨s.scope, s.asked, .ok s.tokens.toList⟩ else s.stop .unmatchedParen ""

/-- Adds a token at the position reached. -/
def emit (s : Scanner) (kind : TokenKind) (lexeme : String) : Scanner :=
  { s with tokens := s.tokens.push ⟨kind, lexeme, s.index⟩ }

/-- Moves on by the width of some characters. -/
def advance (s : Scanner) (cs : List Char) : Scanner :=
  { s with index := s.index + Text.byteLength cs }

/-- Finds what a name stands for: in the scope, or else from the resolver, whose answer the scope
keeps. -/
def learn (resolver : Option Resolver) (s : Scanner) (name : String) : Option Entry × Scanner :=
  match s.scope.lookup name, resolver with
  | some entry, _ => (some entry, s)
  | none, none => (none, s)
  | none, some resolve =>
    let s := { s with asked := s.asked ++ [name] }
    match resolve name with
    | some entry => (some entry, { s with scope := s.scope.insert name entry })
    | none => (none, s)

/-- The lexeme of the token that a name becomes. -/
def nameLexeme (name : String) : String :=
  if name = "-" then "u-" else name

/-- Takes up a piece: the scan goes on behind it or ends with a fault in front of it. -/
def absorb (resolver : Option Resolver) (s : Scanner) (p : Piece) : Except Scan Scanner :=
  let lexeme := String.ofList p.lexeme
  match p.shape with
  | .blank => .ok (s.advance p.lexeme)
  | .parenOpen =>
    .ok ({ s.emit .parenOpen lexeme with depth := s.depth + 1 }.advance p.lexeme)
  | .parenClose =>
    if s.depth = 0 then .error (s.stop .unmatchedParen lexeme)
    else .ok ({ s.emit .parenClose lexeme with depth := s.depth - 1 }.advance p.lexeme)
  | .separator => .ok ({ s.emit .separator lexeme with last := .separator }.advance p.lexeme)
  | .infixOp => .ok ({ s.emit .infixOp lexeme with last := .infixOp }.advance p.lexeme)
  | .number => .ok ({ s.emit .number lexeme with last := .value }.advance p.lexeme)
  | .name =>
    match s.learn resolver lexeme with
    | (none, s) => .error (s.stop .undefinedName lexeme)
    | (some entry, s) =>
      let last : Preceding := if entry.arity = 0 then .value else .prefixOp
      .ok ({ s.emit .prefixOp (nameLexeme lexeme) with last := last }.advance p.lexeme)

/-- Scans the rest of a text. -/
def run (resolver : Option Resolver) (s : Scanner) (cs : List Char) : Scan :=
  match _hnext : Piece.next? s.last cs with
  | none => if cs.isEmpty then s.finish else s.stop .unrecognized ""
  | some p =>
    match s.absorb resolver p with
    | .error ended => ended
    | .ok next => run resolver next p.rest
termination_by cs.length
decreasing_by exact Piece.length_rest_lt _hnext

/-- At the end of the text the scan ends. -/
theorem run_nil (resolver : Option Resolver) (s : Scanner) : run resolver s [] = s.finish := by
  rw [run]
  rfl

/-- One step of a scan. -/
theorem run_of_next? (resolver : Option Resolver) {s : Scanner} {cs : List Char} {p : Piece}
    (h : Piece.next? s.last cs = some p) :
    run resolver s cs =
      match s.absorb resolver p with
      | .error ended => ended
      | .ok next => run resolver next p.rest := by
  rw [run]
  split
  · rename_i hnone
    rw [h] at hnone
    cases hnone
  · rename_i q hq
    rw [h] at hq
    cases hq
    rfl

/-- Where no piece begins, the characters are not recognized. -/
theorem run_of_next?_none (resolver : Option Resolver) {s : Scanner} {c : Char} {cs : List Char}
    (h : Piece.next? s.last (c :: cs) = none) :
    run resolver s (c :: cs) = s.stop .unrecognized "" := by
  rw [run]
  split
  · rfl
  · rename_i q hq
    rw [h] at hq
    cases hq

end Scanner

/-- Scans a text, its letters made small, with the names of a scope and of a resolver. -/
def scan (text : String) (scope : Scope) (resolver : Option Resolver) : Scan :=
  (Scanner.start scope).run resolver (Text.foldCase text).toList

end Formula
