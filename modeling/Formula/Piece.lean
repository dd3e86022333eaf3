import Formula.Lexeme
import Formula.Text.Blank

/-!
# Pieces

A scan cuts a text into pieces, one after another. Which piece comes next depends on the text and
on the token before it alone: behind a value a sign is an operator, elsewhere it begins a numeral
or a name.
-/

namespace Formula

/-- The class of the token before, parentheses left out. A text begins as if behind a separator. -/
inductive Preceding where
  | separator
  | value
  | infixOp
  | prefixOp
  deriving Repr, DecidableEq

/-- The classes of pieces. -/
inductive Shape where
  | blank
  | parenOpen
  | parenClose
  | separator
  | infixOp
  | number
  | name
  deriving Repr, DecidableEq

/-- The next piece of a text and the text behind it. -/
structure Piece where
  shape : Shape
  lexeme : List Char
  rest : List Char
  deriving Repr, DecidableEq

namespace Piece

/-- A matched lexeme as a piece of the given class. -/
def ofMatch (shape : Shape) (matched : List Char × List Char) : Piece :=
  ⟨shape, matched.1, matched.2⟩

/-- The longer pieces. Infix operators come only behind a value and numerals only elsewhere; a
separator does not follow another one. -/
def lexical? (last : Preceding) (cs : List Char) : Option Piece :=
  let operator := if last = .value then Lexeme.infixOp? cs else none
  let number := if last = .value then none else Lexeme.numeral? cs
  match operator, number with
  | some matched, _ => some (ofMatch .infixOp matched)
  | none, some matched => some (ofMatch .number matched)
  | none, none => (Lexeme.name? cs).map (ofMatch .name)

/-- The next piece of a text, unless the text is empty or no piece begins there. -/
def next? (last : Preceding) (cs : List Char) : Option Piece :=
  match cs with
  | [] => none
  | c :: rest =>
    if Text.isBlank c then some ⟨.blank, [c], rest⟩
    else if c = '(' then some ⟨.parenOpen, [c], rest⟩
    else if c = ')' then some ⟨.parenClose, [c], rest⟩
    else if c = ',' ∧ last ≠ .separator then some ⟨.separator, [c], rest⟩
    else lexical? last cs

theorem lexical?_append {last : Preceding} {cs : List Char} {p : Piece}
    (h : lexical? last cs = some p) : p.lexeme ++ p.rest = cs ∧ p.lexeme ≠ [] := by
  unfold lexical? at h
  dsimp only at h
  split at h
  · rename_i matched hmatched
    cases h
    split at hmatched
    · exact Lexeme.infixOp?_append hmatched
    · cases hmatched
  · rename_i matched hmatched
    cases h
    split at hmatched
    · cases hmatched
    · exact Lexeme.numeral?_append hmatched
  · obtain ⟨matched, hmatched, rfl⟩ := Option.map_eq_some_iff.mp h
    exact Lexeme.name?_append hmatched

/-- A piece and the text behind it are the text before it, and no piece is empty. -/
theorem next?_append {last : Preceding} {cs : List Char} {p : Piece}
    (h : next? last cs = some p) : p.lexeme ++ p.rest = cs ∧ p.lexeme ≠ [] := by
  unfold next? at h
  split at h
  · cases h
  · repeat' split at h
    all_goals first | exact lexical?_append h | (cases h; exact ⟨rfl, by simp⟩)

-- Behind a value the sign is an operator, elsewhere it belongs to the numeral behind it.
example : next? .value ['-', '5'] = some ⟨.infixOp, ['-'], ['5']⟩ := by decide

example : next? .infixOp ['-', '5'] = some ⟨.number, ['-', '5'], []⟩ := by decide

/-- What is left behind a piece is shorter. -/
theorem length_rest_lt {last : Preceding} {cs : List Char} {p : Piece}
    (h : next? last cs = some p) : p.rest.length < cs.length := by
  obtain ⟨happend, hne⟩ := next?_append h
  have hpos := List.length_pos_iff.mpr hne
  rw [← happend, List.length_append]
  omega

end Piece

end Formula
