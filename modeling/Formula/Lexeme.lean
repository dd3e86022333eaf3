/-!
# Lexemes

The three matchers of the language: numerals, infix operators and names. Each takes a lexeme from
the front of a text and returns it with the rest; the two together are the text again, and a
lexeme is never empty. Letters are expected small.
-/

namespace Formula.Lexeme

/-- The sign in front of a numeral, which may be missing. -/
def minus (cs : List Char) : List Char × List Char :=
  match cs with
  | '-' :: rest => (['-'], rest)
  | rest => ([], rest)

/-- The sign of an exponent, which may be missing. -/
def sign (cs : List Char) : List Char × List Char :=
  match cs with
  | '-' :: rest => (['-'], rest)
  | '+' :: rest => (['+'], rest)
  | rest => ([], rest)

/-- The digits of a numeral: digits with an optional point behind or among them, or a point with
digits behind it. -/
def mantissa? (cs : List Char) : Option (List Char × List Char) :=
  let whole := cs.takeWhile Char.isDigit
  match cs.dropWhile Char.isDigit with
  | '.' :: tail =>
    let places := tail.takeWhile Char.isDigit
    if whole.isEmpty && places.isEmpty then none
    else some (whole ++ '.' :: places, tail.dropWhile Char.isDigit)
  | rest => if whole.isEmpty then none else some (whole, rest)

/-- The exponent of a numeral. It is missing unless its letter and sign are followed by a digit. -/
def exponent (cs : List Char) : List Char × List Char :=
  match cs with
  | 'e' :: tail =>
    let (signs, afterSign) := sign tail
    let digits := afterSign.takeWhile Char.isDigit
    if digits.isEmpty then ([], cs)
    else ('e' :: signs ++ digits, afterSign.dropWhile Char.isDigit)
  | rest => ([], rest)

/-- A numeral: an optional minus sign, the digits and an optional exponent. -/
def numeral? (cs : List Char) : Option (List Char × List Char) :=
  let (signs, afterSign) := minus cs
  match mantissa? afterSign with
  | none => none
  | some (digits, afterDigits) =>
    let (power, rest) := exponent afterDigits
    some (signs ++ digits ++ power, rest)

/-- The spellings of the infix operators, the long ones first. -/
def infixSpellings : List (List Char) :=
  [['<', '='], ['>', '='], ['!', '='], ['=', '='], ['<', '>'], ['&', '&'], ['|', '|'],
    ['-'], ['^'], ['+'], ['*'], ['%'], ['/'], ['<'], ['>']]

/-- An infix operator. -/
def infixOp? (cs : List Char) : Option (List Char × List Char) :=
  (infixSpellings.find? (·.isPrefixOf cs)).map fun spelling => (spelling, cs.drop spelling.length)

/-- The characters of a name behind its first letter. -/
def isNameChar (c : Char) : Bool :=
  c.isLower || c.isDigit || c == '.' || c == '_'

/-- The apostrophe that may end a name. -/
def apostrophe (cs : List Char) : List Char × List Char :=
  match cs with
  | '\x27' :: rest => (['\x27'], rest)
  | rest => ([], rest)

/-- A name: a letter, then letters, digits, points and underscores and at most one apostrophe at
the end. The signs of negation and of the minus in front of an operand are names too. -/
def name? (cs : List Char) : Option (List Char × List Char) :=
  match cs with
  | [] => none
  | c :: tail =>
    if c = '!' ∨ c = '-' then some ([c], tail)
    else if c.isLower then
      let (mark, rest) := apostrophe (tail.dropWhile isNameChar)
      some (c :: tail.takeWhile isNameChar ++ mark, rest)
    else none

theorem minus_append (cs : List Char) : (minus cs).1 ++ (minus cs).2 = cs := by
  unfold minus
  split <;> rfl

theorem sign_append (cs : List Char) : (sign cs).1 ++ (sign cs).2 = cs := by
  unfold sign
  split <;> rfl

theorem apostrophe_append (cs : List Char) : (apostrophe cs).1 ++ (apostrophe cs).2 = cs := by
  unfold apostrophe
  split <;> rfl

theorem exponent_append (cs : List Char) : (exponent cs).1 ++ (exponent cs).2 = cs := by
  unfold exponent
  split
  · rename_i tail
    dsimp only
    split
    · rfl
    · rw [List.cons_append, List.cons_append, List.append_assoc, List.takeWhile_append_dropWhile,
        sign_append]
  · rfl

theorem mantissa?_append {cs lexeme rest : List Char} (h : mantissa? cs = some (lexeme, rest)) :
    lexeme ++ rest = cs ∧ lexeme ≠ [] := by
  unfold mantissa? at h
  dsimp only at h
  have hwhole := List.takeWhile_append_dropWhile (p := Char.isDigit) (l := cs)
  split at h
  · rename_i tail htail
    split at h
    · cases h
    · cases h
      rw [htail] at hwhole
      refine ⟨?_, by simp⟩
      rw [List.append_assoc, List.cons_append, List.takeWhile_append_dropWhile, hwhole]
  · split at h
    · cases h
    · rename_i hne
      cases h
      exact ⟨hwhole, by simpa using hne⟩

theorem numeral?_append {cs lexeme rest : List Char} (h : numeral? cs = some (lexeme, rest)) :
    lexeme ++ rest = cs ∧ lexeme ≠ [] := by
  unfold numeral? at h
  dsimp only at h
  split at h
  · cases h
  · rename_i digits afterDigits hdigits
    cases h
    have hmantissa := mantissa?_append hdigits
    refine ⟨?_, by simp [hmantissa.2]⟩
    rw [List.append_assoc, List.append_assoc, exponent_append, hmantissa.1, minus_append]

theorem infixOp?_append {cs lexeme rest : List Char} (h : infixOp? cs = some (lexeme, rest)) :
    lexeme ++ rest = cs ∧ lexeme ≠ [] := by
  obtain ⟨spelling, hfound, heq⟩ := Option.map_eq_some_iff.mp h
  cases heq
  have hstarts : lexeme.isPrefixOf cs = true := by simpa using List.find?_some hfound
  have hne : ∀ s ∈ infixSpellings, s ≠ [] := by decide
  exact ⟨List.prefix_iff_eq_append.mp (List.isPrefixOf_iff_prefix.mp hstarts),
    hne _ (List.mem_of_find?_eq_some hfound)⟩

theorem name?_append {cs lexeme rest : List Char} (h : name? cs = some (lexeme, rest)) :
    lexeme ++ rest = cs ∧ lexeme ≠ [] := by
  unfold name? at h
  split at h
  · cases h
  · split at h
    · cases h
      exact ⟨rfl, by simp⟩
    · split at h
      · dsimp only at h
        cases h
        refine ⟨?_, by simp⟩
        rw [List.cons_append, List.cons_append, List.append_assoc, apostrophe_append,
          List.takeWhile_append_dropWhile]
      · cases h

end Formula.Lexeme
