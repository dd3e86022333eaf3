import Formula.Text.Unprintable

/-!
# Quoted text

A text between quotation marks in which every character can be seen: quotation marks and
backslashes stand behind a backslash, and what does not print is written by its name or number.
-/

namespace Formula.Text

/-- A character inside the quotation marks. -/
def escapeQuoted (c : Char) : List Char :=
  if c = '\x22' ∨ c = '\x5c' then ['\x5c', c]
  else if c = '\x00' then ['\x5c', '0']
  else if c = '\t' then ['\x5c', 't']
  else if c = '\n' then ['\x5c', 'n']
  else if c = '\r' then ['\x5c', 'r']
  else if isUnprintable c then
    '\x5c' :: 'u' :: '\x7b' :: Nat.toDigits 16 c.toNat ++ ['\x7d']
  else [c]

/-- The text between quotation marks. -/
def quoted (s : String) : String :=
  String.ofList ('\x22' :: s.toList.flatMap escapeQuoted ++ ['\x22'])

end Formula.Text
