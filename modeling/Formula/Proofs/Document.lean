import Formula.Decimal.Numeral
import Formula.Proofs.Grammar

/-!
# JSON documents

A document is what a JSON text says. The texts of a document are given by the grammar of JSON:
blanks may stand around every value, a character of a string may be written in several ways, and so
may a number. A string is one of characters, so that half of a surrogate pair alone is not written
in any text.
-/

namespace Formula

open Lexeme (IsDigits)

/-- What a JSON text says. A number is its sign and its decimal, without zeros at the end of the
digits. -/
inductive Document where
  | null
  | truth (b : Bool)
  | number (negative : Bool) (magnitude : Decimal)
  | string (s : String)
  | array (items : List Document)
  | object (fields : List (String × Document))

namespace Document

/-- A whole number. -/
def natural (n : Nat) : Document :=
  .number false (Decimal.normalize ⟨n, 0⟩)

/-- The value of a field of an object. -/
def get? (name : String) : Document → Option Document
  | .object fields => fields.lookup name
  | _ => none

/-- The letters behind a backslash, each with the character that it stands for. -/
def shortEscapes : List (Char × Char) :=
  [('\x22', '\x22'), ('\x5c', '\x5c'), ('/', '/'), ('b', '\x08'), ('f', '\x0c'), ('n', '\n'),
    ('r', '\r'), ('t', '\t')]

/-- The number of a hexadecimal digit, capital or small. -/
def hexDigit? (c : Char) : Option Nat :=
  if c.isDigit then some (c.toNat - '0'.toNat)
  else if 'a' ≤ c.toLower ∧ c.toLower ≤ 'f' then some (c.toLower.toNat - 'a'.toNat + 10)
  else none

/-- The code unit that four hexadecimal digits spell. -/
def codeUnit? : List Char → Option Nat
  | [a, b, c, d] => do
    let a ← hexDigit? a
    let b ← hexDigit? b
    let c ← hexDigit? c
    let d ← hexDigit? d
    return 16 * (16 * (16 * a + b) + c) + d
  | _ => none

/-- The character of a surrogate pair. -/
def ofSurrogates (high low : Nat) : Char :=
  .ofNat (0x10000 + 0x400 * (high - 0xd800) + (low - 0xdc00))

/-- The ways to write a character of a string. -/
inductive IsCharacter : Char → List Char → Prop where
  | plain {c : Char} (hvisible : 0x20 ≤ c.toNat) (hquote : c ≠ '\x22') (hbackslash : c ≠ '\x5c') :
      IsCharacter c [c]
  | short {letter c : Char} (hletter : (letter, c) ∈ shortEscapes) : IsCharacter c ['\x5c', letter]
  | scalar {n : Nat} {cs : List Char} (hunit : codeUnit? cs = some n)
      (hscalar : n < 0xd800 ∨ 0xe000 ≤ n) : IsCharacter (.ofNat n) ('\x5c' :: 'u' :: cs)
  | pair {high low : Nat} {cs ds : List Char} (hhigh : codeUnit? cs = some high)
      (hlow : codeUnit? ds = some low) (hfirst : 0xd800 ≤ high ∧ high < 0xdc00)
      (hsecond : 0xdc00 ≤ low ∧ low < 0xe000) :
      IsCharacter (ofSurrogates high low) ('\x5c' :: 'u' :: cs ++ '\x5c' :: 'u' :: ds)

/-- A zero alone, or digits that begin with another one. -/
def IsWhole (cs : List Char) : Prop :=
  IsDigits cs ∧ (cs.head? = some '0' → cs = ['0'])

/-- The places behind the point: nothing at all, or a point with at least one digit behind it. -/
inductive IsFraction : List Char → List Char → Prop where
  | missing : IsFraction [] []
  | point {places : List Char} (hplaces : IsDigits places) : IsFraction places ('.' :: places)

/-- The exponent: nothing at all, or a letter with a signed number behind it. -/
inductive IsPower : Int → List Char → Prop where
  | missing : IsPower 0 []
  | unsigned {letter : Char} {digits : List Char} (hletter : letter = 'e' ∨ letter = 'E')
      (hdigits : IsDigits digits) : IsPower (Decimal.ofDigits digits) (letter :: digits)
  | plus {letter : Char} {digits : List Char} (hletter : letter = 'e' ∨ letter = 'E')
      (hdigits : IsDigits digits) : IsPower (Decimal.ofDigits digits) (letter :: '+' :: digits)
  | minus {letter : Char} {digits : List Char} (hletter : letter = 'e' ∨ letter = 'E')
      (hdigits : IsDigits digits) : IsPower (-Decimal.ofDigits digits) (letter :: '-' :: digits)

/-- The ways to write a number without its sign. -/
inductive IsMagnitude : Decimal → List Char → Prop where
  | parts {whole places fraction power : List Char} {e : Int} (hwhole : IsWhole whole)
      (hfraction : IsFraction places fraction) (hpower : IsPower e power) :
      IsMagnitude (Decimal.normalize ⟨Decimal.ofDigits (whole ++ places), e - places.length⟩)
        (whole ++ fraction ++ power)

/-- A field of an object with the texts of its name and of its value. -/
structure Field where
  name : String
  value : Document
  nameText : List Char
  valueText : List Char

/-- A field as it is written. -/
def Field.text (f : Field) : List Char :=
  f.nameText ++ ':' :: f.valueText

/-- A field without its texts. -/
def Field.entry (f : Field) : String × Document :=
  (f.name, f.value)

/-- The texts of a document. -/
inductive IsText : Document → List Char → Prop where
  | before {v : Document} {c : Char} {cs : List Char} (hblank : c.isWhitespace = true)
      (htext : IsText v cs) : IsText v (c :: cs)
  | behind {v : Document} {c : Char} {cs : List Char} (hblank : c.isWhitespace = true)
      (htext : IsText v cs) : IsText v (cs ++ [c])
  | null : IsText .null "null".toList
  | truth (b : Bool) : IsText (.truth b) (toString b).toList
  | positive {d : Decimal} {cs : List Char} (hnumber : IsMagnitude d cs) :
      IsText (.number false d) cs
  | negative {d : Decimal} {cs : List Char} (hnumber : IsMagnitude d cs) :
      IsText (.number true d) ('-' :: cs)
  | string {pieces : List (Char × List Char)}
      (hpieces : ∀ piece ∈ pieces, IsCharacter piece.1 piece.2) :
      IsText (.string (.ofList (pieces.map Prod.fst)))
        ('\x22' :: pieces.flatMap Prod.snd ++ ['\x22'])
  | emptyArray {gap : List Char} (hgap : ∀ c ∈ gap, c.isWhitespace = true) :
      IsText (.array []) ('[' :: gap ++ [']'])
  | array {items : List (Document × List Char)} (hsome : items ≠ [])
      (hitems : ∀ item ∈ items, IsText item.1 item.2) :
      IsText (.array (items.map Prod.fst))
        ('[' :: List.intercalate [','] (items.map Prod.snd) ++ [']'])
  | emptyObject {gap : List Char} (hgap : ∀ c ∈ gap, c.isWhitespace = true) :
      IsText (.object []) ('\x7b' :: gap ++ ['\x7d'])
  | object {fields : List Field} (hsome : fields ≠ [])
      (hnames : ∀ f ∈ fields, IsText (.string f.name) f.nameText)
      (hvalues : ∀ f ∈ fields, IsText f.value f.valueText) :
      IsText (.object (fields.map Field.entry))
        ('\x7b' :: List.intercalate [','] (fields.map Field.text) ++ ['\x7d'])

end Document

end Formula
