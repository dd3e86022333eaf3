import Mathlib.Computability.RegularExpressions
import Formula.Proofs.Longest

/-!
# Patterns of lexemes

The three languages of lexemes as regular expressions. A pattern describes the same words as the
parts that a numeral, an operator or a name was said to have, so each matcher takes the longest word
of its pattern that the text begins with, and takes nothing only where no word of it stands there.
-/

namespace Formula

namespace Pattern

open RegularExpression

/-- One of these characters. -/
def oneOf (chars : List Char) : RegularExpression Char :=
  (chars.map char).sum

/-- These characters, one after another. -/
def word (chars : List Char) : RegularExpression Char :=
  (chars.map char).prod

/-- The pattern, or nothing. -/
def perhaps (p : RegularExpression Char) : RegularExpression Char :=
  1 + p

/-- The ten digits. -/
def figures : List Char :=
  "0123456789".toList

/-- A digit. -/
def digit : RegularExpression Char :=
  oneOf figures

/-- One digit or more. -/
def digits : RegularExpression Char :=
  digit * star digit

/-- `digits(.digit*)?|.digits` -/
def mantissa : RegularExpression Char :=
  digits * perhaps (char '.' * star digit) + char '.' * digits

/-- The sign of an exponent. -/
def sign : RegularExpression Char :=
  oneOf ['+', '-']

/-- `e[+-]?digits` -/
def exponent : RegularExpression Char :=
  char 'e' * perhaps sign * digits

/-- `-?mantissa(exponent)?` -/
def numeral : RegularExpression Char :=
  perhaps (char '-') * mantissa * perhaps exponent

/-- `<=`, `>=`, `!=`, `==`, `<>`, `&&`, `||`, or one of the characters `-^+*%/<>`. -/
def infixOp : RegularExpression Char :=
  word ['<', '='] + word ['>', '='] + word ['!', '='] + word ['=', '='] + word ['<', '>'] +
    word ['&', '&'] + word ['|', '|'] + oneOf ['-', '^', '+', '*', '%', '/', '<', '>']

/-- The small letters. -/
def letters : List Char :=
  "abcdefghijklmnopqrstuvwxyz".toList

/-- The characters of a name behind its first. -/
def nameChars : List Char :=
  letters ++ figures ++ ['.', '_']

/-- `!`, or `-`, or `[a-z][a-z0-9._]*` and perhaps an apostrophe. -/
def name : RegularExpression Char :=
  char '!' + char '-' +
    oneOf letters * star (oneOf nameChars) * perhaps (char '\x27')

variable {p q : RegularExpression Char} {chars cs : List Char} {c : Char}

theorem mem_char : cs ∈ (char c).matches' ↔ cs = [c] :=
  Iff.rfl

theorem mem_mul : cs ∈ (p * q).matches' ↔ ∃ a ∈ p.matches', ∃ b ∈ q.matches', a ++ b = cs :=
  Language.mem_mul

theorem mem_add : cs ∈ (p + q).matches' ↔ cs ∈ p.matches' ∨ cs ∈ q.matches' :=
  Iff.rfl

theorem mem_perhaps : cs ∈ (perhaps p).matches' ↔ cs = [] ∨ cs ∈ p.matches' :=
  Iff.rfl

theorem append_mem {a b : List Char} (ha : a ∈ p.matches') (hb : b ∈ q.matches') :
    a ++ b ∈ (p * q).matches' :=
  mem_mul.mpr ⟨a, ha, b, hb, rfl⟩

theorem nil_mem_perhaps : [] ∈ (perhaps p).matches' :=
  .inl rfl

theorem mem_perhaps_of_mem (h : cs ∈ p.matches') : cs ∈ (perhaps p).matches' :=
  .inr h

theorem mem_oneOf : cs ∈ (oneOf chars).matches' ↔ ∃ c ∈ chars, cs = [c] := by
  induction chars with
  | nil => simp [oneOf, Language.notMem_zero]
  | cons d chars ih =>
    rw [oneOf, List.map_cons, List.sum_cons, mem_add, mem_char, ← oneOf, ih]
    simp

theorem mem_word : cs ∈ (word chars).matches' ↔ cs = chars := by
  induction chars generalizing cs with
  | nil => exact Iff.rfl
  | cons d chars ih =>
    rw [word, List.map_cons, List.prod_cons, mem_mul, ← word]
    constructor
    · rintro ⟨front, hfront, back, hback, rfl⟩
      rw [mem_char.mp hfront, ih.mp hback]
      rfl
    · rintro rfl
      exact ⟨[d], rfl, chars, ih.mpr rfl, rfl⟩

/-- Characters of a class in a row are any text of characters of the class. -/
theorem mem_star_oneOf : cs ∈ (star (oneOf chars)).matches' ↔ ∀ c ∈ cs, c ∈ chars := by
  rw [matches'_star, Language.mem_kstar]
  constructor
  · rintro ⟨parts, rfl, hparts⟩ c hc
    obtain ⟨part, hpart, hmem⟩ := List.mem_flatten.mp hc
    obtain ⟨d, hd, rfl⟩ := mem_oneOf.mp (hparts part hpart)
    rw [List.mem_singleton.mp hmem]
    exact hd
  · intro h
    refine ⟨cs.map ([·]), ?_, fun part hpart => ?_⟩
    · induction cs with
      | nil => rfl
      | cons c cs ih =>
        rw [List.map_cons, List.flatten_cons, ← ih (List.forall_mem_cons.mp h).2]
        rfl
    · obtain ⟨c, hc, rfl⟩ := List.mem_map.mp hpart
      exact mem_oneOf.mpr ⟨c, h c hc, rfl⟩

/-- A class that lists the characters of successive codes holds the characters of these codes. -/
theorem mem_of_codes {first size : Nat} (h : chars = (List.range' first size).map Char.ofNat)
    (hsmall : first + size ≤ 128) : c ∈ chars ↔ first ≤ c.toNat ∧ c.toNat < first + size := by
  rw [h, List.mem_map]
  constructor
  · rintro ⟨n, hn, rfl⟩
    rw [List.mem_range'_1] at hn
    have hvalid : n.isValidChar := .inl (by omega)
    rw [Char.ofNat, dif_pos hvalid]
    exact hn
  · intro hc
    exact ⟨c.toNat, List.mem_range'_1.mpr hc, Char.ofNat_toNat c⟩

theorem mem_figures : c ∈ figures ↔ c.isDigit = true := by
  have hcodes : figures = (List.range' 48 10).map Char.ofNat := by decide
  rw [mem_of_codes hcodes (by decide)]
  simp only [Char.isDigit, Bool.and_eq_true, decide_eq_true_eq, ge_iff_le, UInt32.le_iff_toNat_le]
  exact and_congr_right fun _ => Nat.lt_succ_iff

theorem mem_letters : c ∈ letters ↔ c.isLower = true := by
  have hcodes : letters = (List.range' 97 26).map Char.ofNat := by decide
  rw [mem_of_codes hcodes (by decide)]
  refine Iff.trans ?_ Bool.and_eq_true_iff.symm
  rw [decide_eq_true_iff, decide_eq_true_iff, ge_iff_le, UInt32.le_iff_toNat_le,
    UInt32.le_iff_toNat_le]
  exact and_congr_right fun _ => Nat.lt_succ_iff

theorem mem_nameChars : c ∈ nameChars ↔ Lexeme.isNameChar c = true := by
  simp [nameChars, Lexeme.isNameChar, mem_figures, mem_letters, or_assoc]

theorem mem_star_digit : cs ∈ (star digit).matches' ↔ ∀ c ∈ cs, c.isDigit = true := by
  simp only [digit, mem_star_oneOf, mem_figures]

theorem mem_star_nameChars : cs ∈ (star (oneOf nameChars)).matches' ↔
    ∀ c ∈ cs, Lexeme.isNameChar c = true := by
  simp only [mem_star_oneOf, mem_nameChars]

theorem mem_digit : cs ∈ digit.matches' ↔ ∃ c, c.isDigit = true ∧ cs = [c] := by
  simp only [digit, mem_oneOf, mem_figures]

/-- Digits of the pattern are digits. -/
theorem mem_digits : cs ∈ digits.matches' ↔ Lexeme.IsDigits cs := by
  rw [digits, mem_mul]
  constructor
  · rintro ⟨front, hfront, back, hback, rfl⟩
    obtain ⟨c, hc, rfl⟩ := mem_digit.mp hfront
    exact ⟨by simp, List.forall_mem_cons.mpr ⟨hc, mem_star_digit.mp hback⟩⟩
  · rintro ⟨hne, hdigits⟩
    obtain ⟨c, tail, rfl⟩ := List.exists_cons_of_ne_nil hne
    obtain ⟨hc, htail⟩ := List.forall_mem_cons.mp hdigits
    exact ⟨[c], mem_digit.mpr ⟨c, hc, rfl⟩, tail, mem_star_digit.mpr htail, rfl⟩

theorem mem_mantissa : cs ∈ mantissa.matches' ↔ Lexeme.IsMantissa cs := by
  rw [mantissa, mem_add, mem_mul, mem_mul]
  constructor
  · rintro (⟨whole, hwhole, back, hback, rfl⟩ | ⟨point, rfl, places, hplaces, rfl⟩)
    · rcases mem_perhaps.mp hback with rfl | hback
      · rw [List.append_nil]
        exact .whole (mem_digits.mp hwhole)
      · obtain ⟨point, rfl, places, hplaces, rfl⟩ := mem_mul.mp hback
        exact .point (mem_digits.mp hwhole) (mem_star_digit.mp hplaces)
    · exact .places (mem_digits.mp hplaces)
  · intro h
    cases h with
    | whole hdigits =>
      exact .inl ⟨cs, mem_digits.mpr hdigits, [], nil_mem_perhaps, List.append_nil cs⟩
    | point hwhole hplaces =>
      have htail := append_mem (p := char '.') rfl (mem_star_digit.mpr hplaces)
      exact .inl ⟨_, mem_digits.mpr hwhole, _, mem_perhaps_of_mem htail, rfl⟩
    | places hplaces => exact .inr ⟨['.'], rfl, _, mem_digits.mpr hplaces, rfl⟩

/-- An exponent is one of the pattern, or missing. -/
theorem mem_perhaps_exponent : cs ∈ (perhaps exponent).matches' ↔ Lexeme.IsExponent cs := by
  rw [mem_perhaps, exponent, mem_mul]
  constructor
  · rintro (rfl | ⟨front, hfront, digits, hdigits, rfl⟩)
    · exact .missing
    · have hdigits := mem_digits.mp hdigits
      obtain ⟨letter, rfl, sign, hsign, rfl⟩ := mem_mul.mp hfront
      rcases mem_perhaps.mp hsign with rfl | hsign
      · exact .unsigned hdigits
      · obtain ⟨c, hc, rfl⟩ := mem_oneOf.mp hsign
        exact .signed (by simpa [or_comm] using hc) hdigits
  · intro h
    cases h with
    | missing => exact .inl rfl
    | unsigned hdigits =>
      have hfront := append_mem (p := char 'e') rfl (nil_mem_perhaps (p := sign))
      exact .inr ⟨['e'], hfront, _, mem_digits.mpr hdigits, rfl⟩
    | @signed c digits hsign hdigits =>
      have hmark : [c] ∈ sign.matches' := mem_oneOf.mpr ⟨c, by simpa [or_comm] using hsign, rfl⟩
      have hfront := append_mem (p := char 'e') rfl (mem_perhaps_of_mem hmark)
      exact .inr ⟨['e', c], hfront, _, mem_digits.mpr hdigits, rfl⟩

theorem mem_numeral : cs ∈ numeral.matches' ↔ Lexeme.IsNumeral cs := by
  rw [numeral, mem_mul]
  constructor
  · rintro ⟨front, hfront, power, hpower, rfl⟩
    have hpower := mem_perhaps_exponent.mp hpower
    obtain ⟨sign, hsign, digits, hdigits, rfl⟩ := mem_mul.mp hfront
    have hdigits := mem_mantissa.mp hdigits
    rcases mem_perhaps.mp hsign with rfl | hsign
    · exact .unsigned hdigits hpower
    · rw [mem_char.mp hsign]
      exact .negative hdigits hpower
  · intro h
    cases h with
    | unsigned hdigits hpower =>
      have hfront := append_mem (nil_mem_perhaps (p := char '-')) (mem_mantissa.mpr hdigits)
      exact append_mem hfront (mem_perhaps_exponent.mpr hpower)
    | negative hdigits hpower =>
      have hfront := append_mem (mem_perhaps_of_mem (mem_char (c := '-').mpr rfl))
        (mem_mantissa.mpr hdigits)
      exact append_mem hfront (mem_perhaps_exponent.mpr hpower)

/-- The operators of the pattern are the spellings that the matcher goes through. -/
theorem mem_infixOp : cs ∈ infixOp.matches' ↔ cs ∈ Lexeme.infixSpellings := by
  simp only [infixOp, mem_add, mem_word, mem_oneOf, Lexeme.infixSpellings, List.mem_cons,
    List.not_mem_nil, or_false, or_assoc, or_and_right, exists_or, exists_eq_left]

theorem mem_name : cs ∈ name.matches' ↔ Lexeme.IsName cs := by
  rw [name, mem_add, mem_add, mem_char, mem_char, or_assoc, Lexeme.IsName, mem_mul]
  refine or_congr_right (or_congr_right ⟨?_, fun h => ?_⟩)
  · rintro ⟨front, hfront, mark, hmark, rfl⟩
    obtain ⟨first, hfirst, tail, htail, rfl⟩ := mem_mul.mp hfront
    obtain ⟨c, hc, rfl⟩ := mem_oneOf.mp hfirst
    have hletter := mem_letters.mp hc
    have htail := mem_star_nameChars.mp htail
    rcases mem_perhaps.mp hmark with rfl | hmark
    · rw [List.append_nil]
      exact .plain hletter htail
    · rw [mem_char.mp hmark]
      exact .primed hletter htail
  · have hfront : ∀ {c : Char} {tail : List Char}, c.isLower = true →
        (∀ d ∈ tail, Lexeme.isNameChar d = true) →
        [c] ++ tail ∈ (oneOf letters * star (oneOf nameChars)).matches' := fun hletter htail =>
      append_mem (mem_oneOf.mpr ⟨_, mem_letters.mpr hletter, rfl⟩) (mem_star_nameChars.mpr htail)
    cases h with
    | @plain c tail hletter htail =>
      rw [← List.append_nil (c :: tail)]
      exact append_mem (hfront hletter htail) nil_mem_perhaps
    | primed hletter htail =>
      have hmark := mem_perhaps_of_mem (mem_char (c := '\x27').mpr rfl)
      exact append_mem (hfront hletter htail) hmark

end Pattern

/-- The matcher takes the longest word of the pattern that a text begins with, nothing only where
the text begins with no word of it, and leaves what is behind the word that it takes. -/
structure TakesLongest (p : RegularExpression Char)
    (m : List Char → Option (List Char × List Char)) : Prop where
  eq_some_iff : ∀ cs lexeme rest,
    m cs = some (lexeme, rest) ↔ Longest (· ∈ p.matches') cs lexeme rest
  eq_none_iff : ∀ cs, m cs = none ↔ ∀ word ∈ p.matches', ¬word <+: cs
  append : ∀ cs lexeme rest, m cs = some (lexeme, rest) → lexeme ++ rest = cs ∧ lexeme ≠ []

theorem Matches.takesLongest {L : List Char → Prop} {m : List Char → Option (List Char × List Char)}
    {p : RegularExpression Char} (h : Matches L m) (hlanguage : ∀ cs, cs ∈ p.matches' ↔ L cs)
    (hmatch : ∀ {cs lexeme rest}, m cs = some (lexeme, rest) → lexeme ++ rest = cs ∧ lexeme ≠ []) :
    TakesLongest p m := by
  obtain rfl : (· ∈ p.matches') = L := funext fun cs => propext (hlanguage cs)
  exact ⟨fun _ _ _ => h.eq_some_iff, fun _ => h.eq_none_iff, fun _ _ _ => hmatch⟩

/-- Each matcher takes the longest word of its pattern. -/
theorem Lexeme.matchers_takesLongest :
    TakesLongest Pattern.numeral numeral? ∧ TakesLongest Pattern.infixOp infixOp? ∧
      TakesLongest Pattern.name name? :=
  ⟨matches_numeral?.takesLongest (fun _ => Pattern.mem_numeral) numeral?_append,
    matches_infixOp?.takesLongest (fun _ => Pattern.mem_infixOp) infixOp?_append,
    matches_name?.takesLongest (fun _ => Pattern.mem_name) name?_append⟩

end Formula
