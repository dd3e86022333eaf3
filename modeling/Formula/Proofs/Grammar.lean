import Formula.Proofs.Lexemes

/-!
# The languages of lexemes

What a numeral and what a name is, said by their parts. Each matcher takes a word of its language
from the front of a text, and takes such a word as a whole where nothing follows. No word of any of
the languages holds a capital. The next piece of a text is a word of the language that its shape
names, and may stand behind the class before it.
-/

namespace Formula

namespace Lexeme

/-- One digit or more. -/
def IsDigits (cs : List Char) : Prop :=
  cs ≠ [] ∧ ∀ c ∈ cs, c.isDigit = true

/-- Digits with a point behind or among them or without one, or digits behind a point. -/
inductive IsMantissa : List Char → Prop where
  | whole {digits : List Char} (hdigits : IsDigits digits) : IsMantissa digits
  | point {whole places : List Char} (hwhole : IsDigits whole)
      (hplaces : ∀ c ∈ places, c.isDigit = true) : IsMantissa (whole ++ '.' :: places)
  | places {places : List Char} (hplaces : IsDigits places) : IsMantissa ('.' :: places)

/-- The letter of the exponent and digits behind it, perhaps with a sign; or no exponent. -/
inductive IsExponent : List Char → Prop where
  | missing : IsExponent []
  | unsigned {digits : List Char} (hdigits : IsDigits digits) : IsExponent ('e' :: digits)
  | signed {sign : Char} {digits : List Char} (hsign : sign = '-' ∨ sign = '+')
      (hdigits : IsDigits digits) : IsExponent ('e' :: sign :: digits)

/-- A mantissa with its exponent, perhaps with a minus sign. -/
inductive IsNumeral : List Char → Prop where
  | unsigned {digits power : List Char} (hdigits : IsMantissa digits) (hpower : IsExponent power) :
      IsNumeral (digits ++ power)
  | negative {digits power : List Char} (hdigits : IsMantissa digits) (hpower : IsExponent power) :
      IsNumeral ('-' :: (digits ++ power))

/-- A letter, then letters, digits, points and underscores, perhaps with an apostrophe at the
end. -/
inductive IsIdentifier : List Char → Prop where
  | plain {c : Char} {tail : List Char} (hletter : c.isLower = true)
      (htail : ∀ d ∈ tail, isNameChar d = true) : IsIdentifier (c :: tail)
  | primed {c : Char} {tail : List Char} (hletter : c.isLower = true)
      (htail : ∀ d ∈ tail, isNameChar d = true) : IsIdentifier (c :: (tail ++ ['\x27']))

variable {cs lexeme rest digits power : List Char}

theorem forall_mem_takeWhile {p : Char → Bool} (cs : List Char) : ∀ c ∈ cs.takeWhile p, p c = true :=
  fun _ hc => List.mem_takeWhile_imp hc

/-- Digits begin with one. -/
theorem IsDigits.exists_head (h : IsDigits digits) :
    ∃ c tail, digits = c :: tail ∧ c.isDigit = true := by
  obtain ⟨c, tail, rfl⟩ := List.exists_cons_of_ne_nil h.1
  exact ⟨c, tail, rfl, h.2 c (by simp)⟩

/-- Digits in front of something else are all that is taken. -/
theorem takeWhile_isDigit (hdigits : ∀ c ∈ digits, c.isDigit = true) (rest : List Char)
    (hrest : ∀ c ∈ rest.head?, c.isDigit = false) :
    (digits ++ rest).takeWhile Char.isDigit = digits ∧
      (digits ++ rest).dropWhile Char.isDigit = rest := by
  rw [takeWhile_append_of_head hrest, dropWhile_append_of_head hrest,
    List.takeWhile_eq_self_iff.mpr hdigits, List.dropWhile_eq_nil_iff.mpr hdigits]
  exact ⟨rfl, rfl⟩

theorem isMantissa_of_mantissa? (h : mantissa? cs = some (lexeme, rest)) : IsMantissa lexeme := by
  have hwhole := forall_mem_takeWhile (p := Char.isDigit) cs
  unfold mantissa? at h
  dsimp only at h
  split at h
  · rename_i tail htail
    have hplaces := forall_mem_takeWhile (p := Char.isDigit) tail
    split at h
    · cases h
    · rename_i hsome
      cases h
      by_cases hnil : cs.takeWhile Char.isDigit = []
      · rw [hnil] at hsome ⊢
        exact .places ⟨by simpa using hsome, hplaces⟩
      · exact .point ⟨hnil, hwhole⟩ hplaces
  · split at h
    · cases h
    · rename_i hsome
      cases h
      exact .whole ⟨by simpa using hsome, hwhole⟩

/-- A mantissa in front of what can be no part of one is taken as a whole. -/
theorem mantissa?_of_isMantissa (h : IsMantissa digits)
    (hrest : ∀ c ∈ rest.head?, c.isDigit = false ∧ c ≠ '.') :
    mantissa? (digits ++ rest) = some (digits, rest) := by
  have hdigit : ∀ c ∈ rest.head?, c.isDigit = false := fun c hc => (hrest c hc).1
  have hpoint : ('.' : Char).isDigit = false := by decide
  cases h with
  | whole hdigits =>
    obtain ⟨htake, hdrop⟩ := takeWhile_isDigit hdigits.2 rest hdigit
    unfold mantissa?
    dsimp only
    rw [htake, hdrop]
    split
    · exact absurd rfl (hrest '.' rfl).2
    · simp [hdigits.1]
  | @point whole places hwhole hplaces =>
    obtain ⟨htake, hdrop⟩ := takeWhile_isDigit hwhole.2 ('.' :: (places ++ rest)) (by simp)
    obtain ⟨htakePlaces, hdropPlaces⟩ := takeWhile_isDigit hplaces rest hdigit
    rw [List.append_assoc, List.cons_append]
    simp [mantissa?, htake, hdrop, htakePlaces, hdropPlaces, hwhole.1]
  | @places places hplaces =>
    obtain ⟨htake, hdrop⟩ := takeWhile_isDigit hplaces.2 rest hdigit
    simp [mantissa?, hpoint, htake, hdrop, hplaces.1]

theorem isExponent_exponent (cs : List Char) : IsExponent (exponent cs).1 := by
  unfold exponent
  split
  · rename_i tail
    dsimp only
    split
    · exact .missing
    · rename_i hsome
      have hdigits : IsDigits ((sign tail).2.takeWhile Char.isDigit) :=
        ⟨by simpa using hsome, forall_mem_takeWhile _⟩
      revert hdigits
      unfold sign
      split
      · exact fun hdigits => .signed (.inl rfl) hdigits
      · exact fun hdigits => .signed (.inr rfl) hdigits
      · exact fun hdigits => .unsigned hdigits
  · exact .missing

theorem sign_of_isDigits (h : IsDigits digits) : sign digits = ([], digits) := by
  obtain ⟨c, tail, rfl, hdigit⟩ := h.exists_head
  have hminus : c ≠ '-' := by
    rintro rfl
    exact absurd hdigit (by decide)
  have hplus : c ≠ '+' := by
    rintro rfl
    exact absurd hdigit (by decide)
  simp [sign, hminus, hplus]

theorem exponent_of_isExponent (h : IsExponent power) : exponent power = (power, []) := by
  have htake : ∀ {digits}, IsDigits digits → digits.takeWhile Char.isDigit = digits ∧
      digits.dropWhile Char.isDigit = [] := fun hdigits =>
    ⟨List.takeWhile_eq_self_iff.mpr hdigits.2, List.dropWhile_eq_nil_iff.mpr hdigits.2⟩
  cases h with
  | missing => rfl
  | unsigned hdigits =>
    simp [exponent, sign_of_isDigits hdigits, htake hdigits, hdigits.1]
  | signed hsign hdigits =>
    rcases hsign with rfl | rfl <;> simp [exponent, sign, htake hdigits, hdigits.1]

/-- An exponent begins with its letter, which is no part of a mantissa. -/
theorem head_of_isExponent (h : IsExponent power) :
    ∀ c ∈ power.head?, c.isDigit = false ∧ c ≠ '.' := by
  have hletter : ('e' : Char).isDigit = false ∧ 'e' ≠ '.' := by decide
  cases h <;> simp [hletter]

/-- A mantissa begins with a digit or a point. -/
theorem IsMantissa.exists_head (h : IsMantissa digits) :
    ∃ c tail, digits = c :: tail ∧ (c = '.' ∨ c.isDigit = true) := by
  cases h with
  | whole hdigits =>
    obtain ⟨c, tail, rfl, hdigit⟩ := hdigits.exists_head
    exact ⟨c, tail, rfl, .inr hdigit⟩
  | point hwhole hplaces =>
    obtain ⟨c, tail, rfl, hdigit⟩ := hwhole.exists_head
    exact ⟨c, _, rfl, .inr hdigit⟩
  | places hplaces => exact ⟨'.', _, rfl, .inl rfl⟩

theorem minus_of_isMantissa (h : IsMantissa digits) :
    minus (digits ++ rest) = ([], digits ++ rest) := by
  obtain ⟨c, tail, rfl, hhead⟩ := h.exists_head
  have hminus : c ≠ '-' := by
    rintro rfl
    exact absurd hhead (by decide)
  simp [minus, hminus]

/-- An identifier begins with a letter. -/
theorem IsIdentifier.exists_head (h : IsIdentifier cs) :
    ∃ c tail, cs = c :: tail ∧ c.isLower = true := by
  cases h with
  | plain hletter => exact ⟨_, _, rfl, hletter⟩
  | primed hletter => exact ⟨_, _, rfl, hletter⟩

theorem IsIdentifier.ne_minus (h : IsIdentifier cs) : cs ≠ ['-'] := by
  rintro rfl
  obtain ⟨c, tail, heq, hletter⟩ := h.exists_head
  cases heq
  exact absurd hletter (by decide)

/-- What is taken for a numeral is one. -/
theorem isNumeral_of_numeral? (h : numeral? cs = some (lexeme, rest)) : IsNumeral lexeme := by
  unfold numeral? at h
  dsimp only at h
  split at h
  · cases h
  · rename_i digits afterDigits hdigits
    have hmantissa := isMantissa_of_mantissa? hdigits
    have hpower := isExponent_exponent afterDigits
    cases h
    unfold minus
    split
    · exact .negative hmantissa hpower
    · exact .unsigned hmantissa hpower

/-- A numeral alone is taken as a whole. -/
theorem numeral?_eq_self_iff : numeral? cs = some (cs, []) ↔ IsNumeral cs := by
  constructor
  · exact isNumeral_of_numeral?
  · intro h
    cases h with
    | unsigned hdigits hpower =>
      simp [numeral?, minus_of_isMantissa hdigits,
        mantissa?_of_isMantissa hdigits (head_of_isExponent hpower), exponent_of_isExponent hpower]
    | negative hdigits hpower =>
      simp [numeral?, minus, mantissa?_of_isMantissa hdigits (head_of_isExponent hpower),
        exponent_of_isExponent hpower]

/-- What is taken for a name is a sign or an identifier. -/
theorem isIdentifier_of_name? (h : name? cs = some (lexeme, rest)) :
    lexeme = ['!'] ∨ lexeme = ['-'] ∨ IsIdentifier lexeme := by
  unfold name? at h
  split at h
  · cases h
  · rename_i c tail
    split at h
    · rename_i hsign
      cases h
      rcases hsign with rfl | rfl
      · exact .inl rfl
      · exact .inr (.inl rfl)
    · split at h
      · rename_i hletter
        have htail := forall_mem_takeWhile (p := isNameChar) tail
        cases h
        right
        right
        split
        · exact .primed hletter htail
        · rw [List.append_nil]
          exact .plain hletter htail
      · cases h

theorem name?_of_isLower {c : Char} {tail : List Char} (hletter : c.isLower = true)
    (htail : ∀ d ∈ tail, isNameChar d = true) (rest : List Char)
    (hrest : ∀ d ∈ rest.head?, isNameChar d = false) :
    name? (c :: (tail ++ rest)) =
      some (c :: tail ++ (apostrophe rest).1, (apostrophe rest).2) := by
  have hsign : ¬(c = '!' ∨ c = '-') := by
    rintro (rfl | rfl) <;> exact absurd hletter (by decide)
  rw [name?, if_neg hsign, if_pos hletter, takeWhile_append_of_head hrest,
    dropWhile_append_of_head hrest, List.takeWhile_eq_self_iff.mpr htail,
    List.dropWhile_eq_nil_iff.mpr htail]
  rfl

/-- An identifier alone is taken as a whole, and so are the two signs. -/
theorem name?_eq_self_iff :
    name? cs = some (cs, []) ↔ cs = ['!'] ∨ cs = ['-'] ∨ IsIdentifier cs := by
  constructor
  · exact isIdentifier_of_name?
  · rintro (rfl | rfl | h)
    · rfl
    · rfl
    · cases h with
      | plain hletter htail =>
        simpa [apostrophe] using name?_of_isLower hletter htail [] (by simp)
      | primed hletter htail =>
        simpa [apostrophe] using
          name?_of_isLower hletter htail ['\x27'] (by simp [isNameChar])

theorem mem_infixSpellings_of_infixOp? (h : infixOp? cs = some (lexeme, rest)) :
    lexeme ∈ infixSpellings := by
  obtain ⟨spelling, hfound, heq⟩ := Option.map_eq_some_iff.mp h
  cases heq
  exact List.mem_of_find?_eq_some hfound

/-- A minus sign is an infix operator, whatever follows. -/
theorem infixOp?_minus (cs : List Char) : infixOp? ('-' :: cs) = some (['-'], cs) := by
  simp [infixOp?, infixSpellings, List.isPrefixOf]

/-- No character is a capital. -/
def IsSmall (cs : List Char) : Prop :=
  ∀ c ∈ cs, c.toLower = c

theorem toLower_eq_self {c : Char} (h : c.toNat < 65 ∨ 90 < c.toNat) : c.toLower = c := by
  unfold Char.toLower
  rw [dif_neg]
  simp only [ge_iff_le, UInt32.le_iff_toNat_le]
  intro hcapital
  simp at *
  omega

/-- Only a capital letter is folded to another character, and that is a small letter. -/
theorem toLower_eq_of_code {c : Char} (h : c.toLower.toNat < 97 ∨ 122 < c.toLower.toNat) :
    c.toLower = c := by
  by_contra hne
  have hcapital : 65 ≤ c.toNat ∧ c.toNat ≤ 90 := by
    by_contra hout
    exact hne (toLower_eq_self (by omega))
  have hword : 'A'.val ≤ c.val ∧ c.val ≤ 'Z'.val := by
    rw [UInt32.le_iff_toNat_le, UInt32.le_iff_toNat_le]
    exact hcapital
  have hcode : c.toLower.toNat = (c.toNat + 32) % 2 ^ 32 := by
    unfold Char.toLower
    rw [dif_pos hword]
    exact UInt32.toNat_add c.val 32
  omega

theorem isSmall_append {xs ys : List Char} (hxs : IsSmall xs) (hys : IsSmall ys) :
    IsSmall (xs ++ ys) := by
  intro c hc
  rcases List.mem_append.mp hc with hc | hc
  · exact hxs c hc
  · exact hys c hc

theorem isSmall_cons {c : Char} (hc : c.toLower = c) (hcs : IsSmall cs) : IsSmall (c :: cs) :=
  isSmall_append (List.forall_mem_singleton.mpr hc) hcs

theorem isSmall_of_isDigit (h : ∀ c ∈ cs, c.isDigit = true) : IsSmall cs := by
  intro c hc
  have hcode := code_of_isDigit (h c hc)
  exact toLower_eq_self (.inl (by omega))

theorem IsMantissa.isSmall (h : IsMantissa digits) : IsSmall digits := by
  cases h with
  | whole hdigits => exact isSmall_of_isDigit hdigits.2
  | point hwhole hplaces =>
    exact isSmall_append (isSmall_of_isDigit hwhole.2)
      (isSmall_cons (by decide) (isSmall_of_isDigit hplaces))
  | places hplaces => exact isSmall_cons (by decide) (isSmall_of_isDigit hplaces.2)

theorem IsExponent.isSmall (h : IsExponent power) : IsSmall power := by
  cases h with
  | missing => simp [IsSmall]
  | unsigned hdigits => exact isSmall_cons (by decide) (isSmall_of_isDigit hdigits.2)
  | signed hsign hdigits =>
    refine isSmall_cons (by decide) (isSmall_cons ?_ (isSmall_of_isDigit hdigits.2))
    rcases hsign with rfl | rfl <;> decide

theorem IsNumeral.isSmall (h : IsNumeral cs) : IsSmall cs := by
  cases h with
  | unsigned hdigits hpower => exact isSmall_append hdigits.isSmall hpower.isSmall
  | negative hdigits hpower =>
    exact isSmall_cons (by decide) (isSmall_append hdigits.isSmall hpower.isSmall)

theorem toLower_of_isNameChar {c : Char} (h : isNameChar c = true) : c.toLower = c := by
  simp only [isNameChar, Bool.or_eq_true, beq_iff_eq] at h
  rcases h with ((hlower | hdigit) | rfl) | rfl
  · have hcode := code_of_isLower hlower
    exact toLower_eq_self (.inr (by omega))
  · have hcode := code_of_isDigit hdigit
    exact toLower_eq_self (.inl (by omega))
  · decide
  · decide

theorem IsIdentifier.isSmall (h : IsIdentifier cs) : IsSmall cs := by
  have hfirst : ∀ {c : Char}, c.isLower = true → c.toLower = c := fun hletter =>
    toLower_of_isNameChar (by simp [isNameChar, hletter])
  cases h with
  | plain hletter htail =>
    exact isSmall_cons (hfirst hletter) fun c hc => toLower_of_isNameChar (htail c hc)
  | primed hletter htail =>
    exact isSmall_cons (hfirst hletter) (isSmall_append
      (fun c hc => toLower_of_isNameChar (htail c hc)) (by simp [IsSmall]))

end Lexeme

namespace Piece

open Lexeme

/-- What a piece of each shape is, and which class it may follow. -/
def Fits (last : Preceding) (p : Piece) : Prop :=
  match p.shape with
  | .blank => ∀ c ∈ p.lexeme, Text.isBlank c = true
  | .parenOpen => p.lexeme = ['(']
  | .parenClose => p.lexeme = [')']
  | .separator => p.lexeme = [','] ∧ last ≠ .separator
  | .infixOp => p.lexeme ∈ infixSpellings ∧ last = .value
  | .number => IsNumeral p.lexeme ∧ last ≠ .value
  | .name => p.lexeme = ['!'] ∨ IsIdentifier p.lexeme ∨ p.lexeme = ['-'] ∧ last ≠ .value

theorem fits_name {last : Preceding} {cs lexeme rest : List Char}
    (h : name? cs = some (lexeme, rest)) (hminus : lexeme = ['-'] → last ≠ .value) :
    (Piece.mk .name lexeme rest).Fits last := by
  rcases isIdentifier_of_name? h with hbang | hsign | hidentifier
  · exact .inl hbang
  · exact .inr (.inr ⟨hsign, hminus hsign⟩)
  · exact .inr (.inl hidentifier)

theorem fits_of_lexical? {last : Preceding} {cs : List Char} {p : Piece}
    (h : lexical? last cs = some p) : p.Fits last := by
  unfold lexical? at h
  by_cases hlast : last = .value
  · simp only [if_pos hlast] at h
    cases hoperator : infixOp? cs with
    | some matched =>
      simp only [hoperator] at h
      cases h
      exact ⟨mem_infixSpellings_of_infixOp? hoperator, hlast⟩
    | none =>
      simp only [hoperator] at h
      obtain ⟨⟨lexeme, rest⟩, hname, rfl⟩ := Option.map_eq_some_iff.mp h
      -- A minus sign would have been taken for an operator.
      refine fits_name hname ?_
      rintro rfl
      rw [← (name?_append hname).1, List.singleton_append, infixOp?_minus] at hoperator
      cases hoperator
  · simp only [if_neg hlast] at h
    cases hnumeral : numeral? cs with
    | some matched =>
      simp only [hnumeral] at h
      cases h
      exact ⟨isNumeral_of_numeral? hnumeral, hlast⟩
    | none =>
      simp only [hnumeral] at h
      obtain ⟨matched, hname, rfl⟩ := Option.map_eq_some_iff.mp h
      exact fits_name hname fun _ => hlast

/-- The next piece is what its shape says, and may follow the class before it. -/
theorem fits_of_next? {last : Preceding} {cs : List Char} {p : Piece}
    (h : next? last cs = some p) : p.Fits last := by
  unfold next? at h
  split at h
  · cases h
  · split_ifs at h with hblank hopen hclose hseparator
    · cases h
      exact List.forall_mem_singleton.mpr hblank
    · cases h
      exact congrArg (fun c => [c]) hopen
    · cases h
      exact congrArg (fun c => [c]) hclose
    · cases h
      exact ⟨congrArg (fun c => [c]) hseparator.1, hseparator.2⟩
    · exact fits_of_lexical? h

/-- Where no piece begins, there is neither a blank nor a parenthesis. -/
theorem head_of_next?_eq_none {last : Preceding} {c : Char} {rest : List Char}
    (h : next? last (c :: rest) = none) : Text.isBlank c = false ∧ c ≠ '(' ∧ c ≠ ')' := by
  unfold next? at h
  dsimp only at h
  split_ifs at h with hblank hopen hclose
  · exact ⟨by simpa using hblank, hopen, hclose⟩

end Piece

end Formula
