import Formula.Proofs.Document

/-!
# Reading strings and numbers

Readers for the parts of a JSON text that hold no others: the characters of a string, the digits,
point and exponent of a number, and the three words. Each reader takes what the grammar allows and
nothing else, and what it takes is what the grammar says.
-/

namespace Formula.Document

open Lexeme (IsDigits forall_mem_takeWhile takeWhile_isDigit)

/-- A character from the front of the inside of a string. -/
def character? : List Char → Option (Char × List Char)
  | '\x5c' :: 'u' :: rest => do
    let high ← codeUnit? (rest.take 4)
    if high < 0xd800 ∨ 0xe000 ≤ high then some (.ofNat high, rest.drop 4)
    else
      -- Half of a surrogate pair is no character; the other half has to follow.
      match rest.drop 4 with
      | '\x5c' :: 'u' :: rest => do
        let low ← codeUnit? (rest.take 4)
        if high < 0xdc00 ∧ 0xdc00 ≤ low ∧ low < 0xe000 then
          some (ofSurrogates high low, rest.drop 4)
        else none
      | _ => none
  | '\x5c' :: letter :: rest => (shortEscapes.lookup letter).map (·, rest)
  | c :: rest => if 0x20 ≤ c.toNat ∧ c ≠ '\x22' ∧ c ≠ '\x5c' then some (c, rest) else none
  | [] => none

/-- At most so many characters, up to the quotation mark behind them. -/
def characters? : Nat → List Char → Option (List Char × List Char)
  | 0, _ => none
  | _ + 1, '\x22' :: rest => some ([], rest)
  | n + 1, cs => do
    let (c, rest) ← character? cs
    let (s, rest) ← characters? n rest
    return (c :: s, rest)

/-- The places behind the point of a number, if there is a point, and what stands behind them. -/
def fraction? : List Char → Option (List Char × List Char)
  | '.' :: tail =>
    let places := tail.takeWhile Char.isDigit
    if places = [] then none else some (places, tail.dropWhile Char.isDigit)
  | cs => some ([], cs)

/-- The exponent of a number, if there is one, and nothing behind it. -/
def power? : List Char → Option Int
  | [] => some 0
  | letter :: tail =>
    if letter = 'e' ∨ letter = 'E' then Decimal.readExponent? tail else none

/-- A number without its sign. -/
def magnitude? (cs : List Char) : Option Decimal :=
  let whole := cs.takeWhile Char.isDigit
  if whole = [] ∨ whole.head? = some '0' ∧ whole ≠ ['0'] then none
  else do
    let (places, rest) ← fraction? (cs.dropWhile Char.isDigit)
    let e ← power? rest
    return Decimal.normalize ⟨Decimal.ofDigits (whole ++ places), e - places.length⟩

/-- The characters of numbers and of the three words. -/
def isWordChar (c : Char) : Bool :=
  c.isAlphanum || c == '.' || c == '+' || c == '-'

/-- What a word says. -/
def ofWord? (word : List Char) : Option Document :=
  if word = "null".toList then some .null
  else if word = "true".toList then some (.truth true)
  else if word = "false".toList then some (.truth false)
  else
    match word with
    | '-' :: digits => (magnitude? digits).map (.number true)
    | digits => (magnitude? digits).map (.number false)

section Characters

variable {c : Char} {cs rest piece : List Char}

theorem length_of_codeUnit? {n : Nat} (h : codeUnit? cs = some n) : cs.length = 4 := by
  unfold codeUnit? at h
  split at h
  · rfl
  · cases h

theorem codeUnit?_take {n : Nat} (h : codeUnit? cs = some n) (rest : List Char) :
    codeUnit? ((cs ++ rest).take 4) = some n ∧ (cs ++ rest).drop 4 = rest := by
  rw [← length_of_codeUnit? h, List.take_left, List.drop_left]
  exact ⟨h, rfl⟩

theorem character?_append (h : IsCharacter c piece) (rest : List Char) :
    character? (piece ++ rest) = some (c, rest) := by
  cases h with
  | plain hvisible hquote hbackslash => simp [character?, hvisible, hquote, hbackslash]
  | short hletter =>
    simp only [shortEscapes, List.mem_cons, List.not_mem_nil, or_false, Prod.mk.injEq] at hletter
    rcases hletter with ⟨rfl, rfl⟩ | ⟨rfl, rfl⟩ | ⟨rfl, rfl⟩ | ⟨rfl, rfl⟩ | ⟨rfl, rfl⟩ |
      ⟨rfl, rfl⟩ | ⟨rfl, rfl⟩ | ⟨rfl, rfl⟩ <;> rfl
  | scalar hunit hscalar =>
    obtain ⟨htake, hdrop⟩ := codeUnit?_take hunit rest
    simp [character?, htake, hdrop, hscalar]
  | @pair high low cs ds hhigh hlow hfirst hsecond =>
    obtain ⟨htake, hdrop⟩ := codeUnit?_take hhigh ('\x5c' :: 'u' :: ds ++ rest)
    obtain ⟨htakeLow, hdropLow⟩ := codeUnit?_take hlow rest
    have hscalar : ¬(high < 0xd800 ∨ 0xe000 ≤ high) := by omega
    rw [List.append_assoc]
    simp only [List.cons_append] at htake hdrop ⊢
    simp [character?, htake, hdrop, htakeLow, hdropLow, hscalar, hfirst, hsecond]

theorem exists_isCharacter (h : character? cs = some (c, rest)) :
    ∃ piece, IsCharacter c piece ∧ cs = piece ++ rest := by
  unfold character? at h
  split at h
  · rename_i tail
    obtain ⟨high, hhigh, h⟩ := Option.bind_eq_some_iff.mp h
    have htail := List.take_append_drop 4 tail
    split at h
    · rename_i hscalar
      cases h
      exact ⟨_, .scalar hhigh hscalar, by simp [htail]⟩
    · rename_i hsurrogate
      split at h
      · rename_i behind hdrop
        obtain ⟨low, hlow, h⟩ := Option.bind_eq_some_iff.mp h
        split at h
        · rename_i hrange
          simp only [Option.some.injEq, Prod.mk.injEq] at h
          obtain ⟨rfl, rfl⟩ := h
          refine ⟨_, .pair hhigh hlow ⟨by omega, hrange.1⟩ hrange.2, ?_⟩
          rw [hdrop] at htail
          simp [htail]
        · cases h
      · cases h
  · obtain ⟨_, hlookup, heq⟩ := Option.map_eq_some_iff.mp h
    cases heq
    obtain ⟨before, behind, htable, _⟩ := List.lookup_eq_some_iff.mp hlookup
    exact ⟨_, .short (by simp [htable]), rfl⟩
  · split at h
    · rename_i hplain
      cases h
      exact ⟨_, .plain hplain.1 hplain.2.1 hplain.2.2, rfl⟩
    · cases h
  · cases h

theorem IsCharacter.exists_head (h : IsCharacter c piece) :
    ∃ d tail, piece = d :: tail ∧ d ≠ '\x22' := by
  cases h with
  | plain _ hquote _ => exact ⟨_, _, rfl, hquote⟩
  | short => exact ⟨_, _, rfl, by decide⟩
  | scalar => exact ⟨_, _, rfl, by decide⟩
  | pair => exact ⟨_, _, rfl, by decide⟩

theorem length_le_length_flatMap {pieces : List (Char × List Char)}
    (hpieces : ∀ p ∈ pieces, IsCharacter p.1 p.2) :
    pieces.length ≤ (pieces.flatMap Prod.snd).length := by
  induction pieces with
  | nil => simp
  | cons p pieces ih =>
    obtain ⟨hp, hpieces⟩ := List.forall_mem_cons.mp hpieces
    obtain ⟨d, tail, heq, _⟩ := hp.exists_head
    have htail := ih hpieces
    simp only [List.flatMap_cons, List.length_append, List.length_cons, heq]
    omega

/-- The inside of a string is read up to its quotation mark. -/
theorem characters?_append {pieces : List (Char × List Char)} {n : Nat}
    (hpieces : ∀ p ∈ pieces, IsCharacter p.1 p.2) (hn : pieces.length < n) (rest : List Char) :
    characters? n (pieces.flatMap Prod.snd ++ '\x22' :: rest) =
      some (pieces.map Prod.fst, rest) := by
  induction pieces generalizing n with
  | nil =>
    obtain ⟨n, rfl⟩ := Nat.exists_eq_succ_of_ne_zero (Nat.ne_of_gt hn)
    simp [characters?]
  | cons p pieces ih =>
    obtain ⟨n, rfl⟩ := Nat.exists_eq_succ_of_ne_zero (Nat.ne_of_gt (Nat.zero_lt_of_lt hn))
    obtain ⟨hp, hpieces⟩ := List.forall_mem_cons.mp hpieces
    have hread := character?_append hp (pieces.flatMap Prod.snd ++ '\x22' :: rest)
    have htail := ih hpieces (Nat.lt_of_succ_lt_succ hn)
    obtain ⟨d, tail, heq, hquote⟩ := hp.exists_head
    rw [heq, List.cons_append] at hread
    simp only [List.flatMap_cons, List.append_assoc, heq, List.cons_append, List.map_cons]
    simp [characters?, hquote, hread, htail]

theorem exists_pieces {n : Nat} {s : List Char} (h : characters? n cs = some (s, rest)) :
    ∃ pieces : List (Char × List Char), (∀ p ∈ pieces, IsCharacter p.1 p.2) ∧
      s = pieces.map Prod.fst ∧ cs = pieces.flatMap Prod.snd ++ '\x22' :: rest := by
  induction n generalizing cs s with
  | zero => cases h
  | succ n ih =>
    unfold characters? at h
    split at h
    · contradiction
    · cases h
      exact ⟨[], by simp, rfl, rfl⟩
    · rename_i hsucc _
      cases hsucc
      obtain ⟨⟨c, behind⟩, hfirst, h⟩ := Option.bind_eq_some_iff.mp h
      obtain ⟨⟨tail, _⟩, htail, heq⟩ := Option.bind_eq_some_iff.mp h
      cases heq
      obtain ⟨piece, hpiece, rfl⟩ := exists_isCharacter hfirst
      obtain ⟨pieces, hpieces, rfl, rfl⟩ := ih htail
      exact ⟨(c, piece) :: pieces, List.forall_mem_cons.mpr ⟨hpiece, hpieces⟩, by simp, by simp⟩

end Characters

section Numbers

variable {cs rest places fraction power : List Char} {e : Int} {d : Decimal}

/-- Characters are told apart by a class that only one of them is in. -/
theorem ne_of_class {p : Char → Bool} {a b : Char} (ha : p a = true) (hb : p b = false) :
    a ≠ b := by
  rintro rfl
  rw [ha] at hb
  cases hb

theorem power?_eq_some_iff : power? cs = some e ↔ IsPower e cs := by
  constructor
  · intro h
    -- The sign has been read; what is left must be digits.
    have hsigned : ∀ (digits : List Char) (n : Int),
        (if digits.isEmpty || !digits.all Char.isDigit then none else some n) = some e →
          IsDigits digits ∧ n = e := by
      intro digits n h
      split at h
      · cases h
      · rename_i hdigits
        exact ⟨by simpa [IsDigits] using hdigits, Option.some.inj h⟩
    unfold power? at h
    split at h
    · cases h
      exact .missing
    · split at h
      · rename_i letter tail hletter
        unfold Decimal.readExponent? at h
        split at h
        rename_i hsign
        obtain ⟨hdigits, rfl⟩ := hsigned _ _ h
        split at hsign <;> cases hsign
        · exact .minus hletter hdigits
        · exact .plus hletter hdigits
        · exact .unsigned hletter hdigits
      · cases h
  · intro h
    cases h with
    | missing => rfl
    | @unsigned letter digits hletter hdigits =>
      obtain ⟨c, tail, rfl, hdigit⟩ := hdigits.exists_head
      have hminus : c ≠ '-' := ne_of_class hdigit (by decide)
      have hplus : c ≠ '+' := ne_of_class hdigit (by decide)
      have hall : ∀ d ∈ tail, d.isDigit = true := fun d hd => hdigits.2 d (by simp [hd])
      simpa [power?, hletter, Decimal.readExponent?, hminus, hplus, hdigit] using hall
    | plus hletter hdigits =>
      simpa [power?, hletter, Decimal.readExponent?, hdigits.1] using hdigits.2
    | minus hletter hdigits =>
      simpa [power?, hletter, Decimal.readExponent?, hdigits.1] using hdigits.2

/-- An exponent begins with its letter, which is no part of the digits. -/
theorem IsPower.head (h : IsPower e power) : ∀ c ∈ power.head?, c.isDigit = false ∧ c ≠ '.' := by
  have hletters : ('e'.isDigit = false ∧ 'e' ≠ '.') ∧ 'E'.isDigit = false ∧ 'E' ≠ '.' := by decide
  cases h with
  | missing => simp
  | unsigned hletter _ | plus hletter _ | minus hletter _ =>
    rcases hletter with rfl | rfl <;> simp [hletters]

theorem fraction?_append (h : IsFraction places fraction)
    (hrest : ∀ c ∈ rest.head?, c.isDigit = false ∧ c ≠ '.') :
    fraction? (fraction ++ rest) = some (places, rest) := by
  cases h with
  | missing =>
    unfold fraction?
    split
    · rename_i hpoint
      rw [List.nil_append] at hpoint
      exact absurd rfl (hrest '.' (by simp [hpoint])).2
    · rfl
  | point hplaces =>
    obtain ⟨htake, hdrop⟩ := takeWhile_isDigit hplaces.2 rest fun c hc => (hrest c hc).1
    simp [fraction?, htake, hdrop, hplaces.1]

theorem exists_isFraction (h : fraction? cs = some (places, rest)) :
    ∃ fraction, IsFraction places fraction ∧ cs = fraction ++ rest := by
  unfold fraction? at h
  split at h
  · dsimp only at h
    split at h
    · cases h
    · rename_i tail hsome
      cases h
      exact ⟨_, .point ⟨hsome, forall_mem_takeWhile tail⟩, by simp⟩
  · cases h
    exact ⟨_, .missing, rfl⟩

theorem isWhole_iff :
    IsWhole cs ↔ (∀ c ∈ cs, c.isDigit = true) ∧ ¬(cs = [] ∨ cs.head? = some '0' ∧ cs ≠ ['0']) := by
  grind [IsWhole, IsDigits]

/-- The digits behind the point and the exponent do not begin with a digit. -/
theorem IsFraction.head_append (h : IsFraction places fraction) (hpower : IsPower e power) :
    ∀ c ∈ (fraction ++ power).head?, c.isDigit = false := by
  cases h with
  | missing => exact fun c hc => (hpower.head c hc).1
  | point => simp

theorem magnitude?_eq_some_iff : magnitude? cs = some d ↔ IsMagnitude d cs := by
  constructor
  · intro h
    unfold magnitude? at h
    dsimp only at h
    split at h
    · cases h
    · rename_i hsome
      obtain ⟨⟨places, rest⟩, hfraction, h⟩ := Option.bind_eq_some_iff.mp h
      obtain ⟨e, hpower, h⟩ := Option.bind_eq_some_iff.mp h
      obtain rfl := Option.some.inj h
      obtain ⟨fraction, hplaces, hbehind⟩ := exists_isFraction hfraction
      have hwhole := isWhole_iff.mpr ⟨forall_mem_takeWhile cs, hsome⟩
      have hparts := IsMagnitude.parts hwhole hplaces (power?_eq_some_iff.mp hpower)
      rwa [List.append_assoc, ← hbehind, List.takeWhile_append_dropWhile] at hparts
  · rintro ⟨hwhole, hfraction, hpower⟩
    rename_i whole places fraction power e
    obtain ⟨hdigits, hsome⟩ := isWhole_iff.mp hwhole
    obtain ⟨htake, hdrop⟩ := takeWhile_isDigit hdigits (fraction ++ power)
      (hfraction.head_append hpower)
    have hbehind := fraction?_append hfraction hpower.head
    rw [List.append_assoc]
    simp [magnitude?, htake, hdrop, hsome, hbehind, power?_eq_some_iff.mpr hpower]

/-- A number begins with a digit. -/
theorem IsMagnitude.exists_head (h : IsMagnitude d cs) :
    ∃ c tail, cs = c :: tail ∧ c.isDigit = true := by
  cases h with
  | parts hwhole _ _ =>
    obtain ⟨c, tail, rfl, hdigit⟩ := hwhole.1.exists_head
    exact ⟨c, _, rfl, hdigit⟩

theorem isWordChar_of_isDigit {c : Char} (h : c.isDigit = true) : isWordChar c = true := by
  simp [isWordChar, Char.isAlphanum, h]

theorem IsMagnitude.isWordChar (h : IsMagnitude d cs) : ∀ c ∈ cs, isWordChar c = true := by
  have hdigits : ∀ {digits : List Char}, IsDigits digits →
      ∀ c ∈ digits, Document.isWordChar c = true :=
    fun hdigits c hc => isWordChar_of_isDigit (hdigits.2 c hc)
  have hmarks : Document.isWordChar '.' = true ∧ Document.isWordChar '+' = true ∧
      Document.isWordChar '-' = true ∧ Document.isWordChar 'e' = true ∧
      Document.isWordChar 'E' = true := by decide
  obtain ⟨hwhole, hfraction, hpower⟩ := h
  simp only [List.forall_mem_append]
  refine ⟨⟨hdigits hwhole.1, ?_⟩, ?_⟩
  · cases hfraction with
    | missing => simp
    | point hplaces => exact List.forall_mem_cons.mpr ⟨hmarks.1, hdigits hplaces⟩
  · cases hpower with
    | missing => simp
    | unsigned hletter htail =>
      rcases hletter with rfl | rfl <;> simpa [hmarks] using hdigits htail
    | plus hletter htail =>
      rcases hletter with rfl | rfl <;> simpa [hmarks] using hdigits htail
    | minus hletter htail =>
      rcases hletter with rfl | rfl <;> simpa [hmarks] using hdigits htail

theorem isWordChar_null : ∀ c ∈ "null".toList, isWordChar c = true :=
  List.all_eq_true.mp rfl

theorem isWordChar_truth (b : Bool) : ∀ c ∈ (toString b).toList, isWordChar c = true := by
  cases b <;> exact List.all_eq_true.mp rfl

theorem ofWord?_of_isMagnitude (h : IsMagnitude d cs) :
    ofWord? cs = some (.number false d) ∧ ofWord? ('-' :: cs) = some (.number true d) := by
  obtain ⟨c, tail, rfl, hdigit⟩ := h.exists_head
  have hn : c ≠ 'n' := ne_of_class hdigit (by decide)
  have ht : c ≠ 't' := ne_of_class hdigit (by decide)
  have hf : c ≠ 'f' := ne_of_class hdigit (by decide)
  have hminus : c ≠ '-' := ne_of_class hdigit (by decide)
  have hread := magnitude?_eq_some_iff.mpr h
  constructor
  · simp [ofWord?, hn, ht, hf, hminus, hread]
  · simp [ofWord?, hread]

theorem isText_of_ofWord? {v : Document} (h : ofWord? cs = some v) : IsText v cs := by
  unfold ofWord? at h
  split at h
  · rename_i hword
    cases h
    exact hword ▸ .null
  · split at h
    · rename_i hword
      cases h
      exact hword ▸ .truth true
    · split at h
      · rename_i hword
        cases h
        exact hword ▸ .truth false
      · split at h
        · obtain ⟨d, hd, heq⟩ := Option.map_eq_some_iff.mp h
          exact heq ▸ .negative (magnitude?_eq_some_iff.mp hd)
        · obtain ⟨d, hd, heq⟩ := Option.map_eq_some_iff.mp h
          exact heq ▸ .positive (magnitude?_eq_some_iff.mp hd)

end Numbers

end Formula.Document
