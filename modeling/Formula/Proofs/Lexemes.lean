import Formula.Decimal.Numeral
import Formula.Piece
import Mathlib.Data.List.TakeWhile

/-!
# Lexemes in front of a boundary

Behind a lexeme a text may go on with a blank, a parenthesis or a separator. None of them can belong
to a numeral, an infix operator or a name, so what is a whole lexeme alone is matched as a whole in
front of them, and never more than it.
-/

namespace Formula

/-- The characters that end every lexeme: blanks, parentheses and the separator. -/
def isDelimiter (c : Char) : Bool :=
  Text.isBlank c || c = '(' || c = ')' || c = ','

/-- Text in front of which every lexeme ends: a delimiter, or nothing. -/
def Boundary (cs : List Char) : Prop :=
  ∀ c ∈ cs.head?, isDelimiter c = true

/-- Delimiters are few among the characters with small codes. -/
theorem code_of_isDelimiter {c : Char} (h : isDelimiter c = true) :
    c.toNat ≤ 32 ∨ c.toNat = 40 ∨ c.toNat = 41 ∨ c.toNat = 44 ∨ 127 < c.toNat := by
  simp only [isDelimiter, Bool.or_eq_true, decide_eq_true_eq] at h
  rcases h with ((hblank | rfl) | rfl) | rfl
  · obtain ⟨r, hr, hfirst, hlast⟩ := Text.inRanges_eq_true_iff.mp hblank
    have hranges : ∀ r ∈ Text.blankRanges, r.2 ≤ 32 ∨ 127 < r.1 := by decide
    have := hranges r hr
    omega
  all_goals decide

theorem isDelimiter_eq_false {c : Char} (hlow : 45 ≤ c.toNat) (hhigh : c.toNat ≤ 127) :
    isDelimiter c = false := by
  by_contra hdelimiter
  have := code_of_isDelimiter (by simpa using hdelimiter)
  omega

theorem code_of_isLower {c : Char} (h : c.isLower = true) : 97 ≤ c.toNat ∧ c.toNat ≤ 122 := by
  obtain ⟨hlow, hhigh⟩ := Bool.and_eq_true_iff.mp h
  exact ⟨UInt32.le_iff_toNat_le.mp (of_decide_eq_true hlow),
    UInt32.le_iff_toNat_le.mp (of_decide_eq_true hhigh)⟩

theorem code_of_isDigit {c : Char} (h : c.isDigit = true) : 48 ≤ c.toNat ∧ c.toNat ≤ 57 := by
  simp only [Char.isDigit, Bool.and_eq_true, decide_eq_true_eq, ge_iff_le,
    UInt32.le_iff_toNat_le] at h
  exact h

theorem isDelimiter_of_isDigit {c : Char} (h : c.isDigit = true) : isDelimiter c = false := by
  have hcode := code_of_isDigit h
  exact isDelimiter_eq_false (by omega) (by omega)

theorem isDelimiter_of_isLower {c : Char} (h : c.isLower = true) : isDelimiter c = false := by
  have hcode := code_of_isLower h
  exact isDelimiter_eq_false (by omega) (by omega)

theorem isDelimiter_of_isNameChar {c : Char} (h : Lexeme.isNameChar c = true) :
    isDelimiter c = false := by
  simp only [Lexeme.isNameChar, Bool.or_eq_true, beq_iff_eq] at h
  rcases h with ((hlower | hdigit) | rfl) | rfl
  · exact isDelimiter_of_isLower hlower
  · exact isDelimiter_of_isDigit hdigit
  · decide
  · decide

namespace Boundary

variable {c d : Char} {cs : List Char}

theorem head_eq_false {p : Char → Bool} (h : Boundary cs)
    (hp : ∀ c, p c = true → isDelimiter c = false) : ∀ c ∈ cs.head?, p c = false := by
  intro c hc
  by_contra htrue
  have hfalse := hp c (by simpa using htrue)
  rw [h c hc] at hfalse
  cases hfalse

theorem head_ne (h : Boundary (c :: cs)) (hd : isDelimiter d = false) : c ≠ d := by
  rintro rfl
  rw [h c rfl] at hd
  cases hd

end Boundary

section Take

variable {α : Type} {p : α → Bool} {back : List α}

theorem takeWhile_append_of_head (h : ∀ c ∈ back.head?, p c = false) (front : List α) :
    (front ++ back).takeWhile p = front.takeWhile p := by
  have hback : back.takeWhile p = [] := by
    cases back with
    | nil => rfl
    | cons c rest => simp [h c rfl]
  rw [List.takeWhile_append, hback, List.append_nil]
  split
  · rename_i hlength
    exact ((List.takeWhile_prefix p).eq_of_length hlength).symm
  · rfl

theorem dropWhile_append_of_head (h : ∀ c ∈ back.head?, p c = false) (front : List α) :
    (front ++ back).dropWhile p = front.dropWhile p ++ back := by
  have hback : back.dropWhile p = back := by
    cases back with
    | nil => rfl
    | cons c rest => simp [h c rfl]
  rw [List.dropWhile_append, hback]
  split
  · rename_i hempty
    rw [List.isEmpty_iff.mp hempty, List.nil_append]
  · rfl

end Take

namespace Lexeme

variable {lexeme cs : List Char}

/-- The digits of a numeral end at a boundary. -/
theorem mantissa?_boundary {u digits rest : List Char} (hcs : Boundary cs)
    (h : mantissa? u = some (digits, rest)) :
    mantissa? (u ++ cs) = some (digits, rest ++ cs) := by
  have hdigit := hcs.head_eq_false (p := Char.isDigit) fun c => isDelimiter_of_isDigit
  unfold mantissa? at h ⊢
  dsimp only at h ⊢
  rw [takeWhile_append_of_head hdigit, dropWhile_append_of_head hdigit]
  split at h
  · rename_i tail htail
    rw [htail]
    simp only [List.cons_append]
    rw [takeWhile_append_of_head hdigit, dropWhile_append_of_head hdigit]
    split at h
    · cases h
    · rename_i hsome
      cases h
      rw [if_neg hsome]
  · rename_i hpoint
    split at h
    · cases h
    · rename_i hsome
      cases h
      split
      · rename_i tail htail
        rcases List.append_eq_cons_iff.mp htail with ⟨-, rfl⟩ | ⟨more, hmore, -⟩
        · exact absurd rfl (hcs.head_ne (by decide : isDelimiter '.' = false))
        · exact absurd hmore (hpoint more)
      · rw [if_neg hsome]

theorem minus_append_of_ne_nil {u : List Char} (hne : u ≠ []) :
    minus (u ++ cs) = ((minus u).1, (minus u).2 ++ cs) := by
  cases u with
  | nil => exact absurd rfl hne
  | cons c rest =>
    unfold minus
    split
    · rename_i heq
      cases heq
      rfl
    · rename_i hminus
      split
      · rename_i heq
        cases heq
        exact absurd rfl (hminus _)
      · rfl

theorem sign_append_of_ne_nil {u : List Char} (hne : u ≠ []) :
    sign (u ++ cs) = ((sign u).1, (sign u).2 ++ cs) := by
  cases u with
  | nil => exact absurd rfl hne
  | cons c rest =>
    unfold sign
    by_cases hminus : c = '-'
    · subst hminus
      rfl
    · by_cases hplus : c = '+'
      · subst hplus
        rfl
      · simp_all

/-- An exponent that is all there is ends at a boundary, and so does a missing one. -/
theorem exponent_boundary {u : List Char} (hcs : Boundary cs) (h : (exponent u).2 = []) :
    exponent (u ++ cs) = ((exponent u).1, cs) := by
  have hdigit := hcs.head_eq_false (p := Char.isDigit) fun c => isDelimiter_of_isDigit
  cases u with
  | nil =>
    cases cs with
    | nil => rfl
    | cons c rest =>
      have hletter : c ≠ 'e' := hcs.head_ne (by decide)
      simp [exponent, hletter]
  | cons c tail =>
    by_cases hletter : c = 'e'
    · subst hletter
      simp only [exponent] at h
      split at h
      · cases h
      · rename_i hsome
        have htail : tail ≠ [] := by
          rintro rfl
          exact hsome rfl
        simp only [List.cons_append, exponent, sign_append_of_ne_nil htail] at h ⊢
        rw [takeWhile_append_of_head hdigit, dropWhile_append_of_head hdigit, if_neg hsome,
          if_neg hsome, h, List.nil_append]
    · simp [exponent, hletter] at h

/-- A numeral ends at a boundary. -/
theorem numeral?_boundary (hcs : Boundary cs) (h : numeral? lexeme = some (lexeme, [])) :
    numeral? (lexeme ++ cs) = some (lexeme, cs) := by
  have hne := (numeral?_append h).2
  unfold numeral? at h ⊢
  rw [minus_append_of_ne_nil hne]
  dsimp only at h ⊢
  split at h
  · cases h
  · rename_i digits rest hdigits
    simp only [Option.some.injEq, Prod.mk.injEq] at h
    rw [mantissa?_boundary hcs hdigits]
    dsimp only
    rw [exponent_boundary hcs h.2]
    simp only [h.1]

/-- The end of a name is at a boundary, with its apostrophe or without one. -/
theorem apostrophe_boundary {u : List Char} (hcs : Boundary cs) (h : (apostrophe u).2 = []) :
    apostrophe (u ++ cs) = ((apostrophe u).1, cs) := by
  cases u with
  | nil =>
    cases cs with
    | nil => rfl
    | cons c rest =>
      have hmark : c ≠ '\x27' := hcs.head_ne (by decide)
      simp [apostrophe, hmark]
  | cons c tail =>
    by_cases hmark : c = '\x27'
    · subst hmark
      rw [show tail = [] from h]
      rfl
    · simp [apostrophe, hmark] at h

/-- A name ends at a boundary. -/
theorem name?_boundary (hcs : Boundary cs) (h : name? lexeme = some (lexeme, [])) :
    name? (lexeme ++ cs) = some (lexeme, cs) := by
  have hname := hcs.head_eq_false (p := isNameChar) fun c => isDelimiter_of_isNameChar
  cases lexeme with
  | nil => cases h
  | cons c tail =>
    simp only [List.cons_append, name?] at h ⊢
    by_cases hsign : c = '!' ∨ c = '-'
    · rw [if_pos hsign] at h ⊢
      simp only [Option.some.injEq, Prod.mk.injEq, List.cons.injEq, true_and] at h
      rw [h.2, List.nil_append]
    · rw [if_neg hsign] at h ⊢
      by_cases hlower : c.isLower = true
      · rw [if_pos hlower] at h ⊢
        rw [takeWhile_append_of_head hname, dropWhile_append_of_head hname]
        simp only [Option.some.injEq, Prod.mk.injEq] at h
        rw [apostrophe_boundary hcs h.2]
        simp only [h.1]
      · rw [if_neg hlower] at h
        cases h

/-- An infix operator ends at a boundary. -/
theorem infixOp?_boundary (hcs : Boundary cs) (h : lexeme ∈ infixSpellings) :
    infixOp? (lexeme ++ cs) = some (lexeme, cs) := by
  cases cs with
  | nil =>
    have hall : ∀ l ∈ infixSpellings, infixOp? (l ++ []) = some (l, []) := by decide
    exact hall lexeme h
  | cons c rest =>
    have hequal : '=' ≠ c := (hcs.head_ne (by decide)).symm
    have hgreater : '>' ≠ c := (hcs.head_ne (by decide)).symm
    simp only [infixSpellings, List.mem_cons, List.not_mem_nil, or_false] at h
    rcases h with rfl | rfl | rfl | rfl | rfl | rfl | rfl | rfl | rfl | rfl | rfl | rfl | rfl | rfl
      | rfl <;> simp [infixOp?, infixSpellings, List.isPrefixOf, hequal, hgreater]

/-- Digits begin with a digit or a point. -/
theorem mantissa?_eq_none {u : List Char} (h : ∀ c ∈ u.head?, c.isDigit = false ∧ c ≠ '.') :
    mantissa? u = none := by
  have hdigit : ∀ c ∈ u.head?, c.isDigit = false := fun c hc => (h c hc).1
  have hwhole := takeWhile_append_of_head hdigit []
  have hrest := dropWhile_append_of_head hdigit []
  rw [List.nil_append] at hwhole hrest
  unfold mantissa?
  dsimp only
  rw [hwhole, hrest]
  split
  · rename_i tail htail
    rw [List.dropWhile_nil, List.nil_append] at htail
    exact absurd rfl (h '.' (by rw [htail]; rfl)).2
  · rfl

theorem numeral?_eq_none {c : Char} {u : List Char} (hminus : c ≠ '-') (hpoint : c ≠ '.')
    (hdigit : c.isDigit = false) : numeral? (c :: u) = none := by
  have hsign : minus (c :: u) = ([], c :: u) := by simp [minus, hminus]
  have hmantissa : mantissa? (c :: u) = none :=
    mantissa?_eq_none fun d hd => by
      cases hd
      exact ⟨hdigit, hpoint⟩
  simp [numeral?, hsign, hmantissa]

/-- A numeral begins with its sign, a point or a digit. -/
theorem head_of_numeral? {c : Char} {u rest matched : List Char}
    (h : numeral? (c :: u) = some (matched, rest)) : c = '-' ∨ c = '.' ∨ c.isDigit = true := by
  by_contra hhead
  rw [not_or, not_or, Bool.not_eq_true] at hhead
  rw [numeral?_eq_none hhead.1 hhead.2.1 hhead.2.2] at h
  cases h

/-- A sign alone is no numeral. -/
theorem numeral?_minus (hcs : Boundary cs) : numeral? ('-' :: cs) = none := by
  have hmantissa : mantissa? cs = none :=
    mantissa?_eq_none fun c hc =>
      ⟨hcs.head_eq_false (fun d => isDelimiter_of_isDigit) c hc, by
        rintro rfl
        exact absurd (hcs '.' hc) (by decide)⟩
  simp [numeral?, minus, hmantissa]

/-- An infix operator does not begin with a letter. -/
theorem infixOp?_eq_none {c : Char} {u : List Char} (h : c.isLower = true) :
    infixOp? (c :: u) = none := by
  have hheads : ∀ l ∈ infixSpellings, ∃ d tail, l = d :: tail ∧ d.isLower = false := by
    simp only [infixSpellings, List.mem_cons, List.not_mem_nil, or_false]
    rintro l (rfl | rfl | rfl | rfl | rfl | rfl | rfl | rfl | rfl | rfl | rfl | rfl | rfl | rfl |
      rfl) <;> exact ⟨_, _, rfl, by decide⟩
  rw [infixOp?, Option.map_eq_none_iff, List.find?_eq_none]
  intro l hl hstarts
  obtain ⟨d, tail, rfl, hd⟩ := hheads l hl
  obtain ⟨rfl, -⟩ := List.cons_prefix_cons.mp (List.isPrefixOf_iff_prefix.mp hstarts)
  rw [hd] at h
  cases h

/-- The sign of negation alone is no infix operator. -/
theorem infixOp?_bang (hcs : Boundary cs) : infixOp? ('!' :: cs) = none := by
  cases cs with
  | nil => decide
  | cons c rest =>
    have hequal : '=' ≠ c := (hcs.head_ne (by decide)).symm
    simp [infixOp?, infixSpellings, List.isPrefixOf, hequal]

/-- A name is a sign or begins with a letter. -/
theorem head_of_name? {matched rest : List Char} (h : name? cs = some (matched, rest)) :
    matched = ['!'] ∨ matched = ['-'] ∨ ∃ c tail, matched = c :: tail ∧ c.isLower = true := by
  unfold name? at h
  split at h
  · cases h
  · split at h
    · rename_i hsign
      cases h
      rcases hsign with rfl | rfl
      · exact .inl rfl
      · exact .inr (.inl rfl)
    · split at h
      · rename_i hlower
        cases h
        exact .inr (.inr ⟨_, _, rfl, hlower⟩)
      · cases h

end Lexeme

namespace Piece

variable {last : Preceding} {lexeme cs : List Char}

theorem next?_of_head {c : Char} {rest : List Char} (h : isDelimiter c = false) :
    next? last (c :: rest) = lexical? last (c :: rest) := by
  simp only [isDelimiter, Bool.or_eq_false_iff, decide_eq_false_iff_not] at h
  simp [next?, h]

/-- A numeral is the next piece where no value is before it. -/
theorem next?_number (hcs : Boundary cs) (h : Lexeme.numeral? lexeme = some (lexeme, []))
    (hlast : last ≠ .value) : next? last (lexeme ++ cs) = some ⟨.number, lexeme, cs⟩ := by
  obtain ⟨c, tail, rfl⟩ := List.exists_cons_of_ne_nil (Lexeme.numeral?_append h).2
  have hdelimiter : isDelimiter c = false := by
    rcases Lexeme.head_of_numeral? h with rfl | rfl | hdigit
    · decide
    · decide
    · exact isDelimiter_of_isDigit hdigit
  rw [List.cons_append, next?_of_head hdelimiter, ← List.cons_append, lexical?, if_neg hlast,
    if_neg hlast, Lexeme.numeral?_boundary hcs h]
  rfl

/-- An infix operator is the next piece behind a value. -/
theorem next?_infixOp (hcs : Boundary cs) (h : lexeme ∈ Lexeme.infixSpellings) :
    next? .value (lexeme ++ cs) = some ⟨.infixOp, lexeme, cs⟩ := by
  have hheads : ∀ l ∈ Lexeme.infixSpellings, ∃ c tail, l = c :: tail ∧ isDelimiter c = false := by
    simp only [Lexeme.infixSpellings, List.mem_cons, List.not_mem_nil, or_false]
    rintro l (rfl | rfl | rfl | rfl | rfl | rfl | rfl | rfl | rfl | rfl | rfl | rfl | rfl | rfl |
      rfl) <;> exact ⟨_, _, rfl, by decide⟩
  obtain ⟨c, tail, rfl, hdelimiter⟩ := hheads lexeme h
  rw [List.cons_append, next?_of_head hdelimiter, ← List.cons_append, lexical?, if_pos rfl,
    Lexeme.infixOp?_boundary hcs h]
  rfl

/-- A name is the next piece, in front of an operand even where it is the sign of one. -/
theorem next?_name (hcs : Boundary cs) (h : Lexeme.name? lexeme = some (lexeme, []))
    (hminus : lexeme = ['-'] → last ≠ .value) :
    next? last (lexeme ++ cs) = some ⟨.name, lexeme, cs⟩ := by
  have hlexical : ∀ {c tail}, lexeme = c :: tail → isDelimiter c = false →
      (last = .value → Lexeme.infixOp? (lexeme ++ cs) = none) →
      (last ≠ .value → Lexeme.numeral? (lexeme ++ cs) = none) →
      next? last (lexeme ++ cs) = some ⟨.name, lexeme, cs⟩ := by
    rintro c tail rfl hdelimiter hinfix hnumeral
    rw [List.cons_append, next?_of_head hdelimiter, ← List.cons_append, lexical?]
    by_cases hlast : last = .value
    · rw [if_pos hlast, if_pos hlast, hinfix hlast, Lexeme.name?_boundary hcs h]
      rfl
    · rw [if_neg hlast, if_neg hlast, hnumeral hlast, Lexeme.name?_boundary hcs h]
      rfl
  rcases Lexeme.head_of_name? h with rfl | rfl | ⟨c, tail, rfl, hlower⟩
  · exact hlexical rfl (by decide) (fun _ => Lexeme.infixOp?_bang hcs) fun _ =>
      Lexeme.numeral?_eq_none (by decide) (by decide) (by decide)
  · exact hlexical rfl (by decide) (fun hlast => absurd hlast (hminus rfl)) fun _ =>
      Lexeme.numeral?_minus hcs
  · have hcode := code_of_isLower hlower
    refine hlexical rfl (isDelimiter_of_isLower hlower)
      (fun _ => Lexeme.infixOp?_eq_none hlower) fun _ => Lexeme.numeral?_eq_none ?_ ?_ ?_
    · rintro rfl
      exact absurd hlower (by decide)
    · rintro rfl
      exact absurd hlower (by decide)
    · by_contra hdigit
      have := code_of_isDigit (by simpa using hdigit)
      omega

end Piece

namespace Decimal

/-- An exponent that is all there is can be read. -/
theorem exists_readExponent? {tail : List Char} (hdigits : (Lexeme.sign tail).2 ≠ [])
    (hall : ∀ c ∈ (Lexeme.sign tail).2, c.isDigit = true) : ∃ e, readExponent? tail = some e := by
  have hsigned : ∀ negative digits, digits ≠ [] → (∀ c ∈ digits, c.isDigit = true) →
      ∃ e : Int, (if digits.isEmpty || !digits.all Char.isDigit then none
        else some (if negative = true then -(ofDigits digits : Int) else ofDigits digits)) =
          some e := by
    intro negative digits hne hdigits
    rw [if_neg (by simpa [hne] using hdigits)]
    exact ⟨_, rfl⟩
  cases tail with
  | nil => exact absurd rfl hdigits
  | cons c rest =>
    by_cases hminus : c = '-'
    · subst hminus
      exact hsigned true rest hdigits hall
    · by_cases hplus : c = '+'
      · subst hplus
        exact hsigned false rest hdigits hall
      · have hsign : Lexeme.sign (c :: rest) = ([], c :: rest) := by
          simp [Lexeme.sign, hminus, hplus]
        rw [hsign] at hdigits hall
        obtain ⟨e, he⟩ := hsigned false (c :: rest) hdigits hall
        refine ⟨e, ?_⟩
        rw [← he]
        simp [readExponent?, hminus, hplus]

/-- What is left of a numeral behind its digits is an exponent that can be read. -/
theorem exists_readExponent?_of_exponent {c : Char} {tail : List Char}
    (h : (Lexeme.exponent (c :: tail)).2 = []) :
    c = 'e' ∧ ∃ e, readExponent? tail = some e := by
  by_cases hletter : c = 'e'
  · subst hletter
    simp only [Lexeme.exponent] at h
    split at h
    · cases h
    · rename_i hsome
      have hall := List.dropWhile_eq_nil_iff.mp h
      refine ⟨rfl, exists_readExponent? ?_ hall⟩
      intro hnil
      rw [hnil] at hsome
      exact hsome rfl
  · simp [Lexeme.exponent, hletter] at h

/-- Digits with an exponent behind them, or without one, can be read. -/
theorem exists_readUnsigned? {u digits rest : List Char}
    (hmantissa : Lexeme.mantissa? u = some (digits, rest)) (hrest : (Lexeme.exponent rest).2 = []) :
    ∃ d, readUnsigned? u = some d := by
  have hwhole : ∀ tail, Lexeme.mantissa? u =
      (if (u.takeWhile Char.isDigit).isEmpty then none
        else some (u.takeWhile Char.isDigit, tail)) →
      (u.takeWhile Char.isDigit).isEmpty = false ∧ tail = rest := by
    intro tail hread
    rw [hread] at hmantissa
    split at hmantissa
    · cases hmantissa
    · rename_i hsome
      cases hmantissa
      exact ⟨by simpa using hsome, rfl⟩
  cases hdrop : u.dropWhile Char.isDigit with
  | nil =>
    obtain ⟨hsome, -⟩ := hwhole [] (by simp [Lexeme.mantissa?, hdrop])
    exact ⟨⟨ofDigits (u.takeWhile Char.isDigit), 0⟩, by simp [readUnsigned?, hdrop, hsome]⟩
  | cons c tail =>
    by_cases hpoint : c = '.'
    · subst hpoint
      simp only [Lexeme.mantissa?, hdrop] at hmantissa
      split at hmantissa
      · cases hmantissa
      · rename_i hsome
        cases hmantissa
        simp only [readUnsigned?, hdrop]
        rw [if_neg hsome]
        cases hpower : tail.dropWhile Char.isDigit with
        | nil => exact ⟨_, rfl⟩
        | cons d power =>
          rw [hpower] at hrest
          obtain ⟨rfl, e, he⟩ := exists_readExponent?_of_exponent hrest
          exact ⟨_, by simp [he]; rfl⟩
    · obtain ⟨hsome, rfl⟩ := hwhole (c :: tail) (by simp [Lexeme.mantissa?, hdrop, hpoint])
      obtain ⟨rfl, e, he⟩ := exists_readExponent?_of_exponent hrest
      exact ⟨⟨ofDigits (u.takeWhile Char.isDigit), e⟩, by simp [readUnsigned?, hdrop, hsome, he]⟩

theorem exists_readMagnitude? {u : List Char} (h : ∃ d, readUnsigned? u = some d) :
    ∃ pattern, readMagnitude? u = some pattern := by
  obtain ⟨d, hd⟩ := h
  unfold readMagnitude?
  dsimp only
  split
  · exact ⟨_, rfl⟩
  · split
    · exact ⟨_, rfl⟩
    · exact ⟨_, by rw [hd]; rfl⟩

/-- Every numeral can be read. -/
theorem exists_readNumeral? {lexeme : String}
    (h : Lexeme.numeral? lexeme.toList = some (lexeme.toList, [])) :
    ∃ value, readNumeral? lexeme = some value := by
  have hunsigned : ∃ d, readUnsigned? (Lexeme.minus lexeme.toList).2 = some d := by
    unfold Lexeme.numeral? at h
    dsimp only at h
    split at h
    · cases h
    · rename_i digits rest hdigits
      simp only [Option.some.injEq, Prod.mk.injEq] at h
      exact exists_readUnsigned? hdigits h.2
  obtain ⟨pattern, hpattern⟩ := exists_readMagnitude? hunsigned
  unfold readNumeral?
  split
  · rename_i rest hminus
    rw [hminus] at hpattern
    exact ⟨_, by rw [show readMagnitude? rest = some pattern from hpattern]; rfl⟩
  · rename_i rest hplus
    rw [hplus, Lexeme.numeral?_eq_none (by decide) (by decide) (by decide)] at h
    cases h
  · rename_i hminus hplus
    have hsign : (Lexeme.minus lexeme.toList).2 = lexeme.toList := by
      unfold Lexeme.minus
      split
      · rename_i rest heq
        exact absurd heq (hminus rest)
      · rfl
    rw [hsign] at hpattern
    exact ⟨_, by rw [hpattern]; rfl⟩

end Decimal

end Formula
