import Formula.Proofs.Grammar

/-!
# Longest matches

Each matcher takes the longest word of its language that the text begins with. What it takes is
therefore fixed by the characters up to the next delimiter, since no word of any of the languages
holds one: a text that is cut there, and goes on in another way, has the same next piece.
-/

namespace Formula

/-- A word of the language in front of the rest of the text; no longer word of the language stands
there. -/
structure Longest (L : List Char → Prop) (cs lexeme rest : List Char) : Prop where
  append : lexeme ++ rest = cs
  mem : L lexeme
  length_le : ∀ other, L other → other <+: cs → other.length ≤ lexeme.length

/-- A matcher takes the longest words of a language: what it takes is one, and it takes no less than
any that is there. -/
structure Matches (L : List Char → Prop) (m : List Char → Option (List Char × List Char)) :
    Prop where
  sound : ∀ cs lexeme rest, m cs = some (lexeme, rest) → lexeme ++ rest = cs ∧ L lexeme
  reaches : ∀ lexeme rest, L lexeme →
    ∃ taken left, m (lexeme ++ rest) = some (taken, left) ∧ lexeme.length ≤ taken.length

namespace Matches

variable {L : List Char → Prop} {m : List Char → Option (List Char × List Char)}
  {cs lexeme rest : List Char}

theorem eq_some_iff (h : Matches L m) :
    m cs = some (lexeme, rest) ↔ Longest L cs lexeme rest := by
  constructor
  · intro htaken
    obtain ⟨happend, hmem⟩ := h.sound cs lexeme rest htaken
    refine ⟨happend, hmem, ?_⟩
    rintro other hother ⟨more, rfl⟩
    obtain ⟨taken, left, hagain, hle⟩ := h.reaches other more hother
    rw [htaken] at hagain
    cases hagain
    exact hle
  · rintro ⟨rfl, hmem, hlongest⟩
    obtain ⟨taken, left, htaken, hle⟩ := h.reaches lexeme rest hmem
    obtain ⟨happend, htakenMem⟩ := h.sound _ _ _ htaken
    have hsame := hlongest taken htakenMem ⟨left, happend⟩
    obtain ⟨rfl, rfl⟩ := List.append_inj happend (by omega)
    exact htaken

theorem eq_none_iff (h : Matches L m) : m cs = none ↔ ∀ lexeme, L lexeme → ¬lexeme <+: cs := by
  constructor
  · rintro hnone lexeme hmem ⟨rest, rfl⟩
    obtain ⟨taken, left, htaken, -⟩ := h.reaches lexeme rest hmem
    rw [hnone] at htaken
    cases htaken
  · intro hnever
    cases htaken : m cs with
    | none => rfl
    | some matched =>
      obtain ⟨happend, hmem⟩ := h.sound cs matched.1 matched.2 htaken
      exact absurd ⟨matched.2, happend⟩ (hnever matched.1 hmem)

end Matches

namespace Lexeme

variable {cs lexeme rest digits power : List Char}

theorem length_le_takeWhile {p : Char → Bool} (h : ∀ c ∈ digits, p c = true)
    (rest : List Char) : digits.length ≤ ((digits ++ rest).takeWhile p).length := by
  rw [List.takeWhile_append_of_pos h, List.length_append]
  omega

theorem IsDigits.takeWhile_append (h : IsDigits digits) (rest : List Char) :
    ((digits ++ rest).takeWhile Char.isDigit).isEmpty = false := by
  rw [List.takeWhile_append_of_pos h.2]
  simp [h.1]

/-- No less than a mantissa is taken where one stands. -/
theorem exists_mantissa? (h : IsMantissa digits) (rest : List Char) :
    ∃ taken left, mantissa? (digits ++ rest) = some (taken, left) ∧
      digits.length ≤ taken.length := by
  have hpoint : ('.' : Char).isDigit = false := by decide
  cases h with
  | whole hdigits =>
    have hle := length_le_takeWhile hdigits.2 rest
    have hne := hdigits.takeWhile_append rest
    unfold mantissa?
    dsimp only
    split
    · rw [hne, Bool.false_and, if_neg (by simp)]
      refine ⟨_, _, rfl, ?_⟩
      rw [List.length_append]
      omega
    · rw [if_neg (by simp [hne])]
      exact ⟨_, _, rfl, hle⟩
  | @point whole places hwhole hplaces =>
    have hle := length_le_takeWhile hplaces rest
    obtain ⟨htake, hdrop⟩ := takeWhile_isDigit hwhole.2 ('.' :: (places ++ rest)) (by simp [hpoint])
    rw [List.append_assoc, List.cons_append]
    simp only [mantissa?, htake, hdrop]
    rw [if_neg (by simp [hwhole.1])]
    refine ⟨_, _, rfl, ?_⟩
    simp only [List.length_append, List.length_cons]
    omega
  | @places places hplaces =>
    have hle := length_le_takeWhile hplaces.2 rest
    have htake : ('.' :: (places ++ rest)).takeWhile Char.isDigit = [] := by simp [hpoint]
    have hdrop : ('.' :: (places ++ rest)).dropWhile Char.isDigit = '.' :: (places ++ rest) := by
      simp [hpoint]
    rw [List.cons_append]
    simp only [mantissa?, htake, hdrop]
    rw [if_neg (by simp [hplaces.takeWhile_append rest])]
    refine ⟨_, _, rfl, ?_⟩
    simp only [List.nil_append, List.length_cons]
    omega

/-- No less than an exponent is taken where one stands. -/
theorem length_le_exponent (h : IsExponent power) (rest : List Char) :
    power.length ≤ (exponent (power ++ rest)).1.length := by
  cases h with
  | missing => exact Nat.zero_le _
  | @unsigned digits hdigits =>
    have hle := length_le_takeWhile hdigits.2 rest
    have hsign : sign (digits ++ rest) = ([], digits ++ rest) := by
      rw [sign_append_of_ne_nil hdigits.1, sign_of_isDigits hdigits]
    simp only [List.cons_append, exponent, hsign]
    rw [if_neg (by simp [hdigits.takeWhile_append rest])]
    simp only [List.length_cons, List.nil_append]
    omega
  | @signed mark digits hmark hdigits =>
    have hle := length_le_takeWhile hdigits.2 rest
    have hsign : sign (mark :: (digits ++ rest)) = ([mark], digits ++ rest) := by
      rcases hmark with rfl | rfl <;> rfl
    simp only [List.cons_append, exponent, hsign]
    rw [if_neg (by simp [hdigits.takeWhile_append rest])]
    simp only [List.length_cons, List.nil_append]
    omega

/-- No less than a mantissa and an exponent is taken where they stand: behind a mantissa, the letter
of an exponent ends it. -/
theorem exists_mantissa?_exponent (hdigits : IsMantissa digits) (hpower : IsExponent power)
    (rest : List Char) :
    ∃ taken left, mantissa? (digits ++ (power ++ rest)) = some (taken, left) ∧
      (digits ++ power).length ≤ taken.length + (exponent left).1.length := by
  cases power with
  | nil =>
    obtain ⟨taken, left, htaken, hle⟩ := exists_mantissa? hdigits rest
    refine ⟨taken, left, htaken, ?_⟩
    rw [List.append_nil]
    omega
  | cons c tail =>
    have hhead : ∀ d ∈ ((c :: tail) ++ rest).head?, d.isDigit = false ∧ d ≠ '.' := by
      simpa using head_of_isExponent hpower
    refine ⟨digits, _, mantissa?_of_isMantissa hdigits hhead, ?_⟩
    have hle := length_le_exponent hpower rest
    rw [List.length_append]
    omega

theorem matches_numeral? : Matches IsNumeral numeral? where
  sound cs lexeme rest h := ⟨(numeral?_append h).1, isNumeral_of_numeral? h⟩
  reaches lexeme rest h := by
    cases h with
    | unsigned hdigits hpower =>
      obtain ⟨taken, left, htaken, hle⟩ := exists_mantissa?_exponent hdigits hpower rest
      rw [List.append_assoc]
      simp only [numeral?, minus_of_isMantissa hdigits, htaken]
      refine ⟨_, _, rfl, ?_⟩
      simp only [List.nil_append, List.length_append] at hle ⊢
      omega
    | negative hdigits hpower =>
      obtain ⟨taken, left, htaken, hle⟩ := exists_mantissa?_exponent hdigits hpower rest
      rw [List.cons_append, List.append_assoc]
      simp only [numeral?, minus, htaken]
      refine ⟨_, _, rfl, ?_⟩
      simp only [List.length_append, List.length_cons, List.length_nil] at hle ⊢
      omega

/-- The first of the spellings that stands in front of a text is the longest of them, since the long
ones come first. -/
theorem matches_infixOp? : Matches (· ∈ infixSpellings) infixOp? where
  sound cs lexeme rest h := ⟨(infixOp?_append h).1, mem_infixSpellings_of_infixOp? h⟩
  reaches lexeme rest h := by
    have hsorted : infixSpellings.Pairwise fun a b => b.length ≤ a.length := by decide
    cases hfound : infixSpellings.find? (·.isPrefixOf (lexeme ++ rest)) with
    | none =>
      have hnever := List.find?_eq_none.mp hfound lexeme h
      exact absurd (List.isPrefixOf_iff_prefix.mpr (List.prefix_append _ _)) hnever
    | some first =>
      refine ⟨first, _, by rw [infixOp?, hfound]; rfl, ?_⟩
      obtain ⟨-, before, after, hsplit, hbefore⟩ := List.find?_eq_some_iff_append.mp hfound
      rw [hsplit] at h hsorted
      rcases List.mem_append.mp h with hmem | hmem
      · have hno := hbefore lexeme hmem
        rw [List.isPrefixOf_iff_prefix.mpr (List.prefix_append _ _)] at hno
        cases hno
      · rcases List.mem_cons.mp hmem with rfl | hmem
        · exact Nat.le_refl _
        · exact (List.pairwise_cons.mp (List.pairwise_append.mp hsorted).2.1).1 _ hmem

/-- A sign or an identifier. -/
def IsName (cs : List Char) : Prop :=
  cs = ['!'] ∨ cs = ['-'] ∨ IsIdentifier cs

theorem matches_name? : Matches IsName name? where
  sound cs lexeme rest h := ⟨(name?_append h).1, isIdentifier_of_name? h⟩
  reaches lexeme rest h := by
    rcases h with rfl | rfl | h
    · exact ⟨_, _, rfl, Nat.le_refl _⟩
    · exact ⟨_, _, rfl, Nat.le_refl _⟩
    · cases h with
      | @plain c tail hletter htail =>
        have hsign : ¬(c = '!' ∨ c = '-') := by
          rintro (rfl | rfl) <;> exact absurd hletter (by decide)
        have hle := length_le_takeWhile htail rest
        rw [List.cons_append, name?, if_neg hsign, if_pos hletter]
        refine ⟨_, _, rfl, ?_⟩
        simp only [List.length_cons, List.length_append]
        omega
      | @primed c tail hletter htail =>
        have hmark : ∀ d ∈ ('\x27' :: rest).head?, isNameChar d = false := by
          simp [isNameChar]
        rw [List.cons_append, List.append_assoc]
        exact ⟨_, _, name?_of_isLower hletter htail _ hmark, Nat.le_of_eq rfl⟩

/-- No character of the text is a delimiter. -/
def IsSolid (cs : List Char) : Prop :=
  ∀ c ∈ cs, isDelimiter c = false

theorem isSolid_append {xs ys : List Char} (hxs : IsSolid xs) (hys : IsSolid ys) :
    IsSolid (xs ++ ys) :=
  List.forall_mem_append.mpr ⟨hxs, hys⟩

theorem isSolid_cons {c : Char} (hc : isDelimiter c = false) (hcs : IsSolid cs) :
    IsSolid (c :: cs) :=
  List.forall_mem_cons.mpr ⟨hc, hcs⟩

theorem isSolid_of_isDigit (h : ∀ c ∈ digits, c.isDigit = true) : IsSolid digits :=
  fun c hc => isDelimiter_of_isDigit (h c hc)

theorem IsMantissa.isSolid (h : IsMantissa digits) : IsSolid digits := by
  cases h with
  | whole hdigits => exact isSolid_of_isDigit hdigits.2
  | point hwhole hplaces =>
    exact isSolid_append (isSolid_of_isDigit hwhole.2)
      (isSolid_cons (by decide) (isSolid_of_isDigit hplaces))
  | places hplaces => exact isSolid_cons (by decide) (isSolid_of_isDigit hplaces.2)

theorem IsExponent.isSolid (h : IsExponent power) : IsSolid power := by
  cases h with
  | missing => simp [IsSolid]
  | unsigned hdigits => exact isSolid_cons (by decide) (isSolid_of_isDigit hdigits.2)
  | signed hsign hdigits =>
    refine isSolid_cons (by decide) (isSolid_cons ?_ (isSolid_of_isDigit hdigits.2))
    rcases hsign with rfl | rfl <;> decide

theorem IsNumeral.isSolid (h : IsNumeral cs) : IsSolid cs := by
  cases h with
  | unsigned hdigits hpower => exact isSolid_append hdigits.isSolid hpower.isSolid
  | negative hdigits hpower =>
    exact isSolid_cons (by decide) (isSolid_append hdigits.isSolid hpower.isSolid)

theorem isSolid_of_mem_infixSpellings (h : cs ∈ infixSpellings) : IsSolid cs := by
  have hsolid : (infixSpellings.all fun cs => cs.all fun c => !isDelimiter c) = true := by decide
  intro c hc
  simpa using List.all_eq_true.mp (List.all_eq_true.mp hsolid cs h) c hc

theorem IsName.isSolid (h : IsName cs) : IsSolid cs := by
  rcases h with rfl | rfl | h
  · exact List.forall_mem_singleton.mpr (by decide)
  · exact List.forall_mem_singleton.mpr (by decide)
  · cases h with
    | plain hletter htail =>
      exact isSolid_cons (isDelimiter_of_isLower hletter)
        fun c hc => isDelimiter_of_isNameChar (htail c hc)
    | primed hletter htail =>
      have hmark : isDelimiter '\x27' = false := by decide
      exact isSolid_cons (isDelimiter_of_isLower hletter) (isSolid_append
        (fun c hc => isDelimiter_of_isNameChar (htail c hc)) (List.forall_mem_singleton.mpr hmark))

/-- A word without delimiters that stands in front of a text stands in front of what is before its
first boundary. -/
theorem IsSolid.prefix_of_boundary {front back : List Char} (h : IsSolid cs)
    (hstands : cs <+: front ++ back) (hback : Boundary back) : cs <+: front := by
  obtain ⟨rest, hsplit⟩ := hstands
  rcases List.append_eq_append_iff.mp hsplit with ⟨more, hfront, -⟩ | ⟨more, hcs, hmore⟩
  · exact ⟨more, hfront.symm⟩
  · cases more with
    | nil => exact ⟨[], by rw [hcs, List.append_nil, List.append_nil]⟩
    | cons c more =>
      have hdelimiter := hback c (by rw [hmore]; rfl)
      rw [h c (by rw [hcs]; simp)] at hdelimiter
      cases hdelimiter

end Lexeme

namespace Matches

variable {L : List Char → Prop} {m : List Char → Option (List Char × List Char)}
  {lexeme between back other front : List Char}

/-- What is taken in front of some text is taken in front of any boundary in its place. -/
theorem cut (h : Matches L m) (hsolid : ∀ cs, L cs → Lexeme.IsSolid cs) (hother : Boundary other)
    (htaken : m (lexeme ++ between ++ back) = some (lexeme, between ++ back)) :
    m (lexeme ++ between ++ other) = some (lexeme, between ++ other) := by
  obtain ⟨-, hmem, hlongest⟩ := h.eq_some_iff.mp htaken
  refine h.eq_some_iff.mpr ⟨by rw [List.append_assoc], hmem, fun word hword hstands => ?_⟩
  have hfront := (hsolid word hword).prefix_of_boundary hstands hother
  exact hlongest word hword (hfront.trans (List.prefix_append _ _))

/-- What is not taken in front of some text is not taken in front of any boundary in its place. -/
theorem cut_none (h : Matches L m) (hsolid : ∀ cs, L cs → Lexeme.IsSolid cs)
    (hother : Boundary other) (hnone : m (front ++ back) = none) : m (front ++ other) = none := by
  refine h.eq_none_iff.mpr fun word hword hstands => ?_
  have hfront := (hsolid word hword).prefix_of_boundary hstands hother
  exact h.eq_none_iff.mp hnone word hword (hfront.trans (List.prefix_append _ _))

end Matches

namespace Piece

open Lexeme

variable {last : Preceding} {lexeme between back other : List Char} {shape : Shape}

theorem lexical?_cut (hother : Boundary other)
    (h : lexical? last (lexeme ++ between ++ back) = some ⟨shape, lexeme, between ++ back⟩) :
    lexical? last (lexeme ++ between ++ other) = some ⟨shape, lexeme, between ++ other⟩ := by
  have hname : (name? (lexeme ++ between ++ back)).map (ofMatch .name) =
      some ⟨shape, lexeme, between ++ back⟩ →
      (name? (lexeme ++ between ++ other)).map (ofMatch .name) =
        some ⟨shape, lexeme, between ++ other⟩ := by
    intro hmap
    obtain ⟨⟨taken, left⟩, htaken, hpiece⟩ := Option.map_eq_some_iff.mp hmap
    simp only [ofMatch, Piece.mk.injEq] at hpiece
    obtain ⟨rfl, rfl, rfl⟩ := hpiece
    rw [matches_name?.cut (fun _ => IsName.isSolid) hother htaken]
    rfl
  unfold lexical? at h ⊢
  by_cases hlast : last = .value
  · simp only [if_pos hlast] at h ⊢
    cases hoperator : infixOp? (lexeme ++ between ++ back) with
    | some matched =>
      obtain ⟨taken, left⟩ := matched
      simp only [hoperator, ofMatch, Option.some.injEq, Piece.mk.injEq] at h
      obtain ⟨rfl, rfl, rfl⟩ := h
      rw [matches_infixOp?.cut (fun _ => isSolid_of_mem_infixSpellings) hother hoperator]
      rfl
    | none =>
      simp only [hoperator] at h
      rw [matches_infixOp?.cut_none (fun _ => isSolid_of_mem_infixSpellings) hother hoperator]
      exact hname h
  · simp only [if_neg hlast] at h ⊢
    cases hnumeral : numeral? (lexeme ++ between ++ back) with
    | some matched =>
      obtain ⟨taken, left⟩ := matched
      simp only [hnumeral, ofMatch, Option.some.injEq, Piece.mk.injEq] at h
      obtain ⟨rfl, rfl, rfl⟩ := h
      rw [matches_numeral?.cut (fun _ => IsNumeral.isSolid) hother hnumeral]
      rfl
    | none =>
      simp only [hnumeral] at h
      rw [matches_numeral?.cut_none (fun _ => IsNumeral.isSolid) hother hnumeral]
      exact hname h

/-- The next piece stays the same where the text behind it, or further on, is replaced by one that
begins with a boundary. -/
theorem next?_cut {front : List Char} {p : Piece} (hother : Boundary other)
    (h : next? last (front ++ back) = some p) (hrest : p.rest = between ++ back) :
    next? last (front ++ other) = some ⟨p.shape, p.lexeme, between ++ other⟩ := by
  rcases p with ⟨shape, lexeme, rest⟩
  obtain ⟨happend, hne⟩ := next?_append h
  dsimp only at hrest happend hne ⊢
  rw [hrest, ← List.append_assoc, List.append_cancel_right_eq] at happend
  subst hrest happend
  obtain ⟨c, tail, rfl⟩ := List.exists_cons_of_ne_nil hne
  simp only [List.cons_append] at h ⊢
  unfold next? at h ⊢
  dsimp only at h ⊢
  split_ifs at h ⊢
  · cases h
    rfl
  · cases h
    rfl
  · cases h
    rfl
  · cases h
    rfl
  · exact @lexical?_cut last (c :: tail) between back other shape hother h

end Piece

end Formula
