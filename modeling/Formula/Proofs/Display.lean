import Formula.Decimal.Display
import Formula.Proofs.Doubles
import Formula.Proofs.Rendering
import Formula.Proofs.Rounding

/-!
# What the text of a double says

The text of a double says which double it is: its digits are those of a decimal that rounds to its
magnitude, and no other decimal in normal form has the same digits. It is one word, which begins
with a digit behind its sign or is one of the words for infinity and for no number.
-/

namespace Formula.Decimal

variable {c d : Decimal} {x y : Float}

/-- There is a point where there are places behind it, and only there. -/
theorem point_mem_positional : '.' ∈ d.positional ↔ d.exponent < 0 := by
  unfold positional
  dsimp only
  split
  · rename_i hwhole
    refine iff_of_false (fun hpoint => ?_) (by omega)
    have hdigit : ('.' : Char).isDigit = true := by
      rcases List.mem_append.mp hpoint with hmem | hmem
      · exact (isDigits_digitsOf _).2 _ hmem
      · exact isDigit_of_mem_zeros _ hmem
    exact absurd hdigit (by decide)
  · refine iff_of_true ?_ (by omega)
    split <;> simp

/-- Positional notation is a number as it stands, or with a place behind a point. -/
theorem exists_isMagnitude_positional (hd : d.normalize = d) :
    ∃ behind, Document.IsMagnitude d (d.positional ++ behind) := by
  by_cases hneg : d.exponent < 0
  · exact ⟨[], by rw [List.append_nil]; exact isMagnitude_positional hd hneg⟩
  · exact ⟨['.', '0'], isMagnitude_positional_point hd (not_lt.mp hneg)⟩

theorem positional_ne_nil (d : Decimal) : d.positional ≠ [] := by
  unfold positional
  dsimp only
  split
  · simp [(isDigits_digitsOf d.digits).1]
  · split <;> simp

/-- Positional notation begins with a digit. -/
theorem exists_positional_head (hd : d.normalize = d) :
    ∃ a tail, d.positional = a :: tail ∧ a.isDigit = true := by
  obtain ⟨behind, hmagnitude⟩ := exists_isMagnitude_positional hd
  obtain ⟨a, tail, heq⟩ := List.exists_cons_of_ne_nil (positional_ne_nil d)
  obtain ⟨first, more, hcons, hdigit⟩ := hmagnitude.exists_head
  rw [heq, List.cons_append] at hcons
  cases hcons
  exact ⟨a, tail, heq, hdigit⟩

/-- Positional notation tells decimals in normal form apart. -/
theorem positional_injective (hc : c.normalize = c) (hd : d.normalize = d)
    (h : c.positional = d.positional) : c = d := by
  have hexponent : c.exponent < 0 ↔ d.exponent < 0 := by
    rw [← point_mem_positional, h, point_mem_positional]
  by_cases hneg : c.exponent < 0
  · have hread := Document.magnitude?_eq_some_iff.mpr (isMagnitude_positional hc hneg)
    rw [h, Document.magnitude?_eq_some_iff.mpr (isMagnitude_positional hd (hexponent.mp hneg))]
      at hread
    exact (Option.some.inj hread).symm
  · -- A whole number shows no point; it is read with a point and a zero put behind it.
    have hread := Document.magnitude?_eq_some_iff.mpr
      (isMagnitude_positional_point hc (not_lt.mp hneg))
    rw [h, Document.magnitude?_eq_some_iff.mpr (isMagnitude_positional_point hd
      (not_lt.mp fun hlt => hneg (hexponent.mpr hlt)))] at hread
    exact (Option.some.inj hread).symm

/-- The text of a double without its sign. -/
def unsignedText (x : Float) : List Char :=
  if x.isInf then ['i', 'n', 'f'] else (shortest .above (Binary64.magnitude x)).positional

theorem toList_displayFloat_nan (hnan : x.isNaN = true) :
    (displayFloat x).toList = ['N', 'a', 'N'] := by
  rw [displayFloat, if_pos hnan]
  rfl

theorem toList_displayFloat (hnumber : x.isNaN = false) :
    (displayFloat x).toList =
      if Binary64.isNegative x then '-' :: unsignedText x else unsignedText x := by
  rw [displayFloat, if_neg (by rw [hnumber]; decide), String.toList_ofList]
  rfl

/-- Behind its sign, the text of a double begins with a digit, or is the word for infinity. -/
theorem unsignedText_cases (x : Float) : x.isInf = true ∧ unsignedText x = ['i', 'n', 'f'] ∨
    x.isInf = false ∧ ∃ a tail, unsignedText x = a :: tail ∧ a.isDigit = true := by
  cases hinf : x.isInf with
  | true => exact .inl ⟨rfl, by rw [unsignedText, if_pos hinf]⟩
  | false =>
    have hpositional : unsignedText x = (shortest .above (Binary64.magnitude x)).positional := by
      rw [unsignedText, if_neg (by rw [hinf]; decide)]
    rw [hpositional]
    exact .inr ⟨rfl, exists_positional_head (normalize_shortest _ _)⟩

/-- The digits of a double tell its magnitude. -/
theorem magnitude_of_unsignedText (hx : x.isNaN = false) (hy : y.isNaN = false)
    (h : unsignedText x = unsignedText y) : Binary64.magnitude x = Binary64.magnitude y := by
  rcases unsignedText_cases x with ⟨hxInf, hxWord⟩ | ⟨hxFinite, a, tail, hxDigits, ha⟩ <;>
    rcases unsignedText_cases y with ⟨hyInf, hyWord⟩ | ⟨hyFinite, b, rest, hyDigits, hb⟩
  · rw [Binary64.isInf_iff.mp hxInf, Binary64.isInf_iff.mp hyInf]
  · rw [hxWord, hyDigits] at h
    cases h
    exact absurd hb (by decide)
  · rw [hxDigits, hyWord] at h
    cases h
    exact absurd ha (by decide)
  · have hshortest : shortest .above (Binary64.magnitude x) =
        shortest .above (Binary64.magnitude y) := by
      refine positional_injective (normalize_shortest _ _) (normalize_shortest _ _) ?_
      rwa [unsignedText, unsignedText, if_neg (by rw [hxFinite]; decide),
        if_neg (by rw [hyFinite]; decide)] at h
    -- The decimal rounds to the magnitude that it was made of.
    have hread := congrArg nearest hshortest
    rwa [nearest_shortest _ (Binary64.magnitude_lt_infinity hx hxFinite),
      nearest_shortest _ (Binary64.magnitude_lt_infinity hy hyFinite)] at hread

/-- A word that begins with a digit, or the word for infinity. -/
def isUnsignedText (cs : List Char) : Bool :=
  cs == ['i', 'n', 'f'] || cs.head?.any Char.isDigit

/-- Such a word, perhaps behind a sign, or the word for no number. -/
def isFloatText (cs : List Char) : Bool :=
  cs == ['N', 'a', 'N'] || isUnsignedText cs || cs.head? == some '-' && isUnsignedText cs.tail

theorem isUnsignedText_unsignedText (x : Float) : isUnsignedText (unsignedText x) = true := by
  rcases unsignedText_cases x with ⟨-, hword⟩ | ⟨-, a, tail, hdigits, ha⟩
  · rw [hword]
    rfl
  · simp [hdigits, isUnsignedText, ha]

theorem head?_of_isUnsignedText {cs : List Char} (h : isUnsignedText cs = true) :
    cs.head? ≠ some '-' ∧ cs.head? ≠ some 'N' := by
  rcases Bool.or_eq_true_iff.mp h with hword | hdigit
  · rw [beq_iff_eq.mp hword]
    decide
  · constructor <;> intro hhead <;> rw [hhead] at hdigit <;> exact absurd hdigit (by decide)

/-- The text of a double is a word of that kind. -/
theorem isFloatText_displayFloat (x : Float) : isFloatText (displayFloat x).toList = true := by
  have hunsigned := isUnsignedText_unsignedText x
  cases hnan : x.isNaN with
  | true =>
    rw [toList_displayFloat_nan hnan]
    rfl
  | false =>
    rw [toList_displayFloat hnan]
    split <;> simp [isFloatText, hunsigned]

/-- There is no blank in the text of a double. -/
theorem blank_notMem_displayFloat (x : Float) : ' ' ∉ (displayFloat x).toList := by
  have hunsigned : ' ' ∉ unsignedText x := by
    unfold unsignedText
    split
    · decide
    · obtain ⟨behind, hmagnitude⟩ :=
        exists_isMagnitude_positional (normalize_shortest .above (Binary64.magnitude x))
      intro hblank
      exact absurd (hmagnitude.isWordChar _ (List.mem_append_left _ hblank)) (by decide)
  cases hnan : x.isNaN with
  | true =>
    rw [toList_displayFloat_nan hnan]
    decide
  | false =>
    rw [toList_displayFloat hnan]
    split
    · simpa using hunsigned
    · exact hunsigned

theorem isNaN_iff_head : x.isNaN = true ↔ (displayFloat x).toList.head? = some 'N' := by
  have hhead := (head?_of_isUnsignedText (isUnsignedText_unsignedText x)).2
  cases hnan : x.isNaN with
  | true => simp [toList_displayFloat_nan hnan]
  | false =>
    rw [toList_displayFloat hnan]
    split <;> simp [hhead]

theorem isNegative_iff_head (hnumber : x.isNaN = false) :
    Binary64.isNegative x = true ↔ (displayFloat x).toList.head? = some '-' := by
  have hhead := (head?_of_isUnsignedText (isUnsignedText_unsignedText x)).1
  rw [toList_displayFloat hnumber]
  cases Binary64.isNegative x <;> simp [hhead]

/-- The text of a double says which double it is. -/
theorem displayFloat_injective (h : displayFloat x = displayFloat y) : x = y := by
  have hnan : x.isNaN = y.isNaN := by
    rw [Bool.eq_iff_iff, isNaN_iff_head, h, isNaN_iff_head]
  cases hx : x.isNaN with
  | true =>
    have hy := hnan.symm.trans hx
    rw [Float.isNaN_eq_decide_eq_nan, decide_eq_true_iff] at hx hy
    rw [hx, hy]
  | false =>
    have hy := hnan.symm.trans hx
    have hsign : Binary64.isNegative x = Binary64.isNegative y := by
      rw [Bool.eq_iff_iff, isNegative_iff_head hx, h, isNegative_iff_head hy]
    have hlist := congrArg String.toList h
    rw [toList_displayFloat hx, toList_displayFloat hy, hsign] at hlist
    refine Binary64.eq_of_magnitude_eq hsign (magnitude_of_unsignedText hx hy ?_)
    split at hlist
    · exact (List.cons.inj hlist).2
    · exact hlist

end Formula.Decimal
