import Formula.Proofs.Decoder
import Formula.Proofs.Digits
import Formula.Json

/-!
# What a rendering says

The compact text of a value is a JSON text, without control characters, and says that value again:
a string its characters, whichever they are, and a number the decimal that it shows.
-/

namespace Formula

open Document (IsCharacter IsText IsMagnitude IsWhole IsFraction IsPower)

namespace Decimal

variable {d : Decimal}

theorem isWhole_digitsOf (n : Nat) : IsWhole (digitsOf n) := by
  refine ⟨isDigits_digitsOf n, fun hzero => ?_⟩
  by_cases hn : n = 0
  · subst hn
    rfl
  · exact absurd hzero (head?_digitsOf hn)

/-- Digits that begin like those of a number other than zero. -/
theorem isWhole_of_head {n : Nat} (hn : n ≠ 0) {cs : List Char}
    (hdigits : ∀ c ∈ cs, c.isDigit = true) (hhead : cs.head? = (digitsOf n).head?) :
    IsWhole cs := by
  obtain ⟨c, tail, heq, -⟩ := (isDigits_digitsOf n).exists_head
  refine ⟨⟨?_, hdigits⟩, fun hzero => absurd (hhead.symm.trans hzero) (head?_digitsOf hn)⟩
  rintro rfl
  rw [heq] at hhead
  cases hhead

theorem isDigit_of_mem_zeros {k : Nat} : ∀ c ∈ List.replicate k '0', c.isDigit = true := by
  intro c hc
  rw [List.eq_of_mem_replicate hc]
  decide

theorem isWhole_singleton {c : Char} (hdigit : c.isDigit = true) : IsWhole [c] := by
  refine ⟨⟨by simp, by simpa using hdigit⟩, ?_⟩
  rintro ⟨⟩
  rfl

theorem isPower_signed (e : Int) :
    IsPower e ('e' :: (if e < 0 then '-' else '+') :: digitsOf e.natAbs) := by
  by_cases hneg : e < 0
  · have hpower : IsPower _ ('e' :: '-' :: _) := .minus (.inl rfl) (isDigits_digitsOf e.natAbs)
    rw [ofDigits_digitsOf, show -(e.natAbs : Int) = e by omega] at hpower
    rwa [if_pos hneg]
  · have hpower : IsPower _ ('e' :: '+' :: _) := .plus (.inl rfl) (isDigits_digitsOf e.natAbs)
    rw [ofDigits_digitsOf, show (e.natAbs : Int) = e by omega] at hpower
    rwa [if_neg hneg]

/-- A whole number is written by its digits. -/
theorem isMagnitude_digitsOf (n : Nat) : IsMagnitude (normalize ⟨n, 0⟩) (digitsOf n) := by
  have hparts := IsMagnitude.parts (isWhole_digitsOf n) .missing .missing
  simpa using hparts

/-- Positional notation of a whole number, with a place behind the point. -/
theorem isMagnitude_positional_point (hd : d.normalize = d) (h : 0 ≤ d.exponent) :
    IsMagnitude d (d.positional ++ ['.', '0']) := by
  have hwhole : IsWhole (digitsOf d.digits ++ List.replicate d.exponent.toNat '0') := by
    by_cases hzero : d.digits = 0
    · rw [exponent_eq_zero hd hzero, Int.toNat_zero, List.replicate_zero, List.append_nil]
      exact isWhole_digitsOf _
    · refine isWhole_of_head hzero
        (List.forall_mem_append.mpr ⟨(isDigits_digitsOf _).2, isDigit_of_mem_zeros⟩) ?_
      obtain ⟨c, tail, heq, -⟩ := (isDigits_digitsOf d.digits).exists_head
      rw [heq]
      rfl
  have hplace : Lexeme.IsDigits ['0'] := by simp [Lexeme.IsDigits]
  have hparts := IsMagnitude.parts hwhole (.point hplace) .missing
  have hdigits : ofDigits (digitsOf d.digits ++ List.replicate d.exponent.toNat '0' ++ ['0']) =
      d.digits * 10 ^ (d.exponent.toNat + 1) := by
    rw [List.append_assoc, ← List.replicate_succ', ofDigits_append_zeros, ofDigits_digitsOf]
  have hexponent : (0 : Int) - (['0'] : List Char).length + (d.exponent.toNat + 1 : Nat) =
      d.exponent := by
    simp
    omega
  rw [hdigits, normalize_mul_pow, hexponent, hd, List.append_nil] at hparts
  rwa [positional, if_pos h]

/-- Digits with a point among them, as many behind it as the exponent says. -/
theorem isMagnitude_of_places (hd : d.normalize = d) {whole places : List Char}
    (hwhole : IsWhole whole) (hplaces : Lexeme.IsDigits places)
    (hspelled : ofDigits (whole ++ places) = d.digits)
    (hlength : (places.length : Int) = -d.exponent) : IsMagnitude d (whole ++ '.' :: places) := by
  have hparts := IsMagnitude.parts hwhole (.point hplaces) .missing
  have hexponent : (0 : Int) - places.length = d.exponent := by omega
  rwa [hspelled, hexponent, hd, List.append_nil] at hparts

/-- Positional notation of a number that has places behind the point. -/
theorem isMagnitude_positional (hd : d.normalize = d) (h : d.exponent < 0) :
    IsMagnitude d d.positional := by
  have hsome : d.digits ≠ 0 := by
    intro hzero
    have := exponent_eq_zero hd hzero
    omega
  have hdigits := isDigits_digitsOf d.digits
  rw [positional, if_neg (by omega)]
  dsimp only
  split
  · rename_i hlength
    have hfront : 0 < (digitsOf d.digits).length - (-d.exponent).toNat := by omega
    have hback : (List.drop ((digitsOf d.digits).length - (-d.exponent).toNat)
        (digitsOf d.digits)).length = (-d.exponent).toNat := by
      rw [List.length_drop]
      omega
    refine isMagnitude_of_places hd
      (isWhole_of_head hsome (fun c hc => hdigits.2 c (List.mem_of_mem_take hc)) ?_)
      ⟨?_, fun c hc => hdigits.2 c (List.mem_of_mem_drop hc)⟩ ?_ (by omega)
    · rw [List.head?_take, if_neg (by omega)]
    · rw [← List.length_pos_iff, hback]
      omega
    · rw [List.take_append_drop, ofDigits_digitsOf]
  · rename_i hlength
    have hwhole : IsWhole (List.replicate 1 '0') := isWhole_singleton (by decide)
    generalize hzeros : (-d.exponent).toNat - (digitsOf d.digits).length = zeros
    have hplaces : Lexeme.IsDigits (List.replicate zeros '0' ++ digitsOf d.digits) :=
      ⟨by simp [hdigits.1], List.forall_mem_append.mpr ⟨isDigit_of_mem_zeros, hdigits.2⟩⟩
    have hspelled : ofDigits (List.replicate 1 '0' ++
        (List.replicate zeros '0' ++ digitsOf d.digits)) = d.digits := by
      rw [ofDigits_zeros, ofDigits_zeros, ofDigits_digitsOf]
    have hcount : ((List.replicate zeros '0' ++ digitsOf d.digits).length : Int) =
        -d.exponent := by
      rw [List.length_append, List.length_replicate]
      omega
    exact isMagnitude_of_places hd hwhole hplaces hspelled hcount

/-- Scientific notation is a number. -/
theorem isMagnitude_scientific (hd : d.normalize = d) : IsMagnitude d d.scientific := by
  have hread : ∀ {whole places fraction : List Char}, IsWhole whole → IsFraction places fraction →
      whole ++ places = digitsOf d.digits → (places.length : Int) + 1 = (digitsOf d.digits).length →
      IsMagnitude d (whole ++ fraction ++ 'e' :: (if d.leadingExponent < 0 then '-' else '+') ::
        digitsOf d.leadingExponent.natAbs) := by
    intro whole places fraction hwhole hfraction hdigits hlength
    have hparts := IsMagnitude.parts hwhole hfraction (isPower_signed d.leadingExponent)
    have hexponent : d.leadingExponent - places.length = d.exponent := by
      rw [leadingExponent]
      omega
    rwa [hdigits, ofDigits_digitsOf, hexponent, hd] at hparts
  have hall := (isDigits_digitsOf d.digits).2
  unfold scientific
  split
  · rename_i first second rest heq
    rw [heq] at hall
    have hfirst := hall first (by simp)
    have hplaces : Lexeme.IsDigits (second :: rest) :=
      ⟨by simp, fun c hc => hall c (List.mem_cons_of_mem _ hc)⟩
    exact hread (isWhole_singleton hfirst) (.point hplaces) heq.symm (by simp [heq])
  · rename_i hfew
    obtain ⟨first, tail, heq, hfirst⟩ := (isDigits_digitsOf d.digits).exists_head
    obtain rfl : tail = [] := by
      cases tail with
      | nil => rfl
      | cons second rest => exact absurd heq (hfew first second rest)
    rw [heq]
    exact hread (isWhole_singleton hfirst) .missing (by simp [heq]) (by simp [heq])

/-- Either notation is a number, whichever is taken. -/
theorem isMagnitude_shown (hd : d.normalize = d) :
    IsMagnitude d
      (if d.leadingExponent < -5 ∨ 15 < d.leadingExponent then d.scientific
        else if d.exponent < 0 then d.positional
        else d.positional ++ ['.', '0']) := by
  split_ifs with hscientific hpoint
  · exact isMagnitude_scientific hd
  · exact isMagnitude_positional hd hpoint
  · exact isMagnitude_positional_point hd (Int.le_of_not_gt hpoint)

end Decimal

namespace Json

/-- Induction on values: what holds of the items and of the values of the fields may be used for
the array and for the object. -/
@[elab_as_elim, induction_eliminator]
theorem induct {motive : Json → Prop} (null : motive .null) (natural : ∀ n, motive (.natural n))
    (double : ∀ x, motive (.double x)) (string : ∀ s, motive (.string s))
    (array : ∀ items, (∀ item ∈ items, motive item) → motive (.array items))
    (object : ∀ fields, (∀ field ∈ fields, motive field.2) → motive (.object fields))
    (value : Json) : motive value := by
  refine @Json.rec motive (fun items => ∀ item ∈ items, motive item)
    (fun fields => ∀ field ∈ fields, motive field.2) (fun field => motive field.2) null natural
    double string array object ?_ ?_ ?_ ?_ (fun _ _ h => h) value
  · simp
  · exact fun _ _ hfirst hrest => List.forall_mem_cons.mpr ⟨hfirst, hrest⟩
  · simp
  · exact fun _ _ hfirst hrest => List.forall_mem_cons.mpr ⟨hfirst, hrest⟩

mutual

/-- What the text of a value says. A double that is no number says nothing; any other says its
shortest decimal. -/
def document : Json → Document
  | .null => .null
  | .natural n => .natural n
  | .double x =>
    if x.isNaN || x.isInf then .null
    else .number (Binary64.isNegative x) (Decimal.shortest .even (Binary64.magnitude x))
  | .string s => .string s
  | .array items => .array (documents items)
  | .object fields => .object (entries fields)

/-- What the items of an array say. -/
def documents : List Json → List Document
  | [] => []
  | item :: rest => document item :: documents rest

/-- What the fields of an object say. -/
def entries : List (String × Json) → List (String × Document)
  | [] => []
  | (name, value) :: rest => (name, document value) :: entries rest

end

theorem documents_eq_map (items : List Json) : documents items = items.map document := by
  induction items with
  | nil => rfl
  | cons item items ih => rw [documents, ih, List.map_cons]

theorem entries_eq_map (fields : List (String × Json)) :
    entries fields = fields.map fun field => (field.1, document field.2) := by
  induction fields with
  | nil => rfl
  | cons field fields ih => rw [entries, ih, List.map_cons]

theorem renderItems_eq (items : List Json) :
    renderItems items = List.intercalate [','] (items.map render) := by
  induction items with
  | nil => rfl
  | cons item items ih =>
    cases items with
    | nil => simp [renderItems]
    | cons next items =>
      rw [renderItems, ih]
      · simp [List.intercalate_cons_cons]
      · simp

theorem renderFields_eq (fields : List (String × Json)) :
    renderFields fields =
      List.intercalate [','] (fields.map fun field => quote field.1 ++ ':' :: render field.2) := by
  induction fields with
  | nil => rfl
  | cons field fields ih =>
    cases fields with
    | nil => simp [renderFields]
    | cons next fields =>
      rw [renderFields, ih]
      · simp [List.intercalate_cons_cons]
      · simp

/-- The four digits of a control character spell its number. -/
theorem codeUnit?_control {n : Nat} (h : n < 0x20) :
    Document.codeUnit? ['0', '0', Nat.digitChar (n / 16), Nat.digitChar (n % 16)] = some n := by
  have hall : ∀ m < 0x20,
      Document.codeUnit? ['0', '0', Nat.digitChar (m / 16), Nat.digitChar (m % 16)] = some m := by
    decide
  exact hall n h

/-- The escape of a character is a way to write it. -/
theorem isCharacter_escape (c : Char) : IsCharacter c (escape c) := by
  unfold escape
  split_ifs with hmark hb ht hn hf hr hcontrol
  · rcases hmark with rfl | rfl <;> exact .short (by decide)
  · exact hb ▸ .short (by decide)
  · exact ht ▸ .short (by decide)
  · exact hn ▸ .short (by decide)
  · exact hf ▸ .short (by decide)
  · exact hr ▸ .short (by decide)
  · have hscalar := IsCharacter.scalar (codeUnit?_control hcontrol) (.inl (by omega))
    rwa [Char.ofNat_toNat] at hscalar
  · obtain ⟨hquote, hbackslash⟩ := not_or.mp hmark
    exact .plain (Nat.le_of_not_lt hcontrol) hquote hbackslash

theorem isText_quote (s : String) : IsText (.string s) (quote s) := by
  have htext := @IsText.string (s.toList.map fun c => (c, escape c))
    (List.forall_mem_map.mpr fun c _ => isCharacter_escape c)
  simpa [quote, List.map_map, Function.comp_def, List.flatMap_map] using htext

theorem isText_signed {d : Decimal} {cs : List Char} (h : IsMagnitude d cs) (negative : Bool) :
    IsText (.number negative d) (if negative then '-' :: cs else cs) := by
  cases negative with
  | true => exact .negative h
  | false => exact .positive h

theorem isText_ofDouble (x : Float) : IsText (document (.double x)) (ofDouble x) := by
  by_cases hnone : (x.isNaN || x.isInf) = true
  · rw [document, ofDouble, if_pos hnone, if_pos hnone]
    exact .null
  · rw [document, ofDouble, if_neg hnone, if_neg hnone]
    exact isText_signed (Decimal.isMagnitude_shown (Decimal.normalize_shortest _ _)) _

/-- The text of a value is a JSON text. -/
theorem isText_render (value : Json) : IsText value.document value.render := by
  induction value with
  | null => exact .null
  | natural n => exact .positive (Decimal.isMagnitude_digitsOf n)
  | double x => exact isText_ofDouble x
  | string s => exact isText_quote s
  | array items ih =>
    rw [document, documents_eq_map, render, renderItems_eq]
    by_cases hsome : items = []
    · subst hsome
      exact @IsText.emptyArray [] (by simp)
    · have htext := @IsText.array (items.map fun item => (item.document, item.render))
        (by simpa using hsome) (List.forall_mem_map.mpr ih)
      simpa only [List.map_map, Function.comp_def] using htext
  | object fields ih =>
    rw [document, entries_eq_map, render, renderFields_eq]
    by_cases hsome : fields = []
    · subst hsome
      exact @IsText.emptyObject [] (by simp)
    · have htext := @IsText.object (fields.map fun field =>
          ⟨field.1, field.2.document, quote field.1, field.2.render⟩)
        (by simpa using hsome) (List.forall_mem_map.mpr fun field _ => isText_quote field.1)
        (List.forall_mem_map.mpr ih)
      simpa only [List.map_map, Function.comp_def, Document.Field.entry, Document.Field.text]
        using htext

/-- The text of a value is decoded to what the value says. -/
theorem decode?_compress (value : Json) :
    Document.decode? value.compress = some value.document := by
  rw [Document.decode?_eq_some_iff, compress, String.toList_ofList]
  exact isText_render value

/-- No character is a control character. -/
def IsVisible (cs : List Char) : Prop :=
  ∀ c ∈ cs, 0x20 ≤ c.toNat

theorem isVisible_append {xs ys : List Char} (hxs : IsVisible xs) (hys : IsVisible ys) :
    IsVisible (xs ++ ys) :=
  List.forall_mem_append.mpr ⟨hxs, hys⟩

theorem isVisible_cons {c : Char} {cs : List Char} (hc : 0x20 ≤ c.toNat) (hcs : IsVisible cs) :
    IsVisible (c :: cs) :=
  List.forall_mem_cons.mpr ⟨hc, hcs⟩

theorem isVisible_intercalate {texts : List (List Char)} (h : ∀ text ∈ texts, IsVisible text) :
    IsVisible (List.intercalate [','] texts) := by
  induction texts with
  | nil => simp [IsVisible]
  | cons text texts ih =>
    obtain ⟨htext, htexts⟩ := List.forall_mem_cons.mp h
    cases texts with
    | nil => rwa [List.intercalate_singleton]
    | cons next texts =>
      rw [List.intercalate_cons_cons]
      exact isVisible_append (isVisible_append htext (by simp [IsVisible])) (ih htexts)

theorem isVisible_of_isWordChar {cs : List Char} (h : ∀ c ∈ cs, Document.isWordChar c = true) :
    IsVisible cs := by
  intro c hc
  have hword := h c hc
  by_contra hcontrol
  have hnone : ∀ n < 0x20, Document.isWordChar (.ofNat n) = false := by decide
  have := hnone c.toNat (Nat.lt_of_not_le hcontrol)
  rw [Char.ofNat_toNat, hword] at this
  cases this

theorem isVisible_signed {cs : List Char} (h : IsVisible cs) (negative : Bool) :
    IsVisible (if negative then '-' :: cs else cs) := by
  cases negative with
  | true => exact isVisible_cons (by decide) h
  | false => exact h

theorem isVisible_ofDouble (x : Float) : IsVisible (ofDouble x) := by
  by_cases hnone : (x.isNaN || x.isInf) = true
  · rw [ofDouble, if_pos hnone]
    exact isVisible_of_isWordChar Document.isWordChar_null
  · rw [ofDouble, if_neg hnone]
    have hdigits := Decimal.isMagnitude_shown
      (Decimal.normalize_shortest .even (Binary64.magnitude x))
    exact isVisible_signed (isVisible_of_isWordChar hdigits.isWordChar) _

theorem isVisible_escape (c : Char) : IsVisible (escape c) := by
  have hdigit : ∀ n < 16, 0x20 ≤ (Nat.digitChar n).toNat := by decide
  unfold escape
  split_ifs with hmark hb ht hn hf hr hcontrol
  · rcases hmark with rfl | rfl <;> simp [IsVisible]
  · simp [IsVisible]
  · simp [IsVisible]
  · simp [IsVisible]
  · simp [IsVisible]
  · simp [IsVisible]
  · -- The digits of the number are the only characters here that are not given.
    have hhigh := hdigit (c.toNat / 16) (by omega)
    have hlow := hdigit (c.toNat % 16) (by omega)
    simp [IsVisible, hhigh, hlow]
  · exact fun d hd => by rw [List.mem_singleton.mp hd]; omega

theorem isVisible_quote (s : String) : IsVisible (quote s) := by
  have hinside : IsVisible (s.toList.flatMap escape) := by
    intro d hd
    obtain ⟨c, -, hd⟩ := List.mem_flatMap.mp hd
    exact isVisible_escape c d hd
  exact isVisible_append (isVisible_cons (by decide) hinside) (by simp [IsVisible])

/-- The text of a value has no control characters. -/
theorem isVisible_render (value : Json) : IsVisible value.render := by
  induction value with
  | null => exact isVisible_of_isWordChar Document.isWordChar_null
  | natural n =>
    exact isVisible_of_isWordChar (Decimal.isMagnitude_digitsOf n).isWordChar
  | double x => exact isVisible_ofDouble x
  | string s => exact isVisible_quote s
  | array items ih =>
    rw [render, renderItems_eq]
    have hitems := isVisible_intercalate (List.forall_mem_map.mpr ih)
    exact isVisible_append (isVisible_cons (by decide) hitems) (by simp [IsVisible])
  | object fields ih =>
    rw [render, renderFields_eq]
    have hfields := isVisible_intercalate
      (List.forall_mem_map.mpr fun field hfield =>
        isVisible_append (isVisible_quote field.1)
          (isVisible_cons (show 0x20 ≤ (':').toNat by decide) (ih field hfield)))
    exact isVisible_append (isVisible_cons (by decide) hfields) (by simp [IsVisible])

end Json

end Formula
