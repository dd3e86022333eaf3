import Formula.Proofs.Scalars
import Mathlib.Data.List.Induction

/-!
# Decoding JSON

The document that a text says, found by reading the text once from the front. A reader takes a
value with the blanks around it and leaves what stands behind. It takes every text of the grammar
and no other, so that a text says one document at most.
-/

namespace Formula.Document

open Lexeme (forall_mem_takeWhile)

/-- At least one element and at most so many, commas between them, up to the character that closes
them. -/
def elements? {α : Type} (element? : List Char → Option (α × List Char)) (close : Char) :
    Nat → List Char → Option (List α × List Char)
  | 0, _ => none
  | n + 1, cs => do
    let (a, rest) ← element? cs
    match rest with
    | [] => none
    | c :: rest =>
      if c = close then return ([a], rest)
      else if c = ',' then do
        let (as, rest) ← elements? element? close n rest
        return (a :: as, rest)
      else none

/-- The elements, or blanks only. -/
def group? {α : Type} (element? : List Char → Option (α × List Char)) (close : Char)
    (cs : List Char) : Option (List α × List Char) :=
  match elements? element? close cs.length cs with
  | some found => some found
  | none =>
    match cs.dropWhile Char.isWhitespace with
    | c :: rest => if c = close then some ([], rest) else none
    | [] => none

/-- A name with its value. -/
def field? (value? : List Char → Option (Document × List Char)) (cs : List Char) :
    Option ((String × Document) × List Char) := do
  match ← value? cs with
  | (.string name, ':' :: rest) => do
    let (value, rest) ← value? rest
    return ((name, value), rest)
  | _ => none

/-- A value that is nested at most so deep, with the blanks around it. -/
def value? : Nat → List Char → Option (Document × List Char)
  | 0, _ => none
  | depth + 1, cs =>
    let found : Option (Document × List Char) :=
      match cs.dropWhile Char.isWhitespace with
      | '\x22' :: rest =>
        (characters? rest.length rest).map fun (s, rest) => (.string (.ofList s), rest)
      | '[' :: rest =>
        (group? (value? depth) ']' rest).map fun (items, rest) => (.array items, rest)
      | '\x7b' :: rest =>
        (group? (field? (value? depth)) '\x7d' rest).map fun (fields, rest) =>
          (.object fields, rest)
      | cs => (ofWord? (cs.takeWhile isWordChar)).map (·, cs.dropWhile isWordChar)
    found.map fun (v, rest) => (v, rest.dropWhile Char.isWhitespace)

/-- The document that a text says. -/
def decode? (text : String) : Option Document :=
  match value? (text.length + 1) text.toList with
  | some (v, []) => some v
  | _ => none

section Elements

variable {α β : Type} {element? : List Char → Option (α × List Char)} {close : Char}
variable {entry : β → α} {text : β → List Char} {P : β → Prop} {cs rest : List Char}

/-- Elements that are each taken up to a comma or to the closing character are taken together. -/
theorem elements?_append {items : List β} {n : Nat} (hclose : close ≠ ',') (hsome : items ≠ [])
    (hitems : ∀ b ∈ items, ∀ c rest, c = ',' ∨ c = close →
      element? (text b ++ c :: rest) = some (entry b, c :: rest))
    (hn : items.length ≤ n) (rest : List Char) :
    elements? element? close n (List.intercalate [','] (items.map text) ++ close :: rest) =
      some (items.map entry, rest) := by
  induction items generalizing n with
  | nil => exact absurd rfl hsome
  | cons b items ih =>
    obtain ⟨n, rfl⟩ := Nat.exists_eq_succ_of_ne_zero (Nat.ne_of_gt (Nat.zero_lt_of_lt hn))
    obtain ⟨hb, hitems⟩ := List.forall_mem_cons.mp hitems
    cases items with
    | nil => simp [elements?, hb close rest (.inr rfl)]
    | cons next items =>
      have htail := ih (by simp) hitems (Nat.le_of_succ_le_succ hn)
      have hcomma : (',' : Char) ≠ close := hclose.symm
      simp only [List.map_cons, List.intercalate_cons_cons, List.append_assoc, List.cons_append,
        List.nil_append] at htail ⊢
      simp [elements?, hb ',' _ (.inl rfl), hcomma, htail]

theorem exists_items {n : Nat} {as : List α}
    (helement : ∀ {cs a rest}, element? cs = some (a, rest) →
      ∃ b, P b ∧ a = entry b ∧ cs = text b ++ rest)
    (h : elements? element? close n cs = some (as, rest)) :
    ∃ items : List β, items ≠ [] ∧ (∀ b ∈ items, P b) ∧ as = items.map entry ∧
      cs = List.intercalate [','] (items.map text) ++ close :: rest := by
  induction n generalizing cs as with
  | zero => cases h
  | succ n ih =>
    obtain ⟨⟨_, behind⟩, hfirst, hbehind⟩ := Option.bind_eq_some_iff.mp h
    obtain ⟨b, hb, rfl, rfl⟩ := helement hfirst
    dsimp only at hbehind
    split at hbehind
    · cases hbehind
    · split at hbehind
      · rename_i hclose
        cases hbehind
        exact ⟨[b], by simp, by simpa using hb, rfl, by simp [hclose]⟩
      · split at hbehind
        · rename_i hcomma
          obtain ⟨⟨tail, _⟩, htail, heq⟩ := Option.bind_eq_some_iff.mp hbehind
          cases heq
          obtain ⟨items, hsome, hitems, rfl, rfl⟩ := ih htail
          refine ⟨b :: items, by simp, List.forall_mem_cons.mpr ⟨hb, hitems⟩, rfl, ?_⟩
          rw [List.map_cons, List.intercalate_cons_of_ne_nil (by simpa using hsome), hcomma]
          simp
        · cases hbehind

theorem length_le_length_intercalate (texts : List (List Char)) :
    texts.length ≤ (List.intercalate [','] texts).length + 1 := by
  induction texts with
  | nil => simp
  | cons text texts ih =>
    cases texts with
    | nil => simp
    | cons next texts =>
      rw [List.intercalate_cons_cons]
      simp only [List.length_append, List.length_cons] at ih ⊢
      omega

theorem length_le_of_mem {text : List Char} {texts : List (List Char)} (h : text ∈ texts) :
    text.length ≤ (List.intercalate [','] texts).length := by
  induction texts with
  | nil => cases h
  | cons first texts ih =>
    cases texts with
    | nil => rw [List.mem_singleton.mp h, List.intercalate_singleton]
    | cons next texts =>
      rw [List.intercalate_cons_cons]
      simp only [List.length_append]
      rcases List.mem_cons.mp h with rfl | h
      · omega
      · have := ih h
        omega

theorem group?_append {items : List β} (hclose : close ≠ ',') (hsome : items ≠ [])
    (hitems : ∀ b ∈ items, ∀ c rest, c = ',' ∨ c = close →
      element? (text b ++ c :: rest) = some (entry b, c :: rest)) (rest : List Char) :
    group? element? close (List.intercalate [','] (items.map text) ++ close :: rest) =
      some (items.map entry, rest) := by
  have hlength := length_le_length_intercalate (items.map text)
  rw [group?, elements?_append hclose hsome hitems (by simp at hlength ⊢; omega)]

theorem group?_empty {gap : List Char} (hgap : ∀ c ∈ gap, c.isWhitespace = true)
    (hclose : close.isWhitespace = false) (rest : List Char)
    (hnone : element? (gap ++ close :: rest) = none) :
    group? element? close (gap ++ close :: rest) = some ([], rest) := by
  have hnone : ∀ n, elements? element? close n (gap ++ close :: rest) = none := by
    rintro (_ | n)
    · rfl
    · simp [elements?, hnone]
  rw [group?, hnone]
  simp [List.dropWhile_append_of_pos hgap, hclose]

/-- What is taken as a group is elements with commas between them, or blanks. -/
theorem exists_group {as : List α}
    (helement : ∀ {cs a rest}, element? cs = some (a, rest) →
      ∃ b, P b ∧ a = entry b ∧ cs = text b ++ rest)
    (h : group? element? close cs = some (as, rest)) :
    (∃ items : List β, items ≠ [] ∧ (∀ b ∈ items, P b) ∧ as = items.map entry ∧
      cs = List.intercalate [','] (items.map text) ++ close :: rest) ∨
    ∃ gap : List Char, (∀ c ∈ gap, c.isWhitespace = true) ∧ as = [] ∧
      cs = gap ++ close :: rest := by
  unfold group? at h
  split at h
  · rename_i hfound
    cases h
    exact .inl (exists_items helement hfound)
  · split at h
    · rename_i c behind hdrop
      split at h
      · rename_i hclose
        cases h
        refine .inr ⟨cs.takeWhile Char.isWhitespace, forall_mem_takeWhile cs, rfl, ?_⟩
        rw [← hclose, ← hdrop, List.takeWhile_append_dropWhile]
      · cases h
    · cases h

end Elements

section Values

variable {v : Document} {c : Char} {cs text rest : List Char} {n : Nat}

theorem isWordChar_of_isWhitespace (h : c.isWhitespace = true) : isWordChar c = false := by
  simp only [Char.isWhitespace, Bool.or_eq_true, decide_eq_true_eq] at h
  rcases h with ((rfl | rfl) | rfl) | rfl <;> decide

theorem value?_blank (hblank : c.isWhitespace = true) (n : Nat) (cs : List Char) :
    value? n (c :: cs) = value? n cs := by
  cases n with
  | zero => rfl
  | succ n => simp only [value?, List.dropWhile_cons_of_pos hblank]

/-- No value begins with the character that closes a group. -/
theorem value?_close {gap : List Char} (hgap : ∀ c ∈ gap, c.isWhitespace = true)
    (hclose : c = ']' ∨ c = '\x7d') (n : Nat) (rest : List Char) :
    value? n (gap ++ c :: rest) = none := by
  induction gap with
  | nil =>
    cases n with
    | zero => rfl
    | succ n =>
      have hword : ofWord? [] = none := by decide
      rcases hclose with rfl | rfl <;>
        simp [value?, hword, Char.isWhitespace, isWordChar, Char.isAlphanum]
  | cons d gap ih =>
    obtain ⟨hblank, hgap⟩ := List.forall_mem_cons.mp hgap
    rw [List.cons_append, value?_blank hblank, ih hgap]

/-- The text is read as the value, and so are the blanks behind it, in front of anything that does
not go on with a word. -/
def Takes (n : Nat) (v : Document) (text : List Char) : Prop :=
  ∀ rest : List Char, (∀ c ∈ rest.head?, isWordChar c = false) →
    value? n (text ++ rest) = some (v, rest.dropWhile Char.isWhitespace)

/-- In front of a mark the text is read up to that mark. -/
theorem Takes.mark (h : Takes n v text) (hc : c = ',' ∨ c = ':' ∨ c = ']' ∨ c = '\x7d')
    (rest : List Char) : value? n (text ++ c :: rest) = some (v, c :: rest) := by
  have hread := h (c :: rest)
  rcases hc with rfl | rfl | rfl | rfl <;> exact hread (by simp; decide)

theorem Takes.before (hblank : c.isWhitespace = true) (h : Takes n v text) :
    Takes n v (c :: text) := by
  intro rest hrest
  rw [List.cons_append, value?_blank hblank]
  exact h rest hrest

theorem Takes.behind (hblank : c.isWhitespace = true) (h : Takes n v text) :
    Takes n v (text ++ [c]) := by
  intro rest hrest
  rw [List.append_assoc, h _ (by simp [isWordChar_of_isWhitespace hblank])]
  simp [hblank]

theorem takes_word (hword : ∀ c ∈ text, isWordChar c = true) (hread : ofWord? text = some v)
    (n : Nat) : Takes (n + 1) v text := by
  intro rest hrest
  have hsome : text ≠ [] := by
    rintro rfl
    cases hread
  obtain ⟨c, tail, rfl⟩ := List.exists_cons_of_ne_nil hsome
  have hfirst := hword c (by simp)
  have hblank : ¬c.isWhitespace = true := by
    intro hblank
    exact absurd rfl (ne_of_class hfirst (isWordChar_of_isWhitespace hblank))
  have hquote : c ≠ '\x22' := ne_of_class hfirst (by decide)
  have harray : c ≠ '[' := ne_of_class hfirst (by decide)
  have hobject : c ≠ '\x7b' := ne_of_class hfirst (by decide)
  have htake : (c :: tail ++ rest).takeWhile isWordChar = c :: tail := by
    rw [takeWhile_append_of_head hrest, List.takeWhile_eq_self_iff.mpr hword]
  have hdrop : (c :: tail ++ rest).dropWhile isWordChar = rest := by
    rw [dropWhile_append_of_head hrest, List.dropWhile_eq_nil_iff.mpr hword]
    rfl
  rw [List.cons_append] at htake hdrop ⊢
  simp [value?, List.dropWhile_cons_of_neg hblank, hquote, harray, hobject, htake, hdrop, hread]

theorem takes_string {pieces : List (Char × List Char)}
    (hpieces : ∀ p ∈ pieces, IsCharacter p.1 p.2) (n : Nat) :
    Takes (n + 1) (.string (.ofList (pieces.map Prod.fst)))
      ('\x22' :: pieces.flatMap Prod.snd ++ ['\x22']) := by
  intro rest _
  have hlength := length_le_length_flatMap hpieces
  have hread := characters?_append hpieces
    (n := (pieces.flatMap Prod.snd ++ '\x22' :: rest).length)
    (by simp only [List.length_append, List.length_cons]; omega) rest
  rw [List.append_assoc, List.cons_append, List.singleton_append, value?,
    List.dropWhile_cons_of_neg (by decide)]
  simp only [hread]
  rfl

/-- An array is read when its inside is. -/
theorem takes_array {items : List Document}
    (h : ∀ rest, group? (value? n) ']' (cs ++ ']' :: rest) = some (items, rest)) :
    Takes (n + 1) (.array items) ('[' :: cs ++ [']']) := by
  intro rest _
  rw [List.append_assoc, List.cons_append, List.singleton_append, value?,
    List.dropWhile_cons_of_neg (by decide)]
  simp only [h]
  rfl

/-- An object is read when its inside is. -/
theorem takes_object {fields : List (String × Document)}
    (h : ∀ rest, group? (field? (value? n)) '\x7d' (cs ++ '\x7d' :: rest) = some (fields, rest)) :
    Takes (n + 1) (.object fields) ('\x7b' :: cs ++ ['\x7d']) := by
  intro rest _
  rw [List.append_assoc, List.cons_append, List.singleton_append, value?,
    List.dropWhile_cons_of_neg (by decide)]
  simp only [h]
  rfl

/-- A field is read when its name and its value are. -/
theorem field?_append {f : Field} (hname : Takes n (.string f.name) f.nameText)
    (hvalue : Takes n f.value f.valueText) (hc : c = ',' ∨ c = '\x7d') (rest : List Char) :
    field? (value? n) (f.text ++ c :: rest) = some (f.entry, c :: rest) := by
  have hc : c = ',' ∨ c = ':' ∨ c = ']' ∨ c = '\x7d' := by
    rcases hc with rfl | rfl <;> simp
  simp [field?, Field.text, Field.entry, hname.mark (.inr (.inl rfl)), hvalue.mark hc]

theorem length_le_of_mem_group {text : List Char} {texts : List (List Char)} {first last : Char}
    (h : text ∈ texts) (hn : (first :: List.intercalate [','] texts ++ [last]).length ≤ n) :
    ∃ m, n = m + 1 ∧ text.length ≤ m := by
  have := length_le_of_mem h
  simp only [List.length_append, List.length_cons] at hn
  exact ⟨n - 1, by omega, by omega⟩

/-- Every text of a document is read as that document. -/
theorem takes_of_isText (htext : IsText v text) (hn : text.length ≤ n) : Takes (n + 1) v text := by
  -- The brackets of a group pay for the level of nesting that its elements stand below.
  induction htext generalizing n with
  | before hblank _ ih => exact (ih (Nat.le_of_succ_le hn)).before hblank
  | behind hblank _ ih => exact (ih (by simp at hn; omega)).behind hblank
  | null => exact takes_word isWordChar_null (by simp [ofWord?]) n
  | truth b => exact takes_word (isWordChar_truth b) (by cases b <;> rfl) n
  | positive hnumber => exact takes_word hnumber.isWordChar (ofWord?_of_isMagnitude hnumber).1 n
  | negative hnumber =>
    exact takes_word (List.forall_mem_cons.mpr ⟨by decide, hnumber.isWordChar⟩)
      (ofWord?_of_isMagnitude hnumber).2 n
  | string hpieces => exact takes_string hpieces n
  | emptyArray hgap =>
    exact takes_array fun rest =>
      group?_empty hgap (by decide) rest (value?_close hgap (.inl rfl) n rest)
  | array hsome hitems ih =>
    refine takes_array (group?_append (by decide) hsome ?_)
    intro item hitem c rest hc
    obtain ⟨m, rfl, hm⟩ := length_le_of_mem_group (List.mem_map_of_mem hitem) hn
    exact (ih item hitem hm).mark (by rcases hc with rfl | rfl <;> simp) rest
  | emptyObject hgap =>
    refine takes_object fun rest => group?_empty hgap (by decide) rest ?_
    simp [field?, value?_close hgap (.inr rfl) n rest]
  | object hsome hnames hvalues ihnames ihvalues =>
    refine takes_object (group?_append (by decide) hsome ?_)
    intro f hf c rest hc
    obtain ⟨m, rfl, hm⟩ := length_le_of_mem_group (List.mem_map_of_mem hf) hn
    simp only [Field.text, List.length_append, List.length_cons] at hm
    exact field?_append (ihnames f hf (by omega)) (ihvalues f hf (by omega)) hc rest

/-- Blanks on both sides of a text change nothing. -/
theorem IsText.padded {front back : List Char} (h : IsText v text)
    (hfront : ∀ c ∈ front, c.isWhitespace = true) (hback : ∀ c ∈ back, c.isWhitespace = true) :
    IsText v (front ++ (text ++ back)) := by
  induction front with
  | nil =>
    induction back using List.reverseRecOn with
    | nil => rwa [List.append_nil]
    | append_singleton back c ih =>
      obtain ⟨hback, hc⟩ := List.forall_mem_append.mp hback
      rw [← List.append_assoc, ← List.append_assoc]
      exact .behind (hc c (by simp)) (ih hback)
  | cons c front ih =>
    obtain ⟨hc, hfront⟩ := List.forall_mem_cons.mp hfront
    exact .before hc (ih hfront)

theorem exists_field {field : String × Document}
    (hvalue : ∀ {cs v rest}, value? n cs = some (v, rest) →
      ∃ text, IsText v text ∧ cs = text ++ rest)
    (h : field? (value? n) cs = some (field, rest)) :
    ∃ f : Field, (IsText (.string f.name) f.nameText ∧ IsText f.value f.valueText) ∧
      field = f.entry ∧ cs = f.text ++ rest := by
  obtain ⟨⟨key, behind⟩, hkey, hbehind⟩ := Option.bind_eq_some_iff.mp h
  obtain ⟨nameText, hname, rfl⟩ := hvalue hkey
  split at hbehind
  · rename_i name tail heq
    cases heq
    obtain ⟨⟨v, _⟩, hv, heq⟩ := Option.bind_eq_some_iff.mp hbehind
    cases heq
    obtain ⟨valueText, hvalueText, rfl⟩ := hvalue hv
    exact ⟨⟨name, v, nameText, valueText⟩, ⟨hname, hvalueText⟩, rfl, by simp [Field.text]⟩
  · cases hbehind

/-- What is read is a text of the value that it is read as. -/
theorem exists_isText (h : value? n cs = some (v, rest)) :
    ∃ text, IsText v text ∧ cs = text ++ rest := by
  induction n generalizing cs v rest with
  | zero => cases h
  | succ n ih =>
    obtain ⟨⟨_, behind⟩, hinner, heq⟩ := Option.map_eq_some_iff.mp h
    cases heq
    -- The value itself; the blanks on both sides of it are added to its text in the end.
    have htext : ∃ text, IsText v text ∧ cs.dropWhile Char.isWhitespace = text ++ behind := by
      split at hinner
      · rename_i tail htail
        obtain ⟨⟨s, _⟩, hs, heq⟩ := Option.map_eq_some_iff.mp hinner
        cases heq
        obtain ⟨pieces, hpieces, rfl, rfl⟩ := exists_pieces hs
        exact ⟨_, .string hpieces, by rw [htail]; simp⟩
      · rename_i tail htail
        obtain ⟨⟨items, _⟩, hitems, heq⟩ := Option.map_eq_some_iff.mp hinner
        cases heq
        have helement : ∀ {cs v rest}, value? n cs = some (v, rest) →
            ∃ item : Document × List Char, IsText item.1 item.2 ∧ v = item.1 ∧
              cs = item.2 ++ rest := by
          intro cs v rest hv
          obtain ⟨text, htext, heq⟩ := ih hv
          exact ⟨(v, text), htext, rfl, heq⟩
        rcases exists_group helement hitems with
          ⟨items, hsome, htexts, rfl, rfl⟩ | ⟨gap, hgap, rfl, rfl⟩
        · exact ⟨_, .array hsome htexts, by rw [htail]; simp⟩
        · exact ⟨_, .emptyArray hgap, by rw [htail]; simp⟩
      · rename_i tail htail
        obtain ⟨⟨fields, _⟩, hfields, heq⟩ := Option.map_eq_some_iff.mp hinner
        cases heq
        rcases exists_group (exists_field ih) hfields with
          ⟨fields, hsome, htexts, rfl, rfl⟩ | ⟨gap, hgap, rfl, rfl⟩
        · exact ⟨_, .object hsome (fun f hf => (htexts f hf).1) fun f hf => (htexts f hf).2,
            by rw [htail]; simp⟩
        · exact ⟨_, .emptyObject hgap, by rw [htail]; simp⟩
      · obtain ⟨_, hv, heq⟩ := Option.map_eq_some_iff.mp hinner
        cases heq
        exact ⟨_, isText_of_ofWord? hv, by simp⟩
    obtain ⟨text, htext, hdrop⟩ := htext
    refine ⟨_, htext.padded (forall_mem_takeWhile cs) (forall_mem_takeWhile behind), ?_⟩
    rw [List.append_assoc, List.append_assoc, List.takeWhile_append_dropWhile, ← hdrop,
      List.takeWhile_append_dropWhile]

/-- A text is decoded to a document just when it is a text of that document. -/
theorem decode?_eq_some_iff {s : String} : decode? s = some v ↔ IsText v s.toList := by
  constructor
  · intro h
    unfold decode? at h
    split at h
    · rename_i hread
      cases h
      obtain ⟨text, htext, heq⟩ := exists_isText hread
      rwa [heq, List.append_nil]
    · cases h
  · intro h
    have hread := takes_of_isText h (n := s.length) (by rw [String.length_toList]) [] (by simp)
    rw [List.append_nil] at hread
    simp [decode?, hread]

example : decode? " [ \"\\u00e9\\n\", true ]" = some (.array [.string "é\n", .truth true]) := rfl

/-- A comma stands between two values, and no number begins with a zero in front of its digits. -/
example : decode? "[null,]" = none ∧ decode? "01" = none := ⟨rfl, rfl⟩

/-- A text says one document at most. -/
theorem IsText.unique {w : Document} (hv : IsText v text) (hw : IsText w text) : v = w := by
  have hdecode : ∀ {u}, IsText u text → decode? (.ofList text) = some u := fun hu =>
    decode?_eq_some_iff.mpr (by simpa using hu)
  exact Option.some.inj ((hdecode hv).symm.trans (hdecode hw))

end Values

end Formula.Document
