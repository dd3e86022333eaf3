import Formula.Text.Combining
import Formula.Text.Grapheme.Tables

/-!
# Graphemes

A grapheme is what a reader takes for one character: a letter with its accents, a syllable, a flag,
a sequence of joined pictographs. A text is cut into graphemes by the rules for extended grapheme
clusters. The graphemes of a text, one behind another, are the text.
-/

namespace Formula.Text

namespace Grapheme

/-- The classes that the rules distinguish. -/
inductive Class where
  | carriageReturn
  | lineFeed
  | control
  | extender
  | joiner
  | regional
  | prepended
  | spacingMark
  | leadingJamo
  | vowelJamo
  | trailingJamo
  | openSyllable
  | closedSyllable
  | pictograph
  | consonant
  | other
  deriving Repr, DecidableEq

/-- The class of a syllable of the block that lists them by leading consonant, vowel and trailing
consonant; every twenty-eighth has none at its end. -/
def syllableClass (c : Char) : Class :=
  if (c.toNat - 0xac00) % 28 = 0 then .openSyllable else .closedSyllable

/-- The class of a character. -/
def classOf (c : Char) : Class :=
  if c = '\r' then .carriageReturn
  else if c = '\n' then .lineFeed
  else if c = '\u200d' then .joiner
  else if inRanges [(0x1100, 0x115f), (0xa960, 0xa97c)] c then .leadingJamo
  else if inRanges [(0x1160, 0x11a7), (0xd7b0, 0xd7c6), (0x16d63, 0x16d63), (0x16d67, 0x16d6a)] c
  then .vowelJamo
  else if inRanges [(0x11a8, 0x11ff), (0xd7cb, 0xd7fb)] c then .trailingJamo
  else if inRanges [(0xac00, 0xd7a3)] c then syllableClass c
  else if inRanges [(0x1f1e6, 0x1f1ff)] c then .regional
  else if isCombining c || inRanges [(0x1f3fb, 0x1f3ff)] c then .extender
  else if inRanges controlRanges c then .control
  else if inRanges prependedRanges c then .prepended
  else if inRanges spacingMarkRanges c then .spacingMark
  else if inRanges pictographRanges c then .pictograph
  else if inRanges consonantRanges c then .consonant
  else .other

/-- How far a sequence of joined pictographs has come: a pictograph with extenders, perhaps with a
joiner behind it. -/
inductive Sequence where
  | none
  | pictograph
  | joined
  deriving Repr, DecidableEq

/-- How far a conjunct of consonants has come: a consonant with extenders, perhaps with a linking
sign among them. -/
inductive Conjunct where
  | none
  | consonant
  | linked
  deriving Repr, DecidableEq

/-- What a grapheme so far says about the character behind it. -/
structure Context where
  last : Class
  openPair : Bool
  pictographs : Sequence
  conjunct : Conjunct
  deriving Repr, DecidableEq

/-- In front of the first character. -/
def Context.start : Context :=
  ⟨.other, false, .none, .none⟩

/-- Behind one more character. Two regional indicators make a pair, which a third one does not
join. -/
def Context.next (b : Context) (c : Char) : Context :=
  let k := classOf c
  let pictographs : Sequence :=
    match k, b.pictographs with
    | .pictograph, _ => .pictograph
    | .extender, .pictograph => .pictograph
    | .joiner, .pictograph => .joined
    | _, _ => .none
  let conjunct : Conjunct :=
    match k, b.conjunct with
    | .consonant, _ => .consonant
    | .extender, .consonant =>
      if c = '\u200c' then .none else if inRanges linkerRanges c then .linked else .consonant
    | .extender, .linked => if c = '\u200c' then .none else .linked
    | .joiner, before => before
    | _, _ => .none
  ⟨k, k == .regional && !(b.last == .regional && b.openPair), pictographs, conjunct⟩

/-- Whether a character belongs to the grapheme so far. -/
def Context.takes (b : Context) (c : Char) : Bool :=
  match b.last, classOf c with
  | .carriageReturn, k => k == .lineFeed
  | .lineFeed, _ => false
  | .control, _ => false
  | _, .carriageReturn => false
  | _, .lineFeed => false
  | _, .control => false
  | _, .extender => true
  | _, .joiner => true
  | _, .spacingMark => true
  | .prepended, _ => true
  | .leadingJamo, k =>
    k == .leadingJamo || k == .vowelJamo || k == .openSyllable || k == .closedSyllable
  | .openSyllable, k => k == .vowelJamo || k == .trailingJamo
  | .vowelJamo, k => k == .vowelJamo || k == .trailingJamo
  | .closedSyllable, k => k == .trailingJamo
  | .trailingJamo, k => k == .trailingJamo
  | .regional, .regional => b.openPair
  | _, .pictograph => b.pictographs == .joined
  | _, .consonant => b.conjunct == .linked
  | _, _ => false

end Grapheme

/-- The graphemes of a text that goes on behind a grapheme so far. -/
def graphemesFrom (b : Grapheme.Context) (grapheme : List Char) : List Char → List (List Char)
  | [] => [grapheme]
  | c :: rest =>
    if b.takes c then graphemesFrom (b.next c) (grapheme ++ [c]) rest
    else grapheme :: graphemesFrom (Grapheme.Context.start.next c) [c] rest

/-- The graphemes of a text. -/
def graphemes : List Char → List (List Char)
  | [] => []
  | c :: rest => graphemesFrom (Grapheme.Context.start.next c) [c] rest

theorem flatten_graphemesFrom (b : Grapheme.Context) (grapheme cs : List Char) :
    (graphemesFrom b grapheme cs).flatten = grapheme ++ cs := by
  induction cs generalizing b grapheme with
  | nil => simp [graphemesFrom]
  | cons c rest ih =>
    unfold graphemesFrom
    split
    · rw [ih, List.append_assoc, List.singleton_append]
    · rw [List.flatten_cons, ih, List.singleton_append]

/-- The graphemes of a text, one behind another, are the text. -/
theorem flatten_graphemes (cs : List Char) : (graphemes cs).flatten = cs := by
  cases cs with
  | nil => rfl
  | cons c rest => exact flatten_graphemesFrom _ [c] rest

-- A letter and the accent on it are one grapheme.
example : graphemes ['e', '\u0301', 'x'] = [['e', '\u0301'], ['x']] := by
  decide +kernel

end Formula.Text
