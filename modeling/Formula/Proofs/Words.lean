import Formula.Proofs.Ending

/-!
# Words laid out in a text

A word is a token without its place. Which word may follow depends on the class of the word before
alone, and words that follow one another so can be laid out in a text with any blanks between them:
the scan finds them again. Only a parenthesis or a separator needs no blank beside it.
-/

namespace Formula

/-- A token without its place in the text. -/
structure Word where
  kind : TokenKind
  lexeme : String
  deriving Repr, DecidableEq

def Token.word (t : Token) : Word :=
  ⟨t.kind, t.lexeme⟩

namespace Word

def parenOpen : Word := ⟨.parenOpen, "("⟩

def parenClose : Word := ⟨.parenClose, ")"⟩

def separator : Word := ⟨.separator, ","⟩

/-- How a word stands in a text. The minus in front of an operand is spelled like the other one. -/
def spelling (w : Word) : List Char :=
  if w.lexeme = "u-" then ['-'] else w.lexeme.toList

/-- What no lexeme `u-` could be is spelled as its lexeme. -/
theorem spelling_eq {P : List Char → Prop} {w : Word} (hminus : ¬P ['u', '-'])
    (h : P w.lexeme.toList) : w.spelling = w.lexeme.toList := by
  refine if_neg fun heq => hminus ?_
  rwa [heq] at h

/-- The word ends at itself, whatever follows. -/
def IsBracket (w : Word) : Prop :=
  w.kind = .parenOpen ∨ w.kind = .parenClose ∨ w.kind = .separator

/-- The word may follow a word of the given class, and leaves the other one. -/
inductive Follows (scope : Scope) (last : Preceding) : Word → Preceding → Prop where
  | number {lexeme : String} (hnumeral : Lexeme.numeral? lexeme.toList = some (lexeme.toList, []))
      (hlast : last ≠ .value) : Follows scope last ⟨.number, lexeme⟩ .value
  | infixOp {lexeme : String} (hspelling : lexeme.toList ∈ Lexeme.infixSpellings)
      (hlast : last = .value) : Follows scope last ⟨.infixOp, lexeme⟩ .infixOp
  | name {lexeme : String} {entry : Entry}
      (hname : Lexeme.name? lexeme.toList = some (lexeme.toList, [])) (hminus : lexeme ≠ "-")
      (hentry : scope.lookup lexeme = some entry) :
      Follows scope last ⟨.prefixOp, lexeme⟩ (Scanner.classOf entry)
  | minus {entry : Entry} (hentry : scope.lookup "-" = some entry) (hlast : last ≠ .value) :
      Follows scope last ⟨.prefixOp, "u-"⟩ (Scanner.classOf entry)
  | separator (hlast : last ≠ .separator) : Follows scope last .separator .separator

end Word

/-- Words that may follow one another, behind a word of the given class and so many open
parentheses, which they close. Parentheses leave the class as it is. -/
inductive Disciplined (scope : Scope) : Preceding → Nat → List Word → Prop where
  | nil (last : Preceding) : Disciplined scope last 0 []
  | word {last next : Preceding} {depth : Nat} {w : Word} {rest : List Word}
      (hfollows : w.Follows scope last next) (hrest : Disciplined scope next depth rest) :
      Disciplined scope last depth (w :: rest)
  | parenOpen {last : Preceding} {depth : Nat} {rest : List Word}
      (hrest : Disciplined scope last (depth + 1) rest) :
      Disciplined scope last depth (.parenOpen :: rest)
  | parenClose {last : Preceding} {depth : Nat} {rest : List Word}
      (hrest : Disciplined scope last depth rest) :
      Disciplined scope last (depth + 1) (.parenClose :: rest)

/-- The text spells the words one after another with blanks before, between and behind them, at
least one behind a word that does not end at itself unless a parenthesis or a separator comes. -/
inductive Laid : List Word → List Char → Prop where
  | nil {gap : List Char} (hgap : ∀ c ∈ gap, Text.isBlank c = true) : Laid [] gap
  | cons {gap cs : List Char} {w : Word} {rest : List Word}
      (hgap : ∀ c ∈ gap, Text.isBlank c = true) (hends : w.IsBracket ∨ Boundary cs)
      (hrest : Laid rest cs) : Laid (w :: rest) (gap ++ (w.spelling ++ cs))

/-- The words with a blank in front of each. -/
def spaced (words : List Word) : List Char :=
  words.flatMap fun w => ' ' :: w.spelling

/-- All words can be laid out. -/
theorem laid_spaced (words : List Word) : Laid words (spaced words) := by
  have hblank : Text.isBlank ' ' = true := by decide
  induction words with
  | nil => exact @Laid.nil [] (by simp)
  | cons w rest ih =>
    refine @Laid.cons [' '] _ _ _ (List.forall_mem_singleton.mpr hblank) (.inr ?_) ih
    cases rest with
    | nil => simp [Boundary]
    | cons v rest =>
      have hdelimiter : isDelimiter ' ' = true := by decide
      simp [Boundary, hdelimiter]

namespace Scanner

/-- Blanks in front are passed. -/
theorem Scans.gap {resolver : Option Resolver} {gap cs : List Char} {s final : Scanner}
    (hgap : ∀ c ∈ gap, Text.isBlank c = true) (h : Scans resolver (s.advance gap) cs final) :
    Scans resolver s (gap ++ cs) final :=
  (reaches_gap resolver s cs hgap).append_scans h

/-- The scan behind one more word. -/
structure Behind (s : Scanner) (w : Word) (last : Preceding) (depth : Nat) (next : Scanner) :
    Prop where
  scope : next.scope = s.scope
  asked : next.asked = s.asked
  last : next.last = last
  depth : next.depth = depth
  tokens : next.tokens.toList.map Token.word = s.tokens.toList.map Token.word ++ [w]

/-- A word that may follow is found. -/
theorem exists_takes (resolver : Option Resolver) {s : Scanner} {w : Word} {last : Preceding}
    {cs : List Char} (h : w.Follows s.scope s.last last) (hends : w.IsBracket ∨ Boundary cs) :
    ∃ p next, Piece.next? s.last (w.spelling ++ cs) = some p ∧ p.rest = cs ∧
      Takes resolver s p next ∧ Behind s w last s.depth next := by
  cases h with
  | @number lexeme hnumeral hlast =>
    have hboundary : Boundary cs := hends.resolve_left (by simp [Word.IsBracket])
    have hspelling : Word.spelling ⟨.number, lexeme⟩ = lexeme.toList :=
      Word.spelling_eq (P := fun cs => Lexeme.numeral? cs = some (cs, [])) (by decide) hnumeral
    rw [hspelling]
    refine ⟨_, _, Piece.next?_number hboundary hnumeral hlast, rfl, .number rfl, ?_⟩
    constructor <;> simp [behind, emit, advance, Token.word]
  | @infixOp lexeme hinfix hlast =>
    have hboundary : Boundary cs := hends.resolve_left (by simp [Word.IsBracket])
    have hspelling : Word.spelling ⟨.infixOp, lexeme⟩ = lexeme.toList :=
      Word.spelling_eq (P := (· ∈ Lexeme.infixSpellings)) (by decide) hinfix
    rw [hspelling, hlast]
    refine ⟨_, _, Piece.next?_infixOp hboundary hinfix, rfl, .infixOp rfl, ?_⟩
    constructor <;> simp [behind, emit, advance, Token.word]
  | @name lexeme entry hname hminus hentry =>
    have hboundary : Boundary cs := hends.resolve_left (by simp [Word.IsBracket])
    have hspelling : Word.spelling ⟨.prefixOp, lexeme⟩ = lexeme.toList :=
      Word.spelling_eq (P := fun cs => Lexeme.name? cs = some (cs, [])) (by decide) hname
    have hsign : lexeme.toList = ['-'] → s.last ≠ .value := fun heq =>
      absurd (String.toList_inj.mp heq) hminus
    rw [hspelling]
    refine ⟨_, _, Piece.next?_name hboundary hname hsign, rfl,
      .known rfl (by rwa [String.ofList_toList]), ?_⟩
    constructor <;> simp [behind, emit, advance, Token.word, nameLexeme, hminus]
  | @minus entry hentry hlast =>
    have hboundary : Boundary cs := hends.resolve_left (by simp [Word.IsBracket])
    have hpiece : Piece.next? s.last (['-'] ++ cs) = some ⟨.name, ['-'], cs⟩ :=
      Piece.next?_name hboundary rfl fun _ => hlast
    refine ⟨_, _, hpiece, rfl, .known rfl hentry, ?_⟩
    constructor <;> simp [behind, emit, advance, Token.word, nameLexeme]
  | separator hlast =>
    have hblank : Text.isBlank ',' = false := by decide
    have hpiece : Piece.next? s.last ([','] ++ cs) = some ⟨.separator, [','], cs⟩ := by
      simp [Piece.next?, hblank, hlast]
    refine ⟨_, _, hpiece, rfl, .separator rfl, ?_⟩
    constructor <;> simp [behind, emit, advance, Token.word, Word.separator]

theorem exists_takes_parenOpen (resolver : Option Resolver) (s : Scanner) (cs : List Char) :
    ∃ p next, Piece.next? s.last (Word.parenOpen.spelling ++ cs) = some p ∧ p.rest = cs ∧
      Takes resolver s p next ∧ Behind s .parenOpen s.last (s.depth + 1) next := by
  have hblank : Text.isBlank '(' = false := by decide
  have hpiece : Piece.next? s.last (['('] ++ cs) = some ⟨.parenOpen, ['('], cs⟩ := by
    simp [Piece.next?, hblank]
  refine ⟨_, _, hpiece, rfl, .parenOpen rfl, ?_⟩
  constructor <;> simp [behind, emit, advance, Token.word, Word.parenOpen]

theorem exists_takes_parenClose (resolver : Option Resolver) {s : Scanner} {depth : Nat}
    (hdepth : s.depth = depth + 1) (cs : List Char) :
    ∃ p next, Piece.next? s.last (Word.parenClose.spelling ++ cs) = some p ∧ p.rest = cs ∧
      Takes resolver s p next ∧ Behind s .parenClose s.last depth next := by
  have hblank : Text.isBlank ')' = false := by decide
  have hpiece : Piece.next? s.last ([')'] ++ cs) = some ⟨.parenClose, [')'], cs⟩ := by
    simp [Piece.next?, hblank]
  refine ⟨_, _, hpiece, rfl, .parenClose rfl (by omega), ?_⟩
  constructor <;> simp [behind, emit, advance, Token.word, Word.parenClose, hdepth]

/-- The scan comes to the end of the text and finds these words, without learning a name. -/
def Finds (resolver : Option Resolver) (s : Scanner) (cs : List Char) (words : List Word) : Prop :=
  ∃ final, Scans resolver s cs final ∧ final.depth = 0 ∧ final.scope = s.scope ∧
    final.asked = s.asked ∧
    final.tokens.toList.map Token.word = s.tokens.toList.map Token.word ++ words

/-- What is found behind a word is found behind its place in the text. -/
theorem Finds.cons {resolver : Option Resolver} {s next : Scanner} {gap cs : List Char} {w : Word}
    {rest : List Word} {last : Preceding} {depth : Nat} {p : Piece}
    (hgap : ∀ c ∈ gap, Text.isBlank c = true)
    (hpiece : Piece.next? (s.advance gap).last (w.spelling ++ cs) = some p) (hrest : p.rest = cs)
    (htakes : Takes resolver (s.advance gap) p next)
    (hbehind : Behind (s.advance gap) w last depth next) (h : Finds resolver next cs rest) :
    Finds resolver s (gap ++ (w.spelling ++ cs)) (w :: rest) := by
  obtain ⟨final, hscans, hdepth, hscope, hasked, htokens⟩ := h
  refine ⟨final, Scans.gap hgap (.cons hpiece htakes (by rwa [hrest])), hdepth,
    hscope.trans hbehind.scope, hasked.trans hbehind.asked, ?_⟩
  rw [htokens, hbehind.tokens, List.append_assoc]
  rfl

/-- Words that may follow one another are found in every text that spells them. -/
theorem finds_of_disciplined (resolver : Option Resolver) {scope : Scope} {last : Preceding}
    {depth : Nat} {words : List Word} (h : Disciplined scope last depth words) {cs : List Char}
    (hlaid : Laid words cs) {s : Scanner} (hscope : s.scope = scope) (hlast : s.last = last)
    (hdepth : s.depth = depth) : Finds resolver s cs words := by
  induction h generalizing s cs with
  | nil last =>
    cases hlaid with
    | nil hgap =>
      have hscans : Scans resolver s (cs ++ []) _ := Scans.gap hgap (.nil (s.advance cs))
      rw [List.append_nil] at hscans
      exact ⟨s.advance cs, hscans, hdepth, rfl, rfl, by simp [advance]⟩
  | word hfollows hrest ih =>
    cases hlaid with
    | @cons gap cs _ _ hgap hends hlaid =>
      subst hscope hlast
      obtain ⟨p, next, hpiece, hbehindPiece, htakes, hbehind⟩ :=
        exists_takes resolver (s := s.advance gap) hfollows hends
      exact .cons hgap hpiece hbehindPiece htakes hbehind
        (ih hlaid hbehind.scope hbehind.last (hbehind.depth.trans hdepth))
  | parenOpen hrest ih =>
    cases hlaid with
    | @cons gap cs _ _ hgap hends hlaid =>
      obtain ⟨p, next, hpiece, hbehindPiece, htakes, hbehind⟩ :=
        exists_takes_parenOpen resolver (s.advance gap) cs
      refine .cons hgap hpiece hbehindPiece htakes hbehind
        (ih hlaid (hbehind.scope.trans hscope) (hbehind.last.trans hlast) ?_)
      rw [hbehind.depth, ← hdepth]
      rfl
  | parenClose hrest ih =>
    cases hlaid with
    | @cons gap cs _ _ hgap hends hlaid =>
      have hopen : (s.advance gap).depth = _ + 1 := hdepth
      obtain ⟨p, next, hpiece, hbehindPiece, htakes, hbehind⟩ :=
        exists_takes_parenClose resolver hopen cs
      exact .cons hgap hpiece hbehindPiece htakes hbehind
        (ih hlaid (hbehind.scope.trans hscope) (hbehind.last.trans hlast) hbehind.depth)

end Scanner

end Formula
