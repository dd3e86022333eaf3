import Formula.Proofs.Ending
import Formula.Proofs.Words

/-!
# Where tokens stand in a text

Nothing of a text is lost between its tokens, and nothing is added: the text is the spellings of its
tokens, each at the byte position that the token names, with blanks before, between and behind them.
-/

namespace Formula

namespace Token

/-- How the token stands in the text. -/
def spelling (t : Token) : List Char :=
  t.word.spelling

/-- The position behind the token. -/
def stop (t : Token) : Nat :=
  t.index + Text.byteLength t.spelling

end Token

/-- From the given position on, the text spells the tokens, each where it says, with blanks before,
between and behind them. -/
inductive LaidOut : Nat → List Token → List Char → Prop where
  | nil {start : Nat} {gap : List Char} (hgap : ∀ c ∈ gap, Text.isBlank c = true) :
      LaidOut start [] gap
  | cons {start : Nat} {gap cs : List Char} {t : Token} {rest : List Token}
      (hgap : ∀ c ∈ gap, Text.isBlank c = true)
      (hindex : t.index = start + Text.byteLength gap) (hrest : LaidOut t.stop rest cs) :
      LaidOut start (t :: rest) (gap ++ (t.spelling ++ cs))

/-- No piece is spelled like the name of the minus in front of an operand. -/
theorem Piece.Fits.lexeme_ne {last : Preceding} {p : Piece} (h : p.Fits last) :
    p.lexeme ≠ ['u', '-'] := by
  intro heq
  rcases p with ⟨shape, lexeme, rest⟩
  subst heq
  cases shape with
  | blank => exact absurd (h 'u' (by simp)) (by decide)
  | parenOpen => cases h
  | parenClose => cases h
  | separator => cases h.1
  | infixOp =>
    have hmem : ['u', '-'] ∈ Lexeme.infixSpellings := h.1
    exact absurd hmem (by decide)
  | number =>
    have htaken : Lexeme.numeral? ['u', '-'] = some (['u', '-'], []) :=
      Lexeme.numeral?_eq_self_iff.mpr h.1
    exact absurd htaken (by decide)
  | name =>
    rcases h with hbang | hidentifier | hsign
    · cases hbang
    · have htaken : Lexeme.name? ['u', '-'] = some (['u', '-'], []) :=
        Lexeme.name?_eq_self_iff.mpr (.inr (.inr hidentifier))
      exact absurd htaken (by decide)
    · cases hsign.1

theorem Word.spelling_ofList {kind : TokenKind} {cs : List Char} (h : cs ≠ ['u', '-']) :
    Word.spelling ⟨kind, String.ofList cs⟩ = cs := by
  rw [Word.spelling, if_neg, String.toList_ofList]
  exact fun heq => h (String.ofList_injective heq)

theorem Word.spelling_nameLexeme {kind : TokenKind} {cs : List Char} (h : cs ≠ ['u', '-']) :
    Word.spelling ⟨kind, Scanner.nameLexeme (String.ofList cs)⟩ = cs := by
  unfold Scanner.nameLexeme
  split
  · rename_i hminus
    exact (String.ofList_injective hminus).symm
  · exact Word.spelling_ofList h

namespace Scanner

variable {resolver : Option Resolver} {s next final : Scanner} {cs : List Char} {p : Piece}

/-- A piece that is taken up is blank or becomes one token, which is spelled like it and stands
where the scan was. -/
theorem Takes.tokens_eq (hfits : p.Fits s.last) (h : Takes resolver s p next) :
    (next.tokens = s.tokens ∧ ∀ c ∈ p.lexeme, Text.isBlank c = true) ∨
      ∃ t, next.tokens = s.tokens.push t ∧ t.index = s.index ∧ t.spelling = p.lexeme := by
  have hne := hfits.lexeme_ne
  cases h with
  | blank hshape =>
    rw [Piece.Fits, hshape] at hfits
    exact .inl ⟨rfl, hfits⟩
  | known => exact .inr ⟨_, rfl, rfl, Word.spelling_nameLexeme hne⟩
  | learned => exact .inr ⟨_, rfl, rfl, Word.spelling_nameLexeme hne⟩
  | _ => exact .inr ⟨_, rfl, rfl, Word.spelling_ofList hne⟩

end Scanner

namespace LaidOut

variable {start : Nat} {gap cs : List Char} {t : Token} {tokens rest : List Token}

/-- Blanks in front belong to the first gap. -/
theorem blanks (hgap : ∀ c ∈ gap, Text.isBlank c = true)
    (h : LaidOut (start + Text.byteLength gap) tokens cs) : LaidOut start tokens (gap ++ cs) := by
  cases h with
  | nil hmore => exact .nil (List.forall_mem_append.mpr ⟨hgap, hmore⟩)
  | cons hmore hindex hrest =>
    rw [← List.append_assoc]
    refine .cons (List.forall_mem_append.mpr ⟨hgap, hmore⟩) ?_ hrest
    rw [hindex, Text.byteLength_append, Nat.add_assoc]

/-- A token without a gap in front. -/
theorem token (hindex : t.index = start) (hrest : LaidOut t.stop rest cs) :
    LaidOut start (t :: rest) (t.spelling ++ cs) :=
  @LaidOut.cons start [] cs t rest (by simp) hindex hrest

/-- Every token stands in the text at its position. -/
theorem exists_of_mem (h : LaidOut start tokens cs) (ht : t ∈ tokens) :
    ∃ front back, cs = front ++ (t.spelling ++ back) ∧
      t.index = start + Text.byteLength front := by
  induction h with
  | nil => cases ht
  | @cons start gap cs first rest hgap hindex hrest ih =>
    rcases List.mem_cons.mp ht with rfl | ht
    · exact ⟨gap, cs, rfl, hindex⟩
    · obtain ⟨front, back, rfl, hposition⟩ := ih ht
      refine ⟨gap ++ (first.spelling ++ front), back, by simp, ?_⟩
      rw [hposition, Token.stop, hindex, Text.byteLength_append, Text.byteLength_append]
      omega

/-- The tokens behind a position begin there at the earliest, and each ends where the next begins or
before. -/
theorem pairwise_stop_le (h : LaidOut start tokens cs) :
    (∀ t ∈ tokens, start ≤ t.index) ∧ tokens.Pairwise fun t u => t.stop ≤ u.index := by
  induction h with
  | nil => simp
  | @cons start gap cs first rest hgap hindex hrest ih =>
    obtain ⟨hlater, hpairwise⟩ := ih
    refine ⟨fun u hu => ?_, List.pairwise_cons.mpr ⟨hlater, hpairwise⟩⟩
    rcases List.mem_cons.mp hu with rfl | hu
    · omega
    · have hle := hlater u hu
      rw [Token.stop] at hle
      omega

end LaidOut

/-- The tokens that a scan adds are laid out in the text that it takes up, and none of them is
spelled with nothing. -/
theorem Scanner.Scans.exists_laidOut {resolver : Option Resolver} {s final : Scanner}
    {cs : List Char} (h : Scanner.Scans resolver s cs final) :
    ∃ added, final.tokens.toList = s.tokens.toList ++ added ∧ LaidOut s.index added cs ∧
      ∀ t ∈ added, t.spelling ≠ [] := by
  induction h with
  | nil s => exact ⟨[], by simp, .nil (by simp), by simp⟩
  | @cons s next final cs p hpiece htakes hrest ih =>
    obtain ⟨added, htokens, hlaid, hne⟩ := ih
    obtain ⟨happend, hlexeme⟩ := Piece.next?_append hpiece
    rw [htakes.index_eq] at hlaid
    rcases htakes.tokens_eq (Piece.fits_of_next? hpiece) with
      ⟨hsame, hblank⟩ | ⟨t, hpush, hindex, hspelling⟩
    · refine ⟨added, by rw [htokens, hsame], ?_, hne⟩
      rw [← happend]
      exact hlaid.blanks hblank
    · refine ⟨t :: added, by simp [htokens, hpush], ?_, ?_⟩
      · rw [← hspelling, ← hindex] at hlaid
        rw [← happend, ← hspelling]
        exact .token hindex hlaid
      · exact List.forall_mem_cons.mpr ⟨hspelling ▸ hlexeme, hne⟩

/-- The tokens of a scan are laid out in the folded text. -/
theorem exists_laidOut_of_scan {text : String} {scope : Scope} {resolver : Option Resolver}
    {tokens : List Token} (h : (scan text scope resolver).outcome = .ok tokens) :
    LaidOut 0 tokens (Text.foldCase text).toList ∧ ∀ t ∈ tokens, t.spelling ≠ [] := by
  obtain ⟨final, hscans, -, -, rfl⟩ := Scanner.exists_scans h
  obtain ⟨added, hadded, hlaid⟩ := hscans.exists_laidOut
  have htokens : final.tokens.toList = added := hadded
  rw [htokens]
  exact hlaid

/-- A text, its letters made small, is nothing but the spellings of its tokens at their positions
and blanks. The positions go up, and no token reaches into the next. -/
theorem laidOut_of_scan {text : String} {scope : Scope} {resolver : Option Resolver}
    {tokens : List Token} (h : (scan text scope resolver).outcome = .ok tokens) :
    LaidOut 0 tokens (Text.foldCase text).toList ∧
      tokens.Pairwise fun t u => t.index < u.index ∧ t.stop ≤ u.index := by
  obtain ⟨hlaid, hne⟩ := exists_laidOut_of_scan h
  refine ⟨hlaid, hlaid.pairwise_stop_le.2.imp_of_mem fun {t u} ht _ hle => ⟨?_, hle⟩⟩
  have hwidth := Text.byteLength_pos (hne t ht)
  rw [Token.stop] at hle
  omega

/-- A minus in front of an operand, a blank of two bytes and a name that only the resolver knows. -/
theorem laidOut_minus_width :
    ∃ tokens, (scan "-\u00a0Width<=.5" .builtin
        (some fun name => if name = "width" then some (.constant 0 4) else none)).outcome =
          .ok tokens ∧
      tokens = [⟨.prefixOp, "u-", 0⟩, ⟨.prefixOp, "width", 3⟩, ⟨.infixOp, "<=", 8⟩,
        ⟨.number, ".5", 10⟩] ∧
      LaidOut 0 tokens "-\u00a0width<=.5".toList ∧
      tokens.Pairwise fun t u => t.index < u.index ∧ t.stop ≤ u.index := by
  have hscan : (scan "-\u00a0Width<=.5" .builtin
      (some fun name => if name = "width" then some (.constant 0 4) else none)).outcome =
        .ok [⟨.prefixOp, "u-", 0⟩, ⟨.prefixOp, "width", 3⟩, ⟨.infixOp, "<=", 8⟩,
          ⟨.number, ".5", 10⟩] := by
    decide +kernel
  have hfold : Text.foldCase "-\u00a0Width<=.5" = "-\u00a0width<=.5" := by decide +kernel
  have hlaid := laidOut_of_scan hscan
  rw [hfold] at hlaid
  exact ⟨_, hscan, rfl, hlaid⟩

end Formula
