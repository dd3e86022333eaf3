import Formula.Proofs.Longest
import Formula.Proofs.Passage
import Formula.Proofs.Places
import Formula.Proofs.Replacement

/-!
# Blanks between tokens and the case of letters

A lexeme ends at every blank, so what a scan finds does not depend on what comes behind a blank that
is put in between two tokens. The scan of the text with the blanks goes step by step with the scan
of the text without them, and comes to the same tokens at places further on.
-/

namespace Formula

namespace Text

variable {blanks : Nat → List Char} {i j n : Nat} {text : String} {c : Char}
  {cs gap front back : List Char}

/-- The characters from a byte position on, with blanks put in front of each and behind the last, by
their byte positions. -/
def pad (blanks : Nat → List Char) : Nat → List Char → List Char
  | i, [] => blanks i
  | i, c :: cs => blanks i ++ c :: pad blanks (i + c.utf8Size) cs

/-- The number of bytes put in at the positions below `n`. -/
def inserted (blanks : Nat → List Char) : Nat → Nat
  | 0 => 0
  | n + 1 => inserted blanks n + byteLength (blanks n)

/-- Where nothing is put in, nothing is added. -/
theorem inserted_eq (hle : i ≤ n) (hnone : ∀ j, i ≤ j → j < n → blanks j = []) :
    inserted blanks n = inserted blanks i := by
  induction n, hle using Nat.le_induction with
  | base => rfl
  | succ n hle ih =>
    rw [inserted, hnone n hle (Nat.lt_succ_self n), ih fun j hj hlt => hnone j hj (by omega)]
    rfl

/-- What is put in between the characters of some front stands behind its first place. -/
theorem pad_append (hne : front ≠ [])
    (hnone : ∀ j, i < j → j < i + byteLength front → blanks j = []) :
    pad blanks i (front ++ back) =
      blanks i ++ (front ++ pad blanks (i + byteLength front) back) := by
  induction front generalizing i with
  | nil => exact absurd rfl hne
  | cons c front ih =>
    have hwidth := c.utf8Size_pos
    rw [byteLength_cons] at hnone ⊢
    cases front with
    | nil => rfl
    | cons d front =>
      have hpos := byteLength_pos (List.cons_ne_nil d front)
      have hinner := ih (i := i + c.utf8Size) (List.cons_ne_nil d front)
        fun j hj hlt => hnone j (by omega) (by omega)
      rw [hnone (i + c.utf8Size) (by omega) (by omega), List.nil_append, Nat.add_assoc] at hinner
      rw [List.cons_append, pad, hinner]
      rfl

theorem map_toLower_of_isBlank (hgap : ∀ c ∈ gap, isBlank c = true) :
    gap.map Char.toLower = gap := by
  refine (List.map_congr_left fun c hc => ?_).trans (List.map_id gap)
  have hcode := code_of_isDelimiter (c := c) (by simp [isDelimiter, hgap c hc])
  exact Lexeme.toLower_eq_self (by omega)

/-- Blanks can be put in before letters are folded or after. -/
theorem map_toLower_pad (hblank : ∀ i, ∀ c ∈ blanks i, isBlank c = true) (i : Nat)
    (cs : List Char) :
    (pad blanks i cs).map Char.toLower = pad blanks i (cs.map Char.toLower) := by
  induction cs generalizing i with
  | nil => exact map_toLower_of_isBlank (hblank i)
  | cons c cs ih =>
    rw [pad, List.map_append, map_toLower_of_isBlank (hblank i), List.map_cons, ih, List.map_cons,
      pad, utf8Size_toLower]

theorem boundary_append (hgap : ∀ c ∈ gap, isBlank c = true) (hcs : gap = [] → Boundary cs) :
    Boundary (gap ++ cs) := by
  cases gap with
  | nil => exact hcs rfl
  | cons c gap =>
    intro d hd
    cases hd
    simp [isDelimiter, hgap c (by simp)]

/-- Up to the first blanks that are put in, the characters are the same. -/
theorem exists_boundary_pad (hblank : ∀ i, ∀ c ∈ blanks i, isBlank c = true) (i : Nat)
    (cs : List Char) :
    ∃ between back other, cs = between ++ back ∧ pad blanks i cs = between ++ other ∧
      Boundary other := by
  induction cs generalizing i with
  | nil =>
    refine ⟨[], [], blanks i, rfl, rfl, ?_⟩
    rw [← List.append_nil (blanks i)]
    exact boundary_append (hblank i) fun _ => by simp [Boundary]
  | cons c cs ih =>
    by_cases hnone : blanks i = []
    · obtain ⟨between, back, other, hsplit, hpad, hother⟩ := ih (i + c.utf8Size)
      refine ⟨c :: between, back, other, by rw [hsplit]; rfl, ?_, hother⟩
      rw [pad, hnone, hpad]
      rfl
    · exact ⟨[], c :: cs, _, rfl, rfl, boundary_append (hblank i) fun h => absurd h hnone⟩

/-- No place between two characters is inside of one. -/
theorem StandsAt.le_of_lt (h : StandsAt [] text i) (hsplit : text.toList = front ++ c :: back)
    (hlt : byteLength front < i) : byteLength front + c.utf8Size ≤ i := by
  obtain ⟨before, behind, htext, rfl⟩ := h
  rw [hsplit, List.nil_append] at htext
  rcases List.append_eq_append_iff.mp htext with ⟨more, rfl, hmore⟩ | ⟨more, rfl, -⟩
  · cases more with
    | nil => simp at hlt
    | cons d more =>
      obtain ⟨rfl, -⟩ := List.cons.inj hmore
      rw [byteLength_append, byteLength_cons]
      omega
  · rw [byteLength_append] at hlt
    omega

theorem StandsAt.foldCase (h : StandsAt [] text i) : StandsAt [] (foldCase text) i := by
  obtain ⟨front, back, htext, rfl⟩ := h
  refine ⟨front.map Char.toLower, back.map Char.toLower, ?_, (byteLength_map_toLower front).symm⟩
  rw [toList_foldCase, htext, List.map_append]
  rfl

end Text

open Text

/-- Blanks to be put into a text at byte positions, each between two characters or at an end. -/
structure Padding (text : String) where
  blanks : Nat → List Char
  isBlank : ∀ i, ∀ c ∈ blanks i, Text.isBlank c = true
  standsAt : ∀ i, blanks i ≠ [] → StandsAt [] text i

namespace Padding

variable {text : String}

/-- The text with the blanks. -/
def apply (padding : Padding text) : String :=
  String.ofList (pad padding.blanks 0 text.toList)

/-- The token in the text with the blanks: behind all bytes that are put in up to its place. -/
def move (padding : Padding text) (t : Token) : Token :=
  { t with index := t.index + inserted padding.blanks (t.index + 1) }

/-- Nothing is put into the token. -/
def Spares (padding : Padding text) (t : Token) : Prop :=
  ∀ i < t.stop, t.index < i → padding.blanks i = []

instance (padding : Padding text) (t : Token) : Decidable (padding.Spares t) :=
  inferInstanceAs (Decidable (∀ i < t.stop, t.index < i → padding.blanks i = []))

end Padding

/-- A blank piece is one character. -/
theorem Piece.lexeme_of_isBlank {last : Preceding} {cs : List Char} {p : Piece}
    (h : Piece.next? last cs = some p) (hblank : ∀ c ∈ p.lexeme, Text.isBlank c = true) :
    ∃ c, p.lexeme = [c] := by
  obtain ⟨happend, hne⟩ := next?_append h
  obtain ⟨c, tail, hlexeme⟩ := List.exists_cons_of_ne_nil hne
  rw [← happend, hlexeme, List.cons_append, next?, if_pos (hblank c (by simp [hlexeme]))] at h
  exact ⟨c, (congrArg Piece.lexeme (Option.some.inj h)).symm⟩

/-- A piece stays the same where blanks are put in behind it. -/
theorem Piece.next?_pad {blanks : Nat → List Char} {last : Preceding} {cs : List Char} {p : Piece}
    (hblank : ∀ i, ∀ c ∈ blanks i, Text.isBlank c = true) (h : Piece.next? last cs = some p)
    (i : Nat) :
    next? last (p.lexeme ++ pad blanks i p.rest) =
      some ⟨p.shape, p.lexeme, pad blanks i p.rest⟩ := by
  obtain ⟨between, back, other, hsplit, hpad, hother⟩ := exists_boundary_pad hblank i p.rest
  rw [← (next?_append h).1, hsplit, ← List.append_assoc] at h
  rw [hpad, ← List.append_assoc]
  exact next?_cut hother h hsplit

namespace Scanner

variable {resolver : Option Resolver} {s t next final : Scanner} {p : Piece}
  {cs : List Char} {text : String} {scope : Scope}

/-- The scan with other tokens and another position. -/
def placed (s : Scanner) (tokens : Array Token) (index : Nat) : Scanner :=
  { s with tokens := tokens, index := index }

/-- A piece is taken up in the same way at another place. -/
theorem Takes.placed (h : Takes resolver s p next) (rest : List Char) (tokens : Array Token)
    (index : Nat) :
    ∃ added, Takes resolver (s.placed tokens index) ⟨p.shape, p.lexeme, rest⟩
        (next.placed added (index + byteLength p.lexeme)) ∧
      (next.tokens = s.tokens ∧ added = tokens ∨
        ∃ t, next.tokens = s.tokens.push t ∧ t.index = s.index ∧
          added = tokens.push { t with index := index }) := by
  cases h with
  | blank hshape => exact ⟨_, .blank hshape, .inl ⟨rfl, rfl⟩⟩
  | parenOpen hshape => exact ⟨_, .parenOpen hshape, .inr ⟨_, rfl, rfl, rfl⟩⟩
  | parenClose hshape hdepth => exact ⟨_, .parenClose hshape hdepth, .inr ⟨_, rfl, rfl, rfl⟩⟩
  | separator hshape => exact ⟨_, .separator hshape, .inr ⟨_, rfl, rfl, rfl⟩⟩
  | infixOp hshape => exact ⟨_, .infixOp hshape, .inr ⟨_, rfl, rfl, rfl⟩⟩
  | number hshape => exact ⟨_, .number hshape, .inr ⟨_, rfl, rfl, rfl⟩⟩
  | known hshape hentry => exact ⟨_, .known hshape hentry, .inr ⟨_, rfl, rfl, rfl⟩⟩
  | learned hshape hunknown hresolver hentry =>
    exact ⟨_, .learned hshape hunknown hresolver hentry, .inr ⟨_, rfl, rfl, rfl⟩⟩

/-- The scan at the same place of the text with the blanks, in front of those that are put in
there. -/
def padded (s : Scanner) (padding : Padding text) : Scanner :=
  s.placed (s.tokens.map padding.move) (s.index + inserted padding.blanks s.index)

/-- Nothing is put into a piece that is taken up. -/
theorem Scans.blanks_eq_nil {padding : Padding text}
    (h : Scans resolver (.start scope) (foldCase text).toList final)
    (hspares : ∀ t ∈ final.tokens.toList, padding.Spares t)
    (hreaches : Reaches resolver (.start scope) (foldCase text).toList s cs)
    (hpiece : Piece.next? s.last cs = some p) (htakes : Takes resolver s p next) :
    ∀ i, s.index < i → i < next.index → padding.blanks i = [] := by
  intro i hlt hnext
  rw [htakes.index_eq] at hnext
  rcases htakes.tokens_eq (Piece.fits_of_next? hpiece) with
    ⟨-, hblank⟩ | ⟨t, hpush, hindex, hspelling⟩
  · -- A blank is one character, and blanks are put in between characters only.
    obtain ⟨c, hlexeme⟩ := Piece.lexeme_of_isBlank hpiece hblank
    obtain ⟨front, hsplit, hplace⟩ := hreaches.exists_front
    have hplace : s.index = byteLength front := hplace.trans (Nat.zero_add _)
    rw [← (Piece.next?_append hpiece).1, hlexeme] at hsplit
    rw [hlexeme, byteLength_cons, byteLength_nil] at hnext
    by_contra hne
    have hle := (padding.standsAt i hne).foldCase.le_of_lt hsplit (by omega)
    omega
  · -- A token that is added here is among those of the whole scan, which are spared.
    have hbehind := (hreaches.trans (.step hpiece htakes (.here _ _))).to_scans h
    obtain ⟨added, hadded, -, -⟩ := hbehind.exists_laidOut
    have ht : t ∈ final.tokens.toList := by simp [hadded, hpush]
    refine hspares t ht i ?_ (by omega)
    rw [Token.stop, hspelling, hindex]
    exact hnext

/-- A step in the text is one in the text with the blanks, behind those that are put in there. -/
theorem Takes.padded {padding : Padding text} (hpiece : Piece.next? s.last cs = some p)
    (htakes : Takes resolver s p next)
    (hnone : ∀ i, s.index < i → i < next.index → padding.blanks i = []) :
    Reaches resolver (s.padded padding) (pad padding.blanks s.index cs) (next.padded padding)
      (pad padding.blanks next.index p.rest) := by
  obtain ⟨happend, hne⟩ := Piece.next?_append hpiece
  have hlt := htakes.index_lt hpiece
  have hinserted : inserted padding.blanks next.index =
      inserted padding.blanks s.index + byteLength (padding.blanks s.index) :=
    inserted_eq (Nat.succ_le_of_lt hlt) hnone
  rw [htakes.index_eq] at hnone
  have hpad : pad padding.blanks s.index cs = padding.blanks s.index ++
      (p.lexeme ++ pad padding.blanks next.index p.rest) := by
    rw [← happend, pad_append hne hnone, htakes.index_eq]
  obtain ⟨added, hstep, htokens⟩ := htakes.placed (pad padding.blanks next.index p.rest)
    (s.tokens.map padding.move)
    (s.index + inserted padding.blanks s.index + byteLength (padding.blanks s.index))
  have hadded : added = next.tokens.map padding.move := by
    rcases htokens with ⟨hsame, rfl⟩ | ⟨t, hpush, hindex, rfl⟩
    · rw [hsame]
    · rw [hpush, Array.map_push, Padding.move, hindex, inserted, Nat.add_assoc]
  have hplace : s.index + inserted padding.blanks s.index + byteLength (padding.blanks s.index) +
      byteLength p.lexeme = next.index + inserted padding.blanks next.index := by
    rw [hinserted, htakes.index_eq]
    omega
  rw [hadded, hplace] at hstep
  rw [hpad]
  exact (reaches_gap resolver _ _ (padding.isBlank s.index)).trans
    (.step (Piece.next?_pad padding.isBlank hpiece next.index) hstep (.here _ _))

/-- The scan of the text with the blanks comes wherever the scan of the text comes. -/
theorem Reaches.padded {padding : Padding text}
    (hscans : Scans resolver (.start scope) (foldCase text).toList final)
    (hspares : ∀ t ∈ final.tokens.toList, padding.Spares t)
    (h : Reaches resolver (.start scope) (foldCase text).toList s cs) :
    Reaches resolver (.start scope) (pad padding.blanks 0 (foldCase text).toList)
      (s.padded padding) (pad padding.blanks s.index cs) := by
  have hstart : (start scope).padded padding = .start scope := by
    rw [Scanner.padded, start, Array.map_empty]
    rfl
  refine h.invariant (P := fun s cs =>
    Reaches resolver (.start scope) (pad padding.blanks 0 (foldCase text).toList)
      (s.padded padding) (pad padding.blanks s.index cs)) ?_ ?_
  · rw [hstart]
    exact .here _ _
  · intro u rest p next hreaches hpadded hpiece htakes
    exact hpadded.trans
      (htakes.padded hpiece (hscans.blanks_eq_nil hspares hreaches hpiece htakes))

end Scanner

/-- Blanks that are put in between the tokens of a text, and the case of its letters, change nothing
of its scan but the places of the tokens. -/
theorem scan_eq_of_padding {text other : String} {scope : Scope} {resolver : Option Resolver}
    {tokens : List Token} {padding : Padding text}
    (h : (scan text scope resolver).outcome = .ok tokens)
    (hspares : ∀ t ∈ tokens, padding.Spares t) (hother : foldCase other = foldCase padding.apply) :
    scan other scope resolver =
      { scan text scope resolver with outcome := .ok (tokens.map padding.move) } := by
  obtain ⟨final, hscans, hdepth, -, rfl⟩ := Scanner.exists_scans h
  have hscan : scan text scope resolver =
      ⟨final.scope, final.asked, .ok final.tokens.toList⟩ := by
    rw [scan, Scanner.run_eq_finish hscans, Scanner.finish, if_pos hdepth]
  have hfolded : (foldCase other).toList = pad padding.blanks 0 (foldCase text).toList := by
    rw [hother, toList_foldCase, toList_foldCase, Padding.apply, String.toList_ofList,
      map_toLower_pad padding.isBlank]
  have hend := hscans.reaches.padded hscans hspares
  have hgap := Scanner.reaches_gap resolver (final.padded padding) []
    (padding.isBlank final.index)
  rw [List.append_nil] at hgap
  rw [hscan, scan, hfolded, (hend.trans hgap).run_eq, Scanner.run_nil, Scanner.finish]
  have hclosed : ((final.padded padding).advance (padding.blanks final.index)).depth = 0 := hdepth
  rw [if_pos hclosed]
  simp [Scanner.padded, Scanner.placed, Scanner.advance]

/-- What a fault is about, wherever it is. -/
def Fault.subject (fault : Fault) : FaultKind × String :=
  (fault.kind, fault.token)

/-- What agrees up to the places of faults does so with what comes behind it. -/
theorem Fault.mapError_bind {α β : Type} {x y : Except Fault α} {f g : α → Except Fault β}
    (hfirst : x.mapError subject = y.mapError subject)
    (hrest : ∀ a, (f a).mapError subject = (g a).mapError subject) :
    (x >>= f).mapError subject = (y >>= g).mapError subject := by
  cases x with
  | error fault =>
    cases y with
    | error other => exact congrArg Except.error (Except.error.inj hfirst)
    | ok b => cases hfirst
  | ok a =>
    cases y with
    | error other => cases hfirst
    | ok b =>
      cases hfirst
      exact hrest a

namespace Yard

variable (scope : Scope) {tokens others : List Token}

/-- A token is read, or is at fault, without regard to its place in the text. -/
theorem step_of_word {t u : Token} (hword : u.word = t.word) (y : Yard) :
    (y.step scope u).mapError Fault.subject = (y.step scope t).mapError Fault.subject := by
  rcases t with ⟨kind, lexeme, i⟩
  rcases u with ⟨other, spelled, j⟩
  cases hword
  cases kind with
  | parenOpen => rfl
  | _ =>
    simp only [step]
    split <;> rfl

theorem foldlM_of_words (hwords : others.map Token.word = tokens.map Token.word) (y : Yard) :
    (others.foldlM (step scope) y).mapError Fault.subject =
      (tokens.foldlM (step scope) y).mapError Fault.subject := by
  induction tokens generalizing others y with
  | nil =>
    obtain rfl : others = [] := by simpa using hwords
    rfl
  | cons t tokens ih =>
    cases others with
    | nil => cases hwords
    | cons u others =>
      obtain ⟨hword, hrest⟩ := List.cons.inj hwords
      rw [List.foldlM_cons, List.foldlM_cons]
      exact Fault.mapError_bind (step_of_word scope hword y) (ih hrest)

end Yard

/-- Tokens of the same words become the same program, or are at fault for the same. -/
theorem Program.ofTokens_of_words {scope : Scope} {tokens others : List Token}
    (hwords : others.map Token.word = tokens.map Token.word) :
    (ofTokens scope others).mapError Fault.subject =
      (ofTokens scope tokens).mapError Fault.subject := by
  have hsame := Yard.foldlM_of_words scope hwords .start
  unfold ofTokens ofTokensUnchecked
  generalize others.foldlM (Yard.step scope) .start = x at hsame
  generalize tokens.foldlM (Yard.step scope) .start = y at hsame
  cases x with
  | error fault =>
    cases y with
    | error other => exact congrArg Except.error (Except.error.inj hsame)
    | ok b => cases hsame
  | ok a =>
    cases y with
    | error other => cases hsame
    | ok b =>
      cases hsame
      rfl

/-- Blanks in front of the tokens of a text, between them and behind them, and the case of its
letters, do not matter: the tokens are the same at places further on, the resolver is asked for the
same names, and the program, or what the tokens are at fault for, is the same. -/
theorem scan_padded {text other : String} {scope : Scope} {resolver : Option Resolver}
    {tokens : List Token} (padding : Padding text)
    (h : (scan text scope resolver).outcome = .ok tokens)
    (hspares : ∀ t ∈ tokens, padding.Spares t)
    (hother : foldCase other = foldCase padding.apply) :
    (scan other scope resolver).outcome = .ok (tokens.map padding.move) ∧
      (scan other scope resolver).asked = (scan text scope resolver).asked ∧
      (Program.ofTokens (scan other scope resolver).scope
          (tokens.map padding.move)).mapError Fault.subject =
        (Program.ofTokens (scan text scope resolver).scope tokens).mapError Fault.subject := by
  rw [scan_eq_of_padding h hspares hother]
  refine ⟨rfl, rfl, Program.ofTokens_of_words ?_⟩
  rw [List.map_map]
  rfl

/-- A blank of three bytes in front of the first sign of `5--Tax<=2e1`, others of one byte in front
of the second and at the end. -/
def paddingOfSigns : Padding "5--Tax<=2e1" where
  blanks i := if i = 1 then ['\u3000'] else if i = 2 ∨ i = 11 then ['\t'] else []
  isBlank i := by
    split_ifs
    · exact List.forall_mem_singleton.mpr (by decide)
    · exact List.forall_mem_singleton.mpr (by decide)
    · simp
  standsAt i hne := by
    split_ifs at hne with hfirst hother
    · exact ⟨['5'], ['-', '-', 'T', 'a', 'x', '<', '=', '2', 'e', '1'], rfl, hfirst⟩
    · rcases hother with rfl | rfl
      · exact ⟨['5', '-'], ['-', 'T', 'a', 'x', '<', '=', '2', 'e', '1'], rfl, rfl⟩
      · exact ⟨['5', '-', '-', 'T', 'a', 'x', '<', '=', '2', 'e', '1'], [], rfl, rfl⟩
    · exact absurd rfl hne

/-- The first sign stays an operator between two operands and the second one in front of a name that
only the resolver knows. -/
theorem scan_padded_signs :
    ∃ (other : String) (resolver : Option Resolver) (tokens moved : List Token),
      other = "5\u3000-\t-tAX<=2E1\t" ∧ resolver = (some fun _ => some (.constant 0 4)) ∧
      tokens = [⟨.number, "5", 0⟩, ⟨.infixOp, "-", 1⟩, ⟨.prefixOp, "u-", 2⟩, ⟨.prefixOp, "tax", 3⟩,
        ⟨.infixOp, "<=", 6⟩, ⟨.number, "2e1", 8⟩] ∧
      moved = [⟨.number, "5", 0⟩, ⟨.infixOp, "-", 4⟩, ⟨.prefixOp, "u-", 6⟩, ⟨.prefixOp, "tax", 7⟩,
        ⟨.infixOp, "<=", 10⟩, ⟨.number, "2e1", 12⟩] ∧
      (scan "5--Tax<=2e1" .builtin resolver).outcome = .ok tokens ∧
      (∀ t ∈ tokens, paddingOfSigns.Spares t) ∧
      foldCase other = foldCase paddingOfSigns.apply ∧
      (scan other .builtin resolver).outcome = .ok moved ∧
      (scan other .builtin resolver).asked = ["tax"] ∧
      (Program.ofTokens (scan other .builtin resolver).scope moved).mapError Fault.subject =
        (Program.ofTokens (scan "5--Tax<=2e1" .builtin resolver).scope tokens).mapError
          Fault.subject := by
  have hscan : (scan "5--Tax<=2e1" .builtin (some fun _ => some (.constant 0 4))).outcome =
      .ok [⟨.number, "5", 0⟩, ⟨.infixOp, "-", 1⟩, ⟨.prefixOp, "u-", 2⟩, ⟨.prefixOp, "tax", 3⟩,
        ⟨.infixOp, "<=", 6⟩, ⟨.number, "2e1", 8⟩] := by
    decide +kernel
  have hname : (scan "5--Tax<=2e1" .builtin (some fun _ => some (.constant 0 4))).asked =
      ["tax"] := by
    decide +kernel
  have hspares : ∀ t ∈ ([⟨.number, "5", 0⟩, ⟨.infixOp, "-", 1⟩, ⟨.prefixOp, "u-", 2⟩,
      ⟨.prefixOp, "tax", 3⟩, ⟨.infixOp, "<=", 6⟩, ⟨.number, "2e1", 8⟩] : List Token),
        paddingOfSigns.Spares t := by
    decide +kernel
  have hother : foldCase "5\u3000-\t-tAX<=2E1\t" = foldCase paddingOfSigns.apply := by
    apply String.toList_injective
    rw [toList_foldCase, toList_foldCase, Padding.apply, String.toList_ofList]
    decide +kernel
  obtain ⟨htokens, hasked, hprogram⟩ := scan_padded paddingOfSigns hscan hspares hother
  exact ⟨_, _, _, _, rfl, rfl, rfl, by decide, hscan, hspares, hother, htokens,
    hasked.trans hname, hprogram⟩

end Formula
