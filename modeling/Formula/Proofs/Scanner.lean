import Formula.Scan

/-!
# Steps of a scan

What taking up one piece does to a scan, said once for every class of pieces. A scan that comes to
the end of the text is a chain of such steps.
-/

namespace Formula

namespace Scanner

/-- The scan behind a token of the given kind and lexeme. -/
def behind (s : Scanner) (p : Piece) (kind : TokenKind) (lexeme : String) : Scanner :=
  (s.emit kind lexeme).advance p.lexeme

/-- The class of a name whose entry is known. -/
def classOf (entry : Entry) : Preceding :=
  if entry.arity = 0 then .value else .prefixOp

/-- One piece taken up: the scan before and behind it. -/
inductive Takes (resolver : Option Resolver) (s : Scanner) (p : Piece) : Scanner → Prop where
  | blank (hshape : p.shape = .blank) : Takes resolver s p (s.advance p.lexeme)
  | parenOpen (hshape : p.shape = .parenOpen) :
      Takes resolver s p
        { s.behind p .parenOpen (String.ofList p.lexeme) with depth := s.depth + 1 }
  | parenClose (hshape : p.shape = .parenClose) (hdepth : s.depth ≠ 0) :
      Takes resolver s p
        { s.behind p .parenClose (String.ofList p.lexeme) with depth := s.depth - 1 }
  | separator (hshape : p.shape = .separator) :
      Takes resolver s p
        { s.behind p .separator (String.ofList p.lexeme) with last := .separator }
  | infixOp (hshape : p.shape = .infixOp) :
      Takes resolver s p { s.behind p .infixOp (String.ofList p.lexeme) with last := .infixOp }
  | number (hshape : p.shape = .number) :
      Takes resolver s p { s.behind p .number (String.ofList p.lexeme) with last := .value }
  | known {entry : Entry} (hshape : p.shape = .name)
      (hentry : s.scope.lookup (String.ofList p.lexeme) = some entry) :
      Takes resolver s p
        { s.behind p .prefixOp (nameLexeme (String.ofList p.lexeme)) with last := classOf entry }
  | learned {resolve : Resolver} {entry : Entry} (hshape : p.shape = .name)
      (hunknown : s.scope.lookup (String.ofList p.lexeme) = none)
      (hresolver : resolver = some resolve)
      (hentry : resolve (String.ofList p.lexeme) = some entry) :
      Takes resolver s p
        { s.behind p .prefixOp (nameLexeme (String.ofList p.lexeme)) with
          last := classOf entry
          scope := s.scope.insert (String.ofList p.lexeme) entry
          asked := s.asked ++ [String.ofList p.lexeme] }

/-- A piece is taken up in one of eight ways. -/
theorem absorb_eq_ok_iff {resolver : Option Resolver} {s next : Scanner} {p : Piece} :
    s.absorb resolver p = .ok next ↔ Takes resolver s p next := by
  constructor
  · intro h
    cases hshape : p.shape with
    | blank =>
      simp only [absorb, hshape] at h
      cases h
      exact .blank hshape
    | parenOpen =>
      simp only [absorb, hshape] at h
      cases h
      exact .parenOpen hshape
    | parenClose =>
      simp only [absorb, hshape] at h
      split at h
      · cases h
      · cases h
        exact .parenClose hshape (by assumption)
    | separator =>
      simp only [absorb, hshape] at h
      cases h
      exact .separator hshape
    | infixOp =>
      simp only [absorb, hshape] at h
      cases h
      exact .infixOp hshape
    | number =>
      simp only [absorb, hshape] at h
      cases h
      exact .number hshape
    | name =>
      simp only [absorb, hshape] at h
      cases hknown : s.scope.lookup (String.ofList p.lexeme) with
      | some entry =>
        simp only [learn, hknown] at h
        cases h
        exact .known hshape hknown
      | none =>
        cases hresolver : resolver with
        | none =>
          subst hresolver
          simp only [learn, hknown] at h
          cases h
        | some resolve =>
          subst hresolver
          cases hentry : resolve (String.ofList p.lexeme) with
          | none =>
            simp only [learn, hknown, hentry] at h
            cases h
          | some entry =>
            simp only [learn, hknown, hentry] at h
            cases h
            exact .learned hshape hknown rfl hentry
  · intro h
    cases h with
    | blank hshape => simp only [absorb, hshape]
    | parenOpen hshape => simp only [absorb, hshape]; rfl
    | parenClose hshape hdepth => simp only [absorb, hshape, if_neg hdepth]; rfl
    | separator hshape => simp only [absorb, hshape]; rfl
    | infixOp hshape => simp only [absorb, hshape]; rfl
    | number hshape => simp only [absorb, hshape]; rfl
    | known hshape hentry => simp only [absorb, hshape, learn, hentry]; rfl
    | learned hshape hunknown hresolver hentry =>
      subst hresolver
      simp only [absorb, hshape, learn, hunknown, hentry]
      rfl

/-- Pieces taken up one after another, to the end of the text. -/
inductive Scans (resolver : Option Resolver) : Scanner → List Char → Scanner → Prop where
  | nil (s : Scanner) : Scans resolver s [] s
  | cons {s next final : Scanner} {cs : List Char} {p : Piece}
      (hpiece : Piece.next? s.last cs = some p) (htakes : Takes resolver s p next)
      (hrest : Scans resolver next p.rest final) : Scans resolver s cs final

/-- A scan to the end of the text finishes there. -/
theorem run_eq_finish {resolver : Option Resolver} {s final : Scanner} {cs : List Char}
    (h : Scans resolver s cs final) : s.run resolver cs = final.finish := by
  induction h with
  | nil s => exact run_nil resolver s
  | cons hpiece htakes hrest ih =>
    rw [run_of_next? resolver hpiece, absorb_eq_ok_iff.mpr htakes]
    exact ih

/-- What every step keeps holds at the end of a scan. -/
theorem Scans.invariant {resolver : Option Resolver} {P : Scanner → List Char → Prop}
    (hstep : ∀ s cs p next, P s cs → Piece.next? s.last cs = some p → Takes resolver s p next →
      P next p.rest)
    {s final : Scanner} {cs : List Char} (h : Scans resolver s cs final) (hs : P s cs) :
    P final [] := by
  induction h with
  | nil s => exact hs
  | cons hpiece htakes hrest ih => exact ih (hstep _ _ _ _ hs hpiece htakes)

/-- A scan holds no more tokens than it has passed characters. -/
theorem Scans.size_tokens_le {resolver : Option Resolver} {s final : Scanner} {cs : List Char}
    (h : Scans resolver s cs final) : final.tokens.size ≤ s.tokens.size + cs.length := by
  refine h.invariant (P := fun t rest => t.tokens.size + rest.length ≤ s.tokens.size + cs.length)
    ?_ (Nat.le_refl _)
  intro t rest p next hle hpiece htakes
  have hshorter := Piece.length_rest_lt hpiece
  cases htakes <;> simp only [behind, emit, advance, Array.size_push] <;> omega

end Scanner

end Formula
