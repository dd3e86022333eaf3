import Formula.Proofs.Grammar
import Formula.Proofs.Scanner

/-!
# Where a scan ends

A scan takes up pieces until it is at the end of the text or comes to a place where it cannot go on.
How far it comes, and what it says there, is what the result of every scan consists of.
-/

namespace Formula

namespace Scanner

/-- Pieces taken up one after another, up to some place in the text. -/
inductive Reaches (resolver : Option Resolver) :
    Scanner → List Char → Scanner → List Char → Prop where
  | here (s : Scanner) (cs : List Char) : Reaches resolver s cs s cs
  | step {s next t : Scanner} {cs back : List Char} {p : Piece}
      (hpiece : Piece.next? s.last cs = some p) (htakes : Takes resolver s p next)
      (hrest : Reaches resolver next p.rest t back) : Reaches resolver s cs t back

/-- What the scan comes to where it takes up no further piece. -/
inductive Ends (resolver : Option Resolver) (s : Scanner) (cs : List Char) : Scan → Prop where
  | finished (hcs : cs = []) (hdepth : s.depth = 0) :
      Ends resolver s cs ⟨s.scope, s.asked, .ok s.tokens.toList⟩
  | unclosed (hcs : cs = []) (hdepth : s.depth ≠ 0) :
      Ends resolver s cs (s.stop .unmatchedParen "")
  | unopened {rest : List Char} (hcs : cs = ')' :: rest) (hdepth : s.depth = 0) :
      Ends resolver s cs (s.stop .unmatchedParen ")")
  | unrecognized {c : Char} {rest : List Char} (hcs : cs = c :: rest)
      (hpiece : Piece.next? s.last cs = none) : Ends resolver s cs (s.stop .unrecognized "")
  | unknown {name rest : List Char} (hpiece : Piece.next? s.last cs = some ⟨.name, name, rest⟩)
      (hunknown : s.scope.lookup (String.ofList name) = none) (hresolver : resolver = none) :
      Ends resolver s cs (s.stop .undefinedName (String.ofList name))
  | unanswered {resolve : Resolver} {name rest : List Char}
      (hpiece : Piece.next? s.last cs = some ⟨.name, name, rest⟩)
      (hunknown : s.scope.lookup (String.ofList name) = none) (hresolver : resolver = some resolve)
      (hanswer : resolve (String.ofList name) = none) :
      Ends resolver s cs
        ({ s with asked := s.asked ++ [String.ofList name] }.stop .undefinedName
          (String.ofList name))

/-- A piece that is not taken up ends the scan in front of it. -/
theorem ends_of_absorb {resolver : Option Resolver} {s : Scanner} {cs : List Char} {p : Piece}
    {ended : Scan} (hpiece : Piece.next? s.last cs = some p)
    (h : s.absorb resolver p = .error ended) : Ends resolver s cs ended := by
  rcases p with ⟨shape, lexeme, rest⟩
  cases shape with
  | parenClose =>
    have hlexeme : lexeme = [')'] := Piece.fits_of_next? hpiece
    subst hlexeme
    simp only [absorb] at h
    split at h
    · cases h
      exact .unopened (Piece.next?_append hpiece).1.symm (by assumption)
    · cases h
  | name =>
    cases hknown : s.scope.lookup (String.ofList lexeme) with
    | some entry =>
      simp only [absorb, learn, hknown] at h
      cases h
    | none =>
      cases resolver with
      | none =>
        simp only [absorb, learn, hknown] at h
        cases h
        exact .unknown hpiece hknown rfl
      | some resolve =>
        cases hanswer : resolve (String.ofList lexeme) with
        | some entry =>
          simp only [absorb, learn, hknown, hanswer] at h
          cases h
        | none =>
          simp only [absorb, learn, hknown, hanswer] at h
          cases h
          exact .unanswered hpiece hknown rfl hanswer
  | _ =>
    simp only [absorb] at h
    cases h

/-- Every scan comes to a place where it ends. -/
theorem exists_reaches (resolver : Option Resolver) (s : Scanner) (cs : List Char) :
    ∃ t back, Reaches resolver s cs t back ∧ Ends resolver t back (s.run resolver cs) := by
  induction hlength : cs.length using Nat.strongRecOn generalizing s cs with
  | _ n ih =>
    subst hlength
    cases hpiece : Piece.next? s.last cs with
    | none =>
      refine ⟨s, cs, .here s cs, ?_⟩
      cases cs with
      | nil =>
        rw [run_nil, finish]
        split
        · exact .finished rfl (by assumption)
        · exact .unclosed rfl (by assumption)
      | cons c rest =>
        rw [run_of_next?_none resolver hpiece]
        exact .unrecognized rfl hpiece
    | some p =>
      rw [run_of_next? resolver hpiece]
      cases habsorb : s.absorb resolver p with
      | error ended => exact ⟨s, cs, .here s cs, ends_of_absorb hpiece habsorb⟩
      | ok next =>
        obtain ⟨t, back, hreaches, hends⟩ := ih _ (Piece.length_rest_lt hpiece) next p.rest rfl
        exact ⟨t, back, .step hpiece (absorb_eq_ok_iff.mp habsorb) hreaches, hends⟩

theorem Takes.index_eq {resolver : Option Resolver} {s next : Scanner} {p : Piece}
    (h : Takes resolver s p next) : next.index = s.index + Text.byteLength p.lexeme := by
  cases h <;> rfl

variable {resolver : Option Resolver} {s t : Scanner} {cs back : List Char}

/-- A scan that goes on to the end of the text comes there from wherever it was before. -/
theorem Reaches.append_scans {final : Scanner} (h : Reaches resolver s cs t back)
    (hscans : Scans resolver t back final) : Scans resolver s cs final := by
  induction h with
  | here s cs => exact hscans
  | step hpiece htakes hrest ih => exact .cons hpiece htakes (ih hscans)

theorem Reaches.scans (h : Reaches resolver s cs t []) : Scans resolver s cs t :=
  h.append_scans (.nil t)

/-- Blanks are passed. -/
theorem reaches_gap {gap : List Char} (resolver : Option Resolver) (s : Scanner) (cs : List Char)
    (hgap : ∀ c ∈ gap, Text.isBlank c = true) :
    Reaches resolver s (gap ++ cs) (s.advance gap) cs := by
  induction gap generalizing s with
  | nil => exact .here s cs
  | cons c gap ih =>
    have hpiece : Piece.next? s.last (c :: (gap ++ cs)) = some ⟨.blank, [c], gap ++ cs⟩ := by
      simp [Piece.next?, hgap c (by simp)]
    have hadvance : (s.advance [c]).advance gap = s.advance (c :: gap) := by
      simp [advance, Nat.add_assoc]
    rw [← hadvance]
    exact .step hpiece (.blank rfl) (ih _ fun d hd => hgap d (by simp [hd]))

/-- The place that a scan reaches lies behind the characters of the pieces taken up. -/
theorem Reaches.exists_front (h : Reaches resolver s cs t back) :
    ∃ front, cs = front ++ back ∧ t.index = s.index + Text.byteLength front := by
  induction h with
  | here s cs => exact ⟨[], rfl, rfl⟩
  | @step s next t cs back p hpiece htakes hrest ih =>
    obtain ⟨front, hfront, hindex⟩ := ih
    refine ⟨p.lexeme ++ front, ?_, ?_⟩
    · rw [List.append_assoc, ← hfront, (Piece.next?_append hpiece).1]
    · rw [hindex, htakes.index_eq, Text.byteLength_append, Nat.add_assoc]

/-- A scan without fault comes to the end of the text, and returns what it knows there. -/
theorem exists_scans {text : String} {scope : Scope} {tokens : List Token}
    (h : (scan text scope resolver).outcome = .ok tokens) :
    ∃ final, Scans resolver (.start scope) (Text.foldCase text).toList final ∧ final.depth = 0 ∧
      (scan text scope resolver).scope = final.scope ∧ final.tokens.toList = tokens := by
  obtain ⟨final, back, hreaches, hends⟩ :=
    exists_reaches resolver (.start scope) (Text.foldCase text).toList
  unfold scan at h ⊢
  generalize run resolver _ _ = ended at h hends ⊢
  cases hends with
  | finished hcs hdepth =>
    subst hcs
    exact ⟨final, hreaches.scans, hdepth, rfl, Except.ok.inj h⟩
  | _ => cases h

end Scanner

end Formula
