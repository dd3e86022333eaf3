import Formula.Proofs.Composition

/-!
# The first token at fault

Tokens need not come from a scan. Whether the yard takes one depends on the token itself and on
whether a parenthesis is open before it, and as long as every token is taken the open parentheses
are those that the tokens count up to. So the first token that is bad by its own look and by that
count is at fault, and where none is bad only the arities can be.
-/

namespace Formula

/-- The token cannot be read, with the fault that it gives. Parentheses and separators are bad only
where the token stands outside of all parentheses. -/
inductive Token.Bad (scope : Scope) (outside : Prop) (t : Token) : Fault → Prop where
  | number (hkind : t.kind = .number) (hvalue : Decimal.readNumeral? t.lexeme = none) :
      Bad scope outside t ⟨.malformedToken, t.index, t.lexeme⟩
  | unranked (hkind : t.kind = .infixOp) (hprecedence : Precedence.ofInfix? t.lexeme = none) :
      Bad scope outside t ⟨.malformedToken, t.index, t.lexeme⟩
  | unknown {precedence : Precedence} (hprecedence : t.precedence? = some precedence)
      (hentry : scope.lookup t.lexeme = none) :
      Bad scope outside t ⟨.undefinedName, t.index, t.lexeme⟩
  | parenClose (hkind : t.kind = .parenClose) (houtside : outside) :
      Bad scope outside t ⟨.unmatchedParen, t.index, ")"⟩
  | separator (hkind : t.kind = .separator) (houtside : outside) :
      Bad scope outside t ⟨.straySeparator, t.index, ","⟩

/-- Bad behind these tokens: outside is where as many of them close a parenthesis as open one. -/
def Token.BadBehind (scope : Scope) (front : List Token) (t : Token) (fault : Fault) : Prop :=
  t.Bad scope (closings (front.map Token.word) = openings (front.map Token.word)) fault

/-- Some token is bad where it stands. -/
def HasBad (scope : Scope) (tokens : List Token) : Prop :=
  ∃ front t back fault, tokens = front ++ t :: back ∧ t.BadBehind scope front fault

/-- The fault of the first token that is bad where it stands. -/
def FirstBad (scope : Scope) (tokens : List Token) (fault : Fault) : Prop :=
  ∃ front t back, tokens = front ++ t :: back ∧ t.BadBehind scope front fault ∧
    ¬HasBad scope front

theorem FirstBad.hasBad {scope : Scope} {tokens : List Token} {fault : Fault}
    (h : FirstBad scope tokens fault) : HasBad scope tokens := by
  obtain ⟨front, t, back, rfl, hbad, -⟩ := h
  exact ⟨front, t, back, fault, rfl, hbad⟩

namespace Yard

variable {scope : Scope} {y final : Yard} {t : Token} {tokens : List Token} {fault : Fault}

/-- A step fails for the token alone or because no parenthesis is open. -/
theorem step_eq_error_iff : y.step scope t = .error fault ↔ t.Bad scope (y.opened = 0) fault := by
  constructor
  · intro h
    cases hkind : t.kind with
    | number =>
      simp only [step, hkind] at h
      split at h
      · cases h
      · cases h
        exact .number hkind (by assumption)
    | infixOp =>
      simp only [step, hkind] at h
      split at h
      · cases h
        exact .unranked hkind (by assumption)
      · rename_i precedence hprecedence hentry
        cases h
        exact .unknown (by rw [Token.precedence?, hkind, hprecedence]) hentry
      · cases h
    | prefixOp =>
      simp only [step, hkind] at h
      split at h
      · cases h
        exact .unknown (by rw [Token.precedence?, hkind]) (by assumption)
      · cases h
    | parenOpen =>
      simp only [step, hkind] at h
      cases h
    | parenClose =>
      simp only [step, hkind] at h
      split at h
      · cases h
        exact .parenClose hkind (flush?_eq_none_iff.mp (by assumption))
      · cases h
    | separator =>
      simp only [step, hkind] at h
      split at h
      · cases h
        exact .separator hkind (flush?_eq_none_iff.mp (by assumption))
      · cases h
  · intro h
    cases h with
    | number hkind hvalue => simp only [step, hkind, hvalue]
    | unranked hkind hprecedence => simp only [step, hkind, hprecedence]
    | unknown hprecedence hentry =>
      unfold Token.precedence? at hprecedence
      split at hprecedence
      · rename_i hkind
        simp only [step, hkind, hprecedence, hentry]
      · rename_i hkind
        simp only [step, hkind, hentry]
      · cases hprecedence
    | parenClose hkind hopened => simp only [step, hkind, flush?_eq_none_iff.mpr hopened]
    | separator hkind hopened => exact step_separator hkind hopened

/-- From a fresh yard on, no parenthesis is open exactly where the tokens read close as many as
they open. -/
theorem Run.opened_eq_zero_iff (h : Run scope .start tokens final) :
    final.opened = 0 ↔
      closings (tokens.map Token.word) = openings (tokens.map Token.word) := by
  have hcount := h.opened_add_closings
  have hstart : Yard.start.opened = 0 := rfl
  omega

/-- Behind tokens that have been read, the bad tokens are those at which the yard fails. -/
theorem Run.badBehind_iff (h : Run scope .start tokens final) :
    t.BadBehind scope tokens fault ↔ final.step scope t = .error fault := by
  rw [step_eq_error_iff, Token.BadBehind, h.opened_eq_zero_iff]

/-- Tokens that fail have been read up to one at which the yard fails. -/
theorem exists_run_of_foldlM_error (h : tokens.foldlM (step scope) y = .error fault) :
    ∃ front t back middle, tokens = front ++ t :: back ∧ Run scope y front middle ∧
      middle.step scope t = .error fault := by
  induction tokens generalizing y with
  | nil => cases h
  | cons t tokens ih =>
    rw [List.foldlM_cons] at h
    cases hstep : y.step scope t with
    | error first =>
      rw [hstep] at h
      cases h
      exact ⟨[], t, tokens, y, rfl, .nil y, hstep⟩
    | ok next =>
      rw [hstep] at h
      obtain ⟨front, u, back, middle, rfl, hrun, hfault⟩ := ih h
      exact ⟨t :: front, u, back, middle, rfl, .cons (step_eq_ok_iff.mp hstep) hrun, hfault⟩

/-- A run over a list is one over its front and then one over its back. -/
theorem Run.exists_middle {front back : List Token} (h : Run scope y (front ++ back) final) :
    ∃ middle, Run scope y front middle ∧ Run scope middle back final := by
  induction front generalizing y with
  | nil => exact ⟨y, .nil y, h⟩
  | cons t front ih =>
    cases h with
    | cons hstep hrest =>
      obtain ⟨middle, hfront, hback⟩ := ih hrest
      exact ⟨middle, .cons hstep hfront, hback⟩

/-- No token that has been read is bad where it stands. -/
theorem Run.not_hasBad (h : Run scope .start tokens final) : ¬HasBad scope tokens := by
  rintro ⟨front, t, back, fault, rfl, hbad⟩
  obtain ⟨middle, hfront, hback⟩ := h.exists_middle
  cases hback with
  | cons hstep hrest =>
    have hfault := hfront.badBehind_iff.mp hbad
    rw [step_eq_ok_iff.mpr hstep] at hfault
    cases hfault

/-- The tokens fail with the fault of the first that is bad. -/
theorem foldlM_step_eq_error_iff :
    tokens.foldlM (step scope) .start = .error fault ↔ FirstBad scope tokens fault := by
  constructor
  · intro h
    obtain ⟨front, t, back, middle, hsplit, hfront, hfault⟩ := exists_run_of_foldlM_error h
    exact ⟨front, t, back, hsplit, hfront.badBehind_iff.mpr hfault, hfront.not_hasBad⟩
  · rintro ⟨front, t, back, rfl, hbad, hfront⟩
    rw [List.foldlM_append]
    -- Nothing in front is bad, so the yard comes to the token.
    cases hrun : front.foldlM (step scope) .start with
    | error earlier =>
      obtain ⟨before, u, behind, middle, hsplit, hbefore, hfault⟩ :=
        exists_run_of_foldlM_error hrun
      exact absurd ⟨before, u, behind, earlier, hsplit, hbefore.badBehind_iff.mpr hfault⟩ hfront
    | ok middle =>
      have hfault := (foldlM_step_eq_ok_iff.mp hrun).badBehind_iff.mp hbad
      simp only [bind, Except.bind, List.foldlM_cons, hfault]

end Yard

namespace Program

variable {scope : Scope} {tokens : List Token} {fault : Fault}

/-- Either some token is bad and the first that is gives the fault, or all are read. -/
theorem ofTokensUnchecked_eq_error_iff :
    ofTokensUnchecked scope tokens = .error fault ↔ FirstBad scope tokens fault := by
  rw [← Yard.foldlM_step_eq_error_iff, ofTokensUnchecked]
  cases tokens.foldlM (Yard.step scope) .start <;> simp [Except.map]

theorem not_hasBad_of_ofTokensUnchecked {p : Program}
    (h : ofTokensUnchecked scope tokens = .ok p) : ¬HasBad scope tokens := by
  rw [ofTokensUnchecked] at h
  cases hrun : tokens.foldlM (Yard.step scope) .start with
  | error fault =>
    rw [hrun] at h
    cases h
  | ok final => exact (Yard.foldlM_step_eq_ok_iff.mp hrun).not_hasBad

end Program

/-- The first bad token is at fault, and there is one if any token is bad. If none is, the tokens
have a program and its arities alone decide. This holds for all lists of tokens. -/
theorem ofTokens_first_fault (scope : Scope) (tokens : List Token) :
    (HasBad scope tokens → ∃ fault, FirstBad scope tokens fault) ∧
      (∀ fault, FirstBad scope tokens fault →
        Program.ofTokens scope tokens = .error fault) ∧
      (¬HasBad scope tokens → ∃ p, Program.ofTokensUnchecked scope tokens = .ok p ∧
        Program.ofTokens scope tokens = p.checkArity.map fun _ => p) := by
  refine ⟨fun hbad => ?_, fun fault hfirst => ?_, fun hnone => ?_⟩
  · cases hread : Program.ofTokensUnchecked scope tokens with
    | error fault => exact ⟨fault, Program.ofTokensUnchecked_eq_error_iff.mp hread⟩
    | ok p => exact absurd hbad (Program.not_hasBad_of_ofTokensUnchecked hread)
  · rw [Program.ofTokens, Program.ofTokensUnchecked_eq_error_iff.mpr hfirst]
  · cases hread : Program.ofTokensUnchecked scope tokens with
    | error fault => exact absurd (Program.ofTokensUnchecked_eq_error_iff.mp hread).hasBad hnone
    | ok p => exact ⟨p, rfl, Program.ofTokens_of_unchecked hread⟩

/-- Three tokens of `( , ) ) 2.. foo` are bad, and the first of them, the second parenthesis that
closes, is at fault. The separator stands in parentheses. -/
theorem ofTokens_first_fault_close :
    ∃ tokens, tokens = [⟨.parenOpen, "(", 0⟩, ⟨.separator, ",", 1⟩, ⟨.parenClose, ")", 2⟩,
        ⟨.parenClose, ")", 3⟩, ⟨.number, "2..", 4⟩, ⟨.prefixOp, "foo", 7⟩] ∧
      HasBad .builtin tokens ∧ FirstBad .builtin tokens ⟨.unmatchedParen, 3, ")"⟩ ∧
      Program.ofTokens .builtin tokens = .error ⟨.unmatchedParen, 3, ")"⟩ := by
  have hfront : ¬HasBad .builtin [⟨.parenOpen, "(", 0⟩, ⟨.separator, ",", 1⟩,
      ⟨.parenClose, ")", 2⟩] :=
    Program.not_hasBad_of_ofTokensUnchecked (p := []) rfl
  have hfirst : FirstBad .builtin [⟨.parenOpen, "(", 0⟩, ⟨.separator, ",", 1⟩,
      ⟨.parenClose, ")", 2⟩, ⟨.parenClose, ")", 3⟩, ⟨.number, "2..", 4⟩, ⟨.prefixOp, "foo", 7⟩]
        ⟨.unmatchedParen, 3, ")"⟩ :=
    ⟨_, ⟨.parenClose, ")", 3⟩, _, rfl, .parenClose rfl rfl, hfront⟩
  exact ⟨_, rfl, hfirst.hasBad, hfirst, (ofTokens_first_fault _ _).2.1 _ hfirst⟩

end Formula
