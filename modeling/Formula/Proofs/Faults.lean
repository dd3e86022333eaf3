import Formula.Proofs.Discipline

/-!
# Faults

What each kind of fault means. The scan leaves only tokens that can be read and parentheses that
match, so a separator outside of parentheses and arities that do not come out are all that can be at
fault behind it.
-/

namespace Formula

/-- The separator stands outside of the parentheses that the tokens before it open. -/
def Token.IsStray (front : List Token) (t : Token) : Prop :=
  t.kind = .separator ∧
    closings (front.map Token.word) = openings (front.map Token.word)

/-- Some separator stands outside of parentheses. -/
def HasStray (tokens : List Token) : Prop :=
  ∃ front t back, tokens = front ++ t :: back ∧ t.IsStray front

/-- The first separator outside of parentheses. -/
def FirstStray (tokens : List Token) (t : Token) : Prop :=
  ∃ front back, tokens = front ++ t :: back ∧ t.IsStray front ∧ ¬HasStray front

theorem FirstStray.hasStray {tokens : List Token} {t : Token} (h : FirstStray tokens t) :
    HasStray tokens := by
  obtain ⟨front, back, rfl, hstray, -⟩ := h
  exact ⟨front, t, back, rfl, hstray⟩

/-- There is only one first separator outside of parentheses. -/
theorem FirstStray.eq {tokens : List Token} {t u : Token} (ht : FirstStray tokens t)
    (hu : FirstStray tokens u) : t = u := by
  obtain ⟨front, back, rfl, ht, hfront⟩ := ht
  obtain ⟨before, behind, hsplit, hu, hbefore⟩ := hu
  rcases List.append_eq_append_iff.mp hsplit with ⟨more, rfl, hback⟩ | ⟨more, rfl, hback⟩
  · cases more with
    | nil => exact (List.cons.inj hback).1
    | cons v more =>
      cases (List.cons.inj hback).1
      exact absurd ⟨front, t, more, rfl, ht⟩ hbefore
  · cases more with
    | nil => exact (List.cons.inj hback).1.symm
    | cons v more =>
      cases (List.cons.inj hback).1
      exact absurd ⟨before, u, more, rfl, hu⟩ hfront

/-- Tokens of words that may follow one another can be read. -/
theorem Disciplined.readable {scope : Scope} {last : Preceding} {depth : Nat} {tokens : List Token}
    (h : Disciplined scope last depth (tokens.map Token.word)) :
    ∀ t ∈ tokens, t.Readable scope := by
  intro t ht
  have hcases := h.cases_of_mem (List.mem_map_of_mem ht)
  rcases t with ⟨kind, lexeme, index⟩
  rcases hcases with ⟨last, next, hfollows⟩ | hopen | hclose
  · generalize hword : Token.word ⟨kind, lexeme, index⟩ = w at hfollows
    cases hfollows with
    | number hnumeral hlast =>
      cases hword
      exact ⟨fun _ => Decimal.exists_readNumeral? hnumeral, by simp⟩
    | infixOp hspelling hlast =>
      cases hword
      have hrows : ∀ cs ∈ Lexeme.infixSpellings,
          (Precedence.ofInfix? (String.ofList cs)).isSome = true ∧
            (Builtin.find? (String.ofList cs)).isSome = true := by decide
      obtain ⟨hprecedence, hbuiltin⟩ := hrows _ hspelling
      rw [String.ofList_toList] at hprecedence hbuiltin
      obtain ⟨precedence, hprecedence⟩ := Option.isSome_iff_exists.mp hprecedence
      obtain ⟨entry, hentry⟩ := scope.exists_lookup hbuiltin
      exact ⟨by simp, fun _ => ⟨precedence, entry, hprecedence, hentry⟩⟩
    | name hname hminus hentry =>
      cases hword
      exact ⟨by simp, fun _ => ⟨_, _, rfl, hentry⟩⟩
    | minus hentry hlast =>
      cases hword
      have hbuiltin : (Builtin.find? "u-").isSome = true := by decide
      obtain ⟨entry, hentry⟩ := scope.exists_lookup hbuiltin
      exact ⟨by simp, fun _ => ⟨_, entry, rfl, hentry⟩⟩
    | separator hlast =>
      cases hword
      simp [Token.Readable]
  · cases hopen
    simp [Token.Readable]
  · cases hclose
    simp [Token.Readable]

/-- The only word of the kind of a separator is the separator. -/
theorem Disciplined.eq_separator {scope : Scope} {last : Preceding} {depth : Nat}
    {words : List Word} (h : Disciplined scope last depth words) {w : Word} (hw : w ∈ words)
    (hkind : w.kind = .separator) : w = .separator := by
  rcases h.cases_of_mem hw with ⟨last, next, hfollows⟩ | rfl | rfl
  · cases hfollows <;> cases hkind
    rfl
  · cases hkind
  · cases hkind

section Strays

variable {scope : Scope} {t : Token} {tokens front back : List Token} {depth : Nat}

theorem Token.depthBehind_word (t : Token) (depth : Nat) :
    t.word.depthBehind depth = t.depthBehind depth := rfl

/-- Tokens close as many parentheses as are open before them and in them. -/
theorem Closes.closings_eq (h : Closes depth tokens) :
    closings (tokens.map Token.word) = depth + openings (tokens.map Token.word) := by
  induction tokens generalizing depth with
  | nil => exact (Nat.add_zero depth ▸ Eq.symm h : _)
  | cons t rest ih =>
    have hrest := ih h.2
    have hcount := closings_cons (w := t.word) h.1 (rest.map Token.word)
    rw [Token.depthBehind_word] at hcount
    rw [List.map_cons]
    omega

/-- Where nothing is sent on outside of parentheses, each separator stands in one. -/
theorem Closes.closings_lt (h : Closes depth (front ++ t :: back)) (hkind : t.kind = .separator)
    (hreach : reach 0 depth (front ++ t :: back) = front ++ t :: back) :
    closings (front.map Token.word) < depth + openings (front.map Token.word) := by
  induction front generalizing depth with
  | nil =>
    rw [List.nil_append, reach] at hreach
    split at hreach
    · cases hreach
    · rename_i hstop
      have hdepth : depth ≠ 0 := fun hzero => hstop ⟨hzero, t.releases_separator hkind 0⟩
      simp only [List.map_nil, closings, openings, List.countP_nil]
      omega
  | cons u front ih =>
    rw [List.cons_append, reach] at hreach
    split at hreach
    · cases hreach
    · have hlt := ih h.2 (List.cons.inj hreach).2
      have hcount := closings_cons (w := u.word) h.1 (front.map Token.word)
      rw [Token.depthBehind_word] at hcount
      rw [List.map_cons]
      omega

/-- Text in reach of everything that waits has no separator outside of parentheses. -/
theorem not_hasStray (h : Closes 0 tokens) (hclear : Clear 0 tokens) : ¬HasStray tokens := by
  rintro ⟨front, t, back, rfl, hkind, hcount⟩
  have hlt := h.closings_lt hkind hclear
  omega

/-- Tokens that close all parentheses have no separator outside of them, or a first one. What is in
front of it closes all parentheses too. -/
theorem exists_clear (h : Closes 0 tokens) (hreadable : ∀ t ∈ tokens, t.Readable scope) :
    Clear 0 tokens ∨ ∃ front t back, tokens = front ++ t :: back ∧ Closes 0 front ∧
      Clear 0 front ∧ t.kind = .separator := by
  obtain ⟨back, hsplit, hfront, hback, hclear, hstops⟩ := h.exists_reach 0
  generalize reach 0 0 tokens = front at hsplit hfront hclear
  subst hsplit
  cases back with
  | nil =>
    rw [List.append_nil]
    exact .inl hclear
  | cons t back =>
    refine .inr ⟨front, t, back, rfl, hfront, hclear, ?_⟩
    -- Neither a closing parenthesis nor an operator stops the reach here.
    have hreleases := hstops t back rfl
    obtain ⟨-, hoperator⟩ := hreadable t (by simp)
    cases hkind : t.kind with
    | separator => rfl
    | parenClose => exact absurd rfl (hback.1 hkind)
    | number => simp [t.releases_number hkind] at hreleases
    | parenOpen => simp [t.releases_parenOpen hkind] at hreleases
    | infixOp =>
      obtain ⟨precedence, entry, hprecedence, -⟩ := hoperator (.inl hkind)
      rw [t.releases_of_precedence? hprecedence, Precedence.yields_zero hprecedence] at hreleases
      cases hreleases
    | prefixOp =>
      obtain ⟨precedence, entry, hprecedence, -⟩ := hoperator (.inr hkind)
      rw [t.releases_of_precedence? hprecedence, Precedence.yields_zero hprecedence] at hreleases
      cases hreleases

namespace Yard

/-- Flushing finds no open parenthesis exactly where none waits. -/
theorem flush?_eq_none_iff {y : Yard} : y.flush? = none ↔ y.opened = 0 := by
  rw [Option.eq_none_iff_forall_ne_some]
  constructor
  · intro hnone
    obtain ⟨ops, left, hbefore, -, hleft⟩ := Pending.exists_release (fun _ => true) y.stack
    rcases Pending.eq_of_holds_all hleft with rfl | ⟨rest, rfl⟩
    · rw [opened, hbefore, countP_ofOperators]
      rfl
    · exact absurd (flush?_eq_some_iff.mpr ⟨ops, rest, hbefore, rfl, rfl⟩)
        (hnone ⟨.parenOpen :: rest, (y.outputWith ops).toArray⟩)
  · intro hopened flushed hflushed
    obtain ⟨ops, left, hstack, -, -⟩ := flush?_eq_some_iff.mp hflushed
    rw [opened, hstack, countP_ofOperators] at hopened
    simp [Pending.operator?] at hopened

/-- Without an open parenthesis a separator is at fault. -/
theorem step_separator {y : Yard} (hkind : t.kind = .separator) (hopened : y.opened = 0) :
    y.step scope t = .error ⟨.straySeparator, t.index, ","⟩ := by
  rw [step, hkind]
  simp only [flush?_eq_none_iff.mpr hopened]

/-- Behind text that closes all parentheses none waits. -/
theorem Run.opened_eq_zero {y final : Yard} (h : Run scope y tokens final)
    (hcloses : Closes y.opened tokens) : final.opened = 0 := by
  induction h with
  | nil => exact hcloses
  | cons hstep hrest ih =>
    refine ih ?_
    rw [hstep.opened_eq.1]
    exact hcloses.2

end Yard

/-- The first separator outside of parentheses is at fault. -/
theorem ofTokensUnchecked_separator (h : Closes 0 front)
    (hreadable : ∀ t ∈ front, t.Readable scope) (hclear : Clear 0 front)
    (hkind : t.kind = .separator) :
    Program.ofTokensUnchecked scope (front ++ t :: back) =
      .error ⟨.straySeparator, t.index, ","⟩ := by
  obtain ⟨program, hreading⟩ := Reading.exists_of_closes h hreadable
  obtain ⟨final, ops, hleaves, -⟩ := hreading.carries .start hclear
  have hopened : final.opened = 0 := hleaves.run.opened_eq_zero h
  have hfront := Yard.foldlM_step_eq_ok_iff.mpr hleaves.run
  rw [Program.ofTokensUnchecked, List.foldlM_append, hfront]
  simp only [bind, Except.bind, List.foldlM_cons, Yard.step_separator hkind hopened, Except.map]

/-- Readable tokens that close all parentheses become a program, unless a separator stands outside
of parentheses; then the first that does is at fault. -/
theorem ofTokensUnchecked_cases (h : Closes 0 tokens) (hreadable : ∀ t ∈ tokens, t.Readable scope) :
    (¬HasStray tokens ∧ ∃ program, Program.ofTokensUnchecked scope tokens = .ok program) ∨
      ∃ t, FirstStray tokens t ∧
        Program.ofTokensUnchecked scope tokens = .error ⟨.straySeparator, t.index, ","⟩ := by
  rcases exists_clear h hreadable with hclear | ⟨front, t, back, rfl, hfront, hclear, hkind⟩
  · obtain ⟨program, hreading⟩ := Reading.exists_of_closes h hreadable
    exact .inl ⟨not_hasStray h hclear, program, hreading.ofTokensUnchecked_eq hclear⟩
  · have hstray : t.IsStray front := ⟨hkind, by simpa using hfront.closings_eq⟩
    have hfirst : Program.ofTokensUnchecked scope (front ++ t :: back) = _ :=
      ofTokensUnchecked_separator hfront (fun u hu => hreadable u (by simp [hu])) hclear hkind
    exact .inr ⟨t, ⟨front, back, rfl, hstray, not_hasStray hfront hclear⟩, hfirst⟩

/-- The tokens are at fault for the first separator outside of parentheses, or else for arities. -/
theorem ofTokens_eq_error_iff (h : Closes 0 tokens) (hreadable : ∀ t ∈ tokens, t.Readable scope)
    {fault : Fault} :
    Program.ofTokens scope tokens = .error fault ↔
      (∃ t, FirstStray tokens t ∧ fault = ⟨.straySeparator, t.index, ","⟩) ∨
      ¬HasStray tokens ∧ ∃ program, Program.ofTokensUnchecked scope tokens = .ok program ∧
        program.checkArity = .error fault := by
  rcases ofTokensUnchecked_cases h hreadable with ⟨hnone, program, hprogram⟩ | ⟨t, hfirst, hfault⟩
  · have hnever : ∀ t, ¬FirstStray tokens t := fun t ht => hnone ht.hasStray
    rw [Program.ofTokens, hprogram]
    cases hcheck : program.checkArity <;> simp [hnever, hnone, hcheck]
  · rw [Program.ofTokens, hfault]
    constructor
    · intro h
      cases h
      exact .inl ⟨t, hfirst, rfl⟩
    · rintro (⟨u, hu, rfl⟩ | ⟨hnone, -⟩)
      · rw [hfirst.eq hu]
      · exact absurd hfirst.hasStray hnone

end Strays

namespace Program

/-- The depth is at fault only for arities. -/
theorem kind_of_depthAfter_error {depth : Int64} {p : Program} {fault : Fault}
    (h : depthAfter depth p = .error fault) : fault.kind = .arityMismatch ∧ fault.index = 0 := by
  induction p generalizing depth with
  | nil => cases h
  | cons i p ih =>
    simp only [depthAfter] at h
    split at h
    · cases h
      exact ⟨rfl, rfl⟩
    · exact ih h

theorem kind_of_checkArity_error {p : Program} {fault : Fault} (h : p.checkArity = .error fault) :
    fault.kind = .arityMismatch ∧ fault.index = 0 := by
  unfold checkArity at h
  split at h
  · cases h
    exact kind_of_depthAfter_error (by assumption)
  · split at h
    · cases h
    · cases h
      exact ⟨rfl, rfl⟩

end Program

section Compile

variable {text : String} {scope : Scope} {functions : List (String × Entry)}
  {resolver : Option Resolver} {tokens : List Token} {fault : Fault} {d : Diagnostic}

/-- A scan fails for a parenthesis, for characters or for a name. -/
theorem kind_of_scan_error (h : (scan text scope resolver).outcome = .error fault) :
    fault.kind = .unrecognized ∨ fault.kind = .undefinedName ∨ fault.kind = .unmatchedParen := by
  obtain ⟨t, back, -, hends⟩ := Scanner.exists_reaches resolver (.start scope)
    (Text.foldCase text).toList
  unfold scan at h
  generalize Scanner.run resolver _ _ = ended at h hends
  cases hends with
  | finished => cases h
  | unclosed | unopened =>
    cases h
    exact .inr (.inr rfl)
  | unrecognized =>
    cases h
    exact .inl rfl
  | unknown | unanswered =>
    cases h
    exact .inr (.inl rfl)

/-- What a scan leaves closes all parentheses and can be read with the names known in the end. -/
theorem closes_and_readable_of_scan (h : (scan text scope resolver).outcome = .ok tokens) :
    Closes 0 tokens ∧ ∀ t ∈ tokens, t.Readable (scan text scope resolver).scope := by
  refine ⟨?_, (disciplined_of_scan h).1.readable⟩
  obtain ⟨final, hscans, hdepth, -, rfl⟩ := Scanner.exists_scans h
  exact hscans.closes hdepth

/-- The ways in which compiling a text fails, given its scan. -/
inductive Fails (text : String) (scanned : Scan) : Diagnostic → Prop where
  | scanning {fault : Fault} (hscan : scanned.outcome = .error fault) :
      Fails text scanned ⟨fault, text, none⟩
  | separator {tokens : List Token} {t : Token} (hscan : scanned.outcome = .ok tokens)
      (hfirst : FirstStray tokens t) :
      Fails text scanned ⟨⟨.straySeparator, t.index, ","⟩, text, some tokens⟩
  | arity {tokens : List Token} {program : Program} {fault : Fault}
      (hscan : scanned.outcome = .ok tokens) (hnone : ¬HasStray tokens)
      (hprogram : Program.ofTokensUnchecked scanned.scope tokens = .ok program)
      (hcheck : program.checkArity = .error fault) : Fails text scanned ⟨fault, text, some tokens⟩

/-- Where the tokens of a scan close all parentheses and can be read, compiling fails in these ways
and no others. -/
theorem Scan.toExpression_eq_error_iff {scanned : Scan}
    (hsound : ∀ tokens, scanned.outcome = .ok tokens →
      Closes 0 tokens ∧ ∀ t ∈ tokens, t.Readable scanned.scope) :
    scanned.toExpression text = .error d ↔ Fails text scanned d := by
  rcases scanned with ⟨scope, asked, outcome⟩
  cases outcome with
  | error fault =>
    constructor
    · intro h
      cases h
      exact .scanning rfl
    · intro h
      cases h with
      | scanning hscan =>
        cases hscan
        rfl
      | separator hscan => cases hscan
      | arity hscan => cases hscan
  | ok tokens =>
    obtain ⟨hcloses, hreadable⟩ := hsound tokens rfl
    constructor
    · intro h
      simp only [toExpression] at h
      split at h
      · rename_i fault hfault
        cases h
        rcases (ofTokens_eq_error_iff hcloses hreadable).mp hfault with
          ⟨t, hfirst, rfl⟩ | ⟨hnone, program, hprogram, hcheck⟩
        · exact .separator rfl hfirst
        · exact .arity rfl hnone hprogram hcheck
      · cases h
    · intro h
      have hfault : ∀ fault, Program.ofTokens scope tokens = .error fault →
          toExpression ⟨scope, asked, .ok tokens⟩ text = .error ⟨fault, text, some tokens⟩ := by
        intro fault hfault
        simp only [toExpression, hfault]
      cases h with
      | scanning hscan => cases hscan
      | separator hscan hfirst =>
        cases hscan
        exact hfault _ ((ofTokens_eq_error_iff hcloses hreadable).mpr (.inl ⟨_, hfirst, rfl⟩))
      | arity hscan hnone hprogram hcheck =>
        cases hscan
        exact hfault _ ((ofTokens_eq_error_iff hcloses hreadable).mpr
          (.inr ⟨hnone, _, hprogram, hcheck⟩))

theorem compileWith_eq_error_iff :
    (compileWith text functions resolver).outcome = .error d ↔
      Fails text (scan text (.ofFunctions functions) resolver) d :=
  Scan.toExpression_eq_error_iff fun _ => closes_and_readable_of_scan

/-- What each kind of fault means: three come from the scan, and then there are no tokens; the
separator is the first outside of parentheses; arities are at fault where no separator is and the
check rejects the program; no token is malformed. -/
def Diagnostic.Means (scanned : Scan) (d : Diagnostic) : Prop :=
  match d.kind with
  | .unrecognized | .undefinedName | .unmatchedParen =>
    scanned.outcome = .error d.toFault ∧ d.tokens = none
  | .straySeparator =>
    ∃ tokens t, scanned.outcome = .ok tokens ∧ FirstStray tokens t ∧ d.index = t.index ∧
      d.token = "," ∧ d.tokens = some tokens
  | .arityMismatch =>
    ∃ tokens program, scanned.outcome = .ok tokens ∧ ¬HasStray tokens ∧
      Program.ofTokensUnchecked scanned.scope tokens = .ok program ∧
      program.checkArity = .error d.toFault ∧ d.tokens = some tokens
  | .malformedToken => False

theorem Fails.means (h : Fails text (scan text scope resolver) d) :
    d.Means (scan text scope resolver) := by
  cases h with
  | scanning hscan =>
    unfold Diagnostic.Means
    rcases kind_of_scan_error hscan with hkind | hkind | hkind <;>
      simp only [hkind] <;> exact ⟨hscan, trivial⟩
  | separator hscan hfirst => exact ⟨_, _, hscan, hfirst, rfl, rfl, rfl⟩
  | arity hscan hnone hprogram hcheck =>
    unfold Diagnostic.Means
    simp only [(Program.kind_of_checkArity_error hcheck).1]
    exact ⟨_, _, hscan, hnone, hprogram, hcheck, rfl⟩

/-- Every failure has a kind with a meaning of its own. A stray separator is reported exactly when
there is one, and arities exactly when there is none and the check rejects the program. -/
theorem means_of_compileWith (text : String) (functions : List (String × Entry))
    (resolver : Option Resolver) :
    (∀ d, (compileWith text functions resolver).outcome = .error d →
      d.Means (scan text (.ofFunctions functions) resolver)) ∧
    ((∃ d, (compileWith text functions resolver).outcome = .error d ∧ d.kind = .straySeparator) ↔
      ∃ tokens, (scan text (.ofFunctions functions) resolver).outcome = .ok tokens ∧
        HasStray tokens) ∧
    ((∃ d, (compileWith text functions resolver).outcome = .error d ∧ d.kind = .arityMismatch) ↔
      ∃ tokens program fault,
        (scan text (.ofFunctions functions) resolver).outcome = .ok tokens ∧ ¬HasStray tokens ∧
        Program.ofTokensUnchecked (scan text (.ofFunctions functions) resolver).scope tokens =
          .ok program ∧
        program.checkArity = .error fault) := by
  have hmeans : ∀ d, (compileWith text functions resolver).outcome = .error d →
      d.Means (scan text (.ofFunctions functions) resolver) := fun d hd =>
    (compileWith_eq_error_iff.mp hd).means
  refine ⟨hmeans, ⟨?_, ?_⟩, ⟨?_, ?_⟩⟩
  · rintro ⟨d, hd, hkind⟩
    have hmeaning := hmeans d hd
    simp only [Diagnostic.Means, hkind] at hmeaning
    obtain ⟨tokens, t, hscan, hfirst, -⟩ := hmeaning
    exact ⟨tokens, hscan, hfirst.hasStray⟩
  · rintro ⟨tokens, hscan, hstray⟩
    obtain ⟨hcloses, hreadable⟩ := closes_and_readable_of_scan hscan
    rcases ofTokensUnchecked_cases hcloses hreadable with ⟨hnone, -⟩ | ⟨t, hfirst, -⟩
    · exact absurd hstray hnone
    · exact ⟨_, compileWith_eq_error_iff.mpr (.separator hscan hfirst), rfl⟩
  · rintro ⟨d, hd, hkind⟩
    have hmeaning := hmeans d hd
    simp only [Diagnostic.Means, hkind] at hmeaning
    obtain ⟨tokens, program, hscan, hnone, hprogram, hcheck, -⟩ := hmeaning
    exact ⟨tokens, program, _, hscan, hnone, hprogram, hcheck⟩
  · rintro ⟨tokens, program, fault, hscan, hnone, hprogram, hcheck⟩
    exact ⟨_, compileWith_eq_error_iff.mpr (.arity hscan hnone hprogram hcheck),
      (Program.kind_of_checkArity_error hcheck).1⟩

/-- The first separator stands in a parenthesis, the second one outside; a blank of two bytes comes
before it. -/
theorem stray_behind_pair :
    ∃ d, (compileWith "(1,\u00a02),3" [] none).outcome = .error d ∧ d.kind = .straySeparator ∧
      d.index = 7 ∧ d.token = "," := by
  obtain ⟨front, hfront⟩ : ∃ front : List Token, front =
      [⟨.parenOpen, "(", 0⟩, ⟨.number, "1", 1⟩, ⟨.separator, ",", 2⟩, ⟨.number, "2", 5⟩,
        ⟨.parenClose, ")", 6⟩] := ⟨_, rfl⟩
  have hscan : (scan "(1,\u00a02),3" (.ofFunctions []) none).outcome =
      .ok (front ++ ⟨.separator, ",", 7⟩ :: [⟨.number, "3", 8⟩]) := by
    rw [hfront]
    decide +kernel
  have hcloses : Closes 0 front ∧ reach 0 0 front = front := by
    rw [hfront]
    simp [Closes, Token.depthBehind, reach, Token.releases, Token.precedence?]
  have hstray : Token.IsStray front ⟨.separator, ",", 7⟩ :=
    ⟨rfl, by simpa using hcloses.1.closings_eq⟩
  have hfirst : FirstStray (front ++ ⟨.separator, ",", 7⟩ :: [⟨.number, "3", 8⟩])
      ⟨.separator, ",", 7⟩ :=
    ⟨front, _, rfl, hstray, not_hasStray hcloses.1 hcloses.2⟩
  have hmeans := means_of_compileWith "(1,\u00a02),3" [] none
  obtain ⟨d, hd, hkind⟩ := hmeans.2.1.mpr ⟨_, hscan, hfirst.hasStray⟩
  have hmeaning := hmeans.1 d hd
  simp only [Diagnostic.Means, hkind] at hmeaning
  obtain ⟨tokens, t, hsame, ht, hindex, htoken, -⟩ := hmeaning
  rw [hscan] at hsame
  cases hsame
  rw [ht.eq hfirst] at hindex
  exact ⟨d, hd, hkind, hindex, htoken⟩

end Compile

end Formula
