import Formula.Proofs.Agreement
import Formula.Proofs.Faults
import Formula.Proofs.Learning
import Mathlib.Data.List.Forall2

/-!
# Scopes that compile alike

A scan asks of an entry only how many operands it takes, and only for the names that it comes to.
The programs of the tokens have the entries in them and look no further into them. So two scopes
whose entries are alike at those names have the same scan and the same faults, and programs that
differ in entries that are alike.
-/

namespace Formula

/-- Which names matter, and when two entries of such a name are alike: every entry is like itself,
and entries that are alike have as many operands. -/
structure Likeness where
  names : String → Prop
  entries : Entry → Entry → Prop
  refl : ∀ entry, entries entry entry
  arity_eq : ∀ {entry other}, entries entry other → entry.arity = other.arity

/-- What a name stands for is like itself. -/
theorem Likeness.rel_self (like : Likeness) (found : Option Entry) :
    Option.Rel like.entries found found := by
  cases found with
  | none => exact .none
  | some entry => exact .some (like.refl entry)

/-- Each name that matters stands for nothing in both scopes, or for entries that are alike. -/
def Scope.Alike (like : Likeness) (scope other : Scope) : Prop :=
  ∀ name, like.names name → Option.Rel like.entries (scope.lookup name) (other.lookup name)

/-- Instructions that differ at most in entries that are alike. -/
inductive Instruction.Alike (like : Likeness) : Instruction → Instruction → Prop where
  | number (value : Float) : Alike like (.number value) (.number value)
  | operator (name : String) {entry other : Entry} (h : like.entries entry other) :
      Alike like (.operator ⟨name, entry⟩) (.operator ⟨name, other⟩)

/-- One diagnostic, or expressions of one text and the same tokens with programs that are alike. -/
inductive Outcome.Alike (like : Likeness) :
    Except Diagnostic Expression → Except Diagnostic Expression → Prop where
  | error (d : Diagnostic) : Alike like (.error d) (.error d)
  | ok {p q : Program} (text : String) (tokens : List Token)
      (h : List.Forall₂ (Instruction.Alike like) p q) :
      Alike like (.ok ⟨text, tokens, p⟩) (.ok ⟨text, tokens, q⟩)

variable {like : Likeness} {scope other : Scope}

theorem Likeness.classOf_eq (like : Likeness) {entry found : Entry}
    (h : like.entries entry found) : Scanner.classOf entry = Scanner.classOf found := by
  rw [Scanner.classOf, Scanner.classOf, like.arity_eq h]

namespace Scope.Alike

variable {name : String} {entry : Entry}

theorem lookup_none (h : scope.Alike like other) (hname : like.names name)
    (hlookup : scope.lookup name = none) : other.lookup name = none := by
  have hrel := h name hname
  rw [hlookup] at hrel
  cases hrel' : other.lookup name with
  | none => rfl
  | some found =>
    rw [hrel'] at hrel
    cases hrel

theorem lookup_some (h : scope.Alike like other) (hname : like.names name)
    (hlookup : scope.lookup name = some entry) :
    ∃ found, other.lookup name = some found ∧ like.entries entry found := by
  have hrel := h name hname
  rw [hlookup] at hrel
  cases hrel' : other.lookup name with
  | none =>
    rw [hrel'] at hrel
    cases hrel
  | some found =>
    rw [hrel'] at hrel
    cases hrel with
    | some hentry => exact ⟨found, rfl, hentry⟩

theorem insert (h : scope.Alike like other) (name : String) (entry : Entry) :
    (scope.insert name entry).Alike like (other.insert name entry) := by
  intro asked hasked
  rw [lookup_insert, lookup_insert]
  by_cases hname : asked = name
  · rw [if_pos hname, if_pos hname]
    exact .some (like.refl entry)
  · rw [if_neg hname, if_neg hname]
    exact h asked hasked

end Scope.Alike

namespace Scanner

section Lockstep

variable {resolver : Option Resolver} {s t next : Scanner} {cs back : List Char} {p : Piece}

/-- The scan at the same place with another scope. -/
def withScope (s : Scanner) (scope : Scope) : Scanner :=
  { s with scope := scope }

/-- A piece is taken up in the same way, and the scopes stay alike. -/
theorem Takes.alike (h : Takes resolver s p next) (halike : s.scope.Alike like other)
    (hname : p.shape = .name → like.names (String.ofList p.lexeme)) :
    ∃ known, next.scope.Alike like known ∧
      Takes resolver (s.withScope other) p (next.withScope known) := by
  cases h with
  | blank hshape => exact ⟨other, halike, .blank hshape⟩
  | parenOpen hshape => exact ⟨other, halike, .parenOpen hshape⟩
  | parenClose hshape hdepth => exact ⟨other, halike, .parenClose hshape hdepth⟩
  | separator hshape => exact ⟨other, halike, .separator hshape⟩
  | infixOp hshape => exact ⟨other, halike, .infixOp hshape⟩
  | number hshape => exact ⟨other, halike, .number hshape⟩
  | known hshape hentry =>
    obtain ⟨found, hfound, hentries⟩ := halike.lookup_some (hname hshape) hentry
    have htakes : Takes resolver (s.withScope other) p _ := .known hshape hfound
    rw [← like.classOf_eq hentries] at htakes
    exact ⟨other, halike, htakes⟩
  | learned hshape hunknown hresolver hentry =>
    exact ⟨_, halike.insert _ _,
      .learned hshape (halike.lookup_none (hname hshape) hunknown) hresolver hentry⟩

/-- Two scans whose scopes are alike come to the same places. -/
theorem Reaches.alike (h : Reaches resolver s cs t back) (halike : s.scope.Alike like other)
    (hnames : ∀ u rest p, Reaches resolver s cs u rest → Piece.next? u.last rest = some p →
      p.shape = .name → like.names (String.ofList p.lexeme)) :
    ∃ known, t.scope.Alike like known ∧
      Reaches resolver (s.withScope other) cs (t.withScope known) back := by
  refine h.invariant (P := fun t back => ∃ known, t.scope.Alike like known ∧
    Reaches resolver (s.withScope other) cs (t.withScope known) back)
    ⟨other, halike, .here _ _⟩ ?_
  rintro u rest p next hreaches ⟨known, hknown, hagain⟩ hpiece htakes
  obtain ⟨more, hmore, hstep⟩ := htakes.alike hknown (hnames u rest p hreaches hpiece)
  exact ⟨more, hmore, hagain.trans (.step hpiece hstep (.here _ _))⟩

/-- They end there with the same outcome. -/
theorem Ends.alike {ended : Scan} (h : Ends resolver t back ended)
    (halike : t.scope.Alike like other)
    (hname : ∀ p, Piece.next? t.last back = some p → p.shape = .name →
      like.names (String.ofList p.lexeme)) :
    Ends resolver (t.withScope other) back ⟨other, ended.asked, ended.outcome⟩ := by
  cases h with
  | finished hcs hdepth => exact .finished hcs hdepth
  | unclosed hcs hdepth => exact .unclosed hcs hdepth
  | unopened hcs hdepth => exact .unopened hcs hdepth
  | unrecognized hcs hpiece => exact .unrecognized hcs hpiece
  | unknown hpiece hunknown hresolver =>
    exact .unknown hpiece (halike.lookup_none (hname _ hpiece rfl) hunknown) hresolver
  | unanswered hpiece hunknown hresolver hanswer =>
    exact .unanswered hpiece (halike.lookup_none (hname _ hpiece rfl) hunknown) hresolver hanswer

end Lockstep

end Scanner

/-- Scans whose scopes are alike at the names that they come to ask for the same names and have the
same outcome, and the scopes are alike in the end. -/
theorem scan_alike {text : String} {resolver : Option Resolver} (h : scope.Alike like other)
    (hnames : ∀ name index, Scanner.Meets resolver scope text name index → like.names name) :
    (scan text other resolver).asked = (scan text scope resolver).asked ∧
      (scan text other resolver).outcome = (scan text scope resolver).outcome ∧
      (scan text scope resolver).scope.Alike like (scan text other resolver).scope := by
  obtain ⟨t, back, hreaches, hends⟩ :=
    Scanner.exists_reaches resolver (.start scope) (Text.foldCase text).toList
  have hmeets : ∀ u rest p, Scanner.Reaches resolver (.start scope) (Text.foldCase text).toList
      u rest → Piece.next? u.last rest = some p → p.shape = .name →
        like.names (String.ofList p.lexeme) :=
    fun u rest p hu hpiece hshape => hnames _ _ ⟨u, rest, p, hu, hpiece, hshape, rfl, rfl⟩
  obtain ⟨known, hknown, hagain⟩ := hreaches.alike h hmeets
  have hrun : scan text other resolver = _ :=
    hagain.run_eq.trans (hends.alike hknown (hmeets t back · hreaches)).run_eq
  rw [hrun]
  refine ⟨rfl, rfl, ?_⟩
  rw [scan, hends.scope_eq]
  exact hknown

/-- Outcomes are the same where only an entry itself is like an entry. -/
theorem Outcome.Alike.eq {first second : Except Diagnostic Expression}
    (h : Outcome.Alike like first second)
    (hentries : ∀ {entry found}, like.entries entry found → entry = found) : first = second := by
  cases h with
  | error d => rfl
  | ok text tokens hprograms =>
    have hsame : ∀ i j, Instruction.Alike like i j → i = j := by
      intro i j hij
      cases hij with
      | number value => rfl
      | operator name hentry => rw [hentries hentry]
    have hprograms := hprograms.imp hsame
    rw [List.forall₂_eq_eq_eq] at hprograms
    rw [hprograms]

namespace Program

variable {p q : Program}

theorem depthAfter_alike (h : List.Forall₂ (Instruction.Alike like) p q) (depth : Int64) :
    depthAfter depth p = depthAfter depth q := by
  induction h generalizing depth with
  | nil => rfl
  | @cons i j p q hhead hrest ih =>
    have hsame : i.effect = j.effect ∧ i.name = j.name := by
      cases hhead with
      | number value => exact ⟨rfl, rfl⟩
      | operator name hentries =>
        exact ⟨by rw [Instruction.effect, Instruction.effect, like.arity_eq hentries], rfl⟩
    rw [depthAfter, depthAfter, hsame.1, hsame.2]
    simp only [ih]

theorem checkArity_alike (h : List.Forall₂ (Instruction.Alike like) p q) :
    p.checkArity = q.checkArity := by
  rw [checkArity, checkArity, depthAfter_alike h]

end Program

/-- The names of the operators among the tokens matter. -/
def Token.Matters (like : Likeness) (t : Token) : Prop :=
  t.kind = .infixOp ∨ t.kind = .prefixOp → like.names t.lexeme

section Tokens

variable {tokens : List Token} {p : Program} {t : Token}

theorem Token.Readable.alike (h : t.Readable scope) (halike : scope.Alike like other)
    (hmatters : t.Matters like) : t.Readable other := by
  refine ⟨h.1, fun hkind => ?_⟩
  obtain ⟨precedence, entry, hprecedence, hentry⟩ := h.2 hkind
  obtain ⟨found, hfound, -⟩ := halike.lookup_some (hmatters hkind) hentry
  exact ⟨precedence, found, hprecedence, hfound⟩

/-- Readings with scopes that are alike are alike. -/
theorem Reading.exists_alike (h : Reading scope tokens p) (halike : scope.Alike like other)
    (hmatters : ∀ t ∈ tokens, t.Matters like) :
    ∃ q, Reading other tokens q ∧ List.Forall₂ (Instruction.Alike like) p q := by
  induction h with
  | nil => exact ⟨[], .nil, .nil⟩
  | number hkind hvalue hrest ih =>
    obtain ⟨q, hq, hpq⟩ := ih fun t ht => hmatters t (by simp [ht])
    exact ⟨_, .number hkind hvalue hq, .cons (.number _) hpq⟩
  | operator hprecedence hentry hclear hstops hwithin hback ihwithin ihback =>
    obtain ⟨q, hq, hpq⟩ := ihwithin fun t ht => hmatters t (by simp [ht])
    obtain ⟨r, hr, hpr⟩ := ihback fun t ht => hmatters t (by simp [ht])
    obtain ⟨found, hfound, hentries⟩ := halike.lookup_some
      (hmatters _ (by simp) (Token.kind_of_precedence? hprecedence)) hentry
    exact ⟨_, .operator hprecedence hfound hclear hstops hq hr,
      List.rel_append hpq (.cons (.operator _ hentries) hpr)⟩
  | group hopening hclosing hinner hrest ihinner ihrest =>
    obtain ⟨q, hq, hpq⟩ := ihinner fun t ht => hmatters t (by simp [ht])
    obtain ⟨r, hr, hpr⟩ := ihrest fun t ht => hmatters t (by simp [ht])
    exact ⟨_, .group hopening hclosing hq hr, List.rel_append hpq hpr⟩
  | separator hkind hrest ih =>
    obtain ⟨q, hq, hpq⟩ := ih fun t ht => hmatters t (by simp [ht])
    exact ⟨q, .separator hkind hq, hpq⟩

/-- Tokens that a scan can leave are at fault with both scopes, and for the same reason, or become
programs that are alike. -/
theorem Program.ofTokens_alike (hcloses : Closes 0 tokens)
    (hreadable : ∀ t ∈ tokens, t.Readable scope) (halike : scope.Alike like other)
    (hmatters : ∀ t ∈ tokens, t.Matters like) :
    (∃ fault, ofTokens scope tokens = .error fault ∧ ofTokens other tokens = .error fault) ∨
      ∃ p q, ofTokens scope tokens = .ok p ∧ ofTokens other tokens = .ok q ∧
        List.Forall₂ (Instruction.Alike like) p q := by
  rcases exists_clear hcloses hreadable with hclear | ⟨front, t, back, rfl, hfront, hclear, hkind⟩
  · obtain ⟨p, hp⟩ := Reading.exists_of_closes hcloses hreadable
    obtain ⟨q, hq, hpq⟩ := hp.exists_alike halike hmatters
    rw [ofTokens, ofTokens, hp.ofTokensUnchecked_eq hclear, hq.ofTokensUnchecked_eq hclear]
    simp only [checkArity_alike hpq]
    cases q.checkArity with
    | error fault => exact .inl ⟨fault, rfl, rfl⟩
    | ok value => exact .inr ⟨p, q, rfl, rfl, hpq⟩
  · have hagain : ∀ t ∈ front, t.Readable other := fun u hu =>
      (hreadable u (by simp [hu])).alike halike (hmatters u (by simp [hu]))
    refine .inl ⟨⟨.straySeparator, t.index, ","⟩, ?_, ?_⟩
    · rw [ofTokens, ofTokensUnchecked_separator hfront (fun u hu => hreadable u (by simp [hu]))
        hclear hkind]
    · rw [ofTokens, ofTokensUnchecked_separator hfront hagain hclear hkind]

end Tokens

/-- What must matter for compiling a text: the infix operators, the names that its scan comes to and
the lexemes of their tokens. -/
structure Likeness.Covers (like : Likeness) (resolver : Option Resolver) (scope : Scope)
    (text : String) : Prop where
  infixOp : ∀ cs ∈ Lexeme.infixSpellings, like.names (String.ofList cs)
  name : ∀ name index, Scanner.Meets resolver scope text name index → like.names name
  lexeme : ∀ name index, Scanner.Meets resolver scope text name index →
    like.names (Scanner.nameLexeme name)

section Compile

variable {text : String} {resolver : Option Resolver} {tokens : List Token}

theorem Likeness.Covers.matters (hcovers : like.Covers resolver scope text)
    (h : (scan text scope resolver).outcome = .ok tokens) : ∀ t ∈ tokens, t.Matters like := by
  rintro t ht (hkind | hkind)
  · rcases (disciplined_of_scan h).1.cases_of_mem (List.mem_map_of_mem ht) with
      ⟨last, next, hfollows⟩ | hopen | hclose
    · generalize hword : t.word = w at hfollows
      have hlexeme : t.lexeme = w.lexeme := congrArg Word.lexeme hword
      have hwkind : w.kind = .infixOp := (congrArg Word.kind hword).symm.trans hkind
      cases hfollows with
      | infixOp hspelling hlast =>
        have hnames := hcovers.infixOp _ hspelling
        rw [String.ofList_toList] at hnames
        rwa [hlexeme]
      | _ => cases hwkind
    · exact absurd (congrArg Word.kind hopen) (by simp [Token.word, hkind, Word.parenOpen])
    · exact absurd (congrArg Word.kind hclose) (by simp [Token.word, hkind, Word.parenClose])
  · obtain ⟨final, hscans, -, -, rfl⟩ := Scanner.exists_scans h
    obtain ⟨front, back, hsplit⟩ := List.append_of_mem ht
    obtain ⟨s, cs, p, next, hreaches, hpiece, htakes, -, hpush, -⟩ :=
      hscans.exists_takes_of_tokens hsplit
    have hshape := htakes.name_of_tokens hpush hkind
    rw [htakes.tokens_of_name hshape] at hpush
    rw [← (Array.push_eq_push.mp hpush).1]
    exact hcovers.lexeme _ _ ⟨s, cs, p, hreaches, hpiece, hshape, rfl, rfl⟩

/-- One outcome of a scan is read alike with scopes that are alike. -/
theorem Scan.toExpression_alike {scanned another : Scan}
    (houtcome : another.outcome = scanned.outcome)
    (hscope : scanned.scope.Alike like another.scope)
    (hsound : ∀ tokens, scanned.outcome = .ok tokens →
      Closes 0 tokens ∧ ∀ t ∈ tokens, t.Readable scanned.scope)
    (hmatters : ∀ tokens, scanned.outcome = .ok tokens → ∀ t ∈ tokens, t.Matters like) :
    Outcome.Alike like (scanned.toExpression text) (another.toExpression text) := by
  rcases scanned with ⟨scope, asked, outcome⟩
  rcases another with ⟨other, more, outcome⟩
  cases houtcome
  cases outcome with
  | error fault => exact .error _
  | ok tokens =>
    obtain ⟨hcloses, hreadable⟩ := hsound tokens rfl
    rcases Program.ofTokens_alike hcloses hreadable hscope (hmatters tokens rfl) with
      ⟨fault, hfault, hagain⟩ | ⟨p, q, hp, hq, hpq⟩
    · simp only [toExpression, hfault, hagain]
      exact .error _
    · simp only [toExpression, hp, hq]
      exact .ok text tokens hpq

section Functions

variable {functions others : List (String × Entry)}
  (h : (Scope.ofFunctions functions).Alike like (.ofFunctions others))
  (hnames : ∀ name index, Scanner.Meets resolver (.ofFunctions functions) text name index →
    like.names name)
  (hmatters : ∀ tokens, (scan text (.ofFunctions functions) resolver).outcome = .ok tokens →
    ∀ t ∈ tokens, t.Matters like)

include h hnames hmatters

/-- Where two collections of functions are alike at the names that matter for a text, it compiles
alike with them. -/
theorem compileWith_alike :
    (compileWith text others resolver).asked = (compileWith text functions resolver).asked ∧
      Outcome.Alike like (compileWith text functions resolver).outcome
        (compileWith text others resolver).outcome := by
  obtain ⟨hasked, houtcome, hscope⟩ := scan_alike h hnames
  exact ⟨hasked, Scan.toExpression_alike houtcome hscope
    (fun tokens => closes_and_readable_of_scan) hmatters⟩

/-- It compiles to the same where only an entry itself is like an entry. -/
theorem compileWith_eq_of_alike
    (hentries : ∀ {entry found}, like.entries entry found → entry = found) :
    compileWith text others resolver = compileWith text functions resolver := by
  obtain ⟨hasked, houtcome⟩ := compileWith_alike h hnames hmatters
  have hsame := houtcome.eq hentries
  generalize compileWith text functions resolver = first at hasked hsame ⊢
  generalize compileWith text others resolver = second at hasked hsame ⊢
  cases first
  cases second
  cases hasked
  cases hsame
  rfl

end Functions

end Compile

end Formula
