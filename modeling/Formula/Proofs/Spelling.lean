import Formula.Proofs.Contract
import Formula.Proofs.Reading
import Formula.Proofs.Words

/-!
# Spellings of expression trees

An expression tree can be spelled with parentheses wherever one likes, as long as an infix
expression stands in parentheses where its rank asks for them. Every such spelling, with any blanks
between its words, compiles to the program that lists the tree and evaluates to the value of the
tree.
-/

namespace Formula

/-- Words with a separator between one and the next. -/
def separated : List (List Word) → List Word
  | [] => []
  | [words] => words
  | words :: more => words ++ .separator :: separated more

/-- A tree, the words that spell it, and the rank of the infix operator that stands bare in them; a
spelling without one counts as highest. -/
structure Spelling where
  tree : Tree Instruction
  rank : Nat
  words : List Word

/-- A name of the language, the minus in front of an operand left out. -/
def IsName (name : String) : Prop :=
  Lexeme.name? name.toList = some (name.toList, []) ∧ name ≠ "-"

/-- The spellings of expression trees with the names of a scope. The operands of an infix operator
stand in parentheses where they are infix expressions that bind less tightly, or not more tightly on
the side away from which a row of equal rank groups, both as the level of the operator says; the
operand of a prefix operator does where it is an infix expression at all. -/
inductive Spells (scope : Scope) : Spelling → Prop where
  | number {lexeme : String} {value : Float}
      (hnumeral : Lexeme.numeral? lexeme.toList = some (lexeme.toList, []))
      (hvalue : Decimal.readNumeral? lexeme = some value) :
      Spells scope ⟨.node (.number value) [], Precedence.ofPrefix.rank, [⟨.number, lexeme⟩]⟩
  | constant {name : String} {entry : Entry} (hname : IsName name)
      (hentry : scope.lookup name = some entry) (harity : entry.arity = 0) :
      Spells scope
        ⟨.node (.operator ⟨name, entry⟩) [], Precedence.ofPrefix.rank, [⟨.prefixOp, name⟩]⟩
  | infixOp {lexeme : String} {entry : Entry} {precedence : Precedence} {left right : Spelling}
      (hlevel : Precedence.Level lexeme precedence)
      (hentry : scope.lookup lexeme = some entry) (hleft : Spells scope left)
      (hright : Spells scope right)
      (hleftRank : if precedence.leftAssociative then precedence.rank ≤ left.rank
        else precedence.rank < left.rank)
      (hrightRank : if precedence.leftAssociative then precedence.rank < right.rank
        else precedence.rank ≤ right.rank) :
      Spells scope ⟨.node (.operator ⟨lexeme, entry⟩) [left.tree, right.tree], precedence.rank,
        left.words ++ ⟨.infixOp, lexeme⟩ :: right.words⟩
  | minus {entry : Entry} {operand : Spelling} (hentry : scope.lookup "u-" = some entry)
      (hoperand : Spells scope operand) (hrank : operand.rank = Precedence.ofPrefix.rank) :
      Spells scope ⟨.node (.operator ⟨"u-", entry⟩) [operand.tree], Precedence.ofPrefix.rank,
        ⟨.prefixOp, "u-"⟩ :: operand.words⟩
  | applied {name : String} {entry : Entry} {operand : Spelling} (hname : IsName name)
      (hentry : scope.lookup name = some entry) (harity : entry.arity = 1)
      (hoperand : Spells scope operand) (hrank : operand.rank = Precedence.ofPrefix.rank) :
      Spells scope ⟨.node (.operator ⟨name, entry⟩) [operand.tree], Precedence.ofPrefix.rank,
        ⟨.prefixOp, name⟩ :: operand.words⟩
  | call {name : String} {entry : Entry} {arguments : List Spelling} (hname : IsName name)
      (hentry : scope.lookup name = some entry) (harity : entry.arity.toNat = arguments.length)
      (hne : arguments ≠ []) (harguments : ∀ a ∈ arguments, Spells scope a) :
      Spells scope ⟨.node (.operator ⟨name, entry⟩) (arguments.map Spelling.tree),
        Precedence.ofPrefix.rank, ⟨.prefixOp, name⟩ :: .parenOpen ::
          (separated (arguments.map Spelling.words) ++ [.parenClose])⟩
  | paren {s : Spelling} (h : Spells scope s) :
      Spells scope ⟨s.tree, Precedence.ofPrefix.rank, .parenOpen :: (s.words ++ [.parenClose])⟩

/-- The symbols of the language that no function is named like. -/
def IsSymbol (name : String) : Prop :=
  (Precedence.ofInfix? name).isSome ∨ name = "!" ∨ name = "u-"

instance (name : String) : Decidable (IsSymbol name) :=
  inferInstanceAs (Decidable (_ ∨ _))

/-- The symbols stand for the built-in operations. -/
def Scope.KeepsSymbols (scope : Scope) : Prop :=
  ∀ name, IsSymbol name → scope.lookup name = Scope.builtin.lookup name

theorem Scope.keepsSymbols_ofFunctions {functions : List (String × Entry)}
    (h : ∀ f ∈ functions, ¬IsSymbol (Text.foldCase f.1)) :
    (Scope.ofFunctions functions).KeepsSymbols := by
  induction functions using List.reverseRecOn with
  | nil => exact fun name _ => rfl
  | append_singleton functions f ih =>
    intro name hname
    rw [Scope.ofFunctions_concat, Scope.lookup_insert, if_neg]
    · exact ih (fun g hg => h g (List.mem_append_left _ hg)) name hname
    · rintro rfl
      exact h f (by simp) hname

namespace Precedence.Level

variable {lexeme : String} {p : Precedence}

/-- The language has every infix operator of a level. -/
theorem isSymbol (h : Level lexeme p) : IsSymbol lexeme :=
  .inl (Option.isSome_of_eq_some (ofInfix?_eq_some_iff.mpr h))

/-- Every infix operator is built in and takes two operands. -/
theorem exists_builtin (h : Level lexeme p) :
    ∃ entry, Scope.builtin.lookup lexeme = some entry ∧ entry.arity = 2 := by
  have hrows : ∀ row ∈ table, (Scope.builtin.lookup row.1).map Entry.arity = some 2 := by decide
  exact Option.map_eq_some_iff.mp (hrows _ h.mem_table)

theorem mem_infixSpellings (h : Level lexeme p) : lexeme.toList ∈ Lexeme.infixSpellings := by
  have hrows : ∀ row ∈ table, row.1.toList ∈ Lexeme.infixSpellings := by decide
  exact hrows _ h.mem_table

end Precedence.Level

namespace Spells

variable {scope : Scope} {s : Spelling}

theorem classOf_of_arity_zero {entry : Entry} (h : entry.arity = 0) :
    Scanner.classOf entry = .value :=
  if_pos h

theorem classOf_ne_value {entry : Entry} (h : entry.arity ≠ 0) :
    Scanner.classOf entry ≠ .value := by
  rw [Scanner.classOf, if_neg h]
  simp

/-- Every numeral spells a number. -/
theorem exists_number (scope : Scope) {lexeme : String}
    (hnumeral : Lexeme.numeral? lexeme.toList = some (lexeme.toList, [])) :
    ∃ value, Spells scope
      ⟨.node (.number value) [], Precedence.ofPrefix.rank, [⟨.number, lexeme⟩]⟩ := by
  obtain ⟨value, hvalue⟩ := Decimal.exists_readNumeral? hnumeral
  exact ⟨value, .number hnumeral hvalue⟩

/-- The minus in front of an operand is looked up like the one between two. -/
theorem follows_minus (hkeeps : scope.KeepsSymbols) {last : Preceding} (hlast : last ≠ .value) :
    ∃ next, next ≠ .value ∧ Word.Follows scope last ⟨.prefixOp, "u-"⟩ next := by
  have hlevel : Precedence.Level "-" ⟨5, true⟩ := .sum (by decide)
  obtain ⟨entry, hentry, harity⟩ := hlevel.exists_builtin
  rw [← hkeeps "-" hlevel.isSymbol] at hentry
  exact ⟨_, classOf_ne_value (by rw [harity]; decide), .minus hentry hlast⟩

/-- Words behind arguments may follow where a value is before them. -/
theorem disciplined_separated {arguments : List Spelling} (hne : arguments ≠ [])
    (h : ∀ a ∈ arguments, ∀ {last : Preceding}, last ≠ .value → ∀ {depth : Nat} {rest : List Word},
      Disciplined scope .value depth rest → Disciplined scope last depth (a.words ++ rest))
    {last : Preceding} (hlast : last ≠ .value) {depth : Nat} {rest : List Word}
    (hrest : Disciplined scope .value depth rest) :
    Disciplined scope last depth (separated (arguments.map Spelling.words) ++ rest) := by
  induction arguments generalizing last with
  | nil => exact absurd rfl hne
  | cons a arguments ih =>
    cases arguments with
    | nil => exact h a (by simp) hlast hrest
    | cons b arguments =>
      have hlater : Preceding.separator ≠ .value := by simp
      have hmore := ih (by simp) (fun c hc => h c (by simp [hc])) hlater
      simp only [List.map_cons, separated, List.append_assoc, List.cons_append] at hmore ⊢
      exact h a (by simp) hlast (.word (.separator (by simp)) hmore)

/-- The words of a spelling may follow where a value is due, and leave one. -/
theorem disciplined (h : Spells scope s) (hkeeps : scope.KeepsSymbols) {last : Preceding}
    (hlast : last ≠ .value) {depth : Nat} {rest : List Word}
    (hrest : Disciplined scope .value depth rest) :
    Disciplined scope last depth (s.words ++ rest) := by
  induction h generalizing last depth rest with
  | number hnumeral hvalue => exact .word (.number hnumeral hlast) hrest
  | constant hname hentry harity =>
    have hfollows : Word.Follows scope last ⟨.prefixOp, _⟩ _ := .name hname.1 hname.2 hentry
    rw [classOf_of_arity_zero harity] at hfollows
    exact .word hfollows hrest
  | infixOp hlevel hentry hleft hright hleftRank hrightRank ihleft ihright =>
    rw [List.append_assoc, List.cons_append]
    refine ihleft hlast (.word (.infixOp hlevel.mem_infixSpellings rfl) ?_)
    exact ihright (by simp) hrest
  | minus hentry hoperand hrank ih =>
    obtain ⟨next, hnext, hfollows⟩ := follows_minus hkeeps hlast
    exact .word hfollows (ih hnext hrest)
  | applied hname hentry harity hoperand hrank ih =>
    exact .word (.name hname.1 hname.2 hentry)
      (ih (classOf_ne_value (by rw [harity]; decide)) hrest)
  | @call name entry arguments hname hentry harity hne harguments ih =>
    have hzero : entry.arity ≠ 0 := by
      intro hzero
      rw [hzero] at harity
      exact hne (List.eq_nil_of_length_eq_zero harity.symm)
    simp only [List.cons_append, List.append_assoc, List.nil_append]
    exact .word (.name hname.1 hname.2 hentry) (.parenOpen
      (disciplined_separated hne ih (classOf_ne_value hzero) (.parenClose hrest)))
  | paren h ih =>
    simp only [List.cons_append, List.append_assoc, List.nil_append]
    exact .parenOpen (ih hlast (.parenClose hrest))

/-- A rank that the operators of a spelling with the given rank do not send on. -/
def Holds (spelled rank : Nat) : Prop :=
  rank < spelled ∨ rank = spelled ∧ 7 ≤ spelled

/-- Where both operands bind tightly enough the operator leaves the left one to itself and keeps
the right one, and what does not send it on sends on neither of them. -/
theorem Holds.of_operands {lexeme : String} {p : Precedence}
    (h : Precedence.Level lexeme p) {left right : Nat}
    (hleft : if p.leftAssociative then p.rank ≤ left else p.rank < left)
    (hright : if p.leftAssociative then p.rank < right else p.rank ≤ right) :
    p.yields left = true ∧ Holds right p.rank ∧
      ∀ rank, Holds p.rank rank → Holds left rank ∧ p.yields rank = false ∧ Holds right rank := by
  obtain ⟨hle, hassociative⟩ := h.leftAssociative_iff
  unfold Precedence.yields Holds
  by_cases hgroups : p.leftAssociative = true
  · have hlow := hassociative.mp hgroups
    simp only [hgroups, if_true, decide_eq_true_eq, decide_eq_false_iff_not] at hleft hright ⊢
    exact ⟨hleft, by omega, fun rank hrank => by omega⟩
  · have hhigh : ¬p.rank < 7 := fun hlow => hgroups (hassociative.mpr hlow)
    simp only [if_neg hgroups, decide_eq_true_eq, decide_eq_false_iff_not] at hleft hright ⊢
    exact ⟨hleft, by omega, fun rank hrank => by omega⟩

/-- What is known of the tokens of a spelling: which ranks nothing outside of parentheses sends on,
and the reading, whatever comes behind that sends on all. -/
structure Parses (scope : Scope) (t : Tree Instruction) (spelled : Nat) (tokens : List Token) :
    Prop where
  clear : ∀ rank, Holds spelled rank → Clear rank tokens
  reading : ∀ back p, Stops spelled back → Reading scope back p →
    Reading scope (tokens ++ back) (t.postorder ++ p)

theorem Parses.alone {t : Tree Instruction} {spelled : Nat} {tokens : List Token}
    (h : Parses scope t spelled tokens) : Reading scope tokens t.postorder := by
  simpa using h.reading [] [] (by simp [Stops]) .nil

theorem parses_number {t : Token} {lexeme : String} {value : Float}
    (hword : t.word = ⟨.number, lexeme⟩) (hvalue : Decimal.readNumeral? lexeme = some value) :
    Parses scope (.node (.number value) []) Precedence.ofPrefix.rank [t] := by
  have hkind : t.kind = .number := congrArg Word.kind hword
  have hlexeme : t.lexeme = lexeme := congrArg Word.lexeme hword
  constructor
  · intro rank _
    rw [clear_cons_iff (by simp [hkind]) (by simp [hkind])]
    exact ⟨t.releases_number hkind rank, clear_nil rank⟩
  · intro back p _ hback
    rw [Tree.postorder_node]
    exact .number hkind (by rwa [hlexeme]) hback

/-- An infix operator between its operands. -/
theorem Parses.infixOp {t : Token} {lexeme : String} {entry : Entry} {precedence : Precedence}
    {left right : Tree Instruction} {leftRank rightRank : Nat} {first second : List Token}
    (hfirst : Parses scope left leftRank first) (hword : t.word = ⟨.infixOp, lexeme⟩)
    (hlevel : Precedence.Level lexeme precedence)
    (hentry : scope.lookup lexeme = some entry) (hsecond : Parses scope right rightRank second)
    (hleft : if precedence.leftAssociative then precedence.rank ≤ leftRank
      else precedence.rank < leftRank)
    (hright : if precedence.leftAssociative then precedence.rank < rightRank
      else precedence.rank ≤ rightRank) :
    Parses scope (.node (.operator ⟨lexeme, entry⟩) [left, right]) precedence.rank
      (first ++ t :: second) := by
  have hkind : t.kind = .infixOp := congrArg Word.kind hword
  have hlexeme : t.lexeme = lexeme := congrArg Word.lexeme hword
  have hop : t.precedence? = some precedence := by
    rw [Token.precedence?, hkind, hlexeme]
    exact Precedence.ofInfix?_eq_some_iff.mpr hlevel
  obtain ⟨hyieldsLeft, hholds, hranks⟩ := Holds.of_operands hlevel hleft hright
  constructor
  · intro rank hrank
    obtain ⟨hleftHolds, hyields, hrightHolds⟩ := hranks rank hrank
    rw [clear_append_iff hfirst.alone.closes, clear_cons_iff (by simp [hkind]) (by simp [hkind]),
      t.releases_of_precedence? hop]
    exact ⟨hfirst.clear rank hleftHolds, hyields, hsecond.clear rank hrightHolds⟩
  · intro back p hstops hback
    have hreading := Reading.operator hop (by rwa [hlexeme]) (hsecond.clear _ hholds) hstops
      hsecond.alone hback
    have hgoal := hfirst.reading _ _ (by
      rintro u more hu
      cases hu
      rw [t.releases_of_precedence? hop]
      exact hyieldsLeft) hreading
    simpa [hlexeme] using hgoal

/-- In parentheses a spelling has the highest rank. -/
theorem Parses.group {opening closing : Token} {tree : Tree Instruction} {rank : Nat}
    {inner : List Token} (h : Parses scope tree rank inner) (hopening : opening.kind = .parenOpen)
    (hclosing : closing.kind = .parenClose) :
    Parses scope tree Precedence.ofPrefix.rank (opening :: (inner ++ [closing])) := by
  constructor
  · intro rank _
    exact (clear_group_iff hopening hclosing h.alone.closes).mpr (clear_nil rank)
  · intro back p _ hback
    rw [List.cons_append, List.append_assoc]
    exact .group hopening hclosing h.alone hback

/-- A token in front of its operands, with all of them in its reach. -/
theorem parses_of_within {t : Token} {within : List Token} {q : Program} {name : String}
    {entry : Entry} {operands : List (Tree Instruction)} (hword : t.word = ⟨.prefixOp, name⟩)
    (hentry : scope.lookup name = some entry) (hwithin : Reading scope within q)
    (hclear : Clear Precedence.ofPrefix.rank within)
    (hq : q = operands.flatMap Tree.postorder) :
    Parses scope (.node (.operator ⟨name, entry⟩) operands) Precedence.ofPrefix.rank
      (t :: within) := by
  have hkind : t.kind = .prefixOp := congrArg Word.kind hword
  have hlexeme : t.lexeme = name := congrArg Word.lexeme hword
  have hprecedence : t.precedence? = some .ofPrefix := by rw [Token.precedence?, hkind]
  subst hq hlexeme
  constructor
  · intro rank hrank
    have hle : rank ≤ Precedence.ofPrefix.rank := by
      rcases hrank with hlt | ⟨rfl, -⟩
      · omega
      · exact Nat.le_refl _
    rw [clear_cons_iff (by simp [hkind]) (by simp [hkind]), t.releases_of_precedence? hprecedence]
    exact ⟨decide_eq_false (Nat.not_lt.mpr hle), hclear.mono hle⟩
  · intro back p hstops hback
    rw [Tree.postorder_node, List.append_assoc]
    exact .operator hprecedence hentry hclear hstops hwithin hback

/-- The tokens of arguments with separators between them list one tree after another. -/
theorem reading_separated {arguments : List Spelling}
    (h : ∀ a ∈ arguments, ∀ tokens, tokens.map Token.word = a.words →
      Parses scope a.tree a.rank tokens)
    {tokens : List Token}
    (htokens : tokens.map Token.word = separated (arguments.map Spelling.words)) :
    Reading scope tokens ((arguments.map Spelling.tree).flatMap Tree.postorder) := by
  induction arguments generalizing tokens with
  | nil =>
    rw [List.map_eq_nil_iff.mp htokens]
    exact .nil
  | cons a arguments ih =>
    cases arguments with
    | nil =>
      have hparses := (h a (by simp) tokens htokens).alone
      simpa using hparses
    | cons b arguments =>
      simp only [List.map_cons, separated] at htokens
      obtain ⟨first, rest, rfl, hfirst, hrest⟩ := List.map_eq_append_iff.mp htokens
      obtain ⟨t, more, rfl, ht, hmore⟩ := List.map_eq_cons_iff.mp hrest
      have hkind : t.kind = .separator := congrArg Word.kind ht
      have hreading := ih (fun c hc => h c (by simp [hc])) hmore
      rw [List.map_cons, List.flatMap_cons]
      refine (h a (by simp) first hfirst).reading _ _ ?_ (.separator hkind hreading)
      rintro u back hu
      cases hu
      exact t.releases_separator hkind _

/-- The tokens of words in parentheses. -/
theorem exists_group {words : List Word} {tokens : List Token}
    (h : tokens.map Token.word = .parenOpen :: (words ++ [.parenClose])) :
    ∃ opening inner closing, tokens = opening :: (inner ++ [closing]) ∧
      opening.kind = .parenOpen ∧ closing.kind = .parenClose ∧ inner.map Token.word = words := by
  obtain ⟨opening, rest, rfl, hopening, hrest⟩ := List.map_eq_cons_iff.mp h
  obtain ⟨inner, last, rfl, hinner, hlast⟩ := List.map_eq_append_iff.mp hrest
  obtain ⟨closing, none, rfl, hclosing, hnone⟩ := List.map_eq_cons_iff.mp hlast
  rw [List.map_eq_nil_iff.mp hnone]
  exact ⟨opening, inner, closing, rfl, congrArg Word.kind hopening, congrArg Word.kind hclosing,
    hinner⟩

/-- The tokens of a spelling are read into the listing of its tree. -/
theorem parses (h : Spells scope s) {tokens : List Token}
    (htokens : tokens.map Token.word = s.words) : Parses scope s.tree s.rank tokens := by
  induction h generalizing tokens with
  | number hnumeral hvalue =>
    obtain ⟨t, rest, rfl, ht, hrest⟩ := List.map_eq_cons_iff.mp htokens
    rw [List.map_eq_nil_iff.mp hrest]
    exact parses_number ht hvalue
  | constant hname hentry harity =>
    obtain ⟨t, rest, rfl, ht, hrest⟩ := List.map_eq_cons_iff.mp htokens
    rw [List.map_eq_nil_iff.mp hrest]
    exact parses_of_within ht hentry .nil (clear_nil _) rfl
  | infixOp hlevel hentry hleft hright hleftRank hrightRank ihleft ihright =>
    obtain ⟨first, rest, rfl, hfirst, hrest⟩ := List.map_eq_append_iff.mp htokens
    obtain ⟨t, second, rfl, ht, hsecond⟩ := List.map_eq_cons_iff.mp hrest
    exact (ihleft hfirst).infixOp ht hlevel hentry (ihright hsecond) hleftRank hrightRank
  | minus hentry hoperand hrank ih =>
    obtain ⟨t, rest, rfl, ht, hrest⟩ := List.map_eq_cons_iff.mp htokens
    have hparses := ih hrest
    exact parses_of_within ht hentry hparses.alone
      (hparses.clear _ (.inr ⟨hrank.symm, by rw [hrank]; decide⟩)) (by simp)
  | applied hname hentry harity hoperand hrank ih =>
    obtain ⟨t, rest, rfl, ht, hrest⟩ := List.map_eq_cons_iff.mp htokens
    have hparses := ih hrest
    exact parses_of_within ht hentry hparses.alone
      (hparses.clear _ (.inr ⟨hrank.symm, by rw [hrank]; decide⟩)) (by simp)
  | call hname hentry harity hne harguments ih =>
    obtain ⟨t, rest, rfl, ht, hrest⟩ := List.map_eq_cons_iff.mp htokens
    obtain ⟨opening, inner, closing, rfl, hopening, hclosing, hinner⟩ := exists_group hrest
    have hreading := reading_separated (fun a ha tokens => ih a ha) hinner
    exact parses_of_within ht hentry (.group hopening hclosing hreading .nil)
      ((clear_group_iff hopening hclosing hreading.closes).mpr (clear_nil _)) (by simp)
  | paren h ih =>
    obtain ⟨opening, inner, closing, rfl, hopening, hclosing, hinner⟩ := exists_group htokens
    exact (ih hinner).group hopening hclosing

/-- Every operator of a spelled tree has as many operands as it takes. -/
theorem ranked (h : Spells scope s) (hkeeps : scope.KeepsSymbols) :
    s.tree.Ranked Instruction.arity := by
  induction h with
  | number hnumeral hvalue => exact .node rfl (by simp)
  | constant hname hentry harity => exact .node (by simp [harity]) (by simp)
  | @infixOp lexeme entry precedence left right hlevel hentry hleft hright hleftRank hrightRank
      ihleft ihright =>
    obtain ⟨builtin, hbuiltin, harity⟩ := hlevel.exists_builtin
    rw [hkeeps lexeme hlevel.isSymbol, hbuiltin] at hentry
    cases hentry
    refine .node (by simp [harity]) fun t ht => ?_
    simp only [List.mem_cons, List.not_mem_nil, or_false] at ht
    rcases ht with rfl | rfl
    · exact ihleft
    · exact ihright
  | minus hentry hoperand hrank ih =>
    rw [hkeeps "u-" (.inr (.inr rfl))] at hentry
    have harity : (Scope.builtin.lookup "u-").map Entry.arity = some 1 := by decide
    rw [hentry] at harity
    exact .node (by simp [Option.some.inj harity]) (by simpa using ih)
  | applied hname hentry harity hoperand hrank ih =>
    exact .node (by simp [harity]) (by simpa using ih)
  | call hname hentry harity hne harguments ih =>
    refine .node (by simpa using harity.symm) fun t ht => ?_
    obtain ⟨a, ha, rfl⟩ := List.mem_map.mp ht
    exact ih a ha
  | paren h ih => exact ih

theorem rank_pos (h : Spells scope s) : 0 < s.rank := by
  have hprefix : 0 < Precedence.ofPrefix.rank := by decide
  cases h with
  | infixOp hlevel => exact hlevel.rank_pos
  | _ => exact hprefix

/-- The tokens of a spelling become the listing of its tree, and the arity check accepts it. -/
theorem ofTokens_eq (h : Spells scope s) (hkeeps : scope.KeepsSymbols) {tokens : List Token}
    (htokens : tokens.map Token.word = s.words) (hlength : tokens.length < 2 ^ 63) :
    Program.ofTokens scope tokens = .ok s.tree.postorder := by
  have hparses := h.parses htokens
  have hpostorder : s.tree.postorder.length < 2 ^ 63 := by
    rw [hparses.alone.perm.length_eq]
    exact (List.length_filterMap_le _ _).trans_lt hlength
  rw [Program.ofTokens, hparses.alone.ofTokensUnchecked_eq (hparses.clear 0 (.inl h.rank_pos))]
  simp only [Program.checkArity_postorder (h.ranked hkeeps) hpostorder]

/-- What holds of all entries of a scope holds of the operators of a spelled tree. -/
theorem entry_of_mem (h : Spells scope s) {tokens : List Token}
    (htokens : tokens.map Token.word = s.words) {P : Entry → Prop} (hscope : scope.Satisfies P) :
    ∀ op, .operator op ∈ s.tree.postorder → P op.entry := by
  intro op hop
  obtain ⟨t, -, ht⟩ := List.mem_filterMap.mp ((h.parses htokens).alone.perm.mem_iff.mp hop)
  exact hscope _ _ (Token.lookup_of_instruction? ht)

end Spells

/-- The scan of a text finds the words laid out in it, and asks for no name. -/
theorem exists_scan_of_laid {text : String} {scope : Scope} {words : List Word}
    (h : Disciplined scope .separator 0 words) (hlaid : Laid words (Text.foldCase text).toList)
    (resolver : Option Resolver) :
    ∃ tokens, scan text scope resolver = ⟨scope, [], .ok tokens⟩ ∧
      tokens.map Token.word = words ∧ tokens.length ≤ text.utf8ByteSize := by
  obtain ⟨final, hscans, hdepth, hscope, hasked, hwords⟩ :=
    Scanner.finds_of_disciplined resolver h hlaid (s := .start scope) rfl rfl rfl
  refine ⟨final.tokens.toList, ?_, by simpa [Scanner.start] using hwords, hscans.length_tokens_le⟩
  rw [scan, Scanner.run_eq_finish hscans, Scanner.finish, if_pos hdepth, hscope, hasked]
  rfl

/-- Every spelling of an expression tree compiles, with any blanks between the words, to the listing
of the tree, and evaluates to the value of the tree. The resolver is not asked. A text that memory
holds is always within the bound on its bytes. -/
theorem compileWith_of_spells {text : String} {functions : List (String × Entry)} {s : Spelling}
    (hsymbols : ∀ f ∈ functions, ¬IsSymbol (Text.foldCase f.1))
    (hcontract : ∀ f ∈ functions, f.2.KeepsContract) (h : Spells (.ofFunctions functions) s)
    (hlaid : Laid s.words (Text.foldCase text).toList) (htext : text.utf8ByteSize < 2 ^ 63)
    (resolver : Option Resolver) :
    ∃ e, compileWith text functions resolver = ⟨[], .ok e⟩ ∧ e.tokens.map Token.word = s.words ∧
      e.program = s.tree.postorder ∧ e.evaluate = s.tree.valueAbove .empty ∧
      ((∀ f ∈ functions, f.2.IsFunction) → e.evaluate = s.tree.value) := by
  have hkeeps := Scope.keepsSymbols_ofFunctions hsymbols
  have hdisciplined : Disciplined (.ofFunctions functions) .separator 0 (s.words ++ []) :=
    h.disciplined hkeeps (by simp) (.nil _)
  rw [List.append_nil] at hdisciplined
  obtain ⟨tokens, hscan, hwords, hlength⟩ := exists_scan_of_laid hdisciplined hlaid resolver
  have hprogram := h.ofTokens_eq hkeeps hwords (hlength.trans_lt htext)
  have hranked := h.ranked hkeeps
  have hvalue : Program.evaluate s.tree.postorder = s.tree.valueAbove .empty := by
    have hentries := h.entry_of_mem hwords
      (Scope.satisfies_ofFunctions Entry.keepsContract_ofBuiltin hcontract)
    rw [Program.evaluate, Tree.run_postorder hranked hentries .empty]
    rfl
  refine ⟨⟨text, tokens, s.tree.postorder⟩, ?_, hwords, rfl, hvalue, fun hfunctions => ?_⟩
  · simp only [compileWith, hscan, Scan.toExpression, hprogram]
  · have hentries := h.entry_of_mem hwords
      (Scope.satisfies_ofFunctions Entry.isFunction_ofBuiltin hfunctions)
    exact hvalue.trans (Tree.valueAbove_eq_value hranked hentries .empty)

/-- A minus binds its operand before a power does, and names are read in either case. -/
theorem compileWith_minus_power_plus_round :
    ∃ s e, Spells (.ofFunctions [("X", .constant 0 3)]) s ∧
      Laid s.words (Text.foldCase " - X ^ 2 + round ( pi , 1 )").toList ∧
      compileWith " - X ^ 2 + round ( pi , 1 )" [("X", .constant 0 3)] none = ⟨[], .ok e⟩ ∧
      e.program.map Instruction.arity = [0, 1, 0, 2, 0, 0, 2, 2] ∧ e.evaluate = s.tree.value := by
  have hlookup : ∀ (name : String) (arity : UInt64),
      ((Scope.ofFunctions [("X", .constant 0 3)]).lookup name).map Entry.arity = some arity →
      ∃ entry, (Scope.ofFunctions [("X", .constant 0 3)]).lookup name = some entry ∧
        entry.arity = arity :=
    fun _ _ h => Option.map_eq_some_iff.mp h
  obtain ⟨minus, hminus, hminusArity⟩ := hlookup "u-" 1 (by decide +kernel)
  obtain ⟨x, hx, hxArity⟩ := hlookup "x" 0 (by decide +kernel)
  obtain ⟨power, hpower, hpowerArity⟩ := hlookup "^" 2 (by decide +kernel)
  obtain ⟨plus, hplus, hplusArity⟩ := hlookup "+" 2 (by decide +kernel)
  obtain ⟨round, hround, hroundArity⟩ := hlookup "round" 2 (by decide +kernel)
  obtain ⟨pi, hpi, hpiArity⟩ := hlookup "pi" 0 (by decide +kernel)
  obtain ⟨two, htwo⟩ := Spells.exists_number (.ofFunctions [("X", .constant 0 3)])
    (show Lexeme.numeral? "2".toList = _ by decide)
  obtain ⟨one, hone⟩ := Spells.exists_number (.ofFunctions [("X", .constant 0 3)])
    (show Lexeme.numeral? "1".toList = _ by decide)
  have hxName : IsName "x" := ⟨by decide, by decide⟩
  have hroundName : IsName "round" := ⟨by decide, by decide⟩
  have hpiName : IsName "pi" := ⟨by decide, by decide⟩
  have hplusLevel : Precedence.Level "+" ⟨5, true⟩ := .sum (by decide)
  -- The derivation follows the tree, from the operands up.
  have hnegated := Spells.minus hminus (.constant hxName hx hxArity) rfl
  have hsquare := Spells.infixOp .power hpower hnegated htwo (by simp [Precedence.ofPrefix])
    (by simp [Precedence.ofPrefix])
  have harguments : ∀ a ∈ [Spelling.mk _ _ _, Spelling.mk _ _ _],
      Spells (.ofFunctions [("X", .constant 0 3)]) a :=
    List.forall_mem_cons.mpr ⟨.constant hpiName hpi hpiArity, List.forall_mem_singleton.mpr hone⟩
  have hcall := Spells.call hroundName hround (by rw [hroundArity]; rfl) (by simp) harguments
  have hsum := Spells.infixOp hplusLevel hplus hsquare hcall (by simp)
    (by simp [Precedence.ofPrefix])
  have htext : (Text.foldCase " - X ^ 2 + round ( pi , 1 )").toList = spaced
      [⟨.prefixOp, "u-"⟩, ⟨.prefixOp, "x"⟩, ⟨.infixOp, "^"⟩, ⟨.number, "2"⟩, ⟨.infixOp, "+"⟩,
        ⟨.prefixOp, "round"⟩, .parenOpen, ⟨.prefixOp, "pi"⟩, .separator, ⟨.number, "1"⟩,
        .parenClose] := by
    decide +kernel
  have hlaid : Laid _ (Text.foldCase " - X ^ 2 + round ( pi , 1 )").toList :=
    htext ▸ laid_spaced _
  have hcontract : ∀ f ∈ [("X", Entry.constant 0 3)], f.2.KeepsContract := by
    simpa using Entry.keepsContract_constant 0 3
  have hfunctions : ∀ f ∈ [("X", Entry.constant 0 3)], f.2.IsFunction := by
    simpa using Entry.isFunction_constant 0 3
  obtain ⟨e, hcompile, -, hprogram, -, hvalue⟩ :=
    compileWith_of_spells (by decide +kernel) hcontract hsum hlaid (by decide +kernel) none
  refine ⟨_, e, hsum, hlaid, hcompile, ?_, hvalue hfunctions⟩
  simp [hprogram, hminusArity, hxArity, hpowerArity, hplusArity, hroundArity, hpiArity]

end Formula
