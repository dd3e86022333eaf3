import Formula.Proofs.Binding
import Formula.Proofs.Longest
import Formula.Proofs.Replacement

/-!
# A constant in the place of a number

Where a number in a text is replaced by a constant of its value, the scan finds the same words but
this one, and the program has the constant behind what is in its reach instead of the number in
front of it. The value stays the same where nothing that is in reach has an instruction.
-/

namespace Formula

theorem Scope.insert_comm (scope : Scope) {name other : String} (hne : name ≠ other)
    (entry found : Entry) :
    (scope.insert name entry).insert other found =
      (scope.insert other found).insert name entry := by
  ext key value
  simp only [own_insert]
  by_cases hkey : key = name
  · subst hkey
    simp [hne]
  · simp [hkey]

theorem Scope.Within.lookup_eq_none {scope more : Scope} {name : String} (h : scope.Within more)
    (hnone : more.lookup name = none) : scope.lookup name = none := by
  cases hlookup : scope.lookup name with
  | none => rfl
  | some entry =>
    rw [h _ _ hlookup] at hnone
    cases hnone

namespace Text

/-- A place in a text is known by its byte position. -/
theorem append_inj_of_byteLength {xs ys zs ws : List Char} (h : xs ++ ys = zs ++ ws)
    (hlength : byteLength xs = byteLength zs) : xs = zs ∧ ys = ws := by
  induction xs generalizing zs with
  | nil =>
    cases zs with
    | nil => exact ⟨rfl, h⟩
    | cons c zs =>
      have hpos := byteLength_pos (List.cons_ne_nil c zs)
      rw [← hlength, byteLength_nil] at hpos
      exact absurd hpos (Nat.lt_irrefl 0)
  | cons c xs ih =>
    cases zs with
    | nil =>
      have hpos := byteLength_pos (List.cons_ne_nil c xs)
      rw [hlength, byteLength_nil] at hpos
      exact absurd hpos (Nat.lt_irrefl 0)
    | cons d zs =>
      obtain ⟨rfl, hrest⟩ := List.cons.inj h
      obtain ⟨rfl, hys⟩ := ih hrest (Nat.add_left_cancel hlength)
      exact ⟨rfl, hys⟩

end Text

namespace Scanner

variable {resolver : Option Resolver} {s t next : Scanner} {p : Piece} {name : String}
  {front back other : List Char}

/-- The scan with one more known name, other tokens and another position. -/
def alter (s : Scanner) (name : String) (entry : Entry) (tokens : Array Token) (index : Nat) :
    Scanner :=
  { s with scope := s.scope.insert name entry, tokens := tokens, index := index }

/-- The words of some tokens. -/
def wordsOf (tokens : Array Token) : List Word :=
  tokens.toList.map Token.word

/-- The same words were added to the ones tokens and to the others. -/
def AddsAlike (before after tokens added : Array Token) : Prop :=
  ∃ words, wordsOf after = wordsOf before ++ words ∧ wordsOf added = wordsOf tokens ++ words

theorem AddsAlike.refl (before tokens : Array Token) : AddsAlike before before tokens tokens :=
  ⟨[], by simp, by simp⟩

theorem AddsAlike.push (before tokens : Array Token) (kind : TokenKind) (lexeme : String)
    (i j : Nat) : AddsAlike before (before.push ⟨kind, lexeme, i⟩) tokens
      (tokens.push ⟨kind, lexeme, j⟩) :=
  ⟨[⟨kind, lexeme⟩], by simp [wordsOf, Token.word], by simp [wordsOf, Token.word]⟩

theorem AddsAlike.trans {before middle after tokens some added : Array Token}
    (h : AddsAlike before middle tokens some) (hmore : AddsAlike middle after some added) :
    AddsAlike before after tokens added := by
  obtain ⟨words, hmiddle, hsome⟩ := h
  obtain ⟨more, hafter, hadded⟩ := hmore
  exact ⟨words ++ more, by rw [hafter, hmiddle, List.append_assoc],
    by rw [hadded, hsome, List.append_assoc]⟩

/-- A piece is taken up in the same way with one more known name that it is not. -/
theorem Takes.alter (h : Takes resolver s p next) (hfree : next.scope.lookup name = none)
    (rest : List Char) (entry : Entry) (tokens : Array Token) (index : Nat) :
    ∃ added reached, Takes resolver (s.alter name entry tokens index) ⟨p.shape, p.lexeme, rest⟩
        (next.alter name entry added reached) ∧
      AddsAlike s.tokens next.tokens tokens added := by
  have hlookup : ∀ {scope : Scope} {lexeme : String}, lexeme ≠ name →
      (scope.insert name entry).lookup lexeme = scope.lookup lexeme := by
    intro scope lexeme hne
    rw [Scope.lookup_insert, if_neg hne]
  cases h with
  | blank hshape => exact ⟨_, _, .blank hshape, .refl _ _⟩
  | parenOpen hshape => exact ⟨_, _, .parenOpen hshape, .push _ _ _ _ _ _⟩
  | parenClose hshape hdepth => exact ⟨_, _, .parenClose hshape hdepth, .push _ _ _ _ _ _⟩
  | separator hshape => exact ⟨_, _, .separator hshape, .push _ _ _ _ _ _⟩
  | infixOp hshape => exact ⟨_, _, .infixOp hshape, .push _ _ _ _ _ _⟩
  | number hshape => exact ⟨_, _, .number hshape, .push _ _ _ _ _ _⟩
  | known hshape hentry =>
    have hne : String.ofList p.lexeme ≠ name := by
      rintro rfl
      rw [show s.scope.lookup _ = none from hfree] at hentry
      cases hentry
    exact ⟨_, _, .known hshape ((hlookup hne).trans hentry), .push _ _ _ _ _ _⟩
  | @learned resolve found hshape hunknown hresolver hentry =>
    have hne : String.ofList p.lexeme ≠ name := by
      rintro rfl
      rw [Scope.lookup_insert, if_pos rfl] at hfree
      cases hfree
    have htakes : Takes resolver (s.alter name entry tokens index) ⟨p.shape, p.lexeme, rest⟩ _ :=
      .learned hshape ((hlookup hne).trans hunknown) hresolver hentry
    simp only [Scanner.alter] at htakes
    rw [Scope.insert_comm s.scope hne.symm] at htakes
    exact ⟨_, _, htakes, .push _ _ _ _ _ _⟩

/-- A scan passes some text in the same way with one more known name that does not come in it, and
where something else comes behind the text that begins with a boundary. -/
theorem Reaches.alter (h : Reaches resolver s (front ++ back) t back)
    (hfree : t.scope.lookup name = none) (hother : Boundary other) (entry : Entry)
    (tokens : Array Token) (index : Nat) :
    ∃ added reached, Reaches resolver (s.alter name entry tokens index) (front ++ other)
        (t.alter name entry added reached) other ∧ AddsAlike s.tokens t.tokens tokens added := by
  generalize hcs : front ++ back = cs at h
  induction h generalizing front tokens index with
  | here s cs =>
    obtain rfl : front = [] := by simpa using hcs
    exact ⟨tokens, index, .here _ _, .refl _ _⟩
  | @step s next t cs back p hpiece htakes hrest ih =>
    obtain ⟨between, hbetween, -⟩ := hrest.exists_front
    have hnext := hrest.within.lookup_eq_none hfree
    obtain ⟨added, reached, hstep, hadds⟩ :=
      htakes.alter hnext (between ++ other) entry tokens index
    obtain ⟨final, last, hreaches, hmore⟩ := ih hfree added reached hbetween.symm
    rw [← hcs] at hpiece
    have hcut := Piece.next?_cut hother hpiece hbetween
    exact ⟨final, last, .step hcut hstep hreaches, hadds.trans hmore⟩

/-- Only a number becomes a number token. -/
theorem Takes.number_of_tokens {token : Token} (h : Takes resolver s p next)
    (htokens : next.tokens = s.tokens.push token) (hkind : token.kind = .number) :
    token = ⟨.number, String.ofList p.lexeme, s.index⟩ ∧
      next = { s.behind p .number (String.ofList p.lexeme) with last := .value } := by
  cases h with
  | number hshape => exact ⟨(Array.push_eq_push.mp htokens).1.symm, rfl⟩
  | blank =>
    have hsize := congrArg Array.size htokens
    simp [advance] at hsize
  | _ =>
    rw [← (Array.push_eq_push.mp htokens).1] at hkind
    cases hkind

/-- A name that stands for a value is passed between blanks. -/
theorem exists_reaches_constant (resolver : Option Resolver) {word : List Char} {entry : Entry}
    (hname : Lexeme.IsIdentifier word) (hentry : s.scope.lookup (String.ofList word) = some entry)
    (harity : entry.arity = 0) (cs : List Char) :
    ∃ i j, Reaches resolver s (' ' :: (word ++ ' ' :: cs))
      { s with
        tokens := s.tokens.push ⟨.prefixOp, String.ofList word, i⟩
        last := .value
        index := j } cs := by
  have hblank : Text.isBlank ' ' = true := by decide
  have hboundary : Boundary (' ' :: cs) := by
    intro c hc
    cases hc
    decide
  have hword : nameLexeme (String.ofList word) = String.ofList word :=
    if_neg fun heq => hname.ne_minus (String.ofList_injective heq)
  have hclass : classOf entry = .value := if_pos harity
  have hpieceBlank : ∀ last rest, Piece.next? last (' ' :: rest) = some ⟨.blank, [' '], rest⟩ := by
    simp [Piece.next?, hblank]
  have hpieceName : Piece.next? s.last (word ++ ' ' :: cs) = some ⟨.name, word, ' ' :: cs⟩ :=
    Piece.next?_name hboundary (Lexeme.name?_eq_self_iff.mpr (.inr (.inr hname)))
      fun heq => absurd heq hname.ne_minus
  have hreaches : Reaches resolver s (' ' :: (word ++ ' ' :: cs)) _ cs :=
    .step (hpieceBlank _ _) (.blank rfl) (.step hpieceName (.known rfl hentry)
      (.step (hpieceBlank _ _) (.blank rfl) (.here _ _)))
  rw [hword, hclass] at hreaches
  exact ⟨_, _, hreaches⟩

section Literal

variable {scope : Scope} {final : Scanner} {before literal after : List Char} {number : Token}
  {first rest : List Token}

/-- The place in the text where a scan finds a number, and how it goes on behind it. -/
theorem Scans.exists_number (h : Scans resolver (.start scope) (before ++ (literal ++ after)) final)
    (htokens : final.tokens.toList = first ++ number :: rest) (hkind : number.kind = .number)
    (hindex : Text.byteLength before = number.index) (hliteral : literal = number.lexeme.toList) :
    ∃ s index,
      Reaches resolver (.start scope) (before ++ (literal ++ after)) s (literal ++ after) ∧
      Reaches resolver { s with tokens := s.tokens.push number, last := .value, index := index }
        after final [] ∧
      s.scope.Within final.scope ∧ s.tokens.toList = first := by
  obtain ⟨s, cs, p, next, hreaches, hpiece, htakes, hfirst, hpush, hrest⟩ :=
    h.exists_takes_of_tokens (htokens : _ = [] ++ (first ++ number :: rest))
  obtain ⟨rfl, rfl⟩ := htakes.number_of_tokens hpush hkind
  obtain ⟨passed, hpassed, hposition⟩ := hreaches.exists_front
  have hlength : Text.byteLength passed = Text.byteLength before := by
    rw [hindex, hposition]
    exact (Nat.zero_add _).symm
  obtain ⟨rfl, rfl⟩ := Text.append_inj_of_byteLength hpassed.symm hlength
  have hafter : p.rest = after := by
    have happend := (Piece.next?_append hpiece).1
    rw [hliteral, String.toList_ofList] at happend
    exact List.append_cancel_left happend
  rw [hafter] at hrest
  exact ⟨s, _, hreaches, hrest.reaches, htakes.within.trans hrest.reaches.within, hfirst⟩

/-- With a name that stands for a value in the place of a number, the scan comes to the end of the
text too and finds the same words but this one. -/
theorem Scans.exists_constant {entry : Entry}
    (h : Scans resolver (.start scope) (before ++ (literal ++ after)) final)
    (htokens : final.tokens.toList = first ++ number :: rest) (hkind : number.kind = .number)
    (hindex : Text.byteLength before = number.index) (hliteral : literal = number.lexeme.toList)
    (hname : Lexeme.IsIdentifier name.toList) (hfree : final.scope.lookup name = none)
    (harity : entry.arity = 0) :
    ∃ tokens index, Scans resolver (.start (scope.insert name entry))
        (before ++ ' ' :: (name.toList ++ ' ' :: after)) (final.alter name entry tokens index) ∧
      wordsOf tokens = first.map Token.word ++ ⟨.prefixOp, name⟩ :: rest.map Token.word := by
  obtain ⟨s, index, hreaches, hrest, hwithin, hfirst⟩ :=
    h.exists_number htokens hkind hindex hliteral
  have hboundary : Boundary (' ' :: (name.toList ++ ' ' :: after)) := by
    intro c hc
    cases hc
    decide
  obtain ⟨added, reached, hbefore, hadded⟩ :=
    hreaches.alter (hwithin.lookup_eq_none hfree) hboundary entry #[] 0
  have hentry : (s.alter name entry added reached).scope.lookup (String.ofList name.toList) =
      some entry := by
    rw [String.ofList_toList]
    exact (Scope.lookup_insert _ _ _ _).trans (if_pos rfl)
  obtain ⟨i, j, hconstant⟩ := exists_reaches_constant resolver hname hentry harity after
  rw [String.ofList_toList] at hconstant
  rw [← List.append_nil after] at hrest
  have hnil : Boundary [] := by simp [Boundary]
  obtain ⟨tokens, stop, hafter, hmore⟩ :=
    hrest.alter hfree hnil entry (added.push ⟨.prefixOp, name, i⟩) j
  rw [List.append_nil] at hafter
  refine ⟨tokens, stop, ((hbefore.trans hconstant).trans hafter).scans, ?_⟩
  obtain ⟨words, hwords, hsame⟩ := hadded
  obtain ⟨behind, hbehind, hagain⟩ := hmore
  have hfront : words = first.map Token.word := by
    rw [wordsOf, hfirst] at hwords
    exact hwords.symm
  have hback : behind = rest.map Token.word := by
    simpa [wordsOf, htokens, hfirst] using hbehind.symm
  rw [hagain, wordsOf, Array.toList_push, List.map_append, ← wordsOf, hsame, hfront, hback]
  simp [wordsOf, Token.word]

end Literal

end Scanner

/-- Where a number is replaced by a name that stands for a value, and that the scan does not know
otherwise, the scan finds the same words but this one. -/
theorem scan_constant {before literal after name : String} {scope : Scope}
    {resolver : Option Resolver} {front back : List Token} {t : Token} {entry : Entry}
    (h : (scan (before ++ literal ++ after) scope resolver).outcome = .ok (front ++ t :: back))
    (hkind : t.kind = .number) (hindex : Text.byteLength before.toList = t.index)
    (hliteral : Text.foldCase literal = t.lexeme)
    (hname : Lexeme.IsIdentifier (Text.foldCase name).toList)
    (hfree : (scan (before ++ literal ++ after) scope resolver).scope.lookup
      (Text.foldCase name) = none) (harity : entry.arity = 0) :
    ∃ tokens, scan (before ++ (" " ++ name ++ " ") ++ after)
        (scope.insert (Text.foldCase name) entry) resolver =
          ⟨(scan (before ++ literal ++ after) scope resolver).scope.insert
              (Text.foldCase name) entry,
            (scan (before ++ literal ++ after) scope resolver).asked, .ok tokens⟩ ∧
      tokens.map Token.word =
        front.map Token.word ++ ⟨.prefixOp, Text.foldCase name⟩ :: back.map Token.word := by
  obtain ⟨final, hscans, hdepth, hscope, htokens⟩ := Scanner.exists_scans h
  have hscan : scan (before ++ literal ++ after) scope resolver = final.finish :=
    Scanner.run_eq_finish hscans
  rw [hscope] at hfree
  have hold : (Text.foldCase (before ++ literal ++ after)).toList =
      (Text.foldCase before).toList ++ ((Text.foldCase literal).toList ++
        (Text.foldCase after).toList) := by
    simp
  have hnew : (Text.foldCase (before ++ (" " ++ name ++ " ") ++ after)).toList =
      (Text.foldCase before).toList ++
        ' ' :: ((Text.foldCase name).toList ++ ' ' :: (Text.foldCase after).toList) := by
    simp
  rw [hold] at hscans
  have hposition : Text.byteLength (Text.foldCase before).toList = t.index := by
    rw [Text.toList_foldCase, Text.byteLength_map_toLower, hindex]
  obtain ⟨tokens, index, hreplaced, hwords⟩ := hscans.exists_constant htokens hkind hposition
    (congrArg String.toList hliteral) hname hfree harity
  rw [← hnew] at hreplaced
  refine ⟨tokens.toList, ?_, hwords⟩
  rw [hscan, scan, Scanner.run_eq_finish hreplaced, Scanner.finish, Scanner.finish, if_pos hdepth]
  exact if_pos hdepth

/-- A name that neither the scope nor the resolver knows is unknown in the end too. -/
theorem lookup_scan_eq_none {text name : String} {scope : Scope} {resolver : Option Resolver}
    {tokens : List Token} (h : (scan text scope resolver).outcome = .ok tokens)
    (hunknown : scope.lookup name = none)
    (hresolver : ∀ resolve ∈ resolver, resolve name = none) :
    (scan text scope resolver).scope.lookup name = none := by
  cases resolver with
  | none =>
    obtain ⟨final, hscans, -, hscope, -⟩ := Scanner.exists_scans h
    rw [hscope, hscans.scope_eq]
    exact hunknown
  | some resolve =>
    obtain ⟨index, hlearned⟩ := Scanner.exists_learned text scope resolve
    rw [hlearned.lookup, hresolver resolve rfl, hunknown, ite_self]

/-- No token that a name reaches in front of these has an instruction. -/
def NothingInReach (tokens : List Token) : Prop :=
  ∀ t ∈ reach Precedence.ofPrefix.rank 0 tokens,
    t.kind = .parenOpen ∨ t.kind = .parenClose ∨ t.kind = .separator

instance (tokens : List Token) : Decidable (NothingInReach tokens) :=
  inferInstanceAs (Decidable (∀ _ ∈ _, _))

/-- A name reaches nothing in front of a token that sends it on, nor at the end. -/
theorem Stops.nothingInReach {tokens : List Token} (h : Stops Precedence.ofPrefix.rank tokens) :
    NothingInReach tokens := by
  have hreach : reach Precedence.ofPrefix.rank 0 tokens = [] := by
    cases tokens with
    | nil => rfl
    | cons t rest => rw [reach, if_pos ⟨rfl, h t rest rfl⟩]
  simp [NothingInReach, hreach]

/-- A readable token has no instruction exactly if it is a parenthesis or a separator. -/
theorem Token.Readable.instruction?_eq_none_iff {scope : Scope} {t : Token}
    (h : t.Readable scope) : t.instruction? scope = none ↔
      t.kind = .parenOpen ∨ t.kind = .parenClose ∨ t.kind = .separator := by
  constructor
  · intro hnone
    cases hkind : t.kind with
    | number =>
      obtain ⟨value, hvalue⟩ := h.1 hkind
      cases hnone.symm.trans (instruction?_number hkind hvalue)
    | infixOp =>
      obtain ⟨precedence, entry, hprecedence, hentry⟩ := h.2 (.inl hkind)
      cases hnone.symm.trans (instruction?_operator hprecedence hentry)
    | prefixOp =>
      obtain ⟨precedence, entry, hprecedence, hentry⟩ := h.2 (.inr hkind)
      cases hnone.symm.trans (instruction?_operator hprecedence hentry)
    | parenOpen => exact .inl rfl
    | parenClose => exact .inr (.inl rfl)
    | separator => exact .inr (.inr rfl)
  · rintro (hkind | hkind | hkind)
    · exact instruction?_parenOpen hkind
    · exact instruction?_parenClose hkind
    · exact instruction?_separator hkind

/-- An infix operator, a separator and the close of a parenthesis send on every name. -/
theorem Token.Readable.releases_ofPrefix {scope : Scope} {t : Token} (h : t.Readable scope)
    (hkind : t.kind = .infixOp ∨ t.kind = .separator ∨ t.kind = .parenClose) :
    t.releases Precedence.ofPrefix.rank = true := by
  rcases hkind with hkind | hkind | hkind
  · obtain ⟨p, entry, hprecedence, -⟩ := h.2 (.inl hkind)
    rw [t.releases_of_precedence? hprecedence]
    rw [precedence?, hkind] at hprecedence
    have hlt := (Precedence.ofInfix?_eq_some_iff.mp hprecedence).rank_lt_ofPrefix
    simp [Precedence.yields, hlt, hlt.le]
  · simp [releases, hkind]
  · simp [releases, hkind]

/-- What is in reach becomes the empty program exactly if none of it has an instruction. -/
theorem Reading.eq_nil_iff_nothingInReach {scope : Scope} {tokens : List Token} {q : Program}
    (h : Reading scope (reach Precedence.ofPrefix.rank 0 tokens) q) :
    q = [] ↔ NothingInReach tokens :=
  calc q = []
      ↔ (reach Precedence.ofPrefix.rank 0 tokens).filterMap (Token.instruction? scope) = [] :=
        ⟨fun hq => List.nil_perm.mp (hq ▸ h.perm), fun hnone => List.perm_nil.mp (hnone ▸ h.perm)⟩
    _ ↔ ∀ t ∈ reach Precedence.ofPrefix.rank 0 tokens, t.instruction? scope = none :=
        List.filterMap_eq_nil_iff
    _ ↔ NothingInReach tokens :=
        forall₂_congr fun t ht => (h.readable t ht).instruction?_eq_none_iff

/-- A number of an expression, with its value and its place in the text and among the tokens. -/
structure Expression.HasNumber (e : Expression) (before literal after : String)
    (front : List Token) (t : Token) (back : List Token) (value : Float) : Prop where
  text : e.text = before ++ literal ++ after
  tokens : e.tokens = front ++ t :: back
  kind : t.kind = .number
  index : Text.byteLength before.toList = t.index
  spelling : Text.foldCase literal = t.lexeme
  value : Decimal.readNumeral? t.lexeme = some value

section Compile

variable {text : String} {functions : List (String × Entry)} {resolver : Option Resolver}
  {e : Expression} {front back : List Token} {t : Token}

/-- Every number token of an expression has a value and a place in the text. -/
theorem exists_hasNumber (h : (compileWith text functions resolver).outcome = .ok e)
    (htokens : e.tokens = front ++ t :: back) (hkind : t.kind = .number) :
    ∃ before literal after value, e.HasNumber before literal after front t back value := by
  obtain ⟨final, hscans, -, hfinal, -, hprogram⟩ := exists_of_compileWith h
  have hreadable := Program.readable_of_ofTokens hprogram
  obtain ⟨value, hvalue⟩ := (hreadable t (by simp [htokens])).1 hkind
  obtain ⟨s, cs, p, next, hreaches, hpiece, htakes, -, hpush, -⟩ :=
    hscans.exists_takes_of_tokens (hfinal ▸ htokens)
  obtain ⟨rfl, -⟩ := htakes.number_of_tokens hpush hkind
  obtain ⟨passed, hpassed, hposition⟩ := hreaches.exists_front
  rw [Text.toList_foldCase, ← (Piece.next?_append hpiece).1] at hpassed
  obtain ⟨before, rest, hbefore, rfl, hrest⟩ := List.map_eq_append_iff.mp hpassed
  obtain ⟨literal, after, rfl, hliteral, -⟩ := List.map_eq_append_iff.mp hrest
  refine ⟨String.ofList before, String.ofList literal, String.ofList after, value, ?_, htokens,
    hkind, ?_, ?_, hvalue⟩
  · rw [text_of_compileWith h]
    apply String.toList_injective
    simp [hbefore]
  · rw [Text.byteLength_map_toLower] at hposition
    rw [String.toList_ofList, hposition]
    exact (Nat.zero_add _).symm
  · apply String.toList_injective
    simp [hliteral]

/-- A name in front of an infix operator, a separator, the close of a parenthesis or the end of an
expression reaches nothing. -/
theorem nothingInReach_of_next (h : (compileWith text functions resolver).outcome = .ok e)
    (htokens : e.tokens = front ++ t :: back)
    (hnext : ∀ u rest, back = u :: rest →
      u.kind = .infixOp ∨ u.kind = .separator ∨ u.kind = .parenClose) : NothingInReach back := by
  obtain ⟨final, -, -, -, -, hprogram⟩ := exists_of_compileWith h
  have hreadable := Program.readable_of_ofTokens hprogram
  refine Stops.nothingInReach fun u rest hback => ?_
  exact (hreadable u (by simp [htokens, hback])).releases_ofPrefix (hnext u rest hback)

end Compile

/-- Every number of an expression has a value and a place in the text. Where it is replaced by a
constant of its value, the scan finds the same words but this one, the constant comes into the
program behind what is in its reach, and the compilation succeeds unless the arities do not come out
any more. Where nothing in its reach has an instruction, as in front of an infix operator, of a
separator, of the close of a parenthesis or of the end, it succeeds, and the value is the same. -/
theorem compileWith_constant {text name : String} {functions : List (String × Entry)}
    {resolver : Option Resolver} {e : Expression} {front back : List Token} {t : Token}
    (h : (compileWith text functions resolver).outcome = .ok e)
    (htokens : e.tokens = front ++ t :: back) (hkind : t.kind = .number)
    (hname : Lexeme.IsIdentifier (Text.foldCase name).toList)
    (hunknown : (Scope.ofFunctions functions).lookup (Text.foldCase name) = none)
    (hresolver : ∀ resolve ∈ resolver, resolve (Text.foldCase name) = none) :
    (∃ before literal after value, e.HasNumber before literal after front t back value) ∧
    ((∀ u rest, back = u :: rest →
      u.kind = .infixOp ∨ u.kind = .separator ∨ u.kind = .parenClose) → NothingInReach back) ∧
    ∀ before literal after value identity other more,
      e.HasNumber before literal after front t back value →
      other = before ++ (" " ++ name ++ " ") ++ after →
      more = functions ++ [(name, .constant identity value)] →
      ∃ tokens replaced p q r,
        tokens.map Token.word = front.map Token.word ++
          ⟨.prefixOp, Text.foldCase name⟩ :: back.map Token.word ∧
        Replaces (scan other (.ofFunctions more) resolver).scope value
          ⟨Text.foldCase name, .constant identity value⟩ back e.program replaced p q r ∧
        compileWith other more resolver = ⟨(compileWith text functions resolver).asked,
          match replaced.checkArity with
          | .error fault => .error ⟨fault, other, some tokens⟩
          | .ok () => .ok ⟨other, tokens, replaced⟩⟩ ∧
        (q = [] ↔ NothingInReach back) ∧ (NothingInReach back →
          (compileWith other more resolver).outcome = .ok ⟨other, tokens, replaced⟩ ∧
            replaced.evaluate = e.evaluate) := by
  refine ⟨exists_hasNumber h htokens hkind, nothingInReach_of_next h htokens, ?_⟩
  intro before literal after value identity other more hnumber hother hmore
  obtain ⟨final, hscans, hdepth, hfinal, hscope, hprogram⟩ := exists_of_compileWith h
  have hscan := outcome_scan_of_compileWith h
  have hcloses := hscans.closes hdepth
  rw [← hfinal] at hcloses
  rw [← hscope] at hprogram
  obtain rfl : text = before ++ literal ++ after := (text_of_compileWith h).symm.trans hnumber.text
  rw [htokens] at hscan hprogram hcloses
  have hfree := lookup_scan_eq_none hscan hunknown hresolver
  have harity : (Entry.constant identity value).arity = 0 := rfl
  obtain ⟨tokens, hsame, hwords⟩ := scan_constant hscan hkind hnumber.index
    hnumber.spelling hname hfree harity
  rw [← hother, ← Scope.ofFunctions_concat, ← hmore] at hsame
  obtain ⟨replaced, p, q, r, hread, hreplaces⟩ := Program.exists_replaces hprogram hcloses
    hkind hnumber.value hfree (.constant identity value) hwords
  have hcompiled : compileWith other more resolver =
      ⟨(compileWith (before ++ literal ++ after) functions resolver).asked,
        match replaced.checkArity with
        | .error fault => .error ⟨fault, other, some tokens⟩
        | .ok () => .ok ⟨other, tokens, replaced⟩⟩ := by
    simp only [compileWith, hsame, Scan.toExpression, Program.ofTokens, hread]
    cases replaced.checkArity <;> rfl
  have hnil := hreplaces.within.eq_nil_iff_nothingInReach
  refine ⟨tokens, replaced, p, q, r, hwords, ?_, hcompiled, hnil, fun hnothing => ?_⟩
  · rw [hsame]
    exact hreplaces
  · obtain rfl := hnil.mpr hnothing
    obtain ⟨hcheck, hvalue⟩ := hreplaces.checkArity_and_evaluate (checkArity_of_compileWith h)
    rw [hcompiled, hcheck]
    exact ⟨rfl, hvalue⟩

/-- A constant for the first number of `round(7, 2) - pi`, which has a separator behind it. -/
theorem compileWith_round_seven :
    ∃ (e : Expression) (front back : List Token) (t : Token) (other : Expression),
      (compileWith "round(7, 2) - pi" [] none).outcome = .ok e ∧
      e.HasNumber "round(" "7" ", 2) - pi" front t back 7 ∧
      Lexeme.IsIdentifier (Text.foldCase "Seven").toList ∧
      (Scope.ofFunctions []).lookup (Text.foldCase "Seven") = none ∧ NothingInReach back ∧
      (compileWith "round( Seven , 2) - pi" [("Seven", .constant 0 7)] none).outcome = .ok other ∧
      other.evaluate = e.evaluate := by
  have hpasses : (compileWith "round(7, 2) - pi" [] none).passes (fun e =>
      e.tokens == [⟨.prefixOp, "round", 0⟩, ⟨.parenOpen, "(", 5⟩] ++ ⟨.number, "7", 6⟩ ::
        [⟨.separator, ",", 7⟩, ⟨.number, "2", 9⟩, ⟨.parenClose, ")", 10⟩, ⟨.infixOp, "-", 12⟩,
          ⟨.prefixOp, "pi", 14⟩]) := by
    decide +kernel
  obtain ⟨e, houtcome, htokens⟩ := Compilation.exists_of_passes hpasses
  have hnumber : e.HasNumber "round(" "7" ", 2) - pi" _ _ _ 7 :=
    ⟨text_of_compileWith houtcome, eq_of_beq htokens, rfl, by decide +kernel, by decide +kernel,
      by decide +kernel⟩
  have hname : Lexeme.IsIdentifier (Text.foldCase "Seven").toList := by
    have hletters : (Text.foldCase "Seven").toList = ['s', 'e', 'v', 'e', 'n'] := by decide +kernel
    rw [hletters]
    exact .plain (by decide) (List.all_eq_true.mp (by decide))
  have hunknown : (Scope.ofFunctions []).lookup (Text.foldCase "Seven") = none :=
    Option.isNone_iff_eq_none.mp (by decide +kernel)
  have hmore : [("Seven", .constant 0 7)] = [] ++ [("Seven", Entry.constant 0 7)] := rfl
  obtain ⟨-, hnext, hreplaced⟩ :=
    compileWith_constant houtcome hnumber.tokens hnumber.kind hname hunknown (by simp)
  have hnothing := hnext fun u rest hback => by
    cases hback
    exact .inr (.inl rfl)
  obtain ⟨tokens, replaced, p, q, r, -, -, -, -, hsame⟩ :=
    hreplaced _ _ _ _ _ _ _ hnumber rfl hmore
  obtain ⟨hother, hvalue⟩ := hsame hnothing
  exact ⟨e, _, _, _, _, houtcome, hnumber, hname, hunknown, hnothing, hother, hvalue⟩

/-- In `4 + 9 sqrt` the root is taken of the number in front of it. With a constant of the same
value in its place, the root comes before the constant and is taken of the other number. -/
theorem evaluate_constant_root :
    ∃ (e other : Expression) (front back : List Token) (t : Token),
      (compileWith "4 + 9 sqrt" [] none).outcome = .ok e ∧
      e.HasNumber "4 + " "9" " sqrt" front t back 9 ∧
      Lexeme.IsIdentifier (Text.foldCase "c").toList ∧
      (Scope.ofFunctions []).lookup (Text.foldCase "c") = none ∧
      (compileWith "4 +  c  sqrt" [("c", .constant 0 9)] none).outcome = .ok other ∧
      e.evaluate = 7 ∧ other.evaluate = 11 ∧ other.evaluate ≠ e.evaluate := by
  have hpasses : (compileWith "4 + 9 sqrt" [] none).passes (fun e =>
      e.tokens == [⟨.number, "4", 0⟩, ⟨.infixOp, "+", 2⟩] ++ ⟨.number, "9", 4⟩ ::
        [⟨.prefixOp, "sqrt", 6⟩] && decide (e.evaluate = 7)) := by
    decide +kernel
  have hconstant : (compileWith "4 +  c  sqrt" [("c", .constant 0 9)] none).passes (fun e =>
      decide (e.evaluate = 11)) := by
    decide +kernel
  obtain ⟨e, houtcome, htest⟩ := Compilation.exists_of_passes hpasses
  obtain ⟨other, hother, heleven⟩ := Compilation.exists_of_passes hconstant
  rw [Bool.and_eq_true, decide_eq_true_eq] at htest
  obtain ⟨htokens, hseven⟩ := htest
  rw [decide_eq_true_eq] at heleven
  have hnumber : e.HasNumber "4 + " "9" " sqrt" _ _ _ 9 :=
    ⟨text_of_compileWith houtcome, eq_of_beq htokens, rfl, by decide +kernel, by decide +kernel,
      by decide +kernel⟩
  have hname : Lexeme.IsIdentifier (Text.foldCase "c").toList := by
    have hletter : (Text.foldCase "c").toList = ['c'] := by decide +kernel
    rw [hletter]
    exact .plain (by decide) (List.all_eq_true.mp (by decide))
  have hunknown : (Scope.ofFunctions []).lookup (Text.foldCase "c") = none :=
    Option.isNone_iff_eq_none.mp (by decide +kernel)
  refine ⟨e, other, _, _, _, houtcome, hnumber, hname, hunknown, hother, hseven, heleven, ?_⟩
  rw [hseven, heleven]
  decide +kernel

end Formula
