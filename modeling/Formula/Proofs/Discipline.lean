import Formula.Proofs.Layout
import Formula.Proofs.Spelling

/-!
# Disciplined words

Which sequences of words a text can be cut into. Each word must fit the class that the words before
it leave, and the parentheses must match. A scan finds no other words, and whatever fits is found
again where it is written out with single blanks between the words.
-/

namespace Formula

namespace Word

/-- The class that a word leaves behind. Parentheses leave the class before them. -/
def leaves (scope : Scope) (last : Preceding) (w : Word) : Preceding :=
  match w.kind with
  | .number => .value
  | .infixOp => .infixOp
  | .prefixOp =>
    if (scope.lookup (String.ofList w.spelling)).any (·.arity = 0) then .value else .prefixOp
  | .parenOpen => last
  | .parenClose => last
  | .separator => .separator

/-- What a word of each kind is, and which class it may follow. -/
def Fits (scope : Scope) (last : Preceding) (w : Word) : Prop :=
  match w.kind with
  | .number => Lexeme.IsNumeral w.lexeme.toList ∧ last ≠ .value
  | .infixOp => w.lexeme.toList ∈ Lexeme.infixSpellings ∧ last = .value
  | .prefixOp =>
    w.lexeme = "u-" ∧ last ≠ .value ∨ w.lexeme = "!" ∨
      Lexeme.IsIdentifier w.lexeme.toList ∧ scope.contains w.lexeme = true
  | .parenOpen => w.lexeme = "("
  | .parenClose => w.lexeme = ")"
  | .separator => w.lexeme = "," ∧ last ≠ .separator

/-- How many parentheses are open behind a word. -/
def depthBehind (w : Word) (depth : Nat) : Nat :=
  match w.kind with
  | .parenOpen => depth + 1
  | .parenClose => depth - 1
  | _ => depth

end Word

/-- How many of the words open a parenthesis. -/
def openings (words : List Word) : Nat :=
  words.countP (·.kind = .parenOpen)

/-- How many of the words close a parenthesis. -/
def closings (words : List Word) : Nat :=
  words.countP (·.kind = .parenClose)

/-- Words that may stand behind a word of the given class with so many parentheses open: each fits
the class that those before it leave, no parenthesis closes that is not open, and all are closed in
the end. -/
structure Scope.Admits (scope : Scope) (last : Preceding) (depth : Nat) (words : List Word) :
    Prop where
  fits : ∀ front w back, words = front ++ w :: back →
    w.Fits scope (front.foldl (Word.leaves scope) last)
  closes : ∀ front back, words = front ++ back → closings front ≤ depth + openings front
  balanced : closings words = depth + openings words

section Words

variable {scope : Scope} {last next : Preceding} {depth : Nat} {w : Word} {words rest : List Word}

/-- A word counts towards the parentheses as it changes how many are open. -/
theorem closings_cons (hpos : w.kind = .parenClose → depth ≠ 0) (words : List Word) :
    closings words + depth + openings (w :: words) =
      closings (w :: words) + w.depthBehind depth + openings words := by
  have hopen : openings (w :: words) = openings words + if w.kind = .parenOpen then 1 else 0 := by
    simp [openings, List.countP_cons]
  have hclose : closings (w :: words) = closings words + if w.kind = .parenClose then 1 else 0 := by
    simp [closings, List.countP_cons]
  rw [hopen, hclose, Word.depthBehind]
  cases hkind : w.kind with
  | parenClose =>
    have hdepth := hpos hkind
    simp only [reduceCtorEq, if_true, if_false]
    omega
  | _ =>
    simp only [reduceCtorEq, if_true, if_false]
    omega

theorem admits_nil_iff : scope.Admits last depth [] ↔ depth = 0 := by
  constructor
  · intro h
    exact h.balanced.symm
  · rintro rfl
    exact ⟨by simp, by simp [closings], rfl⟩

/-- The first word fits, and the others may stand behind it. -/
theorem admits_cons_iff :
    scope.Admits last depth (w :: rest) ↔
      w.Fits scope last ∧ (w.kind = .parenClose → depth ≠ 0) ∧
        scope.Admits (w.leaves scope last) (w.depthBehind depth) rest := by
  constructor
  · intro h
    have hpos : w.kind = .parenClose → depth ≠ 0 := by
      intro hkind
      have hfirst : 1 ≤ depth := by
        simpa [closings, openings, hkind] using h.closes [w] rest rfl
      omega
    refine ⟨h.fits [] w rest rfl, hpos, ?_, ?_, ?_⟩
    · rintro front v back rfl
      exact h.fits (w :: front) v back rfl
    · rintro front back rfl
      have hle := h.closes (w :: front) back rfl
      have hcount := closings_cons hpos front
      omega
    · have heq := h.balanced
      have hcount := closings_cons hpos rest
      omega
  · rintro ⟨hfits, hpos, h⟩
    refine ⟨?_, ?_, ?_⟩
    · intro front v back heq
      rcases List.cons_eq_append_iff.mp heq with ⟨rfl, hback⟩ | ⟨front, rfl, rfl⟩
      · cases hback
        exact hfits
      · exact h.fits front v back rfl
    · intro front back heq
      rcases List.cons_eq_append_iff.mp heq with ⟨rfl, -⟩ | ⟨front, rfl, rfl⟩
      · simp [closings]
      · have hle := h.closes front back rfl
        have hcount := closings_cons hpos front
        omega
    · have heq := h.balanced
      have hcount := closings_cons hpos rest
      omega

/-- Every scope knows the built-in names. -/
theorem Scope.exists_lookup (scope : Scope) {name : String}
    (h : (Builtin.find? name).isSome = true) : ∃ entry, scope.lookup name = some entry := by
  rw [← Option.isSome_iff_exists, ← contains_eq_isSome_lookup, contains, h, Bool.or_true]

namespace Word

theorem leaves_prefixOp {lexeme : String} {entry : Entry}
    (hspelling : scope.lookup (String.ofList (Word.spelling ⟨.prefixOp, lexeme⟩)) = some entry) :
    Word.leaves scope last ⟨.prefixOp, lexeme⟩ = Scanner.classOf entry := by
  simp [leaves, Scanner.classOf, hspelling]

/-- A word that may follow fits, leaves the class, and is no parenthesis. -/
theorem Follows.fits (h : w.Follows scope last next) :
    w.Fits scope last ∧ next = w.leaves scope last ∧ w.kind ≠ .parenOpen ∧
      w.kind ≠ .parenClose := by
  cases h with
  | number hnumeral hlast =>
    exact ⟨⟨Lexeme.numeral?_eq_self_iff.mp hnumeral, hlast⟩, rfl, by simp, by simp⟩
  | infixOp hspelling hlast => exact ⟨⟨hspelling, hlast⟩, rfl, by simp, by simp⟩
  | @name lexeme entry hname hminus hentry =>
    have hspelling : Word.spelling ⟨.prefixOp, lexeme⟩ = lexeme.toList :=
      Word.spelling_eq (P := fun cs => Lexeme.name? cs = some (cs, [])) (by decide) hname
    have hleaves : Word.leaves scope last ⟨.prefixOp, lexeme⟩ = Scanner.classOf entry :=
      leaves_prefixOp (by rwa [hspelling, String.ofList_toList])
    refine ⟨?_, hleaves.symm, by simp, by simp⟩
    rcases Lexeme.name?_eq_self_iff.mp hname with hbang | hsign | hidentifier
    · exact .inr (.inl (String.toList_inj.mp hbang))
    · exact absurd (String.toList_inj.mp hsign) hminus
    · exact .inr (.inr ⟨hidentifier, by simp [Scope.contains_eq_isSome_lookup, hentry]⟩)
  | minus hentry hlast =>
    exact ⟨.inl ⟨rfl, hlast⟩, (leaves_prefixOp hentry).symm, by simp, by simp⟩
  | separator hlast => exact ⟨⟨rfl, hlast⟩, rfl, by decide, by decide⟩

theorem follows_name {lexeme : String} {entry : Entry}
    (hname : lexeme.toList = ['!'] ∨ Lexeme.IsIdentifier lexeme.toList)
    (hentry : scope.lookup lexeme = some entry) :
    ∃ next, Word.Follows scope last ⟨.prefixOp, lexeme⟩ next := by
  have htaken : Lexeme.name? lexeme.toList = some (lexeme.toList, []) :=
    Lexeme.name?_eq_self_iff.mpr (hname.imp_right .inr)
  refine ⟨_, .name htaken ?_ hentry⟩
  rintro rfl
  rcases hname with hbang | hidentifier
  · exact absurd hbang (by decide)
  · exact hidentifier.ne_minus rfl

theorem Fits.exists_follows (h : w.Fits scope last) (hopen : w.kind ≠ .parenOpen)
    (hclose : w.kind ≠ .parenClose) : ∃ next, w.Follows scope last next := by
  rcases w with ⟨kind, lexeme⟩
  cases kind with
  | number => exact ⟨_, .number (Lexeme.numeral?_eq_self_iff.mpr h.1) h.2⟩
  | infixOp => exact ⟨_, .infixOp h.1 h.2⟩
  | prefixOp =>
    rcases h with ⟨hminus, hlast⟩ | hbang | ⟨hidentifier, hcontains⟩
    · have hlexeme : lexeme = "u-" := hminus
      subst hlexeme
      have hbuiltin : (Builtin.find? "-").isSome = true := by decide
      obtain ⟨entry, hentry⟩ := scope.exists_lookup hbuiltin
      exact ⟨_, .minus hentry hlast⟩
    · have hlexeme : lexeme = "!" := hbang
      subst hlexeme
      have hbuiltin : (Builtin.find? "!").isSome = true := by decide
      obtain ⟨entry, hentry⟩ := scope.exists_lookup hbuiltin
      exact follows_name (.inl rfl) hentry
    · rw [Scope.contains_eq_isSome_lookup] at hcontains
      obtain ⟨entry, hentry⟩ := Option.isSome_iff_exists.mp hcontains
      exact follows_name (.inr hidentifier) hentry
  | parenOpen => exact absurd rfl hopen
  | parenClose => exact absurd rfl hclose
  | separator =>
    have hlexeme : lexeme = "," := h.1
    subst hlexeme
    exact ⟨_, .separator h.2⟩

/-- Exactly the words that fit may follow, parentheses apart. -/
theorem follows_iff :
    w.Follows scope last next ↔ w.Fits scope last ∧ next = w.leaves scope last ∧
      w.kind ≠ .parenOpen ∧ w.kind ≠ .parenClose := by
  constructor
  · exact Follows.fits
  · rintro ⟨hfits, rfl, hopen, hclose⟩
    obtain ⟨next, hfollows⟩ := hfits.exists_follows hopen hclose
    rwa [hfollows.fits.2.1] at hfollows

theorem depthBehind_other (hopen : w.kind ≠ .parenOpen) (hclose : w.kind ≠ .parenClose)
    (depth : Nat) : w.depthBehind depth = depth := by
  unfold depthBehind
  split
  · contradiction
  · contradiction
  · rfl

end Word

/-- What a scope admits is what its words allow one step after another. -/
theorem admits_iff_disciplined :
    scope.Admits last depth words ↔ Disciplined scope last depth words := by
  constructor
  · intro h
    induction words generalizing last depth with
    | nil =>
      rw [admits_nil_iff.mp h]
      exact .nil last
    | cons w rest ih =>
      obtain ⟨hfits, hpos, hrest⟩ := admits_cons_iff.mp h
      by_cases hopen : w.kind = .parenOpen
      · rcases w with ⟨kind, lexeme⟩
        cases hopen
        have hlexeme : lexeme = "(" := hfits
        subst hlexeme
        exact .parenOpen (ih hrest)
      · by_cases hclose : w.kind = .parenClose
        · rcases w with ⟨kind, lexeme⟩
          cases hclose
          have hlexeme : lexeme = ")" := hfits
          subst hlexeme
          obtain ⟨outer, rfl⟩ := Nat.exists_eq_succ_of_ne_zero (hpos rfl)
          exact .parenClose (ih hrest)
        · rw [Word.depthBehind_other hopen hclose] at hrest
          exact .word (Word.follows_iff.mpr ⟨hfits, rfl, hopen, hclose⟩) (ih hrest)
  · intro h
    induction h with
    | nil last => exact admits_nil_iff.mpr rfl
    | word hfollows hrest ih =>
      obtain ⟨hfits, rfl, hopen, hclose⟩ := Word.follows_iff.mp hfollows
      refine admits_cons_iff.mpr ⟨hfits, fun hkind => absurd hkind hclose, ?_⟩
      rwa [Word.depthBehind_other hopen hclose]
    | parenOpen hrest ih => exact admits_cons_iff.mpr ⟨rfl, by simp [Word.parenOpen], ih⟩
    | parenClose hrest ih => exact admits_cons_iff.mpr ⟨rfl, by simp, ih⟩

end Words

/-- The other scope knows every name that this one does, and it stands for the same there. -/
def Scope.Within (scope more : Scope) : Prop :=
  ∀ name entry, scope.lookup name = some entry → more.lookup name = some entry

theorem Scope.Within.refl (scope : Scope) : scope.Within scope :=
  fun _ _ h => h

theorem Scope.Within.trans {scope more most : Scope} (h : scope.Within more)
    (hmost : more.Within most) : scope.Within most :=
  fun name entry hentry => hmost name entry (h name entry hentry)

/-- An unknown name can be added. -/
theorem Scope.within_insert {scope : Scope} {name : String} (h : scope.lookup name = none)
    (entry : Entry) : scope.Within (scope.insert name entry) := by
  intro other found hfound
  rw [lookup_insert, if_neg]
  · exact hfound
  · rintro rfl
    rw [h] at hfound
    cases hfound

namespace Scanner

variable {resolver : Option Resolver} {s next final : Scanner} {cs : List Char} {p : Piece}

/-- The words found so far. -/
def words (s : Scanner) : List Word :=
  s.tokens.toList.map Token.word

theorem words_behind (s : Scanner) (p : Piece) (kind : TokenKind) (lexeme : String) :
    (s.behind p kind lexeme).words = s.words ++ [⟨kind, lexeme⟩] := by
  simp [words, behind, emit, advance, Token.word]

/-- A name that stands for something becomes a word that may follow. -/
theorem follows_nameLexeme {last : Preceding} {scope : Scope} {entry : Entry}
    (hfits : p.Fits last) (hshape : p.shape = .name)
    (hentry : scope.lookup (String.ofList p.lexeme) = some entry) :
    Word.Follows scope last ⟨.prefixOp, nameLexeme (String.ofList p.lexeme)⟩ (classOf entry) := by
  simp only [Piece.Fits, hshape] at hfits
  by_cases hminus : p.lexeme = ['-']
  · have hlast : last ≠ .value := by
      rcases hfits with hbang | hidentifier | ⟨-, hlast⟩
      · rw [hminus] at hbang
        cases hbang
      · exact absurd hminus hidentifier.ne_minus
      · exact hlast
    rw [hminus] at hentry ⊢
    exact .minus hentry hlast
  · have hname : Lexeme.name? p.lexeme = some (p.lexeme, []) :=
      Lexeme.name?_eq_self_iff.mpr (hfits.imp_right fun h => .inr (h.resolve_right (hminus ·.1)))
    have hlexeme : String.ofList p.lexeme ≠ "-" := fun heq => hminus (String.ofList_injective heq)
    rw [nameLexeme, if_neg hlexeme]
    exact .name (by simpa using hname) hlexeme hentry

/-- A piece that is taken up adds no word or one that may come there, now and with more names
known. -/
theorem Takes.exists_words (hfits : p.Fits s.last) (h : Takes resolver s p next) :
    s.scope.Within next.scope ∧ ∃ added, next.words = s.words ++ added ∧
      ∀ scope, next.scope.Within scope → ∀ rest, Disciplined scope next.last next.depth rest →
        Disciplined scope s.last s.depth (added ++ rest) := by
  cases h with
  | blank hshape => exact ⟨.refl _, [], by simp [words, advance], fun _ _ _ hrest => hrest⟩
  | known hshape hentry =>
    refine ⟨.refl _, _, words_behind s p _ _, fun scope hscope rest hrest => ?_⟩
    exact .word (follows_nameLexeme hfits hshape (hscope _ _ hentry)) hrest
  | learned hshape hunknown hresolver hentry =>
    refine ⟨Scope.within_insert hunknown _, _, words_behind s p _ _,
      fun scope hscope rest hrest => ?_⟩
    refine .word (follows_nameLexeme hfits hshape (hscope _ _ ?_)) hrest
    rw [Scope.lookup_insert, if_pos rfl]
  | parenOpen hshape =>
    refine ⟨.refl _, _, words_behind s p _ _, fun scope _ rest hrest => ?_⟩
    rw [show p.lexeme = ['('] by rwa [Piece.Fits, hshape] at hfits]
    exact .parenOpen hrest
  | parenClose hshape hdepth =>
    refine ⟨.refl _, _, words_behind s p _ _, fun scope _ rest hrest => ?_⟩
    obtain ⟨outer, houter⟩ := Nat.exists_eq_succ_of_ne_zero hdepth
    rw [show p.lexeme = [')'] by rwa [Piece.Fits, hshape] at hfits]
    rw [houter] at hrest ⊢
    exact .parenClose hrest
  | separator hshape =>
    rw [Piece.Fits, hshape] at hfits
    refine ⟨.refl _, _, words_behind s p _ _, fun scope _ rest hrest => ?_⟩
    rw [hfits.1]
    exact .word (.separator hfits.2) hrest
  | infixOp hshape =>
    rw [Piece.Fits, hshape] at hfits
    refine ⟨.refl _, _, words_behind s p _ _, fun scope _ rest hrest => ?_⟩
    exact .word (.infixOp (by simpa using hfits.1) hfits.2) hrest
  | number hshape =>
    rw [Piece.Fits, hshape] at hfits
    have hnumeral := Lexeme.numeral?_eq_self_iff.mpr hfits.1
    refine ⟨.refl _, _, words_behind s p _ _, fun scope _ rest hrest => ?_⟩
    exact .word (.number (by simpa using hnumeral) hfits.2) hrest

/-- The words that a scan adds may follow one another with all names known that it knows in the
end. -/
theorem Scans.exists_disciplined (h : Scans resolver s cs final) (hdepth : final.depth = 0) :
    s.scope.Within final.scope ∧ ∃ added, final.words = s.words ++ added ∧
      Disciplined final.scope s.last s.depth added := by
  induction h with
  | nil s =>
    refine ⟨.refl _, [], by simp, ?_⟩
    rw [hdepth]
    exact .nil _
  | cons hpiece htakes hrest ih =>
    obtain ⟨hwithin, more, hmore, hdisciplined⟩ := ih hdepth
    obtain ⟨hnext, added, hadded, hstep⟩ := htakes.exists_words (Piece.fits_of_next? hpiece)
    refine ⟨hnext.trans hwithin, added ++ more, ?_, hstep _ hwithin _ hdisciplined⟩
    rw [hmore, hadded, List.append_assoc]

/-- Without a resolver no name is learned. -/
theorem Scans.scope_eq (h : Scans none s cs final) : final.scope = s.scope := by
  refine h.invariant (P := fun t _ => t.scope = s.scope) ?_ rfl
  intro t rest p next hscope hpiece htakes
  cases htakes
  case learned hresolver hentry => cases hresolver
  all_goals exact hscope

end Scanner

/-- The words that a scan finds may follow one another, with all names known that it knows in the
end. Those are the names of its scope where there is no resolver. -/
theorem disciplined_of_scan {text : String} {scope : Scope} {resolver : Option Resolver}
    {tokens : List Token} (h : (scan text scope resolver).outcome = .ok tokens) :
    Disciplined (scan text scope resolver).scope .separator 0 (tokens.map Token.word) ∧
      (resolver = none → (scan text scope resolver).scope = scope) := by
  obtain ⟨final, hscans, hdepth, hscope, rfl⟩ := Scanner.exists_scans h
  obtain ⟨-, added, hadded, hdisciplined⟩ := hscans.exists_disciplined hdepth
  have hwords : final.tokens.toList.map Token.word = added := hadded
  rw [hscope, hwords]
  refine ⟨hdisciplined, ?_⟩
  rintro rfl
  exact hscans.scope_eq

/-- The words written out, with single blanks between them. -/
def joined (words : List Word) : String :=
  " ".intercalate (words.map fun w => String.ofList w.spelling)

theorem toList_joined (words : List Word) :
    (joined words).toList = [' '].intercalate (words.map Word.spelling) := by
  rw [joined, String.toList_intercalate, List.map_map]
  simp [Function.comp_def]

/-- One more blank in front. -/
theorem Laid.blank {words : List Word} {cs : List Char} (h : Laid words cs) :
    Laid words (' ' :: cs) := by
  have hblank : Text.isBlank ' ' = true := by decide
  cases h with
  | nil hgap => exact .nil (List.forall_mem_cons.mpr ⟨hblank, hgap⟩)
  | cons hgap hends hrest =>
    rw [← List.cons_append]
    exact .cons (List.forall_mem_cons.mpr ⟨hblank, hgap⟩) hends hrest

theorem laid_joined (words : List Word) : Laid words (joined words).toList := by
  rw [toList_joined]
  induction words with
  | nil => exact .nil (by simp)
  | cons w rest ih =>
    cases rest with
    | nil =>
      have hend : Laid [] [] := .nil (by simp)
      simpa using @Laid.cons [] [] w [] (by simp) (.inr (by simp [Boundary])) hend
    | cons v rest =>
      have hdelimiter : isDelimiter ' ' = true := by decide
      rw [List.map_cons, List.map_cons, List.intercalate_cons_cons, List.append_assoc]
      exact @Laid.cons [] _ w _ (by simp) (.inr (by simp [Boundary, hdelimiter])) ih.blank

theorem Word.isSmall_spelling {w : Word} (h : Lexeme.IsSmall w.lexeme.toList) :
    Lexeme.IsSmall w.spelling := by
  unfold Word.spelling
  split
  · simp [Lexeme.IsSmall]
  · exact h

/-- No word that may follow holds a capital. -/
theorem Word.Follows.isSmall {scope : Scope} {last next : Preceding} {w : Word}
    (h : w.Follows scope last next) : Lexeme.IsSmall w.lexeme.toList := by
  cases h with
  | number hnumeral hlast => exact (Lexeme.numeral?_eq_self_iff.mp hnumeral).isSmall
  | infixOp hspelling hlast =>
    have hcodes : ∀ cs ∈ Lexeme.infixSpellings,
        cs.all (fun c => c.toNat < 65 || 90 < c.toNat) = true := by decide
    intro c hc
    have hcode := List.all_eq_true.mp (hcodes _ hspelling) c hc
    exact Lexeme.toLower_eq_self (by simpa using hcode)
  | name hname hminus hentry =>
    rcases Lexeme.name?_eq_self_iff.mp hname with hbang | hsign | hidentifier
    · simp [Lexeme.IsSmall, hbang]
    · simp [Lexeme.IsSmall, hsign]
    · exact hidentifier.isSmall
  | minus hentry hlast => simp [Lexeme.IsSmall]
  | separator hlast => simp [Lexeme.IsSmall, Word.separator]

/-- Each of the words may follow some class, or is a parenthesis. -/
theorem Disciplined.cases_of_mem {scope : Scope} {last : Preceding} {depth : Nat}
    {words : List Word} (h : Disciplined scope last depth words) {w : Word} (hw : w ∈ words) :
    (∃ last next, w.Follows scope last next) ∨ w = .parenOpen ∨ w = .parenClose := by
  induction h with
  | nil => cases hw
  | word hfollows hrest ih =>
    rcases List.mem_cons.mp hw with rfl | hw
    · exact .inl ⟨_, _, hfollows⟩
    · exact ih hw
  | parenOpen hrest ih =>
    rcases List.mem_cons.mp hw with rfl | hw
    · exact .inr (.inl rfl)
    · exact ih hw
  | parenClose hrest ih =>
    rcases List.mem_cons.mp hw with rfl | hw
    · exact .inr (.inr rfl)
    · exact ih hw

theorem Disciplined.isSmall {scope : Scope} {last : Preceding} {depth : Nat} {words : List Word}
    (h : Disciplined scope last depth words) : ∀ w ∈ words, Lexeme.IsSmall w.spelling := by
  intro w hw
  apply Word.isSmall_spelling
  rcases h.cases_of_mem hw with ⟨last, next, hfollows⟩ | rfl | rfl
  · exact hfollows.isSmall
  · simp [Lexeme.IsSmall, Word.parenOpen]
  · simp [Lexeme.IsSmall, Word.parenClose]

theorem isSmall_joined {words : List Word} (h : ∀ w ∈ words, Lexeme.IsSmall w.spelling) :
    Lexeme.IsSmall (joined words).toList := by
  rw [toList_joined]
  induction words with
  | nil => simp [Lexeme.IsSmall]
  | cons w rest ih =>
    obtain ⟨hw, hrest⟩ := List.forall_mem_cons.mp h
    cases rest with
    | nil => simpa using hw
    | cons v rest =>
      have hblank : Lexeme.IsSmall [' '] := by simp [Lexeme.IsSmall]
      rw [List.map_cons, List.map_cons, List.intercalate_cons_cons]
      exact Lexeme.isSmall_append (Lexeme.isSmall_append hw hblank) (ih hrest)

/-- Words written out are not changed by folding. -/
theorem Disciplined.foldCase_joined {scope : Scope} {last : Preceding} {depth : Nat}
    {words : List Word} (h : Disciplined scope last depth words) :
    Text.foldCase (joined words) = joined words := by
  apply String.toList_injective
  rw [Text.toList_foldCase]
  exact (List.map_congr_left (isSmall_joined h.isSmall)).trans (List.map_id _)

/-- Without a resolver, a scan finds only words that the scope admits, and all words that it admits
are found where they are written out with single blanks between them. -/
theorem admits_scan_and_scan_joined (scope : Scope) :
    (∀ text tokens, (scan text scope none).outcome = .ok tokens →
      scope.Admits .separator 0 (tokens.map Token.word)) ∧
    ∀ words, scope.Admits .separator 0 words →
      ∃ tokens, (scan (joined words) scope none).outcome = .ok tokens ∧
        tokens.map Token.word = words := by
  constructor
  · intro text tokens h
    obtain ⟨hdisciplined, hscope⟩ := disciplined_of_scan h
    rw [hscope rfl] at hdisciplined
    exact admits_iff_disciplined.mpr hdisciplined
  · intro words h
    have hdisciplined := admits_iff_disciplined.mp h
    have hlaid := laid_joined words
    rw [← hdisciplined.foldCase_joined] at hlaid
    obtain ⟨tokens, hscan, hwords, -⟩ := exists_scan_of_laid hdisciplined hlaid none
    exact ⟨tokens, by rw [hscan], hwords⟩

/-- Three kinds of minus, and a negation beside an operator that begins like it. -/
theorem admits_three_minus :
    ∃ tokens again,
      (scan "2-(-X!=-.5)!x" (.ofFunctions [("x", .constant 0 3)]) none).outcome = .ok tokens ∧
      (Scope.ofFunctions [("x", .constant 0 3)]).Admits .separator 0 (tokens.map Token.word) ∧
      joined (tokens.map Token.word) = "2 - ( - x != -.5 ) ! x" ∧
      (scan "2 - ( - x != -.5 ) ! x" (.ofFunctions [("x", .constant 0 3)]) none).outcome =
        .ok again ∧
      again.map Token.word = tokens.map Token.word := by
  obtain ⟨tokens, htokens⟩ : ∃ tokens : List Token, tokens =
      [⟨.number, "2", 0⟩, ⟨.infixOp, "-", 1⟩, ⟨.parenOpen, "(", 2⟩, ⟨.prefixOp, "u-", 3⟩,
        ⟨.prefixOp, "x", 4⟩, ⟨.infixOp, "!=", 5⟩, ⟨.number, "-.5", 7⟩, ⟨.parenClose, ")", 10⟩,
        ⟨.prefixOp, "!", 11⟩, ⟨.prefixOp, "x", 12⟩] := ⟨_, rfl⟩
  have hscan : (scan "2-(-X!=-.5)!x" (.ofFunctions [("x", .constant 0 3)]) none).outcome =
      .ok tokens := by
    rw [htokens]
    decide +kernel
  have hjoined : joined (tokens.map Token.word) = "2 - ( - x != -.5 ) ! x" := by
    rw [htokens]
    decide +kernel
  have hadmits := (admits_scan_and_scan_joined _).1 _ _ hscan
  obtain ⟨again, hagain, hwords⟩ := (admits_scan_and_scan_joined _).2 _ hadmits
  rw [hjoined] at hagain
  exact ⟨tokens, again, hscan, hadmits, hjoined, hagain, hwords⟩

end Formula
