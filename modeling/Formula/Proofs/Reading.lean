import Formula.Proofs.Compiled

/-!
# Reading by stretches

The yard takes up one token after another. Its programs can be told by whole stretches of text too:
an operator reaches to the first token behind it that sends it on, and in the program it comes right
behind what is in its reach; what is in a parenthesis is read for itself. Every text whose
parentheses close has a reading, and the yard comes to the same program.
-/

namespace Formula

namespace Token

/-- Whether the token sends on an operator of the given rank that waits in the same parenthesis. -/
def releases (t : Token) (rank : Nat) : Bool :=
  t.kind = .parenClose || t.kind = .separator || t.precedence?.any (·.yields rank)

/-- How many parentheses are open behind a token. -/
def depthBehind (t : Token) (depth : Nat) : Nat :=
  match t.kind with
  | .parenOpen => depth + 1
  | .parenClose => depth - 1
  | _ => depth

/-- The yard can make something of the token. -/
def Readable (scope : Scope) (t : Token) : Prop :=
  (t.kind = .number → ∃ value, Decimal.readNumeral? t.lexeme = some value) ∧
    (t.kind = .infixOp ∨ t.kind = .prefixOp →
      ∃ precedence entry, t.precedence? = some precedence ∧ scope.lookup t.lexeme = some entry)

end Token

/-- All parentheses close, also those that are open so far, and none closes that is not open. -/
def Closes : Nat → List Token → Prop
  | depth, [] => depth = 0
  | depth, t :: rest => (t.kind = .parenClose → depth ≠ 0) ∧ Closes (t.depthBehind depth) rest

/-- The tokens in reach of an operator of the given rank: those up to the first, outside of the
parentheses that open behind it, that sends it on. -/
def reach (rank : Nat) : Nat → List Token → List Token
  | _, [] => []
  | depth, t :: rest =>
    if depth = 0 ∧ t.releases rank then [] else t :: reach rank (t.depthBehind depth) rest

/-- Nothing outside of parentheses sends on an operator of the given rank. -/
def Clear (rank : Nat) (tokens : List Token) : Prop :=
  reach rank 0 tokens = tokens

/-- The first of the tokens, if there is one, sends on an operator of the given rank. -/
def Stops (rank : Nat) (tokens : List Token) : Prop :=
  ∀ t rest, tokens = t :: rest → t.releases rank = true

/-- A text inside a parenthesis and the program that it is read into. -/
inductive Reading (scope : Scope) : List Token → Program → Prop where
  | nil : Reading scope [] []
  | number {t : Token} {rest : List Token} {value : Float} {p : Program} (hkind : t.kind = .number)
      (hvalue : Decimal.readNumeral? t.lexeme = some value) (hrest : Reading scope rest p) :
      Reading scope (t :: rest) (.number value :: p)
  | operator {t : Token} {within back : List Token} {precedence : Precedence} {entry : Entry}
      {q p : Program} (hprecedence : t.precedence? = some precedence)
      (hentry : scope.lookup t.lexeme = some entry) (hclear : Clear precedence.rank within)
      (hstops : Stops precedence.rank back) (hwithin : Reading scope within q)
      (hback : Reading scope back p) :
      Reading scope (t :: (within ++ back)) (q ++ .operator ⟨t.lexeme, entry⟩ :: p)
  | group {opening closing : Token} {inner rest : List Token} {q p : Program}
      (hopening : opening.kind = .parenOpen) (hclosing : closing.kind = .parenClose)
      (hinner : Reading scope inner q) (hrest : Reading scope rest p) :
      Reading scope (opening :: (inner ++ closing :: rest)) (q ++ p)
  | separator {t : Token} {rest : List Token} {p : Program} (hkind : t.kind = .separator)
      (hrest : Reading scope rest p) : Reading scope (t :: rest) p

namespace Precedence

/-- What gives way to an arriving operator does so at a higher rank too. -/
theorem yields_mono {p : Precedence} {low high : Nat} (h : p.yields low = true)
    (hle : low ≤ high) : p.yields high = true := by
  unfold yields at h ⊢
  by_cases hleft : p.leftAssociative = true
  · simp only [hleft, if_true, decide_eq_true_eq] at h ⊢
    omega
  · simp only [if_neg hleft, decide_eq_true_eq] at h ⊢
    omega

/-- What does not give way to an arriving operator ranks no higher. -/
theorem le_rank_of_yields_eq_false {p : Precedence} {rank : Nat} (h : p.yields rank = false) :
    rank ≤ p.rank := by
  unfold yields at h
  split at h <;> simp only [decide_eq_false_iff_not] at h <;> omega

/-- No operator gives way at rank zero. -/
theorem yields_zero {t : Token} {p : Precedence} (h : t.precedence? = some p) :
    p.yields 0 = false := by
  unfold Token.precedence? at h
  split at h
  · have hpos := (ofInfix?_eq_some_iff.mp h).rank_pos
    simp [yields, Nat.not_le.mpr hpos]
  · cases h
    rfl
  · cases h

end Precedence

namespace Token

variable {t : Token}

theorem releases_of_precedence? {p : Precedence} (h : t.precedence? = some p) (rank : Nat) :
    t.releases rank = p.yields rank := by
  have hkind : t.kind ≠ .parenClose ∧ t.kind ≠ .separator := by
    unfold precedence? at h
    split at h <;> simp_all
  simp [releases, hkind, h]

theorem releases_number (hkind : t.kind = .number) (rank : Nat) : t.releases rank = false := by
  simp [releases, precedence?, hkind]

theorem releases_parenOpen (hkind : t.kind = .parenOpen) (rank : Nat) :
    t.releases rank = false := by
  simp [releases, precedence?, hkind]

theorem releases_parenClose (hkind : t.kind = .parenClose) (rank : Nat) :
    t.releases rank = true := by
  simp [releases, hkind]

theorem releases_separator (hkind : t.kind = .separator) (rank : Nat) :
    t.releases rank = true := by
  simp [releases, hkind]

theorem releases_mono {low high : Nat} (h : t.releases low = true) (hle : low ≤ high) :
    t.releases high = true := by
  cases hprecedence : t.precedence? with
  | none =>
    rw [releases, hprecedence] at h ⊢
    exact h
  | some p =>
    rw [releases_of_precedence? hprecedence] at h ⊢
    exact p.yields_mono h hle

theorem depthBehind_parenOpen (hkind : t.kind = .parenOpen) (depth : Nat) :
    t.depthBehind depth = depth + 1 := by
  simp [depthBehind, hkind]

theorem depthBehind_parenClose (hkind : t.kind = .parenClose) (depth : Nat) :
    t.depthBehind depth = depth - 1 := by
  simp [depthBehind, hkind]

theorem depthBehind_other (hopen : t.kind ≠ .parenOpen) (hclose : t.kind ≠ .parenClose)
    (depth : Nat) : t.depthBehind depth = depth := by
  unfold depthBehind
  split <;> simp_all

/-- Parentheses that were open before make no difference. -/
theorem depthBehind_add {depth outer : Nat} (hpos : t.kind = .parenClose → depth ≠ 0) :
    t.depthBehind (depth + outer) = t.depthBehind depth + outer := by
  by_cases hopen : t.kind = .parenOpen
  · rw [depthBehind_parenOpen hopen, depthBehind_parenOpen hopen]
    omega
  · by_cases hclose : t.kind = .parenClose
    · have hdepth := hpos hclose
      rw [depthBehind_parenClose hclose, depthBehind_parenClose hclose]
      omega
    · rw [depthBehind_other hopen hclose, depthBehind_other hopen hclose]

theorem depthBehind_of_precedence? {p : Precedence} (h : t.precedence? = some p) (depth : Nat) :
    t.depthBehind depth = depth := by
  unfold precedence? at h
  split at h <;> simp_all [depthBehind]

end Token

section Stretches

variable {rank depth : Nat} {t : Token} {tokens within inner back : List Token}

/-- What closes the inner parentheses, and then the outer ones, closes all. -/
theorem Closes.append {outer : Nat} (h : Closes depth tokens) (hback : Closes outer back) :
    Closes (depth + outer) (tokens ++ back) := by
  induction tokens generalizing depth with
  | nil =>
    rw [show depth = 0 from h, Nat.zero_add]
    exact hback
  | cons t rest ih =>
    refine ⟨fun hclose => by have := h.1 hclose; omega, ?_⟩
    rw [t.depthBehind_add h.1]
    exact ih h.2

/-- As many parentheses are open as the tokens close. -/
theorem Closes.depth_eq {other : Nat} (h : Closes depth tokens) (hother : Closes other tokens) :
    depth = other := by
  induction tokens generalizing depth other with
  | nil => exact h.trans hother.symm
  | cons t rest ih =>
    have hrest := ih h.2 hother.2
    by_cases hopen : t.kind = .parenOpen
    · rw [t.depthBehind_parenOpen hopen, t.depthBehind_parenOpen hopen] at hrest
      omega
    · by_cases hclose : t.kind = .parenClose
      · have hpos := h.1 hclose
        have hpos' := hother.1 hclose
        rw [t.depthBehind_parenClose hclose, t.depthBehind_parenClose hclose] at hrest
        omega
      · rwa [t.depthBehind_other hopen hclose, t.depthBehind_other hopen hclose] at hrest

/-- What closes all parentheses goes up to the end of the innermost one first. -/
theorem Closes.exists_close (h : Closes (depth + 1) tokens) :
    ∃ inner closing rest, tokens = inner ++ closing :: rest ∧ closing.kind = .parenClose ∧
      Closes 0 inner ∧ Closes depth rest := by
  suffices hinside : ∀ inside, Closes (inside + depth + 1) tokens →
      ∃ inner closing rest, tokens = inner ++ closing :: rest ∧ closing.kind = .parenClose ∧
        Closes inside inner ∧ Closes depth rest from
    hinside 0 (by rwa [Nat.zero_add])
  clear h
  induction tokens with
  | nil => exact fun inside h => absurd h (Nat.succ_ne_zero _)
  | cons t rest ih =>
    intro inside h
    by_cases hend : t.kind = .parenClose ∧ inside = 0
    · refine ⟨[], t, rest, rfl, hend.1, hend.2, ?_⟩
      have hrest := h.2
      rwa [hend.2, t.depthBehind_parenClose hend.1, Nat.zero_add, Nat.add_sub_cancel] at hrest
    · have hpos : t.kind = .parenClose → inside ≠ 0 := fun hclose hzero => hend ⟨hclose, hzero⟩
      have hrest := h.2
      rw [Nat.add_assoc, t.depthBehind_add hpos, ← Nat.add_assoc] at hrest
      obtain ⟨inner, closing, more, rfl, hclosing, hinner, hmore⟩ := ih _ hrest
      exact ⟨t :: inner, closing, more, rfl, hclosing, ⟨hpos, hinner⟩, hmore⟩

/-- The tokens in reach close the parentheses that they open, and what is behind them stops the
reach. -/
theorem Closes.exists_reach (rank : Nat) (h : Closes depth tokens) :
    ∃ back, tokens = reach rank depth tokens ++ back ∧ Closes depth (reach rank depth tokens) ∧
      Closes 0 back ∧ reach rank depth (reach rank depth tokens) = reach rank depth tokens ∧
      Stops rank back := by
  induction tokens generalizing depth with
  | nil =>
    have hdepth : depth = 0 := h
    exact ⟨[], rfl, hdepth, rfl, rfl, by simp [Stops]⟩
  | cons t rest ih =>
    by_cases hstop : depth = 0 ∧ t.releases rank = true
    · rw [reach, if_pos hstop]
      rw [hstop.1] at h
      exact ⟨t :: rest, rfl, hstop.1, h, rfl, by simp [Stops, hstop.2]⟩
    · obtain ⟨back, hsplit, hwithin, hback, hclear, hstops⟩ := ih h.2
      rw [reach, if_neg hstop]
      refine ⟨back, by rw [List.cons_append, ← hsplit], ⟨h.1, hwithin⟩, hback, ?_, hstops⟩
      rw [reach, if_neg hstop, hclear]

/-- What is behind the tokens in reach does not come into it. -/
theorem Closes.reach_append {closed : Nat} (h : Closes closed tokens) (hle : depth ≤ closed)
    (hstops : depth = closed → Stops rank back) :
    reach rank depth (tokens ++ back) = reach rank depth tokens := by
  induction tokens generalizing depth closed with
  | nil =>
    have hclosed : closed = 0 := h
    cases back with
    | nil => rfl
    | cons v rest =>
      have hv := hstops (by omega) v rest rfl
      have hnil : reach rank depth [] = [] := rfl
      rw [List.nil_append, hnil, reach, if_pos ⟨by omega, hv⟩]
  | cons t rest ih =>
    rw [List.cons_append, reach, reach]
    by_cases hstop : depth = 0 ∧ t.releases rank = true
    · rw [if_pos hstop, if_pos hstop]
    · rw [if_neg hstop, if_neg hstop]
      refine congrArg (t :: ·) (ih h.2 ?_ fun hdepth => hstops ?_)
      · unfold Token.depthBehind
        split <;> omega
      · by_cases hopen : t.kind = .parenOpen
        · rw [t.depthBehind_parenOpen hopen, t.depthBehind_parenOpen hopen] at hdepth
          omega
        · by_cases hclose : t.kind = .parenClose
          · have hpos := h.1 hclose
            have hzero : depth ≠ 0 := fun hzero => hstop ⟨hzero, t.releases_parenClose hclose _⟩
            rw [t.depthBehind_parenClose hclose, t.depthBehind_parenClose hclose] at hdepth
            omega
          · rwa [t.depthBehind_other hopen hclose, t.depthBehind_other hopen hclose] at hdepth

/-- What is inside of a parenthesis stops no reach that began outside. -/
theorem Closes.reach_inside {inside : Nat} (h : Closes inside inner) (rank depth : Nat)
    (back : List Token) :
    reach rank (inside + depth + 1) (inner ++ back) = inner ++ reach rank (depth + 1) back := by
  induction inner generalizing inside with
  | nil => rw [show inside = 0 from h, Nat.zero_add, List.nil_append, List.nil_append]
  | cons t rest ih =>
    rw [List.cons_append, reach, if_neg (by omega), Nat.add_assoc, t.depthBehind_add h.1,
      ← Nat.add_assoc, ih h.2, List.cons_append]

theorem clear_nil (rank : Nat) : Clear rank [] := rfl

theorem clear_cons_iff (hopen : t.kind ≠ .parenOpen) (hclose : t.kind ≠ .parenClose) :
    Clear rank (t :: tokens) ↔ t.releases rank = false ∧ Clear rank tokens := by
  rw [Clear, reach, t.depthBehind_other hopen hclose]
  by_cases hreleases : t.releases rank = true
  · simp [hreleases]
  · simp [hreleases, Clear]

theorem clear_group_iff {opening closing : Token} (hopening : opening.kind = .parenOpen)
    (hclosing : closing.kind = .parenClose) (hinner : Closes 0 inner) :
    Clear rank (opening :: (inner ++ closing :: back)) ↔ Clear rank back := by
  have hinside := hinner.reach_inside rank 0 (closing :: back)
  rw [Nat.zero_add] at hinside
  rw [Clear, reach, opening.releases_parenOpen hopening, opening.depthBehind_parenOpen hopening,
    if_neg (by simp), hinside, reach, if_neg (by omega), closing.depthBehind_parenClose hclosing]
  simp [Clear]

/-- A reach goes on behind tokens that do not stop it. -/
theorem clear_append_iff (h : Closes 0 tokens) :
    Clear rank (tokens ++ back) ↔ Clear rank tokens ∧ Clear rank back := by
  suffices hdepth : ∀ depth, Closes depth tokens →
      (reach rank depth (tokens ++ back) = tokens ++ back ↔
        reach rank depth tokens = tokens ∧ reach rank 0 back = back) from hdepth 0 h
  clear h
  induction tokens with
  | nil =>
    intro depth h
    rw [show depth = 0 from h]
    simp [reach]
  | cons t rest ih =>
    intro depth h
    rw [List.cons_append, reach, reach]
    by_cases hstop : depth = 0 ∧ t.releases rank = true
    · simp [hstop]
    · simp [if_neg hstop, ih _ h.2]

/-- What stops the reach of no operator of some rank stops none of a lower rank. -/
theorem Clear.mono {low : Nat} (h : Clear rank tokens) (hle : low ≤ rank) : Clear low tokens := by
  suffices hdepth : ∀ depth, reach rank depth tokens = tokens → reach low depth tokens = tokens from
    hdepth 0 h
  clear h
  induction tokens with
  | nil => exact fun depth _ => rfl
  | cons t rest ih =>
    intro depth h
    rw [reach] at h ⊢
    by_cases hstop : depth = 0 ∧ t.releases rank = true
    · simp [hstop] at h
    · rw [if_neg hstop] at h
      rw [if_neg fun hlow => hstop ⟨hlow.1, Token.releases_mono hlow.2 hle⟩,
        ih _ (List.cons.inj h).2]

end Stretches

namespace Reading

variable {scope : Scope} {tokens : List Token} {p : Program}

theorem closes (h : Reading scope tokens p) : Closes 0 tokens := by
  induction h with
  | nil => rfl
  | number hkind hvalue hrest ih =>
    refine ⟨by simp [hkind], ?_⟩
    rwa [Token.depthBehind_other (by simp [hkind]) (by simp [hkind])]
  | operator hprecedence hentry hclear hstops hwithin hback ihwithin ihback =>
    refine ⟨fun hclose => ?_, ?_⟩
    · rw [Token.precedence?, hclose] at hprecedence
      cases hprecedence
    · rw [Token.depthBehind_of_precedence? hprecedence]
      exact ihwithin.append ihback
  | group hopening hclosing hinner hrest ihinner ihrest =>
    refine ⟨by simp [hopening], ?_⟩
    rw [Token.depthBehind_parenOpen hopening, Nat.add_comm]
    have hbehind : Closes 1 (_ :: _) :=
      ⟨by simp, by rwa [Token.depthBehind_parenClose hclosing]⟩
    exact ihinner.append hbehind
  | separator hkind hrest ih =>
    refine ⟨by simp [hkind], ?_⟩
    rwa [Token.depthBehind_other (by simp [hkind]) (by simp [hkind])]

/-- A program is made of the instructions of the text. -/
theorem perm (h : Reading scope tokens p) :
    p.Perm (tokens.filterMap (Token.instruction? scope)) := by
  induction h with
  | nil => simp
  | number hkind hvalue hrest ih =>
    rw [List.filterMap_cons_some (Token.instruction?_number hkind hvalue)]
    exact ih.cons _
  | operator hprecedence hentry hclear hstops hwithin hback ihwithin ihback =>
    rw [List.filterMap_cons_some (Token.instruction?_operator hprecedence hentry),
      List.filterMap_append]
    exact List.perm_middle.trans ((ihwithin.append ihback).cons _)
  | group hopening hclosing hinner hrest ihinner ihrest =>
    rw [List.filterMap_cons_none (Token.instruction?_parenOpen hopening), List.filterMap_append,
      List.filterMap_cons_none (Token.instruction?_parenClose hclosing)]
    exact ihinner.append ihrest
  | separator hkind hrest ih => rwa [List.filterMap_cons_none (Token.instruction?_separator hkind)]

/-- Every text whose parentheses close and whose tokens are readable has a reading. -/
theorem exists_of_closes (hcloses : Closes 0 tokens) (hreadable : ∀ t ∈ tokens, t.Readable scope) :
    ∃ p, Reading scope tokens p := by
  induction hlength : tokens.length using Nat.strongRecOn generalizing tokens with
  | _ n ih =>
    subst hlength
    cases tokens with
    | nil => exact ⟨[], .nil⟩
    | cons t rest =>
      have hrest := hcloses.2
      have hother : t.kind ≠ .parenOpen → t.kind ≠ .parenClose → Closes 0 rest := by
        intro hopen hclose
        rwa [t.depthBehind_other hopen hclose] at hrest
      have htail : Closes 0 rest → ∃ p, Reading scope rest p := fun hrest =>
        ih rest.length (Nat.lt_succ_self _) hrest (fun u hu => hreadable u (by simp [hu])) rfl
      have hoperator : t.kind = .infixOp ∨ t.kind = .prefixOp →
          ∃ p, Reading scope (t :: rest) p := by
        intro hkind
        obtain ⟨precedence, entry, hprecedence, hentry⟩ := (hreadable t (by simp)).2 hkind
        rw [t.depthBehind_of_precedence? hprecedence] at hrest
        obtain ⟨back, hsplit, hwithin, hback, hclear, hstops⟩ :=
          hrest.exists_reach precedence.rank
        generalize reach precedence.rank 0 rest = within at hsplit hwithin hclear
        subst hsplit
        have hlength : (t :: (within ++ back)).length = within.length + back.length + 1 := by
          rw [List.length_cons, List.length_append]
        obtain ⟨q, hq⟩ := ih within.length (by omega) hwithin
          (fun u hu => hreadable u (by simp [hu])) rfl
        obtain ⟨p, hp⟩ := ih back.length (by omega) hback
          (fun u hu => hreadable u (by simp [hu])) rfl
        exact ⟨_, .operator hprecedence hentry hclear hstops hq hp⟩
      cases hkind : t.kind with
      | number =>
        obtain ⟨value, hvalue⟩ := (hreadable t (by simp)).1 hkind
        obtain ⟨p, hp⟩ := htail (hother (by simp [hkind]) (by simp [hkind]))
        exact ⟨_, .number hkind hvalue hp⟩
      | infixOp => exact hoperator (.inl hkind)
      | prefixOp => exact hoperator (.inr hkind)
      | parenOpen =>
        rw [t.depthBehind_parenOpen hkind] at hrest
        obtain ⟨inner, closing, more, rfl, hclosing, hinner, hmore⟩ := hrest.exists_close
        have hlength : (t :: (inner ++ closing :: more)).length =
            inner.length + more.length + 2 := by
          simp only [List.length_cons, List.length_append]
          omega
        obtain ⟨q, hq⟩ := ih inner.length (by omega) hinner
          (fun u hu => hreadable u (by simp [hu])) rfl
        obtain ⟨p, hp⟩ := ih more.length (by omega) hmore
          (fun u hu => hreadable u (by simp [hu])) rfl
        exact ⟨_, .group hkind hclosing hq hp⟩
      | parenClose => exact absurd rfl (hcloses.1 hkind)
      | separator =>
        obtain ⟨p, hp⟩ := htail (hother (by simp [hkind]) (by simp [hkind]))
        exact ⟨_, .separator hkind hp⟩

end Reading

namespace Yard

open Pending

variable {scope : Scope}

/-- What waits on top is sent on by nothing in the text that comes. -/
def Shields (stack : List Pending) (tokens : List Token) : Prop :=
  match stack with
  | [] => Clear 0 tokens
  | .parenOpen :: _ => True
  | .operator _ rank :: _ => Clear rank tokens

theorem Shields.mono {stack : List Pending} {tokens more : List Token}
    (h : Shields stack tokens) (hclear : ∀ rank, Clear rank tokens → Clear rank more) :
    Shields stack more := by
  unfold Shields at h ⊢
  split
  · exact hclear 0 h
  · trivial
  · exact hclear _ h

/-- An operator that sends on nothing waits on top. -/
theorem Reads.of_holds {y : Yard} {t : Token} {precedence : Precedence} {entry : Entry}
    (hprecedence : t.precedence? = some precedence) (hentry : scope.lookup t.lexeme = some entry)
    (hholds : Holds precedence.yields y.stack) :
    Reads scope y t ⟨.operator ⟨t.lexeme, entry⟩ precedence.rank :: y.stack, y.output⟩ := by
  have hbefore : y.stack = ofOperators [] ++ y.stack := rfl
  exact .operator hprecedence hentry hbefore (by simp) hholds rfl (by simp [outputWith])

/-- A token that sends on what waits above a stack finds the yard as if that had been sent on
before. -/
theorem Reads.of_released {y z next : Yard} {t : Token} {ops : List (Operator × Nat)}
    (hstack : z.stack = ofOperators ops ++ y.stack) (houtput : z.outputWith ops = y.output.toList)
    (hops : ∀ waiting ∈ ops, t.releases waiting.2 = true) {rank : Nat}
    (hreleases : t.releases rank = true) (h : Reads scope y t next) : Reads scope z t next := by
  have hmore : ∀ more : List (Operator × Nat), z.outputWith (ops ++ more) = y.outputWith more := by
    intro more
    rw [outputWith, List.map_append, ← List.append_assoc]
    exact congrArg (· ++ _) houtput
  cases h with
  | number hkind => simp [t.releases_number hkind] at hreleases
  | operator hprecedence hentry hbefore hyields hleft hnext hout =>
    refine .operator hprecedence hentry
      (by rw [hstack, hbefore, ofOperators_append, List.append_assoc]) ?_ hleft hnext
      (hout.trans (hmore _).symm)
    intro waiting hwaiting
    rcases List.mem_append.mp hwaiting with hwaiting | hwaiting
    · rw [← t.releases_of_precedence? hprecedence]
      exact hops waiting hwaiting
    · exact hyields waiting hwaiting
  | parenOpen hkind => simp [t.releases_parenOpen hkind] at hreleases
  | parenClose hkind hbefore hnext hout =>
    exact .parenClose hkind (by rw [hstack, hbefore, ofOperators_append, List.append_assoc]) hnext
      (hout.trans (hmore _).symm)
  | separator hkind hbefore hnext hout =>
    exact .separator hkind (by rw [hstack, hbefore, ofOperators_append, List.append_assoc]) hnext
      (hout.trans (hmore _).symm)

/-- A run over the tokens leaves these operators above what waited before, and once they are sent on
the program has come behind the one before. -/
structure Leaves (scope : Scope) (y : Yard) (tokens : List Token) (p : Program) (final : Yard)
    (ops : List (Operator × Nat)) : Prop where
  run : Run scope y tokens final
  stack : final.stack = ofOperators ops ++ y.stack
  output : final.outputWith ops = y.output.toList ++ p

/-- An operator waits below what the text in its reach leaves. -/
theorem Leaves.operator {y z : Yard} {t : Token} {within : List Token} {q : Program}
    {op : Operator} {rank : Nat} {ops : List (Operator × Nat)}
    (hstep : Reads scope y t ⟨.operator op rank :: y.stack, y.output⟩)
    (h : Leaves scope ⟨.operator op rank :: y.stack, y.output⟩ within q z ops) :
    Leaves scope y (t :: within) (q ++ [.operator op]) z (ops ++ [(op, rank)]) where
  run := .cons hstep h.run
  stack := by
    rw [h.stack, ofOperators_append, List.append_assoc]
    rfl
  output := by
    rw [outputWith, List.map_append, ← List.append_assoc, ← List.append_assoc]
    exact congrArg (· ++ _) h.output

/-- What comes next and sends on all that was left finds the yard as if that had been sent on. -/
theorem Leaves.append {y z middle final : Yard} {tokens back : List Token} {v : Token}
    {p q : Program} {ops more : List (Operator × Nat)} {rank : Nat}
    (h : Leaves scope y tokens p z ops) (hranks : ∀ waiting ∈ ops, rank ≤ waiting.2)
    (hreleases : v.releases rank = true) (hback : Leaves scope middle (v :: back) q final more)
    (hstack : middle.stack = y.stack) (houtput : middle.output.toList = y.output.toList ++ p) :
    Leaves scope y (tokens ++ v :: back) (p ++ q) final more := by
  cases hback.run with
  | cons hnext hrest =>
    have hsame := hnext.of_released (h.stack.trans (by rw [hstack])) (h.output.trans houtput.symm)
      (fun waiting hwaiting => Token.releases_mono hreleases (hranks waiting hwaiting)) hreleases
    constructor
    · exact h.run.append (.cons hsame hrest)
    · rw [hback.stack, hstack]
    · rw [hback.output, houtput, List.append_assoc]

/-- The yard comes to the program, above whatever waits that the tokens do not send on. What is left
waiting ranks no lower than whatever they do not send on. -/
def Carries (scope : Scope) (tokens : List Token) (p : Program) : Prop :=
  ∀ y : Yard, Shields y.stack tokens → ∃ final ops, Leaves scope y tokens p final ops ∧
    ∀ rank, Clear rank tokens → ∀ waiting ∈ ops, rank ≤ waiting.2

namespace Carries

variable {t : Token} {rest : List Token} {p q : Program}

theorem nil (scope : Scope) : Carries scope [] [] := fun y _ =>
  ⟨y, [], ⟨.nil y, rfl, by simp [outputWith]⟩, by simp⟩

theorem number {value : Float} (hkind : t.kind = .number)
    (hvalue : Decimal.readNumeral? t.lexeme = some value) (h : Carries scope rest p) :
    Carries scope (t :: rest) (.number value :: p) := by
  intro y hshields
  have hclear : ∀ rank, Clear rank (t :: rest) → Clear rank rest := fun rank hrank =>
    ((clear_cons_iff (by simp [hkind]) (by simp [hkind])).mp hrank).2
  obtain ⟨final, ops, hleaves, hranks⟩ := h (y.emit value) (hshields.mono hclear)
  have hstep : Reads scope y t (y.emit value) := .number hkind hvalue rfl Array.toList_push
  refine ⟨final, ops, ⟨.cons hstep hleaves.run, hleaves.stack, ?_⟩,
    fun rank hrank => hranks rank (hclear rank hrank)⟩
  rw [hleaves.output, emit, Array.toList_push, List.append_assoc]
  rfl

theorem operator {within back : List Token} {precedence : Precedence} {entry : Entry}
    (hprecedence : t.precedence? = some precedence) (hentry : scope.lookup t.lexeme = some entry)
    (hcloses : Closes 0 within) (hclear : Clear precedence.rank within)
    (hstops : Stops precedence.rank back) (hwithin : Carries scope within q)
    (hback : Carries scope back p) (hnil : back = [] → p = []) :
    Carries scope (t :: (within ++ back)) (q ++ .operator ⟨t.lexeme, entry⟩ :: p) := by
  intro y hshields
  have hclear' : ∀ rank, Clear rank (t :: (within ++ back)) →
      precedence.yields rank = false ∧ Clear rank within ∧ Clear rank back := by
    intro rank hrank
    rw [clear_cons_iff, clear_append_iff hcloses, t.releases_of_precedence? hprecedence] at hrank
    · exact hrank
    all_goals
      intro hkind
      rw [Token.precedence?, hkind] at hprecedence
      cases hprecedence
  have hholds : Holds precedence.yields y.stack := by
    intro op rank left hleft
    rw [hleft] at hshields
    exact (hclear' rank hshields).1
  -- The operator waits while the text in its reach is read.
  obtain ⟨z, ops, hleaves, hranks⟩ :=
    hwithin ⟨.operator ⟨t.lexeme, entry⟩ precedence.rank :: y.stack, y.output⟩ hclear
  have hreach := Leaves.operator (Reads.of_holds hprecedence hentry hholds) hleaves
  have hranks' : ∀ waiting ∈ ops ++ [(⟨t.lexeme, entry⟩, precedence.rank)],
      precedence.rank ≤ waiting.2 := by
    intro waiting hwaiting
    rcases List.mem_append.mp hwaiting with hwaiting | hwaiting
    · exact hranks _ hclear waiting hwaiting
    · cases List.mem_singleton.mp hwaiting
      exact Nat.le_refl _
  cases back with
  | nil =>
    rw [hnil rfl, List.append_nil]
    refine ⟨z, _, hreach, fun rank hrank waiting hwaiting => ?_⟩
    rw [← List.append_nil within] at hrank
    exact Nat.le_trans (Precedence.le_rank_of_yields_eq_false (hclear' rank hrank).1)
      (hranks' waiting hwaiting)
  | cons v back =>
    -- What comes behind its reach finds the yard as if the operator had been sent on.
    obtain ⟨final, more, hfinal, hmore⟩ :=
      hback ⟨y.stack, (y.output.toList ++ (q ++ [Instruction.operator ⟨t.lexeme, entry⟩])).toArray⟩
        (hshields.mono fun rank hrank => (hclear' rank hrank).2.2)
    have happend := hreach.append hranks' (hstops v back rfl) hfinal rfl rfl
    rw [List.append_assoc] at happend
    exact ⟨final, more, happend, fun rank hrank => hmore rank (hclear' rank hrank).2.2⟩

theorem group {opening closing : Token} {inner : List Token} (hopening : opening.kind = .parenOpen)
    (hclosing : closing.kind = .parenClose) (hcloses : Closes 0 inner)
    (hinner : Carries scope inner q) (h : Carries scope rest p) :
    Carries scope (opening :: (inner ++ closing :: rest)) (q ++ p) := by
  intro y hshields
  have hclear : ∀ rank, Clear rank (opening :: (inner ++ closing :: rest)) → Clear rank rest :=
    fun rank => (clear_group_iff hopening hclosing hcloses).mp
  obtain ⟨inside, ops, hinside, -⟩ := hinner (y.wait .parenOpen) trivial
  obtain ⟨final, more, hleaves, hranks⟩ :=
    h ⟨y.stack, (y.output.toList ++ q).toArray⟩ (hshields.mono hclear)
  have hopen : Reads scope y opening (y.wait .parenOpen) := .parenOpen hopening rfl rfl
  have hclose : Reads scope inside closing ⟨y.stack, (y.output.toList ++ q).toArray⟩ :=
    .parenClose hclosing hinside.stack rfl hinside.output.symm
  refine ⟨final, more, ⟨.cons hopen (hinside.run.append (.cons hclose hleaves.run)),
    hleaves.stack, ?_⟩, fun rank hrank => hranks rank (hclear rank hrank)⟩
  rw [hleaves.output, List.append_assoc]

theorem separator (hkind : t.kind = .separator) (h : Carries scope rest p) :
    Carries scope (t :: rest) p := by
  intro y hshields
  have hnever : ∀ rank, ¬Clear rank (t :: rest) := fun rank hrank => by
    have hfalse := ((clear_cons_iff (by simp [hkind]) (by simp [hkind])).mp hrank).1
    simp [t.releases_separator hkind] at hfalse
  obtain ⟨left, hleft⟩ : ∃ left, y.stack = .parenOpen :: left := by
    unfold Shields at hshields
    split at hshields
    · exact absurd hshields (hnever 0)
    · exact ⟨_, by assumption⟩
    · exact absurd hshields (hnever _)
  obtain ⟨final, ops, hleaves, -⟩ := h y (by rw [hleft]; trivial)
  have hstep : Reads scope y t y := by
    refine .separator hkind (?_ : y.stack = ofOperators [] ++ _) hleft ?_
    · rw [hleft]
      rfl
    · simp [outputWith]
  exact ⟨final, ops, ⟨.cons hstep hleaves.run, hleaves.stack, hleaves.output⟩,
    fun rank hrank => absurd hrank (hnever rank)⟩

end Carries

end Yard

/-- The yard comes to the program of a reading. -/
theorem Reading.carries {scope : Scope} {tokens : List Token} {p : Program}
    (h : Reading scope tokens p) : Yard.Carries scope tokens p := by
  induction h with
  | nil => exact .nil scope
  | number hkind hvalue hrest ih => exact .number hkind hvalue ih
  | operator hprecedence hentry hclear hstops hwithin hback ihwithin ihback =>
    refine .operator hprecedence hentry hwithin.closes hclear hstops ihwithin ihback ?_
    rintro rfl
    cases hback
    rfl
  | group hopening hclosing hinner hrest ihinner ihrest =>
    exact .group hopening hclosing hinner.closes ihinner ihrest
  | separator hkind hrest ih => exact .separator hkind ih

/-- Read alone, a text without separators outside of parentheses becomes the program of its
reading. -/
theorem Reading.ofTokensUnchecked_eq {scope : Scope} {tokens : List Token} {p : Program}
    (h : Reading scope tokens p) (hclear : Clear 0 tokens) :
    Program.ofTokensUnchecked scope tokens = .ok p := by
  obtain ⟨final, ops, hleaves, -⟩ := h.carries .start hclear
  have houtput := hleaves.output
  rw [Program.ofTokensUnchecked, Yard.foldlM_step_eq_ok_iff.mpr hleaves.run, Except.map,
    Yard.finish, hleaves.stack, List.filterMap_append, Pending.filterMap_ofOperators]
  rw [Yard.outputWith] at houtput
  simpa [Yard.start, Function.comp_def] using houtput

namespace Yard

open Pending

variable {scope : Scope}

/-- The number of open parentheses. -/
def opened (y : Yard) : Nat :=
  y.stack.countP (·.operator?.isNone)

theorem countP_ofOperators (ops : List (Operator × Nat)) (left : List Pending) :
    (ofOperators ops ++ left).countP (·.operator?.isNone) =
      left.countP (·.operator?.isNone) := by
  induction ops with
  | nil => rfl
  | cons waiting ops ih => simpa [operator?] using ih

/-- The yard reads a separator only inside of a parenthesis, and it counts parentheses as the text
does. -/
theorem Reads.opened_eq {y next : Yard} {t : Token} (h : Reads scope y t next) :
    next.opened = t.depthBehind y.opened ∧ (y.opened = 0 → t.releases 0 = false) := by
  cases h with
  | number hkind hvalue hstack houtput =>
    rw [opened, hstack, Token.depthBehind_other (by simp [hkind]) (by simp [hkind])]
    exact ⟨rfl, fun _ => t.releases_number hkind 0⟩
  | operator hprecedence hentry hbefore hops hleft hstack houtput =>
    rw [opened, opened, hstack, hbefore, countP_ofOperators,
      Token.depthBehind_of_precedence? hprecedence, t.releases_of_precedence? hprecedence,
      Precedence.yields_zero hprecedence]
    exact ⟨by simp [operator?], fun _ => rfl⟩
  | parenOpen hkind hstack houtput =>
    rw [opened, hstack, Token.depthBehind_parenOpen hkind]
    exact ⟨by simp [operator?, opened], fun _ => t.releases_parenOpen hkind 0⟩
  | parenClose hkind hbefore hstack houtput =>
    rw [opened, opened, hstack, hbefore, countP_ofOperators, Token.depthBehind_parenClose hkind]
    simp [operator?]
  | separator hkind hbefore hstack houtput =>
    rw [opened, opened, hstack, hbefore, countP_ofOperators,
      Token.depthBehind_other (by simp [hkind]) (by simp [hkind])]
    simp [operator?]

theorem Run.reach_opened {y final : Yard} {tokens : List Token} (h : Run scope y tokens final) :
    reach 0 y.opened tokens = tokens := by
  induction h with
  | nil => rfl
  | cons hstep hrest ih =>
    obtain ⟨hnext, hreleases⟩ := hstep.opened_eq
    rw [reach, if_neg fun hstop => by simp [hreleases hstop.1] at hstop, ← hnext, ih]

theorem Run.readable {y final : Yard} {tokens : List Token} (h : Run scope y tokens final) :
    ∀ t ∈ tokens, t.Readable scope := by
  induction h with
  | nil => simp
  | cons hstep hrest ih =>
    intro t ht
    rcases List.mem_cons.mp ht with rfl | ht
    · cases hstep with
      | number hkind hvalue => exact ⟨fun _ => ⟨_, hvalue⟩, by simp [hkind]⟩
      | operator hprecedence hentry =>
        refine ⟨fun hkind => ?_, fun _ => ⟨_, _, hprecedence, hentry⟩⟩
        rw [Token.precedence?, hkind] at hprecedence
        cases hprecedence
      | parenOpen hkind => simp [Token.Readable, hkind]
      | parenClose hkind => simp [Token.Readable, hkind]
      | separator hkind => simp [Token.Readable, hkind]
    · exact ih t ht

/-- What the yard makes of a text whose parentheses close is the program of a reading. -/
theorem Run.exists_reading {final : Yard} {tokens : List Token} (h : Run scope .start tokens final)
    (hcloses : Closes 0 tokens) : Reading scope tokens final.finish ∧ Clear 0 tokens := by
  obtain ⟨p, hp⟩ := Reading.exists_of_closes hcloses h.readable
  have hclear : Clear 0 tokens := h.reach_opened
  have hprogram := hp.ofTokensUnchecked_eq hclear
  rw [Program.ofTokensUnchecked, foldlM_step_eq_ok_iff.mpr h] at hprogram
  cases hprogram
  exact ⟨hp, hclear⟩

end Yard

/-- The yard can make something of every token of a program. -/
theorem Program.readable_of_ofTokens {scope : Scope} {tokens : List Token} {p : Program}
    (h : ofTokens scope tokens = .ok p) : ∀ t ∈ tokens, t.Readable scope := by
  obtain ⟨final, hrun, -, -⟩ := ofTokens_eq_ok_iff.mp h
  exact hrun.readable

/-- The tokens that a scan has found, with any behind them that close what is open, close all. -/
theorem Scanner.Scans.closes {resolver : Option Resolver} {scope : Scope} {final : Scanner}
    {cs : List Char} (h : Scanner.Scans resolver (.start scope) cs final)
    (hdepth : final.depth = 0) : Closes 0 final.tokens.toList := by
  have hinvariant : ∀ more, Closes final.depth more → Closes 0 (final.tokens.toList ++ more) := by
    refine h.invariant
      (P := fun s _ => ∀ more, Closes s.depth more → Closes 0 (s.tokens.toList ++ more)) ?_ ?_
    · intro s cs p next hs hpiece htakes more hmore
      have hemit : ∀ t : Token, (t.kind = .parenClose → s.depth ≠ 0) →
          Closes (t.depthBehind s.depth) more → Closes 0 ((s.tokens.push t).toList ++ more) := by
        intro t hpos hmore
        rw [Array.toList_push, List.append_assoc]
        exact hs _ ⟨hpos, hmore⟩
      cases htakes
      case blank => exact hs more hmore
      case parenClose hshape hdepth => exact hemit _ (fun _ => hdepth) hmore
      all_goals exact hemit _ (by simp) hmore
    · exact fun more hmore => hmore
  simpa using hinvariant [] hdepth

end Formula
