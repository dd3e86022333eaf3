import Formula.Proofs.Discipline
import Formula.Proofs.Reading

/-!
# A name read in the place of a number

A number comes into the program where it is read. A name waits like an operator in front of one
operand, also where it has no operands, and comes behind what is in its reach. Nothing else in the
program changes where a name is read in the place of a number.
-/

namespace Formula

/-- An element stands in the one part or in the other. -/
theorem append_eq_append_cons {α : Type} {xs ys front back : List α} {t : α}
    (h : xs ++ ys = front ++ t :: back) :
    (∃ more, xs = front ++ t :: more ∧ back = more ++ ys) ∨
      ∃ more, front = xs ++ more ∧ ys = more ++ t :: back := by
  rcases List.append_eq_append_iff.mp h with hfront | ⟨more, hxs, hmore⟩
  · exact .inr hfront
  · rcases List.cons_eq_append_iff.mp hmore with ⟨rfl, hys⟩ | ⟨tail, rfl, hback⟩
    · exact .inr ⟨[], by rw [hxs, List.append_nil, List.append_nil], hys⟩
    · exact .inl ⟨tail, hxs, hback⟩

/-- Another element than the first stands behind it. -/
theorem exists_tail_of_ne {α : Type} {rest front back : List α} {v t : α}
    (h : v :: rest = front ++ t :: back) (hne : v ≠ t) :
    ∃ tail, front = v :: tail ∧ rest = tail ++ t :: back := by
  rcases List.cons_eq_append_iff.mp h with ⟨-, hback⟩ | htail
  · exact absurd (List.cons.inj hback).1.symm hne
  · exact htail

section Stretches

variable {scope : Scope} {tokens within back : List Token} {p q r : Program} {rank : Nat}

theorem Stops.mono {low : Nat} (h : Stops low tokens) (hle : low ≤ rank) : Stops rank tokens :=
  fun t rest htokens => Token.releases_mono (h t rest htokens) hle

theorem Stops.append (h : Stops rank tokens) (hback : Stops rank back) :
    Stops rank (tokens ++ back) := by
  cases tokens with
  | nil => exact hback
  | cons t rest =>
    intro u more hsplit
    rw [← (List.cons.inj hsplit).1]
    exact h t rest rfl

namespace Reading

/-- In a parenthesis every text becomes the program of its reading. -/
theorem ofTokensUnchecked_group (h : Reading scope tokens p) :
    Program.ofTokensUnchecked scope
      (⟨.parenOpen, "(", 0⟩ :: (tokens ++ [⟨.parenClose, ")", 0⟩])) = .ok p := by
  have hgroup : Reading scope (⟨.parenOpen, "(", 0⟩ :: (tokens ++ ⟨.parenClose, ")", 0⟩ :: []))
      (p ++ []) := .group rfl rfl h .nil
  rw [List.append_nil] at hgroup
  exact hgroup.ofTokensUnchecked_eq ((clear_group_iff rfl rfl h.closes).mpr (clear_nil 0))

/-- A text has one reading. -/
theorem unique (h : Reading scope tokens p) (hother : Reading scope tokens q) : p = q := by
  have hp := h.ofTokensUnchecked_group
  rw [hother.ofTokensUnchecked_group] at hp
  exact (Except.ok.inj hp).symm

theorem readable (h : Reading scope tokens p) : ∀ t ∈ tokens, t.Readable scope := by
  obtain ⟨final, ops, hleaves, -⟩ := h.carries (Yard.start.wait .parenOpen) trivial
  exact hleaves.run.readable

/-- Two texts are read one behind the other where the second stops whatever reaches to the end of
the first. -/
theorem append (h : Reading scope within q) (hback : Reading scope back r)
    (hclear : Clear rank within) (hstops : Stops rank back) :
    Reading scope (within ++ back) (q ++ r) := by
  induction h with
  | nil => exact hback
  | number hkind hvalue hrest ih =>
    exact .number hkind hvalue
      (ih ((clear_cons_iff (by simp [hkind]) (by simp [hkind])).mp hclear).2)
  | @operator t inner rest precedence entry q p hprecedence hentry hinner hrest hwithin hbehind
      ihwithin ihbehind =>
    have hopen : t.kind ≠ .parenOpen := fun hkind => by
      simp [Token.precedence?, hkind] at hprecedence
    have hclose : t.kind ≠ .parenClose := fun hkind => by
      simp [Token.precedence?, hkind] at hprecedence
    obtain ⟨hreleases, hclear⟩ := (clear_cons_iff hopen hclose).mp hclear
    rw [t.releases_of_precedence? hprecedence] at hreleases
    have hrank := Precedence.le_rank_of_yields_eq_false hreleases
    have hlast := ihbehind ((clear_append_iff hwithin.closes).mp hclear).2
    rw [List.cons_append, List.append_assoc, List.append_assoc, List.cons_append]
    exact .operator hprecedence hentry hinner (hrest.append (hstops.mono hrank)) hwithin hlast
  | @group opening closing inner rest q p hopening hclosing hinner hrest ihinner ihrest =>
    have hlast := ihrest ((clear_group_iff hopening hclosing hinner.closes).mp hclear)
    rw [List.cons_append, List.append_assoc, List.append_assoc, List.cons_append]
    exact .group hopening hclosing hinner hlast
  | @separator t rest p hkind hrest ih =>
    have hreleases := ((clear_cons_iff (by simp [hkind]) (by simp [hkind])).mp hclear).1
    rw [t.releases_separator hkind] at hreleases
    cases hreleases

/-- A text is read as what is in reach and what is behind it. -/
theorem exists_split (h : Reading scope (within ++ back) p) (hwithin : Closes 0 within)
    (hback : Closes 0 back) (hclear : Clear rank within) (hstops : Stops rank back) :
    ∃ q r, p = q ++ r ∧ Reading scope within q ∧ Reading scope back r := by
  obtain ⟨q, hq⟩ := exists_of_closes hwithin fun t ht => h.readable t (List.mem_append_left _ ht)
  obtain ⟨r, hr⟩ := exists_of_closes hback fun t ht => h.readable t (List.mem_append_right _ ht)
  exact ⟨q, r, h.unique (hq.append hr hclear hstops), hq, hr⟩

end Reading

end Stretches

section Replacement

variable {scope : Scope} {front back : List Token} {t u : Token} {rank : Nat}

/-- What is clear stays clear where a token is replaced by one that sends on no more. -/
theorem Clear.replace (h : Clear rank (front ++ t :: back))
    (hdepth : ∀ depth, u.depthBehind depth = t.depthBehind depth)
    (hreleases : u.releases rank = t.releases rank) : Clear rank (front ++ u :: back) := by
  suffices hreach : ∀ depth, reach rank depth (front ++ t :: back) = front ++ t :: back →
      reach rank depth (front ++ u :: back) = front ++ u :: back from hreach 0 h
  clear h
  induction front with
  | nil =>
    intro depth h
    rw [List.nil_append, reach] at h ⊢
    rw [hreleases, hdepth]
    by_cases hstop : depth = 0 ∧ t.releases rank = true
    · simp [hstop] at h
    · rw [if_neg hstop] at h ⊢
      rw [(List.cons.inj h).2]
  | cons v front ih =>
    intro depth h
    rw [List.cons_append, reach] at h ⊢
    by_cases hstop : depth = 0 ∧ v.releases rank = true
    · simp [hstop] at h
    · rw [if_neg hstop] at h ⊢
      rw [ih _ (List.cons.inj h).2]

theorem Stops.replace (h : Stops rank (front ++ t :: back)) (hreleases : t.releases rank = false) :
    Stops rank (front ++ u :: back) := by
  cases front with
  | nil =>
    rw [h t back rfl] at hreleases
    cases hreleases
  | cons v front =>
    intro w rest hsplit
    rw [← (List.cons.inj hsplit).1]
    exact h v _ rfl

/-- Behind some tokens of a text so many parentheses are open as the others close. -/
theorem Closes.exists_back {depth : Nat} (h : Closes depth (front ++ back)) :
    ∃ closed, Closes closed back := by
  induction front generalizing depth with
  | nil => exact ⟨depth, h⟩
  | cons v front ih => exact ih h.2

theorem Precedence.rank_le_ofPrefix {p : Precedence} (h : t.precedence? = some p) :
    p.rank ≤ ofPrefix.rank := by
  unfold Token.precedence? at h
  split at h
  · exact Nat.le_of_lt (ofInfix?_eq_some_iff.mp h).rank_lt_ofPrefix
  · cases h
    exact Nat.le_refl _
  · cases h

/-- A name sends on no operator. -/
theorem Token.releases_prefixOp (hkind : u.kind = .prefixOp)
    (hle : rank ≤ Precedence.ofPrefix.rank) : u.releases rank = false := by
  have hprecedence : u.precedence? = some .ofPrefix := by rw [Token.precedence?, hkind]
  rw [u.releases_of_precedence? hprecedence, Precedence.yields, if_neg (by decide)]
  simpa using hle

theorem Clear.replace_number (h : Clear rank (front ++ t :: back)) (hkind : t.kind = .number)
    (hname : u.kind = .prefixOp) (hle : rank ≤ Precedence.ofPrefix.rank) :
    Clear rank (front ++ u :: back) := by
  refine h.replace (fun depth => ?_) ?_
  · rw [Token.depthBehind, Token.depthBehind, hname, hkind]
  · rw [t.releases_number hkind, u.releases_prefixOp hname hle]

/-- A program with a number that was read in front of the tokens behind it, and the program with a
name in the number's place: the name comes behind what is in its reach. -/
structure Replaces (scope : Scope) (value : Float) (op : Operator) (back : List Token)
    (program replaced : Program) (p q r : Program) : Prop where
  before : program = p ++ .number value :: (q ++ r)
  within : Reading scope (reach Precedence.ofPrefix.rank 0 back) q
  after : replaced = p ++ (q ++ .operator op :: r)

namespace Replaces

variable {value : Float} {op : Operator} {program replaced p q r : Program}

/-- What comes before changes nothing. -/
theorem prepend (h : Replaces scope value op back program replaced p q r) (more : Program) :
    Replaces scope value op back (more ++ program) (more ++ replaced) (more ++ p) q r where
  before := by rw [h.before, List.append_assoc]
  within := h.within
  after := by rw [h.after, List.append_assoc]

/-- What comes behind changes nothing unless it comes into reach. -/
theorem append {more : List Token} (h : Replaces scope value op back program replaced p q r)
    (hreach : reach Precedence.ofPrefix.rank 0 (back ++ more) =
      reach Precedence.ofPrefix.rank 0 back) (behind : Program) :
    Replaces scope value op (back ++ more) (program ++ behind) (replaced ++ behind) p q
      (r ++ behind) where
  before := by rw [h.before, List.append_assoc, List.cons_append, List.append_assoc]
  within := by rw [hreach]; exact h.within
  after := by rw [h.after, List.append_assoc, List.append_assoc, List.cons_append]

end Replaces

/-- Where the first token is the one that is replaced, it comes behind what is in its reach. -/
theorem Reading.exists_replaces_first {value : Float} {entry : Entry} {program : Program}
    (h : Reading scope back program) (hname : u.kind = .prefixOp)
    (hentry : scope.lookup u.lexeme = some entry) :
    ∃ replaced p q r, Reading scope (u :: back) replaced ∧
      Replaces scope value ⟨u.lexeme, entry⟩ back (.number value :: program) replaced p q r := by
  have hprecedence : u.precedence? = some .ofPrefix := by rw [Token.precedence?, hname]
  obtain ⟨more, hsplit, hwithin, hmore, hclear, hstops⟩ :=
    h.closes.exists_reach Precedence.ofPrefix.rank
  rw [hsplit] at h
  obtain ⟨q, r, rfl, hq, hr⟩ := h.exists_split hwithin hmore hclear hstops
  have hreading := Reading.operator hprecedence hentry hclear hstops hq hr
  rw [← hsplit] at hreading
  exact ⟨_, [], q, r, hreading, rfl, hq, rfl⟩

/-- Read in the place of a number, a name comes behind what is in its reach, and everything else
stays as it is. -/
theorem Reading.exists_replaces {tokens : List Token} {value : Float} {entry : Entry}
    {program : Program} (h : Reading scope tokens program) (htokens : tokens = front ++ t :: back)
    (hkind : t.kind = .number) (hvalue : Decimal.readNumeral? t.lexeme = some value)
    (hname : u.kind = .prefixOp) (hentry : scope.lookup u.lexeme = some entry) :
    ∃ replaced p q r, Reading scope (front ++ u :: back) replaced ∧
      Replaces scope value ⟨u.lexeme, entry⟩ back program replaced p q r := by
  induction h generalizing front back with
  | nil => simp at htokens
  | @number v rest number program hnumber hread hrest ih =>
    rcases List.cons_eq_append_iff.mp htokens with ⟨rfl, hback⟩ | ⟨front, rfl, hfront⟩
    · obtain ⟨rfl, rfl⟩ := List.cons.inj hback
      rw [hvalue] at hread
      cases hread
      exact hrest.exists_replaces_first hname hentry
    · obtain ⟨replaced, p, q, r, hreading, hreplaces⟩ := ih hfront
      exact ⟨_, _, q, r, .number hnumber hread hreading, hreplaces.prepend [.number number]⟩
  | @operator v inner rest precedence found qs ps hprecedence hfound hclear hstops hwithin hbehind
      ihwithin ihbehind =>
    have hrank := Precedence.rank_le_ofPrefix hprecedence
    have hne : v ≠ t := by
      rintro rfl
      simp [Token.precedence?, hkind] at hprecedence
    obtain ⟨front, rfl, hfront⟩ := exists_tail_of_ne htokens hne
    rcases append_eq_append_cons hfront with ⟨more, rfl, rfl⟩ | ⟨more, rfl, rfl⟩
    · -- The number stands in the reach of the operator.
      obtain ⟨replaced, p, q, r, hreading, hreplaces⟩ := ihwithin rfl
      have hclear' := hclear.replace_number hkind hname hrank
      obtain ⟨closed, hclosed⟩ := hwithin.closes.exists_back
      have hreach := hclosed.2.reach_append (Nat.zero_le _) fun _ => hstops.mono hrank
      have hsame := Reading.operator hprecedence hfound hclear' hstops hreading hbehind
      rw [List.append_assoc, List.cons_append] at hsame
      exact ⟨_, p, q, _, hsame, hreplaces.append hreach _⟩
    · -- The number stands behind what the operator reaches.
      obtain ⟨replaced, p, q, r, hreading, hreplaces⟩ := ihbehind rfl
      have hsame := Reading.operator hprecedence hfound hclear
        (hstops.replace (t.releases_number hkind _)) hwithin hreading
      rw [← List.append_assoc] at hsame
      have hprepend := hreplaces.prepend (qs ++ [.operator ⟨v.lexeme, found⟩])
      simp only [List.append_assoc, List.singleton_append] at hprepend
      exact ⟨_, _, q, r, hsame, hprepend⟩
  | @group opening closing inner rest qs ps hopening hclosing hinner hrest ihinner ihrest =>
    have hne : opening ≠ t := by
      rintro rfl
      cases hkind.symm.trans hopening
    obtain ⟨front, rfl, hfront⟩ := exists_tail_of_ne htokens hne
    rcases append_eq_append_cons hfront with ⟨more, rfl, rfl⟩ | ⟨more, rfl, hmore⟩
    · -- The number stands in the parenthesis.
      obtain ⟨replaced, p, q, r, hreading, hreplaces⟩ := ihinner rfl
      obtain ⟨closed, hclosed⟩ := hinner.closes.exists_back
      have hstops : Stops Precedence.ofPrefix.rank (closing :: rest) := by
        intro w tail hsplit
        rw [← (List.cons.inj hsplit).1]
        exact closing.releases_parenClose hclosing _
      have hreach := hclosed.2.reach_append (Nat.zero_le _) fun _ => hstops
      have hsame := Reading.group hopening hclosing hreading hrest
      rw [List.append_assoc, List.cons_append] at hsame
      exact ⟨_, p, q, _, hsame, hreplaces.append hreach _⟩
    · -- The number stands behind the parenthesis.
      have hne : closing ≠ t := by
        rintro rfl
        cases hkind.symm.trans hclosing
      obtain ⟨tail, rfl, hback⟩ := exists_tail_of_ne hmore hne
      obtain ⟨replaced, p, q, r, hreading, hreplaces⟩ := ihrest hback
      have hsame := Reading.group hopening hclosing hinner hreading
      refine ⟨_, _, q, r, ?_, hreplaces.prepend qs⟩
      rw [List.cons_append, List.append_assoc, List.cons_append]
      exact hsame
  | @separator v rest program hseparator hrest ih =>
    have hne : v ≠ t := by
      rintro rfl
      cases hkind.symm.trans hseparator
    obtain ⟨front, rfl, hfront⟩ := exists_tail_of_ne htokens hne
    obtain ⟨replaced, p, q, r, hreading, hreplaces⟩ := ih hfront
    exact ⟨_, p, q, r, .separator hseparator hreading, hreplaces⟩

end Replacement

/-- A reading stays what it is where more names are known. -/
theorem Reading.mono {scope more : Scope} {tokens : List Token} {p : Program}
    (h : Reading scope tokens p) (hmore : scope.Within more) : Reading more tokens p := by
  induction h with
  | nil => exact .nil
  | number hkind hvalue hrest ih => exact .number hkind hvalue ih
  | operator hprecedence hentry hclear hstops hwithin hback ihwithin ihback =>
    exact .operator hprecedence (hmore _ _ hentry) hclear hstops ihwithin ihback
  | group hopening hclosing hinner hrest ihinner ihrest =>
    exact .group hopening hclosing ihinner ihrest
  | separator hkind hrest ih => exact .separator hkind ih

namespace Yard

variable {scope : Scope} {y next final : Yard}

/-- A token is read without regard to its place in the text. -/
theorem Reads.of_word {t u : Token} (h : Reads scope y t next) (hword : u.word = t.word) :
    Reads scope y u next := by
  rcases t with ⟨kind, lexeme, i⟩
  rcases u with ⟨other, spelled, j⟩
  cases hword
  cases h with
  | number hkind hvalue hstack houtput => exact .number hkind hvalue hstack houtput
  | operator hprecedence hentry hbefore hops hleft hstack houtput =>
    exact .operator hprecedence hentry hbefore hops hleft hstack houtput
  | parenOpen hkind hstack houtput => exact .parenOpen hkind hstack houtput
  | parenClose hkind hbefore hstack houtput => exact .parenClose hkind hbefore hstack houtput
  | separator hkind hbefore hstack houtput => exact .separator hkind hbefore hstack houtput

theorem Run.of_words {tokens others : List Token} (h : Run scope y tokens final)
    (hwords : others.map Token.word = tokens.map Token.word) : Run scope y others final := by
  induction h generalizing others with
  | nil y =>
    obtain rfl : others = [] := by simpa using hwords
    exact .nil y
  | cons hstep hrest ih =>
    cases others with
    | nil => cases hwords
    | cons u others =>
      obtain ⟨hword, hrestWords⟩ := List.cons.inj hwords
      exact .cons (hstep.of_word hword) (ih hrestWords)

end Yard

/-- Tokens of the same words become the same program. -/
theorem Program.ofTokensUnchecked_of_words {scope : Scope} {tokens others : List Token}
    {p : Program} (h : ofTokensUnchecked scope tokens = .ok p)
    (hwords : others.map Token.word = tokens.map Token.word) :
    ofTokensUnchecked scope others = .ok p := by
  unfold ofTokensUnchecked at h ⊢
  cases hrun : tokens.foldlM (Yard.step scope) .start with
  | error fault =>
    rw [hrun] at h
    cases h
  | ok final =>
    have hsame := (Yard.foldlM_step_eq_ok_iff.mp hrun).of_words hwords
    rw [hrun] at h
    rw [Yard.foldlM_step_eq_ok_iff.mpr hsame]
    exact h

namespace Program

variable {p r : Program} {name : String} {identity : Nat} {value : Float}

/-- A constant counts for the arity check like a number. -/
theorem depthAfter_constant {depth behind : Int64}
    (h : depthAfter depth (p ++ .number value :: r) = .ok behind) :
    depthAfter depth (p ++ .operator ⟨name, .constant identity value⟩ :: r) = .ok behind := by
  have heffect : Instruction.effect (.operator ⟨name, .constant identity value⟩) =
      Instruction.effect (.number value) :=
    show (1 : Int64) - UInt64.toInt64 0 = 1 by decide
  induction p generalizing depth with
  | nil =>
    simp only [List.nil_append, depthAfter, heffect] at h ⊢
    split at h
    · cases h
    · rw [if_neg (by assumption)]
      exact h
  | cons i p ih =>
    simp only [List.cons_append, depthAfter] at h ⊢
    split at h
    · cases h
    · rw [if_neg (by assumption)]
      exact ih h

theorem checkArity_constant (h : checkArity (p ++ .number value :: r) = .ok ()) :
    checkArity (p ++ .operator ⟨name, .constant identity value⟩ :: r) = .ok () := by
  unfold checkArity at h ⊢
  cases hdepth : depthAfter 0 (p ++ .number value :: r) with
  | error fault =>
    rw [hdepth] at h
    cases h
  | ok depth =>
    rw [hdepth] at h
    rw [depthAfter_constant hdepth]
    exact h

/-- A constant puts the same value on the stack as a number. -/
theorem evaluate_constant :
    evaluate (p ++ .operator ⟨name, .constant identity value⟩ :: r) =
      evaluate (p ++ .number value :: r) := by
  unfold evaluate
  rw [run_append, run_append]
  rfl

end Program

/-- Where a name with an entry is read in the place of a number of a program, it comes behind what
is in its reach. -/
theorem Program.exists_replaces {scope : Scope} {front back tokens : List Token} {t : Token}
    {value : Float} {program : Program} {name : String}
    (h : Program.ofTokens scope (front ++ t :: back) = .ok program)
    (hcloses : Closes 0 (front ++ t :: back)) (hkind : t.kind = .number)
    (hvalue : Decimal.readNumeral? t.lexeme = some value) (hfree : scope.lookup name = none)
    (entry : Entry) (hwords : tokens.map Token.word =
      front.map Token.word ++ ⟨.prefixOp, name⟩ :: back.map Token.word) :
    ∃ replaced p q r, ofTokensUnchecked (scope.insert name entry) tokens = .ok replaced ∧
      Replaces (scope.insert name entry) value ⟨name, entry⟩ back program replaced p q r := by
  obtain ⟨yard, hrun, rfl, -⟩ := ofTokens_eq_ok_iff.mp h
  obtain ⟨hreading, hclear⟩ := hrun.exists_reading hcloses
  have hknown := hreading.mono (Scope.within_insert hfree entry)
  have hentry : (scope.insert name entry).lookup name = some entry := by
    rw [Scope.lookup_insert, if_pos rfl]
  obtain ⟨replaced, p, q, r, hagain, hreplaces⟩ :=
    hknown.exists_replaces (u := ⟨.prefixOp, name, 0⟩) rfl hkind hvalue rfl hentry
  have hclear' := hclear.replace_number (u := ⟨.prefixOp, name, 0⟩) hkind rfl (Nat.zero_le _)
  refine ⟨replaced, p, q, r, ?_, hreplaces⟩
  exact ofTokensUnchecked_of_words (hagain.ofTokensUnchecked_eq hclear')
    (hwords.trans (by simp [Token.word]))

/-- A constant that reaches nothing leaves the program as good and its value the same. -/
theorem Replaces.checkArity_and_evaluate {scope : Scope} {value : Float} {name : String}
    {identity : Nat} {back : List Token} {program replaced p r : Program}
    (h : Replaces scope value ⟨name, .constant identity value⟩ back program replaced p [] r)
    (hcheck : program.checkArity = .ok ()) :
    replaced.checkArity = .ok () ∧ replaced.evaluate = program.evaluate := by
  rw [h.before] at hcheck ⊢
  rw [h.after]
  exact ⟨Program.checkArity_constant hcheck, Program.evaluate_constant⟩

end Formula
