import Formula.Proofs.Faults
import Formula.Proofs.Replacement

/-!
# Texts put together from closed ones

A list of tokens is closed when it has a program and its parentheses match. In parentheses it keeps
its program, and closed lists can be made the operands of an infix operator or the arguments of a
call: the new program is made of theirs, one behind the other, and the operator. While a later part
runs, the values of the parts before it lie below its own, so the depth that the arity check counts
is higher there by their number. The parts can be put together exactly where it stays a signed word.
-/

namespace Formula

namespace Program

/-- The depth that the arity check counts from the given one on is always below the bound. -/
def StaysBelow (bound : Int) (depth : Int64) : Program → Prop
  | [] => depth.toInt < bound
  | i :: rest => depth.toInt < bound ∧ StaysBelow bound (depth + i.effect) rest

instance decidableStaysBelow (bound : Int) :
    (depth : Int64) → (p : Program) → Decidable (StaysBelow bound depth p)
  | _, [] => inferInstanceAs (Decidable (_ < _))
  | depth, i :: rest =>
    have := decidableStaysBelow bound (depth + i.effect) rest
    inferInstanceAs (Decidable (_ ∧ _))

section Depths

variable {bound n : Int} {depth low high final : Int64} {i : Instruction} {p : Program}

theorem StaysBelow.lt (h : StaysBelow bound depth p) : depth.toInt < bound := by
  cases p with
  | nil => exact h
  | cons i p => exact h.1

/-- Every depth is a signed word. -/
theorem staysBelow_word (depth : Int64) (p : Program) : StaysBelow (2 ^ 63) depth p := by
  induction p generalizing depth with
  | nil => exact depth.toInt_lt
  | cons i p ih => exact ⟨depth.toInt_lt, ih _⟩

/-- Where no arity wraps, the depth rises by at most one with each instruction. -/
theorem staysBelow_of_isCounted (hcounted : ∀ i ∈ p, i.IsCounted) (hdepth : 0 ≤ depth.toInt)
    (h : depthAfter depth p = .ok final) (hlength : depth.toInt + p.length < bound)
    (hbound : bound ≤ 2 ^ 63) : StaysBelow bound depth p := by
  induction p generalizing depth with
  | nil => simpa [StaysBelow] using hlength
  | cons i p ih =>
    rw [List.length_cons] at hlength
    have hnext := Instruction.toInt_add_effect_of_isCounted (hcounted i (by simp)) hdepth
      (by omega)
    have hgain := i.gain_le_one
    rw [depthAfter] at h
    split at h
    · cases h
    · rename_i hnonneg
      rw [Int64.lt_iff_toInt_lt, Int64.toInt_zero] at hnonneg
      exact ⟨by omega, ih (fun j hj => hcounted j (by simp [hj])) (by omega) h (by omega)⟩

theorem depthAfter_cons_eq_ok_iff :
    depthAfter depth (i :: p) = .ok final ↔
      0 ≤ (depth + i.effect).toInt ∧ depthAfter (depth + i.effect) p = .ok final := by
  have hneg : depth + i.effect < 0 ↔ (depth + i.effect).toInt < 0 := by
    rw [Int64.lt_iff_toInt_lt, Int64.toInt_zero]
  rw [depthAfter]
  by_cases hstep : depth + i.effect < 0
  · rw [if_pos hstep]
    refine ⟨fun h => ?_, fun h => absurd (hneg.mp hstep) (Int.not_lt.mpr h.1)⟩
    cases h
  · rw [if_neg hstep]
    exact ⟨fun h => ⟨Int.not_lt.mp (mt hneg.mpr hstep), h⟩, And.right⟩

/-- A step from a higher depth comes out as much higher, or wraps below zero. -/
theorem toInt_add_effect_raised (hhigh : high.toInt = low.toInt + n) (hn : 0 ≤ n) (hlt : n < 2 ^ 63)
    (hnext : 0 ≤ (low + i.effect).toInt) :
    ((low + i.effect).toInt < 2 ^ 63 - n ∧
        (high + i.effect).toInt = (low + i.effect).toInt + n) ∨
      2 ^ 63 - n ≤ (low + i.effect).toInt ∧ (high + i.effect).toInt < 0 := by
  have hword := (low + i.effect).toInt_lt
  have hsum : (high + i.effect).toInt = ((low + i.effect).toInt + n).bmod (2 ^ 64) := by
    rw [Int64.toInt_add, Int64.toInt_add, hhigh, Int.bmod_add_bmod]
    congr 1
    omega
  by_cases hbound : (low + i.effect).toInt < 2 ^ 63 - n
  · refine .inl ⟨hbound, hsum.trans (Int.bmod_eq_of_le ?_ ?_)⟩ <;> omega
  · refine .inr ⟨Int.not_lt.mp hbound, ?_⟩
    rw [hsum, Int.bmod_def]
    split <;> omega

/-- From a higher depth a program comes out as much higher if all its depths stay below what the
signed words leave for them, and is refused if they do not. -/
theorem depthAfter_raised (hlow : 0 ≤ low.toInt) (hn : 0 ≤ n) (hhigh : high.toInt = low.toInt + n)
    (h : depthAfter low p = .ok final) :
    (StaysBelow (2 ^ 63 - n) low p ∧
        ∃ top, depthAfter high p = .ok top ∧ top.toInt = final.toInt + n) ∨
      ¬StaysBelow (2 ^ 63 - n) low p ∧ ∃ fault, depthAfter high p = .error fault := by
  have hword := high.toInt_lt
  have hfirst : low.toInt < 2 ^ 63 - n := by omega
  induction p generalizing low high with
  | nil =>
    rw [← Except.ok.inj h]
    exact .inl ⟨hfirst, high, rfl, hhigh⟩
  | cons i p ih =>
    obtain ⟨hnext, hrest⟩ := depthAfter_cons_eq_ok_iff.mp h
    rcases toInt_add_effect_raised hhigh hn (by omega) hnext with ⟨hlt, heq⟩ | ⟨hge, hneg⟩
    · have hpos : ¬high + i.effect < 0 := by
        rw [Int64.lt_iff_toInt_lt, Int64.toInt_zero]
        omega
      rw [depthAfter, if_neg hpos, StaysBelow, and_iff_right hfirst]
      exact ih hnext heq hrest (high + i.effect).toInt_lt hlt
    · have hwrapped : high + i.effect < 0 := by
        rwa [Int64.lt_iff_toInt_lt, Int64.toInt_zero]
      rw [depthAfter, if_pos hwrapped]
      exact .inr ⟨fun hbelow => Int.not_lt.mpr hge hbelow.2.lt, _, rfl⟩

/-- Programs that leave one value each, one behind the other, leave as many as they are, if the
depths of each stay below what those before it leave of the signed words, and are refused if those
of some do not. -/
theorem depthAfter_flatten {ps : List Program} (hps : ∀ p ∈ ps, depthAfter 0 p = .ok 1) {n : Nat}
    (hdepth : depth.toInt = n) :
    ((∀ k p, ps[k]? = some p → StaysBelow (2 ^ 63 - (n + k : Nat)) 0 p) ∧
        ∃ top, depthAfter depth ps.flatten = .ok top ∧ top.toInt = (n + ps.length : Nat)) ∨
      (¬∀ k p, ps[k]? = some p → StaysBelow (2 ^ 63 - (n + k : Nat)) 0 p) ∧
        ∃ fault, depthAfter depth ps.flatten = .error fault := by
  induction ps generalizing depth n with
  | nil => exact .inl ⟨by simp, depth, rfl, hdepth⟩
  | cons p ps ih =>
    have hzero : depth.toInt = (0 : Int64).toInt + n := by
      rw [hdepth, Int64.toInt_zero, Int.zero_add]
    have hraised := depthAfter_raised Int64.toInt_zero.ge (Int.natCast_nonneg n) hzero
      (hps p (by simp))
    have hall : (∀ k q, (p :: ps)[k]? = some q → StaysBelow (2 ^ 63 - (n + k : Nat)) 0 q) ↔
        StaysBelow (2 ^ 63 - n) 0 p ∧
          ∀ k q, ps[k]? = some q → StaysBelow (2 ^ 63 - (n + 1 + k : Nat)) 0 q := by
      constructor
      · refine fun h => ⟨by simpa using h 0 p rfl, fun k q hq => ?_⟩
        have hlater := h (k + 1) q hq
        rwa [Nat.add_comm k 1, ← Nat.add_assoc] at hlater
      · rintro ⟨hfirst, hlater⟩ k q hq
        cases k with
        | zero =>
          cases hq
          simpa using hfirst
        | succ k =>
          rw [Nat.add_comm k 1, ← Nat.add_assoc]
          exact hlater k q hq
    rw [hall, List.flatten_cons, depthAfter_append, List.length_cons, Nat.add_comm ps.length,
      ← Nat.add_assoc]
    rcases hraised with ⟨hbelow, middle, hmiddle, hone⟩ | ⟨hnot, fault, hfault⟩
    · rw [Int64.toInt_one, Int.add_comm] at hone
      rw [hmiddle, and_iff_right hbelow]
      exact ih (fun q hq => hps q (by simp [hq])) (by exact_mod_cast hone)
    · rw [hfault]
      exact .inr ⟨fun h => hnot h.1, fault, rfl⟩

/-- An operator behind as many programs as it has operands makes one program of them where the
depths of each leave room for those before it. -/
theorem depthAfter_operator_iff {ps : List Program} (hps : ∀ p ∈ ps, depthAfter 0 p = .ok 1)
    {op : Operator} (harity : op.entry.arity.toNat = ps.length) :
    depthAfter 0 (ps.flatten ++ [.operator op]) = .ok 1 ↔
      ∀ (k : Nat) p, ps[k]? = some p → StaysBelow (2 ^ 63 - k) 0 p := by
  have hcases := depthAfter_flatten hps (n := 0) Int64.toInt_zero
  simp only [Nat.zero_add] at hcases
  rw [depthAfter_append]
  rcases hcases with ⟨hbelow, top, htop, hcount⟩ | ⟨hnot, fault, hfault⟩
  · have hone : (top + (Instruction.operator op).effect).toInt = 1 := by
      rw [Instruction.toInt_add_effect, Instruction.gain, Instruction.arity_operator, harity,
        hcount, show (ps.length : Int) + (1 - ps.length) = 1 by omega]
      rfl
    rw [htop]
    simp only [depthAfter_cons_eq_ok_iff, Int64.toInt_inj.mp (hone.trans Int64.toInt_one.symm)]
    exact iff_of_true ⟨by decide, rfl⟩ hbelow
  · rw [hfault]
    refine iff_of_false (fun h => ?_) hnot
    cases h

end Depths

end Program

/-- Tokens that are read into a program become it if its arities come out. -/
theorem Program.ofTokens_of_unchecked {scope : Scope} {tokens : List Token} {p : Program}
    (h : ofTokensUnchecked scope tokens = .ok p) :
    ofTokens scope tokens = p.checkArity.map fun _ => p := by
  rw [ofTokens, h]
  cases hcheck : p.checkArity <;> simp only [hcheck, Except.map]

section Closed

variable {scope : Scope} {tokens : List Token} {p : Program} {y final : Yard}

/-- A list of tokens with a program and as many parentheses that open as close. -/
structure Closed (scope : Scope) (tokens : List Token) (p : Program) : Prop where
  accepted : Program.ofTokens scope tokens = .ok p
  balanced : closings (tokens.map Token.word) = openings (tokens.map Token.word)

/-- The yard closes a parenthesis only where one is open. -/
theorem Yard.Reads.opened_ne_zero {t : Token} {next : Yard} (h : Yard.Reads scope y t next)
    (hkind : t.kind = .parenClose) : y.opened ≠ 0 := by
  intro hopened
  have hreleases := h.opened_eq.2 hopened
  rw [t.releases_parenClose hkind] at hreleases
  cases hreleases

/-- A run over tokens changes the number of open parentheses as they say. -/
theorem Yard.Run.opened_add_closings (h : Yard.Run scope y tokens final) :
    final.opened + closings (tokens.map Token.word) =
      y.opened + openings (tokens.map Token.word) := by
  induction h with
  | nil y => rfl
  | @cons y next final t rest hstep hrest ih =>
    have hcount := closings_cons (w := t.word) hstep.opened_ne_zero (rest.map Token.word)
    rw [hstep.opened_eq.1] at ih
    rw [Token.depthBehind_word] at hcount
    rw [List.map_cons]
    omega

/-- Tokens behind which no parenthesis waits close all. -/
theorem Yard.Run.closes (h : Yard.Run scope y tokens final) (hopened : final.opened = 0) :
    Closes y.opened tokens := by
  induction h with
  | nil => exact hopened
  | cons hstep hrest ih =>
    refine ⟨hstep.opened_ne_zero, ?_⟩
    rw [← hstep.opened_eq.1]
    exact ih hopened

/-- The closed lists are those with a reading whose separators all stand in parentheses and whose
arities come out. -/
theorem closed_iff :
    Closed scope tokens p ↔
      Reading scope tokens p ∧ Clear 0 tokens ∧ Program.depthAfter 0 p = .ok 1 := by
  constructor
  · rintro ⟨haccepted, hbalanced⟩
    obtain ⟨final, hrun, rfl, hcheck⟩ := Program.ofTokens_eq_ok_iff.mp haccepted
    have hcount := hrun.opened_add_closings
    rw [hbalanced, Nat.add_right_cancel_iff] at hcount
    obtain ⟨hreading, hclear⟩ := hrun.exists_reading (hrun.closes hcount)
    exact ⟨hreading, hclear, (Program.checkArity_eq_ok_iff _).mp hcheck⟩
  · rintro ⟨hreading, hclear, hdepth⟩
    have hbalanced := hreading.closes.closings_eq
    rw [Nat.zero_add] at hbalanced
    refine ⟨?_, hbalanced⟩
    rw [Program.ofTokens_of_unchecked (hreading.ofTokensUnchecked_eq hclear),
      (Program.checkArity_eq_ok_iff p).mpr hdepth]
    rfl

/-- An opening parenthesis and a closing one. -/
structure Parens where
  opening : Token
  closing : Token
  isOpening : opening.kind = .parenOpen
  isClosing : closing.kind = .parenClose

/-- The tokens in parentheses. -/
def Parens.around (parens : Parens) (tokens : List Token) : List Token :=
  parens.opening :: (tokens ++ [parens.closing])

/-- Closed lists with a separator between each and the next, and their programs. -/
inductive Arguments (scope : Scope) : List Token → List Program → Prop where
  | none : Arguments scope [] []
  | last {tokens : List Token} {p : Program} (h : Closed scope tokens p) :
      Arguments scope tokens [p]
  | more {tokens rest : List Token} {separator : Token} {p q : Program} {ps : List Program}
      (h : Closed scope tokens p) (hkind : separator.kind = .separator)
      (hrest : Arguments scope rest (q :: ps)) :
      Arguments scope (tokens ++ separator :: rest) (p :: q :: ps)

/-- Arguments are read one behind the other. -/
theorem Arguments.reading {ps : List Program} (h : Arguments scope tokens ps) :
    Reading scope tokens ps.flatten := by
  induction h with
  | none => exact .nil
  | last h =>
    rw [List.flatten_singleton]
    exact (closed_iff.mp h).1
  | more h hkind hrest ih =>
    obtain ⟨hreading, hclear, -⟩ := closed_iff.mp h
    refine hreading.append (.separator hkind ih) hclear ?_
    intro t rest hfirst
    rw [← (List.cons.inj hfirst).1]
    exact Token.releases_separator hkind 0

theorem Arguments.depthAfter_eq {ps : List Program} (h : Arguments scope tokens ps) :
    ∀ p ∈ ps, Program.depthAfter 0 p = .ok 1 := by
  induction h with
  | none => simp
  | last h => simpa using (closed_iff.mp h).2.2
  | more h hkind hrest ih => exact List.forall_mem_cons.mpr ⟨(closed_iff.mp h).2.2, ih⟩

section Around

variable {rest : List Token} {q : Program} (parens : Parens)

theorem Parens.around_append (tokens rest : List Token) :
    parens.around tokens ++ rest = parens.opening :: (tokens ++ parens.closing :: rest) := by
  simp [around]

/-- What is in parentheses is read for itself. -/
theorem Reading.around (h : Reading scope tokens p) (hrest : Reading scope rest q) :
    Reading scope (parens.around tokens ++ rest) (p ++ q) := by
  rw [parens.around_append]
  exact .group parens.isOpening parens.isClosing h hrest

theorem Reading.clear_around_iff (h : Reading scope tokens p) (rank : Nat) :
    Clear rank (parens.around tokens ++ rest) ↔ Clear rank rest := by
  rw [parens.around_append]
  exact clear_group_iff parens.isOpening parens.isClosing h.closes

/-- A list keeps its program in parentheses. -/
theorem Closed.around (h : Closed scope tokens p) : Closed scope (parens.around tokens) p := by
  obtain ⟨hreading, -, hdepth⟩ := closed_iff.mp h
  rw [← List.append_nil (parens.around tokens), ← List.append_nil p]
  refine closed_iff.mpr ⟨hreading.around parens .nil,
    (hreading.clear_around_iff parens 0).mpr rfl, ?_⟩
  rwa [List.append_nil]

/-- An operator in front of parentheses comes behind what they hold. -/
theorem Reading.operator_around {t : Token} {precedence : Precedence} {entry : Entry}
    (hprecedence : t.precedence? = some precedence) (hentry : scope.lookup t.lexeme = some entry)
    (h : Reading scope tokens p) :
    Reading scope (t :: parens.around tokens) (p ++ [.operator ⟨t.lexeme, entry⟩]) ∧
      Clear 0 (t :: parens.around tokens) := by
  have hclear : ∀ rank, Clear rank (parens.around tokens) := fun rank => by
    rw [← List.append_nil (parens.around tokens)]
    exact (h.clear_around_iff parens rank).mpr rfl
  have hinside : Reading scope (parens.around tokens) p := by
    simpa using h.around parens .nil
  constructor
  · rw [← List.append_nil (parens.around tokens)]
    refine .operator hprecedence hentry (hclear _) (fun t rest hfirst => ?_) hinside .nil
    cases hfirst
  · refine (clear_cons_iff ?_ ?_).mpr ⟨?_, hclear 0⟩
    · intro hkind
      simp [Token.precedence?, hkind] at hprecedence
    · intro hkind
      simp [Token.precedence?, hkind] at hprecedence
    · rw [t.releases_of_precedence? hprecedence, Precedence.yields_zero hprecedence]

end Around

section Compositions

variable {first second : List Token} {q : Program} {ps : List Program} {t : Token} {entry : Entry}

/-- A text whose separators all stand in parentheses has no other fault than its arities. -/
theorem Reading.closed_iff_depthAfter (h : Reading scope tokens p) (hclear : Clear 0 tokens) :
    Closed scope tokens p ↔ Program.depthAfter 0 p = .ok 1 :=
  closed_iff.trans ((and_iff_right h).trans (and_iff_right hclear))

/-- Closed lists are the operands of an infix operator where the depths of the second leave room for
the value of the first. -/
theorem Closed.infixOp_iff (hfirst : Closed scope first p) (hsecond : Closed scope second q)
    (hkind : t.kind = .infixOp) (hspelling : (Precedence.ofInfix? t.lexeme).isSome = true)
    (hentry : scope.lookup t.lexeme = some entry) (harity : entry.arity = 2)
    (left right : Parens) :
    Closed scope (left.around first ++ t :: right.around second)
        (p ++ q ++ [.operator ⟨t.lexeme, entry⟩]) ↔ q.StaysBelow (2 ^ 63 - 1) 0 := by
  obtain ⟨hp, -, hone⟩ := closed_iff.mp hfirst
  obtain ⟨hq, -, hanother⟩ := closed_iff.mp hsecond
  obtain ⟨precedence, hspelling⟩ := Option.isSome_iff_exists.mp hspelling
  have hprecedence : t.precedence? = some precedence := by
    rw [Token.precedence?, hkind]
    exact hspelling
  obtain ⟨hreading, hclear⟩ := hq.operator_around right hprecedence hentry
  have hwhole := hp.around left hreading
  rw [← List.append_assoc] at hwhole
  rw [hwhole.closed_iff_depthAfter ((hp.clear_around_iff left 0).mpr hclear)]
  have hps : ∀ r ∈ [p, q], Program.depthAfter 0 r = .ok 1 := by simp [hone, hanother]
  have htwo : (Operator.mk t.lexeme entry).entry.arity.toNat = [p, q].length := by
    rw [harity]
    rfl
  have hdepths := Program.depthAfter_operator_iff hps htwo
  rw [List.flatten_cons, List.flatten_singleton] at hdepths
  refine hdepths.trans ⟨fun h => h 1 q rfl, fun h k program hprogram => ?_⟩
  rcases k with _ | _ | later
  · exact Program.staysBelow_word 0 program
  · cases hprogram
    exact h
  · cases hprogram

/-- Closed lists are the arguments of a call where the depths of each leave room for the values of
those before it. -/
theorem Arguments.call_iff (h : Arguments scope tokens ps) (hkind : t.kind = .prefixOp)
    (hentry : scope.lookup t.lexeme = some entry) (harity : entry.arity.toNat = ps.length)
    (parens : Parens) :
    Closed scope (t :: parens.around tokens) (ps.flatten ++ [.operator ⟨t.lexeme, entry⟩]) ↔
      ∀ (k : Nat) p, ps[k]? = some p → p.StaysBelow (2 ^ 63 - k) 0 := by
  have hprecedence : t.precedence? = some .ofPrefix := by
    rw [Token.precedence?, hkind]
  obtain ⟨hreading, hclear⟩ := h.reading.operator_around parens hprecedence hentry
  rw [hreading.closed_iff_depthAfter hclear]
  exact Program.depthAfter_operator_iff h.depthAfter_eq harity

end Compositions

/-- Closed lists are put together in parentheses, as the operands of an infix operator and as the
arguments of a call. The result is closed again and its program is that of the parts and the
operator, always for parentheses alone and else exactly where the depths of each part leave room for
the values of those before it. They do where the arities of a part and its instructions together
with the parts before it are fewer than `2 ^ 63`. -/
theorem closed_compose_iff (scope : Scope) :
    (∀ tokens p, Closed scope tokens p →
      ∀ parens : Parens, Closed scope (parens.around tokens) p) ∧
    (∀ first second p q, Closed scope first p → Closed scope second q →
      ∀ t entry, t.kind = .infixOp → (Precedence.ofInfix? t.lexeme).isSome = true →
        scope.lookup t.lexeme = some entry → entry.arity = 2 → ∀ left right : Parens,
          (Closed scope (left.around first ++ t :: right.around second)
              (p ++ q ++ [.operator ⟨t.lexeme, entry⟩]) ↔ q.StaysBelow (2 ^ 63 - 1) 0)) ∧
    (∀ tokens ps, Arguments scope tokens ps →
      ∀ t entry, t.kind = .prefixOp → scope.lookup t.lexeme = some entry →
        entry.arity.toNat = ps.length → ∀ parens : Parens,
          (Closed scope (t :: parens.around tokens) (ps.flatten ++ [.operator ⟨t.lexeme, entry⟩]) ↔
            ∀ (k : Nat) p, ps[k]? = some p → p.StaysBelow (2 ^ 63 - k) 0)) ∧
    (∀ tokens p, Closed scope tokens p → (∀ i ∈ p, i.IsCounted) →
      ∀ k : Nat, p.length + k < 2 ^ 63 → p.StaysBelow (2 ^ 63 - k) 0) := by
  refine ⟨fun _ _ h parens => h.around parens, ?_, ?_, ?_⟩
  · intro first second p q hfirst hsecond t entry hkind hspelling hentry harity
    exact hfirst.infixOp_iff hsecond hkind hspelling hentry harity
  · intro tokens ps h t entry hkind hentry harity
    exact h.call_iff hkind hentry harity
  · intro tokens p h hcounted k hlength
    refine Program.staysBelow_of_isCounted hcounted Int64.toInt_zero.ge
      (closed_iff.mp h).2.2 ?_ (by omega)
    rw [Int64.toInt_zero]
    omega

/-- In `round((pi), (pi) + (pi))` every composition comes out. -/
theorem closed_compose_round :
    ∃ (pi sum whole : List Token) (p : Program), Closed .builtin pi p ∧
      Closed .builtin sum
        (p ++ p ++ [.operator ⟨"+", .ofBuiltin ⟨"+", .binary .add⟩⟩]) ∧
      Closed .builtin whole (p ++ (p ++ p ++ [.operator ⟨"+", .ofBuiltin ⟨"+", .binary .add⟩⟩]) ++
        [.operator ⟨"round", .ofBuiltin ⟨"round", .binary .round⟩⟩]) := by
  obtain ⟨hgroup, hoperands, hcall, hbelow⟩ := closed_compose_iff .builtin
  let parens : Parens := ⟨⟨.parenOpen, "(", 0⟩, ⟨.parenClose, ")", 0⟩, rfl, rfl⟩
  let p : Program := [.operator ⟨"pi", .ofBuiltin ⟨"pi", .constant .pi⟩⟩]
  have hpi : Closed .builtin [⟨.prefixOp, "pi", 0⟩] p := ⟨rfl, rfl⟩
  have hsum := (hoperands _ _ p p hpi hpi ⟨.infixOp, "+", 0⟩ (.ofBuiltin ⟨"+", .binary .add⟩) rfl
    rfl rfl rfl parens parens).mpr
      (hbelow _ p hpi (List.forall_mem_singleton.mpr (show (0 : Nat) < 2 ^ 63 by decide)) 1
        (by decide))
  have hcomma : Token.kind ⟨.separator, ",", 0⟩ = .separator := rfl
  have harguments : Arguments .builtin _ [p, _] :=
    .more (hgroup _ p hpi parens) hcomma (.last hsum)
  refine ⟨_, _, _, p, hpi, hsum, (hcall _ _ harguments ⟨.prefixOp, "round", 0⟩
    (.ofBuiltin ⟨"round", .binary .round⟩) rfl rfl rfl parens).mpr ?_⟩
  intro k q hq
  rcases k with _ | _ | later
  · cases hq
    decide
  · cases hq
    decide
  · cases hq

/-- An operation with so many operands that the depth behind it is the largest signed word. -/
def topping : Entry :=
  ⟨9223372036854775810, .primitive (.constant .pi)⟩

/-- An operation that takes the depth from the largest signed word down to one. -/
def draining : Entry :=
  ⟨9223372036854775807, .primitive (.unary .identity)⟩

/-- Alone the two operations `g f` leave one value by their arities. With a value below, the depth
behind `f` wraps, and the sum of two closed lists is refused. -/
theorem not_closed_sum :
    ∃ (scope : Scope) (first second : List Token) (p q : Program) (parens : Parens) (t : Token)
      (entry : Entry), Closed scope first p ∧ Closed scope second q ∧ t.kind = .infixOp ∧
        (Precedence.ofInfix? t.lexeme).isSome = true ∧ scope.lookup t.lexeme = some entry ∧
        entry.arity = 2 ∧
        Program.ofTokens scope (parens.around first ++ t :: parens.around second) =
          .error ⟨.arityMismatch, 0, "f"⟩ := by
  obtain ⟨scope, hscope⟩ : ∃ scope : Scope,
      scope = (Scope.builtin.insert "f" topping).insert "g" draining := ⟨_, rfl⟩
  obtain ⟨pi, hpi⟩ : ∃ pi : Instruction,
      pi = .operator ⟨"pi", .ofBuiltin ⟨"pi", .constant .pi⟩⟩ := ⟨_, rfl⟩
  obtain ⟨call, hcall⟩ : ∃ call : Program,
      call = [.operator ⟨"f", topping⟩, .operator ⟨"g", draining⟩] := ⟨_, rfl⟩
  let parens : Parens := ⟨⟨.parenOpen, "(", 0⟩, ⟨.parenClose, ")", 0⟩, rfl, rfl⟩
  have hfirst : Closed scope [⟨.prefixOp, "pi", 0⟩] [pi] := by
    rw [hscope, hpi]
    exact ⟨rfl, rfl⟩
  have hsecond : Closed scope [⟨.prefixOp, "g", 0⟩, ⟨.prefixOp, "f", 0⟩] call := by
    have hread : Program.ofTokensUnchecked scope [⟨.prefixOp, "g", 0⟩, ⟨.prefixOp, "f", 0⟩] =
        .ok call := by
      rw [hscope, hcall]
      rfl
    have hcheck : call.checkArity = .ok () := by
      rw [hcall]
      decide +kernel
    refine ⟨?_, rfl⟩
    rw [Program.ofTokens_of_unchecked hread, hcheck]
    rfl
  have hread : Program.ofTokensUnchecked scope (parens.around [⟨.prefixOp, "pi", 0⟩] ++
      ⟨.infixOp, "+", 0⟩ :: parens.around [⟨.prefixOp, "g", 0⟩, ⟨.prefixOp, "f", 0⟩]) =
        .ok (pi :: call ++ [.operator ⟨"+", .ofBuiltin ⟨"+", .binary .add⟩⟩]) := by
    rw [hscope, hpi, hcall]
    rfl
  have hcheck : Program.checkArity (pi :: call ++
      [.operator ⟨"+", .ofBuiltin ⟨"+", .binary .add⟩⟩]) = .error ⟨.arityMismatch, 0, "f"⟩ := by
    rw [hpi, hcall]
    decide +kernel
  refine ⟨scope, _, _, [pi], call, parens, ⟨.infixOp, "+", 0⟩, .ofBuiltin ⟨"+", .binary .add⟩,
    hfirst, hsecond, rfl, rfl, ?_, rfl, ?_⟩
  · rw [hscope]
    rfl
  · rw [Program.ofTokens_of_unchecked hread, hcheck]
    rfl

end Closed

end Formula
