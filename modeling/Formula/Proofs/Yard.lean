import Formula.Program.OfTokens
import Formula.Proofs.Height
import Mathlib.Data.List.Basic

/-!
# Steps of the yard

What one token does to the operators that wait and to the program so far, said once for every class
of tokens. A run over many tokens is a chain of such steps.
-/

namespace Formula

/-- How tightly a token binds, if it is an operator. -/
def Token.precedence? (t : Token) : Option Precedence :=
  match t.kind with
  | .infixOp => Precedence.ofInfix? t.lexeme
  | .prefixOp => some .ofPrefix
  | _ => none

namespace Token

/-- The instruction that a token stands for; parentheses and separators stand for none. -/
def instruction? (scope : Scope) (t : Token) : Option Instruction :=
  match t.kind with
  | .number => (Decimal.readNumeral? t.lexeme).map .number
  | .infixOp => (scope.lookup t.lexeme).map fun entry => .operator ⟨t.lexeme, entry⟩
  | .prefixOp => (scope.lookup t.lexeme).map fun entry => .operator ⟨t.lexeme, entry⟩
  | _ => none

/-- How many operands a token takes. -/
def operands (scope : Scope) (t : Token) : Nat :=
  (t.instruction? scope).elim 0 Instruction.arity

variable {scope : Scope} {t : Token}

theorem instruction?_number {value : Float} (hkind : t.kind = .number)
    (hvalue : Decimal.readNumeral? t.lexeme = some value) :
    t.instruction? scope = some (.number value) := by
  rw [instruction?, hkind, hvalue]
  rfl

/-- Only operators have a precedence. -/
theorem kind_of_precedence? {precedence : Precedence} (h : t.precedence? = some precedence) :
    t.kind = .infixOp ∨ t.kind = .prefixOp := by
  unfold precedence? at h
  split at h
  · exact .inl (by assumption)
  · exact .inr (by assumption)
  · cases h

theorem instruction?_operator {precedence : Precedence} {entry : Entry}
    (hprecedence : t.precedence? = some precedence) (hentry : scope.lookup t.lexeme = some entry) :
    t.instruction? scope = some (.operator ⟨t.lexeme, entry⟩) := by
  unfold precedence? at hprecedence
  split at hprecedence
  · rename_i hkind
    rw [instruction?, hkind, hentry]
    rfl
  · rename_i hkind
    rw [instruction?, hkind, hentry]
    rfl
  · cases hprecedence

theorem instruction?_parenOpen (hkind : t.kind = .parenOpen) : t.instruction? scope = none := by
  rw [instruction?, hkind]

theorem instruction?_parenClose (hkind : t.kind = .parenClose) : t.instruction? scope = none := by
  rw [instruction?, hkind]

theorem instruction?_separator (hkind : t.kind = .separator) : t.instruction? scope = none := by
  rw [instruction?, hkind]

theorem lookup_of_instruction? {op : Operator}
    (h : t.instruction? scope = some (.operator op)) : scope.lookup op.name = some op.entry := by
  unfold instruction? at h
  split at h
  · obtain ⟨value, -, hvalue⟩ := Option.map_eq_some_iff.mp h
    cases hvalue
  · obtain ⟨entry, hentry, hop⟩ := Option.map_eq_some_iff.mp h
    cases hop
    exact hentry
  · obtain ⟨entry, hentry, hop⟩ := Option.map_eq_some_iff.mp h
    cases hop
    exact hentry
  · cases h

end Token

namespace Pending

/-- Operators that wait, with their ranks. -/
def ofOperators (ops : List (Operator × Nat)) : List Pending :=
  ops.map fun waiting => .operator waiting.1 waiting.2

@[simp] theorem ofOperators_nil : ofOperators [] = [] := rfl

@[simp] theorem ofOperators_cons (waiting : Operator × Nat) (ops : List (Operator × Nat)) :
    ofOperators (waiting :: ops) = .operator waiting.1 waiting.2 :: ofOperators ops := rfl

theorem ofOperators_append (ops more : List (Operator × Nat)) :
    ofOperators (ops ++ more) = ofOperators ops ++ ofOperators more :=
  List.map_append

@[simp] theorem filterMap_ofOperators (ops : List (Operator × Nat)) :
    (ofOperators ops).filterMap operator? = ops.map Prod.fst := by
  induction ops with
  | nil => rfl
  | cons waiting ops ih => simp [operator?, ih]

/-- No operator on top gives way. -/
def Holds (gives : Nat → Bool) (stack : List Pending) : Prop :=
  ∀ op rank rest, stack = .operator op rank :: rest → gives rank = false

/-- Operators that give way are released down to the first that does not. -/
theorem release_append {gives : Nat → Bool} {ops : List (Operator × Nat)} {left : List Pending}
    (hops : ∀ waiting ∈ ops, gives waiting.2 = true) (hleft : Holds gives left) :
    release gives (ofOperators ops ++ left) = (ops.map Prod.fst, left) := by
  induction ops with
  | nil =>
    cases left with
    | nil => rfl
    | cons pending rest =>
      cases pending with
      | parenOpen => rfl
      | operator op rank => simp [release, hleft op rank rest rfl]
  | cons waiting ops ih =>
    have hrest := ih fun other hother => hops other (by simp [hother])
    simp [release, hops waiting (by simp), hrest]

/-- A stack is what is released from it and what is left. -/
theorem exists_release (gives : Nat → Bool) (stack : List Pending) :
    ∃ ops left, stack = ofOperators ops ++ left ∧ (∀ waiting ∈ ops, gives waiting.2 = true) ∧
      Holds gives left := by
  induction stack with
  | nil => exact ⟨[], [], rfl, by simp, by simp [Holds]⟩
  | cons pending stack ih =>
    cases pending with
    | parenOpen => exact ⟨[], _, rfl, by simp, by simp [Holds]⟩
    | operator op rank =>
      by_cases hgives : gives rank = true
      · obtain ⟨ops, left, hstack, hops, hleft⟩ := ih
        refine ⟨(op, rank) :: ops, left, by simp [hstack], ?_, hleft⟩
        intro waiting hwaiting
        rcases List.mem_cons.mp hwaiting with rfl | hwaiting
        · exact hgives
        · exact hops waiting hwaiting
      · refine ⟨[], _, rfl, by simp, ?_⟩
        intro other otherRank rest heq
        cases heq
        simpa using hgives

/-- Where everything gives way, an open parenthesis is all that holds. -/
theorem eq_of_holds_all {stack : List Pending} (h : Holds (fun _ => true) stack) :
    stack = [] ∨ ∃ rest, stack = .parenOpen :: rest := by
  cases stack with
  | nil => exact Or.inl rfl
  | cons pending rest =>
    cases pending with
    | parenOpen => exact Or.inr ⟨rest, rfl⟩
    | operator op rank => exact absurd (h op rank rest rfl) (by simp)

end Pending

namespace Yard

open Pending

/-- The program so far, with operators that were just released behind it. -/
def outputWith (y : Yard) (ops : List (Operator × Nat)) : Program :=
  y.output.toList ++ ops.map fun waiting => .operator waiting.1

/-- One token read: what waits and the program so far, before and behind it. -/
inductive Reads (scope : Scope) (y : Yard) (t : Token) (next : Yard) : Prop where
  | number {value : Float} (hkind : t.kind = .number)
      (hvalue : Decimal.readNumeral? t.lexeme = some value) (hstack : next.stack = y.stack)
      (houtput : next.output.toList = y.output.toList ++ [.number value])
  | operator {precedence : Precedence} {entry : Entry} {ops : List (Operator × Nat)}
      {left : List Pending} (hprecedence : t.precedence? = some precedence)
      (hentry : scope.lookup t.lexeme = some entry) (hbefore : y.stack = ofOperators ops ++ left)
      (hops : ∀ waiting ∈ ops, precedence.yields waiting.2 = true)
      (hleft : Holds precedence.yields left)
      (hstack : next.stack = .operator ⟨t.lexeme, entry⟩ precedence.rank :: left)
      (houtput : next.output.toList = y.outputWith ops)
  | parenOpen (hkind : t.kind = .parenOpen) (hstack : next.stack = .parenOpen :: y.stack)
      (houtput : next.output.toList = y.output.toList)
  | parenClose {ops : List (Operator × Nat)} {left : List Pending} (hkind : t.kind = .parenClose)
      (hbefore : y.stack = ofOperators ops ++ .parenOpen :: left) (hstack : next.stack = left)
      (houtput : next.output.toList = y.outputWith ops)
  | separator {ops : List (Operator × Nat)} {left : List Pending} (hkind : t.kind = .separator)
      (hbefore : y.stack = ofOperators ops ++ .parenOpen :: left)
      (hstack : next.stack = .parenOpen :: left) (houtput : next.output.toList = y.outputWith ops)

theorem stack_release {gives : Nat → Bool} {y : Yard} {ops : List (Operator × Nat)}
    {left : List Pending} (hbefore : y.stack = ofOperators ops ++ left)
    (hops : ∀ waiting ∈ ops, gives waiting.2 = true) (hleft : Holds gives left) :
    (y.release gives).stack = left := by
  rw [release, hbefore, release_append hops hleft]

theorem output_release {gives : Nat → Bool} {y : Yard} {ops : List (Operator × Nat)}
    {left : List Pending} (hbefore : y.stack = ofOperators ops ++ left)
    (hops : ∀ waiting ∈ ops, gives waiting.2 = true) (hleft : Holds gives left) :
    (y.release gives).output.toList = y.outputWith ops := by
  rw [release, hbefore, release_append hops hleft]
  simp [outputWith, List.map_map, Function.comp_def]

/-- A yard is known by what waits and by the program so far. -/
theorem eq_of_stack_of_output {y z : Yard} (hstack : y.stack = z.stack)
    (houtput : y.output.toList = z.output.toList) : y = z := by
  rcases y with ⟨stack, output⟩
  rcases z with ⟨stack', output'⟩
  have harrays : output = output' := Array.toList_inj.mp houtput
  simp only [harrays, mk.injEq, and_true]
  exact hstack

/-- Flushing finds an open parenthesis exactly when one waits below operators only. -/
theorem flush?_eq_some_iff {y flushed : Yard} :
    y.flush? = some flushed ↔
      ∃ ops left, y.stack = ofOperators ops ++ .parenOpen :: left ∧
        flushed.stack = .parenOpen :: left ∧ flushed.output.toList = y.outputWith ops := by
  constructor
  · intro h
    obtain ⟨ops, left, hbefore, hops, hleft⟩ := exists_release (fun _ => true) y.stack
    have hstack := stack_release hbefore hops hleft
    have houtput := output_release hbefore hops hleft
    unfold flush? at h
    dsimp only at h
    rcases eq_of_holds_all hleft with rfl | ⟨rest, rfl⟩
    · simp [hstack] at h
    · rw [hstack] at h
      cases h
      exact ⟨ops, rest, hbefore, hstack, houtput⟩
  · rintro ⟨ops, left, hbefore, hstack, houtput⟩
    have hops : ∀ waiting ∈ ops, (fun _ : Nat => true) waiting.2 = true := fun _ _ => rfl
    have hleft : Holds (fun _ => true) (.parenOpen :: left) := by simp [Holds]
    have hstack' := stack_release hbefore hops hleft
    have houtput' := output_release hbefore hops hleft
    unfold flush?
    dsimp only
    rw [hstack', List.isEmpty_cons, if_neg Bool.false_ne_true]
    exact congrArg some (eq_of_stack_of_output (hstack'.trans hstack.symm)
      (houtput'.trans houtput.symm))

/-- What waits behind an arriving operator, and the program then. -/
theorem arrive_eq_iff {y next : Yard} {precedence : Precedence} {op : Operator} :
    y.arrive precedence op = next ↔
      ∃ ops left, y.stack = ofOperators ops ++ left ∧
        (∀ waiting ∈ ops, precedence.yields waiting.2 = true) ∧ Holds precedence.yields left ∧
        next.stack = .operator op precedence.rank :: left ∧
        next.output.toList = y.outputWith ops := by
  constructor
  · rintro rfl
    obtain ⟨ops, left, hbefore, hops, hleft⟩ := exists_release precedence.yields y.stack
    refine ⟨ops, left, hbefore, hops, hleft, ?_, output_release hbefore hops hleft⟩
    rw [arrive, wait, stack_release hbefore hops hleft]
  · rintro ⟨ops, left, hbefore, hops, hleft, hstack, houtput⟩
    apply eq_of_stack_of_output
    · rw [arrive, wait, stack_release hbefore hops hleft, hstack]
    · exact (output_release hbefore hops hleft).trans houtput.symm

/-- A token is read in one of five ways. -/
theorem step_eq_ok_iff {scope : Scope} {y next : Yard} {t : Token} :
    y.step scope t = .ok next ↔ Reads scope y t next := by
  constructor
  · intro h
    cases hkind : t.kind with
    | number =>
      simp only [step, hkind] at h
      split at h
      · rename_i value hvalue
        cases h
        exact .number hkind hvalue rfl Array.toList_push
      · cases h
    | infixOp =>
      simp only [step, hkind] at h
      split at h
      · cases h
      · cases h
      · rename_i precedence entry hprecedence hentry
        obtain ⟨ops, left, hbefore, hops, hleft, hstack, houtput⟩ :=
          arrive_eq_iff.mp (Except.ok.inj h)
        exact .operator (by rw [Token.precedence?, hkind, hprecedence]) hentry hbefore hops hleft
          hstack houtput
    | prefixOp =>
      simp only [step, hkind] at h
      split at h
      · cases h
      · rename_i entry hentry
        obtain ⟨ops, left, hbefore, hops, hleft, hstack, houtput⟩ :=
          arrive_eq_iff.mp (Except.ok.inj h)
        exact .operator (by rw [Token.precedence?, hkind]) hentry hbefore hops hleft hstack houtput
    | parenOpen =>
      simp only [step, hkind] at h
      cases h
      exact .parenOpen hkind rfl rfl
    | parenClose =>
      simp only [step, hkind] at h
      split at h
      · cases h
      · rename_i flushed hflush
        obtain ⟨ops, left, hbefore, hstack, houtput⟩ := flush?_eq_some_iff.mp hflush
        cases h
        exact .parenClose hkind hbefore (by simp [hstack]) houtput
    | separator =>
      simp only [step, hkind] at h
      split at h
      · cases h
      · rename_i flushed hflush
        obtain ⟨ops, left, hbefore, hstack, houtput⟩ := flush?_eq_some_iff.mp hflush
        cases h
        exact .separator hkind hbefore hstack houtput
  · intro h
    cases h with
    | number hkind hvalue hstack houtput =>
      simp only [step, hkind, hvalue]
      refine congrArg Except.ok (eq_of_stack_of_output hstack.symm ?_)
      rw [houtput]
      exact Array.toList_push
    | operator hprecedence hentry hbefore hops hleft hstack houtput =>
      have harrive := arrive_eq_iff.mpr ⟨_, _, hbefore, hops, hleft, hstack, houtput⟩
      unfold Token.precedence? at hprecedence
      split at hprecedence
      · rename_i hkind
        simp only [step, hkind, hprecedence, hentry, harrive]
      · rename_i hkind
        cases hprecedence
        simp only [step, hkind, hentry, harrive]
      · cases hprecedence
    | parenOpen hkind hstack houtput =>
      simp only [step, hkind]
      exact congrArg Except.ok (eq_of_stack_of_output hstack.symm houtput.symm)
    | parenClose hkind hbefore hstack houtput =>
      rename_i ops left
      have hflush : y.flush? = some ⟨.parenOpen :: left, (y.outputWith ops).toArray⟩ :=
        flush?_eq_some_iff.mpr ⟨ops, left, hbefore, rfl, rfl⟩
      simp only [step, hkind, hflush]
      exact congrArg Except.ok (eq_of_stack_of_output hstack.symm houtput.symm)
    | separator hkind hbefore hstack houtput =>
      have hflush := flush?_eq_some_iff.mpr ⟨_, _, hbefore, hstack, houtput⟩
      simp only [step, hkind, hflush]

/-- A number or an operator that is read has an instruction. -/
theorem Reads.isSome_instruction? {scope : Scope} {y next : Yard} {t : Token}
    (h : Reads scope y t next)
    (hkind : t.kind = .number ∨ t.kind = .infixOp ∨ t.kind = .prefixOp) :
    (t.instruction? scope).isSome := by
  cases h with
  | number hnumber hvalue =>
    rw [Token.instruction?_number hnumber hvalue]
    rfl
  | operator hprecedence hentry =>
    rw [Token.instruction?_operator hprecedence hentry]
    rfl
  | parenOpen hparen => simp [hparen] at hkind
  | parenClose hparen => simp [hparen] at hkind
  | separator hseparator => simp [hseparator] at hkind

/-- Tokens read one after another. -/
inductive Run (scope : Scope) : Yard → List Token → Yard → Prop where
  | nil (y : Yard) : Run scope y [] y
  | cons {y next final : Yard} {t : Token} {tokens : List Token} (hstep : Reads scope y t next)
      (hrest : Run scope next tokens final) : Run scope y (t :: tokens) final

theorem foldlM_step_eq_ok_iff {scope : Scope} {y final : Yard} {tokens : List Token} :
    tokens.foldlM (step scope) y = .ok final ↔ Run scope y tokens final := by
  induction tokens generalizing y with
  | nil =>
    constructor
    · intro h
      cases h
      exact .nil _
    · rintro ⟨⟩
      rfl
  | cons t tokens ih =>
    rw [List.foldlM_cons]
    constructor
    · intro h
      cases hstep : y.step scope t with
      | error fault =>
        rw [hstep] at h
        cases h
      | ok next =>
        rw [hstep] at h
        exact .cons (step_eq_ok_iff.mp hstep) (ih.mp h)
    · intro h
      cases h with
      | cons hstep hrest =>
        rw [step_eq_ok_iff.mpr hstep]
        exact ih.mpr hrest

theorem Run.append {scope : Scope} {y middle final : Yard} {front back : List Token}
    (hfront : Run scope y front middle) (hback : Run scope middle back final) :
    Run scope y (front ++ back) final := by
  induction hfront with
  | nil => exact hback
  | cons hstep hrest ih => exact .cons hstep (ih hback)

/-- Reading a token adds its instruction, if it has one, and moves others at most. -/
theorem Reads.finish_perm {scope : Scope} {y next : Yard} {t : Token}
    (h : Reads scope y t next) :
    next.finish.Perm (y.finish ++ (t.instruction? scope).toList) := by
  have hreleased : ∀ (ops : List (Operator × Nat)) (left : List Pending),
      y.stack = ofOperators ops ++ left →
      y.finish = y.outputWith ops ++ (left.filterMap operator?).map .operator := by
    intro ops left hbefore
    rw [finish, hbefore, List.filterMap_append, filterMap_ofOperators, List.map_append,
      List.map_map, outputWith, List.append_assoc]
    rfl
  cases h with
  | number hkind hvalue hstack houtput =>
    rw [finish, hstack, houtput, Token.instruction?_number hkind hvalue, finish, List.append_assoc,
      List.append_assoc]
    exact List.perm_append_comm.append_left _
  | operator hprecedence hentry hbefore hops hleft hstack houtput =>
    rw [finish, hstack, houtput, hreleased _ _ hbefore,
      Token.instruction?_operator hprecedence hentry, List.append_assoc]
    exact (List.perm_append_singleton _ _).symm.append_left _
  | parenOpen hkind hstack houtput =>
    rw [finish, hstack, houtput, Token.instruction?_parenOpen hkind,
      List.filterMap_cons_none rfl]
    simp [finish]
  | parenClose hkind hbefore hstack houtput =>
    rw [finish, hstack, houtput, hreleased _ _ hbefore, Token.instruction?_parenClose hkind,
      List.filterMap_cons_none rfl]
    simp
  | separator hkind hbefore hstack houtput =>
    rw [finish, hstack, houtput, hreleased _ _ hbefore, Token.instruction?_separator hkind]
    simp

theorem Run.isSome_instruction? {scope : Scope} {y final : Yard} {tokens : List Token}
    (h : Run scope y tokens final) :
    ∀ t ∈ tokens, t.kind = .number ∨ t.kind = .infixOp ∨ t.kind = .prefixOp →
      (t.instruction? scope).isSome := by
  induction h with
  | nil => simp
  | cons hstep hrest ih =>
    intro t ht hkind
    rcases List.mem_cons.mp ht with rfl | ht
    · exact hstep.isSome_instruction? hkind
    · exact ih t ht hkind

/-- A program is made of the instructions of its tokens. -/
theorem Run.finish_perm {scope : Scope} {y final : Yard} {tokens : List Token}
    (h : Run scope y tokens final) :
    final.finish.Perm (y.finish ++ tokens.filterMap (Token.instruction? scope)) := by
  induction h with
  | nil => simp
  | cons hstep hrest ih =>
    rw [List.filterMap_eq_flatMap_toList, List.flatMap_cons, ← List.filterMap_eq_flatMap_toList,
      ← List.append_assoc]
    exact ih.trans (hstep.finish_perm.append_right _)

end Yard

namespace Program

/-- A list of tokens is read into the program that a run over them leaves, if its arities come
out. -/
theorem ofTokens_eq_ok_iff {scope : Scope} {tokens : List Token} {p : Program} :
    ofTokens scope tokens = .ok p ↔
      ∃ final, Yard.Run scope .start tokens final ∧ p = final.finish ∧ p.checkArity = .ok () := by
  unfold ofTokens ofTokensUnchecked
  constructor
  · intro h
    cases hrun : tokens.foldlM (Yard.step scope) .start with
    | error fault => simp [hrun, Except.map] at h
    | ok final =>
      refine ⟨final, Yard.foldlM_step_eq_ok_iff.mp hrun, ?_⟩
      simp only [hrun, Except.map] at h
      split at h
      · cases h
      · cases h
        exact ⟨rfl, by assumption⟩
  · rintro ⟨final, hrun, rfl, hcheck⟩
    rw [Yard.foldlM_step_eq_ok_iff.mpr hrun]
    simp only [Except.map, hcheck]

/-- A program is made of the instructions of its tokens. -/
theorem perm_of_ofTokens {scope : Scope} {tokens : List Token} {p : Program}
    (h : ofTokens scope tokens = .ok p) :
    p.Perm (tokens.filterMap (Token.instruction? scope)) := by
  obtain ⟨final, hrun, rfl, -⟩ := ofTokens_eq_ok_iff.mp h
  simpa [Yard.finish, Yard.start] using hrun.finish_perm

end Program

end Formula
